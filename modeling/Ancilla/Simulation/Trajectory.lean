import Ancilla.Circuit.Basic
import Ancilla.Simulation.Random
import Ancilla.Simulation.StateVector

/-! Circuits lowered to steps, and the run of the steps from the zero state for one sequence of
random numbers. -/

namespace Ancilla

inductive Step (α : Type)
  | gate (kernels : List (Kernel α)) (condition : Option Condition)
  | measure (qubit : QubitId) (clbit : ClbitId)
  deriving DecidableEq, Repr

namespace Step

variable {R α : Type} [Scalar R] [Amplitude R α]

def angles (b : Bindings R) (es : List (Expr R)) : Except SimulationError (List R) :=
  es.mapM fun e => match e.evaluate b with
    | .ok v => .ok v
    | .error err => .error (.circuit (.parameter err))

/-- The steps of one instruction. With `collapse` a measurement is a step, on the first qubit and
bit it names; without, it is passed over. -/
def ofInstruction (b : Bindings R) (collapse : Bool) (i : Instruction R) :
    Except SimulationError (List (Step α)) :=
  match i.operation with
  | .gate g => do
    let kernels ← Kernel.lower g.kind i.qubits (← angles b g.kind.parameters)
    return [gate kernels g.condition]
  | .measure =>
    match collapse, i.qubits, i.clbits with
    | true, q :: _, c :: _ => .ok [measure q c]
    | _, _, _ => .ok []
  | .barrier => .ok []

def ofInstructions (b : Bindings R) (collapse : Bool) :
    List (Instruction R) → Except SimulationError (List (Step α))
  | [] => .ok []
  | i :: rest => do
    let first ← ofInstruction b collapse i
    let others ← ofInstructions b collapse rest
    return first ++ others

def ofCircuit (c : Circuit R) (b : Bindings R) (collapse : Bool) :
    Except SimulationError (List (Step α)) :=
  ofInstructions b collapse c.instructions.toList

end Step

structure Trajectory (α σ : Type) where
  state : StateVector α
  clbits : Array Bool
  source : σ
  deriving DecidableEq, Repr

namespace Trajectory

variable {R α σ : Type} [Scalar R] [Amplitude R α] [DrawSource σ R]

def start (width numClbits : Nat) (source : σ) : Trajectory α σ :=
  ⟨StateVector.zero width, Array.replicate numClbits false, source⟩

def read (t : Trajectory α σ) (c : ClbitId) : Bool := t.clbits.getD c false

@[specialize]
def step (t : Trajectory α σ) : Step α → Trajectory α σ
  | .gate kernels condition =>
    let fires := match condition with
      | some c => c.holds t.read
      | none => true
    if fires then { t with state := t.state.applyAll kernels } else t
  | .measure q c =>
    let (draw, source) := DrawSource.next t.source
    let (bit, state) := t.state.measure q draw
    { state, clbits := t.clbits.setIfInBounds c bit, source }

@[specialize]
def run (t : Trajectory α σ) (steps : List (Step α)) : Trajectory α σ := steps.foldl step t

end Trajectory

end Ancilla
