import Std.Data.TreeMap
import Ancilla.Simulation.Trajectory

/-!
Simulations of circuits. Without shots the exact distribution of the output registers is given.
With shots it is sampled: from the final state if no later operation depends on a measurement,
else by one run for every shot.
-/

namespace Ancilla

structure OutputRegister where
  name : String
  qubits : List QubitId
  deriving DecidableEq, Repr

structure SimulationRequest (R : Type) where
  circuit : Circuit R
  bindings : Bindings R := []
  outputs : List OutputRegister := []
  shots : Option Nat := none
  seed : Option Nat := none
  isCancelled : Bool := false

abbrev Outcome := List Nat

inductive SimulationResult (R α : Type)
  | exact (registers : List String) (probabilities : Std.TreeMap Outcome R)
      (amplitudes : Array α) (normDrift : R)
  | sampled (registers : List String) (shots : Nat) (counts : Std.TreeMap Outcome Nat)
      (normDrift : R)

namespace SimulationResult

variable {R α : Type}

def normDrift : SimulationResult R α → R
  | exact _ _ _ d => d
  | sampled _ _ _ d => d

def registers : SimulationResult R α → List String
  | exact names .. => names
  | sampled names .. => names

variable [Scalar R]

def probability (r : SimulationResult R α) (o : Outcome) : R :=
  match r with
  | exact _ probabilities _ _ => probabilities.getD o Scalar.zero
  | sampled _ shots counts _ =>
    if shots = 0 then Scalar.zero
    else Scalar.ofInt (counts.getD o 0) / Scalar.ofInt shots

def mostLikely? : SimulationResult R α → Option Outcome
  | exact _ probabilities _ _ =>
    (probabilities.foldl
      (fun best o p => match best with
        | some (_, q) => if Scalar.below p q then best else some (o, p)
        | none => some (o, p))
      (none : Option (Outcome × R))).map Prod.fst
  | sampled _ _ counts _ =>
    (counts.foldl
      (fun best o n => match best with
        | some (_, k) => if n < k then best else some (o, n)
        | none => some (o, n))
      (none : Option (Outcome × Nat))).map Prod.fst

end SimulationResult

structure Simulator where
  settings : Settings

namespace Simulator

def ofSettings (s : Settings) : Except SimulationError Simulator :=
  match s.check with
  | .ok s => .ok ⟨s⟩
  | .error e => .error (.settings e)

section Readout

variable {R : Type}

def checkWidth (sim : Simulator) (c : Circuit R) : Except SimulationError Nat :=
  let width := c.width
  if sim.settings.maxQubits < width then .error (.tooManyQubits width sim.settings.maxQubits)
  else .ok width

def resolveRegisters (outputs : List OutputRegister) (width : Nat) :
    Except SimulationError (List OutputRegister) :=
  if outputs.isEmpty then .ok [⟨"q", List.range width⟩]
  else
    let bad := outputs.findSome? fun r =>
      (r.qubits.find? fun q => width ≤ q).map fun q => (r.name, q)
    match bad with
    | some (name, q) => .error (.invalidRegister name q)
    | none => .ok outputs

def readBits (index : Nat) : List QubitId → Nat
  | [] => 0
  | q :: qs => (if index.testBit q then 1 else 0) + 2 * readBits index qs

def readOut (registers : List OutputRegister) (index : Nat) : Outcome :=
  registers.map fun r => readBits index r.qubits

def tally (counts : Std.TreeMap Outcome Nat) (o : Outcome) : Std.TreeMap Outcome Nat :=
  counts.alter o fun n => some (n.getD 0 + 1)

end Readout

variable {R α σ : Type} [Scalar R] [Amplitude R α] [DrawSource σ R]

def negligible : R := Scalar.one / Scalar.ofInt 1000000000000000

@[specialize]
def cumulative (v : Array α) : Array R :=
  (v.foldl
    (fun (total, acc) a =>
      let total := total + Amplitude.normSq a
      (total, acc.push total))
    ((Scalar.zero : R), (#[] : Array R))).2

/-- The first position in `[low, high)` whose entry lies above a level, or `high`; the entries must
not descend. -/
@[specialize]
def firstAbove (table : Array R) (level : R) (low high : Nat) : Nat :=
  if low < high then
    let mid := (low + high) / 2
    if Scalar.below level (table.getD mid Scalar.zero) then firstAbove table level low mid
    else firstAbove table level (mid + 1) high
  else low
termination_by high - low

@[specialize]
def choose (table : Array R) (draw : R) : Nat :=
  let total := table.getD (table.size - 1) Scalar.zero
  min (firstAbove table (draw * total) 0 table.size) (table.size - 1)

@[specialize]
def distribution (registers : List OutputRegister) (v : Array α) : Std.TreeMap Outcome R :=
  v.zipIdx.foldl
    (fun acc (a, index) =>
      let p := Amplitude.normSq a
      if Scalar.below negligible p then
        acc.alter (readOut registers index) fun q => some (q.getD Scalar.zero + p)
      else acc)
    {}

@[specialize]
def drift (s : StateVector α) : R := Scalar.abs (s.normSq - Scalar.one)

@[specialize]
def sampleStatic (registers : List OutputRegister) (table : Array R) :
    Nat → σ → Std.TreeMap Outcome Nat → Std.TreeMap Outcome Nat
  | 0, _, counts => counts
  | shots + 1, source, counts =>
    let (draw, source) := DrawSource.next source
    sampleStatic registers table shots source (tally counts (readOut registers (choose table draw)))

@[specialize]
def trajectory (isCancelled : Bool) (steps : List (Step α)) (width numClbits : Nat) (source : σ) :
    Except SimulationError (StateVector α × σ) :=
  if isCancelled then .error .cancelled
  else
    let t := (Trajectory.start width numClbits source).run steps
    .ok (t.state, t.source)

@[specialize]
def sampleDynamic (registers : List OutputRegister)
    (once : σ → Except SimulationError (StateVector α × σ)) :
    Nat → σ → Std.TreeMap Outcome Nat → R → Except SimulationError (Std.TreeMap Outcome Nat × R)
  | 0, _, counts, d => .ok (counts, d)
  | shots + 1, source, counts, d => do
    let (state, source) ← once source
    let (draw, source) := DrawSource.next source
    let counts := tally counts (readOut registers (state.sample draw))
    sampleDynamic registers once shots source counts (Scalar.max d (drift state))

@[specialize]
def runFrom (sim : Simulator) (request : SimulationRequest R) (source : σ) :
    Except SimulationError (SimulationResult R α) := do
  let circuit := request.circuit
  let width ← sim.checkWidth circuit
  if let some name := circuit.symbols.find? fun name => !request.bindings.binds name then
    throw (.parameterBinding name)
  let registers ← resolveRegisters request.outputs width
  let dynamic := circuit.isDynamic
  let steps ← Step.ofCircuit circuit request.bindings dynamic
  let names := registers.map OutputRegister.name
  let once (source : σ) : Except SimulationError (StateVector α × σ) :=
    trajectory request.isCancelled steps width circuit.numClbits source
  match request.shots, dynamic with
  | none, true => throw .dynamicCircuit
  | none, false =>
    let (state, _) ← once source
    return .exact names (distribution registers state.amplitudes) state.amplitudes (drift state)
  | some shots, false =>
    let (state, source) ← once source
    let counts := sampleStatic registers (cumulative state.amplitudes) shots source {}
    return .sampled names shots counts (drift state)
  | some shots, true =>
    let (counts, d) ← sampleDynamic registers once shots source {} Scalar.zero
    return .sampled names shots counts d

end Simulator

namespace Simulator

def run (sim : Simulator) (request : SimulationRequest Float) :
    Except SimulationError (SimulationResult Float ComplexFloat) :=
  -- the seed of the request goes before that of the settings
  let seed := (request.seed <|> sim.settings.seed).getD 0
  sim.runFrom request (Generator.ofSeed seed)

def stateVector (sim : Simulator) (c : Circuit Float) (b : Bindings Float) :
    Except SimulationError (StateVector ComplexFloat) := do
  match ← sim.run { circuit := c, bindings := b } with
  | .exact _ _ amplitudes _ => return ⟨c.width, amplitudes⟩
  | .sampled .. => throw .dynamicCircuit

end Simulator

end Ancilla
