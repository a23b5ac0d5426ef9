import Ancilla.Simulation.Simulator

/-!
States of circuits whose angles are partly open.

A symbolic state is the list of its kernels, with the cosines, sines and phases of open angles in
their matrices. The amplitudes are computed along the kernels for every set of bindings anew: known
numbers are folded at once, and zero and one are dropped from sums and products, so that an
amplitude is a known number wherever the open angles cannot reach it and an angle without a value
only matters where it is used.
-/

namespace Ancilla

inductive AngleFunction (R : Type)
  | cos (e : Expr R)
  | sin (e : Expr R)
  | cis (e : Expr R)
  deriving DecidableEq, Repr

inductive SymbolicEntry (R α : Type)
  | known (c : α)
  | angle (f : AngleFunction R)
  | mul (a b : SymbolicEntry R α)
  deriving DecidableEq, Repr

/-- An amplitude during an evaluation: a known number, or the outcome of evaluating what depends
on open angles. -/
inductive Staged (ε α : Type)
  | known (c : α)
  | pending (v : Except ε α)

namespace Staged

variable {ε α : Type}

def known? : Staged ε α → Option α
  | known c => some c
  | pending _ => none

def value : Staged ε α → Except ε α
  | known c => .ok c
  | pending v => v

variable [Zero α] [One α] [Add α] [Mul α] [BEq α]

def isZero : Staged ε α → Bool
  | known c => c == 0
  | pending _ => false

def isOne : Staged ε α → Bool
  | known c => c == 1
  | pending _ => false

def add (a b : Staged ε α) : Staged ε α :=
  match a, b with
  | known x, known y => known (x + y)
  | a, b =>
    if a.isZero then b
    else if b.isZero then a
    else pending do return (← a.value) + (← b.value)

def mul (a b : Staged ε α) : Staged ε α :=
  match a, b with
  | known x, known y => known (x * y)
  | a, b =>
    if a.isZero || b.isZero then known 0
    else if a.isOne then b
    else if b.isOne then a
    else pending do return (← a.value) * (← b.value)

def applyKernel (k : Kernel (Staged ε α)) (v : Array (Staged ε α)) : Array (Staged ε α) :=
  let stride := bitWeight k.target
  v.mapIdx fun index a =>
    if index.testBit k.target then
      let low := index - stride
      let other := v.getD low (known 0)
      if low &&& k.controls = k.controls && !(other.isZero && a.isZero) then
        (k.matrix.m10.mul other).add (k.matrix.m11.mul a)
      else a
    else
      let other := v.getD (index + stride) (known 0)
      if index &&& k.controls = k.controls && !(a.isZero && other.isZero) then
        (k.matrix.m00.mul a).add (k.matrix.m01.mul other)
      else a

end Staged

section Entries

variable {R α : Type} [Scalar R] [Amplitude R α]

def AngleFunction.evaluate (b : Bindings R) : AngleFunction R → Except ParameterError α
  | cos e => do return Amplitude.ofReal (Scalar.cos (← e.evaluate b))
  | sin e => do return Amplitude.ofReal (Scalar.sin (← e.evaluate b))
  | cis e => do return Amplitude.polar Scalar.one (← e.evaluate b)

def SymbolicEntry.stage {ε : Type} (value : AngleFunction R → Except ε α) :
    SymbolicEntry R α → Staged ε α
  | known c => .known c
  | angle f => .pending (value f)
  | mul a b => (a.stage value).mul (b.stage value)

def Expr.half (e : Expr R) : Expr R := .binary .div e (.constant Scalar.two)

def symbolicMatrix? (g : Standard R) (angles : List (Expr R)) :
    Option (Matrix2 (SymbolicEntry R α)) :=
  match angles.mapM Expr.value? with
  | some values => (Kernel.rootMatrix? g values).map fun m => m.map SymbolicEntry.known
  | none =>
    let zero : SymbolicEntry R α := .known 0
    let one : SymbolicEntry R α := .known 1
    let minusOne : SymbolicEntry R α := .known (-1)
    let minusI : SymbolicEntry R α := .known (-Amplitude.i)
    let cos (e : Expr R) : SymbolicEntry R α := .angle (.cos e.half)
    let sin (e : Expr R) : SymbolicEntry R α := .angle (.sin e.half)
    let cis (e : Expr R) : SymbolicEntry R α := .angle (.cis e)
    match g, angles with
    | .rx _, [a] => some ⟨cos a, .mul minusI (sin a), .mul minusI (sin a), cos a⟩
    | .ry _, [a] => some ⟨cos a, .mul minusOne (sin a), sin a, cos a⟩
    | .rz _, [a] => some ⟨cis a.half.opposite, zero, zero, cis a.half⟩
    | .p _, [a] => some ⟨one, zero, zero, cis a⟩
    | .u .., [a, b, c] =>
      some ⟨cos a, .mul (.mul minusOne (cis c)) (sin a), .mul (cis b) (sin a),
        .mul (cis (.binary .add b c)) (cos a)⟩
    | _, _ => none

def symbolicKernels (kind : GateKind R) (qubits : List QubitId) (angles : List (Expr R)) :
    Except SimulationError (List (Kernel (SymbolicEntry R α))) :=
  let (root, n) := kind.splitControls
  let controls := bitMask (qubits.take n)
  let targets := qubits.drop n
  match root with
  | .swap =>
    let known (k : Kernel α) : Kernel (SymbolicEntry R α) :=
      { k with matrix := k.matrix.map .known }
    .ok ((Kernel.exchange controls (targets.getD 0 0) (targets.getD 1 0)).map known)
  | root =>
    match symbolicMatrix? root angles with
    | some matrix => .ok [⟨matrix, targets.getD 0 0, controls⟩]
    | none => .error (.unsupportedGate root.name)

end Entries

/-- The final state of a circuit with open angles: the kernels that lead to it and the symbols that
are open. -/
structure SymbolicState (R α : Type) where
  numQubits : Nat
  symbols : List String := []
  kernels : List (Kernel (SymbolicEntry R α)) := []
  deriving DecidableEq, Repr

namespace SymbolicState

variable {R α : Type} [Scalar R] [Amplitude R α]

def extend (b : Bindings R) :
    SymbolicState R α → List (Instruction R) → Except SimulationError (SymbolicState R α)
  | s, [] => .ok s
  | s, i :: rest =>
    match i.gate? with
    | none => extend b s rest
    | some g => do
      let angles := g.kind.parameters.map fun e => (e.bindAll b).simplify
      let symbols := angles.foldl (fun acc e => e.collectSymbols acc) s.symbols
      let kernels ← symbolicKernels g.kind i.qubits angles
      extend b { s with symbols, kernels := s.kernels ++ kernels } rest

def amplitudes {ε : Type} (s : SymbolicState R α) (value : AngleFunction R → Except ε α) :
    Array (Staged ε α) :=
  s.kernels.foldl
    (fun v k => Staged.applyKernel { k with matrix := k.matrix.map (SymbolicEntry.stage value) } v)
    ((Array.replicate (bitWeight s.numQubits) (.known 0)).setIfInBounds 0 (.known 1))

def constants (s : SymbolicState R α) : Array (Option α) :=
  (s.amplitudes fun _ => (.error () : Except Unit α)).map Staged.known?

def evaluate (s : SymbolicState R α) (b : Bindings R) :
    Except SimulationError (StateVector α) :=
  match s.symbols.find? fun name => !b.binds name with
  | some name => .error (.parameterBinding name)
  | none =>
    match (s.amplitudes (AngleFunction.evaluate b)).mapM Staged.value with
    | .ok v => .ok ⟨s.numQubits, v⟩
    | .error e => .error (.circuit (.parameter e))

end SymbolicState

def Simulator.symbolicState {R α : Type} [Scalar R] [Amplitude R α] (sim : Simulator)
    (c : Circuit R) (b : Bindings R) : Except SimulationError (SymbolicState R α) := do
  let width ← sim.checkWidth c
  if c.isDynamic then throw .dynamicCircuit
  SymbolicState.extend b { numQubits := width } c.instructions.toList

end Ancilla
