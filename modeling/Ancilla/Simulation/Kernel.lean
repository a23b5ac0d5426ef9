import Ancilla.Circuit.Graph
import Ancilla.Simulation.Amplitude
import Ancilla.Simulation.Settings
import Ancilla.Word

/-!
Gates as kernels: a two-by-two matrix on one target bit, acting on the amplitudes whose index has
all control bits set. A root on one qubit is one kernel; an exchange is three controlled flips.
-/

namespace Ancilla

inductive SimulationError
  | tooManyQubits (requested max : Nat)
  | parameterBinding (name : String)
  | dynamicCircuit
  | unsupportedGate (name : String)
  | cancelled
  | invalidRegister (register : String) (qubit : QubitId)
  | settings (e : SettingsError)
  | circuit (e : CircuitError)
  deriving DecidableEq, Repr

def SimulationError.message : SimulationError → String
  | tooManyQubits requested max =>
    s!"Circuit has {requested} qubits but the simulator allows {max}"
  | parameterBinding name => s!"No value bound for parameter '{name}'"
  | dynamicCircuit => "Circuit is dynamic; request shots to simulate it"
  | unsupportedGate name => s!"Gate root '{name}' cannot be simulated"
  | cancelled => "Simulation cancelled"
  | invalidRegister register qubit =>
    s!"Output register '{register}' reads qubit {qubit} outside the circuit"
  | settings e => e.message
  | circuit e => "Circuit IR error: " ++ e.message

structure Matrix2 (α : Type) where
  m00 : α
  m01 : α
  m10 : α
  m11 : α
  deriving DecidableEq, Repr

def Matrix2.map {α β : Type} (f : α → β) (m : Matrix2 α) : Matrix2 β :=
  ⟨f m.m00, f m.m01, f m.m10, f m.m11⟩

/-- A matrix on the bit `target` of the indices that contain the bits of the mask `controls`. -/
structure Kernel (α : Type) where
  matrix : Matrix2 α
  target : Nat
  controls : Nat
  deriving DecidableEq, Repr

def bitMask (bits : List Nat) : Nat := bits.foldl (fun m q => m ||| bitWeight q) 0

namespace Kernel

section Roots

variable {R α : Type} [Scalar R] [Amplitude R α]

def phase (theta : R) : Matrix2 α := ⟨1, 0, 0, Amplitude.polar Scalar.one theta⟩

def flip : Matrix2 α := ⟨0, 1, 1, 0⟩

def rootMatrix? (g : Standard R) (angles : List R) : Option (Matrix2 α) :=
  let angle (k : Nat) : R := angles.getD k Scalar.zero
  let half : R := Scalar.one / Scalar.two
  let c := Scalar.cos (angle 0 / Scalar.two)
  let s := Scalar.sin (angle 0 / Scalar.two)
  let real (x : R) : α := Amplitude.ofReal x
  let backward : α := Amplitude.scale s (-Amplitude.i)
  match g with
  | .id => some ⟨1, 0, 0, 1⟩
  | .x => some flip
  | .y => some ⟨0, -Amplitude.i, Amplitude.i, 0⟩
  | .z => some (phase Scalar.pi)
  | .h =>
    let r : α := real Scalar.invSqrtTwo
    some ⟨r, r, r, -r⟩
  | .s => some (phase (Scalar.pi / Scalar.two))
  | .sdg => some (phase (-(Scalar.pi / Scalar.two)))
  | .t => some (phase (Scalar.pi / Scalar.ofInt 4))
  | .tdg => some (phase (-(Scalar.pi / Scalar.ofInt 4)))
  | .sx =>
    let a : α := Amplitude.ofParts half half
    let b : α := Amplitude.ofParts half (-half)
    some ⟨a, b, b, a⟩
  | .sxdg =>
    let a : α := Amplitude.ofParts half (-half)
    let b : α := Amplitude.ofParts half half
    some ⟨a, b, b, a⟩
  | .rx _ => some ⟨real c, backward, backward, real c⟩
  | .ry _ => some ⟨real c, real (-s), real s, real c⟩
  | .rz _ =>
    some ⟨Amplitude.polar Scalar.one (-angle 0 / Scalar.two), 0, 0,
      Amplitude.polar Scalar.one (angle 0 / Scalar.two)⟩
  | .p _ => some (phase (angle 0))
  | .u .. =>
    some ⟨real c, -Amplitude.polar s (angle 2), Amplitude.polar s (angle 1),
      Amplitude.polar c (angle 1 + angle 2)⟩
  | _ => none

def exchange (controls a b : Nat) : List (Kernel α) :=
  let first : Kernel α := ⟨flip, b, controls ||| bitWeight a⟩
  [first, ⟨flip, a, controls ||| bitWeight b⟩, first]

def lower (kind : GateKind R) (qubits : List Nat) (angles : List R) :
    Except SimulationError (List (Kernel α)) :=
  let (root, n) := kind.splitControls
  let controls := bitMask (qubits.take n)
  let targets := qubits.drop n
  match root with
  | .swap => .ok (exchange controls (targets.getD 0 0) (targets.getD 1 0))
  | root =>
    match rootMatrix? root angles with
    | some matrix => .ok [⟨matrix, targets.getD 0 0, controls⟩]
    | none => .error (.unsupportedGate root.name)

end Roots

variable {α : Type} [Zero α] [Add α] [Mul α]

@[inline]
def selects (k : Kernel α) (low : Nat) : Bool :=
  low &&& k.controls == k.controls && !low.testBit k.target

@[inline]
def mix (m : Matrix2 α) (stride : Nat) (v : Array α) (low : Nat) : Array α :=
  let x := v.getD low 0
  let y := v.getD (low + stride) 0
  (v.setIfInBounds low (m.m00 * x + m.m01 * y)).setIfInBounds (low + stride)
    (m.m10 * x + m.m11 * y)

/-- The amplitudes after a kernel: every selected pair is mixed once, in place. -/
@[specialize]
def apply (k : Kernel α) (v : Array α) : Array α :=
  let stride := bitWeight k.target
  v.size.fold (fun low _ v => if k.selects low then mix k.matrix stride v low else v) v

@[specialize]
def applyAll (ks : List (Kernel α)) (v : Array α) : Array α := ks.foldl (fun v k => k.apply v) v

end Kernel

end Ancilla
