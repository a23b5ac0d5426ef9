import Ancilla.Arithmetic.Fourier

/-!
Adders. In the Fourier basis a constant or a register is added by phases; the ripple adder carries
through a chain of ancillae that is undone behind it, and leaves the sum in a new register.
-/

namespace Ancilla.Adder

open Synthesis (checkWidth checkSameWidth)

variable {R : Type} [Scalar R]

def addConstant (target : Variable) (c : Int) : Synthesis R Unit := do
  Build.ofExcept (checkWidth "add_constant" target.width)
  Build.conjugate "add_constant" (Fourier.transform target.qubits)
    fun _ => Fourier.phaseAddConstant target.qubits c

/-- The phases of a source on a transformed target, from the lowest pair up; `below` are the source
qubits passed so far, the nearest first. -/
def addRegister : List QubitId → List (QubitId × QubitId) → Synthesis R Unit
  | _, [] => pure ()
  | below, (target, source) :: rest => do
    Fourier.cascade target 0 (source :: below)
    addRegister (source :: below) rest

def add (target source : Variable) : Synthesis R Unit := do
  Build.ofExcept (checkWidth "add" target.width)
  Build.ofExcept (checkSameWidth "add" target.width source.width)
  Build.conjugate "add" (Fourier.transform target.qubits)
    fun _ => addRegister [] (target.qubits.zip source.qubits)

structure CarryBit where
  a : QubitId
  b : QubitId
  carry : QubitId
  deriving DecidableEq, Repr

def carryBits (a b carry : List QubitId) : List CarryBit :=
  (a.zip (b.zip carry)).map fun (a, b, c) => ⟨a, b, c⟩

def rippleCarries : Option QubitId → List CarryBit → Synthesis R Unit
  | _, [] => pure ()
  | previous, bit :: rest => do
    Build.ccx bit.a bit.b bit.carry
    if let some c := previous then
      Build.ccx bit.a c bit.carry
      Build.ccx bit.b c bit.carry
    rippleCarries (some bit.carry) rest

def sumBits : Option QubitId → List (List QubitId × QubitId) → List QubitId → Synthesis R Unit
  | previous, (addends, carry) :: rest, sum :: sums => do
    addends.forM fun q => Build.cx q sum
    if let some c := previous then Build.cx c sum
    sumBits (some carry) rest sums
  | some c, [], sum :: _ => Build.cx c sum
  | _, _, _ => pure ()

def exportSum (sum : List QubitId) : Synthesis R Variable := do
  Build.exportQubits sum
  Build.ofExcept ((Variable.ofQubits "sum" sum (.integer false)).mapError .ofVariable)

def rippleAdd (a b : Variable) : Synthesis R Variable := do
  let n := a.width
  Build.ofExcept (checkWidth "ripple_add" n)
  Build.ofExcept (checkSameWidth "ripple_add" n b.width)
  Build.conjugate "ripple_add"
    (do
      let carry ← Build.allocate n "carry"
      rippleCarries none (carryBits a.qubits b.qubits carry)
      return carry)
    fun carry => do
      let sum ← Build.allocate (n + 1) "sum"
      let addends := (a.qubits.zip b.qubits).map fun (x, y) => [x, y]
      sumBits none (addends.zip carry) sum
      exportSum sum

end Ancilla.Adder
