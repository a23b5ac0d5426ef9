import Ancilla.Arithmetic.Adder

/-!
In-place addition with measured carries. The carries are temporary conjunctions: computed with four
eighth-turn phases, and erased by measuring them in the conjugate basis and repairing the phase,
instead of by undoing the computation.
-/

namespace Ancilla.MeasuredAdder

open Synthesis (checkWidth checkSameWidth)

variable {R : Type} [Scalar R]

def computeAnd (a b target : QubitId) : Synthesis R Unit := do
  Build.h target
  Build.t target
  Build.cx a target
  Build.cx b target
  Build.cx target a
  Build.cx target b
  Build.tdg a
  Build.tdg b
  Build.t target
  Build.cx target a
  Build.cx target b
  Build.h target
  Build.s target

def eraseAnd (a b target : QubitId) : Synthesis R Unit := do
  Build.h target
  let c ← Build.measure target
  Build.controlClassical [c] 1 do
    Build.cz a b
    Build.x target

structure Control where
  control : QubitId
  scratch : QubitId
  deriving DecidableEq, Repr

def addBit (controlled : Option Control) (a b : QubitId) : Synthesis R Unit :=
  match controlled with
  | some c => do
    computeAnd c.control a c.scratch
    Build.cx c.scratch b
    eraseAnd c.control a c.scratch
  | none => Build.cx a b

/-- The bits of source and target above the lowest one, given the carry into them and the qubits
for the further carries: every carry is computed on the way up and erased on the way down. -/
def chain (controlled : Option Control) (previous : QubitId) :
    List (QubitId × QubitId) → List QubitId → Synthesis R Unit
  | [(a, b)], _ => do
    Build.cx previous a
    addBit controlled a b
    Build.cx previous a
  | (a, b) :: rest, carry :: carries => do
    Build.cx previous a
    Build.cx previous b
    computeAnd a b carry
    Build.cx previous carry
    chain controlled carry rest carries
    Build.cx previous carry
    eraseAnd a b carry
    addBit controlled a b
    Build.cx previous a
    Build.cx previous b
  | _, _ => pure ()

def addBits (controlled : Option Control) : List (QubitId × QubitId) → Synthesis R Unit
  | [] => pure ()
  | [(a, b)] => addBit controlled a b
  | (a, b) :: rest => do
    let carries ← Build.allocate rest.length "carry"
    if let carry :: others := carries then
      computeAnd a b carry
      chain controlled carry rest others
      eraseAnd a b carry
      addBit controlled a b
    Build.assertRestored carries

def addWith (operation : String) (target source : Variable) (control : Option QubitId) :
    Synthesis R Unit := do
  let n := target.width
  Build.ofExcept (checkWidth operation n)
  Build.ofExcept (checkSameWidth operation n source.width)
  let session ← Build.session
  let restored := (source.qubits ++ control.toList).filter session.isClean
  Build.scope operation do
    let controlled ← match control with
      | some c => do
        let scratch ← Build.allocateOne "and"
        pure (some (⟨c, scratch⟩ : Control))
      | none => pure none
    addBits controlled (source.qubits.zip target.qubits)
    if let some c := controlled then Build.assertRestored [c.scratch]
  Build.assertRestored restored

def add (target source : Variable) : Synthesis R Unit := addWith "gidney_add" target source none

def addControlled (target source : Variable) (control : QubitId) : Synthesis R Unit :=
  if target.qubits.contains control || source.qubits.contains control then
    throw (.unsupportedShape "gidney_add_controlled"
      ("control " ++ qubitName control ++ " is an operand qubit"))
  else addWith "gidney_add_controlled" target source (some control)

end Ancilla.MeasuredAdder
