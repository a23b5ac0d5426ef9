import Ancilla.Variable.Basic

/-! Refusals of arithmetic fragments, and the checks of widths that they share. -/

namespace Ancilla

inductive SynthesisError
  | unsupportedShape (operation shape : String)
  | invalidModulus (operation : String) (modulus width : Nat)
  | notInvertible (a modulus : Nat)
  | widthMismatch (operation : String) (expected got : Nat)
  | session (e : SessionError)
  | ofVariable (e : VariableError)

def SynthesisError.message : SynthesisError → String
  | unsupportedShape operation shape => s!"{operation}: unsupported shape ({shape})"
  | invalidModulus operation modulus width =>
    s!"{operation}: modulus {modulus} is not supported for width {width}"
  | notInvertible a modulus => s!"{a} has no inverse modulo {modulus}"
  | widthMismatch operation expected got =>
    s!"{operation}: width mismatch, expected {expected}, got {got}"
  | session e => e.message
  | ofVariable e => e.message

instance : FromSession SynthesisError := ⟨.session⟩

abbrev Synthesis (R : Type) := Build R SynthesisError

namespace Synthesis

def maxWidth : Nat := 32

def checkWidth (operation : String) (width : Nat) : Except SynthesisError Unit :=
  if width = 0 ∨ maxWidth < width then
    let limit := maxWidth
    .error (.unsupportedShape operation s!"width {width}, supported 1..={limit}")
  else .ok ()

def checkSameWidth (operation : String) (expected got : Nat) : Except SynthesisError Unit :=
  if expected = got then .ok () else .error (.widthMismatch operation expected got)

end Synthesis

end Ancilla
