import Ancilla.Arithmetic.Error

/-!
The Fourier basis. The transform leaves the order of the bits as it is: afterwards qubit `t` of a
register that held `b` carries the phase of `b / 2 ^ (t + 1)` turns on its 1 component, so that
additions become phases on single qubits.
-/

namespace Ancilla.Fourier

variable {R : Type} [Scalar R]

def maxWidth : Nat := 62

def checkRegister (operation : String) (reg : List QubitId) : Except SynthesisError Unit :=
  let n := reg.length
  if n = 0 ∨ maxWidth < n then .error (.unsupportedShape operation s!"register of {n} qubits")
  else .ok ()

def dyadicAngle (k : Nat) : R := Scalar.pi / Scalar.ofInt (bitWeight k)

def cascade (target : QubitId) : Nat → List QubitId → Synthesis R Unit
  | _, [] => pure ()
  | k, control :: rest => do
    Build.cp (.constant (dyadicAngle k)) control target
    cascade target (k + 1) rest

/-- The transform of a register given from its highest qubit down: each qubit reads those below it
before they change. -/
def transformDown : List QubitId → Synthesis R Unit
  | [] => pure ()
  | q :: lower => do
    Build.h q
    cascade q 1 lower
    transformDown lower

def transform (reg : List QubitId) : Synthesis R Unit := do
  Build.ofExcept (checkRegister "fourier" reg)
  transformDown reg.reverse

def inverseTransform (reg : List QubitId) : Synthesis R Unit := Build.invert (transform reg)

def turnFraction (r period : Int) : R :=
  Scalar.two * Scalar.pi * Scalar.ofInt r / Scalar.ofInt period

def addPhases (c : Int) : Nat → List QubitId → Synthesis R Unit
  | _, [] => pure ()
  | t, q :: rest => do
    let period : Int := bitWeight (t + 1)
    let r := c % period
    if r ≠ 0 then Build.p (.constant (turnFraction r period)) q
    addPhases c (t + 1) rest

def phaseAddConstant (reg : List QubitId) (c : Int) : Synthesis R Unit := do
  Build.ofExcept (checkRegister "phase_add" reg)
  addPhases c 0 reg

end Ancilla.Fourier
