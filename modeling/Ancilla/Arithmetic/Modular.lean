import Ancilla.Arithmetic.Fourier
import Ancilla.Arithmetic.NumberTheory

/-!
Modular arithmetic on registers. The addition of a constant modulo `N` works on a transformed
register one bit wider than `N` needs: the sign of `b + a - N` goes to a flag, by which `N` is added
back, and a second comparison clears the flag. Multiplication in place is two passes of additions
around an exchange, and exponentiation a controlled multiplication for every bit of the exponent.
-/

namespace Ancilla.Modular

open Ancilla.Fourier (transform inverseTransform phaseAddConstant)
open Ancilla.NumberTheory (mulMod squarePower modInverse?)

variable {R : Type} [Scalar R]

def checkModulus (operation : String) (modulus width : Nat) : Except SynthesisError Unit := do
  Synthesis.checkWidth operation width
  if modulus < 2 ∨ bitWeight width < modulus then throw (.invalidModulus operation modulus width)

/-- Adds a constant modulo `modulus` to a transformed register, under controls. `flag` must hold 0
and does so again afterwards, which the session is told. -/
def addConstant (b : List QubitId) (a modulus : Nat) (flag : QubitId) (controls : List QubitId) :
    Synthesis R Unit :=
  match b.getLast? with
  | none => throw (.unsupportedShape "mod_add_constant" "empty register")
  | some top => do
    Build.ofExcept (checkModulus "mod_add_constant" modulus (b.length - 1))
    let a : Int := (a % modulus : Nat)
    let n : Int := modulus
    Build.underControls controls (phaseAddConstant b a)
    phaseAddConstant b (-n)
    -- the top qubit is the sign, so the flag now reads whether the subtraction went too far
    Build.conjugate "compare" (inverseTransform b) fun _ => Build.cx top flag
    Build.control [flag] (phaseAddConstant b n)
    Build.conjugate "clear_flag" (Build.underControls controls (phaseAddConstant b (-a))) fun _ =>
      Build.conjugate "compare"
        (do
          inverseTransform b
          Build.x top)
        fun _ => Build.cx top flag
    Build.assertRestored [flag]

def accumulate (b : List QubitId) (modulus : Nat) (flag : QubitId) (controls : List QubitId) :
    Nat → List QubitId → Synthesis R Unit
  | _, [] => pure ()
  | term, q :: rest => do
    addConstant b term modulus flag (controls ++ [q])
    accumulate b modulus flag controls (mulMod term 2 modulus) rest

def multiplyAccumulate (x b : List QubitId) (a modulus : Nat) (flag : QubitId)
    (controls : List QubitId) : Synthesis R Unit :=
  Build.conjugate "cmult" (transform b) fun _ =>
    accumulate b modulus flag controls (a % modulus) x

def multiply (x : Variable) (a modulus : Nat) (controls : List QubitId) : Synthesis R Unit := do
  let w := x.width
  Build.ofExcept (checkModulus "mod_multiply" modulus w)
  let a := a % modulus
  match modInverse? a modulus with
  | none => throw (.notInvertible a modulus)
  | some inverse =>
    Build.scope "mod_multiply" do
      let b ← Build.allocate (w + 1) "work"
      let flag ← Build.allocateOne "flag"
      multiplyAccumulate x.qubits b a modulus flag controls
      Build.underControls controls ((x.qubits.zip b).forM fun (p, q) => Build.swap p q)
      Build.invert (multiplyAccumulate x.qubits b inverse modulus flag controls)
      Build.assertRestored b
      Build.assertRestored [flag]

def powerStep (x : Variable) (control : QubitId) (a j modulus : Nat) : Synthesis R Unit := do
  Build.ofExcept (checkModulus "mod_exp_step" modulus x.width)
  multiply x (squarePower a modulus j) modulus [control]

def powerSteps (x : Variable) (a modulus : Nat) : Nat → List QubitId → Synthesis R Unit
  | _, [] => pure ()
  | j, e :: rest => do
    powerStep x e a j modulus
    powerSteps x a modulus (j + 1) rest

def power (exponent x : Variable) (a modulus : Nat) : Synthesis R Unit := do
  Build.ofExcept (checkModulus "mod_exp" modulus x.width)
  if NumberTheory.gcd (a % modulus) modulus ≠ 1 then throw (.notInvertible a modulus)
  powerSteps x a modulus 0 exponent.qubits

end Ancilla.Modular
