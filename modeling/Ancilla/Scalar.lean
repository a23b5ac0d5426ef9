import Ancilla.Decimal.Shortest

/-!
Real numbers as the library uses them. Everything that carries an angle or a probability is
written over a type of scalars, so one definition serves both the floating-point numbers that
run and an exact field of reals in which statements are made.
-/

namespace Ancilla

/-- Scalars: field operations, the constants and functions that gates need, comparison, and the
text of a number. -/
class Scalar (R : Type) extends Neg R, Add R, Sub R, Mul R, Div R, BEq R where
  ofInt : Int → R
  pi : R
  invSqrtTwo : R
  cos : R → R
  sin : R → R
  sqrt : R → R
  below : R → R → Bool
  isFinite : R → Bool
  text : R → String

namespace Scalar

variable {R : Type} [Scalar R]

def zero : R := ofInt 0

def one : R := ofInt 1

def two : R := ofInt 2

def abs (x : R) : R := if below x zero then -x else x

def max (x y : R) : R := if below x y then y else x

end Scalar

instance : Scalar Float where
  ofInt := Float.ofInt
  pi := Float.ofBits 0x400921fb54442d18
  invSqrtTwo := Float.ofBits 0x3fe6a09e667f3bcd
  cos := Float.cos
  sin := Float.sin
  sqrt := Float.sqrt
  below x y := x < y
  isFinite := Float.isFinite
  text := Decimal.text

end Ancilla
