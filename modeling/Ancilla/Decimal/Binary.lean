/-!
Finite binary floating-point numbers as exact integers, and the arithmetic that the decimal
formats need: a value is `mantissa * 2 ^ exponent`, and every comparison of a decimal with a
binary number is made between natural numbers.
-/

namespace Ancilla.Decimal

/-- A finite magnitude `mantissa * 2 ^ exponent`.

`edge` marks a mantissa at the bottom of its binade, where the next number below is only half
as far away as the next one above. -/
structure Binary where
  mantissa : Nat
  exponent : Int
  edge : Bool
  deriving DecidableEq, Repr

namespace Binary

def ofBits (bits : UInt64) : Binary :=
  let fraction := (bits &&& 0xfffffffffffff).toNat
  let field := ((bits >>> 52) &&& 0x7ff).toNat
  if field = 0 then ⟨fraction, -1074, false⟩
  else ⟨fraction + 0x10000000000000, (field : Int) - 1075, fraction = 0 && 1 < field⟩

end Binary

def wholePower (base : Nat) (e : Int) : Nat := Nat.pow base e.toNat

def isNegative (x : Float) : Bool := x.toBits >>> 63 == 1

inductive Tie
  | toEven
  | away
  deriving DecidableEq, Repr

def roundDiv (num den : Nat) (tie : Tie) : Nat :=
  let q := num / den
  let r := num % den
  match compare (2 * r) den with
  | .lt => q
  | .gt => q + 1
  | .eq => match tie with
    | .away => q + 1
    | .toEven => if q % 2 = 0 then q else q + 1

end Ancilla.Decimal
