import Ancilla.Decimal.Binary

/-!
The shortest decimal that reads back as a given floating-point number, written positionally.

The reals that round to `m * 2 ^ q` form an interval, closed exactly when `m` is even. Of the
decimals with the fewest digits in it, the one nearest the value is written; a tie goes up.
-/

namespace Ancilla.Decimal

structure Scaled where
  coefficient : Nat
  exponent : Int
  deriving DecidableEq, Repr

namespace Scaled

def trim (d : Scaled) : Scaled :=
  if h : d.coefficient ≠ 0 ∧ d.coefficient % 10 = 0 then
    trim ⟨d.coefficient / 10, d.exponent + 1⟩
  else d
termination_by d.coefficient
decreasing_by exact Nat.div_lt_self (Nat.pos_of_ne_zero h.1) (by decide)

def text (d : Scaled) : String :=
  let digits := toString d.coefficient
  if 0 ≤ d.exponent then digits ++ "".pushn '0' d.exponent.toNat
  else
    let places := (-d.exponent).toNat
    if places < digits.length then
      let whole := digits.length - places
      String.ofList (digits.toList.take whole) ++ "." ++ String.ofList (digits.toList.drop whole)
    else "0." ++ "".pushn '0' (places - digits.length) ++ digits

end Scaled

namespace Binary

/-- The multiple of `10 ^ p` nearest to `b` among its two neighbours on that grid, if one of
them rounds to `b`. -/
def onGrid? (b : Binary) (p : Int) : Option Nat :=
  -- all quantities are scaled to whole numbers by a common factor
  let scale := wholePower 2 (b.exponent - 2) * wholePower 10 (-p)
  let unit := wholePower 2 (2 - b.exponent) * wholePower 10 p
  let value := 4 * b.mantissa * scale
  let low := (4 * b.mantissa - if b.edge then 1 else 2) * scale
  let high := (4 * b.mantissa + 2) * scale
  let inside (d : Nat) : Bool :=
    if b.mantissa % 2 = 0 then low ≤ d * unit && d * unit ≤ high
    else low < d * unit && d * unit < high
  let d := value / unit
  match inside d, inside (d + 1) with
  | true, true => some (roundDiv value unit .away)
  | true, false => some d
  | false, true => some (d + 1)
  | false, false => none

def magnitude (b : Binary) : Int :=
  -- the scaling makes the smallest positive number a whole one
  let whole := b.mantissa * wholePower 10 330 * wholePower 2 b.exponent / wholePower 2 (-b.exponent)
  ((toString whole).length : Int) - 330

/-- The shortest decimal that rounds to `b`; 17 digits always suffice. -/
def shortest (b : Binary) : Scaled :=
  let top := b.magnitude - 1
  let hit := (List.range 17).findSome? fun i =>
    let p := top - Int.ofNat i
    (b.onGrid? p).map fun d => (⟨d, p⟩ : Scaled)
  (hit.getD ⟨0, 0⟩).trim

end Binary

def text (x : Float) : String :=
  if x.isNaN then "NaN"
  else
    let sign := if isNegative x then "-" else ""
    if x.isInf then sign ++ "inf"
    else if x == 0 then sign ++ "0"
    else sign ++ (Binary.ofBits x.toBits).shortest.text

end Ancilla.Decimal
