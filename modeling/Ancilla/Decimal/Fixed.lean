import Ancilla.Decimal.Binary

/-! Decimals with a fixed number of places: the exact binary value rounded to the nearest one,
a half going to the even neighbour. -/

namespace Ancilla.Decimal

def Binary.units (b : Binary) (places : Nat) : Nat :=
  let scaled := b.mantissa * wholePower 2 b.exponent * wholePower 10 places
  roundDiv scaled (wholePower 2 (-b.exponent)) .toEven

def fixedText (places : Nat) (x : Float) : String :=
  if x.isNaN then "NaN"
  else
    let sign := if isNegative x then "-" else ""
    if x.isInf then sign ++ "inf"
    else
      let units := (Binary.ofBits x.toBits).units places
      let whole := toString (units / wholePower 10 places)
      let rest := toString (units % wholePower 10 places)
      if places = 0 then sign ++ whole
      else sign ++ whole ++ "." ++ "".pushn '0' (places - rest.length) ++ rest

def padLeft (width : Nat) (s : String) : String :=
  "".pushn ' ' (width - s.length) ++ s

def padRight (width : Nat) (s : String) : String :=
  s ++ "".pushn ' ' (width - s.length)

end Ancilla.Decimal
