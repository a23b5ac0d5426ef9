/-!
Numbers read from text. Whole numbers are a sign and decimal digits; real numbers may also have
a point, an exponent, or be one of the words for infinity and not-a-number in any case. Nothing
else is skipped: no blanks, no digit separators.
-/

namespace Ancilla.Decimal

def digits? (cs : List Char) : Option Nat :=
  if cs.isEmpty || !cs.all Char.isDigit then none
  else some (cs.foldl (fun n c => 10 * n + (c.toNat - '0'.toNat)) 0)

def natural? (bound : Nat) (s : String) : Option Nat := do
  let n ← digits? (match s.toList with
    | '+' :: r => r
    | cs => cs)
  if n < bound then some n else none

def exponent? : List Char → Option Int
  | [] => some 0
  | c :: r =>
    if c = 'e' ∨ c = 'E' then
      match r with
      | '-' :: ds => (digits? ds).map fun n => -(n : Int)
      | '+' :: ds => (digits? ds).map fun n => (n : Int)
      | ds => (digits? ds).map fun n => (n : Int)
    else none

def magnitude? (cs : List Char) : Option Float := do
  let whole := cs.takeWhile Char.isDigit
  let rest := cs.dropWhile Char.isDigit
  let (places, tail) := match rest with
    | '.' :: r => (r.takeWhile Char.isDigit, r.dropWhile Char.isDigit)
    | r => ([], r)
  let coefficient ← digits? (whole ++ places)
  let e ← exponent? tail
  let shift := e - (places.length : Int)
  -- beyond any representable number, so that no huge power is computed
  let bounded := max (-100000) (min 100000 shift)
  if coefficient = 0 then return 0
  return Float.ofScientific coefficient (bounded < 0) bounded.natAbs

def real? (s : String) : Option Float :=
  let (negative, body) := match s.toList with
    | '-' :: r => (true, r)
    | '+' :: r => (false, r)
    | cs => (false, cs)
  let word := String.ofList (body.map Char.toLower)
  let value :=
    if word = "inf" ∨ word = "infinity" then some (1 / 0)
    else if word = "nan" then some (0 / 0)
    else magnitude? body
  value.map fun x => if negative then -x else x

end Ancilla.Decimal
