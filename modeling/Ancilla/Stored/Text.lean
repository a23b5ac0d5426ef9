import Ancilla.Decimal.Reading
import Ancilla.Stored.Datum
import Ancilla.Text.Digits
import Ancilla.Word

/-!
Data as text on one line: `null`, truth values, numbers, quoted texts, lists between brackets and
records between braces. A number without point and exponent that fits into 64 bits is a whole
number, every other one is real. Of two fields with one name the later one counts.
-/

namespace Ancilla.Datum

mutual

def compact : Datum → String
  | null => "null"
  | bool b => if b then "true" else "false"
  | int n => toString n
  | real x => Decimal.text x
  | text s => quotedText s
  | list items => "[" ++ ",".intercalate (compactItems items) ++ "]"
  | record fields => "\x7b" ++ ",".intercalate (compactFields fields) ++ "\x7d"

def compactItems : List Datum → List String
  | [] => []
  | d :: rest => compact d :: compactItems rest

def compactFields : List (String × Datum) → List String
  | [] => []
  | (name, d) :: rest => (quotedText name ++ ":" ++ compact d) :: compactFields rest

end

def skipBlanks (cs : List Char) : List Char :=
  cs.dropWhile fun c => c = ' ' || c = '\t' || c = '\n' || c = '\r'

def hexNumber? (cs : List Char) : Option Nat :=
  cs.foldlM (fun acc c => (Text.digitValue? 16 c).map fun v => 16 * acc + v) 0

def escapes : List (Char × Char) :=
  [('"', '"'), ('\\', '\\'), ('/', '/'), ('b', '\x08'), ('f', '\x0c'), ('n', '\n'), ('r', '\r'),
   ('t', '\t')]

def isHighHalf (n : Nat) : Bool := 0xd800 ≤ n && n < 0xdc00

def isLowHalf (n : Nat) : Bool := 0xdc00 ≤ n && n < 0xe000

def ofHalves? (high low : Option Nat) : Option Char := do
  let high ← high
  let low ← low
  if isHighHalf high && isLowHalf low then
    some (Char.ofNat (0x10000 + (high - 0xd800) * 0x400 + (low - 0xdc00)))
  else none

def readQuoted (acc : Array Char) : List Char → Option (String × List Char)
  | [] => none
  | '"' :: rest => some (String.ofList acc.toList, rest)
  | '\\' :: 'u' :: a :: b :: c :: d :: '\\' :: 'u' :: e :: f :: g :: h :: rest =>
    match ofHalves? (hexNumber? [a, b, c, d]) (hexNumber? [e, f, g, h]) with
    | some ch => readQuoted (acc.push ch) rest
    | none => do
      let n ← hexNumber? [a, b, c, d]
      if isHighHalf n || isLowHalf n then none
      else readQuoted (acc.push (Char.ofNat n)) ('\\' :: 'u' :: e :: f :: g :: h :: rest)
  | '\\' :: 'u' :: a :: b :: c :: d :: rest => do
    let n ← hexNumber? [a, b, c, d]
    if isHighHalf n || isLowHalf n then none else readQuoted (acc.push (Char.ofNat n)) rest
  | '\\' :: c :: rest => do readQuoted (acc.push (← escapes.lookup c)) rest
  | c :: rest => readQuoted (acc.push c) rest

def isNumeric (c : Char) : Bool := c.isDigit || ['-', '+', '.', 'e', 'E'].contains c

def readNumber (cs : List Char) : Option (Datum × List Char) := do
  let body := cs.takeWhile isNumeric
  let rest := cs.dropWhile isNumeric
  let whole := match body with
    | '-' :: ds => (Decimal.digits? ds).bind fun n =>
        if 0 < n ∧ n ≤ Word.half64 then some (-(n : Int)) else none
    | ds => (Decimal.digits? ds).bind fun n => if n < Word.bound64 then some (n : Int) else none
  match whole with
  | some n => return (int n, rest)
  | none => return (real (← Decimal.real? (String.ofList body)), rest)

mutual

def read : Nat → List Char → Option (Datum × List Char)
  | 0, _ => none
  | fuel + 1, cs =>
    match skipBlanks cs with
    | '"' :: rest => (readQuoted #[] rest).map fun (s, rest) => (text s, rest)
    | '[' :: rest =>
      match skipBlanks rest with
      | ']' :: rest => some (list [], rest)
      | rest => readItems fuel #[] rest
    | '\x7b' :: rest =>
      match skipBlanks rest with
      | '\x7d' :: rest => some (record [], rest)
      | rest => readFields fuel #[] rest
    | 't' :: 'r' :: 'u' :: 'e' :: rest => some (bool true, rest)
    | 'f' :: 'a' :: 'l' :: 's' :: 'e' :: rest => some (bool false, rest)
    | 'n' :: 'u' :: 'l' :: 'l' :: rest => some (null, rest)
    | rest => readNumber rest

def readItems : Nat → Array Datum → List Char → Option (Datum × List Char)
  | 0, _, _ => none
  | fuel + 1, acc, cs => do
    let (d, rest) ← read fuel cs
    match skipBlanks rest with
    | ',' :: rest => readItems fuel (acc.push d) rest
    | ']' :: rest => return (list (acc.push d).toList, rest)
    | _ => none

def readFields : Nat → Array (String × Datum) → List Char → Option (Datum × List Char)
  | 0, _, _ => none
  | fuel + 1, acc, cs => do
    let (name, rest) ← match skipBlanks cs with
      | '"' :: rest => readQuoted #[] rest
      | _ => none
    let (d, rest) ← match skipBlanks rest with
      | ':' :: rest => read fuel rest
      | _ => none
    let acc := (acc.filter fun (n, _) => n != name).push (name, d)
    match skipBlanks rest with
    | ',' :: rest => readFields fuel acc rest
    | '\x7d' :: rest => return (record acc.toList, rest)
    | _ => none

end

def ofText? (s : String) : Option Datum := do
  let cs := s.toList
  let (d, rest) ← read (cs.length + 1) cs
  if (skipBlanks rest).isEmpty then some d else none

end Ancilla.Datum
