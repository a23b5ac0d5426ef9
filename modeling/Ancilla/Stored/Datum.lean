import Ancilla.Decimal.Shortest

/-!
Data as trees of numbers, texts, lists and records, and the shapes in which values of other types
are stored: a record with named fields, or a list of the fields in order; a choice as the name of
the case, or as a record whose only field is named for the case.
-/

namespace Ancilla

inductive Datum
  | null
  | bool (b : Bool)
  | int (n : Int)
  | real (x : Float)
  | text (s : String)
  | list (items : List Datum)
  | record (fields : List (String × Datum))
  deriving Repr

class Stored (α : Type) where
  write : α → Datum
  read? : Datum → Option α

namespace Datum

def quotedText (s : String) : String :=
  let escape (c : Char) : String :=
    if c = '"' then "\\\""
    else if c = '\\' then "\\\\"
    else if c = '\n' then "\\n"
    else if c = '\t' then "\\t"
    else if c = '\r' then "\\r"
    else if c.toNat < 0x20 then
      let digits := String.ofList (Nat.toDigits 16 c.toNat)
      "\\u" ++ "".pushn '0' (4 - digits.length) ++ digits
    else c.toString
  "\"" ++ s.toList.foldl (fun acc c => acc ++ escape c) "" ++ "\""

def block (opening closing : String) (depth : Nat) (items : List String) : String :=
  if items.isEmpty then opening ++ closing
  else
    let margin := "".pushn ' ' (2 * (depth + 1))
    opening ++ "\n" ++ ",\n".intercalate (items.map (margin ++ ·)) ++ "\n" ++
      "".pushn ' ' (2 * depth) ++ closing

mutual

def pretty (depth : Nat) : Datum → String
  | null => "null"
  | bool b => if b then "true" else "false"
  | int n => toString n
  | real x => Decimal.text x
  | text s => quotedText s
  | list items => block "[" "]" depth (prettyItems (depth + 1) items)
  | record fields => block "\x7b" "\x7d" depth (prettyFields (depth + 1) fields)

def prettyItems (depth : Nat) : List Datum → List String
  | [] => []
  | d :: rest => pretty depth d :: prettyItems depth rest

def prettyFields (depth : Nat) : List (String × Datum) → List String
  | [] => []
  | (name, d) :: rest => (quotedText name ++ ": " ++ pretty depth d) :: prettyFields depth rest

end

def int? (low high : Int) : Datum → Option Int
  | int n => if low ≤ n ∧ n ≤ high then some n else none
  | _ => none

def nat? (bound : Nat) (d : Datum) : Option Nat := (d.int? 0 (bound - 1)).map Int.toNat

def real? : Datum → Option Float
  | real x => some x
  | int n => some (Float.ofInt n)
  | _ => none

def bool? : Datum → Option Bool
  | bool b => some b
  | _ => none

def text? : Datum → Option String
  | text s => some s
  | _ => none

def listOf? {α : Type} (item? : Datum → Option α) : Datum → Option (List α)
  | list items => items.mapM item?
  | _ => none

def pair? {α β : Type} (first? : Datum → Option α) (second? : Datum → Option β) :
    Datum → Option (α × β)
  | list [a, b] => do return (← first? a, ← second? b)
  | _ => none

def option? {α : Type} (some? : Datum → Option α) : Datum → Option (Option α)
  | null => some none
  | d => (some? d).map some

def ofOption {α : Type} (write : α → Datum) : Option α → Datum
  | some a => write a
  | none => null

def ofNat (n : Nat) : Datum := int n

inductive Field
  | found (d : Datum)
  | absent
  | cutOff

namespace Field

def required {α : Type} (f : Field) (read? : Datum → Option α) : Option α :=
  match f with
  | found d => read? d
  | _ => none

def optional {α : Type} (f : Field) (read? : Datum → Option α) : Option (Option α) :=
  match f with
  | found d => option? read? d
  | absent => some none
  | cutOff => none

def withDefault {α : Type} (f : Field) (usual : α) (read? : Datum → Option α) : Option α :=
  match f with
  | found d => read? d
  | _ => some usual

end Field

/-- The fields of a structure by name, in the order of the names: from a record, whose other fields
are passed over, or from a list that is not too long. -/
def fields? (names : List String) : Datum → Option (List Field)
  | record fs => some (names.map fun n => match fs.lookup n with
      | some d => .found d
      | none => .absent)
  | list items =>
    if items.length ≤ names.length then
      some (items.map .found ++ List.replicate (names.length - items.length) .cutOff)
    else none
  | _ => none

def case? : Datum → Option (String × Option Datum)
  | text s => some (s, none)
  | record [(name, d)] => some (name, some d)
  | _ => none

def plainCase? (d : Datum) : Option String :=
  match d.case? with
  | some (name, none) => some name
  | some (name, some null) => some name
  | _ => none

def caseOf (name : String) (d : Datum) : Datum := record [(name, d)]

end Datum

end Ancilla
