import Ancilla.Markup.Cursor
import Ancilla.Text.Digits

/-!
Tags, which say what kind of thing a node stands for. A tag is written in full between angle
brackets, or as a handle, which a directive may declare, and a suffix. Octets of a tag may be
written as a percent sign and two digits in base 16; a tag ends in front of an octet 0.
-/

namespace Ancilla.Markup

abbrev Tag := List UInt8

namespace Tag

def ofText (s : String) : Tag := s.toUTF8.toList

def null : Tag := ofText "tag:yaml.org,2002:null"

def int : Tag := ofText "tag:yaml.org,2002:int"

def float : Tag := ofText "tag:yaml.org,2002:float"

def unspecific : Tag := ofText "!"

def word? (t : Tag) : Option String :=
  match t with
  | 0x21 :: rest => String.fromUTF8? (if rest.isEmpty then t else rest).toByteArray
  | _ => none

def isTagChar (full : Bool) (c : Char) : Bool :=
  isNameChar c ||
    [';', '/', '?', ':', '@', '&', '=', '+', '$', '.', '!', '~', '*', '\'', '(', ')'].contains c ||
    (full && [',', '[', ']'].contains c)

def octet? : List Char → Option UInt8
  | '%' :: a :: b :: _ => (Text.inBase? 16 [a, b]).map UInt8.ofNat
  | _ => none

def octetCount? (first : UInt8) : Option Nat :=
  let n := first.toNat
  if n < 0x80 then some 1
  else if n / 0x20 = 6 then some 2
  else if n / 0x10 = 14 then some 3
  else if n / 8 = 30 then some 4
  else none

def escaped? (c : Cursor) : Option (Tag × Cursor) := do
  let first ← octet? c.rest
  let count ← octetCount? first
  let more ← (List.range (count - 1)).mapM fun i => octet? (c.rest.drop (3 * (i + 1)))
  if more.all fun o => o.toNat / 0x40 = 2 then some (first :: more, c.skip (3 * count)) else none

def rest? (full : Bool) : Nat → Cursor → Tag → Option (Tag × Cursor)
  | 0, _, _ => none
  | fuel + 1, c, tag =>
    match c.rest with
    | [] => some (tag, c)
    | ch :: _ =>
      if ch = '%' then
        match escaped? c with
        | some (octets, after) => rest? full fuel after (tag ++ octets)
        | none => none
      else if isTagChar full ch then rest? full fuel c.next (tag ++ [UInt8.ofNat ch.toNat])
      else some (tag, c)

def part? (full : Bool) (front : Tag) (mayBeEmpty : Bool) (c : Cursor) : Option (Tag × Cursor) := do
  let (tag, after) ← rest? full (c.rest.length + 1) c front
  if after.rest.length = c.rest.length ∧ mayBeEmpty = false then none
  else some (tag.takeWhile (· ≠ 0), after)

def handle? (c : Cursor) : Option (String × Cursor) :=
  match c.rest with
  | '!' :: rest =>
    let name := rest.takeWhile isNameChar
    let closing := (rest.drop name.length).takeWhile (· = '!')
    let handle := '!' :: name ++ closing.take 1
    some (String.ofList handle, c.skip handle.length)
  | _ => none

def isClosed (handle : String) : Bool := 1 < handle.length && handle.toList.getLast? = some '!'

def read? (flow : Bool) (c : Cursor) : Option (String × Tag × Cursor) := do
  let (handle, suffix, after) ←
    if c.rest.drop 1 |>.head? |>.any (· = '<') then do
      let (tag, after) ← part? true [] false (c.skip 2)
      if after.isAt '>' then some ("", tag, after.next) else none
    else do
      let (handle, after) ← handle? c
      if isClosed handle then do
        let (suffix, after) ← part? false [] false after
        some (handle, suffix, after)
      else do
        let front := Tag.ofText (String.ofList (handle.toList.drop 1))
        let (suffix, after) ← part? false front true after
        if suffix.isEmpty then some ("", unspecific, after) else some ("!", suffix, after)
  if (flow && after.isAt ',') || endsWord after.rest then some (handle, suffix, after) else none

end Tag

inductive Directive
  | version (major minor : Nat)
  | handle (name : String) (stem : Tag)
  deriving Repr

namespace Directive

def number? (c : Cursor) : Option (Nat × Cursor) := do
  let (digits, after) := c.span Char.isDigit
  let n ← Text.inBase? 10 digits
  if digits.length ≤ 9 then some (n, after) else none

def version? (c : Cursor) : Option (Directive × Cursor) := do
  let (major, c) ← number? (c.skipWhile isBlank)
  if c.isAt '.' then
    let (minor, c) ← number? c.next
    some (version major minor, c)
  else none

def handle? (c : Cursor) : Option (Directive × Cursor) := do
  let (name, c) ← Tag.handle? (c.skipWhile isBlank)
  if (Tag.isClosed name || name = "!") && c.rest.head?.any isBlank then
    let (stem, c) ← Tag.part? true [] false (c.skipWhile isBlank)
    if endsWord c.rest then some (handle name stem, c) else none
  else none

def read? (c : Cursor) : Option (Directive × Cursor) := do
  let (name, c) := c.next.span isNameChar
  let (d, c) ← if !endsWord c.rest then none
    else match String.ofList name with
      | "YAML" => version? c
      | "TAG" => handle? c
      | _ => none
  some (d, ← c.endLine?)

end Directive
end Ancilla.Markup
