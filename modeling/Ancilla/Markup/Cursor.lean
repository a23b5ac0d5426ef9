/-!
The text of a document as its readers walk through it: the characters that it may hold, its line
breaks in one form, and a place in it with line and column.
-/

namespace Ancilla.Markup

def isAdmitted (c : Char) : Bool :=
  let n := c.toNat
  n == 0x09 || n == 0x0a || n == 0x0d || (0x20 ≤ n && n ≤ 0x7e) || n == 0x85 ||
    (0xa0 ≤ n && n ≤ 0xfffd) || 0x10000 ≤ n

def isBreak (c : Char) : Bool := c = '\n' || c = '\u2028' || c = '\u2029'

def isBlank (c : Char) : Bool := c = ' ' || c = '\t'

def isSpace (c : Char) : Bool := isBlank c || isBreak c

def isNameChar (c : Char) : Bool := c.isAlphanum || c = '_' || c = '-'

def unifyBreaks : List Char → List Char
  | [] => []
  | '\r' :: '\n' :: cs => '\n' :: unifyBreaks cs
  | '\r' :: cs => '\n' :: unifyBreaks cs
  | '\u0085' :: cs => '\n' :: unifyBreaks cs
  | c :: cs => c :: unifyBreaks cs

def endsWord : List Char → Bool
  | [] => true
  | c :: _ => isSpace c

/-- A place in a document: the text that is still to be read, and the line and the column of its
first character, both from 0. -/
structure Cursor where
  rest : List Char
  line : Nat := 0
  column : Nat := 0

namespace Cursor

def ofText? (text : String) : Option Cursor :=
  if text.toList.all isAdmitted then some { rest := unifyBreaks text.toList } else none

def next (c : Cursor) : Cursor :=
  match c.rest with
  | [] => c
  | ch :: rest =>
    if isBreak ch then { rest, line := c.line + 1, column := 0 }
    else { rest, line := c.line, column := c.column + 1 }

def skip : Nat → Cursor → Cursor
  | 0, c => c
  | n + 1, c => skip n c.next

def span (p : Char → Bool) (c : Cursor) : List Char × Cursor :=
  let run := c.rest.takeWhile p
  (run, c.skip run.length)

def skipWhile (p : Char → Bool) (c : Cursor) : Cursor := (c.span p).2

def isAt (c : Cursor) (ch : Char) : Bool := c.rest.head? = some ch

def skipComment (c : Cursor) : Cursor :=
  if c.isAt '#' then c.skipWhile fun ch => !isBreak ch else c

def endLine? (c : Cursor) : Option Cursor :=
  let c := (c.skipWhile isBlank).skipComment
  match c.rest with
  | [] => some c
  | ch :: _ => if isBreak ch then some c.next else none

def isMarker (mark : List Char) (c : Cursor) : Bool :=
  c.column = 0 && c.rest.take 3 = mark && endsWord (c.rest.drop 3)

def atStart (c : Cursor) : Bool := c.isMarker ['-', '-', '-']

def atEnd (c : Cursor) : Bool := c.isMarker ['.', '.', '.']

def atMarker (c : Cursor) : Bool := c.atStart || c.atEnd

end Cursor
end Ancilla.Markup
