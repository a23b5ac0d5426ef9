import Ancilla.Markup.Cursor
import Ancilla.Text.Digits

/-!
The texts of a document: plain words, texts between quotes and blocks of lines. A plain or quoted
text that goes on over several lines is folded: one line break between words is a blank, and of
several the first is dropped.
-/

namespace Ancilla.Markup

inductive Style
  | plain
  | singleQuoted
  | doubleQuoted
  | literal
  | folded
  deriving DecidableEq, Repr

def gapText (gap : List Char) : List Char :=
  match gap.filter isBreak with
  | [] => gap
  | ['\n'] => [' ']
  | '\n' :: more => more
  | breaks => breaks

/-! ### Plain texts -/

def plainWord? (flow : Bool) : List Char → Option (List Char)
  | [] => some []
  | c :: cs =>
    let touches := cs.head?.any fun d => [',', '?', '[', ']', '\x7b', '\x7d'].contains d
    if isSpace c then some []
    -- between brackets no colon may touch what ends a word
    else if flow && c = ':' && touches then none
    else if c = ':' && endsWord cs then some []
    else if flow && [',', '[', ']', '\x7b', '\x7d'].contains c then some []
    else (plainWord? flow cs).map (c :: ·)

def hasEarlyTab (indent : Nat) : Option Nat → List Char → Bool
  | _, [] => false
  | column, c :: cs =>
    if isBreak c then hasEarlyTab indent (some 0) cs
    else (c = '\t' && column.any (· < indent)) || hasEarlyTab indent (column.map (· + 1)) cs

/-- Reads on in a plain text of which some words are read, backwards, and a gap behind them. The
last part of the answer tells whether the text is followed by a line break. -/
def plainRest? (flow : Bool) (indent : Nat) :
    Nat → Cursor → List Char → List Char → Option (List Char × Cursor × Bool)
  | 0, _, _, _ => none
  | fuel + 1, c, text, gap =>
    if c.atMarker || c.isAt '#' then some (text.reverse, c, gap.any isBreak)
    else
      match plainWord? flow c.rest with
      | none => none
      | some [] => some (text.reverse, c, gap.any isBreak)
      | some word =>
        let text := word.reverseAux ((gapText gap).reverseAux text)
        let c := c.skip word.length
        let (gap, after) := c.span isSpace
        if gap.isEmpty then some (text.reverse, c, false)
        else if hasEarlyTab indent none gap then none
        else if !flow && after.column < indent then some (text.reverse, after, gap.any isBreak)
        else plainRest? flow indent fuel after text gap

def plain? (flow : Bool) (indent : Nat) (c : Cursor) : Option (List Char × Cursor × Bool) :=
  plainRest? flow indent (c.rest.length + 1) c [] []

/-! ### Quoted texts -/

def escapes : List (Char × Char) :=
  [('0', '\x00'), ('a', '\x07'), ('b', '\x08'), ('t', '\t'), ('\t', '\t'), ('n', '\n'),
   ('v', '\x0b'), ('f', '\x0c'), ('r', '\r'), ('e', '\x1b'), (' ', ' '), ('"', '"'), ('/', '/'),
   ('\\', '\\'), ('N', '\u0085'), ('_', '\u00a0'), ('L', '\u2028'), ('P', '\u2029')]

def codeWidths : List (Char × Nat) := [('x', 2), ('u', 4), ('U', 8)]

def escape? : List Char → Option (Char × Nat)
  | [] => none
  | e :: rest =>
    match escapes.lookup e with
    | some c => some (c, 1)
    | none => do
      let width ← codeWidths.lookup e
      let digits := rest.take width
      let code ← if digits.length = width then Text.inBase? 16 digits else none
      if code < 0x110000 ∧ ¬(0xd800 ≤ code ∧ code ≤ 0xdfff) then some (Char.ofNat code, width + 1)
      else none

def quotedRest? (quote : Char) : Nat → Cursor → List Char → Option (List Char × Cursor)
  | 0, _, _ => none
  | fuel + 1, c, text =>
    if c.atMarker then none
    else
      match c.rest with
      | [] => none
      | ch :: rest =>
        if isSpace ch then
          let (gap, after) := c.span isSpace
          quotedRest? quote fuel after ((gapText gap).reverseAux text)
        -- a single quote stands for itself when it is written twice
        else if ch = '\'' ∧ quote = '\'' ∧ rest.head? = some '\'' then
          quotedRest? quote fuel (c.skip 2) ('\'' :: text)
        else if ch = quote then some (text.reverse, c.next)
        else if ch = '\\' ∧ quote = '"' then
          -- before a line break a backslash takes the break away
          if rest.head?.any isBreak then
            let (gap, after) := (c.skip 2).span isSpace
            quotedRest? quote fuel after ((gap.filter isBreak).reverseAux text)
          else
            match escape? rest with
            | some (e, length) => quotedRest? quote fuel (c.skip (length + 1)) (e :: text)
            | none => none
        else quotedRest? quote fuel c.next (ch :: text)

def quoted? (quote : Char) (c : Cursor) : Option (List Char × Cursor) :=
  quotedRest? quote (c.rest.length + 1) c.next []

/-! ### Blocks of lines -/

inductive Chomp
  | strip
  | clip
  | keep
  deriving DecidableEq, Repr

def Chomp.ofSign? : Char → Option Chomp
  | '-' => some strip
  | '+' => some keep
  | _ => none

def indentDigit? (cs : List Char) : Option (Option Nat × List Char) :=
  match cs with
  | c :: rest => if c = '0' then none else if c.isDigit then some (some (c.toNat - 48), rest)
    else some (none, cs)
  | [] => some (none, cs)

def sign (cs : List Char) : Option Chomp × List Char :=
  match cs.head?.bind Chomp.ofSign? with
  | some chomp => (some chomp, cs.drop 1)
  | none => (none, cs)

def blockHead? (cs : List Char) : Option (Chomp × Option Nat × List Char) :=
  match sign cs with
  | (some chomp, rest) => (indentDigit? rest).map fun (digit, rest) => (chomp, digit, rest)
  | (none, _) => (indentDigit? cs).map fun (digit, rest) =>
    if digit.isSome then
      let (chomp, rest) := sign rest
      (chomp.getD .clip, digit, rest)
    else (.clip, none, rest)

/-- Passes over the indentation and the empty lines in front of a line of a block. The answer has
the line breaks passed and the widest indentation seen. -/
def blockGap? (indent : Option Nat) :
    Nat → Cursor → List Char → Nat → Option (List Char × Nat × Cursor)
  | 0, _, _, _ => none
  | fuel + 1, c, breaks, widest =>
    let blanks := (c.rest.takeWhile (· = ' ')).length
    -- while the indentation is not known, all blanks count as indentation
    let c := c.skip ((indent.map fun n => min blanks (n - c.column)).getD blanks)
    let widest := max widest c.column
    if indent.all (c.column < ·) && c.isAt '\t' then none
    else
      match c.rest with
      | ch :: _ =>
        if isBreak ch then blockGap? indent fuel c.next (breaks ++ [ch]) widest
        else some (breaks, widest, c)
      | [] => some (breaks, widest, c)

structure BlockPart where
  text : List Char := []
  lineEnd : List Char := []
  empty : List Char
  startsBlank : Bool := false

def BlockPart.gap (style : Style) (p : BlockPart) (startsBlank : Bool) : List Char :=
  -- a single line break between two lines that start with words is folded
  if style = .folded ∧ p.lineEnd = ['\n'] ∧ p.startsBlank = false ∧ startsBlank = false then
    if p.empty.isEmpty then [' '] else p.empty
  else p.lineEnd ++ p.empty

def blockLines? (style : Style) (indent : Nat) :
    Nat → Cursor → BlockPart → Option (BlockPart × Cursor)
  | 0, _, _ => none
  | fuel + 1, c, p =>
    if c.column = indent ∧ c.rest ≠ [] then
      let startsBlank := c.rest.head?.any isBlank
      let (line, c) := c.span fun ch => !isBreak ch
      let lineEnd := c.rest.take 1
      match blockGap? (some indent) (c.rest.length + 1) c.next [] 0 with
      | none => none
      | some (empty, _, c) =>
        blockLines? style indent fuel c
          { text := line.reverseAux ((p.gap style startsBlank).reverseAux p.text)
            lineEnd, empty, startsBlank }
    else some (p, c)

def block? (style : Style) (outer : Option Nat) (c : Cursor) : Option (List Char × Cursor) := do
  let (chomp, digit, rest) ← blockHead? c.next.rest
  let c ← ((c.next).skip (c.next.rest.length - rest.length)).endLine?
  let given := digit.map (outer.getD 0 + ·)
  let (empty, widest, c) ← blockGap? given (c.rest.length + 1) c [] 0
  let least := max 1 ((outer.map (· + 1)).getD 0)
  let indent := given.getD (max widest least)
  let (p, c) ← blockLines? style indent (c.rest.length + 1) c { empty }
  let lineEnd := if chomp = .strip then [] else p.lineEnd
  some (p.text.reverse ++ lineEnd ++ if chomp = .keep then p.empty else [], c)

end Ancilla.Markup
