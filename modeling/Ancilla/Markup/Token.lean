import Ancilla.Markup.Scalar
import Ancilla.Markup.Tag

/-!
The tokens of a document. Outside of brackets the columns of the lines are its structure: a list or
mapping starts where a first item or key stands further to the right than what is around it, and
ends with the line that stands further to the left. A key is known only by the colon behind it, so
the place of what may turn out to be one is kept until the line ends.
-/

namespace Ancilla.Markup

inductive Token
  | directive (d : Directive)
  | documentStart
  | documentEnd
  | blockSequenceStart
  | blockMappingStart
  | blockEnd
  | flowSequenceStart
  | flowSequenceEnd
  | flowMappingStart
  | flowMappingEnd
  | blockEntry
  | flowEntry
  | key
  | value
  | reference (name : String)
  | anchor (name : String)
  | tag (handle : String) (suffix : Tag)
  | scalar (style : Style) (text : String)
  deriving Repr

namespace Token

/-- What may turn out to be a key: the position of its first token and its place in the text. A
required one is an error if no colon follows. -/
structure Candidate where
  required : Bool
  position : Nat
  line : Nat
  column : Nat

def keyLimit : Nat := 1024

structure Reading where
  cursor : Cursor
  tokens : Array Token := #[]
  indents : List Nat := []
  keyAllowed : Bool := true
  candidate : Option Candidate := none
  outer : List (Option Candidate) := []

namespace Reading

def inFlow (r : Reading) : Bool := !r.outer.isEmpty

def push (r : Reading) (t : Token) : Reading := { r with tokens := r.tokens.push t }

def take (r : Reading) (length : Nat) (t : Token) : Reading :=
  { r.push t with cursor := r.cursor.skip length }

def allowKey (r : Reading) (allowed : Bool) : Reading := { r with keyAllowed := allowed }

def dropCandidate? (r : Reading) : Option Reading :=
  if r.candidate.any (·.required) then none else some { r with candidate := none }

def saveCandidate? (r : Reading) : Option Reading := do
  if r.keyAllowed then
    let r ← r.dropCandidate?
    let required := !r.inFlow && r.indents.head? = some r.cursor.column
    some { r with candidate := some {
      required, position := r.tokens.size, line := r.cursor.line, column := r.cursor.column } }
  else some r

def isStale (r : Reading) (k : Candidate) : Bool :=
  k.line < r.cursor.line || k.column + keyLimit < r.cursor.column

def dropStale? (r : Reading) : Option Reading :=
  let gone : Option Candidate → Bool := fun k => k.any r.isStale
  let keep : Option Candidate → Option Candidate := fun k => k.filter fun k => !r.isStale k
  if (r.candidate :: r.outer).any fun k => gone k && k.any (·.required) then none
  else some { r with candidate := keep r.candidate, outer := r.outer.map keep }

def closeWhile (r : Reading) (p : Nat → Bool) : Reading :=
  if r.inFlow then r
  else
    let closed := r.indents.takeWhile p
    { r with
      indents := r.indents.drop closed.length
      tokens := r.tokens ++ Array.replicate closed.length Token.blockEnd }

/-- Opens a list or mapping at a column, in front of the token at a position, if the column is
further to the right than those of the open ones; between brackets nothing is opened. -/
def openAt (r : Reading) (column position : Nat) (start : Token) : Reading :=
  if !r.inFlow && r.indents.head?.all (· < column) then
    { r with
      indents := column :: r.indents
      tokens := r.tokens.insertIdxIfInBounds position start }
  else r

def openHere (r : Reading) (start : Token) : Reading :=
  r.openAt r.cursor.column r.tokens.size start

def skipSpace : Nat → Reading → Reading
  | 0, r => r
  | fuel + 1, r =>
    let c := r.cursor
    -- a byte order mark may stand at the start of each line
    let c := if c.column = 0 ∧ c.isAt '\ufeff' then c.next else c
    -- a tab may not stand where a key may start
    let tabs := r.inFlow || !r.keyAllowed
    let c := (c.skipWhile fun ch => ch = ' ' || (tabs && ch = '\t')).skipComment
    if c.rest.head?.any isBreak then
      skipSpace fuel { r with cursor := c.next, keyAllowed := r.keyAllowed || !r.inFlow }
    else { r with cursor := c }

def closeAll? (r : Reading) : Option Reading :=
  (r.closeWhile fun _ => true).dropCandidate?.map (·.allowKey false)

def openBracket? (r : Reading) (t : Token) : Option Reading := do
  let r ← r.saveCandidate?
  some ({ r with candidate := none, outer := r.candidate :: r.outer }.allowKey true |>.take 1 t)

def closeBracket? (r : Reading) (t : Token) : Option Reading := do
  let r ← r.dropCandidate?
  let r := match r.outer with
    | [] => r
    | candidate :: outer => { r with candidate, outer }
  some ((r.allowKey false).take 1 t)

def startItem? (r : Reading) (start mark : Token) : Option Reading :=
  if r.inFlow then r.dropCandidate?.map (·.take 1 mark)
  else if r.keyAllowed then ((r.openHere start).dropCandidate?).map (·.take 1 mark)
  else none

def startValue? (r : Reading) : Option Reading :=
  match r.candidate with
  | some k =>
    let r := { r with
      candidate := none, tokens := r.tokens.insertIdxIfInBounds k.position Token.key }
    some (((r.openAt k.column k.position .blockMappingStart).allowKey false).take 1 .value)
  | none =>
    if r.inFlow then some ((r.allowKey false).take 1 .value)
    else if r.keyAllowed then some ((r.openHere .blockMappingStart).take 1 .value)
    else none

def name? (r : Reading) (token : String → Token) : Option Reading := do
  let r ← r.saveCandidate?
  let (name, c) := r.cursor.next.span isNameChar
  let ends := endsWord c.rest ||
    c.rest.head?.any fun ch => ['?', ':', ',', ']', '\x7d', '%', '@', '\x60'].contains ch
  if !name.isEmpty && ends then
    some { (r.allowKey false).push (token (String.ofList name)) with cursor := c }
  else none

def tag? (r : Reading) : Option Reading := do
  let r ← r.saveCandidate?
  let (handle, suffix, c) ← Tag.read? r.inFlow r.cursor
  some { (r.allowKey false).push (.tag handle suffix) with cursor := c }

def blockScalar? (r : Reading) (style : Style) : Option Reading := do
  let r ← r.dropCandidate?
  let (text, c) ← block? style r.indents.head? r.cursor
  some { (r.allowKey true).push (.scalar style (String.ofList text)) with cursor := c }

def quotedScalar? (r : Reading) (style : Style) (quote : Char) : Option Reading := do
  let r ← r.saveCandidate?
  let (text, c) ← quoted? quote r.cursor
  some { (r.allowKey false).push (.scalar style (String.ofList text)) with cursor := c }

def plainScalar? (r : Reading) : Option Reading := do
  let r ← r.saveCandidate?
  let indent := (r.indents.head?.map (· + 1)).getD 0
  let (text, c, broken) ← plain? r.inFlow indent r.cursor
  -- behind a line break a key may start
  some { (r.allowKey broken).push (.scalar .plain (String.ofList text)) with cursor := c }

def indicators : List Char :=
  [',', '[', ']', '\x7b', '\x7d', '#', '&', '*', '!', '|', '>', '\'', '"', '%', '@', '\x60']

def startsPlain (flow : Bool) (c : Char) (rest : List Char) : Bool :=
  if c = '-' then !endsWord rest
  else if c = '?' || c = ':' then !flow && !endsWord rest
  else !isSpace c && !indicators.contains c

def tokenAt? (r : Reading) (c : Char) (rest : List Char) : Option Reading :=
  if r.cursor.column = 0 ∧ c = '%' then do
    let r ← r.closeAll?
    let (d, cursor) ← Directive.read? r.cursor
    some { r.push (.directive d) with cursor }
  else if r.cursor.atStart then r.closeAll?.map (·.take 3 .documentStart)
  else if r.cursor.atEnd then r.closeAll?.map (·.take 3 .documentEnd)
  else
    match c with
    | '[' => r.openBracket? .flowSequenceStart
    | '\x7b' => r.openBracket? .flowMappingStart
    | ']' => r.closeBracket? .flowSequenceEnd
    | '\x7d' => r.closeBracket? .flowMappingEnd
    | ',' => r.dropCandidate?.map fun r => (r.allowKey true).take 1 .flowEntry
    | '*' => r.name? .reference
    | '&' => r.name? .anchor
    | '!' => r.tag?
    | '\'' => r.quotedScalar? .singleQuoted '\''
    | '"' => r.quotedScalar? .doubleQuoted '"'
    | _ =>
      if c = '-' ∧ endsWord rest then
        (r.startItem? .blockSequenceStart .blockEntry).map (·.allowKey true)
      else if c = '?' ∧ (r.inFlow ∨ endsWord rest) then
        (r.startItem? .blockMappingStart .key).map fun r => r.allowKey !r.inFlow
      else if c = ':' ∧ (r.inFlow ∨ endsWord rest) then r.startValue?
      else if c = '|' ∧ ¬r.inFlow then r.blockScalar? .literal
      else if c = '>' ∧ ¬r.inFlow then r.blockScalar? .folded
      else if startsPlain r.inFlow c rest then r.plainScalar?
      else none

def finish? : Nat → Reading → Option (List Token)
  | 0, _ => none
  | fuel + 1, r => do
    let r := skipSpace (fuel + 1) r
    let r ← r.dropStale?
    let r := r.closeWhile (r.cursor.column < ·)
    match r.cursor.rest with
    | [] => r.closeAll?.map (·.tokens.toList)
    | c :: rest => finish? fuel (← r.tokenAt? c rest)

end Reading

def ofText? (text : String) : Option (List Token) := do
  let cursor ← Cursor.ofText? text
  -- each token takes a character at least, and one step more finds the end
  Reading.finish? (cursor.rest.length + 1) { cursor }

end Token
end Ancilla.Markup
