import Ancilla.Markup.Token

/-!
Documents as trees of texts, lists and mappings. A node may have an anchor, and a reference to it
stands for the node that bears it. Anchors are numbered: a name gets the number of names known
before it, a name that comes again gets a new number, and of two nodes with one number the later one
counts.
-/

namespace Ancilla.Markup

structure Scalar where
  style : Style
  tag : Option Tag
  text : String

inductive Node
  | scalar (anchor : Option Nat) (value : Scalar)
  | sequence (anchor : Option Nat) (items : List Node)
  | mapping (anchor : Option Nat) (entries : List (Node × Node))
  | reference (anchor : Nat)

namespace Node

def empty : Node := scalar none { style := .plain, tag := none, text := "" }

def binding (anchor : Option Nat) (n : Node) : List (Nat × Node) :=
  match anchor with
  | some a => [(a, n)]
  | none => []

mutual

def anchored : Node → List (Nat × Node)
  | scalar a v => binding a (scalar a v)
  | sequence a items => binding a (sequence a items) ++ anchoredItems items
  | mapping a entries => binding a (mapping a entries) ++ anchoredEntries entries
  | reference _ => []

def anchoredItems : List Node → List (Nat × Node)
  | [] => []
  | n :: rest => anchored n ++ anchoredItems rest

def anchoredEntries : List (Node × Node) → List (Nat × Node)
  | [] => []
  | (k, v) :: rest => anchored k ++ anchored v ++ anchoredEntries rest

end

def resolve? (root : Node) : Node → Option Node
  | reference a => root.anchored.reverse.lookup a
  | n => some n

structure Source where
  tokens : List Token
  anchors : List (String × Nat) := []

def Source.name (s : Source) (anchor : Option String) : Option Nat × Source :=
  match anchor with
  | none => (none, s)
  | some a =>
    let number := s.anchors.length
    (some number, { s with anchors := (a, number) :: s.anchors.filter (·.1 ≠ a) })

abbrev Handles := List (String × Tag)

def fullTag? (handles : Handles) (handle : String) (suffix : Tag) : Option Tag :=
  if handle.isEmpty then some suffix else (handles.lookup handle).map (· ++ suffix)

def properties? (handles : Handles) :
    List Token → Option (Option String × Option Tag × List Token)
  | .anchor a :: .tag h s :: rest => (fullTag? handles h s).map fun t => (some a, some t, rest)
  | .anchor a :: rest => some (some a, none, rest)
  | .tag h s :: .anchor a :: rest => (fullTag? handles h s).map fun t => (some a, some t, rest)
  | .tag h s :: rest => (fullTag? handles h s).map fun t => (none, some t, rest)
  | tokens => some (none, none, tokens)

def endsBlockPart : List Token → Bool
  | .key :: _ | .value :: _ | .blockEnd :: _ => true
  | _ => false

def endsBlockItem : List Token → Bool
  | .blockEntry :: _ | .blockEnd :: _ => true
  | _ => false

def endsIndentlessItem (tokens : List Token) : Bool :=
  endsBlockPart tokens || endsBlockItem tokens

def endsFlowValue (closing : Token → Bool) : List Token → Bool
  | .flowEntry :: _ => true
  | t :: _ => closing t
  | [] => false

def endsFlowKey (closing : Token → Bool) : List Token → Bool
  | .value :: _ => true
  | tokens => endsFlowValue closing tokens

def closesSequence : Token → Bool
  | .flowSequenceEnd => true
  | _ => false

def closesMapping : Token → Bool
  | .flowMappingEnd => true
  | _ => false

def separated? (first : Bool) : List Token → Option (List Token)
  | .flowEntry :: rest => if first then some (.flowEntry :: rest) else some rest
  | tokens => if first then some tokens else none

def bare (number : Option Nat) (tag : Option Tag) (s : Source) : Option (Node × Source) :=
  if number.isSome || tag.isSome then
    some (scalar number { style := .plain, tag, text := "" }, s)
  else none

mutual

/-- Reads a node. By lines, lists and mappings may start with a column of their own, and, as the key
or the value of a mapping, a list may do without. -/
def read? (handles : Handles) (block indentless : Bool) : Nat → Source → Option (Node × Source)
  | 0, _ => none
  | fuel + 1, s =>
    match s.tokens with
    | .reference name :: rest =>
      (s.anchors.lookup name).map fun a => (reference a, { s with tokens := rest })
    | tokens => do
      let (anchor, tag, tokens) ← properties? handles tokens
      let (number, s) := { s with tokens }.name anchor
      match tokens with
      | .scalar style text :: rest =>
        some (scalar number { style, tag, text }, { s with tokens := rest })
      | .flowSequenceStart :: rest =>
        let (items, s) ← flowItems? handles true fuel { s with tokens := rest }
        some (sequence number items, s)
      | .flowMappingStart :: rest =>
        let (entries, s) ← flowEntries? handles true fuel { s with tokens := rest }
        some (mapping number entries, s)
      | t :: rest =>
        match t, block, indentless with
        | .blockEntry, _, true =>
          let (items, s) ← indentlessItems? handles fuel s
          some (sequence number items, s)
        | .blockSequenceStart, true, _ =>
          let (items, s) ← blockItems? handles fuel { s with tokens := rest }
          some (sequence number items, s)
        | .blockMappingStart, true, _ =>
          let (entries, s) ← blockEntries? handles fuel { s with tokens := rest }
          some (mapping number entries, s)
        | _, _, _ => bare number tag s
      | [] => bare number tag s

def readUnless? (handles : Handles) (leftOut block indentless : Bool) :
    Nat → Source → Option (Node × Source)
  | 0, _ => none
  | fuel + 1, s => if leftOut then some (empty, s) else read? handles block indentless fuel s

def blockItems? (handles : Handles) : Nat → Source → Option (List Node × Source)
  | 0, _ => none
  | fuel + 1, s =>
    match s.tokens with
    | .blockEntry :: rest => do
      let (n, s) ←
        readUnless? handles (endsBlockItem rest) true false fuel { s with tokens := rest }
      let (items, s) ← blockItems? handles fuel s
      some (n :: items, s)
    | .blockEnd :: rest => some ([], { s with tokens := rest })
    | _ => none

def indentlessItems? (handles : Handles) : Nat → Source → Option (List Node × Source)
  | 0, _ => none
  | fuel + 1, s =>
    match s.tokens with
    | .blockEntry :: rest => do
      let (n, s) ←
        readUnless? handles (endsIndentlessItem rest) true false fuel { s with tokens := rest }
      let (items, s) ← indentlessItems? handles fuel s
      some (n :: items, s)
    | _ => some ([], s)

def blockEntries? (handles : Handles) : Nat → Source → Option (List (Node × Node) × Source)
  | 0, _ => none
  | fuel + 1, s =>
    match s.tokens with
    | .key :: rest => do
      let (k, s) ← readUnless? handles (endsBlockPart rest) true true fuel { s with tokens := rest }
      let (v, s) ← match s.tokens with
        | .value :: rest =>
          readUnless? handles (endsBlockPart rest) true true fuel { s with tokens := rest }
        | _ => some (empty, s)
      let (entries, s) ← blockEntries? handles fuel s
      some ((k, v) :: entries, s)
    | .blockEnd :: rest => some ([], { s with tokens := rest })
    | _ => none

def flowValue? (handles : Handles) (closing : Token → Bool) : Nat → Source → Option (Node × Source)
  | 0, _ => none
  | fuel + 1, s =>
    match s.tokens with
    | .value :: rest =>
      readUnless? handles (endsFlowValue closing rest) false false fuel { s with tokens := rest }
    | _ => some (empty, s)

def flowItems? (handles : Handles) (first : Bool) : Nat → Source → Option (List Node × Source)
  | 0, _ => none
  | fuel + 1, s =>
    match s.tokens with
    | .flowSequenceEnd :: rest => some ([], { s with tokens := rest })
    | tokens => do
      match ← separated? first tokens with
      | .flowSequenceEnd :: rest => some ([], { s with tokens := rest })
      | .key :: rest => do
        -- where the marked key is left out, the token behind the mark is passed over
        let leftOut := endsFlowKey closesSequence rest
        let (k, s) ← readUnless? handles leftOut false false fuel
          { s with tokens := if leftOut then rest.drop 1 else rest }
        let (v, s) ← flowValue? handles closesSequence fuel s
        let (items, s) ← flowItems? handles false fuel s
        some (mapping none [(k, v)] :: items, s)
      | tokens => do
        let (n, s) ← read? handles false false fuel { s with tokens }
        let (items, s) ← flowItems? handles false fuel s
        some (n :: items, s)

def flowEntries? (handles : Handles) (first : Bool) :
    Nat → Source → Option (List (Node × Node) × Source)
  | 0, _ => none
  | fuel + 1, s =>
    match s.tokens with
    | .flowMappingEnd :: rest => some ([], { s with tokens := rest })
    | tokens => do
      match ← separated? first tokens with
      | .flowMappingEnd :: rest => some ([], { s with tokens := rest })
      | .key :: rest => do
        let (k, s) ← readUnless? handles (endsFlowKey closesMapping rest) false false fuel
          { s with tokens := rest }
        let (v, s) ← flowValue? handles closesMapping fuel s
        let (entries, s) ← flowEntries? handles false fuel s
        some ((k, v) :: entries, s)
      | tokens => do
        -- an item without a colon is a key alone
        let (k, s) ← read? handles false false fuel { s with tokens }
        let (entries, s) ← flowEntries? handles false fuel s
        some ((k, empty) :: entries, s)

end

def directives? : List Token → Bool → Handles → Option (Handles × List Token)
  | .directive (.version major minor) :: rest, hasVersion, handles =>
    if hasVersion ∨ major ≠ 1 ∨ (minor ≠ 1 ∧ minor ≠ 2) then none else directives? rest true handles
  | .directive (.handle name stem) :: rest, hasVersion, handles =>
    if (handles.lookup name).isSome then none
    else directives? rest hasVersion (handles ++ [(name, stem)])
  | tokens, _, handles => some (handles, tokens)

def usualHandles : Handles := [("!", Tag.unspecific), ("!!", Tag.ofText "tag:yaml.org,2002:")]

def ofTokens? (tokens : List Token) : Option (Option Node) := do
  let fuel := 4 * tokens.length + 4
  match tokens with
  | [] => some none
  | t :: rest =>
    let (n, s) ← match t with
      | .directive _ | .documentStart => do
        let (handles, after) ← directives? (t :: rest) false []
        match after with
        | .documentStart :: content =>
          let leftOut := match content with
            | [] | .directive _ :: _ | .documentStart :: _ | .documentEnd :: _ => true
            | _ => false
          readUnless? (handles ++ usualHandles) leftOut true false fuel { tokens := content }
        | _ => none
      | _ => read? usualHandles true false fuel { tokens := t :: rest }
    if s.tokens.all fun t => t matches .documentEnd then some (some n) else none

def ofText? (text : String) : Option (Option Node) := (Token.ofText? text).bind ofTokens?

end Node
end Ancilla.Markup
