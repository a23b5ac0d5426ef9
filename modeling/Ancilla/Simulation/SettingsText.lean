import Ancilla.Markup.Node
import Ancilla.Simulation.Settings

/-!
Settings as a document: one mapping, each known key of which sets a field. Plain text is read as the
field needs it, and quoted text is only ever text. Entries of unknown keys are passed over whatever
they hold; a known key must not come twice. A document that is empty asks for the usual settings.
-/

namespace Ancilla.SettingsText

def natural? (bound : Nat) (s : String) : Option Nat :=
  let body := match s.toList with
    | '+' :: rest => rest
    | cs => cs
  let n := match body with
    | '0' :: 'x' :: rest => Text.inBase? 16 rest
    | '0' :: 'o' :: rest => Text.inBase? 8 rest
    | '0' :: 'b' :: rest => Text.inBase? 2 rest
    | '0' :: _ :: _ => none
    | cs => Text.inBase? 10 cs
  n.filter (· < bound)

def real? (s : String) : Option Float :=
  let unsigned := match s.toList with
    | '+' :: rest => String.ofList rest
    | _ => s
  if [".inf", ".Inf", ".INF"].contains unsigned then some (1 / 0)
  else if ["-.inf", "-.Inf", "-.INF"].contains s then some (-1 / 0)
  else if [".nan", ".NaN", ".NAN"].contains s then some (0 / 0)
  else if s.toList.take 2 = ['+', '+'] ∨ s.toList.take 2 = ['+', '-'] then none
  else (Decimal.real? unsigned).filter Float.isFinite

def isNullWord (s : String) : Bool := ["~", "null", "Null", "NULL"].contains s

def isNull (s : String) : Bool := s.isEmpty || isNullWord s

def number? {α : Type} (kind : Markup.Tag) (read? : String → Option α) : Markup.Node → Option α
  | .scalar _ v =>
    if v.style = .plain ∨ (v.style = .literal ∧ v.tag = some kind) then read? v.text else none
  | _ => none

/-- Reads a field that may be absent. It is if its plain text says so; under the tag of nothing it
must say so with a word, and under any other tag it says nothing of the kind. -/
def optional? {α : Type} (read? : Markup.Node → Option α) (n : Markup.Node) : Option (Option α) :=
  match n with
  | .scalar _ { style := .plain, tag := some tag, text } =>
    if tag ≠ Markup.Tag.null then (read? n).map some
    else if isNullWord text then some none
    else none
  | .scalar _ { style := .plain, tag := none, text } =>
    if isNull text then some none else (read? n).map some
  | _ => (read? n).map some

def word? {α : Type} (read? : String → Option α) : Markup.Node → Option α
  | .scalar _ v =>
    match v.tag.bind Markup.Tag.word? with
    | none => read? v.text
    | some w => if v.style = .plain ∧ isNull v.text then read? w else none
  | _ => none

def whole? (bound : Nat) : Markup.Node → Option Nat := number? Markup.Tag.int (natural? bound)

def assign? (s : Settings) (key : String) (n : Markup.Node) : Option Settings :=
  match key with
  | "seed" => (optional? (whole? Word.bound64) n).map fun v => { s with seed := v }
  | "max_qubits" => (whole? Word.bound32 n).map fun v => { s with maxQubits := v }
  | "parallel_threshold" => (whole? Word.bound32 n).map fun v => { s with parallelThreshold := v }
  | "num_threads" => (optional? (whole? Word.bound64) n).map fun v => { s with numThreads := v }
  | "norm_tolerance" =>
    (number? Markup.Tag.float real? n).map fun v => { s with normTolerance := v }
  | "progress" => (word? ProgressMode.ofWord? n).map fun v => { s with progress := v }
  | _ => some s

def knownKeys : List String :=
  ["seed", "max_qubits", "parallel_threshold", "num_threads", "norm_tolerance", "progress"]

def hasRepeatedKey (es : List (String × Markup.Node)) : Bool :=
  knownKeys.any fun k => 1 < es.countP fun (key, _) => key = k

def key? (root n : Markup.Node) : Option String :=
  match root.resolve? n with
  | some (.scalar _ v) => some v.text
  | _ => none

def keyed? (root : Markup.Node) (e : Markup.Node × Markup.Node) :
    Option (String × Markup.Node) := do
  return (← key? root e.1, ← root.resolve? e.2)

def entries? : Option Markup.Node → Option (List (String × Markup.Node))
  | none => some []
  | some (.mapping a es) => es.mapM (keyed? (.mapping a es))
  | some (.scalar _ v) => if v.style = .plain ∧ v.text.isEmpty then some [] else none
  | _ => none

def parse (text : String) : Except SettingsError Settings :=
  match (Markup.Node.ofText? text).bind entries? with
  | none => .error (.parse "not a mapping")
  | some es =>
    if hasRepeatedKey es then .error (.parse "a field comes twice")
    else
      match es.foldlM (fun s (key, n) => assign? s key n) ({} : Settings) with
      | some s => s.check
      | none => .error (.parse "a field has a value of the wrong kind")

def load (source : Option (Except String String)) (valueOf : String → Option String) :
    Except SettingsError Settings := do
  let s ← match source with
    | some text => parse (← text.mapError .io)
    | none => pure {}
  s.mergeVariables valueOf

end Ancilla.SettingsText
