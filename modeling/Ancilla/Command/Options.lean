/-!
Options on a command line. A long option is `--name value` or `--name=value`, a short one
`-n value`, `-n=value` or `-nvalue`, and short options without values may share a dash. Reading
stops at the first word that belongs to no option.
-/

namespace Ancilla.Command

inductive Halt
  | usage
  | help
  | version
  deriving DecidableEq, Repr

inductive OptionKind
  | flag
  | counted
  | value (accepts : String → Bool)
  | halt (why : Halt)

structure OptionSpec where
  name : String
  short : Option Char := none
  kind : OptionKind

structure OptionReading where
  given : List (String × String) := []
  pending : Option OptionSpec := none

namespace OptionReading

def give (r : OptionReading) (o : OptionSpec) (value : String) : Except Halt OptionReading :=
  let repeated := (r.given.lookup o.name).isSome
  let fits := match o.kind with
    | .flag => !repeated
    | .counted => true
    | .value accepts => !repeated && accepts value
    | .halt _ => false
  if fits then .ok ⟨(o.name, value) :: r.given, none⟩ else .error .usage

def meet (r : OptionReading) (o : OptionSpec) (attached : Option String) :
    Except Halt OptionReading :=
  match o.kind, attached with
  | .value _, some v => r.give o v
  | .value _, none => .ok { r with pending := some o }
  | _, some _ => .error .usage
  | .halt why, none => .error why
  | _, none => r.give o ""

def long (table : List OptionSpec) (r : OptionReading) (body : List Char) :
    Except Halt OptionReading :=
  let name := String.ofList (body.takeWhile (· ≠ '='))
  let attached := match body.dropWhile (· ≠ '=') with
    | [] => none
    | _ :: value => some (String.ofList value)
  match table.find? fun o => o.name = name with
  | some o => r.meet o attached
  | none => .error .usage

def cluster (table : List OptionSpec) : OptionReading → List Char → Except Halt OptionReading
  | r, [] => .ok r
  | r, c :: rest =>
    match table.find? fun o => o.short = some c with
    | none => .error .usage
    | some o =>
      match o.kind, rest with
      | .value _, [] => r.meet o none
      | .value _, '=' :: value => r.meet o (some (String.ofList value))
      | .value _, value => r.meet o (some (String.ofList value))
      | _, rest => do cluster table (← r.meet o none) rest

def read (table : List OptionSpec) : OptionReading → List String →
    Except Halt (List (String × String) × List String)
  | r, [] => if r.pending.isSome then .error .usage else .ok (r.given, [])
  | r, word :: rest =>
    match r.pending, word.toList with
    | some _, '-' :: _ :: _ => .error .usage
    | some o, _ => do read table (← r.give o word) rest
    -- two dashes end the options, and nothing may follow
    | none, ['-', '-'] => if rest.isEmpty then .ok (r.given, []) else .error .usage
    | none, '-' :: '-' :: body => do read table (← r.long table body) rest
    | none, '-' :: c :: body => do read table (← r.cluster table (c :: body)) rest
    | none, _ => .ok (r.given, word :: rest)

end OptionReading

end Ancilla.Command
