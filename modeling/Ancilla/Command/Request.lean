import Ancilla.Command.Options
import Ancilla.Decimal.Reading
import Ancilla.Word

/-! The requests that a command line can make, and how the words are read. -/

namespace Ancilla.Command

inductive Request
  | multiply (a modulus x : Nat) (shots seed : Option Nat)
  | shift (cells offset : Nat) (strategy : String)
  | resources (a modulus : Nat) (exponentBits : Option Nat) (format : String)
  | version
  deriving DecidableEq, Repr

structure Invocation where
  request : Request
  settingsPath : Option String := none
  showProgress : Bool := false
  deriving DecidableEq, Repr

def word? : String → Option Nat := Decimal.natural? Word.bound64

def shots? (s : String) : Option Nat :=
  match s.toList with
  | '-' :: ds => (Decimal.digits? ds).filter (· = 0)
  | _ => Decimal.natural? Word.bound32 s

def numberOption (name : String) (short : Option Char) : OptionSpec :=
  ⟨name, short, .value fun s => (word? s).isSome⟩

def textOption (name : String) (short : Option Char) : OptionSpec :=
  ⟨name, short, .value fun _ => true⟩

def globalOptions : List OptionSpec :=
  [⟨"verbose", some 'v', .counted⟩,
   ⟨"sim-config", none, .value fun s => !s.isEmpty⟩,
   ⟨"progress", none, .flag⟩,
   ⟨"help", some 'h', .halt .help⟩]

def leadingOptions : List OptionSpec := globalOptions ++ [⟨"version", some 'V', .halt .version⟩]

abbrev Given := List (String × String)

def Given.number? (g : Given) (name : String) : Option Nat := (g.lookup name).bind word?

def Given.textOr (g : Given) (name usual : String) : String := (g.lookup name).getD usual

structure RequestForm where
  name : String
  options : List OptionSpec
  build? : Given → Option Request

def requestForms : List RequestForm :=
  [{ name := "modmul"
     options :=
       [numberOption "a" none, numberOption "modulus" (some 'N'), numberOption "x" none,
        ⟨"shots", some 's', .value fun s => (shots? s).isSome⟩, numberOption "seed" none]
     build? := fun g => do
       return .multiply (← g.number? "a") (← g.number? "modulus") (← g.number? "x")
         ((g.lookup "shots").bind shots?) (g.number? "seed") },
   { name := "shift"
     options :=
       [numberOption "width" (some 'w'), numberOption "offset" (some 'o'),
        textOption "strategy" none]
     build? := fun g => do
       return .shift (← g.number? "width") (← g.number? "offset")
         (g.textOr "strategy" "doubling") },
   { name := "resources"
     options :=
       [numberOption "a" none, numberOption "modulus" (some 'N'), numberOption "exponent-bits" none,
        textOption "format" (some 'f')]
     build? := fun g => do
       return .resources (← g.number? "a") (← g.number? "modulus") (g.number? "exponent-bits")
         (g.textOr "format" "table") },
   { name := "version"
     options := []
     build? := fun _ => some .version }]

def helpOn : List String → Halt
  | [] => .help
  | [name] => if requestForms.any (·.name = name) || name = "help" then .help else .usage
  | _ => .usage

def settingsVariable : String := "QSYNTH_SIM_CONFIG"

def resolvePath (valueOf : String → Option String) (g : Given) : Except Halt (Option String) :=
  match g.lookup "sim-config", valueOf settingsVariable with
  | some path, _ => .ok (some path)
  | none, some "" => .error .usage
  | none, path => .ok path

def Invocation.parse (valueOf : String → Option String) (args : List String) :
    Except Halt Invocation := do
  match ← OptionReading.read leadingOptions {} args with
  | (_, []) => throw .usage
  | (before, name :: rest) =>
    if name = "help" then throw (helpOn rest)
    match requestForms.find? fun f => f.name = name with
    | none => throw .usage
    | some form =>
      match ← OptionReading.read (form.options ++ globalOptions) {} rest with
      | (_, _ :: _) => throw .usage
      | (behind, []) =>
        match form.build? behind with
        | none => throw .usage
        | some request =>
          -- global options may stand on both sides of the name, and those behind it win
          let outer ← resolvePath valueOf before
          let inner ← resolvePath valueOf behind
          let path := if (behind.lookup "sim-config").isSome then inner else outer
          let progress := ((behind ++ before).lookup "progress").isSome
          return ⟨request, path, progress⟩

end Ancilla.Command
