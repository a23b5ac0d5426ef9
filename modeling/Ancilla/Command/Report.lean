import Ancilla.Arithmetic.Modular
import Ancilla.Arithmetic.Shift
import Ancilla.Command.Request
import Ancilla.Simulation.SettingsText
import Ancilla.Stored.Circuit
import Ancilla.Text.Case
import Ancilla.Variable.Measurement

/-!
Requests carried out. What a request prints before it fails stays printed; a failure is told as what
was being done, a colon, and the cause.
-/

namespace Ancilla.Command

/-- What the program finds around it: variables, and files with their contents or the reason why
they cannot be read. -/
structure Surroundings where
  valueOf : String → Option String
  fileText : String → Except String String

structure Report where
  exitCode : Nat
  output : String := ""
  errors : String := ""
  deriving DecidableEq, Repr

structure Failure where
  text : String
  deriving DecidableEq, Repr

namespace Failure

def during (activity cause : String) : Failure := ⟨activity ++ ": " ++ cause⟩

end Failure

instance : FromSession Failure := ⟨fun e => ⟨e.message⟩⟩

abbrev Console := ExceptT Failure (StateM String)

def Console.line (s : String) : Console Unit := modify fun printed => printed ++ s ++ "\n"

def Console.ofExcept {ε α : Type} (report : ε → Failure) (r : Except ε α) : Console α :=
  ExceptT.mk (pure (r.mapError report))

def bitLength (n : Nat) : Nat := if n = 0 then 0 else Nat.log2 n + 1

def bitsBelow (n : Nat) : Nat := max 1 (bitLength (n - 1))

def residueWidth (modulus : Nat) : Except Failure Nat :=
  if modulus < 2 then .error ⟨s!"Modulus must be at least 2, got {modulus}"⟩
  else .ok (bitLength (modulus - 1))

def construct {α : Type} (name : String) (b : Build Float Failure α) :
    Except Failure (α × Circuit Float) := do
  let (r, session) := Id.run (b.run.run (Session.new { name }))
  let a ← r
  match session.finish with
  | .ok circuit => return (a, circuit)
  | .error e => throw ⟨e.message⟩

def newInteger (name : String) (width : Nat) : Build Float Failure Variable :=
  Build.embed (fun e => ⟨e.message⟩) (Variable.integer name width)

def synthesize {α : Type} (what : String) (b : Synthesis Float α) : Build Float Failure α :=
  Build.embed (fun e => .during ("Failed to synthesize " ++ what) e.message) b

def loadSimulator (s : Surroundings) (i : Invocation) : Except Failure Simulator := do
  let activity := match i.settingsPath with
    | some path => "Failed to load simulator config: " ++ path
    | none => "Invalid QSYNTH_SIM_* environment"
  let settings ← (SettingsText.load (i.settingsPath.map s.fileText) s.valueOf).mapError fun e =>
    .during activity e.message
  let settings := if i.showProgress then { settings with progress := .stderr } else settings
  (Simulator.ofSettings settings).mapError fun e => .during "Failed to create simulator" e.message

def barLength (percent : Float) : Nat := (percent / 2).round.toUInt64.toNat

def shownOutcomes : Nat := 16

def printDistribution (name : String) (outcomes : List (Value × Float)) : Console Unit := do
  Console.line ("\n✓ Distribution of " ++ name ++ ":")
  (outcomes.take shownOutcomes).forM fun (value, p) => do
    let percent := p * 100
    Console.line ("  " ++ value.text ++ ": " ++ Decimal.padLeft 6 (Decimal.fixedText 2 percent) ++
      "% " ++ "".pushn '█' (barLength percent))
  if shownOutcomes < outcomes.length then
    let hidden := outcomes.length - shownOutcomes
    Console.line s!"  ... and {hidden} more outcomes"

def simulationFailure (e : VariableError) : Failure := .during "Simulation failed" e.message

def measured {α : Type} (result : Except VariableError (Option α)) : Console α := do
  match ← Console.ofExcept simulationFailure result with
  | some outcomes => return outcomes
  | none => throw ⟨"attempt to subtract with overflow"⟩

def multiply (s : Surroundings) (i : Invocation) (a modulus x : Nat) (shots seed : Option Nat) :
    Console Unit := do
  Console.line s!"→ Computing {a} · {x} mod {modulus}"
  let width ← Console.ofExcept id (residueWidth modulus)
  if modulus ≤ x then throw ⟨s!"x must be below the modulus, got {x} >= {modulus}"⟩
  let (v, circuit) ← Console.ofExcept id (construct "modmul" do
    let v ← newInteger "x" width
    Build.embed (fun e => .during "Failed to initialize x" e.message) (v.init (.int x))
    synthesize s!"{a}·x mod {modulus}" (Modular.multiply v a modulus [])
    return v)
  let counts := ResourceCounts.ofCircuit circuit
  let qubits := counts.width
  let total := counts.total
  let depth := counts.depth
  Console.line s!"  Synthesized: {qubits} qubits, {total} ops, depth {depth}"
  let simulator ← Console.ofExcept id (loadSimulator s i)
  let outcomes ← measured (v.distribution simulator circuit { shots, seed })
  printDistribution "x" outcomes
  let expected := a * x % modulus
  if (outcomes.head?.map Prod.fst) == some (.int expected) then
    Console.line s!"\n  Expected {expected}: ok"
  else throw ⟨s!"Most likely outcome differs from the expected {expected}"⟩

def strategy (name : String) : Except Failure ShiftStrategy :=
  let lower := Text.lowerCase name
  match lower with
  | "doubling" | "log" => .ok .doubling
  | "naive" | "linear" => .ok .naive
  | _ => .error ⟨"Unknown strategy: '" ++ lower ++ "'. Available: doubling, naive"⟩

def strategyTitle : ShiftStrategy → String
  | .doubling => "Doubling"
  | .naive => "Naive"

def loadedInteger (name : String) (width value : Nat) : Build Float Failure Variable := do
  let v ← newInteger name width
  Build.embed (fun e => ⟨e.message⟩) (v.init (.int value))
  return v

def loadedCells (width : Nat) : Nat → Nat → Build Float Failure (List Variable)
  | 0, _ => pure []
  | count + 1, first => do
    let cell ← loadedInteger ("c" ++ toString first) width first
    return cell :: (← loadedCells width count (first + 1))

def shift (s : Surroundings) (i : Invocation) (cells offset : Nat) (strategyName : String) :
    Console Unit := do
  let strategy ← Console.ofExcept id (strategy strategyName)
  if cells = 0 then throw ⟨"Need at least one cell"⟩
  let title := strategyTitle strategy
  Console.line s!"→ Shifting {cells} cells by {offset} ({title})"
  let cellWidth := bitsBelow cells
  let (vars, circuit) ← Console.ofExcept id (construct "shift" do
    let vars ← loadedCells cellWidth cells 0
    let k ← loadedInteger "k" (max cellWidth (bitsBelow (offset + 1))) offset
    synthesize "shift" (Shift.cyclic vars k strategy)
    return vars)
  let counts := ResourceCounts.ofCircuit circuit
  let qubits := counts.width
  let swaps := counts.count "cswap"
  let depth := counts.depth
  Console.line s!"  Synthesized: {qubits} qubits, {swaps} controlled swaps, depth {depth}"
  let simulator ← Console.ofExcept id (loadSimulator s i)
  let outcomes ← measured (simulator.measure circuit vars {})
  match outcomes.mostLikely? with
  | none => throw ⟨"Simulation returned no outcomes"⟩
  | some contents =>
    Console.line ("\n✓ Cells: [" ++ ", ".intercalate (contents.map Value.text) ++ "]")
    let rotated := (List.range cells).map fun j =>
      Value.int ((j + cells - offset % cells) % cells : Nat)
    if contents != rotated then
      throw ⟨s!"Cell contents differ from a rotation by {offset}"⟩

def count (a modulus : Nat) (exponentBits : Option Nat) : Except Failure ResourceCounts := do
  let width ← residueWidth modulus
  let ((), circuit) ← construct "resources" (match exponentBits with
    | some bits => do
      let e ← newInteger "e" bits
      let x ← newInteger "x" width
      synthesize s!"{a}^e mod {modulus}" (Modular.power e x a modulus)
    | none => do
      let x ← newInteger "x" width
      synthesize s!"{a}·x mod {modulus}" (Modular.multiply x a modulus []))
  return ResourceCounts.ofCircuit circuit

def resources (a modulus : Nat) (exponentBits : Option Nat) (format : String) : Console Unit := do
  let counts ← Console.ofExcept id (count a modulus exponentBits)
  match format with
  | "json" => Console.line ((Stored.write counts).pretty 0)
  | "table" =>
    let fragment := match exponentBits with
      | some bits => s!"{a}^e mod {modulus} ({bits} exponent bits)"
      | none => s!"{a}·x mod {modulus}"
    Console.line ("✓ Resources for " ++ fragment)
    (counts.text.splitOn "\n").dropLast.forM fun l => Console.line ("  " ++ l)
  | _ => throw ⟨s!"Unknown format: '{format}'. Available: table, json"⟩

def release : String := "0.1.0"

def aboutText : List String :=
  ["qsynth v" ++ release ++ " - quantum arithmetic synthesis with automatic uncomputation",
   "",
   "Components:",
   "  qsynth-ir     Qubit allocator and circuit graph",
   "  qsynth-env    Scoped environments and uncomputation",
   "  qsynth-types  Quantum variables and decoders",
   "  qsynth-arith  Arithmetic synthesis",
   "  qsynth-sim    State-vector simulator",
   "",
   "License: Apache-2.0"]

def helpText : String :=
  "Usage: qsynth [OPTIONS] <COMMAND>\n\nCommands:\n" ++
    String.join (requestForms.map fun f => "  " ++ f.name ++ "\n")

def perform (s : Surroundings) (i : Invocation) : Console Unit :=
  match i.request with
  | .multiply a modulus x shots seed => multiply s i a modulus x shots seed
  | .shift cells offset strategy => shift s i cells offset strategy
  | .resources a modulus bits format => resources a modulus bits format
  | .version => aboutText.forM Console.line

def run (s : Surroundings) (args : List String) : Report :=
  match Invocation.parse s.valueOf args with
  | .error .usage => { exitCode := 2, errors := helpText }
  | .error .help => { exitCode := 0, output := helpText }
  | .error .version => { exitCode := 0, output := "qsynth " ++ release ++ "\n" }
  | .ok i =>
    match Id.run ((perform s i).run.run "") with
    | (.ok (), output) => { exitCode := 0, output }
    | (.error e, output) => { exitCode := 1, output, errors := "Error: " ++ e.text ++ "\n" }

end Ancilla.Command
