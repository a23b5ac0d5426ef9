import Ancilla.Decimal.Reading
import Ancilla.Decimal.Shortest
import Ancilla.Text.Blank
import Ancilla.Word

/-!
Settings of the simulator and the variables of the surroundings that override them. Every set of
settings is checked after it was read.
-/

namespace Ancilla

inductive SettingsError
  | io (reason : String)
  | parse (reason : String)
  | validation (reason : String)
  deriving DecidableEq, Repr

def SettingsError.message : SettingsError → String
  | io reason => "IO error: " ++ reason
  | parse reason => "Parse error: " ++ reason
  | validation reason => "Validation error: " ++ reason

inductive ProgressMode
  | off
  | stderr
  | hidden
  deriving DecidableEq, Repr

namespace ProgressMode

def word : ProgressMode → String
  | off => "off"
  | stderr => "stderr"
  | hidden => "hidden"

def ofWord? (s : String) : Option ProgressMode := [off, stderr, hidden].find? fun m => m.word = s

def parse (s : String) : Except SettingsError ProgressMode :=
  let lower := String.ofList (s.toList.map Char.toLower)
  match ofWord? lower with
  | some m => .ok m
  | none => .error (.validation ("Invalid progress mode: " ++ lower))

end ProgressMode

structure Settings where
  seed : Option Nat := none
  maxQubits : Nat := 24
  parallelThreshold : Nat := 14
  numThreads : Option Nat := none
  normTolerance : Float := 1e-9
  progress : ProgressMode := .off

namespace Settings

def check (s : Settings) : Except SettingsError Settings :=
  if s.maxQubits = 0 ∨ 34 < s.maxQubits then
    let n := s.maxQubits
    .error (.validation s!"max_qubits must be between 1 and 34, got {n}")
  else if s.numThreads = some 0 then
    .error (.validation "num_threads must be greater than 0")
  else if !s.normTolerance.isFinite || s.normTolerance < 0 then
    let text := Decimal.text s.normTolerance
    .error (.validation s!"norm_tolerance must be a non-negative number, got {text}")
  else .ok s

def variableStem : String := "QSYNTH_SIM_"

def variableNames : List String :=
  ["SEED", "MAX_QUBITS", "PARALLEL_THRESHOLD", "THREADS", "NORM_TOLERANCE", "PROGRESS"].map
    (variableStem ++ ·)

def override {α : Type} (lookup : String → Option String) (name : String)
    (read? : String → Option α) (s : Settings) (set : Settings → α → Settings) :
    Except SettingsError Settings :=
  let name := variableStem ++ name
  match lookup name with
  | none => .ok s
  | some raw =>
    match read? (Text.strip raw) with
    | some v => .ok (set s v)
    | none => .error (.validation ("Invalid value for " ++ name ++ ": " ++ raw))

def mergeVariables (s : Settings) (lookup : String → Option String) :
    Except SettingsError Settings := do
  let word := Decimal.natural? Word.bound64
  let half := Decimal.natural? Word.bound32
  let s ← override lookup "SEED" word s fun s v => { s with seed := some v }
  let s ← override lookup "MAX_QUBITS" half s fun s v => { s with maxQubits := v }
  let s ← override lookup "PARALLEL_THRESHOLD" half s fun s v => { s with parallelThreshold := v }
  let s ← override lookup "THREADS" word s fun s v => { s with numThreads := some v }
  let s ← override lookup "NORM_TOLERANCE" Decimal.real? s fun s v => { s with normTolerance := v }
  let s ← override lookup "PROGRESS" (fun t => (ProgressMode.parse t).toOption) s
    fun s v => { s with progress := v }
  s.check

end Settings

end Ancilla
