import Ancilla.Arithmetic.Shift
import Ancilla.Session.Iteration
import Ancilla.Stored.Gate
import Ancilla.Variable.Measurement

/-! Stored forms of settings, strategies, variables and measurements. -/

namespace Ancilla.Stored

instance : Stored SessionConfig where
  write c := .record [("name", .text c.name), ("max_qubits", .ofOption .ofNat c.maxQubits)]
  read? d :=
    match d.fields? ["name", "max_qubits"] with
    | some [name, maxQubits] => do
      return ⟨← name.withDefault "session" Datum.text?,
        ← maxQubits.withDefault none (Datum.option? word?)⟩
    | _ => none

def iterationName : IterationStrategy → String
  | .shared => "shared"
  | .naive => "naive"

instance : Stored IterationStrategy where
  write s := .text (iterationName s)
  read? d := d.plainCase?.bind fun name =>
    [IterationStrategy.shared, .naive].find? fun s => iterationName s = name

instance : Stored IterationReport where
  write r := .record
    [("steps", .ofNat r.steps), ("predicate_evaluations", .ofNat r.predicateEvaluations)]
  read? d :=
    match d.fields? ["steps", "predicate_evaluations"] with
    | some [steps, evaluations] => do
      return ⟨← steps.required size?, ← evaluations.required size?⟩
    | _ => none

def shiftName : ShiftStrategy → String
  | .doubling => "doubling"
  | .naive => "naive"

instance : Stored ShiftStrategy where
  write s := .text (shiftName s)
  read? d := d.plainCase?.bind fun name =>
    [ShiftStrategy.doubling, .naive].find? fun s => shiftName s = name

def writeDecoder (d : Decoder) : Datum :=
  let type := ("type", Datum.text d.name)
  match d with
  | .integer signed => .record [type, ("signed", .bool signed)]
  | .fixed exponent signed =>
    .record [type, ("exponent", .int exponent), ("signed", .bool signed)]
  | _ => .record [type]

def tagged? : Datum → Option (String × Datum)
  | .record fs =>
    match fs.lookup "type" with
    | some (.text name) => some (name, .record (fs.filter fun (k, _) => k != "type"))
    | _ => none
  | .list (.text name :: rest) => some (name, .list rest)
  | _ => none

/-- Reads a decoder that its name describes in full: a list holds nothing else, and the other fields
of a record do not count. -/
def bareDecoder? (decoder : Decoder) : Datum → Option Decoder
  | .list (_ :: _) => none
  | _ => some decoder

def decoder? (d : Datum) : Option Decoder := do
  let (name, rest) ← tagged? d
  match name with
  | "integer" =>
    match rest.fields? ["signed"] with
    | some [signed] => (signed.required Datum.bool?).map .integer
    | _ => none
  | "fixed" =>
    match rest.fields? ["exponent", "signed"] with
    | some [exponent, signed] => do
      return .fixed (← exponent.required (Datum.int? (-Word.half32) (Word.half32 - 1)))
        (← signed.required Datum.bool?)
    | _ => none
  | "boolean" => bareDecoder? .boolean rest
  | "char" => bareDecoder? .char rest
  | "bitstring" => bareDecoder? .bitstring rest
  | _ => none

instance : Stored Decoder := ⟨writeDecoder, decoder?⟩

def writeValue : Value → Datum
  | .int n => .caseOf "Int" (.int n)
  | .real x => .caseOf "Float" (.real x)
  | .bool b => .caseOf "Bool" (.bool b)
  | .char c => .caseOf "Char" (.text c.toString)
  | .bits s => .caseOf "Bits" (.text s)

def char? (d : Datum) : Option Char :=
  match d.text?.map String.toList with
  | some [c] => some c
  | _ => none

def value? (d : Datum) : Option Value :=
  match d.case? with
  | some ("Int", some d) => (d.int? (-Word.half64) (Word.half64 - 1)).map .int
  | some ("Float", some d) => d.real?.map .real
  | some ("Bool", some d) => d.bool?.map .bool
  | some ("Char", some d) => (char? d).map .char
  | some ("Bits", some d) => d.text?.map .bits
  | _ => none

instance : Stored Value := ⟨writeValue, value?⟩

instance : Stored Variable where
  write v := .record
    [("name", .text v.name), ("qubits", ofIds v.qubits), ("decoder", writeDecoder v.decoder)]
  read? d :=
    match d.fields? ["name", "qubits", "decoder"] with
    | some [name, qubits, decoder] => do
      return ⟨← name.required Datum.text?, ← qubits.required (Datum.listOf? word?),
        ← decoder.required decoder?⟩
    | _ => none

instance : Stored Measurement where
  write m := .record
    [("variables", .list (m.names.map .text)),
     ("outcomes", .list (m.outcomes.map fun (values, p) =>
       .list [.list (values.map writeValue), .real p]))]
  read? d :=
    match d.fields? ["variables", "outcomes"] with
    | some [names, outcomes] => do
      return ⟨← names.required (Datum.listOf? Datum.text?),
        ← outcomes.required (Datum.listOf? (Datum.pair? (Datum.listOf? value?) Datum.real?))⟩
    | _ => none

instance : Stored ProgressMode where
  write m := .text m.word
  read? d := d.plainCase?.bind ProgressMode.ofWord?

instance : Stored Settings where
  write s := .record
    [("seed", .ofOption .ofNat s.seed), ("max_qubits", .ofNat s.maxQubits),
     ("parallel_threshold", .ofNat s.parallelThreshold),
     ("num_threads", .ofOption .ofNat s.numThreads), ("norm_tolerance", .real s.normTolerance),
     ("progress", .text s.progress.word)]
  read? d :=
    match d.fields? ["seed", "max_qubits", "parallel_threshold", "num_threads", "norm_tolerance",
        "progress"] with
    | some [seed, maxQubits, threshold, threads, tolerance, progress] => do
      let usual : Settings := {}
      return {
        seed := ← seed.withDefault usual.seed (Datum.option? size?)
        maxQubits := ← maxQubits.withDefault usual.maxQubits word?
        parallelThreshold := ← threshold.withDefault usual.parallelThreshold word?
        numThreads := ← threads.withDefault usual.numThreads (Datum.option? size?)
        normTolerance := ← tolerance.withDefault usual.normTolerance Datum.real?
        progress := ← progress.withDefault usual.progress read? }
    | _ => none

end Ancilla.Stored
