import Ancilla.Instruction
import Ancilla.Stored.Datum
import Ancilla.Word

/-! Stored forms of expressions, gates and instructions. -/

namespace Ancilla

namespace Stored

def word? : Datum → Option Nat := Datum.nat? Word.bound32

def size? : Datum → Option Nat := Datum.nat? Word.bound64

def ofIds (ids : List Nat) : Datum := .list (ids.map .ofNat)

def arithName : ArithOp → String
  | .add => "Add"
  | .sub => "Sub"
  | .mul => "Mul"
  | .div => "Div"

def arith? (name : String) : Option ArithOp :=
  [ArithOp.add, .sub, .mul, .div].find? fun op => arithName op = name

def writeExpr : Expr Float → Datum
  | .constant v => .caseOf "Constant" (.real v)
  | .symbol name => .caseOf "Symbol" (.text name)
  | .pi => .text "Pi"
  | .neg e => .caseOf "Neg" (writeExpr e)
  | .binary op a b => .caseOf (arithName op) (.list [writeExpr a, writeExpr b])

def expr? : Datum → Option (Expr Float)
  | .text s => if s = "Pi" then some .pi else none
  | .record [(name, .list [a, b])] => do
    return .binary (← arith? name) (← expr? a) (← expr? b)
  | .record [(name, d)] =>
    match name with
    | "Constant" => d.real?.map .constant
    | "Symbol" => d.text?.map .symbol
    | "Pi" => match d with
      | .null => some .pi
      | _ => none
    | "Neg" => (expr? d).map .neg
    | _ => none
  | _ => none

instance : Stored (Expr Float) := ⟨writeExpr, expr?⟩

def plainGates : List (String × Standard Float) :=
  [("I", .id), ("X", .x), ("Y", .y), ("Z", .z), ("H", .h), ("S", .s), ("Sdg", .sdg), ("T", .t),
   ("Tdg", .tdg), ("SX", .sx), ("SXdg", .sxdg), ("CX", .cx), ("CY", .cy), ("CZ", .cz), ("CH", .ch),
   ("Swap", .swap), ("CCX", .ccx), ("CSwap", .cswap)]

def rotations : List (String × (Expr Float → Standard Float)) :=
  [("Rx", .rx), ("Ry", .ry), ("Rz", .rz), ("P", .p), ("CRx", .crx), ("CRy", .cry), ("CRz", .crz),
   ("CP", .cp)]

def standardName (g : Standard Float) : String :=
  match g.parameters with
  | [] => ((plainGates.find? fun (_, k) => k.name = g.name).map Prod.fst).getD ""
  | [a] => ((rotations.find? fun (_, k) => (k a).name = g.name).map Prod.fst).getD ""
  | _ => "U"

def writeStandard (g : Standard Float) : Datum :=
  match g.parameters with
  | [] => .text (standardName g)
  | [a] => .caseOf (standardName g) (writeExpr a)
  | angles => .caseOf (standardName g) (.list (angles.map writeExpr))

def standard? (d : Datum) : Option (Standard Float) := do
  let (name, content) ← d.case?
  match plainGates.lookup name, rotations.lookup name, content with
  | some g, _, none => some g
  | some g, _, some .null => some g
  | none, some rotation, some d => (expr? d).map rotation
  | none, none, some (.list [a, b, c]) =>
    if name = "U" then return .u (← expr? a) (← expr? b) (← expr? c) else none
  | _, _, _ => none

instance : Stored (Standard Float) := ⟨writeStandard, standard?⟩

def writeKind : GateKind Float → Datum
  | .standard g => .caseOf "Standard" (writeStandard g)
  | .controlled base controls name =>
    .caseOf "Controlled" (.record
      [("base", writeStandard base), ("num_controls", .ofNat controls), ("name", .text name)])

def kind? (d : Datum) : Option (GateKind Float) :=
  match d.case? with
  | some ("Standard", some d) => (standard? d).map .standard
  | some ("Controlled", some d) =>
    match d.fields? ["base", "num_controls", "name"] with
    | some [base, controls, name] => do
      return .controlled (← base.required standard?) (← controls.required word?)
        (← name.required Datum.text?)
    | _ => none
  | _ => none

def writeCondition (c : Condition) : Datum :=
  .record [("terms", .list (c.terms.map fun (b, v) => .list [.ofNat b, .bool v]))]

def condition? (d : Datum) : Option Condition :=
  match d.fields? ["terms"] with
  | some [terms] => (terms.required (Datum.listOf? (Datum.pair? word? Datum.bool?))).map (⟨·⟩)
  | _ => none

instance : Stored Condition := ⟨writeCondition, condition?⟩

def writeGate (g : Gate Float) : Datum :=
  .record ([("kind", writeKind g.kind)] ++
    (g.label.map fun l => ("label", Datum.text l)).toList ++
    (g.condition.map fun c => ("condition", writeCondition c)).toList)

def gate? (d : Datum) : Option (Gate Float) :=
  match d.fields? ["kind", "label", "condition"] with
  | some [kind, label, condition] => do
    return ⟨← kind.required kind?, ← label.optional Datum.text?, ← condition.optional condition?⟩
  | _ => none

instance : Stored (Gate Float) := ⟨writeGate, gate?⟩

def writeOperation : Operation Float → Datum
  | .gate g => .caseOf "Gate" (writeGate g)
  | .measure => .text "Measure"
  | .barrier => .text "Barrier"

def operation? (d : Datum) : Option (Operation Float) :=
  match d.case? with
  | some ("Gate", some g) => (gate? g).map .gate
  | _ =>
    match d.plainCase? with
    | some "Measure" => some .measure
    | some "Barrier" => some .barrier
    | _ => none

instance : Stored (Instruction Float) where
  write i := .record
    [("kind", writeOperation i.operation), ("qubits", ofIds i.qubits), ("clbits", ofIds i.clbits)]
  read? d :=
    match d.fields? ["kind", "qubits", "clbits"] with
    | some [kind, qubits, clbits] => do
      return ⟨← kind.required operation?, ← qubits.required (Datum.listOf? word?),
        ← clbits.required (Datum.listOf? word?)⟩
    | _ => none

end Stored

end Ancilla
