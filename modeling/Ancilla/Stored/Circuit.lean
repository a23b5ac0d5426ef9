import Ancilla.Allocator
import Ancilla.Circuit.Resources
import Ancilla.Stored.Gate

/-! Stored forms of wires, timelines, counts and dependency graphs. -/

namespace Ancilla

namespace Stored

instance : Stored Qubit where
  write q := .record
    [("id", .ofNat q.id), ("register", .ofOption .text q.register),
     ("index", .ofOption .ofNat q.index)]
  read? d :=
    match d.fields? ["id", "register", "index"] with
    | some [id, register, index] => do
      return ⟨← id.required word?, ← register.optional Datum.text?, ← index.optional word?⟩
    | _ => none

instance : Stored Clbit where
  write c := .record [("id", .ofNat c.id), ("source", .ofOption .ofNat c.source)]
  read? d :=
    match d.fields? ["id", "source"] with
    | some [id, source] => do return ⟨← id.required word?, ← source.optional word?⟩
    | _ => none

def eventFields? : Datum → Option (QubitId × Nat)
  | .record fs => do
    return (← (fs.lookup "qubit").bind word?, ← (fs.lookup "at").bind size?)
  | _ => none

instance : Stored AllocationEvent where
  write
    | .allocate q n => .caseOf "Allocate" (.record [("qubit", .ofNat q), ("at", .ofNat n)])
    | .release q n => .caseOf "Release" (.record [("qubit", .ofNat q), ("at", .ofNat n)])
  read? d :=
    match d.case? with
    | some ("Allocate", some d) => (eventFields? d).map fun (q, n) => .allocate q n
    | some ("Release", some d) => (eventFields? d).map fun (q, n) => .release q n
    | _ => none

def stateName : QubitState → String
  | .free => "Free"
  | .allocated => "Allocated"
  | .entangled => "Entangled"
  | .reclaimed => "Reclaimed"

instance : Stored QubitState where
  write s := .text (stateName s)
  read? d := d.plainCase?.bind fun name =>
    [QubitState.free, .allocated, .entangled, .reclaimed].find? fun s => stateName s = name

def countMap? : Datum → Option (Std.TreeMap String Nat)
  | .record fs => do
    let counts ← fs.mapM fun (name, d) => do return (name, ← size? d)
    return counts.foldl (fun m (name, n) => m.insert name n) {}
  | _ => none

instance : Stored ResourceCounts where
  write r := .record
    [("by_name", .record (r.byName.toList.map fun (name, n) => (name, .ofNat n))),
     ("total", .ofNat r.total), ("multi_qubit", .ofNat r.multiQubit),
     ("measurements", .ofNat r.measurements), ("depth", .ofNat r.depth), ("width", .ofNat r.width)]
  read? d :=
    match d.fields? ["by_name", "total", "multi_qubit", "measurements", "depth", "width"] with
    | some [byName, total, multi, measured, depth, width] => do
      return {
        byName := ← byName.required countMap?
        total := ← total.required size?
        multiQubit := ← multi.required size?
        measurements := ← measured.required size?
        depth := ← depth.required size?
        width := ← width.required size? }
    | _ => none

def writeWire : Wire → Datum
  | .qubit q => .caseOf "Qubit" (.ofNat q)
  | .clbit c => .caseOf "Clbit" (.ofNat c)

def wire? (d : Datum) : Option Wire :=
  match d.case? with
  | some ("Qubit", some d) => (word? d).map .qubit
  | some ("Clbit", some d) => (word? d).map .clbit
  | _ => none

instance : Stored Wire := ⟨writeWire, wire?⟩

instance : Stored Node where
  write
    | .input w => .caseOf "In" (writeWire w)
    | .output w => .caseOf "Out" (writeWire w)
    | .op i => .caseOf "Op" (.ofNat i)
  read? d :=
    match d.case? with
    | some ("In", some d) => (wire? d).map .input
    | some ("Out", some d) => (wire? d).map .output
    | some ("Op", some d) => (size? d).map .op
    | _ => none

structure EdgeLabel where
  wire : Wire
  deriving DecidableEq, Repr

instance : Stored EdgeLabel where
  write e := .record [("wire", writeWire e.wire)]
  read? d :=
    match d.fields? ["wire"] with
    | some [wire] => (wire.required wire?).map (⟨·⟩)
    | _ => none

end Stored

def Circuit.summary {R : Type} (c : Circuit R) : List (String × Datum) :=
  let g := c.graph
  let nats (l : List Nat) : Datum := .list (l.map .ofNat)
  let texts (l : List String) : Datum := .list (l.map .text)
  [("name", .text c.name), ("qubits", texts (c.qubits.toList.map Qubit.text)),
   ("clbits", texts (c.clbits.toList.map Clbit.text)), ("num_qubits", .ofNat c.numQubits),
   ("num_clbits", .ofNat c.numClbits), ("num_ops", .ofNat c.numOps), ("width", .ofNat c.width),
   ("depth", .ofNat c.depth), ("layers", nats g.layers.toList),
   ("topo_sorted", .bool (g.topologicalOps.mergeSort == List.range c.numOps)),
   ("dag", nats [g.numQubits, g.numClbits, g.numOps]), ("dynamic", .bool c.isDynamic),
   ("measured", .bool c.hasMeasurements), ("finished", .bool c.isFinished),
   ("symbols", texts c.symbols)]

end Ancilla
