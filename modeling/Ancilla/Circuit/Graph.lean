import Ancilla.Instruction
import Ancilla.Reply

/-!
The dependency graph of a circuit. Every wire runs from its input node to its output node
through the operations on it; an operation is spliced in just before the output. Edges are kept
at the node they lead to.
-/

namespace Ancilla

inductive CircuitError
  | qubitNotFound (q : QubitId) (gate : Option String)
  | clbitNotFound (c : ClbitId) (gate : Option String)
  | invalidGraph (reason : String)
  | qubitCountMismatch (gate : String) (expected got : Nat)
  | parameter (e : ParameterError)
  | duplicateQubit (q : QubitId) (gate : Option String)
  | finished (circuit : String)
  deriving DecidableEq, Repr

namespace CircuitError

def context : Option String → String
  | some gate => " (gate: " ++ gate ++ ")"
  | none => ""

def message : CircuitError → String
  | qubitNotFound q gate => "Qubit " ++ qubitName q ++ " not found in circuit" ++ context gate
  | clbitNotFound c gate =>
    "Classical bit " ++ clbitName c ++ " not found in circuit" ++ context gate
  | invalidGraph reason => "Invalid DAG structure: " ++ reason
  | qubitCountMismatch gate expected got =>
    s!"Gate '{gate}' requires {expected} qubits, got {got}"
  | parameter e => e.message
  | duplicateQubit q gate => "Duplicate qubit " ++ qubitName q ++ " in operation" ++ context gate
  | finished circuit => s!"Circuit '{circuit}' is finished and cannot be modified"

end CircuitError

inductive Node
  | input (w : Wire)
  | output (w : Wire)
  | op (index : Nat)
  deriving DecidableEq, Repr

/-- An edge along a wire, kept at its target. -/
structure Edge where
  source : Nat
  wire : Wire
  deriving DecidableEq, Repr

structure Vertex where
  node : Node
  incoming : List Edge
  deriving DecidableEq, Repr

def wireText : Wire → String
  | .qubit q => "Qubit(QubitId(" ++ toString q ++ "))"
  | .clbit c => "Clbit(ClbitId(" ++ toString c ++ "))"

structure Ends where
  output : Nat
  front : Nat
  deriving DecidableEq, Repr

/-- The dependency graph: vertices by number and the ends of each wire. -/
structure WireGraph where
  vertices : Array Vertex := #[]
  ends : Array (Wire × Ends) := #[]
  numQubits : Nat := 0
  numClbits : Nat := 0
  numOps : Nat := 0
  deriving DecidableEq, Repr

namespace WireGraph

def empty : WireGraph := {}

def isPlace (g : WireGraph) (w : Wire) (place : Nat) : Bool :=
  match g.ends[place]? with
  | some (v, _) => v = w
  | none => false

def place? (g : WireGraph) (w : Wire) : Option Nat :=
  -- wires are mostly added in the order of their numbers, so that place is tried first
  if g.isPlace w w.number then some w.number else g.ends.findIdx? fun e => e.1 = w

def find? (g : WireGraph) (w : Wire) : Option (Nat × Ends) := do
  let place ← g.place? w
  let (_, e) ← g.ends[place]?
  return (place, e)

def hasWire (g : WireGraph) (w : Wire) : Bool := (g.place? w).isSome

def addWire (g : WireGraph) (w : Wire) : WireGraph :=
  let n := g.vertices.size
  { g with
    vertices := (g.vertices.push ⟨.input w, []⟩).push ⟨.output w, [⟨n, w⟩]⟩
    ends := g.ends.push (w, ⟨n + 1, n⟩) }

def addQubit (g : WireGraph) (q : QubitId) : WireGraph :=
  if g.hasWire (.qubit q) then g
  else
    let g := g.addWire (.qubit q)
    { g with numQubits := g.numQubits + 1 }

def addClbit (g : WireGraph) (c : ClbitId) : WireGraph :=
  if g.hasWire (.clbit c) then g
  else
    let g := g.addWire (.clbit c)
    { g with numClbits := g.numClbits + 1 }

def gateName {R : Type} (i : Instruction R) : Option String := i.gate?.map fun g => g.kind.name

def qubitFault? (g : WireGraph) (gate : Option String) :
    List QubitId → List QubitId → Option CircuitError
  | _, [] => none
  | seen, q :: qs =>
    if !g.hasWire (.qubit q) then some (.qubitNotFound q gate)
    else if seen.contains q then some (.duplicateQubit q gate)
    else g.qubitFault? gate (q :: seen) qs

def countFault? {R : Type} (i : Instruction R) : Option CircuitError :=
  match i.operation with
  | .gate gate =>
    let expected := gate.kind.numQubits
    let got := i.qubits.length
    if expected = got then none else some (.qubitCountMismatch gate.kind.name expected got)
  | .measure =>
    let qubits := i.qubits.length
    let clbits := i.clbits.length
    if qubits = clbits then none
    else some (.invalidGraph s!"measure: {qubits} qubits but {clbits} clbits")
  | .barrier => none

def fault? {R : Type} (g : WireGraph) (i : Instruction R) : Option CircuitError :=
  countFault? i <|> g.qubitFault? (gateName i) [] i.qubits <|>
    (i.classicalWires.find? fun c => !g.hasWire (.clbit c)).map fun c =>
      .clbitNotFound c (gateName i)

def validate {R : Type} (g : WireGraph) (i : Instruction R) : Except CircuitError Unit :=
  match g.fault? i with
  | some e => .error e
  | none => .ok ()

def wires {R : Type} (i : Instruction R) : List Wire :=
  i.qubits.map .qubit ++ i.classicalWires.map .clbit

def setIncoming (f : List Edge → List Edge) (vs : Array Vertex) (i : Nat) : Array Vertex :=
  vs.modify i fun v => { v with incoming := f v.incoming }

def spliceAt (g : WireGraph) (op place : Nat) (w : Wire) (e : Ends) : WireGraph :=
  match g with
  | ⟨vertices, ends, numQubits, numClbits, numOps⟩ =>
    let last : Edge := ⟨e.front, w⟩
    let vertices := setIncoming (fun l => ⟨op, w⟩ :: l.erase last) vertices e.output
    let vertices := setIncoming (last :: ·) vertices op
    ⟨vertices, ends.setIfInBounds place (w, { e with front := op }), numQubits, numClbits, numOps⟩

def splice (g : WireGraph) (op : Nat) (w : Wire) : Reply CircuitError WireGraph Unit :=
  match g.find? w with
  | none => (.error (.invalidGraph "Missing wire"), g)
  | some (place, e) =>
    let present := match g.vertices[e.output]? with
      | some v => v.incoming.contains ⟨e.front, w⟩
      | none => false
    if present then (.ok (), g.spliceAt op place w e)
    else (.error (.invalidGraph ("Missing edge from predecessor to output for wire " ++
      wireText w)), g)

def spliceAll (op : Nat) : WireGraph → List Wire → Reply CircuitError WireGraph Unit
  | g, [] => (.ok (), g)
  | g, w :: ws =>
    match g.splice op w with
    | (.ok (), g) => spliceAll op g ws
    | (.error e, g) => (.error e, g)

def apply {R : Type} (g : WireGraph) (index : Nat) (i : Instruction R) :
    Reply CircuitError WireGraph Unit :=
  match g.fault? i with
  | some e => (.error e, g)
  | none =>
    let op := g.vertices.size
    match spliceAll op { g with vertices := g.vertices.push ⟨.op index, []⟩ } (wires i) with
    | (.ok (), g) => (.ok (), { g with numOps := g.numOps + 1 })
    | (.error e, g) => (.error e, g)

def numEdges (g : WireGraph) : Nat := g.vertices.foldl (fun n v => n + v.incoming.length) 0

def incoming (g : WireGraph) (v : Nat) : List Edge :=
  (g.vertices[v]?.map Vertex.incoming).getD []

/-- What is left of some vertices when those that no edge from another of them leads to are taken
away, a number of times. -/
def strip (g : WireGraph) : Nat → List Nat → List Nat
  | 0, vs => vs
  | n + 1, vs => g.strip n (vs.filter fun v => (g.incoming v).any fun e => vs.contains e.source)

def isCyclic (g : WireGraph) : Bool :=
  !(g.strip g.vertices.size (List.range g.vertices.size)).isEmpty

def traceBack (g : WireGraph) (w : Wire) : Nat → Nat → Except CircuitError Nat
  | 0, _ => .error (.invalidGraph ("wire " ++ wireText w ++ " loops"))
  | fuel + 1, v =>
    match (g.incoming v).filter fun e => e.wire = w with
    | [] => .ok v
    | [e] => g.traceBack w fuel e.source
    | _ => .error (.invalidGraph
      ("wire " ++ wireText w ++ " forks at node NodeIndex(" ++ toString v ++ ")"))

def verifyWire (g : WireGraph) (w : Wire) (e : Ends) : Except CircuitError Unit :=
  match g.traceBack w (g.vertices.size + 1) e.output with
  | .error err => .error err
  | .ok start =>
    if g.vertices[start]?.map Vertex.node = some (.input w) then .ok ()
    else .error (.invalidGraph ("wire " ++ wireText w ++ " does not start at its input node"))

def verify (g : WireGraph) : Except CircuitError Unit :=
  if g.isCyclic then .error (.invalidGraph "Graph contains a cycle")
  else g.ends.forM fun (w, e) => g.verifyWire w e

end WireGraph

end Ancilla
