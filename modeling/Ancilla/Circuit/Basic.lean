import Ancilla.Circuit.Layers

/-!
Circuits: an append-only list of instructions with the dependency graph over it, the registered
wires, and the timeline of allocations. Once finished a circuit takes no further instruction.
-/

namespace Ancilla

/-- A change in the set of allocated qubits, with the number of instructions before it. -/
inductive AllocationEvent
  | allocate (q : QubitId) (position : Nat)
  | release (q : QubitId) (position : Nat)
  deriving DecidableEq, Repr

structure Circuit (R : Type) where
  name : String
  qubits : Array Qubit := #[]
  clbits : Array Clbit := #[]
  instructions : Array (Instruction R) := #[]
  graph : WireGraph := WireGraph.empty
  timeline : Array AllocationEvent := #[]
  isFinished : Bool := false
  deriving BEq, DecidableEq, Repr

namespace Circuit

variable {R : Type}

def new (name : String) : Circuit R := { name }

def numQubits (c : Circuit R) : Nat := c.qubits.size

def numClbits (c : Circuit R) : Nat := c.clbits.size

def numOps (c : Circuit R) : Nat := c.instructions.size

def width (c : Circuit R) : Nat := c.qubits.foldl (fun w q => max w (q.id + 1)) 0

def depth (c : Circuit R) : Nat := c.graph.depth

def registerQubit (c : Circuit R) (q : Qubit) : Circuit R :=
  let event := .allocate q.id c.instructions.size
  if c.qubits.any fun p => p.id = q.id then { c with timeline := c.timeline.push event }
  else
    { c with
      graph := c.graph.addQubit q.id
      qubits := c.qubits.push q
      timeline := c.timeline.push event }

def recordRelease (c : Circuit R) (qs : List QubitId) : Circuit R :=
  let position := c.instructions.size
  { c with timeline := c.timeline ++ (qs.map fun q => .release q position).toArray }

def addClbit (c : Circuit R) (source : Option QubitId) : ClbitId × Circuit R :=
  let id := c.clbits.size
  (id, { c with clbits := c.clbits.push ⟨id, source⟩, graph := c.graph.addClbit id })

def withSize (name : String) (numQubits numClbits : Nat) : Circuit R :=
  let c := (List.range numQubits).foldl (fun c q => c.registerQubit ⟨q, none, none⟩) (new name)
  (List.range numClbits).foldl (fun c _ => (c.addClbit none).2) c

def onGraph {α : Type} (c : Circuit R) (step : WireGraph → α × WireGraph) : α × Circuit R :=
  match c with
  | ⟨name, qubits, clbits, instructions, graph, timeline, isFinished⟩ =>
    let (a, graph) := step graph
    (a, ⟨name, qubits, clbits, instructions, graph, timeline, isFinished⟩)

def push (c : Circuit R) (i : Instruction R) : Reply CircuitError (Circuit R) Unit :=
  if c.isFinished then (.error (.finished c.name), c)
  else
    let position := c.instructions.size
    match c.onGraph fun g => g.apply position i with
    | (.ok (), c) => (.ok (), { c with instructions := c.instructions.push i })
    | (.error e, c) => (.error e, c)

def gate (c : Circuit R) (g : Gate R) (qubits : List QubitId) :
    Reply CircuitError (Circuit R) Unit :=
  c.push (.ofGate g qubits)

def standard (c : Circuit R) (g : Standard R) (qubits : List QubitId) :
    Reply CircuitError (Circuit R) Unit :=
  c.gate (.ofStandard g) qubits

def measure (c : Circuit R) (q : QubitId) : Reply CircuitError (Circuit R) ClbitId :=
  let (b, c) := c.addClbit (some q)
  -- the bit stays also when the measurement is refused
  match c.push (.measure q b) with
  | (.ok (), c) => (.ok b, c)
  | (.error e, c) => (.error e, c)

def barrier (c : Circuit R) (qubits : List QubitId) : Reply CircuitError (Circuit R) Unit :=
  c.push (.barrier qubits)

def finish (c : Circuit R) : Circuit R := { c with isFinished := true }

def dynamicFrom : List QubitId → List (Instruction R) → Bool
  | _, [] => false
  | measured, i :: rest =>
    if i.isConditional then true
    else if i.isMeasure then dynamicFrom (i.qubits ++ measured) rest
    else if i.isGate && i.qubits.any measured.contains then true
    else dynamicFrom measured rest

def isDynamic (c : Circuit R) : Bool := dynamicFrom [] c.instructions.toList

def hasMeasurements (c : Circuit R) : Bool := c.instructions.any Instruction.isMeasure

def symbols (c : Circuit R) : List String :=
  c.instructions.foldl
    (fun acc i => match i.gate? with
      | some g => g.kind.parameters.foldl (fun acc e => e.collectSymbols acc) acc
      | none => acc)
    []

def countLabelled (c : Circuit R) (label : String) : Nat :=
  c.instructions.toList.countP fun i => i.label? == some label

def bell : Except CircuitError (Circuit R) := do
  let c ← Reply.settle ((withSize "bell" 2 0).standard .h [0])
  let c ← Reply.settle (c.standard .cx [0, 1])
  let (first, c) := c.measure 0
  let _ ← first
  let (second, c) := c.measure 1
  let _ ← second
  return c

def ghz (n : Nat) : Except CircuitError (Circuit R) := do
  let c := withSize "ghz" n 0
  if n = 0 then return c
  let c ← Reply.settle (c.standard .h [0])
  (List.range (n - 1)).foldlM (fun c i => Reply.settle (c.standard .cx [i, i + 1])) c

end Circuit

end Ancilla
