import Ancilla.Circuit.Graph

/-!
The layers of a circuit: an operation stands one layer above the highest of those it depends on.
A node other than an output is made after the nodes it depends on, so the nodes in the order of
their making, outputs aside, are a topological order, and one pass in that order gives all levels.

Layers are reported by index. Where several operations share an index, the one that comes last in
the walk order counts: the nodes of a depth-first walk, the last finished first, which is a
topological order too. Where no two operations share an index the walk has no effect.
-/

namespace Ancilla

namespace WireGraph

def level (levels : Array Nat) (v : Vertex) : Nat :=
  match v.node with
  | .op _ => 1 + (v.incoming.map fun e => levels.getD e.source 0).foldl max 0
  | _ => 0

def levels (g : WireGraph) : Array Nat :=
  g.vertices.foldl (fun acc v => acc.push (level acc v)) #[]

def topologicalOps (g : WireGraph) : List Nat :=
  g.vertices.toList.filterMap fun v => match v.node with
    | .op i => some i
    | _ => none

def successors (g : WireGraph) : Array (List Nat) :=
  g.vertices.zipIdx.foldr
    (fun (v, i) acc => v.incoming.foldl (fun acc e => acc.modify e.source (i :: ·)) acc)
    (Array.replicate g.vertices.size [])

inductive Visit
  | enter (v : Nat)
  | leave (v : Nat)
  deriving DecidableEq, Repr

/-- Carries out the steps of a walk, at most `fuel` of them. A vertex is left once all it leads to
are; it is then put in front of those left before. -/
def walk (next : Array (List Nat)) : Nat → List Visit → Array Bool → List Nat → List Nat
  | 0, _, _, order => order
  | _ + 1, [], _, order => order
  | fuel + 1, .leave v :: todo, seen, order => walk next fuel todo seen (v :: order)
  | fuel + 1, .enter v :: todo, seen, order =>
    if seen.getD v true then walk next fuel todo seen order
    else
      walk next fuel ((next.getD v []).map .enter ++ .leave v :: todo)
        (seen.setIfInBounds v true) order

def walkOrder (g : WireGraph) : List Nat :=
  let n := g.vertices.size
  -- a vertex is left once, and entered once of its own and once per edge that leads to it
  walk g.successors (2 * n + g.numEdges) ((List.range n).map .enter) (Array.replicate n false) []

def ranks (g : WireGraph) : Array Nat :=
  g.walkOrder.zipIdx.foldl (fun acc (v, rank) => acc.setIfInBounds v rank)
    (Array.replicate g.vertices.size 0)

structure Slot where
  rank : Nat := 0
  level : Nat := 0
  deriving DecidableEq, Repr

def Slot.fill (slots : Array Slot) (v : Vertex) (s : Slot) : Array Slot :=
  match v.node with
  | .op i => slots.modify i fun old => if old.rank ≤ s.rank then s else old
  | _ => slots

/-- The level of each operation, by index. There is a slot per operation; indices beyond the slots
are passed over, and of several operations under one index the last in walk order counts. -/
def layers (g : WireGraph) : Array Nat :=
  let filled := (g.vertices.zip (g.ranks.zip g.levels)).foldl
    (fun acc (v, rank, level) => Slot.fill acc v ⟨rank, level⟩) (Array.replicate g.numOps {})
  filled.map Slot.level

def depth (g : WireGraph) : Nat := g.layers.foldl max 0

end WireGraph

end Ancilla
