import Std.Data.TreeMap
import Ancilla.Circuit.Basic
import Ancilla.Decimal.Fixed

/-! Gate and qubit counts of a circuit. -/

namespace Ancilla

structure ResourceCounts where
  byName : Std.TreeMap String Nat := {}
  total : Nat := 0
  multiQubit : Nat := 0
  measurements : Nat := 0
  depth : Nat := 0
  width : Nat := 0

def peakLive (timeline : List AllocationEvent) : Nat :=
  (timeline.foldl
    (fun (live, peak) event => match event with
      | .allocate .. => (live + 1, max peak (live + 1))
      | .release .. => (live - 1, peak))
    (0, 0)).2

namespace ResourceCounts

def add {R : Type} (r : ResourceCounts) (i : Instruction R) : ResourceCounts :=
  if i.isBarrier then r
  else
    { r with
      byName := r.byName.alter i.name fun n => some (n.getD 0 + 1)
      total := r.total + 1
      multiQubit := if !i.isMeasure && 2 ≤ i.qubits.length then r.multiQubit + 1 else r.multiQubit
      measurements := if i.isMeasure then r.measurements + 1 else r.measurements }

def ofCircuit {R : Type} (c : Circuit R) : ResourceCounts :=
  c.instructions.foldl add
    { depth := c.depth
      width := if c.timeline.isEmpty then c.numQubits else peakLive c.timeline.toList }

def count (r : ResourceCounts) (name : String) : Nat := r.byName.getD name 0

def text (r : ResourceCounts) : String :=
  let width := r.width
  let depth := r.depth
  let total := r.total
  let multi := r.multiQubit
  let measured := r.measurements
  let heading := s!"qubits: {width}\ndepth: {depth}\n" ++
    s!"operations: {total} ({multi} multi-qubit, {measured} measurements)\n"
  r.byName.foldl
    (fun acc name n => acc ++ "  " ++ Decimal.padRight 8 name ++ " " ++ toString n ++ "\n") heading

end ResourceCounts

end Ancilla
