import Ancilla.Ordered
import Ancilla.Reply
import Ancilla.Resource

/-!
The qubit allocator. Qubits come from a pool that grows only when no returned qubit is left, and
the lowest number is handed out first, so the qubits given out depend on the requests alone.
-/

namespace Ancilla

inductive QubitState
  | free
  | allocated
  | entangled
  | reclaimed
  deriving DecidableEq, Repr

def QubitState.isLive : QubitState → Bool
  | allocated | entangled => true
  | free | reclaimed => false

/-- The pool of qubits: the state of each, those that were returned in ascending order, how many
are in use, and the most that ever were at one time. -/
structure Allocator where
  capacity : Option Nat
  states : Array QubitState := #[]
  reclaimed : List QubitId := []
  live : Nat := 0
  peak : Nat := 0
  deriving DecidableEq, Repr

namespace Allocator

def new (capacity : Option Nat) : Allocator := { capacity }

def state (a : Allocator) (q : QubitId) : QubitState := a.states.getD q .free

def isLive (a : Allocator) (q : QubitId) : Bool := (a.state q).isLive

def poolSize (a : Allocator) : Nat := a.states.size

def numFree (a : Allocator) : Nat := a.reclaimed.length

def liveQubits (a : Allocator) : List QubitId := (List.range a.poolSize).filter a.isLive

def take (a : Allocator) : QubitId × Allocator :=
  match a.reclaimed with
  | q :: rest =>
    (q, { a with states := a.states.setIfInBounds q .allocated, reclaimed := rest })
  | [] => (a.states.size, { a with states := a.states.push .allocated })

def takeMany : Nat → Allocator → List QubitId × Allocator
  | 0, a => ([], a)
  | n + 1, a =>
    let (q, a) := a.take
    let (qs, a) := takeMany n a
    (q :: qs, a)

def capacityFault? (a : Allocator) (count : Nat) : Option ResourceError :=
  match a.capacity with
  | some capacity =>
    if capacity < a.live + count then some (.capacityExceeded count a.live capacity) else none
  | none => none

def allocate (a : Allocator) (count : Nat) : Reply ResourceError Allocator (List QubitId) :=
  match a.capacityFault? count with
  | some e => (.error e, a)
  | none =>
    let (qs, a) := takeMany count a
    (.ok qs, { a with live := a.live + count, peak := max a.peak (a.live + count) })

def releaseFault? (a : Allocator) : List QubitId → List QubitId → Option ResourceError
  | _, [] => none
  | seen, q :: qs =>
    if !a.isLive q then some (.notAllocated q)
    else if seen.contains q then some (.duplicateRelease q)
    else a.releaseFault? (q :: seen) qs

def reclaim (a : Allocator) (q : QubitId) : Allocator :=
  { a with
    states := a.states.setIfInBounds q .reclaimed
    reclaimed := Ordered.insert q a.reclaimed }

def deallocate (a : Allocator) (qs : List QubitId) : Reply ResourceError Allocator Unit :=
  match a.releaseFault? [] qs with
  | some e => (.error e, a)
  | none =>
    let a := qs.foldl reclaim a
    (.ok (), { a with live := a.live - qs.length })

def markEntangled (a : Allocator) (q : QubitId) : Allocator :=
  if a.state q = .allocated then { a with states := a.states.setIfInBounds q .entangled } else a

end Allocator

end Ancilla
