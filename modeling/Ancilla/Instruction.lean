import Ancilla.Gate.Basic

/-! Instructions of a circuit: an operation with the qubits it acts on and the classical bits it
writes. -/

namespace Ancilla

inductive Operation (R : Type)
  | gate (g : Gate R)
  | measure
  | barrier
  deriving BEq, DecidableEq, Repr

structure Instruction (R : Type) where
  operation : Operation R
  qubits : List QubitId
  clbits : List ClbitId := []
  deriving BEq, DecidableEq, Repr

namespace Instruction

variable {R : Type}

def ofGate (g : Gate R) (qubits : List QubitId) : Instruction R := ⟨.gate g, qubits, []⟩

def measure (q : QubitId) (c : ClbitId) : Instruction R := ⟨.measure, [q], [c]⟩

def barrier (qubits : List QubitId) : Instruction R := ⟨.barrier, qubits, []⟩

def gate? (i : Instruction R) : Option (Gate R) :=
  match i.operation with
  | .gate g => some g
  | _ => none

def isGate (i : Instruction R) : Bool := i.gate?.isSome

def isMeasure (i : Instruction R) : Bool :=
  match i.operation with
  | .measure => true
  | _ => false

def isBarrier (i : Instruction R) : Bool :=
  match i.operation with
  | .barrier => true
  | _ => false

def condition? (i : Instruction R) : Option Condition := i.gate?.bind Gate.condition

def isConditional (i : Instruction R) : Bool := i.condition?.isSome

def label? (i : Instruction R) : Option String := i.gate?.bind Gate.label

def classicalWires (i : Instruction R) : List ClbitId :=
  Ordered.ofList (i.clbits ++ (i.condition?.map Condition.clbits).getD [])

def name (i : Instruction R) : String :=
  match i.operation with
  | .gate g => g.kind.name
  | .measure => "measure"
  | .barrier => "barrier"

end Instruction

end Ancilla
