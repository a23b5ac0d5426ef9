import Ancilla.Wire

/-! Refusals of requests for qubits. -/

namespace Ancilla

inductive ResourceError
  | capacityExceeded (requested live capacity : Nat)
  | notAllocated (q : QubitId)
  | duplicateRelease (q : QubitId)
  | pendingEnvironment (q : QubitId) (environment : String)
  | notOwned (q : QubitId)
  | allocationInInversion
  deriving DecidableEq, Repr

def ResourceError.message : ResourceError → String
  | capacityExceeded requested live capacity =>
    s!"Cannot allocate {requested} qubits: {live} live, capacity {capacity}"
  | notAllocated q => "Qubit " ++ qubitName q ++ " is not allocated"
  | duplicateRelease q => "Qubit " ++ qubitName q ++ " released twice in one request"
  | pendingEnvironment q environment =>
    "Qubit " ++ qubitName q ++ " is still referenced by open " ++ environment ++ " environment"
  | notOwned q => "Qubit " ++ qubitName q ++ " is not owned by the innermost scope"
  | allocationInInversion => "Qubits cannot be allocated inside an inversion environment"

end Ancilla
