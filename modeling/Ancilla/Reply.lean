/-! Steps on a state that may fail. Every step leaves a state behind, also one that fails. -/

namespace Ancilla

abbrev Reply (ε σ α : Type) := Except ε α × σ

namespace Reply

variable {ε σ : Type}

def settle : Reply ε σ Unit → Except ε σ
  | (.ok (), s) => .ok s
  | (.error e, _) => .error e

end Reply

end Ancilla
