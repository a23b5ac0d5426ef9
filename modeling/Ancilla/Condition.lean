import Ancilla.Wire

/-! Conditions on measured bits: a list of bits with the values they must read. -/

namespace Ancilla

structure Condition where
  terms : List (ClbitId × Bool)
  deriving DecidableEq, Repr

namespace Condition

def ofValue (clbits : List ClbitId) (value : Nat) : Condition :=
  ⟨clbits.zipIdx.map fun (c, i) => (c, value.testBit i)⟩

def both (a b : Condition) : Condition := ⟨a.terms ++ b.terms⟩

def clbits (c : Condition) : List ClbitId := c.terms.map Prod.fst

def holds (c : Condition) (read : ClbitId → Bool) : Bool :=
  c.terms.all fun (b, expected) => read b == expected

end Condition

end Ancilla
