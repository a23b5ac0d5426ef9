/-! Names of quantum and classical bits. Both are numbered from 0; a wire of a circuit is one of
either sort. -/

namespace Ancilla

abbrev QubitId := Nat

abbrev ClbitId := Nat

def qubitName (q : QubitId) : String := "q" ++ toString q

def clbitName (c : ClbitId) : String := "c" ++ toString c

def qubitList (qs : List QubitId) : String :=
  "[" ++ ", ".intercalate (qs.map fun q => "QubitId(" ++ toString q ++ ")") ++ "]"

structure Qubit where
  id : QubitId
  register : Option String := none
  index : Option Nat := none
  deriving DecidableEq, Repr

def Qubit.text (q : Qubit) : String :=
  match q.register, q.index with
  | some name, some i => name ++ "[" ++ toString i ++ "]"
  | _, _ => qubitName q.id

structure Clbit where
  id : ClbitId
  source : Option QubitId := none
  deriving DecidableEq, Repr

def Clbit.text (c : Clbit) : String :=
  match c.source with
  | some q => clbitName c.id ++ "<-" ++ qubitName q
  | none => clbitName c.id

inductive Wire
  | qubit (q : QubitId)
  | clbit (c : ClbitId)
  deriving DecidableEq, Repr

def Wire.number : Wire → Nat
  | qubit q => q
  | clbit c => c

end Ancilla
