/-! Finite sets kept as strictly ascending lists. -/

namespace Ancilla.Ordered

variable {α : Type} [Ord α]

def insert (a : α) : List α → List α
  | [] => [a]
  | b :: l =>
    match compare a b with
    | .lt => a :: b :: l
    | .eq => b :: l
    | .gt => b :: insert a l

def union (s : List α) (l : List α) : List α := l.foldl (fun acc a => insert a acc) s

def ofList (l : List α) : List α := union [] l

end Ancilla.Ordered
