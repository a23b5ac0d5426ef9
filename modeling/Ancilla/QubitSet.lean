import Ancilla.Wire

/-!
Sets of qubits that are only ever asked whether a qubit is in them. A set is kept as the number
whose bit `q` says so of qubit `q`. Main statements: what is in a set after a qubit was added or
taken out.
-/

namespace Ancilla

structure QubitSet where
  bits : Nat := 0
  deriving DecidableEq, Repr

namespace QubitSet

def empty : QubitSet := {}

def contains (s : QubitSet) (q : QubitId) : Bool := s.bits.testBit q

def insert (s : QubitSet) (q : QubitId) : QubitSet := ⟨s.bits ||| 1 <<< q⟩

def erase (s : QubitSet) (q : QubitId) : QubitSet :=
  if s.contains q then ⟨s.bits ^^^ 1 <<< q⟩ else s

def insertAll (s : QubitSet) (qs : List QubitId) : QubitSet := qs.foldl insert s

def eraseAll (s : QubitSet) (qs : List QubitId) : QubitSet := qs.foldl erase s

theorem testBit_one_shiftLeft (q p : Nat) : (1 <<< q).testBit p = decide (p = q) := by
  have unit (n : Nat) : Nat.testBit 1 n = decide (n = 0) := by
    cases n <;> simp [Nat.testBit_succ]
  have apart : (q ≤ p ∧ p - q = 0) ↔ p = q := by omega
  rw [Nat.testBit_shiftLeft, unit, ← Bool.decide_and, decide_eq_decide]
  exact apart

@[simp]
theorem contains_empty (p : QubitId) : empty.contains p = false := by simp [empty, contains]

@[simp]
theorem contains_insert (s : QubitSet) (q p : QubitId) :
    (s.insert q).contains p = (s.contains p || decide (p = q)) := by
  rw [insert, contains, Nat.testBit_or, testBit_one_shiftLeft, contains]

@[simp]
theorem contains_erase (s : QubitSet) (q p : QubitId) :
    (s.erase q).contains p = (s.contains p && decide (p ≠ q)) := by
  unfold erase
  split
  · next h =>
    rw [contains, Nat.testBit_xor, testBit_one_shiftLeft, contains]
    by_cases hp : p = q
    · subst hp
      rw [contains] at h
      simp [h]
    · simp [hp]
  · next h =>
    by_cases hp : p = q
    · subst hp
      simp_all
    · simp [hp]

end QubitSet

end Ancilla
