import Ancilla.Ordered
import Ancilla.QubitSet
import Mathlib.Data.List.Sort

/-! Membership in the two kinds of finite sets, after several elements went in or out. -/

namespace Ancilla

namespace QubitSet

theorem contains_insertAll (s : QubitSet) (qs : List QubitId) (p : QubitId) :
    (s.insertAll qs).contains p = true ↔ s.contains p = true ∨ p ∈ qs := by
  unfold insertAll
  induction qs generalizing s with
  | nil => simp
  | cons q qs ih =>
    rw [List.foldl_cons, ih, contains_insert, List.mem_cons]
    simp only [Bool.or_eq_true, decide_eq_true_eq, or_assoc]

theorem contains_eraseAll (s : QubitSet) (qs : List QubitId) (p : QubitId) :
    (s.eraseAll qs).contains p = true ↔ s.contains p = true ∧ p ∉ qs := by
  unfold eraseAll
  induction qs generalizing s with
  | nil => simp
  | cons q qs ih =>
    rw [List.foldl_cons, ih, contains_erase, List.mem_cons]
    simp only [Bool.and_eq_true, decide_eq_true_eq, not_or, and_assoc]

@[simp]
theorem contains_default (p : QubitId) : ({} : QubitSet).contains p = false := contains_empty p

end QubitSet

namespace Ordered

theorem mem_insert {α : Type} [Ord α] [Std.LawfulEqOrd α] (a b : α) (l : List α) :
    b ∈ insert a l ↔ b = a ∨ b ∈ l := by
  induction l with
  | nil => simp [insert]
  | cons c l ih =>
    unfold insert
    split
    · simp
    · next h =>
      obtain rfl := Std.compare_eq_iff_eq.1 h
      simp
    · rw [List.mem_cons, ih, List.mem_cons]
      tauto

theorem mem_union (s l : List Nat) (b : Nat) : b ∈ union s l ↔ b ∈ s ∨ b ∈ l := by
  unfold union
  induction l generalizing s with
  | nil => simp
  | cons a l ih =>
    rw [List.foldl_cons, ih, mem_insert, List.mem_cons]
    tauto

def Ascending {α : Type} [Ord α] (l : List α) : Prop := l.Pairwise fun a b => compare a b = .lt

theorem ascending_insert {α : Type} [Ord α] [Std.TransOrd α] [Std.LawfulEqOrd α] (a : α)
    {l : List α} (h : Ascending l) : Ascending (insert a l) := by
  induction l with
  | nil => exact List.pairwise_singleton _ a
  | cons c l ih =>
    obtain ⟨hc, hl⟩ := List.pairwise_cons.1 h
    unfold insert
    split
    · next hac =>
      refine List.pairwise_cons.2 ⟨?_, h⟩
      intro b hb
      rcases List.mem_cons.1 hb with rfl | hb
      · exact hac
      · exact Std.TransCmp.lt_trans hac (hc b hb)
    · exact h
    · next hac =>
      refine List.pairwise_cons.2 ⟨?_, ih hl⟩
      intro b hb
      rcases (mem_insert a b l).1 hb with rfl | hb
      · exact Std.OrientedCmp.lt_of_gt hac
      · exact hc b hb

theorem Ascending.eq_of_mem_iff {α : Type} [Ord α] [Std.TransOrd α] {l l' : List α}
    (h : Ascending l) (h' : Ascending l') (hmem : ∀ a, a ∈ l ↔ a ∈ l') : l = l' := by
  have hirrefl : Std.Irrefl fun a b : α => compare a b = .lt :=
    ⟨fun a ha => by simp [Std.ReflCmp.compare_self] at ha⟩
  have hantisymm : Std.Antisymm fun a b : α => compare a b = .lt :=
    ⟨fun a b hab hba => absurd (Std.TransCmp.lt_trans hab hba) (hirrefl.irrefl a)⟩
  exact List.Pairwise.eq_of_mem_iff h h' hmem

theorem pairwise_insert (a : Nat) {l : List Nat} (h : l.Pairwise (· < ·)) :
    (insert a l).Pairwise (· < ·) := by
  have hascending : Ascending l := h.imp Nat.compare_eq_lt.2
  exact (ascending_insert a hascending).imp Nat.compare_eq_lt.1

theorem pairwise_union {s : List Nat} (h : s.Pairwise (· < ·)) (l : List Nat) :
    (union s l).Pairwise (· < ·) := by
  unfold union
  induction l generalizing s with
  | nil => exact h
  | cons a l ih => exact ih (pairwise_insert a h)

end Ordered

end Ancilla
