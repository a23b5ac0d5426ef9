import Ancilla.Simulation.Kernel
import Mathlib.Algebra.Algebra.Basic
import Mathlib.Algebra.Module.LinearMap.End
import Mathlib.Data.Nat.Bitwise
import Mathlib.Tactic.Abel
import Mathlib.Tactic.Ring

/-!
Linear operators on amplitudes. A basis state is a number whose bits are the readings of the
qubits, and an operator acts on functions from numbers to amplitudes, so that no number of qubits
has to be fixed. The operators are built from a matrix on one qubit, an exchange of two qubits, and
the projection on the basis states in which given qubits read 1.
-/

namespace Ancilla

/-! ## Bits of basis states -/

def toggle (x q : ℕ) : ℕ := x ^^^ bitWeight q

theorem testBit_bitWeight (q p : ℕ) : (bitWeight q).testBit p = decide (q = p) :=
  Nat.testBit_two_pow

@[simp]
theorem testBit_toggle_self (x q : ℕ) : (toggle x q).testBit q = !x.testBit q := by
  simp [toggle, Nat.testBit_xor, testBit_bitWeight]

theorem testBit_toggle_of_ne (x : ℕ) {q p : ℕ} (h : p ≠ q) :
    (toggle x q).testBit p = x.testBit p := by
  simp [toggle, Nat.testBit_xor, testBit_bitWeight, h.symm]

@[simp]
theorem toggle_toggle (x q : ℕ) : toggle (toggle x q) q = x := by
  rw [toggle, toggle, Nat.xor_assoc, Nat.xor_self, Nat.xor_zero]

theorem toggle_comm (x p q : ℕ) : toggle (toggle x p) q = toggle (toggle x q) p := by
  rw [toggle, toggle, toggle, toggle, Nat.xor_assoc, Nat.xor_assoc,
    Nat.xor_comm (bitWeight p)]

def AllRead (qs : List ℕ) (x : ℕ) : Prop := ∀ q ∈ qs, x.testBit q = true

instance (qs : List ℕ) (x : ℕ) : Decidable (AllRead qs x) :=
  inferInstanceAs (Decidable (∀ q ∈ qs, x.testBit q = true))

theorem allRead_append {ps qs : List ℕ} {x : ℕ} :
    AllRead (ps ++ qs) x ↔ AllRead ps x ∧ AllRead qs x := by
  simp [AllRead, or_imp, forall_and]

theorem allRead_toggle {qs : List ℕ} {x q : ℕ} (h : q ∉ qs) :
    AllRead qs (toggle x q) ↔ AllRead qs x := by
  have hne : ∀ p ∈ qs, (toggle x q).testBit p = x.testBit p := by
    intro p hp
    apply testBit_toggle_of_ne
    rintro rfl
    exact h hp
  constructor
  · intro hall p hp
    rw [← hne p hp]
    exact hall p hp
  · intro hall p hp
    rw [hne p hp]
    exact hall p hp

def exchangeBits (a b x : ℕ) : ℕ :=
  if x.testBit a = x.testBit b then x else toggle (toggle x a) b

theorem exchangeBits_exchangeBits (a b x : ℕ) : exchangeBits a b (exchangeBits a b x) = x := by
  by_cases h : x.testBit a = x.testBit b
  · simp [exchangeBits, h]
  · have hab : a ≠ b := by
      rintro rfl
      exact h rfl
    have hflip : (toggle (toggle x a) b).testBit a ≠ (toggle (toggle x a) b).testBit b := by
      rw [testBit_toggle_of_ne _ hab, testBit_toggle_self, testBit_toggle_self,
        testBit_toggle_of_ne _ hab.symm]
      simpa using h
    rw [exchangeBits, exchangeBits, if_neg h, if_neg hflip, toggle_comm _ a b, toggle_toggle,
      toggle_toggle]

theorem allRead_exchangeBits {qs : List ℕ} {a b : ℕ} (ha : a ∉ qs) (hb : b ∉ qs) (x : ℕ) :
    AllRead qs (exchangeBits a b x) ↔ AllRead qs x := by
  unfold exchangeBits
  split
  · exact Iff.rfl
  · rw [allRead_toggle hb, allRead_toggle ha]

/-! ## Operators -/

def Matrix2.mul {α : Type} [Add α] [Mul α] (w m : Matrix2 α) : Matrix2 α :=
  ⟨w.m00 * m.m00 + w.m01 * m.m10, w.m00 * m.m01 + w.m01 * m.m11,
    w.m10 * m.m00 + w.m11 * m.m10, w.m10 * m.m01 + w.m11 * m.m11⟩

abbrev Operator (α : Type) [CommRing α] := Module.End α (ℕ → α)

namespace Operator

variable {α : Type} [CommRing α]

def onQubit (m : Matrix2 α) (q : ℕ) : Operator α where
  toFun ψ x := if x.testBit q then m.m10 * ψ (toggle x q) + m.m11 * ψ x
    else m.m00 * ψ x + m.m01 * ψ (toggle x q)
  map_add' ψ φ := by
    funext x
    simp only [Pi.add_apply]
    split <;> ring
  map_smul' c ψ := by
    funext x
    simp only [Pi.smul_apply, smul_eq_mul, RingHom.id_apply]
    split <;> ring

theorem onQubit_apply (m : Matrix2 α) (q : ℕ) (ψ : ℕ → α) (x : ℕ) :
    onQubit m q ψ x = if x.testBit q then m.m10 * ψ (toggle x q) + m.m11 * ψ x
      else m.m00 * ψ x + m.m01 * ψ (toggle x q) := rfl

def exchange (a b : ℕ) : Operator α := LinearMap.funLeft α α (exchangeBits a b)

theorem exchange_apply (a b : ℕ) (ψ : ℕ → α) (x : ℕ) :
    exchange a b ψ x = ψ (exchangeBits a b x) := rfl

theorem onQubit_mul_onQubit (w m : Matrix2 α) (q : ℕ) :
    onQubit w q * onQubit m q = onQubit (w.mul m) q := by
  ext1 ψ
  funext x
  rw [Module.End.mul_apply, onQubit_apply, onQubit_apply, onQubit_apply, onQubit_apply,
    testBit_toggle_self, toggle_toggle, Matrix2.mul]
  cases x.testBit q <;> simp <;> ring

theorem onQubit_one (q : ℕ) : onQubit (⟨1, 0, 0, 1⟩ : Matrix2 α) q = 1 := by
  ext1 ψ
  funext x
  rw [onQubit_apply]
  split <;> simp

theorem exchange_mul_exchange (a b : ℕ) : (exchange a b : Operator α) * exchange a b = 1 := by
  ext1 ψ
  funext x
  rw [Module.End.mul_apply, exchange_apply, exchange_apply, exchangeBits_exchangeBits]
  rfl

def allRead (qs : List ℕ) : Operator α where
  toFun ψ x := if AllRead qs x then ψ x else 0
  map_add' ψ φ := by
    funext x
    simp only [Pi.add_apply]
    split <;> simp
  map_smul' c ψ := by
    funext x
    simp only [Pi.smul_apply, smul_eq_mul, RingHom.id_apply]
    split <;> simp

theorem allRead_apply (qs : List ℕ) (ψ : ℕ → α) (x : ℕ) :
    allRead qs ψ x = if AllRead qs x then ψ x else 0 := rfl

theorem allRead_nil : (allRead [] : Operator α) = 1 := by
  ext1 ψ
  funext x
  have hx : AllRead [] x := fun q hq => absurd hq List.not_mem_nil
  rw [allRead_apply, if_pos hx]
  rfl

theorem allRead_append (ps qs : List ℕ) :
    (allRead (ps ++ qs) : Operator α) = allRead ps * allRead qs := by
  ext1 ψ
  funext x
  rw [Module.End.mul_apply, allRead_apply, allRead_apply, allRead_apply]
  by_cases hp : AllRead ps x <;> simp [Ancilla.allRead_append, hp]

theorem allRead_mul_allRead (qs : List ℕ) : (allRead qs : Operator α) * allRead qs = allRead qs := by
  ext1 ψ
  funext x
  rw [Module.End.mul_apply, allRead_apply, allRead_apply]
  split <;> rfl

theorem allRead_commute (ps qs : List ℕ) : Commute (allRead ps : Operator α) (allRead qs) := by
  ext1 ψ
  funext x
  rw [Module.End.mul_apply, Module.End.mul_apply, allRead_apply, allRead_apply, allRead_apply,
    allRead_apply]
  by_cases hp : AllRead ps x <;> by_cases hq : AllRead qs x <;> simp [hp, hq]

theorem onQubit_commute (m : Matrix2 α) {q : ℕ} {qs : List ℕ} (h : q ∉ qs) :
    Commute (onQubit m q) (allRead qs) := by
  ext1 ψ
  funext x
  rw [Module.End.mul_apply, Module.End.mul_apply, onQubit_apply, allRead_apply, allRead_apply,
    allRead_apply, onQubit_apply]
  by_cases hx : AllRead qs x <;> simp [allRead_toggle h, hx]

theorem exchange_commute {a b : ℕ} {qs : List ℕ} (ha : a ∉ qs) (hb : b ∉ qs) :
    Commute (exchange a b : Operator α) (allRead qs) := by
  ext1 ψ
  funext x
  rw [Module.End.mul_apply, Module.End.mul_apply, exchange_apply, allRead_apply, allRead_apply,
    exchange_apply]
  simp only [allRead_exchangeBits ha hb]

def select (qs : List ℕ) (A B : Operator α) : Operator α :=
  A * allRead qs + B * (1 - allRead qs)

def controlled (qs : List ℕ) (A : Operator α) : Operator α := select qs A 1

theorem select_self (qs : List ℕ) (A : Operator α) : select qs A A = A := by
  rw [select, ← mul_add, add_sub_cancel, mul_one]

theorem select_mul_select {qs : List ℕ} {A B A' B' : Operator α}
    (hA : Commute A' (allRead qs)) (hB : Commute B' (allRead qs)) :
    select qs A B * select qs A' B' = select qs (A * A') (B * B') := by
  have hP : (allRead qs : Operator α) * allRead qs = allRead qs := allRead_mul_allRead qs
  have hA' : A' * allRead qs = allRead qs * A' := hA
  have hB' : B' * (1 - allRead qs) = (1 - allRead qs) * B' := by
    rw [mul_sub, sub_mul, mul_one, one_mul, hB.eq]
  have hQ : (1 - allRead qs : Operator α) * (1 - allRead qs) = 1 - allRead qs := by
    rw [mul_sub, sub_mul, sub_mul, hP]
    simp
  have hPQ : (allRead qs : Operator α) * (1 - allRead qs) = 0 := by
    rw [mul_sub, hP, mul_one, sub_self]
  have hQP : (1 - allRead qs : Operator α) * allRead qs = 0 := by
    rw [sub_mul, hP, one_mul, sub_self]
  calc select qs A B * select qs A' B'
      = (A * allRead qs + B * (1 - allRead qs)) *
          (allRead qs * A' + (1 - allRead qs) * B') := by rw [select, select, hA', hB']
    _ = A * (allRead qs * allRead qs) * A' + A * (allRead qs * (1 - allRead qs)) * B' +
          (B * ((1 - allRead qs) * allRead qs) * A' +
            B * ((1 - allRead qs) * (1 - allRead qs)) * B') := by
        rw [add_mul, mul_add, mul_add]
        simp only [mul_assoc]
    _ = A * (allRead qs * A') + B * ((1 - allRead qs) * B') := by
        rw [hP, hPQ, hQP, hQ]
        simp only [mul_zero, zero_mul, add_zero, zero_add, mul_assoc]
    _ = select qs (A * A') (B * B') := by rw [select, ← hA', ← hB', mul_assoc, mul_assoc]

theorem select_commute {ps qs : List ℕ} {A B : Operator α} (hA : Commute A (allRead ps))
    (hB : Commute B (allRead ps)) : Commute (select qs A B) (allRead ps) := by
  have hP := allRead_commute (α := α) qs ps
  exact (hA.mul_left hP).add_left (hB.mul_left ((Commute.one_left _).sub_left hP))

theorem controlled_commute {ps qs : List ℕ} {A : Operator α} (hA : Commute A (allRead ps)) :
    Commute (controlled qs A) (allRead ps) := select_commute hA (Commute.one_left _)

theorem controlled_nil (A : Operator α) : controlled [] A = A := by
  rw [controlled, select, allRead_nil, mul_one, sub_self, mul_zero, add_zero]

theorem controlled_append (ps qs : List ℕ) (A : Operator α) :
    controlled (ps ++ qs) A = controlled ps (controlled qs A) := by
  have hP := allRead_commute (α := α) ps qs
  calc controlled (ps ++ qs) A = A * (allRead ps * allRead qs) + 1 * (1 - allRead ps * allRead qs) := by
        rw [controlled, select, allRead_append]
    _ = A * (allRead qs * allRead ps) + 1 * (1 - allRead qs * allRead ps) := by rw [hP.eq]
    _ = (A * allRead qs + 1 * (1 - allRead qs)) * allRead ps + 1 * (1 - allRead ps) := by
        simp only [add_mul, sub_mul, one_mul, mul_assoc]
        abel
    _ = controlled ps (controlled qs A) := rfl

theorem controlled_mul_controlled {qs : List ℕ} (A : Operator α) {B : Operator α}
    (hB : Commute B (allRead qs)) :
    controlled qs A * controlled qs B = controlled qs (A * B) := by
  rw [controlled, controlled, select_mul_select hB (Commute.one_left _), mul_one, controlled]

theorem controlled_apply {qs : List ℕ} {A : Operator α} (hA : Commute A (allRead qs))
    (ψ : ℕ → α) (x : ℕ) : controlled qs A ψ x = if AllRead qs x then A ψ x else ψ x := by
  rw [controlled, select, hA.eq, one_mul]
  simp only [LinearMap.add_apply, LinearMap.sub_apply, Module.End.mul_apply, Module.End.one_apply,
    Pi.add_apply, Pi.sub_apply, allRead_apply]
  split <;> simp

end Operator

end Ancilla
