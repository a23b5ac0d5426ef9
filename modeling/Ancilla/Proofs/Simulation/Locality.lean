import Ancilla.Proofs.Simulation.Lowering

/-!
Where operators act. An operator leaves a qubit alone if it commutes with every matrix on that
qubit; then it commutes with every operator built on such qubits. A gate leaves all qubits alone
that are not among its operands, so gates without a common operand commute.
-/

namespace Ancilla

namespace Operator

section Rings

variable {α : Type} [CommRing α]

def Spares (A : Operator α) (q : ℕ) : Prop := ∀ m, Commute A (onQubit m q)

variable {A B : Operator α} {q : ℕ} {qs : List ℕ}

theorem spares_one (q : ℕ) : (1 : Operator α).Spares q := fun _ => Commute.one_left _

theorem spares_onQubit (m : Matrix2 α) {p : ℕ} (h : p ≠ q) : (onQubit m p).Spares q := by
  intro w
  ext1 ψ
  funext x
  rw [Module.End.mul_apply, Module.End.mul_apply]
  simp only [onQubit_apply, testBit_toggle_of_ne _ h, testBit_toggle_of_ne _ h.symm,
    toggle_comm x p q]
  split <;> split <;> ring

theorem exchangeBits_toggle {a b : ℕ} (ha : a ≠ q) (hb : b ≠ q) (x : ℕ) :
    exchangeBits a b (toggle x q) = toggle (exchangeBits a b x) q := by
  unfold exchangeBits
  rw [testBit_toggle_of_ne _ ha, testBit_toggle_of_ne _ hb]
  split
  · rfl
  · rw [toggle_comm x q a, toggle_comm _ q b]

theorem testBit_exchangeBits {a b : ℕ} (ha : a ≠ q) (hb : b ≠ q) (x : ℕ) :
    (exchangeBits a b x).testBit q = x.testBit q := by
  unfold exchangeBits
  split
  · rfl
  · rw [testBit_toggle_of_ne _ hb.symm, testBit_toggle_of_ne _ ha.symm]

theorem spares_exchange {a b : ℕ} (ha : a ≠ q) (hb : b ≠ q) :
    (exchange a b : Operator α).Spares q := by
  intro m
  ext1 ψ
  funext x
  rw [Module.End.mul_apply, Module.End.mul_apply]
  simp only [exchange_apply, onQubit_apply, testBit_exchangeBits ha hb, exchangeBits_toggle ha hb]

theorem spares_controlled (h : q ∉ qs) (hA : A.Spares q) : (controlled qs A).Spares q := by
  intro m
  have hread : Commute (allRead qs : Operator α) (onQubit m q) := (onQubit_commute m h).symm
  exact ((hA m).mul_left hread).add_left
    ((spares_one q m).mul_left ((Commute.one_left _).sub_left hread))

/-! ## Operators on spared qubits -/

theorem allRead_singleton (q : ℕ) : (allRead [q] : Operator α) = onQubit ⟨0, 0, 0, 1⟩ q := by
  ext1 ψ
  funext x
  rw [allRead_apply, onQubit_apply]
  simp [AllRead]

theorem commute_allRead (h : ∀ q ∈ qs, A.Spares q) : Commute A (allRead qs) := by
  induction qs with
  | nil =>
    rw [allRead_nil]
    exact Commute.one_right A
  | cons q qs ih =>
    rw [← List.singleton_append, allRead_append, allRead_singleton]
    exact (h q List.mem_cons_self _).mul_right (ih fun p hp => h p (List.mem_cons_of_mem _ hp))

theorem commute_controlled (h : ∀ q ∈ qs, A.Spares q) (hB : Commute A B) :
    Commute A (controlled qs B) := by
  have hread := commute_allRead h
  exact (hB.mul_right hread).add_right
    ((Commute.one_right A).mul_right ((Commute.one_right A).sub_right hread))

theorem commute_exchange {a b : ℕ} (hab : a ≠ b) (ha : A.Spares a) (hb : A.Spares b) :
    Commute A (exchange a b) := by
  have hflip : ∀ {p q : ℕ}, A.Spares p → A.Spares q →
      Commute A (controlled [p] (onQubit ⟨0, 1, 1, 0⟩ q)) := fun hp hq =>
    commute_controlled (fun r hr => List.mem_singleton.1 hr ▸ hp) (hq _)
  rw [← Kernel.flips_eq_exchange hab]
  exact (hflip ha hb).mul_right ((hflip hb ha).mul_right (hflip ha hb))

end Rings

end Operator

namespace GateKind

variable {n : ℕ} {k : GateKind ℝ} {qs : List QubitId}

theorem Fits.spares (h : k.Fits n qs) (hk : k.IsRooted) {q : QubitId} (hq : q ∉ qs)
    (angles : List ℝ) : (k.operator qs angles).Spares q := by
  have hne : ∀ t ∈ qs.drop k.numControls, t ≠ q := fun t ht heq =>
    hq (heq ▸ List.mem_of_mem_drop ht)
  apply Operator.spares_controlled (fun hmem => hq (List.mem_of_mem_take hmem))
  rcases h.targets with ⟨hswap, t, ht⟩ | ⟨hswap, a, b, hab, -⟩
  · rw [ht] at hne ⊢
    obtain ⟨m, hm⟩ := hk.exists_matrix (α := ℂ) hswap angles
    rw [Standard.operator_of_matrix hswap hm]
    exact Operator.spares_onQubit m (hne t (by simp))
  · rw [hab] at hne ⊢
    rw [hswap]
    exact Operator.spares_exchange (hne a (by simp)) (hne b (by simp))

theorem Fits.commute_of_spares (h : k.Fits n qs) (hk : k.IsRooted) {A : Operator ℂ}
    (hA : ∀ q ∈ qs, A.Spares q) (angles : List ℝ) : Commute A (k.operator qs angles) := by
  apply Operator.commute_controlled fun q hq => hA q (List.mem_of_mem_take hq)
  have hspared : ∀ t ∈ qs.drop k.numControls, A.Spares t := fun t ht =>
    hA t (List.mem_of_mem_drop ht)
  rcases h.targets with ⟨hswap, t, ht⟩ | ⟨hswap, a, b, hab, hne⟩
  · rw [ht] at hspared ⊢
    obtain ⟨m, hm⟩ := hk.exists_matrix (α := ℂ) hswap angles
    rw [Standard.operator_of_matrix hswap hm]
    exact hspared t (by simp) m
  · rw [hab] at hspared ⊢
    rw [hswap]
    exact Operator.commute_exchange hne (hspared a (by simp)) (hspared b (by simp))

end GateKind

end Ancilla
