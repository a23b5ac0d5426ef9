import Ancilla.Proofs.Simulation.Exact
import Ancilla.Proofs.Simulation.Steps

/-!
What gates do to amplitudes over a ring. A gate is lowered to kernels under one mask of controls, and
these act as its root where all controls read 1: as the matrix of the root on the one target, or as
the exchange of the two targets, for which three controlled flips stand in. Further controls in front
control what the gate does without them.
-/

namespace Ancilla

class RingAmplitude (R : outParam Type) (α : Type) extends CommRing α, Amplitude R α

noncomputable abbrev RingAmplitude.complex : RingAmplitude ℝ ℂ :=
  { (inferInstance : CommRing ℂ), (inferInstance : Amplitude ℝ ℂ) with }

/-! ## Kernels in sequence -/

namespace Kernel

theorem bitMask_concat (qs : List ℕ) (q : ℕ) : bitMask qs ||| bitWeight q = bitMask (qs ++ [q]) := by
  rw [bitMask, bitMask, List.foldl_append]
  rfl

section Rings

variable {α : Type} [CommRing α]

def Implements (n : ℕ) (ks : List (Kernel α)) (A : Operator α) : Prop :=
  ∀ v : Array α, v.size = 2 ^ n →
    (applyAll ks v).size = 2 ^ n ∧ amplitudes (applyAll ks v) = A (amplitudes v)

theorem Implements.append {n : ℕ} {ks ls : List (Kernel α)} {A B : Operator α}
    (hks : Implements n ks A) (hls : Implements n ls B) : Implements n (ks ++ ls) (B * A) := by
  intro v hv
  obtain ⟨hsize, hamp⟩ := hks v hv
  obtain ⟨hsize', hamp'⟩ := hls _ hsize
  have hfold : applyAll (ks ++ ls) v = applyAll ls (applyAll ks v) := List.foldl_append
  rw [hfold]
  exact ⟨hsize', by rw [hamp', hamp, Module.End.mul_apply]⟩

theorem implements_one {n q : ℕ} (qs : List ℕ) (m : Matrix2 α) (hq : q < n) (h : q ∉ qs) :
    Implements n [⟨m, q, bitMask qs⟩] (Operator.controlled qs (Operator.onQubit m q)) := by
  intro v hv
  refine ⟨?_, amplitudes_apply m hv hq h⟩
  rw [← hv]
  exact size_apply ⟨m, q, bitMask qs⟩ hv hq

theorem flips_eq_exchange {a b : ℕ} (h : a ≠ b) :
    Operator.controlled [a] (Operator.onQubit ⟨0, 1, 1, 0⟩ b) *
      (Operator.controlled [b] (Operator.onQubit ⟨0, 1, 1, 0⟩ a) *
        Operator.controlled [a] (Operator.onQubit ⟨0, 1, 1, 0⟩ b)) =
      (Operator.exchange a b : Operator α) := by
  have hA : Commute (Operator.onQubit (⟨0, 1, 1, 0⟩ : Matrix2 α) b) (Operator.allRead [a]) :=
    Operator.onQubit_commute _ (by simpa using h.symm)
  have hB : Commute (Operator.onQubit (⟨0, 1, 1, 0⟩ : Matrix2 α) a) (Operator.allRead [b]) :=
    Operator.onQubit_commute _ (by simpa using h)
  have hflip : ∀ (q : ℕ) (ψ : ℕ → α) (x : ℕ),
      Operator.onQubit ⟨0, 1, 1, 0⟩ q ψ x = ψ (toggle x q) := by
    intro q ψ x
    rw [Operator.onQubit_apply]
    split <;> simp
  ext1 ψ
  funext x
  simp only [Module.End.mul_apply, Operator.controlled_apply hA, Operator.controlled_apply hB,
    hflip, AllRead, List.mem_singleton, forall_eq, Operator.exchange_apply, exchangeBits]
  cases ha : x.testBit a <;> cases hb : x.testBit b <;> simp [ha, hb, testBit_toggle_of_ne _ h]
  rw [toggle_comm]

/-- Kernels that on arrays of `2 ^ n` amplitudes act as an operator where all controls read 1, and
leave every other amplitude as it is. -/
def ActsUnder (n : ℕ) (controls : List QubitId) (ks : List (Kernel α)) (A : Operator α) : Prop :=
  ∀ v : Array α, v.size = 2 ^ n → (applyAll ks v).size = 2 ^ n ∧ ∀ x, amplitudes (applyAll ks v) x =
    if AllRead controls x then A (amplitudes v) x else amplitudes v x

/-- Kernels that on arrays of `2 ^ n` amplitudes do what others do where all controls read 1, and leave
every other amplitude as it is. -/
def Controls (n : ℕ) (controls : List QubitId) (ks' ks : List (Kernel α)) : Prop :=
  ∀ v : Array α, v.size = 2 ^ n → (applyAll ks' v).size = 2 ^ n ∧ ∀ x,
    amplitudes (applyAll ks' v) x =
      if AllRead controls x then amplitudes (applyAll ks v) x else amplitudes v x

theorem Implements.actsUnder {n : ℕ} {controls : List QubitId} {ks : List (Kernel α)}
    {A : Operator α} (h : Implements n ks (.controlled controls A))
    (hA : Commute A (.allRead controls)) : ActsUnder n controls ks A := fun v hv =>
  ⟨(h v hv).1, fun x => by rw [(h v hv).2, Operator.controlled_apply hA]⟩

theorem ActsUnder.controls {n : ℕ} {cs ds : List QubitId} {ks ks' : List (Kernel α)}
    {A : Operator α} (h : ActsUnder n ds ks A) (h' : ActsUnder n (cs ++ ds) ks' A) :
    Controls n cs ks' ks := by
  intro v hv
  refine ⟨(h' v hv).1, fun x => ?_⟩
  rw [(h' v hv).2, (h v hv).2]
  by_cases hread : AllRead cs x <;> simp [allRead_append, hread]

end Rings

variable {R α : Type} [RingAmplitude R α]

theorem implements_exchange {n a b : ℕ} {qs : List ℕ} (ha : a < n) (hb : b < n) (hab : a ≠ b)
    (hqa : a ∉ qs) (hqb : b ∉ qs) : Implements n (exchange (bitMask qs) a b : List (Kernel α))
      (Operator.controlled qs (Operator.exchange a b)) := by
  have hfirst := implements_one (α := α) (qs ++ [a]) flip hb (by simp [hqb, hab.symm])
  have hsecond := implements_one (α := α) (qs ++ [b]) flip ha (by simp [hqa, hab])
  have hall := (hfirst.append hsecond).append hfirst
  have hcommute : ∀ {p q : ℕ}, p ∉ qs → Commute
      (Operator.controlled [q] (Operator.onQubit (flip : Matrix2 α) p)) (Operator.allRead qs) :=
    fun hp => Operator.controlled_commute (Operator.onQubit_commute _ hp)
  rw [Operator.controlled_append, Operator.controlled_append,
    Operator.controlled_mul_controlled _ (hcommute hqb), Operator.controlled_mul_controlled _
      ((hcommute hqa).mul_left (hcommute hqb)), flip, flips_eq_exchange hab] at hall
  rw [exchange, bitMask_concat, bitMask_concat]
  exact hall

end Kernel

/-! ## Gates -/

variable {R α : Type} [Scalar R] [RingAmplitude R α]

def Standard.effect? (g : Standard R) (targets : List QubitId) (angles : List R) :
    Option (Operator α) :=
  match g, targets with
  | .swap, [a, b] => some (.exchange a b)
  | g, [q] => (Kernel.rootMatrix? g angles).map (Operator.onQubit · q)
  | _, _ => none

theorem Standard.effect?_of_matrix {g : Standard R} {angles : List R} {m : Matrix2 α}
    (hm : Kernel.rootMatrix? g angles = some m) (q : QubitId) :
    g.effect? [q] angles = some (.onQubit m q) := by
  unfold Standard.effect?
  cases g <;> simp [hm]

theorem Standard.commute_of_effect {g : Standard R} {targets ps : List QubitId} {angles : List R}
    {A : Operator α} (hA : g.effect? targets angles = some A) (hps : ∀ q ∈ targets, q ∉ ps) :
    Commute A (.allRead ps) := by
  unfold Standard.effect? at hA
  split at hA
  · obtain rfl := Option.some.inj hA
    exact Operator.exchange_commute (hps _ (by simp)) (hps _ (by simp))
  · obtain ⟨m, -, rfl⟩ := Option.map_eq_some_iff.1 hA
    exact Operator.onQubit_commute m (hps _ (by simp))
  · cases hA

namespace GateKind

variable {n : ℕ} {k : GateKind R} {qs : List QubitId}

theorem Fits.exists_effect (h : k.Fits n qs) (hk : k.IsRooted) (angles : List R) :
    ∃ (ks : List (Kernel α)) (A : Operator α), Kernel.lower k qs angles = .ok ks ∧
      k.root.effect? (qs.drop k.numControls) angles = some A ∧
      Kernel.Implements n ks (.controlled (qs.take k.numControls) A) := by
  have hbelow : ∀ t ∈ qs.drop k.numControls, t < n := fun t ht => h.below t (List.mem_of_mem_drop ht)
  have hfree := fun t => h.target_not_control (t := t)
  simp only [Kernel.lower_ok_iff]
  rcases h.targets with ⟨hswap, t, ht⟩ | ⟨hswap, a, b, hab, hne⟩
  · rw [ht] at hbelow hfree ⊢
    obtain ⟨m, hm⟩ := hk.exists_matrix (α := α) hswap angles
    exact ⟨_, _, .inr ⟨hswap, m, hm, rfl⟩, Standard.effect?_of_matrix hm t,
      Kernel.implements_one _ m (hbelow t (by simp)) (hfree t (by simp))⟩
  · rw [hab] at hbelow hfree ⊢
    rw [hswap]
    exact ⟨_, _, .inl ⟨rfl, rfl⟩, rfl, Kernel.implements_exchange (hbelow a (by simp))
      (hbelow b (by simp)) hne (hfree a (by simp)) (hfree b (by simp))⟩

omit [Scalar R] in
theorem Fits.withControls (h : k.Fits n qs) (hk : k.IsRooted) {cs : List QubitId}
    (hnodup : (cs ++ qs).Nodup) (hcs : ∀ c ∈ cs, c < n) :
    (k.withControls cs.length).Fits n (cs ++ qs) := by
  refine ⟨?_, hnodup, fun q hq => (List.mem_append.1 hq).elim (hcs q) (h.below q)⟩
  rw [hk.numQubits_withControls, List.length_append, h.length, Nat.add_comm]

end GateKind

namespace Gate

/-- Every gate that can be made is lowered, and its kernels, applied one after another, change an
amplitude only if all controls read 1 in its index; then they act as the root on the targets. With
further controls in front the kernels do what they do without them where these read 1. -/
theorem Made.lowering_acts {g : Gate R} (hg : g.Made) {n : ℕ} {qs : List QubitId}
    (h : g.kind.Fits n qs) (angles : List R) :
    ∃ (ks : List (Kernel α)) (A : Operator α), Kernel.lower g.kind qs angles = .ok ks ∧
      g.kind.root.effect? (qs.drop g.kind.numControls) angles = some A ∧
      Kernel.ActsUnder n (qs.take g.kind.numControls) ks A ∧
      ∀ cs : List QubitId, (cs ++ qs).Nodup → (∀ c ∈ cs, c < n) → ∃ ks' : List (Kernel α),
        Kernel.lower (g.kind.withControls cs.length) (cs ++ qs) angles = .ok ks' ∧
        Kernel.Controls n cs ks' ks := by
  have hk := hg.isRooted
  have hfree := fun t => h.target_not_control (t := t)
  obtain ⟨ks, A, hks, hA, hact⟩ := h.exists_effect (α := α) hk angles
  have hplain := hact.actsUnder (Standard.commute_of_effect hA hfree)
  refine ⟨ks, A, hks, hA, hplain, fun cs hnodup hcs => ?_⟩
  -- the root and its targets stay, so it has the same effect
  have hfits := h.withControls hk hnodup hcs
  have hfree' := fun t => hfits.target_not_control (t := t)
  obtain ⟨ks', A', hks', hA', hact'⟩ :=
    hfits.exists_effect (α := α) (hk.withControls cs.length) angles
  rw [hk.root_withControls, hk.numControls_withControls, Nat.add_comm,
    List.drop_length_add_append, hA] at hA'
  obtain rfl := Option.some.inj hA'
  rw [hk.numControls_withControls, Nat.add_comm, List.take_length_add_append,
    List.drop_length_add_append] at hfree'
  rw [hk.numControls_withControls, Nat.add_comm, List.take_length_add_append] at hact'
  exact ⟨ks', hks', hplain.controls (hact'.actsUnder (Standard.commute_of_effect hA hfree'))⟩

theorem lowering_acts_swap :
    ∃ ks ks' : List (Kernel ℂ),
      Kernel.lower ((GateKind.standard (.cswap : Standard ℝ)).withControls 1) [3, 1, 0, 2] [] =
        .ok ks ∧
      Kernel.ActsUnder 5 [3, 1] ks (.exchange 0 2) ∧
      Kernel.lower (((GateKind.standard (.cswap : Standard ℝ)).withControls 1).withControls 1)
        [4, 3, 1, 0, 2] [] = .ok ks' ∧
      Kernel.Controls 5 [4] ks' ks := by
  have hfits : (controlled (.cswap : Standard ℝ) 1).kind.Fits 5 [3, 1, 0, 2] :=
    ⟨rfl, by decide, by decide⟩
  let := RingAmplitude.complex
  obtain ⟨ks, A, hks, hA, hplain, hfurther⟩ :=
    Made.lowering_acts (α := ℂ) (.controlled (.cswap : Standard ℝ) 1) hfits []
  obtain rfl : Operator.exchange 0 2 = A := Option.some.inj hA
  obtain ⟨ks', hks', hcontrols⟩ := hfurther [4] (by decide) (by decide)
  exact ⟨ks, ks', hks, hplain, hks', hcontrols⟩

end Gate

end Ancilla
