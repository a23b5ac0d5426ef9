import Ancilla.Proofs.Gate.Controls
import Ancilla.Proofs.Session.Passing
import Mathlib.Data.List.Nodup
import Mathlib.Logic.Equiv.Basic
import Mathlib.Logic.Function.Basic

/-!
Circuits of flips and exchanges on basis states. A gate whose root is `x` or `swap` takes basis
states to basis states, undoes itself, changes no bit but its targets and reads no bit but its
operands. The conditions are read from a fixed readout.
-/

namespace Ancilla

variable {R : Type}

abbrev Basis := QubitId → Bool

def Basis.zero : Basis := fun _ => false

def Standard.move : Standard R → List QubitId → Basis → Basis
  | .x, [a], σ => Function.update σ a (!σ a)
  | .swap, [a, b], σ => fun q => σ (Equiv.swap a b q)
  | _, _, σ => σ

namespace Instruction

def Fires (read : ClbitId → Bool) (i : Instruction R) (σ : Basis) : Prop :=
  ∃ g, i.gate? = some g ∧ i.qubits.Nodup ∧ (∀ c ∈ g.condition, c.holds read = true) ∧
    ∀ q ∈ i.qubits.take g.kind.numControls, σ q = true

instance (read : ClbitId → Bool) (i : Instruction R) (σ : Basis) : Decidable (i.Fires read σ) :=
  match h : i.gate? with
  | some g => decidable_of_iff
      (i.qubits.Nodup ∧ (∀ c ∈ g.condition, c.holds read = true) ∧
        ∀ q ∈ i.qubits.take g.kind.numControls, σ q = true) (by simp [Fires, h])
  | none => .isFalse (by simp [Fires, h])

/-- The root of a gate on its targets, whatever the controls read. -/
def move (i : Instruction R) (σ : Basis) : Basis :=
  match i.gate? with
  | some g => g.kind.root.move (i.qubits.drop g.kind.numControls) σ
  | none => σ

def onBasis (read : ClbitId → Bool) (i : Instruction R) (σ : Basis) : Basis :=
  if i.Fires read σ then i.move σ else σ

def Permutes (i : Instruction R) : Prop :=
  ∀ g, i.gate? = some g → g.kind.root = .x ∨ g.kind.root = .swap

end Instruction

def runOnBasis (read : ClbitId → Bool) (l : List (Instruction R)) (σ : Basis) : Basis :=
  l.foldl (fun σ i => i.onBasis read σ) σ

/-! ## Roots -/

namespace Standard

theorem move_of_not_mem (g : Standard R) {ts : List QubitId} {q : QubitId} (h : q ∉ ts)
    (σ : Basis) : g.move ts σ q = σ q := by
  unfold move
  split
  · next a =>
    rw [List.mem_singleton] at h
    exact Function.update_of_ne h _ _
  · next a b =>
    simp only [List.mem_cons, List.not_mem_nil, or_false, not_or] at h
    rw [Equiv.swap_apply_of_ne_of_ne h.1 h.2]
  · rfl

theorem move_move (g : Standard R) (ts : List QubitId) (σ : Basis) :
    g.move ts (g.move ts σ) = σ := by
  fun_cases move g ts σ with
  | case1 a =>
    funext q
    by_cases hq : q = a <;> simp [move, hq]
  | case2 a b =>
    funext q
    simp [move]
  | case3 h1 h2 =>
    simp only [move]

theorem move_congr (g : Standard R) {ts : List QubitId} {σ τ : Basis}
    (h : ∀ p ∈ ts, σ p = τ p) {q : QubitId} (hq : σ q = τ q) : g.move ts σ q = g.move ts τ q := by
  fun_cases move g ts σ with
  | case1 a =>
    by_cases hqa : q = a <;> simp [move, hqa, hq, h a]
  | case2 a b =>
    simp only [move]
    rcases eq_or_ne q a with rfl | ha
    · rw [Equiv.swap_apply_left]
      exact h b (by simp)
    · rcases eq_or_ne q b with rfl | hb
      · rw [Equiv.swap_apply_right]
        exact h a (by simp)
      · rw [Equiv.swap_apply_of_ne_of_ne ha hb]
        exact hq
  | case3 h1 h2 =>
    simp only [move]
    exact hq

theorem action_of_move {g : Standard R} {ts : List QubitId} {σ : Basis} {q : QubitId}
    (h : g.move ts σ q ≠ σ q) : g.action = .permutation := by
  unfold move at h
  split at h
  · rfl
  · rfl
  · exact absurd rfl h

end Standard

/-! ## Instructions -/

namespace Instruction

variable (read : ClbitId → Bool)

theorem movedTargets_of_gate {i : Instruction R} {g : Gate R} (hg : i.gate? = some g)
    (ha : g.kind.action ≠ .diagonal) : i.movedTargets = i.qubits.drop g.kind.numControls := by
  simp only [movedTargets, hg, ha, if_false]

theorem move_of_not_moved {i : Instruction R} {q : QubitId} (h : q ∉ i.movedTargets)
    (σ : Basis) : i.move σ q = σ q := by
  cases hg : i.gate? with
  | some g =>
    simp only [move, hg]
    by_contra hne
    have haction := Standard.action_of_move hne
    rw [g.kind.action_root] at haction
    rw [movedTargets_of_gate hg (by simp [haction])] at h
    exact hne (Standard.move_of_not_mem _ h σ)
  | none => simp only [move, hg]

theorem onBasis_of_not_moved {i : Instruction R} {q : QubitId} (h : q ∉ i.movedTargets)
    (σ : Basis) : i.onBasis read σ q = σ q := by
  unfold onBasis
  split
  · exact move_of_not_moved h σ
  · rfl

theorem fires_move {i : Instruction R} {σ : Basis} (h : i.Fires read σ) :
    i.Fires read (i.move σ) := by
  obtain ⟨g, hg, hnodup, hcond, hcs⟩ := h
  refine ⟨g, hg, hnodup, hcond, ?_⟩
  intro q hq
  rw [← List.take_append_drop g.kind.numControls i.qubits, List.nodup_append'] at hnodup
  have hnot : q ∉ i.qubits.drop g.kind.numControls := fun hd => hnodup.2.2 hq hd
  unfold move
  rw [hg]
  exact (Standard.move_of_not_mem _ hnot σ).trans (hcs q hq)

theorem onBasis_onBasis (i : Instruction R) (σ : Basis) :
    i.onBasis read (i.onBasis read σ) = σ := by
  by_cases h : i.Fires read σ
  · have hmove : i.move (i.move σ) = σ := by
      unfold move
      split
      · exact Standard.move_move _ _ σ
      · rfl
    simp only [onBasis, h, fires_move read h, if_true, hmove]
  · simp only [onBasis, h, if_false]

theorem onBasis_congr {i : Instruction R} {σ τ : Basis} (h : ∀ p ∈ i.qubits, σ p = τ p)
    {q : QubitId} (hq : σ q = τ q) : i.onBasis read σ q = i.onBasis read τ q := by
  have hfires : i.Fires read σ ↔ i.Fires read τ := by
    unfold Fires
    refine exists_congr fun g => and_congr_right fun _ => and_congr_right fun _ =>
      and_congr_right fun _ => forall₂_congr fun p hp => ?_
    rw [h p (List.mem_of_mem_take hp)]
  have hmove : i.move σ q = i.move τ q := by
    cases hg : i.gate? with
    | some g =>
      simp only [move, hg]
      exact Standard.move_congr _ (fun p hp => h p (List.mem_of_mem_drop hp)) hq
    | none =>
      simp only [move, hg]
      exact hq
  unfold onBasis
  by_cases hf : i.Fires read τ
  · rw [if_pos (hfires.2 hf), if_pos hf, hmove]
  · rw [if_neg (fun hσ => hf (hfires.1 hσ)), if_neg hf, hq]

/-! ## What frames make of an instruction -/

omit read

theorem permutes_measure (q : QubitId) (c : ClbitId) : (measure q c : Instruction R).Permutes :=
  fun _ hg => absurd hg (Option.some_ne_none _).symm

theorem permutes_barrier (qs : List QubitId) : (barrier qs : Instruction R).Permutes :=
  fun _ hg => absurd hg (Option.some_ne_none _).symm

theorem Permutes.isRooted {i : Instruction R} (h : i.Permutes) {g : Gate R}
    (hg : i.gate? = some g) : g.kind.IsRooted := by
  unfold GateKind.IsRooted
  rcases h g hg with hr | hr <;> rw [hr] <;> rfl

theorem Permutes.action {i : Instruction R} (h : i.Permutes) {g : Gate R}
    (hg : i.gate? = some g) : g.kind.action = .permutation := by
  rw [← g.kind.action_root]
  rcases h g hg with hr | hr <;> rw [hr] <;> rfl

theorem Permutes.movedTargets {i : Instruction R} (h : i.Permutes) {g : Gate R}
    (hg : i.gate? = some g) : i.movedTargets = i.qubits.drop g.kind.numControls :=
  movedTargets_of_gate hg (by simp [h.action hg])

theorem Permutes.spreadTargets {i : Instruction R} (h : i.Permutes) : i.spreadTargets = [] := by
  unfold Instruction.spreadTargets
  split
  · next g hg => simp [h.action hg]
  · rfl

theorem Permutes.addControls {i j : Instruction R} {cs : List QubitId} (h : i.Permutes)
    (hj : i.addControls cs = .ok j) : j.Permutes ∧ j.movedTargets = i.movedTargets := by
  unfold Instruction.addControls at hj
  cases hop : i.operation with
  | gate g =>
    simp only [hop, Except.ok.injEq] at hj
    subst hj
    have hg : i.gate? = some g := gate?_eq_some.2 hop
    have hsplit := (h.isRooted hg).splitControls_withControls cs.length
    have hperm : Permutes (R := R) { i with
        operation := .gate { g with kind := g.kind.withControls cs.length }
        qubits := cs ++ i.qubits } := by
      intro g' hg'
      obtain rfl := Option.some.inj hg'
      unfold GateKind.root
      rw [hsplit]
      exact h g hg
    refine ⟨hperm, ?_⟩
    rw [hperm.movedTargets rfl, h.movedTargets hg]
    unfold GateKind.numControls
    rw [hsplit, Nat.add_comm, ← List.drop_drop, List.drop_left]
    rfl
  | measure => simp [hop] at hj
  | barrier =>
    simp only [hop, Except.ok.injEq] at hj
    subst hj
    exact ⟨h, rfl⟩

theorem Permutes.addCondition {i j : Instruction R} {c : Condition} (h : i.Permutes)
    (hj : i.addCondition c = .ok j) : j.Permutes ∧ j.movedTargets = i.movedTargets := by
  unfold Instruction.addCondition at hj
  cases hop : i.operation with
  | gate g =>
    simp only [hop, Except.ok.injEq] at hj
    subst hj
    have hg : i.gate? = some g := gate?_eq_some.2 hop
    refine ⟨?_, ?_⟩
    · intro g' hg'
      obtain rfl := Option.some.inj hg'
      exact h g hg
    · rw [h.movedTargets hg]
      have haction : (g.withCondition c).kind.action ≠ .diagonal := by
        rw [Gate.withCondition, h.action hg]
        decide
      exact movedTargets_of_gate (g := g.withCondition c) rfl haction
  | measure => simp [hop] at hj
  | barrier =>
    simp only [hop, Except.ok.injEq] at hj
    subst hj
    exact ⟨h, rfl⟩

theorem Permutes.adjoint? [Scalar R] {i j : Instruction R} (h : i.Permutes)
    (hj : i.adjoint? = some j) :
    j.Permutes ∧ j.movedTargets = i.movedTargets ∧
      ∀ read, j.onBasis read = i.onBasis read := by
  unfold Instruction.adjoint? at hj
  cases hop : i.operation with
  | gate g =>
    simp only [hop, Option.some.injEq] at hj
    have hg : i.gate? = some g := gate?_eq_some.2 hop
    -- flips and exchanges are their own adjoint roots, and the controls stay
    have hsplit : g.kind.adjoint.splitControls = (g.kind.root, g.kind.numControls) := by
      rw [(h.isRooted hg).splitControls_adjoint]
      rcases h g hg with hr | hr <;> rw [hr] <;> rfl
    have hroot : g.kind.adjoint.root = g.kind.root := congrArg Prod.fst hsplit
    have hnum : g.kind.adjoint.numControls = g.kind.numControls := congrArg Prod.snd hsplit
    have hgj : j.gate? = some g.adjoint := by
      subst hj
      rfl
    have hqs : j.qubits = i.qubits := by
      subst hj
      rfl
    have hperm : j.Permutes := by
      intro g' hg'
      rw [hgj] at hg'
      obtain rfl := Option.some.inj hg'
      exact hroot ▸ h g hg
    refine ⟨hperm, ?_, ?_⟩
    · rw [hperm.movedTargets hgj, h.movedTargets hg, hqs]
      exact congrArg (i.qubits.drop ·) hnum
    · intro read
      funext σ
      have hfires : j.Fires read σ ↔ i.Fires read σ := by
        simp only [Fires, hgj, hg, hqs, Option.some.injEq, exists_eq_left', Gate.adjoint, hnum]
      have hmove : j.move σ = i.move σ := by
        simp only [move, hgj, hg, hqs, Gate.adjoint, hroot, hnum]
      simp only [onBasis, hfires, hmove]
  | measure => simp [hop] at hj
  | barrier =>
    simp only [hop, Option.some.injEq] at hj
    subst hj
    exact ⟨h, rfl, fun _ => rfl⟩

end Instruction

/-! ## Lists of instructions -/

section Run

variable (read : ClbitId → Bool)

@[simp]
theorem runOnBasis_cons (i : Instruction R) (l : List (Instruction R)) (σ : Basis) :
    runOnBasis read (i :: l) σ = runOnBasis read l (i.onBasis read σ) := rfl

theorem runOnBasis_append (l l' : List (Instruction R)) (σ : Basis) :
    runOnBasis read (l ++ l') σ = runOnBasis read l' (runOnBasis read l σ) := List.foldl_append

theorem runOnBasis_reverse (l : List (Instruction R)) (σ : Basis) :
    runOnBasis read l.reverse (runOnBasis read l σ) = σ := by
  induction l generalizing σ with
  | nil => rfl
  | cons i l ih =>
    rw [List.reverse_cons, runOnBasis_append, runOnBasis_cons read i l, ih]
    exact i.onBasis_onBasis read σ

theorem runOnBasis_of_not_moved {l : List (Instruction R)} {q : QubitId}
    (h : ∀ i ∈ l, q ∉ i.movedTargets) (σ : Basis) : runOnBasis read l σ q = σ q := by
  induction l generalizing σ with
  | nil => rfl
  | cons i l ih =>
    rw [runOnBasis_cons, ih fun j hj => h j (List.mem_cons_of_mem _ hj)]
    exact Instruction.onBasis_of_not_moved read (h i List.mem_cons_self) σ

end Run

end Ancilla
