import Ancilla.Proofs.Simulation.Gates

/-!
Gates as operators in exact arithmetic, and the kernels a gate is lowered to: applied one after
another to an array of amplitudes they act as the operator of the gate. Further controls control
the operator, and the adjoint gate has the inverse operator.
-/

namespace Ancilla

/-! ## The operator of a gate -/

noncomputable def Standard.operator (g : Standard ℝ) (targets : List QubitId) (angles : List ℝ) :
    Operator ℂ :=
  match g with
  | .swap => .exchange (targets.getD 0 0) (targets.getD 1 0)
  | g =>
    match Kernel.rootMatrix? g angles with
    | some m => .onQubit m (targets.getD 0 0)
    | none => 1

theorem Standard.operator_of_matrix {g : Standard ℝ} (hg : g ≠ .swap) {angles : List ℝ}
    {m : Matrix2 ℂ} (hm : Kernel.rootMatrix? g angles = some m) (t : QubitId) :
    g.operator [t] angles = .onQubit m t := by
  unfold Standard.operator
  split
  · exact absurd rfl hg
  · rw [hm]
    rfl

theorem Standard.operator_of_effect {g : Standard ℝ} {targets : List QubitId} {angles : List ℝ}
    {A : Operator ℂ} (hA : letI := RingAmplitude.complex; g.effect? targets angles = some A) :
    g.operator targets angles = A := by
  unfold Standard.effect? at hA
  split at hA
  · exact Option.some.inj hA
  · obtain ⟨m, hm, rfl⟩ := Option.map_eq_some_iff.1 hA
    refine Standard.operator_of_matrix (fun hswap => ?_) hm _
    rw [hswap] at hm
    cases hm
  · cases hA

namespace GateKind

/-- The operator of a gate on its operands: that of its root on the targets, where all controls
read 1. -/
noncomputable def operator (k : GateKind ℝ) (qs : List QubitId) (angles : List ℝ) : Operator ℂ :=
  .controlled (qs.take k.numControls) (k.root.operator (qs.drop k.numControls) angles)

variable {n : ℕ} {k : GateKind ℝ} {qs : List QubitId}

theorem Fits.lower (h : k.Fits n qs) (hk : k.IsRooted) (angles : List ℝ) :
    ∃ ks, Kernel.lower k qs angles = .ok ks ∧ Kernel.Implements n ks (k.operator qs angles) := by
  let := RingAmplitude.complex
  obtain ⟨ks, A, hks, hA, hact⟩ := h.exists_effect (α := ℂ) hk angles
  rw [operator, Standard.operator_of_effect hA]
  exact ⟨ks, hks, hact⟩

theorem Fits.operator_commute (h : k.Fits n qs) (hk : k.IsRooted) {ps : List QubitId}
    (hps : ∀ t ∈ qs.drop k.numControls, t ∉ ps) (angles : List ℝ) :
    Commute (k.operator qs angles) (Operator.allRead ps) := by
  let := RingAmplitude.complex
  obtain ⟨-, A, -, hA, -⟩ := h.exists_effect (α := ℂ) hk angles
  rw [operator, Standard.operator_of_effect hA]
  exact Operator.controlled_commute (Standard.commute_of_effect hA hps)

theorem IsRooted.operator_withControls (hk : k.IsRooted) (cs qs : List QubitId) (angles : List ℝ) :
    (k.withControls cs.length).operator (cs ++ qs) angles =
      Operator.controlled cs (k.operator qs angles) := by
  rw [operator, operator, hk.root_withControls, hk.take_withControls, hk.drop_withControls,
    Operator.controlled_append]

theorem Fits.operator_adjoint (h : k.Fits n qs) (hk : k.IsRooted) {b : Bindings ℝ} {as : List ℝ}
    (has : Step.angles b k.parameters = .ok as) :
    ∃ as', Step.angles b k.adjoint.parameters = .ok as' ∧
      k.adjoint.operator qs as' * k.operator qs as = 1 := by
  have hfree := fun t => h.target_not_control (t := t)
  rw [← parameters_root] at has
  simp only [← parameters_root, operator, hk.root_adjoint, hk.numControls_adjoint]
  rcases h.targets with ⟨hswap, t, ht⟩ | ⟨hswap, x, y, hxy, -⟩
  · rw [ht] at hfree ⊢
    obtain ⟨as', has', w, m, hw, hm, hinv⟩ := Exact.undoes_adjoint hk hswap has
    refine ⟨as', has', ?_⟩
    have hswap' : k.root.adjoint ≠ .swap := fun heq => hswap (Standard.adjoint_eq_swap_iff.1 heq)
    rw [Standard.operator_of_matrix hswap hm, Standard.operator_of_matrix hswap' hw,
      Operator.controlled_mul_controlled _ (Operator.onQubit_commute m (hfree t (by simp))),
      Operator.onQubit_mul_onQubit, hinv, Operator.onQubit_one]
    exact Operator.select_self _ _
  · rw [hxy] at hfree ⊢
    rw [hswap] at has ⊢
    refine ⟨as, has, ?_⟩
    have hcommute : Commute (Operator.exchange x y : Operator ℂ)
        (Operator.allRead (qs.take k.numControls)) :=
      Operator.exchange_commute (hfree x (by simp)) (hfree y (by simp))
    have hexchange : ∀ angles, (Standard.swap : Standard ℝ).operator [x, y] angles =
        Operator.exchange x y := fun _ => rfl
    have hadjoint : (Standard.swap : Standard ℝ).adjoint = .swap := rfl
    rw [hadjoint, hexchange, Operator.controlled_mul_controlled _ hcommute,
      Operator.exchange_mul_exchange]
    exact Operator.select_self _ _

end GateKind

namespace Gate

noncomputable def angles (b : Bindings ℝ) (g : Gate ℝ) : List ℝ :=
  (Step.angles b g.kind.parameters).toOption.getD []

theorem angles_eq {b : Bindings ℝ} {g : Gate ℝ} {as : List ℝ}
    (h : Step.angles b g.kind.parameters = .ok as) : g.angles b = as := by
  rw [angles, h]
  rfl

end Gate

end Ancilla
