import Ancilla.Proofs.Simulation.Lowering

/-!
Adjoints undo. In exact arithmetic the kernels of the adjoint of a gate take back what those of the
gate do, from any amplitudes. So the adjoints of gates and barriers, run from the last to the first,
take back a whole list of them, whatever the classical bits read.
-/

namespace Ancilla

variable {n : ℕ} {b : Bindings ℝ}

theorem Gate.Made.lower_adjoint {g : Gate ℝ} (hg : g.Made) {as : List ℝ}
    (has : Step.angles b g.kind.parameters = .ok as) {qs : List QubitId} (h : g.kind.Fits n qs) :
    ∃ as' ks ks', Step.angles b g.kind.adjoint.parameters = .ok as' ∧
      Kernel.lower g.kind qs as = .ok ks ∧ Kernel.lower g.kind.adjoint qs as' = .ok ks' ∧
      ∀ v : Array ℂ, v.size = 2 ^ n → (Kernel.applyAll ks v).size = 2 ^ n ∧
        Kernel.applyAll ks' (Kernel.applyAll ks v) = v := by
  have hk := hg.isRooted
  obtain ⟨as', has', hmul⟩ := h.operator_adjoint hk has
  obtain ⟨ks, hks, hact⟩ := h.lower hk as
  obtain ⟨ks', hks', hact'⟩ := ((GateKind.fits_adjoint_iff hk).2 h).lower hk.adjoint as'
  refine ⟨as', ks, ks', has', hks, hks', fun v hv => ?_⟩
  obtain ⟨hsize, hthere⟩ := hact v hv
  obtain ⟨hsize', hback⟩ := hact' _ hsize
  refine ⟨hsize, eq_of_amplitudes (hsize'.trans hv.symm) ?_⟩
  rw [hback, hthere, ← Module.End.mul_apply, hmul, Module.End.one_apply]

namespace Step

variable {first first' rest rest' : List (Step ℂ)}

/-- Steps that take back what others do to the amplitudes of `n` qubits, whatever the classical bits
read. -/
def TakesBack (n : ℕ) (back there : List (Step ℂ)) : Prop :=
  ∀ (σ : Type) [DrawSource σ ℝ] (t : Trajectory ℂ σ), t.state.amplitudes.size = 2 ^ n →
    (t.run there).state.amplitudes.size = 2 ^ n ∧ (t.run there).run back = t

theorem takesBack_nil : TakesBack n [] [] := fun _ _ _ ht => ⟨ht, rfl⟩

theorem TakesBack.append (hfirst : TakesBack n first' first) (hrest : TakesBack n rest' rest) :
    TakesBack n (rest' ++ first') (first ++ rest) := by
  intro σ _ t ht
  obtain ⟨hsize, hback⟩ := hfirst σ t ht
  obtain ⟨hsize', hback'⟩ := hrest σ _ hsize
  rw [Trajectory.run_append, Trajectory.run_append, hback']
  exact ⟨hsize', hback⟩

theorem takesBack_gate {ks ks' : List (Kernel ℂ)}
    (h : ∀ v : Array ℂ, v.size = 2 ^ n → (Kernel.applyAll ks v).size = 2 ^ n ∧
      Kernel.applyAll ks' (Kernel.applyAll ks v) = v) (condition : Option Condition) :
    TakesBack n [.gate ks' condition] [.gate ks condition] := by
  intro σ _ t ht
  obtain ⟨hsize, hback⟩ := h _ ht
  have hundone : (t.withAmplitudes (Kernel.applyAll ks t.state.amplitudes)).withAmplitudes
      (Kernel.applyAll ks' (Kernel.applyAll ks t.state.amplitudes)) = t := by
    rw [hback]
    rfl
  cases condition with
  | none => exact ⟨hsize, hundone⟩
  | some c =>
    have hrun : ∀ (t : Trajectory ℂ σ) (ks : List (Kernel ℂ)), t.run [.gate ks (some c)] =
        if c.holds t.read then t.withAmplitudes (Kernel.applyAll ks t.state.amplitudes) else t :=
      fun _ _ => rfl
    by_cases hc : c.holds t.read = true
    · have hread : (t.withAmplitudes (Kernel.applyAll ks t.state.amplitudes)).read = t.read := rfl
      rw [hrun t ks, if_pos hc, hrun, hread, if_pos hc]
      exact ⟨hsize, hundone⟩
    · rw [hrun t ks, if_neg hc, hrun, if_neg hc]
      exact ⟨ht, rfl⟩

end Step

namespace Instruction

def Undoable (n : ℕ) (b : Bindings ℝ) (i : Instruction ℝ) : Prop :=
  match i.operation with
  | .gate g => g.Made ∧ (∃ as, Step.angles b g.kind.parameters = .ok as) ∧ g.kind.Fits n i.qubits
  | .measure => False
  | .barrier => True

theorem Undoable.takesBack {i : Instruction ℝ} (h : i.Undoable n b) :
    ∃ j, i.adjoint? = some j ∧ ∀ collapse, ∃ there back,
      Step.ofInstruction b collapse i = .ok there ∧ Step.ofInstruction b collapse j = .ok back ∧
        Step.TakesBack n back there := by
  unfold Undoable at h
  unfold adjoint?
  cases hop : i.operation with
  | gate g =>
    rw [hop] at h
    obtain ⟨hmade, ⟨as, has⟩, hfits⟩ := h
    obtain ⟨as', ks, ks', has', hks, hks', hundo⟩ := hmade.lower_adjoint has hfits
    have hback : ({ i with operation := .gate g.adjoint } : Instruction ℝ).operation =
        .gate g.adjoint := rfl
    exact ⟨_, rfl, fun collapse => ⟨_, _, (Step.ofInstruction_gate_iff hop).2 ⟨as, ks, has, hks, rfl⟩,
      (Step.ofInstruction_gate_iff hback).2 ⟨as', ks', has', hks', rfl⟩,
      Step.takesBack_gate hundo g.condition⟩⟩
  | measure =>
    rw [hop] at h
    exact h.elim
  | barrier =>
    refine ⟨i, rfl, fun collapse => ⟨[], [], ?_, ?_, Step.takesBack_nil⟩⟩
    · simp only [Step.ofInstruction, hop]
    · simp only [Step.ofInstruction, hop]

theorem takesBack_reverse {l : List (Instruction ℝ)} (h : ∀ i ∈ l, i.Undoable n b) :
    ∃ m, l.mapM adjoint? = some m ∧ ∀ collapse, ∃ there back,
      Step.ofInstructions b collapse l = .ok there ∧
      Step.ofInstructions b collapse m.reverse = .ok back ∧ Step.TakesBack n back there := by
  induction l with
  | nil => exact ⟨[], rfl, fun collapse => ⟨[], [], rfl, rfl, Step.takesBack_nil⟩⟩
  | cons i l ih =>
    obtain ⟨hi, hl⟩ := List.forall_mem_cons.1 h
    obtain ⟨j, hj, hfirst⟩ := hi.takesBack
    obtain ⟨m, hm, hrest⟩ := ih hl
    refine ⟨j :: m, by simp [List.mapM_cons, hj, hm], fun collapse => ?_⟩
    obtain ⟨first, first', hfirst, hfirst', htakes⟩ := hfirst collapse
    obtain ⟨rest, rest', hrest, hrest', htakes'⟩ := hrest collapse
    have hlast : Step.ofInstructions b collapse [j] = .ok first' :=
      Step.ofInstructions_cons_iff.2 ⟨first', [], hfirst', rfl, List.append_nil _⟩
    refine ⟨first ++ rest, rest' ++ first',
      Step.ofInstructions_cons_iff.2 ⟨first, rest, hfirst, hrest, rfl⟩, ?_, htakes.append htakes'⟩
    rw [List.reverse_cons]
    exact Step.ofInstructions_append hrest' hlast

/-- Adjoints invert. Where the angles of a gate have values, those of its adjoint do; both are lowered,
and the kernels of the one after those of the other give back every vector of amplitudes. A list of
gates and barriers has adjoints, and a run of it followed by a run of these from the last to the first
ends as it began, whatever the classical bits read. -/
theorem adjoints_invert (n : ℕ) (b : Bindings ℝ) :
    (∀ g : Gate ℝ, g.Made → ∀ as, Step.angles b g.kind.parameters = .ok as →
      ∀ qs, g.kind.Fits n qs → ∃ as' ks ks', Step.angles b g.kind.adjoint.parameters = .ok as' ∧
        Kernel.lower g.kind qs as = .ok ks ∧ Kernel.lower g.kind.adjoint qs as' = .ok ks' ∧
        ∀ v : Array ℂ, v.size = 2 ^ n → Kernel.applyAll ks' (Kernel.applyAll ks v) = v) ∧
    ∀ l : List (Instruction ℝ), (∀ i ∈ l, i.Undoable n b) →
      ∃ m, l.mapM adjoint? = some m ∧ ∀ collapse, ∃ there back,
        Step.ofInstructions b collapse l = .ok there ∧
        Step.ofInstructions b collapse m.reverse = .ok back ∧
        ∀ (σ : Type) [DrawSource σ ℝ] (t : Trajectory ℂ σ), t.state.amplitudes.size = 2 ^ n →
          (t.run there).run back = t := by
  constructor
  · intro g hg as has qs h
    obtain ⟨as', ks, ks', has', hks, hks', hundo⟩ := hg.lower_adjoint has h
    exact ⟨as', ks, ks', has', hks, hks', fun v hv => (hundo v hv).2⟩
  · intro l hl
    obtain ⟨m, hm, htakes⟩ := takesBack_reverse hl
    refine ⟨m, hm, fun collapse => ?_⟩
    obtain ⟨there, back, hthere, hback, hundo⟩ := htakes collapse
    exact ⟨there, back, hthere, hback, fun σ _ t ht => (hundo σ t ht).2⟩

theorem adjoints_invert_symbols :
    ∃ (u : Gate ℝ) (l m : List (Instruction ℝ)) (there back : List (Step ℂ)),
      u = ((Gate.ofStandard (.u (.symbol "theta") .pi (.neg (.symbol "theta")))).withLabel
        "turn").withCondition ⟨[(0, true)]⟩ ∧
      l = [ofGate u [1], barrier [0, 1], ofGate (.controlled .sx 2) [2, 0, 1]] ∧
      (∃ as' ks ks', Step.angles [("theta", 1)] u.kind.adjoint.parameters = .ok as' ∧
        Kernel.lower u.kind [1] [1, Real.pi, -1] = .ok ks ∧
        Kernel.lower u.kind.adjoint [1] as' = .ok ks' ∧
        ∀ v : Array ℂ, v.size = 2 ^ 3 → Kernel.applyAll ks' (Kernel.applyAll ks v) = v) ∧
      l.mapM adjoint? = some m ∧ Step.ofInstructions [("theta", 1)] true l = .ok there ∧
      Step.ofInstructions [("theta", 1)] true m.reverse = .ok back ∧
      ∀ t : Trajectory ℂ (ℕ → ℝ), t.state.amplitudes.size = 2 ^ 3 → (t.run there).run back = t := by
  let u : Gate ℝ := ((Gate.ofStandard (.u (.symbol "theta") .pi (.neg (.symbol "theta")))).withLabel
    "turn").withCondition ⟨[(0, true)]⟩
  let l : List (Instruction ℝ) := [ofGate u [1], barrier [0, 1], ofGate (.controlled .sx 2) [2, 0, 1]]
  have hu : u.Made := ((Gate.Made.ofStandard _).withLabel "turn").withCondition _
  have htheta : (Expr.symbol "theta").evaluate [("theta", (1 : ℝ))] = .ok 1 := by
    simp [Expr.evaluate, Expr.symbols, Expr.collectSymbols, Ordered.insert, Bindings.binds,
      Expr.eval?, Scalar.isFinite]
  have hback : (Expr.neg (.symbol "theta")).evaluate [("theta", (1 : ℝ))] = .ok (-1) :=
    Exact.evaluate_neg_iff.2 (by rw [neg_neg, htheta])
  have hangles : Step.angles [("theta", (1 : ℝ))] u.kind.parameters = .ok [1, Real.pi, -1] :=
    Exact.angles_ok_iff.2 (.cons htheta (.cons rfl (.cons hback .nil)))
  have hfits : u.kind.Fits 3 [1] := ⟨rfl, by decide, by decide⟩
  have hl : ∀ i ∈ l, i.Undoable 3 [("theta", 1)] := by
    intro i hi
    rcases List.mem_cons.1 hi with rfl | hi
    · exact ⟨hu, ⟨_, hangles⟩, hfits⟩
    rcases List.mem_pair.1 hi with rfl | rfl
    · exact trivial
    · exact ⟨.controlled .sx 2, ⟨[], rfl⟩, rfl, by decide, by decide⟩
  obtain ⟨hkinds, hlists⟩ := adjoints_invert 3 [("theta", 1)]
  obtain ⟨m, hm, hruns⟩ := hlists l hl
  obtain ⟨there, back, hthere, hreversed, hundo⟩ := hruns true
  exact ⟨u, l, m, there, back, rfl, rfl, hkinds u hu _ hangles [1] hfits, hm, hthere, hreversed,
    hundo (ℕ → ℝ)⟩

end Instruction

end Ancilla
