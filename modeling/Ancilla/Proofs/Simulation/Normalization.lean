import Mathlib.Analysis.SpecialFunctions.Trigonometric.Basic
import Ancilla.Proofs.Simulation.Isometry
import Ancilla.Proofs.Simulation.Projection
import Ancilla.Simulation.Simulator

/-!
Normalized runs, in exact arithmetic. The squared length of the state is 1 at the start, kernels
keep it, and a measurement makes it 1 again: a draw from `[0, 1)` chooses an outcome of positive
weight, and what remains is scaled by the square root of that weight. So every run of the steps of
a circuit stays normalized, whatever is drawn.
-/

namespace Ancilla

open Finset Exact

/-! ## Running totals -/

theorem foldl_zipIdx_eq_sum (p : ℕ → Bool) (l : List ℂ) :
    l.zipIdx.foldl (fun acc a => if p a.2 then acc + Complex.normSq a.1 else acc) 0 =
      ∑ x ∈ range l.length, if p x then Complex.normSq (l.getD x 0) else 0 := by
  induction l using List.reverseRecOn with
  | nil => rfl
  | append_singleton l a ih =>
    have hold : ∀ x ∈ range l.length, (l ++ [a]).getD x 0 = l.getD x 0 := fun x hx =>
      List.getD_append _ _ _ _ (mem_range.1 hx)
    have hsum : (∑ x ∈ range l.length, if p x then Complex.normSq ((l ++ [a]).getD x 0) else 0) =
        ∑ x ∈ range l.length, if p x then Complex.normSq (l.getD x 0) else 0 :=
      sum_congr rfl fun x hx => by rw [hold x hx]
    have hlast : (l ++ [a]).getD l.length 0 = a := by simp
    have hentry : [a].zipIdx (0 + l.length) = [(a, l.length)] := by simp
    rw [List.zipIdx_append, List.foldl_append, ih, hentry, List.length_append,
      List.length_singleton, sum_range_succ, hsum, hlast, List.foldl_cons, List.foldl_nil]
    cases p l.length <;> simp

theorem getD_toList (v : Array ℂ) (x : ℕ) : v.toList.getD x 0 = amplitudes v x := by
  rw [amplitudes, Array.getD_eq_getD_getElem?, List.getD_eq_getElem?_getD,
    Array.getElem?_toList]

namespace StateVector

/-! ## Weights -/

noncomputable def weight (s : StateVector ℂ) (q : QubitId) (outcome : Bool) : ℝ :=
  ∑ x ∈ range s.amplitudes.size with x.testBit q = outcome,
    Complex.normSq (Ancilla.amplitudes s.amplitudes x)

variable (s : StateVector ℂ) (q : QubitId)

theorem probabilityOne_eq : s.probabilityOne q = s.weight q true := by
  have hfold := foldl_zipIdx_eq_sum (fun x => x.testBit q) s.amplitudes.toList
  simp only [getD_toList, Array.length_toList] at hfold
  rw [weight, sum_filter, ← hfold, probabilityOne, ← Array.foldl_toList, Array.toList_zipIdx,
    scalar_zero]
  rfl

theorem normSq_eq :
    s.normSq = squaredLength s.amplitudes.size (Ancilla.amplitudes s.amplitudes) := by
  have hfold := foldl_zipIdx_eq_sum (fun _ => true) s.amplitudes.toList
  simp only [getD_toList, Array.length_toList, if_true] at hfold
  have hentries : s.amplitudes.toList.zipIdx.foldl (fun acc a => acc + Complex.normSq a.1) 0 =
      s.amplitudes.toList.foldl (fun acc a => acc + Complex.normSq a) 0 := by
    conv_rhs => rw [← List.zipIdx_map_fst 0 s.amplitudes.toList, List.foldl_map]
  rw [squaredLength, ← hfold, hentries, normSq, Amplitude.normSqSum, ← Array.foldl_toList,
    scalar_zero]
  rfl

theorem weight_add_weight : s.weight q true + s.weight q false = s.normSq := by
  have hsplit := sum_filter_add_sum_filter_not (range s.amplitudes.size)
    (fun x => x.testBit q = true) fun x => Complex.normSq (Ancilla.amplitudes s.amplitudes x)
  simp only [Bool.not_eq_true] at hsplit
  rw [normSq_eq, squaredLength, ← hsplit]
  rfl

theorem normSq_project (outcome : Bool) (factor : ℝ) :
    (s.project q outcome factor).normSq = s.weight q outcome * factor ^ 2 := by
  have hsize : (s.project q outcome factor).amplitudes.size = s.amplitudes.size :=
    Array.size_mapIdx
  have hentry : ∀ x, Complex.normSq (Ancilla.amplitudes (s.project q outcome factor).amplitudes x) =
      if x.testBit q = outcome
      then Complex.normSq (Ancilla.amplitudes s.amplitudes x) * factor ^ 2 else 0 := by
    intro x
    simp only [project, Ancilla.amplitudes, Array.getD_eq_getD_getElem?, Array.getElem?_mapIdx,
      beq_iff_eq, amplitude_scale]
    cases s.amplitudes[x]? with
    | none => simp
    | some a =>
      simp only [Option.map_some, Option.getD_some]
      split
      · rw [Complex.normSq_mul, Complex.normSq_ofReal, sq]
      · exact Complex.normSq_zero
  rw [normSq_eq, squaredLength, hsize, sum_congr rfl fun x _ => hentry x, ← sum_filter, weight,
    sum_mul]

theorem normSq_zero (n : ℕ) : (zero n : StateVector ℂ).normSq = 1 := by
  have hentry : ∀ x, Complex.normSq
      (Ancilla.amplitudes (zero n : StateVector ℂ).amplitudes x) = if x = 0 then 1 else 0 := by
    intro x
    rw [amplitudes_zero]
    split <;> simp
  rw [normSq_eq, squaredLength, size_zero, sum_congr rfl fun x _ => hentry x, sum_ite_eq',
    if_pos (by simp)]

/-! ## Kernels and measurements -/

theorem applyAll_cons (κ : Kernel ℂ) (ks : List (Kernel ℂ)) :
    s.applyAll (κ :: ks) = (s.applyAll [κ]).applyAll ks := rfl

theorem normSq_applyAll {n : ℕ} (hs : s.amplitudes.size = 2 ^ n) {ks : List (Kernel ℂ)}
    (hks : ∀ κ ∈ ks, κ.target < n ∧ κ.matrix.IsIsometry) : (s.applyAll ks).normSq = s.normSq := by
  induction ks generalizing s with
  | nil => rfl
  | cons κ ks ih =>
    obtain ⟨⟨hn, hκ⟩, hks⟩ := List.forall_mem_cons.1 hks
    have hsize : (κ.apply s.amplitudes).size = 2 ^ n := (Kernel.size_apply κ hs hn).trans hs
    have hfirst : (s.applyAll [κ]).normSq = s.normSq := by
      rw [normSq_eq, normSq_eq, hs]
      show squaredLength (κ.apply s.amplitudes).size (Ancilla.amplitudes (κ.apply s.amplitudes)) = _
      rw [hsize]
      exact Kernel.squaredLength_apply hκ hs hn
    rw [applyAll_cons, ih (s.applyAll [κ]) hsize hks, hfirst]

variable {s q} {draw : ℝ}

theorem measure_fst : (s.measure q draw).1 = decide (draw < s.weight q true) := by
  rw [← probabilityOne_eq]
  rfl

theorem weight_measure_pos (hs : s.normSq = 1) (hdraw : 0 ≤ draw ∧ draw < 1) :
    0 < s.weight q (s.measure q draw).1 := by
  have hsum := s.weight_add_weight q
  rw [measure_fst]
  by_cases hbelow : draw < s.weight q true
  · rw [decide_eq_true hbelow]
    exact hdraw.1.trans_lt hbelow
  · rw [decide_eq_false hbelow]
    linarith

theorem measure_snd (hs : s.normSq = 1) {outcome : Bool}
    (houtcome : (s.measure q draw).1 = outcome) (hpos : 0 < s.weight q outcome) :
    (s.measure q draw).2 = s.project q outcome (1 / Real.sqrt (s.weight q outcome)) := by
  have hsum := s.weight_add_weight q
  have hkept : (if outcome = true then s.probabilityOne q else Scalar.one - s.probabilityOne q) =
      s.weight q outcome := by
    rw [probabilityOne_eq, scalar_one]
    cases outcome with
    | true => rfl
    | false =>
      -- the rest of 1 is a weight only because the state is normalized
      rw [if_neg Bool.false_ne_true]
      linarith
  have hfires : Scalar.below (Scalar.zero : ℝ) (s.weight q outcome) = true := by
    rw [scalar_zero]
    exact decide_eq_true hpos
  have hbit : Scalar.below draw (s.probabilityOne q) = outcome := houtcome
  simp only [measure, hbit, hkept, hfires, if_true]
  rw [scalar_one]
  rfl

theorem normSq_measure (hs : s.normSq = 1) (hdraw : 0 ≤ draw ∧ draw < 1) :
    (s.measure q draw).2.normSq = 1 := by
  have hpos : 0 < s.weight q (s.measure q draw).1 := weight_measure_pos hs hdraw
  rw [measure_snd hs rfl hpos, normSq_project, div_pow, Real.sq_sqrt hpos.le, one_pow,
    mul_one_div_cancel hpos.ne']

end StateVector

/-! ## Runs -/

def Step.Lawful (n : ℕ) : Step ℂ → Prop
  | .gate ks _ => ∀ κ ∈ ks, κ.target < n ∧ κ.matrix.IsIsometry
  | .measure _ _ => True

/-- A run in a normalized state, with all numbers still to be drawn in `[0, 1)`. -/
structure Trajectory.Normalized (n : ℕ) (t : Trajectory ℂ (ℕ → ℝ)) : Prop where
  size : t.state.amplitudes.size = 2 ^ n
  normSq : t.state.normSq = 1
  draws : ∀ k, 0 ≤ t.source k ∧ t.source k < 1

namespace Trajectory

variable {n : ℕ} {t : Trajectory ℂ (ℕ → ℝ)}

theorem normalized_start (n numClbits : ℕ) {draws : ℕ → ℝ}
    (hdraws : ∀ k, 0 ≤ draws k ∧ draws k < 1) :
    (start n numClbits draws : Trajectory ℂ (ℕ → ℝ)).Normalized n :=
  ⟨StateVector.size_zero n, StateVector.normSq_zero n, hdraws⟩

theorem Normalized.step (ht : t.Normalized n) {step : Step ℂ} (hstep : step.Lawful n) :
    (t.step step).Normalized n := by
  cases step with
  | gate ks condition =>
    have hsize : (t.state.applyAll ks).amplitudes.size = 2 ^ n :=
      t.state.size_applyAll ht.size fun κ hκ => (hstep κ hκ).1
    have hnorm : (t.state.applyAll ks).normSq = 1 :=
      (t.state.normSq_applyAll ht.size hstep).trans ht.normSq
    have hfired : (t.withAmplitudes (t.state.applyAll ks).amplitudes).Normalized n :=
      ⟨hsize, hnorm, ht.draws⟩
    cases condition with
    | none => exact hfired
    | some c =>
      unfold Trajectory.step
      simp only []
      split
      · exact hfired
      · exact ht
  | measure q cb =>
    have hnorm := StateVector.normSq_measure (q := q) ht.normSq (ht.draws 0)
    exact ⟨Array.size_mapIdx.trans ht.size, hnorm, fun k => ht.draws (k + 1)⟩

theorem Normalized.run (ht : t.Normalized n) {steps : List (Step ℂ)}
    (hsteps : ∀ step ∈ steps, step.Lawful n) : (t.run steps).Normalized n := by
  induction steps generalizing t with
  | nil => exact ht
  | cons step steps ih =>
    obtain ⟨hstep, hsteps⟩ := List.forall_mem_cons.1 hsteps
    exact ih (ht.step hstep) hsteps

end Trajectory

/-! ## Circuits -/

namespace Circuit

variable {c : Circuit ℝ} {b : Bindings ℝ} {collapse : Bool}

theorem Orderly.exists_ofInstruction (hc : c.Orderly) {i : Instruction ℝ}
    (hi : i ∈ c.instructions.toList) (hgates : ∀ g, i.operation = .gate g →
      g.Made ∧ ∀ e ∈ g.kind.parameters, ∃ v, e.evaluate b = .ok v) :
    ∃ steps : List (Step ℂ), Step.ofInstruction b collapse i = .ok steps := by
  cases hgate : i.gate? with
  | none =>
    exact Step.exists_ofInstruction_collapse ⟨[], Step.ofInstruction_of_not_gate hgate⟩ collapse
  | some g =>
    have hop := Instruction.gate?_eq_some.1 hgate
    obtain ⟨hmade, hangles⟩ := hgates g hop
    obtain ⟨as, has⟩ := Exact.exists_angles hangles
    obtain ⟨ks, hks, -⟩ := (hc.fits hi hop).lower hmade.isRooted as
    exact ⟨_, (Step.ofInstruction_gate_iff hop).2 ⟨as, ks, has, hks, rfl⟩⟩

theorem Orderly.lawful_ofInstruction (hc : c.Orderly) {i : Instruction ℝ}
    (hi : i ∈ c.instructions.toList) {steps : List (Step ℂ)}
    (hsteps : Step.ofInstruction b collapse i = .ok steps) :
    ∀ step ∈ steps, step.Lawful c.width := by
  cases hop : i.operation with
  | gate g =>
    obtain ⟨as, ks, -, hks, rfl⟩ := (Step.ofInstruction_gate_iff hop).1 hsteps
    have hfits := hc.fits hi hop
    have hlawful : ∀ κ ∈ ks, κ.target < c.width ∧ κ.matrix.IsIsometry := fun κ hκ =>
      ⟨hfits.below _ (Kernel.target_mem_of_lower hfits hks κ hκ),
        Kernel.isIsometry_of_lower hks κ hκ⟩
    exact List.forall_mem_singleton.2 hlawful
  | measure =>
    simp only [Step.ofInstruction, hop] at hsteps
    split at hsteps
    · obtain rfl := Except.ok.inj hsteps
      exact List.forall_mem_singleton.2 trivial
    · obtain rfl := Except.ok.inj hsteps
      exact fun step hstep => absurd hstep List.not_mem_nil
  | barrier =>
    simp only [Step.ofInstruction, hop] at hsteps
    obtain rfl := Except.ok.inj hsteps
    exact fun step hstep => absurd hstep List.not_mem_nil

theorem Orderly.lawful (hc : c.Orderly) {l : List (Instruction ℝ)}
    (hl : ∀ i ∈ l, i ∈ c.instructions.toList) {steps : List (Step ℂ)}
    (hsteps : Step.ofInstructions b collapse l = .ok steps) :
    ∀ step ∈ steps, step.Lawful c.width := by
  induction l generalizing steps with
  | nil =>
    obtain rfl := Except.ok.inj hsteps
    exact fun step hstep => absurd hstep List.not_mem_nil
  | cons i l ih =>
    obtain ⟨hi, hl⟩ := List.forall_mem_cons.1 hl
    obtain ⟨first, rest, hfirst, hrest, rfl⟩ := Step.ofInstructions_cons_iff.1 hsteps
    exact List.forall_mem_append.2 ⟨hc.lawful_ofInstruction hi hfirst, ih hl hrest⟩

/-- Every run stays normalized. If all gates of a circuit were made by the constructors and all
angles have values, then for all draws from `[0, 1)` the state is normalized after each step of a
run; the next step, if it is a gate, keeps it so after each of its kernels, and if it is a
measurement, has an outcome that had positive weight. -/
theorem Built.trajectory_normalized (hc : c.Built)
    (hgates : ∀ i ∈ c.instructions.toList, ∀ g, i.operation = .gate g →
      g.Made ∧ ∀ e ∈ g.kind.parameters, ∃ v, e.evaluate b = .ok v)
    (collapse : Bool) {draws : ℕ → ℝ} (hdraws : ∀ k, 0 ≤ draws k ∧ draws k < 1) :
    ∃ steps : List (Step ℂ), Step.ofCircuit c b collapse = .ok steps ∧
      ∀ k, ∃ (state : StateVector ℂ) (source : ℕ → ℝ),
        Simulator.trajectory false (steps.take k) c.width c.numClbits draws = .ok (state, source) ∧
        state.normSq = 1 ∧
        (∀ ks condition, steps[k]? = some (.gate ks condition) →
          ∀ j, (state.applyAll (ks.take j)).normSq = 1) ∧
        ∀ q cb, steps[k]? = some (.measure q cb) →
          0 < state.weight q (state.measure q (source 0)).1 := by
  obtain ⟨steps, hsteps⟩ := Step.exists_ofInstructions_iff.2 fun i hi =>
    hc.orderly.exists_ofInstruction hi (hgates i hi)
  have hlawful := hc.orderly.lawful (fun i hi => hi) hsteps
  refine ⟨steps, hsteps, fun k => ?_⟩
  have hstart := Trajectory.normalized_start c.width c.numClbits hdraws
  have hreached : ((Trajectory.start c.width c.numClbits draws).run (steps.take k)).Normalized
      c.width := hstart.run fun step hstep => hlawful step (List.mem_of_mem_take hstep)
  refine ⟨_, _, rfl, hreached.normSq, fun ks condition hgate j => ?_, fun q cb _ => ?_⟩
  · have hkernels : ∀ κ ∈ ks, κ.target < c.width ∧ κ.matrix.IsIsometry :=
      hlawful _ (List.mem_of_getElem? hgate)
    rw [StateVector.normSq_applyAll _ hreached.size fun κ hκ =>
      hkernels κ (List.mem_of_mem_take hκ)]
    exact hreached.normSq
  · exact StateVector.weight_measure_pos hreached.normSq (hreached.draws 0)

def steered : Circuit ℝ := (withSize "steered" 3 2).pushAll
  [.ofGate (.ofStandard .h) [0], .measure 0 0, .ofGate (.controlled .swap 1) [0, 1, 2],
    .ofGate ((Gate.ofStandard (.rx (.symbol "theta"))).withCondition (.ofValue [0] 1)) [1],
    .ofGate (.controlled .y 2) [0, 1, 2], .measure 1 1]

theorem Built.trajectory_normalized_steered :
    ∃ steps : List (Step ℂ), Step.ofCircuit steered [("theta", 1)] true = .ok steps ∧
      ∀ k, ∃ (state : StateVector ℂ) (source : ℕ → ℝ),
        Simulator.trajectory false (steps.take k) 3 2 (fun _ => (1 / 2 : ℝ)) = .ok (state, source) ∧
        state.normSq = 1 ∧
        (∀ ks condition, steps[k]? = some (.gate ks condition) →
          ∀ j, (state.applyAll (ks.take j)).normSq = 1) ∧
        ∀ q cb, steps[k]? = some (.measure q cb) →
          0 < state.weight q (state.measure q (source 0)).1 := by
  have hlist : steered.instructions.toList =
    [.ofGate (.ofStandard .h) [0], .measure 0 0, .ofGate (.controlled .swap 1) [0, 1, 2],
      .ofGate ((Gate.ofStandard (.rx (.symbol "theta"))).withCondition (.ofValue [0] 1)) [1],
      .ofGate (.controlled .y 2) [0, 1, 2], .measure 1 1] := by cbv
  have hbuilt : steered.Built := (built_withSize _ 3 2).pushAll _
  have hgates : ∀ i ∈ steered.instructions.toList, ∀ g, i.operation = .gate g →
      g.Made ∧ ∀ e ∈ g.kind.parameters, ∃ v, e.evaluate [("theta", 1)] = .ok v := by
    rw [hlist]
    simp only [List.forall_mem_cons, Instruction.ofGate, Instruction.measure,
      Operation.gate.injEq, forall_eq', reduceCtorEq, false_imp_iff, implies_true, true_and]
    have hplain : ∀ e ∈ ([] : List (Expr ℝ)), ∃ v, e.evaluate [("theta", 1)] = .ok v := by simp
    have hangle : ∀ e ∈ [Expr.symbol "theta"], ∃ v : ℝ, e.evaluate [("theta", 1)] = .ok v :=
      List.forall_mem_singleton.2 ⟨1, rfl⟩
    exact ⟨⟨.ofStandard _, hplain⟩, ⟨.controlled _ _, hplain⟩,
      ⟨.withCondition (.ofStandard _) _, hangle⟩, ⟨.controlled _ _, hplain⟩, by simp⟩
  have hdraws : ∀ k : ℕ, (0 : ℝ) ≤ (fun _ => 1 / 2 : ℕ → ℝ) k ∧ (fun _ => 1 / 2 : ℕ → ℝ) k < 1 :=
    fun _ => by norm_num
  have hrun := hbuilt.trajectory_normalized hgates true hdraws
  have hwidth : steered.width = 3 := by cbv
  have hclbits : steered.numClbits = 2 := by cbv
  rw [hwidth, hclbits] at hrun
  exact hrun

end Circuit

end Ancilla
