import Ancilla.Proofs.Circuit.Threads
import Ancilla.Proofs.Simulation.Exact
import Ancilla.Proofs.Simulation.Steps
import Mathlib.Algebra.Ring.MinimalAxioms

/-!
Measurements put off to the end. In a circuit in which no gate acts on a measured qubit and none has
a condition, the projection of a measured qubit on its outcome passes all that comes after it: the
run in which every measurement projects ends as the run without measurements does, projected on all
outcomes. This needs no more of the amplitudes than that they form a commutative ring.
-/

namespace Ancilla

/-! ## Kernels and projections -/

namespace Kernel

variable {α : Type} [CommRing α] {q n : ℕ} {outcome : Bool} {v : Array α}

def keep {α : Type} [Zero α] (q : ℕ) (outcome : Bool) (v : Array α) : Array α :=
  v.mapIdx fun x a => if x.testBit q == outcome then a else 0

theorem size_keep (q : ℕ) (outcome : Bool) (v : Array α) : (keep q outcome v).size = v.size :=
  Array.size_mapIdx

theorem amplitudes_keep (q : ℕ) (outcome : Bool) (v : Array α) (x : ℕ) :
    amplitudes (keep q outcome v) x = if x.testBit q = outcome then amplitudes v x else 0 := by
  simp only [amplitudes, keep, Array.getD_eq_getD_getElem?, Array.getElem?_mapIdx, beq_iff_eq]
  cases v[x]? <;> simp

theorem apply_keep {κ : Kernel α} (hv : v.size = 2 ^ n) (hn : κ.target < n) (hq : q ≠ κ.target) :
    κ.apply (keep q outcome v) = keep q outcome (κ.apply v) := by
  have hkept : (keep q outcome v).size = 2 ^ n := (size_keep q outcome v).trans hv
  have hsize := size_apply κ hv hn
  have hsize' := size_apply κ hkept hn
  refine eq_of_amplitudes (by rw [hsize', size_keep, size_keep, hsize]) (funext fun x => ?_)
  rw [amplitudes_keep]
  by_cases hx : x < v.size
  · -- the reading of the qubit is the same in both entries of a pair
    have hflip : (toggle x κ.target).testBit q = x.testBit q := testBit_toggle_of_ne x hq
    rw [κ.amplitudes_apply_of_lt hv hn hx, κ.amplitudes_apply_of_lt hkept hn (by rwa [size_keep]),
      Operator.onQubit_apply, Operator.onQubit_apply, amplitudes_keep, amplitudes_keep, hflip]
    by_cases hbit : x.testBit q = outcome <;> simp [hbit]
  · rw [amplitudes_of_size_le (by rw [hsize', size_keep]; omega),
      amplitudes_of_size_le (by omega), ite_self]

theorem applyAll_keep {ks : List (Kernel α)} (hv : v.size = 2 ^ n)
    (hks : ∀ κ ∈ ks, κ.target < n ∧ q ≠ κ.target) :
    applyAll ks (keep q outcome v) = keep q outcome (applyAll ks v) := by
  induction ks generalizing v with
  | nil => rfl
  | cons κ ks ih =>
    obtain ⟨⟨hn, hq⟩, hks⟩ := List.forall_mem_cons.1 hks
    show applyAll ks (κ.apply (keep q outcome v)) = keep q outcome (applyAll ks (κ.apply v))
    rw [apply_keep hv hn hq, ih ((size_apply κ hv hn).trans hv) hks]

theorem size_applyAll {ks : List (Kernel α)} (hv : v.size = 2 ^ n)
    (hks : ∀ κ ∈ ks, κ.target < n) : (applyAll ks v).size = 2 ^ n := by
  induction ks generalizing v with
  | nil => exact hv
  | cons κ ks ih =>
    obtain ⟨hn, hks⟩ := List.forall_mem_cons.1 hks
    exact ih ((size_apply κ hv hn).trans hv) hks

end Kernel

/-! ## Amplitudes that form a ring -/

/-- Amplitudes that form a commutative ring and that the scalar 1 leaves as they are. -/
class LawfulAmplitude (R α : Type) [Scalar R] [Amplitude R α] : Prop where
  add_assoc (a b c : α) : a + b + c = a + (b + c)
  zero_add (a : α) : 0 + a = a
  neg_add_cancel (a : α) : -a + a = 0
  mul_assoc (a b c : α) : a * b * c = a * (b * c)
  mul_comm (a b : α) : a * b = b * a
  one_mul (a : α) : 1 * a = a
  left_distrib (a b c : α) : a * (b + c) = a * b + a * c
  scale_one (a : α) : Amplitude.scale (Scalar.one : R) a = a

instance : LawfulAmplitude ℝ ℂ where
  add_assoc := add_assoc
  zero_add := zero_add
  neg_add_cancel := neg_add_cancel
  mul_assoc := mul_assoc
  mul_comm := mul_comm
  one_mul := one_mul
  left_distrib := mul_add
  scale_one a := by simp

abbrev LawfulAmplitude.commRing (R α : Type) [Scalar R] [Amplitude R α] [LawfulAmplitude R α] :
    CommRing α :=
  CommRing.ofMinimalAxioms LawfulAmplitude.add_assoc LawfulAmplitude.zero_add
    LawfulAmplitude.neg_add_cancel LawfulAmplitude.mul_assoc LawfulAmplitude.mul_comm
    LawfulAmplitude.one_mul LawfulAmplitude.left_distrib

/-! ## Runs with given outcomes -/

section Runs

variable {R α : Type} [Scalar R] [Amplitude R α]

def StateVector.projectAll (s : StateVector α) (readings : List (QubitId × Bool)) : StateVector α :=
  readings.foldl (fun s r => s.project r.1 r.2 Scalar.one) s

/-- The run in which the measurements have given outcomes, one after another: each of them projects
its qubit, without scaling, and sets its bit. -/
def Trajectory.runDecided {σ : Type} [DrawSource σ R] (outcomes : ℕ → Bool) (t : Trajectory α σ) :
    List (Step α) → Trajectory α σ
  | [] => t
  | .measure q c :: steps =>
    Trajectory.runDecided (fun k => outcomes (k + 1))
      { t with
        state := t.state.project q (outcomes 0) Scalar.one
        clbits := t.clbits.setIfInBounds c (outcomes 0) } steps
  | .gate kernels condition :: steps =>
    Trajectory.runDecided outcomes (t.step (.gate kernels condition)) steps

namespace Circuit

def readings {R : Type} (outcomes : ℕ → Bool) : List (Instruction R) → List (QubitId × Bool)
  | [] => []
  | i :: l =>
    if i.isMeasure then
      i.qubits.map (fun q => (q, outcomes 0)) ++ readings (fun k => outcomes (k + 1)) l
    else readings outcomes l

omit [Scalar R] in
theorem not_mem_of_static {measured : List QubitId} {l : List (Instruction R)}
    (h : dynamicFrom measured l = false) {i : Instruction R} (hi : i ∈ l) (hgate : i.isGate = true)
    {q : QubitId} (hq : q ∈ measured) : q ∉ i.qubits := by
  induction l generalizing measured with
  | nil => exact absurd hi List.not_mem_nil
  | cons j l ih =>
    obtain ⟨-, ⟨hmeasure, hl⟩ | ⟨-, hfree, hl⟩⟩ := dynamicFrom_cons.1 h
    · rcases List.mem_cons.1 hi with rfl | hi
      · unfold Instruction.isMeasure at hmeasure
        unfold Instruction.isGate Instruction.gate? at hgate
        cases hop : i.operation <;> simp [hop] at hmeasure hgate
      · exact ih hl hi (List.mem_append_right _ hq)
    · rcases List.mem_cons.1 hi with rfl | hi
      · exact fun hmem => hfree hgate q hmem hq
      · exact ih hl hi hq

variable {c : Circuit R} {b : Bindings R} {σ : Type} [DrawSource σ R]

theorem Orderly.run_kernels (hc : c.Orderly) {l : List (Instruction R)}
    (hl : ∀ i ∈ l, i ∈ c.instructions.toList) (hplain : ∀ i ∈ l, i.isConditional = false)
    {steps : List (Step α)} (hsteps : Step.ofInstructions b false l = .ok steps) :
    ∃ ks : List (Kernel α), (∀ t : Trajectory α σ, (t.run steps).state = t.state.applyAll ks) ∧
      ∀ κ ∈ ks, κ.target < c.width ∧ ∃ i ∈ l, i.isGate = true ∧ κ.target ∈ i.qubits := by
  -- barriers and measurements leave no steps, so only gates count
  induction l generalizing steps with
  | nil =>
    obtain rfl := Except.ok.inj hsteps
    exact ⟨[], fun _ => rfl, by simp⟩
  | cons i l ih =>
    obtain ⟨first, rest, hfirst, hrest, rfl⟩ := Step.ofInstructions_cons_iff.1 hsteps
    obtain ⟨hi, hl⟩ := List.forall_mem_cons.1 hl
    obtain ⟨hcondition, hplain⟩ := List.forall_mem_cons.1 hplain
    obtain ⟨ks, hrun, hks⟩ := ih hl hplain hrest
    have hlater : ∀ κ ∈ ks, κ.target < c.width ∧ ∃ j ∈ i :: l, j.isGate = true ∧
        κ.target ∈ j.qubits := by
      intro κ hκ
      obtain ⟨hlt, j, hj, hgate, hmem⟩ := hks κ hκ
      exact ⟨hlt, j, List.mem_cons_of_mem _ hj, hgate, hmem⟩
    cases hgate : i.gate? with
    | none =>
      rw [Step.ofInstruction_of_not_gate hgate] at hfirst
      obtain rfl := Except.ok.inj hfirst
      exact ⟨ks, hrun, hlater⟩
    | some g =>
      have hop := Instruction.gate?_eq_some.1 hgate
      obtain ⟨as, ks', -, hks', rfl⟩ := (Step.ofInstruction_gate_iff hop).1 hfirst
      have hfits := hc.fits hi hop
      refine ⟨ks' ++ ks, fun t => ?_, fun κ hκ => ?_⟩
      · rw [Trajectory.run_append, hrun, Instruction.condition_of_not_isConditional hcondition hop]
        exact congrArg (StateVector.mk t.state.numQubits) List.foldl_append.symm
      · rcases List.mem_append.1 hκ with hκ | hκ
        · have hmem := Kernel.target_mem_of_lower hfits hks' κ hκ
          exact ⟨hfits.below _ hmem, i, List.mem_cons_self, by rw [Instruction.isGate, hgate]; rfl,
            hmem⟩
        · exact hlater κ hκ

end Circuit

end Runs

/-! ## Putting measurements off -/

variable {R α : Type} [Scalar R] [Amplitude R α] [LawfulAmplitude R α]

namespace StateVector

theorem project_one (s : StateVector α) (q : QubitId) (outcome : Bool) :
    s.project q outcome (Scalar.one : R) =
      { s with amplitudes := Kernel.keep q outcome s.amplitudes } := by
  simp only [project, Kernel.keep, LawfulAmplitude.scale_one]

theorem applyAll_project (s : StateVector α) {q : QubitId} {outcome : Bool} {n : ℕ}
    (hs : s.amplitudes.size = 2 ^ n) {ks : List (Kernel α)}
    (hks : ∀ κ ∈ ks, κ.target < n ∧ q ≠ κ.target) :
    (s.project q outcome (Scalar.one : R)).applyAll ks =
      (s.applyAll ks).project q outcome (Scalar.one : R) := by
  rw [project_one, project_one]
  exact congrArg (StateVector.mk s.numQubits)
    (@Kernel.applyAll_keep α (LawfulAmplitude.commRing R α) q n outcome _ ks hs hks)

theorem size_applyAll (s : StateVector α) {n : ℕ} (hs : s.amplitudes.size = 2 ^ n)
    {ks : List (Kernel α)} (hks : ∀ κ ∈ ks, κ.target < n) :
    (s.applyAll ks).amplitudes.size = 2 ^ n :=
  @Kernel.size_applyAll α (LawfulAmplitude.commRing R α) n _ ks hs hks

end StateVector

namespace Circuit

variable {c : Circuit R} {b : Bindings R} {σ : Type} [DrawSource σ R]

omit [Scalar R] in
theorem Orderly.operands_of_measure (hc : c.Orderly) {i : Instruction R}
    (hi : i ∈ c.instructions.toList) (hop : i.operation = .measure) (hone : i.qubits.length = 1) :
    ∃ q cb, i.qubits = [q] ∧ i.clbits = [cb] := by
  obtain ⟨hcount, -, -⟩ := WireGraph.fault?_eq_none_iff.1 (hc.accepted hi)
  have hlength : i.clbits.length = 1 := by
    by_contra hne
    simp [WireGraph.countFault?, hop, hone, Ne.symm hne] at hcount
  obtain ⟨q, hq⟩ := List.length_eq_one_iff.1 hone
  obtain ⟨cb, hcb⟩ := List.length_eq_one_iff.1 hlength
  exact ⟨q, cb, hq, hcb⟩

theorem Orderly.run_project (hc : c.Orderly) {n : ℕ} (hn : c.width ≤ n)
    {l : List (Instruction R)} (hl : ∀ i ∈ l, i ∈ c.instructions.toList)
    {measured : List QubitId} (hstatic : dynamicFrom measured l = false) {q : QubitId}
    (hq : q ∈ measured) {steps : List (Step α)}
    (hsteps : Step.ofInstructions b false l = .ok steps) {t t' : Trajectory α σ}
    (ht : t.state.amplitudes.size = 2 ^ n) {outcome : Bool}
    (ht' : t'.state = t.state.project q outcome (Scalar.one : R)) :
    (t'.run steps).state = (t.run steps).state.project q outcome (Scalar.one : R) := by
  obtain ⟨ks, hrun, hks⟩ :=
    hc.run_kernels (σ := σ) hl (not_isConditional_of_static hstatic) hsteps
  have hspared : ∀ κ ∈ ks, κ.target < n ∧ q ≠ κ.target := by
    intro κ hκ
    obtain ⟨hlt, i, hi, hgate, hmem⟩ := hks κ hκ
    refine ⟨hlt.trans_le hn, fun heq => ?_⟩
    exact not_mem_of_static hstatic hi hgate hq (heq ▸ hmem)
  rw [hrun, hrun, ht', StateVector.applyAll_project _ ht hspared]

theorem Orderly.runDecided_state (hc : c.Orderly) {n : ℕ} (hn : c.width ≤ n)
    {l : List (Instruction R)} (hl : ∀ i ∈ l, i ∈ c.instructions.toList)
    (hsingle : ∀ i ∈ l, i.isMeasure = true → i.qubits.length = 1) {measured : List QubitId}
    (hstatic : dynamicFrom measured l = false) {steps steps' : List (Step α)}
    (hsteps : Step.ofInstructions b true l = .ok steps)
    (hsteps' : Step.ofInstructions b false l = .ok steps') (outcomes : ℕ → Bool)
    (t : Trajectory α σ) (ht : t.state.amplitudes.size = 2 ^ n) :
    (t.runDecided outcomes steps).state =
      (t.run steps').state.projectAll (readings outcomes l) := by
  induction l generalizing measured steps steps' outcomes t with
  | nil =>
    obtain rfl := Except.ok.inj hsteps
    obtain rfl := Except.ok.inj hsteps'
    rfl
  | cons i l ih =>
    obtain ⟨first, rest, hfirst, hrest, rfl⟩ := Step.ofInstructions_cons_iff.1 hsteps
    obtain ⟨first', rest', hfirst', hrest', rfl⟩ := Step.ofInstructions_cons_iff.1 hsteps'
    obtain ⟨hi, hl⟩ := List.forall_mem_cons.1 hl
    obtain ⟨hone, hsingle⟩ := List.forall_mem_cons.1 hsingle
    obtain ⟨hcondition, ⟨hmeasure, hstatic⟩ | ⟨hmeasure, -, hstatic⟩⟩ := dynamicFrom_cons.1 hstatic
    · have hop : i.operation = .measure := by
        unfold Instruction.isMeasure at hmeasure
        split at hmeasure
        · assumption
        · cases hmeasure
      obtain ⟨q, cb, hq, hcb⟩ := hc.operands_of_measure hi hop (hone hmeasure)
      simp only [Step.ofInstruction, hop, hq, hcb] at hfirst hfirst'
      obtain rfl := Except.ok.inj hfirst
      obtain rfl := Except.ok.inj hfirst'
      -- the projection comes first in the one run, and passes everything behind it in the other
      have hnext := ih hl hsingle hstatic hrest hrest' (fun k => outcomes (k + 1))
        { t with
          state := t.state.project q (outcomes 0) Scalar.one
          clbits := t.clbits.setIfInBounds cb (outcomes 0) }
        (Array.size_mapIdx.trans ht)
      rw [hc.run_project hn hl hstatic (by simp [hq]) hrest' ht rfl] at hnext
      rw [readings, if_pos hmeasure, hq]
      exact hnext
    · rw [readings, hmeasure]
      cases hop : i.operation with
      | measure => simp [Instruction.isMeasure, hop] at hmeasure
      | barrier =>
        simp only [Step.ofInstruction, hop] at hfirst hfirst'
        obtain rfl := Except.ok.inj hfirst
        obtain rfl := Except.ok.inj hfirst'
        exact ih hl hsingle hstatic hrest hrest' outcomes t ht
      | gate g =>
        have hsame : (Step.ofInstruction b true i : Except _ (List (Step α))) =
            Step.ofInstruction b false i := by simp only [Step.ofInstruction, hop]
        rw [hsame, hfirst'] at hfirst
        obtain rfl := Except.ok.inj hfirst
        obtain ⟨as, ks, -, hks, rfl⟩ := (Step.ofInstruction_gate_iff hop).1 hfirst'
        have hfits := (hc.fits hi hop).mono hn
        refine ih hl hsingle hstatic hrest hrest' outcomes (t.step (.gate ks g.condition)) ?_
        rw [Instruction.condition_of_not_isConditional hcondition hop]
        exact t.state.size_applyAll ht fun κ hκ =>
          hfits.below _ (Kernel.target_mem_of_lower hfits hks κ hκ)

/-- Measurements at the end may be dropped. If no operation of a circuit depends on a measurement,
each of which reads one qubit, then the run in which every measurement projects its qubit on a given
outcome ends in the state of the run without measurements, projected on all outcomes. -/
theorem Built.runDecided_state_eq {c : Circuit R} (hc : c.Built) (hstatic : c.isDynamic = false)
    (hsingle : ∀ i ∈ c.instructions.toList, i.isMeasure = true → i.qubits.length = 1)
    {b : Bindings R} {collapse : Bool} {lowered : List (Step α)}
    (hlowered : Step.ofCircuit c b collapse = .ok lowered) :
    ∃ steps steps' : List (Step α), Step.ofCircuit c b true = .ok steps ∧
      Step.ofCircuit c b false = .ok steps' ∧
      ∀ (outcomes : ℕ → Bool) {σ : Type} [DrawSource σ R] (t : Trajectory α σ) {n : ℕ},
        c.width ≤ n → t.state.amplitudes.size = 2 ^ n →
        (t.runDecided outcomes steps).state =
          (t.run steps').state.projectAll (readings outcomes c.instructions.toList) := by
  have hlower : ∀ collapse' : Bool, ∃ steps : List (Step α),
      Step.ofCircuit c b collapse' = .ok steps := fun collapse' =>
    Step.exists_ofInstructions_iff.2 fun i hi => Step.exists_ofInstruction_collapse
      (Step.exists_ofInstructions_iff.1 ⟨lowered, hlowered⟩ i hi) collapse'
  obtain ⟨steps, hsteps⟩ := hlower true
  obtain ⟨steps', hsteps'⟩ := hlower false
  refine ⟨steps, steps', hsteps, hsteps', fun outcomes {σ} _ t {n} hn ht => ?_⟩
  exact hc.orderly.runDecided_state hn (fun i hi => hi) hsingle hstatic hsteps hsteps' outcomes t ht

def probed : Circuit ℝ := (withSize "probed" 2 3).pushAll
  [.ofGate (.ofStandard .h) [0], .ofGate (.ofStandard .cx) [0, 1], .measure 0 0, .barrier [0, 1],
    .ofGate (.ofStandard .sx) [1], .measure 1 1, .measure 0 2]

theorem Built.runDecided_state_probed :
    ∃ steps steps' : List (Step ℂ), Step.ofCircuit probed [] true = .ok steps ∧
      Step.ofCircuit probed [] false = .ok steps' ∧
      ∀ (outcomes : ℕ → Bool) (t : Trajectory ℂ (ℕ → ℝ)), t.state.amplitudes.size = 2 ^ 2 →
        (t.runDecided outcomes steps).state = (t.run steps').state.projectAll
          [(0, outcomes 0), (1, outcomes 1), (0, outcomes 2)] := by
  have hlist : probed.instructions.toList =
    [.ofGate (.ofStandard .h) [0], .ofGate (.ofStandard .cx) [0, 1], .measure 0 0, .barrier [0, 1],
      .ofGate (.ofStandard .sx) [1], .measure 1 1, .measure 0 2] := by cbv
  have hsingle : ∀ i ∈ probed.instructions.toList, i.isMeasure = true → i.qubits.length = 1 := by
    rw [hlist]
    decide +kernel
  have hlower : ∀ i ∈ probed.instructions.toList, ∃ steps : List (Step ℂ),
      Step.ofInstruction [] true i = .ok steps := by
    rw [hlist]
    simp only [List.forall_mem_cons]
    exact ⟨⟨_, rfl⟩, ⟨_, rfl⟩, ⟨_, rfl⟩, ⟨_, rfl⟩, ⟨_, rfl⟩, ⟨_, rfl⟩, ⟨_, rfl⟩, by simp⟩
  obtain ⟨lowered, hlowered⟩ := Step.exists_ofInstructions_iff.2 hlower
  have hbuilt : probed.Built := (built_withSize _ 2 3).pushAll _
  obtain ⟨steps, steps', hsteps, hsteps', hrun⟩ :=
    Built.runDecided_state_eq hbuilt (by decide +kernel) hsingle hlowered
  refine ⟨steps, steps', hsteps, hsteps', fun outcomes t ht => ?_⟩
  rw [hrun outcomes t (by decide +kernel) ht, hlist]
  rfl

end Circuit

end Ancilla
