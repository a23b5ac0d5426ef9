import Ancilla.Proofs.Circuit.Sealing
import Ancilla.Proofs.Simulation.Exact
import Ancilla.Proofs.Simulation.Steps

/-!
Measurements of several qubits. A circuit takes a measurement of any number of qubits into as many
bits, but it is lowered to a step for the first qubit and the first bit only. So the measurement
steps are those of the first pairs, in order, and every pair has its step exactly if no measurement
names two. The bit of a step holds the outcome of its qubit until a later step fills it; the other
bits a measurement names keep what they read before.
-/

namespace Ancilla

variable {R α : Type}

def Instruction.measuredPairs (i : Instruction R) : List (QubitId × ClbitId) :=
  if i.isMeasure then i.qubits.zip i.clbits else []

def Step.pair? : Step α → Option (QubitId × ClbitId)
  | .measure q cb => some (q, cb)
  | .gate _ _ => none

theorem Instruction.isMeasure_iff {i : Instruction R} :
    i.isMeasure = true ↔ i.operation = .measure := by
  unfold isMeasure
  cases i.operation <;> simp

/-! ## First pairs -/

section Lists

variable {β γ : Type} {f : β → List γ}

theorem flatMap_take_one_sublist (l : List β) :
    (l.flatMap fun x => (f x).take 1).Sublist (l.flatMap f) :=
  List.Sublist.flatMap_right l fun x _ => List.take_sublist 1 (f x)

theorem flatMap_take_one_eq_iff {l : List β} :
    (l.flatMap fun x => (f x).take 1) = l.flatMap f ↔ ∀ x ∈ l, (f x).length ≤ 1 := by
  induction l with
  | nil => simp
  | cons x l ih =>
    rw [List.forall_mem_cons, ← ih, List.flatMap_cons, List.flatMap_cons]
    constructor
    · intro heq
      have hlength := congrArg List.length heq
      have hle := (flatMap_take_one_sublist (f := f) l).length_le
      simp only [List.length_append, List.length_take] at hlength
      refine ⟨by omega, (flatMap_take_one_sublist l).eq_of_length (by omega)⟩
    · rintro ⟨hx, hl⟩
      rw [hl, List.take_of_length_le hx]

end Lists

namespace Circuit

theorem Orderly.length_clbits {c : Circuit R} (hc : c.Orderly) {i : Instruction R}
    (hi : i ∈ c.instructions.toList) (hmeasure : i.isMeasure = true) :
    i.clbits.length = i.qubits.length := by
  obtain ⟨hcount, -, -⟩ := WireGraph.fault?_eq_none_iff.1 (hc.accepted hi)
  by_contra hne
  simp [WireGraph.countFault?, Instruction.isMeasure_iff.1 hmeasure, Ne.symm hne] at hcount

theorem Orderly.length_measuredPairs {c : Circuit R} (hc : c.Orderly) {i : Instruction R}
    (hi : i ∈ c.instructions.toList) :
    i.measuredPairs.length ≤ 1 ↔ (i.isMeasure = true → i.qubits.length ≤ 1) := by
  unfold Instruction.measuredPairs
  split
  · next hmeasure => simp [hmeasure, hc.length_clbits hi hmeasure]
  · next hother => simp [hother]

theorem Built.clbit_lt {c : Circuit R} (hc : c.Built) {i : Instruction R}
    (hi : i ∈ c.instructions.toList) {p : QubitId × ClbitId} (hp : p ∈ i.measuredPairs) :
    p.2 < c.numClbits := by
  unfold Instruction.measuredPairs at hp
  split at hp
  · obtain ⟨-, -, hwires⟩ := WireGraph.fault?_eq_none_iff.1 (hc.orderly.accepted hi)
    have hmem : p.2 ∈ i.classicalWires :=
      (Ordered.mem_union [] _ _).2 (.inr (List.mem_append_left _ (List.of_mem_zip hp).2))
    exact hc.numbered p.2 (hwires _ (List.mem_append_right _ (List.mem_map_of_mem hmem)))
  · exact absurd hp List.not_mem_nil

end Circuit

variable [Scalar R] [Amplitude R α]

/-! ## Lowering -/

namespace Step

variable {b : Bindings R}

theorem ofInstruction_measure {i : Instruction R} (hmeasure : i.isMeasure = true) :
    (ofInstruction b true i : Except SimulationError (List (Step α))) =
      .ok ((i.measuredPairs.take 1).map fun p => .measure p.1 p.2) := by
  have hop := Instruction.isMeasure_iff.1 hmeasure
  unfold ofInstruction Instruction.measuredPairs
  rw [hop, if_pos hmeasure]
  cases i.qubits with
  | nil => rfl
  | cons q qs =>
    cases i.clbits with
    | nil => rfl
    | cons cb cbs => rfl

theorem filterMap_ofInstruction {i : Instruction R} {own : List (Step α)}
    (hown : ofInstruction b true i = .ok own) :
    own.filterMap pair? = i.measuredPairs.take 1 := by
  by_cases hmeasure : i.isMeasure = true
  · rw [ofInstruction_measure hmeasure] at hown
    obtain rfl := Except.ok.inj hown
    rw [List.filterMap_map]
    exact List.filterMap_some
  · have hnone : i.measuredPairs.take 1 = [] := by simp [Instruction.measuredPairs, hmeasure]
    rw [hnone]
    cases hop : i.operation with
    | gate g =>
      obtain ⟨as, ks, -, -, rfl⟩ := (ofInstruction_gate_iff hop).1 hown
      rfl
    | measure => exact absurd (Instruction.isMeasure_iff.2 hop) hmeasure
    | barrier =>
      simp only [ofInstruction, hop] at hown
      obtain rfl := Except.ok.inj hown
      rfl

theorem filterMap_ofInstructions {l : List (Instruction R)} {steps : List (Step α)}
    (hsteps : ofInstructions b true l = .ok steps) :
    steps.filterMap pair? = l.flatMap fun i => i.measuredPairs.take 1 := by
  induction l generalizing steps with
  | nil =>
    obtain rfl := Except.ok.inj hsteps
    rfl
  | cons i l ih =>
    obtain ⟨own, others, hown, hothers, rfl⟩ := ofInstructions_cons_iff.1 hsteps
    rw [List.filterMap_append, filterMap_ofInstruction hown, ih hothers, List.flatMap_cons]

theorem ofInstructions_append_iff {l m : List (Instruction R)} {steps : List (Step α)} :
    ofInstructions b true (l ++ m) = .ok steps ↔
      ∃ first rest, ofInstructions b true l = .ok first ∧ ofInstructions b true m = .ok rest ∧
        first ++ rest = steps := by
  induction l generalizing steps with
  | nil => simp [ofInstructions]
  | cons i l ih =>
    simp only [List.cons_append, ofInstructions_cons_iff, ih]
    constructor
    · rintro ⟨own, _, hown, ⟨first, rest, hfirst, hrest, rfl⟩, rfl⟩
      exact ⟨_, rest, ⟨own, first, hown, hfirst, rfl⟩, hrest, List.append_assoc _ _ _⟩
    · rintro ⟨_, rest, ⟨own, first, hown, hfirst, rfl⟩, hrest, rfl⟩
      exact ⟨own, _, hown, ⟨first, rest, hfirst, hrest, rfl⟩, (List.append_assoc _ _ _).symm⟩

end Step

/-! ## Runs -/

omit [Scalar R] in
theorem StateVector.amplitudes_project {s : StateVector α} {q : QubitId} {outcome : Bool}
    (factor : R) {x : ℕ} (hx : x.testBit q ≠ outcome) :
    Ancilla.amplitudes (s.project q outcome factor).amplitudes x = 0 := by
  simp only [Ancilla.amplitudes, project, Array.getD_eq_getD_getElem?, Array.getElem?_mapIdx,
    beq_iff_eq, hx, if_false]
  cases s.amplitudes[x]? <;> rfl

namespace Trajectory

variable {σ : Type} [DrawSource σ R] {t t' : Trajectory α σ}

/-- One run goes over into another by the measurement of a qubit into a bit: the bit holds the
outcome, what contradicts it has no amplitude, and the other bits stay. -/
structure Records (t t' : Trajectory α σ) (q : QubitId) (cb : ClbitId) : Prop where
  outcome : t'.read cb = (t.state.measure q (DrawSource.next t.source).1).1
  state : t'.state = (t.state.measure q (DrawSource.next t.source).1).2
  source : t'.source = (DrawSource.next t.source).2
  projected : ∀ x, x.testBit q ≠ t'.read cb → amplitudes t'.state.amplitudes x = 0
  others : ∀ d, d ≠ cb → t'.read d = t.read d

theorem clbits_step_gate (ks : List (Kernel α)) (condition : Option Condition) :
    (t.step (.gate ks condition)).clbits = t.clbits := by
  cases condition with
  | none => rfl
  | some c =>
    simp only [step]
    split <;> rfl

theorem read_step_of_ne {s : Step α} {d : ClbitId} (hs : ∀ p ∈ s.pair?, p.2 ≠ d) :
    (t.step s).read d = t.read d := by
  cases s with
  | gate ks condition =>
    rw [read, clbits_step_gate]
    rfl
  | measure q cb =>
    have hne : cb ≠ d := hs (q, cb) rfl
    simp only [step, read, Array.getD_eq_getD_getElem?]
    rw [Array.getElem?_setIfInBounds_ne hne]

theorem read_run_of_ne {steps : List (Step α)} {d : ClbitId}
    (hsteps : ∀ p ∈ steps.filterMap Step.pair?, p.2 ≠ d) : (t.run steps).read d = t.read d := by
  induction steps generalizing t with
  | nil => rfl
  | cons s steps ih =>
    have hs : ∀ p ∈ s.pair?, p.2 ≠ d := fun p hp =>
      hsteps p (List.mem_filterMap.2 ⟨s, List.mem_cons_self, hp⟩)
    have hrest : ∀ p ∈ steps.filterMap Step.pair?, p.2 ≠ d := fun p hp => by
      obtain ⟨r, hr, hp⟩ := List.mem_filterMap.1 hp
      exact hsteps p (List.mem_filterMap.2 ⟨r, List.mem_cons_of_mem _ hr, hp⟩)
    exact (ih hrest).trans (read_step_of_ne hs)

theorem size_clbits_step (s : Step α) : (t.step s).clbits.size = t.clbits.size := by
  cases s with
  | gate ks condition => rw [clbits_step_gate]
  | measure q cb => exact Array.size_setIfInBounds

theorem size_clbits_run (steps : List (Step α)) : (t.run steps).clbits.size = t.clbits.size := by
  induction steps generalizing t with
  | nil => rfl
  | cons s steps ih => exact ih.trans (size_clbits_step s)

theorem records_step (q : QubitId) {cb : ClbitId} (hcb : cb < t.clbits.size) :
    t.Records (t.step (.measure q cb)) q cb := by
  have hread : (t.step (.measure q cb)).read cb =
      (t.state.measure q (DrawSource.next t.source).1).1 := by
    simp only [step, read, Array.getD_eq_getD_getElem?]
    rw [Array.getElem?_setIfInBounds_self_of_lt hcb]
    rfl
  refine ⟨hread, rfl, rfl, fun x hx => ?_, fun d hd => read_step_of_ne ?_⟩
  · rw [hread] at hx
    exact StateVector.amplitudes_project (R := R) _ hx
  · rintro _ ⟨rfl⟩
    exact Ne.symm hd

end Trajectory

/-! ## Circuits -/

namespace Circuit

variable {c : Circuit R} {b : Bindings R} {σ : Type} [DrawSource σ R]

/-- The steps of a circuit measure the first pair of every measurement, in order, and all pairs
exactly if no measurement names two qubits. In every run the first bit of a measurement then holds
the outcome of the first qubit, the others keep what they read, and the bit reads the same at the
end unless the first pair of a later measurement names it again. -/
theorem Built.measures_first_pairs (hc : c.Built) {steps : List (Step α)}
    (hsteps : Step.ofCircuit c b true = .ok steps) :
    steps.filterMap Step.pair? =
        c.instructions.toList.flatMap (fun i => i.measuredPairs.take 1) ∧
      (steps.filterMap Step.pair? = c.instructions.toList.flatMap Instruction.measuredPairs ↔
        ∀ i ∈ c.instructions.toList, i.isMeasure = true → i.qubits.length ≤ 1) ∧
      ∀ before i after, c.instructions.toList = before ++ i :: after → i.isMeasure = true →
        ∃ first rest : List (Step α), Step.ofInstructions b true before = .ok first ∧
          Step.ofInstructions b true after = .ok rest ∧ ∀ source : σ, ∃ t t' : Trajectory α σ,
            t = (Trajectory.start c.width c.numClbits source).run first ∧
            (Trajectory.start c.width c.numClbits source).run steps = t'.run rest ∧
            (i.measuredPairs = [] → t' = t) ∧
            ∀ q cb others, i.measuredPairs = (q, cb) :: others → t.Records t' q cb ∧
              ((∀ j ∈ after, ∀ p ∈ j.measuredPairs.take 1, p.2 ≠ cb) →
                (t'.run rest).read cb = t'.read cb) := by
  have hfirst := Step.filterMap_ofInstructions hsteps
  refine ⟨hfirst, ?_, fun before i after hsplit hmeasure => ?_⟩
  · rw [hfirst, flatMap_take_one_eq_iff]
    exact forall₂_congr fun i hi => hc.orderly.length_measuredPairs hi
  · rw [Step.ofCircuit, hsplit, Step.ofInstructions_append_iff] at hsteps
    obtain ⟨first, later, hbefore, hlater, rfl⟩ := hsteps
    obtain ⟨own, rest, hown, hafter, rfl⟩ := Step.ofInstructions_cons_iff.1 hlater
    rw [Step.ofInstruction_measure hmeasure] at hown
    obtain rfl := Except.ok.inj hown
    -- the run splits at the measurement
    have hrun : ∀ t : Trajectory α σ, t.run (first ++ (((i.measuredPairs.take 1).map
        fun p => .measure p.1 p.2) ++ rest)) = ((t.run first).run
          ((i.measuredPairs.take 1).map fun p => .measure p.1 p.2)).run rest := fun t => by
      rw [Trajectory.run_append, Trajectory.run_append]
    refine ⟨first, rest, hbefore, hafter, fun source => ⟨_, _, rfl, hrun _, ?_, ?_⟩⟩
    · intro hnone
      rw [hnone]
      rfl
    · intro q cb others hpairs
      have hi : i ∈ c.instructions.toList := by simp [hsplit]
      have hlt := hc.clbit_lt hi (p := (q, cb)) (by simp [hpairs])
      have hsize : ((Trajectory.start c.width c.numClbits source : Trajectory α σ).run
          first).clbits.size = c.numClbits := by
        rw [Trajectory.size_clbits_run]
        exact Array.size_replicate
      rw [hpairs]
      refine ⟨Trajectory.records_step q (hsize.symm ▸ hlt), fun hkept => ?_⟩
      refine Trajectory.read_run_of_ne fun p hp => ?_
      rw [Step.filterMap_ofInstructions hafter] at hp
      obtain ⟨j, hj, hp⟩ := List.mem_flatMap.1 hp
      exact hkept j hj p hp

def paired : Circuit ℝ := (withSize "paired" 3 2).pushAll
  [.ofGate (.ofStandard .x) [1], ⟨.measure, [0, 1], [0, 1]⟩,
    .ofGate ((Gate.ofStandard .x).withCondition (.ofValue [1] 1)) [2]]

theorem built_paired : paired.Built := (built_withSize _ 3 2).pushAll _

theorem instructions_paired : paired.instructions.toList =
    [.ofGate (.ofStandard .x) [1], ⟨.measure, [0, 1], [0, 1]⟩,
      .ofGate ((Gate.ofStandard .x).withCondition (.ofValue [1] 1)) [2]] := by cbv

theorem exists_steps_paired :
    ∃ steps : List (Step ℂ), Step.ofCircuit paired [] true = .ok steps := by
  refine Step.exists_ofInstructions_iff.2 ?_
  rw [instructions_paired]
  simp only [List.forall_mem_cons]
  exact ⟨⟨_, rfl⟩, ⟨_, rfl⟩, ⟨_, rfl⟩, by simp⟩

theorem measures_first_pairs_paired :
    ∃ steps : List (Step ℂ), Step.ofCircuit paired [] true = .ok steps ∧
      steps.filterMap Step.pair? = [(0, 0)] ∧
      ∀ draws : ℕ → ℝ, ∃ t t' : Trajectory ℂ (ℕ → ℝ), t.Records t' 0 0 ∧
        ((Trajectory.start 3 2 draws).run steps).read 0 = t'.read 0 := by
  obtain ⟨steps, hsteps⟩ := exists_steps_paired
  obtain ⟨hpairs, -, hrun⟩ := Built.measures_first_pairs (σ := ℕ → ℝ) built_paired hsteps
  have hwidth : paired.width = 3 := by cbv
  have hclbits : paired.numClbits = 2 := by cbv
  rw [instructions_paired] at hpairs hrun
  obtain ⟨first, rest, -, -, hrun⟩ := hrun [_] _ [_] rfl rfl
  refine ⟨steps, hsteps, hpairs, fun draws => ?_⟩
  obtain ⟨t, t', -, hlater, -, hrecords⟩ := hrun draws
  obtain ⟨hfirst, hkept⟩ := hrecords 0 0 [(1, 1)] rfl
  rw [hwidth, hclbits] at hlater
  exact ⟨t, t', hfirst, by rw [hlater, hkept (by decide +kernel)]⟩

theorem second_pair_not_measured : paired.Built ∧ paired.isDynamic = true ∧
    ∃ steps : List (Step ℂ), Step.ofCircuit paired [] true = .ok steps ∧
      paired.instructions.toList.flatMap Instruction.measuredPairs = [(0, 0), (1, 1)] ∧
      steps.filterMap Step.pair? = [(0, 0)] ∧
      ∀ draws : ℕ → ℝ, ((Trajectory.start 3 2 draws).run steps).read 1 = false := by
  obtain ⟨steps, hsteps⟩ := exists_steps_paired
  have hpairs := Step.filterMap_ofInstructions hsteps
  rw [instructions_paired] at hpairs
  refine ⟨built_paired, by cbv, steps, hsteps, ?_, hpairs, fun draws => ?_⟩
  · rw [instructions_paired]
    rfl
  · rw [Trajectory.read_run_of_ne fun p hp => ?_]
    · rfl
    · rw [hpairs] at hp
      obtain rfl := List.mem_singleton.1 hp
      decide

end Circuit

end Ancilla
