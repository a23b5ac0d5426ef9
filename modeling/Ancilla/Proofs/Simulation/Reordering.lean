import Ancilla.Proofs.Circuit.Threads
import Ancilla.Proofs.Simulation.Locality
import Mathlib.Algebra.BigOperators.Group.List.Basic
import Mathlib.Algebra.Group.Opposite

/-!
Circuits run in another order. Two operations that share a wire stand in the same order in every
schedule that respects the edges of the dependency graph, and two that share none commute. So every
such schedule of gates and barriers has the effect of the instructions as they were pushed.
-/

namespace Ancilla

/-! ## Products in another order -/

theorem prod_map_eq_of_perm {ι M : Type} [DecidableEq ι] [Monoid M] (f : ι → M)
    {order log : List ι} (hperm : order.Perm log) (hnodup : order.Nodup)
    (hlog : log.Pairwise fun i j => Commute (f i) (f j) ∨ order.idxOf i < order.idxOf j) :
    (order.map f).prod = (log.map f).prod := by
  -- the first of the order is moved to the front of the log, past those that stand before it
  induction order generalizing log with
  | nil => rw [hperm.nil_eq]
  | cons i order ih =>
    obtain ⟨before, after, rfl⟩ := List.append_of_mem (hperm.mem_iff.1 List.mem_cons_self)
    obtain ⟨hi, hnodup⟩ := List.nodup_cons.1 hnodup
    have hrest : order.Perm (before ++ after) := (hperm.trans List.perm_middle).cons_inv
    have hne : ∀ j ∈ before ++ after, i ≠ j := by
      rintro j hj rfl
      exact hi (hrest.mem_iff.2 hj)
    have hpass : ∀ j ∈ before, Commute (f i) (f j) := by
      intro j hj
      rcases (List.pairwise_append.1 hlog).2.2 j hj i List.mem_cons_self with hcomm | hlt
      · exact hcomm.symm
      · rw [List.idxOf_cons_self] at hlt
        exact absurd hlt (Nat.not_lt_zero _)
    have hshort : (before ++ after).Pairwise fun j k =>
        Commute (f j) (f k) ∨ order.idxOf j < order.idxOf k := by
      have hkept := hlog.sublist ((List.sublist_cons_self i after).append_left before)
      refine hkept.imp_of_mem fun hj hk hjk => ?_
      rw [List.idxOf_cons_ne _ (hne _ hj), List.idxOf_cons_ne _ (hne _ hk),
        Nat.succ_lt_succ_iff] at hjk
      exact hjk
    have hfront : Commute (f i) (before.map f).prod := by
      refine Commute.list_prod_right _ _ fun x hx => ?_
      obtain ⟨j, hj, rfl⟩ := List.mem_map.1 hx
      exact hpass j hj
    calc ((i :: order).map f).prod = f i * ((before ++ after).map f).prod := by
          rw [List.map_cons, List.prod_cons, ih hrest hnodup hshort]
      _ = f i * (before.map f).prod * (after.map f).prod := by
          rw [List.map_append, List.prod_append, mul_assoc]
      _ = (before.map f).prod * (f i * (after.map f).prod) := by rw [hfront.eq, mul_assoc]
      _ = ((before ++ i :: after).map f).prod := by
          rw [List.map_append, List.prod_append, List.map_cons, List.prod_cons]

/-! ## Steps as operators -/

def Step.Acts (n : ℕ) (steps : List (Step ℂ)) (A : Operator ℂ) : Prop :=
  ∀ ⦃σ : Type⦄ [DrawSource σ ℝ] (t : Trajectory ℂ σ), t.state.amplitudes.size = 2 ^ n →
    ∃ v, v.size = 2 ^ n ∧ t.run steps = t.withAmplitudes v ∧
      amplitudes v = A (amplitudes t.state.amplitudes)

namespace Step

variable {n : ℕ} {first rest : List (Step ℂ)} {A B : Operator ℂ}

theorem acts_nil (n : ℕ) : Acts n [] 1 := fun _ _ t ht => ⟨t.state.amplitudes, ht, rfl, rfl⟩

theorem Acts.append (hfirst : Acts n first A) (hrest : Acts n rest B) :
    Acts n (first ++ rest) (B * A) := by
  intro σ _ t ht
  obtain ⟨v, hv, hrun, hamp⟩ := hfirst t ht
  obtain ⟨w, hw, hrun', hamp'⟩ := hrest (t.withAmplitudes v) hv
  refine ⟨w, hw, ?_, ?_⟩
  · rw [Trajectory.run_append, hrun, hrun']
    rfl
  · rw [hamp', Module.End.mul_apply, ← hamp]
    rfl

theorem Acts.run_eq (hfirst : Acts n first A) (hrest : Acts n rest A) {σ : Type} [DrawSource σ ℝ]
    (t : Trajectory ℂ σ) (ht : t.state.amplitudes.size = 2 ^ n) : t.run first = t.run rest := by
  obtain ⟨v, hv, hrun, hamp⟩ := hfirst t ht
  obtain ⟨w, hw, hrun', hamp'⟩ := hrest t ht
  rw [hrun, hrun', eq_of_amplitudes (hv.trans hw.symm) (hamp.trans hamp'.symm)]

end Step

/-! ## Instructions as operators -/

namespace Instruction

noncomputable def operator (b : Bindings ℝ) (i : Instruction ℝ) : Operator ℂ :=
  match i.operation with
  | .gate g => g.kind.operator i.qubits (g.angles b)
  | _ => 1

theorem operator_gate {i : Instruction ℝ} {g : Gate ℝ} (hg : i.operation = .gate g)
    (b : Bindings ℝ) : i.operator b = g.kind.operator i.qubits (g.angles b) := by
  rw [operator, hg]

def IsPlain {R : Type} (i : Instruction R) : Prop := i.isConditional = false ∧ i.isMeasure = false

variable {b : Bindings ℝ} {collapse : Bool}

theorem acts_ofInstructions {n : ℕ} {l : List (Instruction ℝ)} {steps : List (Step ℂ)}
    (hacts : ∀ i ∈ l, ∀ ss, Step.ofInstruction b collapse i = .ok ss →
      Step.Acts n ss (i.operator b))
    (hsteps : Step.ofInstructions b collapse l = .ok steps) :
    Step.Acts n steps (l.map fun i => MulOpposite.op (i.operator b)).prod.unop := by
  induction l generalizing steps with
  | nil =>
    obtain rfl := Except.ok.inj hsteps
    exact Step.acts_nil n
  | cons i l ih =>
    obtain ⟨first, rest, hfirst, hrest, rfl⟩ := Step.ofInstructions_cons_iff.1 hsteps
    rw [List.map_cons, List.prod_cons, MulOpposite.unop_mul]
    exact (hacts i List.mem_cons_self first hfirst).append
      (ih (fun j hj => hacts j (List.mem_cons_of_mem _ hj)) hrest)

end Instruction

namespace Circuit

variable {c : Circuit ℝ} {b : Bindings ℝ} {collapse : Bool}

theorem Orderly.acts (h : c.Orderly) {i : Instruction ℝ} (hi : i ∈ c.instructions.toList)
    (hplain : i.IsPlain) {n : ℕ} (hn : c.width ≤ n) {steps : List (Step ℂ)}
    (hsteps : Step.ofInstruction b collapse i = .ok steps) : Step.Acts n steps (i.operator b) := by
  obtain ⟨hcondition, hmeasure⟩ := hplain
  cases hop : i.operation with
  | gate g =>
    obtain ⟨as, ks, has, hks, rfl⟩ := (Step.ofInstruction_gate_iff hop).1 hsteps
    have hfits := (h.fits hi hop).mono hn
    obtain ⟨ks', hks', himpl⟩ := hfits.lower (Kernel.isRooted_of_lower hks) as
    rw [hks] at hks'
    obtain rfl := Except.ok.inj hks'
    have hnone := Instruction.condition_of_not_isConditional hcondition hop
    rw [Instruction.operator_gate hop, Gate.angles_eq has, hnone]
    intro σ _ t ht
    exact ⟨_, (himpl _ ht).1, rfl, (himpl _ ht).2⟩
  | measure => simp [Instruction.isMeasure, hop] at hmeasure
  | barrier =>
    simp only [Step.ofInstruction, hop] at hsteps
    obtain rfl := Except.ok.inj hsteps
    rw [Instruction.operator, hop]
    exact Step.acts_nil n

theorem Orderly.commute (h : c.Orderly) {i j : Instruction ℝ} (hi : i ∈ c.instructions.toList)
    (hj : j ∈ c.instructions.toList) (hdisjoint : ∀ q ∈ j.qubits, q ∉ i.qubits)
    (hlower : ∀ k ∈ c.instructions.toList, ∃ ss : List (Step ℂ),
      Step.ofInstruction b collapse k = .ok ss) : Commute (i.operator b) (j.operator b) := by
  have hrooted : ∀ {k : Instruction ℝ} {g : Gate ℝ}, k ∈ c.instructions.toList →
      k.operation = .gate g → g.kind.IsRooted := by
    intro k g hk hg
    obtain ⟨ss, hss⟩ := hlower k hk
    obtain ⟨as, ks, -, hks, -⟩ := (Step.ofInstruction_gate_iff hg).1 hss
    exact Kernel.isRooted_of_lower hks
  cases hopi : i.operation with
  | measure | barrier =>
    rw [Instruction.operator, hopi]
    exact Commute.one_left _
  | gate g =>
    cases hopj : j.operation with
    | measure | barrier =>
      rw [Instruction.operator.eq_def b j, hopj]
      exact Commute.one_right _
    | gate g' =>
      rw [Instruction.operator_gate hopi, Instruction.operator_gate hopj]
      refine (h.fits hj hopj).commute_of_spares (hrooted hj hopj) (fun q hq => ?_) _
      exact (h.fits hi hopi).spares (hrooted hi hopi) (hdisjoint q hq) _

/-! ## Schedules -/

/-- A topological order of the operations: a list of all of them, by position, in which every edge
of the dependency graph leads forwards. -/
structure Schedules {R : Type} (c : Circuit R) (order : List ℕ) : Prop where
  perm : order.Perm (List.range c.instructions.size)
  forward : ∀ p ∈ c.graph.feeds, order.idxOf p.1 < order.idxOf p.2

def inOrder {R : Type} (c : Circuit R) (order : List ℕ) : List (Instruction R) :=
  order.filterMap fun k => c.instructions[k]?

theorem prod_inOrder {R M : Type} [Monoid M] (c : Circuit R) (f : Instruction R → M)
    (order : List ℕ) :
    ((c.inOrder order).map f).prod = (order.map fun k => c.instructions[k]?.elim 1 f).prod := by
  induction order with
  | nil => rfl
  | cons k order ih =>
    rw [List.map_cons, List.prod_cons, ← ih, inOrder, List.filterMap_cons]
    cases c.instructions[k]? with
    | none => exact (one_mul _).symm
    | some i => exact List.prod_cons

theorem mem_inOrder {R : Type} {c : Circuit R} {order : List ℕ} {i : Instruction R}
    (h : i ∈ c.inOrder order) : i ∈ c.instructions.toList := by
  obtain ⟨k, -, hk⟩ := List.mem_filterMap.1 h
  simpa using Array.mem_of_getElem? hk

theorem Orderly.pairwise_commute (h : c.Orderly) {order : List ℕ} (horder : c.Schedules order)
    (hlower : ∀ k ∈ c.instructions.toList, ∃ ss : List (Step ℂ),
      Step.ofInstruction b collapse k = .ok ss) :
    (List.range c.instructions.size).Pairwise fun i j =>
      Commute (c.instructions[i]?.elim 1 fun i => MulOpposite.op (i.operator b))
        (c.instructions[j]?.elim 1 fun i => MulOpposite.op (i.operator b)) ∨
          order.idxOf i < order.idxOf j := by
  obtain ⟨ops, hlaid, hinstructions, hindices⟩ := h.laid
  rw [← hindices, List.pairwise_map]
  have hordered := hlaid.pairwise (fun k => order.idxOf k) horder.forward
  refine hordered.imp_of_mem fun {a b} ha hb hab => ?_
  rw [getElem?_index hinstructions hindices ha, getElem?_index hinstructions hindices hb]
  by_cases hshare : ∃ q ∈ b.instruction.qubits, q ∈ a.instruction.qubits
  · obtain ⟨q, hqb, hqa⟩ := hshare
    exact .inr (hab (.qubit q) (List.mem_append_left _ (List.mem_map_of_mem hqa))
      (List.mem_append_left _ (List.mem_map_of_mem hqb)))
  · refine .inl (h.commute ?_ ?_ (fun q hqb hqa => hshare ⟨q, hqb, hqa⟩) hlower).op
    · rw [← hinstructions]
      exact List.mem_map_of_mem ha
    · rw [← hinstructions]
      exact List.mem_map_of_mem hb

/-- Every topological order of a circuit of gates without conditions and barriers can be run, and it
ends as the instructions do in the order in which they were pushed, from every start. -/
theorem Built.run_schedule {c : Circuit ℝ} (hc : c.Built)
    (hplain : ∀ i ∈ c.instructions.toList, i.IsPlain) {order : List ℕ} (horder : c.Schedules order)
    {b : Bindings ℝ} {collapse : Bool} {steps : List (Step ℂ)}
    (hsteps : Step.ofCircuit c b collapse = .ok steps) :
    ∃ steps', Step.ofInstructions b collapse (c.inOrder order) = .ok steps' ∧
      ∀ {σ : Type} [DrawSource σ ℝ] (t : Trajectory ℂ σ) {n : ℕ}, c.width ≤ n →
        t.state.amplitudes.size = 2 ^ n → t.run steps' = t.run steps := by
  have h := hc.orderly
  have hlower := Step.exists_ofInstructions_iff.1 ⟨steps, hsteps⟩
  obtain ⟨steps', hsteps'⟩ := Step.exists_ofInstructions_iff.2 fun i hi => hlower i (mem_inOrder hi)
  refine ⟨steps', hsteps', ?_⟩
  intro σ _ t n hn ht
  have hacts : ∀ i ∈ c.instructions.toList, ∀ ss, Step.ofInstruction b collapse i = .ok ss →
      Step.Acts n ss (i.operator b) := fun i hi ss hss => h.acts hi (hplain i hi) hn hss
  have hlog := Instruction.acts_ofInstructions hacts hsteps
  have hnew := Instruction.acts_ofInstructions (fun i hi => hacts i (mem_inOrder hi)) hsteps'
  have hrange : c.inOrder (List.range c.instructions.size) = c.instructions.toList := by
    obtain ⟨ops, -, hinstructions, hindices⟩ := h.laid
    rw [← hindices, ← hinstructions, inOrder, List.filterMap_map, ← List.filterMap_eq_map]
    exact List.filterMap_congr fun a ha => getElem?_index hinstructions hindices ha
  -- the products are taken in the opposite ring, where what is run first stands first
  have hprod : ((c.inOrder order).map fun i => MulOpposite.op (i.operator b)).prod =
      (c.instructions.toList.map fun i => MulOpposite.op (i.operator b)).prod := by
    rw [← hrange, prod_inOrder, prod_inOrder]
    exact prod_map_eq_of_perm _ horder.perm (horder.perm.nodup_iff.2 List.nodup_range)
      (h.pairwise_commute horder hlower)
  rw [hprod] at hnew
  exact hnew.run_eq hlog t ht

def interleaved : Circuit ℝ := (withSize "interleaved" 3 0).pushAll
  [.ofGate (.ofStandard .h) [0], .ofGate (.ofStandard (.rx (.symbol "a"))) [2],
    .ofGate (.ofStandard .cx) [0, 1], .barrier [1], .ofGate (.ofStandard .t) [2]]

theorem Built.run_schedule_interleaved :
    interleaved.Schedules [1, 4, 0, 2, 3] ∧
      ∃ steps steps' : List (Step ℂ), Step.ofCircuit interleaved [("a", 1)] true = .ok steps ∧
        Step.ofInstructions [("a", 1)] true (interleaved.inOrder [1, 4, 0, 2, 3]) = .ok steps' ∧
        ∀ t : Trajectory ℂ (ℕ → ℝ), t.state.amplitudes.size = 2 ^ 3 →
          t.run steps' = t.run steps := by
  have horder : interleaved.Schedules [1, 4, 0, 2, 3] := ⟨by decide +kernel, by decide +kernel⟩
  have hlist : interleaved.instructions.toList =
    [.ofGate (.ofStandard .h) [0], .ofGate (.ofStandard (.rx (.symbol "a"))) [2],
      .ofGate (.ofStandard .cx) [0, 1], .barrier [1], .ofGate (.ofStandard .t) [2]] := by cbv
  have hplain : ∀ i ∈ interleaved.instructions.toList, i.IsPlain := by
    rw [hlist]
    simp only [List.forall_mem_cons]
    exact ⟨⟨rfl, rfl⟩, ⟨rfl, rfl⟩, ⟨rfl, rfl⟩, ⟨rfl, rfl⟩, ⟨rfl, rfl⟩, by simp⟩
  have hangle : Expr.evaluate [("a", (1 : ℝ))] (.symbol "a") = .ok 1 := by
    simp [Expr.evaluate, Expr.symbols, Expr.collectSymbols, Ordered.insert, Bindings.binds,
      Expr.eval?, Scalar.isFinite]
  have hlower : ∀ i ∈ interleaved.instructions.toList, ∃ steps : List (Step ℂ),
      Step.ofInstruction [("a", 1)] true i = .ok steps := by
    rw [hlist]
    simp only [List.forall_mem_cons]
    refine ⟨⟨_, rfl⟩, ⟨_, (Step.ofInstruction_gate_iff rfl).2 ⟨[1], _, ?_, rfl, rfl⟩⟩, ⟨_, rfl⟩,
      ⟨_, rfl⟩, ⟨_, rfl⟩, by simp⟩
    exact Exact.angles_ok_iff.2 (.cons hangle .nil)
  obtain ⟨steps, hsteps⟩ := Step.exists_ofInstructions_iff.2 hlower
  obtain ⟨steps', hsteps', hrun⟩ :=
    Built.run_schedule ((built_withSize _ 3 0).pushAll _) hplain horder hsteps
  exact ⟨horder, steps, steps', hsteps, hsteps', fun t ht => hrun t (by decide +kernel) ht⟩

end Circuit

end Ancilla
