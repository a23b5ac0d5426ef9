import Ancilla.Proofs.Circuit.Threads

/-!
Refused builder calls, and circuits that are finished. A refused call leaves a circuit as it was,
except that a refused measurement keeps the classical bit it was to fill: the bit and its wire are
added before the instruction is checked. So a finished circuit never gains an instruction, a qubit
or an allocation event, but it gains one classical bit for each measurement that it refuses.
-/

namespace Ancilla

variable {R : Type}

namespace Circuit

/-! ## Builder calls -/

inductive BuilderCall (R : Type)
  | push (i : Instruction R)
  | gate (g : Gate R) (qubits : List QubitId)
  | standard (g : Standard R) (qubits : List QubitId)
  | measure (q : QubitId)
  | barrier (qubits : List QubitId)

namespace BuilderCall

def perform : BuilderCall R → Circuit R → Reply CircuitError (Circuit R) Unit
  | push i, c => c.push i
  | gate g qubits, c => c.gate g qubits
  | standard g qubits, c => c.standard g qubits
  | measure q, c => ((c.measure q).1.map fun _ => (), (c.measure q).2)
  | barrier qubits, c => c.barrier qubits

def performAll : List (BuilderCall R) → Circuit R → List (Except CircuitError Unit) × Circuit R
  | [], c => ([], c)
  | b :: bs, c =>
    let (answer, c) := b.perform c
    let (answers, c) := performAll bs c
    (answer :: answers, c)

def measured? : BuilderCall R → Option QubitId
  | measure q => some q
  | _ => none

end BuilderCall

/-! ## Classical bits -/

def addMeasured (c : Circuit R) (qs : List QubitId) : Circuit R :=
  qs.foldl (fun c q => (c.addClbit (some q)).2) c

@[simp]
theorem addMeasured_nil (c : Circuit R) : c.addMeasured [] = c := rfl

theorem addMeasured_append (c : Circuit R) (qs ps : List QubitId) :
    c.addMeasured (qs ++ ps) = (c.addMeasured qs).addMeasured ps := List.foldl_append

def Numbered (c : Circuit R) : Prop := ∀ b, .clbit b ∈ c.graph.wireList → b < c.numClbits

theorem Built.numbered {c : Circuit R} (h : c.Built) : c.Numbered := by
  induction h with
  | new name =>
    exact fun b hb => absurd hb (by simp [Circuit.new, WireGraph.wireList, WireGraph.empty])
  | @registerQubit c _ q ih =>
    obtain ⟨-, hsame⟩ | ⟨-, hnew⟩ := c.registerQubit_cases q
    · rw [hsame]
      exact ih
    · rw [hnew]
      intro b hb
      rcases (WireGraph.wireList_addQubit _ _ _).1 hb with hb | hb
      · exact ih b hb
      · exact absurd hb (by simp)
  | recordRelease _ qs ih => exact ih
  | @addClbit c _ source ih =>
    intro b hb
    have hsize : (c.addClbit source).2.numClbits = c.numClbits + 1 := Array.size_push _
    rcases (WireGraph.wireList_addClbit _ _ _).1 hb with hb | hb
    · exact hsize ▸ Nat.lt_succ_of_lt (ih b hb)
    · rw [hsize, Wire.clbit.inj hb]
      exact Nat.lt_succ_self _
  | @push c h i ih =>
    intro b hb
    rw [(push_eq c i).1] at hb
    rcases push_cases h.orderly.spliceable i with ⟨e, hpush⟩ | ⟨g, -, hpush⟩ <;>
      rw [hpush] <;> exact ih b hb
  | finish _ ih => exact ih

/-- Nothing changes but that a classical bit is added for each of some qubits, with its wire. -/
structure Gains (c c' : Circuit R) (qs : List QubitId) : Prop where
  name : c'.name = c.name
  qubits : c'.qubits = c.qubits
  clbits : c'.clbits.toList =
    c.clbits.toList ++ (qs.zipIdx c.numClbits).map fun p => ⟨p.2, some p.1⟩
  instructions : c'.instructions = c.instructions
  wires : c'.graph.wireList =
    c.graph.wireList ++ (List.range' c.numClbits qs.length).map Wire.clbit
  operations : c'.graph.numOps = c.graph.numOps
  timeline : c'.timeline = c.timeline
  isFinished : c'.isFinished = c.isFinished

theorem Numbered.addClbit_wires {c : Circuit R} (h : c.Numbered) (source : Option QubitId) :
    (c.addClbit source).2.graph.wireList = c.graph.wireList ++ [.clbit c.numClbits] ∧
      (c.addClbit source).2.graph.numOps = c.graph.numOps := by
  have hnew : c.graph.hasWire (.clbit c.numClbits) = false := by
    rw [← Bool.not_eq_true, WireGraph.hasWire_iff]
    exact fun hmem => absurd (h _ hmem) (lt_irrefl _)
  have hgraph : (c.addClbit source).2.graph =
      { c.graph.addWire (.clbit c.numClbits) with numClbits := c.graph.numClbits + 1 } := by
    show c.graph.addClbit c.numClbits = _
    unfold WireGraph.addClbit
    rw [hnew]
    rfl
  rw [hgraph]
  exact ⟨WireGraph.wireList_addWire _ _, rfl⟩

theorem Built.gains_addMeasured {c : Circuit R} (h : c.Built) (qs : List QubitId) :
    c.Gains (c.addMeasured qs) qs := by
  induction qs generalizing c with
  | nil => constructor <;> simp
  | cons q qs ih =>
    have hnext := ih (h.addClbit (some q))
    have hsize : (c.addClbit (some q)).2.numClbits = c.numClbits + 1 := Array.size_push _
    obtain ⟨hwires, hops⟩ := h.numbered.addClbit_wires (some q)
    constructor
    · exact hnext.name
    · exact hnext.qubits
    · refine hnext.clbits.trans ?_
      rw [hsize]
      simp [Circuit.addClbit, numClbits]
    · exact hnext.instructions
    · refine hnext.wires.trans ?_
      rw [hwires, hsize, List.length_cons, List.range'_succ]
      simp
    · exact hnext.operations.trans hops
    · exact hnext.timeline
    · exact hnext.isFinished

theorem Built.addMeasured_eq_iff {c : Circuit R} (h : c.Built) (qs : List QubitId) :
    c.addMeasured qs = c ↔ qs = [] := by
  constructor
  · intro heq
    have hclbits := congrArg List.length (h.gains_addMeasured qs).clbits
    rw [heq] at hclbits
    simp only [List.length_append, List.length_map, List.length_zipIdx] at hclbits
    exact List.eq_nil_of_length_eq_zero (by omega)
  · rintro rfl
    rfl

/-! ## Refusals -/

theorem Built.push_error {c c' : Circuit R} (h : c.Built) {i : Instruction R} {e : CircuitError}
    (hpush : c.push i = (.error e, c')) : c' = c := by
  rcases push_cases h.orderly.spliceable i with ⟨e', hrefused⟩ | ⟨g, -, haccepted⟩
  · rw [hrefused] at hpush
    exact (Prod.mk.inj hpush).2.symm
  · rw [haccepted] at hpush
    exact absurd (Prod.mk.inj hpush).1 (by simp)

theorem Built.measure_error {c c' : Circuit R} (h : c.Built) {q : QubitId} {e : CircuitError}
    (hmeasure : c.measure q = (.error e, c')) : c' = (c.addClbit (some q)).2 := by
  unfold Circuit.measure at hmeasure
  simp only [] at hmeasure
  split at hmeasure
  · exact absurd (Prod.mk.inj hmeasure).1 (by simp)
  · next hpush =>
    rw [← (Prod.mk.inj hmeasure).2]
    exact (h.addClbit (some q)).push_error hpush

theorem Built.perform_error {c c' : Circuit R} (h : c.Built) {b : BuilderCall R}
    {e : CircuitError} (hcall : b.perform c = (.error e, c')) :
    c' = c.addMeasured b.measured?.toList := by
  cases b with
  | measure q =>
    obtain ⟨hanswer, rfl⟩ := Prod.mk.inj hcall
    cases hmeasure : (c.measure q).1 with
    | ok b =>
      rw [hmeasure] at hanswer
      exact absurd hanswer (by simp [Except.map])
    | error e' => exact h.measure_error (Prod.ext hmeasure rfl)
  | push i => exact h.push_error hcall
  | gate g qubits => exact h.push_error hcall
  | standard g qubits => exact h.push_error hcall
  | barrier qubits => exact h.push_error hcall

theorem push_finished {c : Circuit R} (h : c.isFinished = true) (i : Instruction R) :
    c.push i = (.error (.finished c.name), c) := by
  unfold Circuit.push
  rw [if_pos h]

theorem perform_finished {c : Circuit R} (h : c.isFinished = true) (b : BuilderCall R) :
    b.perform c = (.error (.finished c.name), c.addMeasured b.measured?.toList) := by
  cases b with
  | measure q =>
    have hbit : (c.addClbit (some q)).2.isFinished = true := h
    have hmeasure : c.measure q = (.error (.finished c.name), (c.addClbit (some q)).2) := by
      unfold Circuit.measure
      simp only [push_finished hbit]
      rfl
    rw [BuilderCall.perform, hmeasure]
    rfl
  | push i => exact push_finished h i
  | gate g qubits => exact push_finished h _
  | standard g qubits => exact push_finished h _
  | barrier qubits => exact push_finished h _

theorem isFinished_addMeasured (c : Circuit R) (qs : List QubitId) :
    (c.addMeasured qs).isFinished = c.isFinished ∧ (c.addMeasured qs).name = c.name := by
  induction qs generalizing c with
  | nil => exact ⟨rfl, rfl⟩
  | cons q qs ih => exact ih (c.addClbit (some q)).2

theorem performAll_finished {c : Circuit R} (h : c.isFinished = true)
    (calls : List (BuilderCall R)) : BuilderCall.performAll calls c =
      (calls.map fun _ => .error (.finished c.name),
        c.addMeasured (calls.filterMap BuilderCall.measured?)) := by
  induction calls generalizing c with
  | nil => rfl
  | cons b calls ih =>
    obtain ⟨hfinished, hname⟩ := isFinished_addMeasured c b.measured?.toList
    have hlist : (b :: calls).filterMap BuilderCall.measured? =
        b.measured?.toList ++ calls.filterMap BuilderCall.measured? := by
      rw [List.filterMap_cons]
      cases b.measured? <;> rfl
    simp only [BuilderCall.performAll, perform_finished h, ih (hfinished.trans h), hname, hlist,
      addMeasured_append, List.map_cons]

/-- A refused call changes a circuit exactly if it is a measurement, and then by a classical bit
with its wire alone; a finished circuit refuses all calls and gains such bits and nothing else. -/
theorem Built.refusals_keep {c : Circuit R} (h : c.Built) :
    (∀ (b : BuilderCall R) (e : CircuitError) (c' : Circuit R), b.perform c = (.error e, c') →
      c.Gains c' b.measured?.toList ∧ (c' = c ↔ b.measured? = none)) ∧
    (c.isFinished = true → ∀ (calls : List (BuilderCall R)),
      ∃ c', BuilderCall.performAll calls c = (calls.map fun _ => .error (.finished c.name), c') ∧
        c.Gains c' (calls.filterMap BuilderCall.measured?) ∧
        (c' = c ↔ ∀ b ∈ calls, b.measured? = none)) := by
  constructor
  · intro b e c' hcall
    obtain rfl := h.perform_error hcall
    refine ⟨h.gains_addMeasured _, ?_⟩
    rw [h.addMeasured_eq_iff]
    exact Option.toList_eq_nil_iff
  · intro hfinished calls
    refine ⟨_, performAll_finished hfinished calls, h.gains_addMeasured _, ?_⟩
    rw [h.addMeasured_eq_iff, List.filterMap_eq_nil_iff]

def sealed : Circuit Float := (withSize "sealed" 1 0).finish

theorem built_sealed : sealed.Built := (built_withSize "sealed" 1 0).finish

theorem refusals_keep_sealed :
    sealed.Gains (sealed.measure 0).2 [0] ∧
      ∃ c', BuilderCall.performAll [.standard .h [0], .measure 0, .barrier [0], .measure 5] sealed =
        (List.replicate 4 (.error (.finished "sealed")), c') ∧ sealed.Gains c' [0, 5] := by
  obtain ⟨hrefused, hfinished⟩ := built_sealed.refusals_keep
  have hcall : BuilderCall.perform (.measure 0) sealed =
      (.error (.finished "sealed"), (sealed.measure 0).2) := Prod.ext (by decide +kernel) rfl
  have hname : sealed.name = "sealed" := by decide +kernel
  obtain ⟨c', hcalls, hgains, -⟩ := hfinished (by rfl)
    [.standard .h [0], .measure 0, .barrier [0], .measure 5]
  rw [hname] at hcalls
  exact ⟨(hrefused _ _ _ hcall).1, c', hcalls, hgains⟩

theorem refused_measure_changes_sealed : sealed.Built ∧ sealed.isFinished = true ∧
    (sealed.measure 0).1 = .error (.finished "sealed") ∧
    sealed.numClbits = 0 ∧ (sealed.measure 0).2.numClbits = 1 ∧
    sealed.graph.numClbits = 0 ∧ (sealed.measure 0).2.graph.numClbits = 1 := by
  refine ⟨built_sealed, ?_⟩
  decide +kernel

end Circuit

end Ancilla
