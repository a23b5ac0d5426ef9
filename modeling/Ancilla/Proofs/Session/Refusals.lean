import Ancilla.Proofs.Session.Equipment

/-!
What a refused emission leaves behind. The circuit stays as it was, and so do the qubits in use,
their owners and the exports. But an instruction passes all open frames before the circuit looks at
its operands: where the circuit is what refuses it, the frames have counted, marked and kept it,
and its qubits count as entangled, as if it had been taken.
-/

namespace Ancilla

variable {R : Type}

/-! ## Routing -/

namespace Frame

variable {f : Frame R} {i : Instruction R} {b : Bool}

theorem pass_of_not_measure (f : Frame R) (hm : i.isMeasure = false) (b : Bool) :
    ∃ f' o, f.pass i b = .ok (f', o) := by
  have hcontrols : ∀ cs, ∃ j, i.addControls cs = .ok j := by
    intro cs
    unfold Instruction.addControls
    unfold Instruction.isMeasure at hm
    cases hop : i.operation with
    | measure => simp [hop] at hm
    | _ => exact ⟨_, rfl⟩
  have hcondition : ∀ c, ∃ j, i.addCondition c = .ok j := by
    intro c
    unfold Instruction.addCondition
    unfold Instruction.isMeasure at hm
    cases hop : i.operation with
    | measure => simp [hop] at hm
    | _ => exact ⟨_, rfl⟩
  unfold pass
  cases f.environment with
  | conjugation =>
    cases f.phase with
    | compute => simp [hm]
    | act => simp
  | iteration => exact ⟨_, _, rfl⟩
  | controlled cs =>
    obtain ⟨j, hj⟩ := hcontrols cs
    cases b with
    | true => exact ⟨_, _, rfl⟩
    | false => simp [hj, bind, Except.bind, pure, Except.pure]
  | classical c =>
    obtain ⟨j, hj⟩ := hcondition c
    cases b with
    | true => exact ⟨_, _, rfl⟩
    | false => simp [hj, bind, Except.bind, pure, Except.pure]
  | inversion => simp [hm]
  | scope => exact ⟨_, _, rfl⟩

theorem pass_of_open (hc : ∀ cs, f.environment ≠ .controlled cs)
    (hk : ∀ c, f.environment ≠ .classical c) (hi : f.environment ≠ .inversion)
    (hf : f.isComputing = false) : ∃ f', f.pass i b = .ok (f', some (i, b)) := by
  unfold pass
  cases he : f.environment with
  | conjugation =>
    cases hp : f.phase with
    | compute => simp [isComputing, he, hp] at hf
    | act => simp
  | iteration => exact ⟨_, rfl⟩
  | controlled cs => exact absurd he (hc cs)
  | classical c => exact absurd he (hk c)
  | inversion => exact absurd he hi
  | scope => exact ⟨_, rfl⟩

end Frame

namespace FrameStack

theorem routeThrough_of_not_measure (fs : List (Frame R)) {i : Instruction R}
    (hm : i.isMeasure = false) (b : Bool) : ∃ o, (routeThrough fs i b).1 = .ok o := by
  induction fs generalizing i b with
  | nil => exact ⟨some i, rfl⟩
  | cons f fs ih =>
    obtain ⟨f', o, hp⟩ := f.pass_of_not_measure hm b
    unfold routeThrough
    rcases o with _ | ⟨j, c⟩
    · exact ⟨none, by rw [hp]⟩
    · have hj := (Frame.passes_of_pass hp).isMeasure_out.trans hm
      obtain ⟨o, ho⟩ := ih hj c
      exact ⟨o, by rw [hp]; exact ho⟩

theorem routeThrough_of_open {fs : List (Frame R)} {i : Instruction R} {b : Bool}
    (h : ∀ f ∈ fs, (∀ cs, f.environment ≠ .controlled cs) ∧ (∀ c, f.environment ≠ .classical c) ∧
      f.environment ≠ .inversion ∧ f.isComputing = false) :
    (routeThrough fs i b).1 = .ok (some i) := by
  induction fs with
  | nil => rfl
  | cons f fs ih =>
    obtain ⟨hc, hk, hi, hf⟩ := h f List.mem_cons_self
    obtain ⟨f', hp⟩ := Frame.pass_of_open (i := i) (b := b) hc hk hi hf
    unfold routeThrough
    rw [hp]
    exact ih fun g hg => h g (List.mem_cons_of_mem _ hg)

end FrameStack

namespace Session

variable {s s' : Session R} {i : Instruction R} {e : SessionError}

/-- The session behind an instruction that has passed all frames and is not taken. -/
def passedOnly (s : Session R) (frames : FrameStack R) (j : Instruction R) : Session R :=
  { s with
    allocator := j.qubits.foldl Allocator.markEntangled s.allocator
    frames := frames.map fun f => { f with emitted := f.emitted + 1 } }

theorem deliver_error (hc : s.circuit.Accepting) (h : s.deliver i = (.error e, s')) :
    ∃ err, e = .circuit err ∧ s.circuit.graph.fault? i = some err ∧
      s' = s.passedOnly s.frames i := by
  unfold deliver at h
  simp only [onCircuit_eq] at h
  rcases hpush : s.circuit.push i with ⟨err | _, c⟩
  · obtain ⟨hfault, rfl⟩ := hc.push_error hpush
    simp only [hpush, refuse, Prod.mk.injEq, Except.error.injEq] at h
    exact ⟨err, h.1.symm, hfault, h.2.symm⟩
  · simp [hpush] at h

theorem emit_error (hc : s.circuit.Accepting) (hm : i.isMeasure = false)
    (h : s.emit i = (.error e, s')) :
    (s' = s ∧ ∀ err, e ≠ .circuit err) ∨
      ∃ j frames err, s.frames.route i false = (.ok (some j), frames) ∧ e = .circuit err ∧
        s.circuit.graph.fault? j = some err ∧ s' = s.passedOnly frames j := by
  obtain hrefused | ⟨-, heq⟩ := s.emit_cases i
  · exact .inl (hrefused.error h)
  · have hsend := heq.symm.trans h
    obtain ⟨o, ho⟩ := FrameStack.routeThrough_of_not_measure s.frames.toList hm false
    rw [← (FrameStack.route_eq s.frames i false).1] at ho
    unfold send at hsend
    rcases hr : s.frames.route i false with ⟨r, frames⟩
    rw [hr] at ho
    obtain rfl : r = .ok o := ho
    simp only [hr] at hsend
    cases o with
    | none => simp at hsend
    | some j =>
      obtain ⟨err, he, hfault, hs'⟩ := deliver_error (s := { s with frames }) hc hsend
      exact .inr ⟨j, frames, err, rfl, he, hfault, hs'⟩

theorem open_of_measureFault (h : s.measureFault? = none) {f : Frame R}
    (hf : f ∈ s.frames.toList) :
    (∀ cs, f.environment ≠ .controlled cs) ∧ (∀ c, f.environment ≠ .classical c) ∧
      f.environment ≠ .inversion ∧ f.isComputing = false := by
  unfold measureFault? at h
  simp only [] at h
  split at h
  · simp at h
  · next hcontrolling =>
    rw [Option.map_eq_none_iff] at h
    have hc := List.find?_eq_none.1 hcontrolling f hf
    have hu := List.find?_eq_none.1 h f hf
    simp only [Bool.or_eq_true, decide_eq_true_eq, not_or, Bool.not_eq_true] at hu
    refine ⟨fun cs he => ?_, fun c he => ?_, hu.1, hu.2⟩
    · simp [he] at hc
    · simp [he] at hc

theorem measure_fault?_eq_none {q : QubitId} (hq : .qubit q ∈ s.circuit.graph.wireList) :
    (s.circuit.addClbit (some q)).2.graph.fault?
      (.measure q (s.circuit.addClbit (some q)).1 : Instruction R) = none := by
  rw [WireGraph.fault?_eq_none_iff]
  refine ⟨rfl, List.nodup_singleton q, fun w hw => ?_⟩
  have hmem : w = .qubit q ∨ w = .clbit s.circuit.clbits.size := by
    simpa [WireGraph.wires, Instruction.measure, Instruction.classicalWires, Circuit.addClbit,
      Instruction.condition?, Instruction.gate?, Ordered.ofList, Ordered.union,
      Ordered.insert] using hw
  show w ∈ (s.circuit.graph.addClbit s.circuit.clbits.size).wireList
  rw [WireGraph.wireList_addClbit]
  rcases hmem with rfl | rfl
  · exact .inl hq
  · exact .inr rfl

theorem Equipped.measure_error (h : s.Equipped) {q : QubitId}
    (herr : s.measure q = (.error e, s')) : s' = s ∧ ∀ err, e ≠ .circuit err := by
  obtain hrefused | ⟨hp, hfault, hlive, hm⟩ := s.measure_cases q
  · exact hrefused.error herr
  · -- the measurement passes every frame and the circuit takes it
    have hroute := FrameStack.routeThrough_of_open (b := false)
      (i := (.measure q (s.circuit.addClbit (some q)).1 : Instruction R))
      fun f hf => open_of_measureFault hfault hf
    rw [← (FrameStack.route_eq s.frames _ _).1] at hroute
    have hpush := ((h.accepting.addClbit (some q)).push_of_none
      (measure_fault?_eq_none (h.wired q hlive))).1
    have hsend : ({ s with circuit := (s.circuit.addClbit (some q)).2 }.send
        (.measure q (s.circuit.addClbit (some q)).1) false).1 = .ok () := by
      unfold send
      rw [show s.frames.route _ false = (.ok (some _), _) from Prod.ext hroute rfl]
      simp only [deliver, onCircuit_eq]
      rw [show (s.circuit.addClbit (some q)).2.push _ = (.ok (), _) from Prod.ext hpush rfl]
    have hemit := emit_of_live (s := { s with circuit := (s.circuit.addClbit (some q)).2 })
      (i := .measure q (s.circuit.addClbit (some q)).1) hp (by simpa [Instruction.measure] using hlive)
    have hanswer := congrArg Prod.fst ((hm _ hemit).symm.trans herr)
    simp only [hsend, Except.map] at hanswer
    exact nomatch hanswer

theorem passedOnly_ne {frames : FrameStack R} {j : Instruction R}
    (h : s.frames.route i false = (.ok (some j), frames)) : s.passedOnly frames j ≠ s := by
  have htop : frames.top.emitted = s.frames.top.emitted := by
    unfold FrameStack.route at h
    rcases hp : s.frames.top.pass i false with e | ⟨f, _ | ⟨k, b⟩⟩
    · simp [hp] at h
    · simp [hp] at h
    · simp only [hp, Prod.mk.injEq] at h
      rw [← h.2]
      obtain ⟨_, _, _, hshape⟩ := (Frame.passes_of_pass hp).shape
      rw [hshape]
  intro heq
  have hcounted := congrArg (fun s : Session R => s.frames.top.emitted) heq
  simp only [passedOnly, FrameStack.map, htop] at hcounted
  omega

theorem passedOnly_kin {frames : FrameStack R} {j : Instruction R}
    (h : s.frames.route i false = (.ok (some j), frames)) :
    List.Forall₂ Frame.Kin s.frames.toList (s.passedOnly frames j).frames.toList := by
  have hroute := FrameStack.routeThrough_kin s.frames.toList i false
  rw [← (FrameStack.route_eq s.frames i false).2, h] at hroute
  refine kin_trans hroute ?_
  show List.Forall₂ Frame.Kin frames.toList (frames.map _).toList
  rw [FrameStack.toList_map]
  refine forall₂_map ?_ _
  exact fun f => ⟨_, _, [], _, rfl⟩

end Session

namespace Call

def IsEmission : Call R → Prop
  | apply _ _ | barrier _ | measure _ => True
  | _ => False

def sent? : Call R → Option (Instruction R)
  | apply g qs => some (.ofGate g qs)
  | barrier qs => some (.barrier qs)
  | _ => none

end Call

namespace Session

variable [Scalar R] {s s' : Session R} {e : SessionError}

theorem Reachable.emission_error (hs : s.Reachable) {c : Call R} (hc : c.IsEmission)
    (h : c.perform s = (.error e, s')) :
    (s' = s ∧ ∀ err, e ≠ .circuit err) ∨
      ∃ i j frames err, c.sent? = some i ∧ s.frames.route i false = (.ok (some j), frames) ∧
        e = .circuit err ∧ s.circuit.graph.fault? j = some err ∧ s' = s.passedOnly frames j := by
  have hequipped := hs.equipped
  cases c with
  | apply g qs =>
    refine (emit_error hequipped.accepting rfl h).imp_right ?_
    rintro ⟨j, frames, err, hroute⟩
    exact ⟨.ofGate g qs, j, frames, err, rfl, hroute⟩
  | barrier qs =>
    refine (emit_error hequipped.accepting rfl h).imp_right ?_
    rintro ⟨j, frames, err, hroute⟩
    exact ⟨.barrier qs, j, frames, err, rfl, hroute⟩
  | measure q =>
    rcases hm : s.measure q with ⟨e' | b, s₁⟩
    · simp only [Call.perform, hm, Except.map, Prod.mk.injEq, Except.error.injEq] at h
      obtain ⟨rfl, rfl⟩ := h
      exact .inl (hequipped.measure_error hm)
    · simp [Call.perform, hm, Except.map] at h
  | _ => exact absurd hc (by simp [Call.IsEmission])

/-- A refused emission leaves the circuit, the numbers of the allocator, the qubits in use and what
frames own and export. It leaves the whole session exactly if it is not the circuit that refuses;
if it is, the session is the one behind an accepted emission but for the circuit. -/
theorem Reachable.refused_emission (hs : s.Reachable) {c : Call R} (hc : c.IsEmission)
    (h : c.perform s = (.error e, s')) :
    s'.circuit = s.circuit ∧
      s'.allocator = { s.allocator with states := s'.allocator.states } ∧
      (∀ q, s'.allocator.isLive q = s.allocator.isLive q) ∧
      List.Forall₂ Frame.Kin s.frames.toList s'.frames.toList ∧
      (s' = s ↔ ∀ err, e ≠ .circuit err) ∧
      ∀ err, e = .circuit err → ∃ i j frames, c.sent? = some i ∧
        s.frames.route i false = (.ok (some j), frames) ∧ s.circuit.graph.fault? j = some err ∧
        s' = { s with
          allocator := j.qubits.foldl Allocator.markEntangled s.allocator
          frames := frames.map fun f => { f with emitted := f.emitted + 1 } } := by
  rcases hs.emission_error hc h with ⟨rfl, hne⟩ | ⟨i, j, frames, err, hi, hroute, rfl, hfault, rfl⟩
  · exact ⟨rfl, rfl, fun _ => rfl, kin_refl _, ⟨fun _ => hne, fun _ => rfl⟩,
      fun err he => absurd he (hne err)⟩
  · refine ⟨rfl, Allocator.foldl_markEntangled_eq s.allocator j.qubits,
      (Allocator.foldl_markEntangled_spec hs.sound.allocator j.qubits).2, passedOnly_kin hroute,
      ⟨fun heq => absurd heq (passedOnly_ne hroute), fun hne => absurd rfl (hne err)⟩, ?_⟩
    intro err' he
    obtain rfl := SessionError.circuit.inj he
    exact ⟨i, j, frames, hi, hroute, hfault, rfl⟩

theorem Reachable.refused_emission_in_conjugation :
    ∃ s s' : Session Float, s = (Session.new {}).after
        [.allocate 2 "a", .enter .conjugation "c", .apply (.ofStandard .h) [0]] ∧
      (Call.apply (.ofStandard .cx) [1, 1]).perform s =
        (.error (.circuit (.duplicateQubit 1 (some "cx"))), s') ∧
      s'.circuit = s.circuit ∧ (s' = s ↔ ∀ err,
        SessionError.circuit (.duplicateQubit 1 (some "cx")) ≠ .circuit err) ∧
      s.frames.top.log.length = 1 ∧ s'.frames.top.log.length = 2 := by
  have hreach := (Reachable.new (R := Float) {}).after
    [.allocate 2 "a", .enter .conjugation "c", .apply (.ofStandard .h) [0]]
  have herror : ((Call.apply (.ofStandard .cx) [1, 1]).perform ((Session.new {}).after
      [.allocate 2 "a", .enter .conjugation "c", .apply (.ofStandard .h) [0]] :
        Session Float)).1 = .error (.circuit (.duplicateQubit 1 (some "cx"))) := by
    decide +kernel
  have hrefused := hreach.refused_emission (c := .apply (.ofStandard .cx) [1, 1]) trivial
    (Prod.ext herror rfl)
  exact ⟨_, _, rfl, Prod.ext herror rfl, hrefused.1, hrefused.2.2.2.2.1, by decide +kernel,
    by decide +kernel⟩

theorem refused_emission_leaves_marks :
    ∃ s s' : Session Float, s = (Session.new {}).after [.allocate 2 "a"] ∧
      s.apply (.ofStandard .cx) [0, 0] =
        (.error (.circuit (.duplicateQubit 0 (some "cx"))), s') ∧
      s.isClean 0 = true ∧ s'.isClean 0 = false ∧
      s.allocator.state 0 = .allocated ∧ s'.allocator.state 0 = .entangled ∧
      s.frames.top.emitted = 0 ∧ s'.frames.top.emitted = 1 := by
  refine ⟨_, (((Session.new {}).after [.allocate 2 "a"] : Session Float).apply
    (.ofStandard .cx) [0, 0]).2, rfl, Prod.ext ?_ rfl, ?_⟩
  · decide +kernel
  · decide +kernel

end Session

end Ancilla
