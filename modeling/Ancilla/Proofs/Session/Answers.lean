import Ancilla.Proofs.Allocator
import Ancilla.Session.Basic

/-!
What the calls of a session answer. Each call either is refused, and leaves the session as it was, or
does one thing. What holds of a call is derived from these two cases, so that the order of its checks
matters here only. Closing an environment can end in more ways, and they are told apart elsewhere.
-/

namespace Ancilla.Session

variable {R α : Type} {s t : Session R} {qs : List QubitId}

theorem onCircuit_eq (s : Session R) (step : Circuit R → α × Circuit R) :
    s.onCircuit step = ((step s.circuit).1, { s with circuit := (step s.circuit).2 }) := rfl

/-- A refusal: the session is as it was, and the circuit had no part in it. -/
def Refuses (s : Session R) (a : Answer R α) : Prop :=
  ∃ e, (∀ err, e ≠ .circuit err) ∧ a = (.error e, s)

theorem refuses_refuse {e : SessionError} (he : ∀ err, e ≠ .circuit err) :
    s.Refuses (s.refuse e : Answer R α) := ⟨e, he, rfl⟩

namespace Refuses

variable {a : Answer R α}

theorem snd (h : s.Refuses a) : a.2 = s := by
  obtain ⟨e, -, rfl⟩ := h
  rfl

theorem not_ok (h : s.Refuses a) {x : α} (hok : a = (.ok x, t)) : False := by
  obtain ⟨e, -, rfl⟩ := h
  exact nomatch (Prod.mk.inj hok).1

theorem error {e : SessionError} (h : s.Refuses a) (heq : a = (.error e, t)) :
    t = s ∧ ∀ err, e ≠ .circuit err := by
  obtain ⟨e', he, rfl⟩ := h
  obtain ⟨hsame, rfl⟩ := Prod.mk.inj heq
  exact ⟨rfl, Except.error.inj hsame ▸ he⟩

theorem map {β : Type} (h : s.Refuses a) (f : α → β) : s.Refuses ((a.1.map f, a.2) : Answer R β) := by
  obtain ⟨e, he, rfl⟩ := h
  exact ⟨e, he, rfl⟩

end Refuses

/-! ## Qubits -/

def granted (s : Session R) (qs : List QubitId) (a : Allocator) (name : String) : Session R :=
  { s with
    allocator := a
    circuit := qs.zipIdx.foldl (fun c p => c.registerQubit ⟨p.1, some name, some p.2⟩) s.circuit
    frames := s.frames.modifyTop fun f => f.own qs }

theorem allocate_cases (s : Session R) (count : ℕ) (name : String) :
    s.Refuses (s.allocate count name) ∨ ∃ qs a, s.isPoisoned = false ∧
      (s.frames.any fun f => f.environment = .inversion) = false ∧
      s.allocator.allocate count = (.ok qs, a) ∧
      s.allocate count name = (.ok qs, s.granted qs a name) := by
  unfold Session.allocate
  split
  · exact .inl (refuses_refuse (by simp))
  · next hp =>
    split
    · exact .inl (refuses_refuse (by simp))
    · next hinversion =>
      rcases ha : s.allocator.allocate count with ⟨e | qs, a⟩
      · obtain rfl := Allocator.allocate_error ha
        exact .inl (refuses_refuse (by simp))
      · exact .inr ⟨qs, a, by simpa using hp, by simpa using hinversion, rfl, rfl⟩

theorem allocate_of_grant {count : ℕ} {a : Allocator} (hp : s.isPoisoned = false)
    (hinversion : (s.frames.any fun f => f.environment = .inversion) = false)
    (ha : s.allocator.allocate count = (.ok qs, a)) (name : String) :
    s.allocate count name = (.ok qs, s.granted qs a name) := by
  unfold Session.allocate
  rw [if_neg (by simp [hp]), if_neg (by simp [hinversion])]
  simp only [ha]
  rfl

theorem granted_of_allocate {count : ℕ} {name : String} (h : s.allocate count name = (.ok qs, t)) :
    ∃ a, s.allocator.allocate count = (.ok qs, a) ∧ t = s.granted qs a name := by
  obtain hrefused | ⟨qs', a, -, -, ha, heq⟩ := s.allocate_cases count name
  · exact (hrefused.not_ok h).elim
  · obtain ⟨hqs, rfl⟩ := Prod.mk.inj (heq.symm.trans h)
    obtain rfl := Except.ok.inj hqs
    exact ⟨a, ha, rfl⟩

theorem length_allocate {count : ℕ} {name : String} (h : s.allocate count name = (.ok qs, t)) :
    qs.length = count := by
  obtain ⟨a, ha, -⟩ := granted_of_allocate h
  exact Allocator.length_allocate ha

theorem references_of_pending
    (h : (qs.findSome? fun q => (s.frames.toList.reverse.find? fun f => f.references q).map
      fun f => (q, f.environment.name)) = none) {q : QubitId} (hq : q ∈ qs) :
    ∀ f ∈ s.frames.toList, f.references q = false := by
  intro f hf
  have := List.findSome?_eq_none_iff.1 h q hq
  rw [Option.map_eq_none_iff, List.find?_eq_none] at this
  simpa using this f (List.mem_reverse.2 hf)

theorem release_cases (s : Session R) (qs : List QubitId) :
    s.Refuses (s.release qs) ∨
      (∀ q ∈ qs, ∀ f ∈ s.frames.toList, f.references q = false ∧ f.touched.contains q = false) ∧
        s.release qs = s.reclaim qs := by
  unfold Session.release
  split
  · exact .inl (refuses_refuse (by simp))
  · simp only []
    split
    · exact .inl (refuses_refuse (by simp))
    · next hpending =>
      split
      · next hdirty =>
        refine .inr ⟨fun q hq f hf => ⟨references_of_pending hpending hq f hf, ?_⟩, rfl⟩
        have hclean := List.filter_eq_nil_iff.1 hdirty q hq
        simp only [isClean, FrameStack.any, Bool.not_not, Bool.not_eq_true] at hclean
        simpa using List.any_eq_false.1 hclean f hf
      · exact .inl (refuses_refuse (by simp))

theorem release_ok (h : s.release qs = (.ok (), t)) :
    (∀ q ∈ qs, ∀ f ∈ s.frames.toList, f.references q = false ∧ f.touched.contains q = false) ∧
      s.reclaim qs = (.ok (), t) := by
  obtain hrefused | ⟨hclean, heq⟩ := s.release_cases qs
  · exact (hrefused.not_ok h).elim
  · exact ⟨hclean, heq.symm.trans h⟩

theorem exportFault?_ne_circuit {f : Frame R} {e : SessionError} (h : exportFault? f qs = some e)
    (err : CircuitError) : e ≠ .circuit err := by
  induction qs with
  | nil => exact nomatch h
  | cons q qs ih =>
    unfold exportFault? at h
    split at h
    · rw [← Option.some.inj h]
      simp
    · split at h
      · rw [← Option.some.inj h]
        simp
      · exact ih h

theorem exportQubits_cases (s : Session R) (qs : List QubitId) :
    s.Refuses (s.exportQubits qs) ∨ exportFault? s.frames.top qs = none ∧
      s.exportQubits qs = (.ok (), { s with frames := s.frames.modifyTop fun f =>
        { f with exported := Ordered.union f.exported qs } }) := by
  unfold Session.exportQubits
  split
  · exact .inl (refuses_refuse (by simp))
  · split
    · exact .inl (refuses_refuse (by simp))
    · split
      · exact .inl (refuses_refuse (by simp))
      · split
        · next hfault => exact .inl (refuses_refuse (exportFault?_ne_circuit hfault))
        · next hfault => exact .inr ⟨hfault, rfl⟩

theorem assertRestored_of_unpoisoned (hp : s.isPoisoned = false) (qs : List QubitId) :
    s.assertRestored qs = (.ok (), { s with frames := s.frames.map fun f =>
      { f with touched := f.touched.eraseAll qs } }) :=
  if_neg (by simp [hp])

theorem assertRestored_cases (s : Session R) (qs : List QubitId) :
    s.Refuses (s.assertRestored qs) ∨ s.assertRestored qs = (.ok (), { s with
      frames := s.frames.map fun f => { f with touched := f.touched.eraseAll qs } }) := by
  by_cases hp : s.isPoisoned = true
  · exact .inl ⟨.poisoned, by simp, if_pos hp⟩
  · exact .inr (assertRestored_of_unpoisoned (by simpa using hp) qs)

/-! ## Instructions -/

theorem emit_of_live (hp : s.isPoisoned = false) {i : Instruction R}
    (hlive : ∀ q ∈ i.qubits, s.allocator.isLive q = true) : s.emit i = s.send i false := by
  have hfound : (i.qubits.find? fun q => !s.allocator.isLive q) = none := by
    rw [List.find?_eq_none]
    intro q hq
    simp [hlive q hq]
  unfold Session.emit
  rw [if_neg (by simp [hp]), hfound]

theorem emit_cases (s : Session R) (i : Instruction R) :
    s.Refuses (s.emit i) ∨
      (∀ q ∈ i.qubits, s.allocator.isLive q = true) ∧ s.emit i = s.send i false := by
  unfold Session.emit
  split
  · exact .inl (refuses_refuse (by simp))
  · split
    · exact .inl (refuses_refuse (by simp))
    · next hfind =>
      refine .inr ⟨fun q hq => ?_, rfl⟩
      simpa using List.find?_eq_none.1 hfind q hq

theorem emit_ok {i : Instruction R} (h : s.emit i = (.ok (), t)) :
    (∀ q ∈ i.qubits, s.allocator.isLive q = true) ∧ s.send i false = (.ok (), t) := by
  obtain hrefused | ⟨hlive, heq⟩ := s.emit_cases i
  · exact (hrefused.not_ok h).elim
  · exact ⟨hlive, heq.symm.trans h⟩

theorem measureFault?_ne_circuit {e : SessionError} (h : s.measureFault? = some e)
    (err : CircuitError) : e ≠ .circuit err := by
  unfold measureFault? at h
  simp only [] at h
  split at h
  · rw [← Option.some.inj h]
    simp
  · obtain ⟨f, -, rfl⟩ := Option.map_eq_some_iff.1 h
    simp

theorem measure_cases (s : Session R) (q : QubitId) :
    s.Refuses (s.measure q) ∨
      s.isPoisoned = false ∧ s.measureFault? = none ∧ s.allocator.isLive q = true ∧
        ∀ answer, Session.emit { s with circuit := (s.circuit.addClbit (some q)).2 }
            (.measure q (s.circuit.addClbit (some q)).1) = answer →
          s.measure q = (answer.1.map fun _ => (s.circuit.addClbit (some q)).1, answer.2) := by
  unfold Session.measure
  split
  · exact .inl (refuses_refuse (by simp))
  · next hp =>
    split
    · next hfault => exact .inl (refuses_refuse (measureFault?_ne_circuit hfault))
    · next hfault =>
      split
      · exact .inl (refuses_refuse (by simp))
      · next hlive =>
        refine .inr ⟨by simpa using hp, hfault, by simpa using hlive, fun answer hemit => ?_⟩
        simp only [onCircuit_eq, hemit]
        rcases answer with ⟨e | _, t⟩ <;> rfl

theorem measure_ok {q : QubitId} {b : ClbitId} (h : s.measure q = (.ok b, t)) :
    Session.emit { s with circuit := (s.circuit.addClbit (some q)).2 }
      (.measure q (s.circuit.addClbit (some q)).1) = (.ok (), t) := by
  obtain hrefused | ⟨-, -, -, hm⟩ := s.measure_cases q
  · exact (hrefused.not_ok h).elim
  · rcases hemit : Session.emit { s with circuit := (s.circuit.addClbit (some q)).2 }
      (.measure q (s.circuit.addClbit (some q)).1) with ⟨e | _, u⟩
    · exact nomatch (Prod.mk.inj ((hm _ hemit).symm.trans h)).1
    · rw [← (Prod.mk.inj ((hm _ hemit).symm.trans h)).2]

theorem measure_of_live (hp : s.isPoisoned = false) (hfault : s.measureFault? = none) {q : QubitId}
    (hlive : s.allocator.isLive q = true)
    (hemit : Session.emit { s with circuit := (s.circuit.addClbit (some q)).2 }
      (.measure q (s.circuit.addClbit (some q)).1) = (.ok (), t)) :
    s.measure q = (.ok (s.circuit.addClbit (some q)).1, t) := by
  unfold Session.measure
  rw [if_neg (by simp [hp]), hfault]
  simp only [hlive, Bool.not_true, Bool.false_eq_true, if_false, onCircuit_eq, hemit]

/-! ## Environments -/

theorem enter_cases (s : Session R) (environment : Environment) (label : String) :
    s.Refuses (s.enter environment label) ∨
      (∀ cs, environment = .controlled cs → ∀ q ∈ cs, s.allocator.isLive q = true) ∧
        s.enter environment label = (.ok s.nextFrame, { s with
          nextFrame := s.nextFrame + 1
          frames := s.frames.push (.new s.nextFrame environment label) }) := by
  unfold Session.enter
  split
  · exact .inl (refuses_refuse (by simp))
  · simp only []
    split
    · exact .inl (refuses_refuse (by simp))
    · next hdead =>
      refine .inr ⟨?_, rfl⟩
      rintro cs rfl q hq
      simpa using List.find?_eq_none.1 hdead q hq

theorem enter_eq {environment : Environment} {label : String} {id : FrameId}
    (h : s.enter environment label = (.ok id, t)) :
    id = s.nextFrame ∧ t = { s with
      nextFrame := s.nextFrame + 1
      frames := s.frames.push (.new s.nextFrame environment label) } := by
  obtain hrefused | ⟨-, heq⟩ := s.enter_cases environment label
  · exact (hrefused.not_ok h).elim
  · obtain ⟨hid, ht⟩ := Prod.mk.inj (h.symm.trans heq)
    exact ⟨Except.ok.inj hid, ht⟩

theorem enter_error {environment : Environment} {label : String} {e : SessionError}
    (h : s.enter environment label = (.error e, t)) : t = s := by
  obtain hrefused | ⟨-, heq⟩ := s.enter_cases environment label
  · rw [h] at hrefused
    exact hrefused.snd
  · exact nomatch (Prod.mk.inj (h.symm.trans heq)).1

theorem beginAction_of_computing (hp : s.isPoisoned = false) (hc : s.frames.top.isComputing = true) :
    s.beginAction = (.ok (), { s with
      frames := s.frames.modifyTop fun f => { f with phase := .act } }) := by
  unfold Session.beginAction
  rw [if_neg (by simp [hp]), if_pos hc]

theorem beginAction_cases (s : Session R) :
    s.Refuses s.beginAction ∨ s.frames.top.isComputing = true ∧ s.beginAction = (.ok (), { s with
      frames := s.frames.modifyTop fun f => { f with phase := .act } }) := by
  unfold Session.beginAction
  split
  · exact .inl (refuses_refuse (by simp))
  · split
    · next hc => exact .inr ⟨hc, rfl⟩
    · exact .inl (refuses_refuse (by simp))

section Exit

variable [Scalar R] {id : FrameId}

theorem exit_of_poisoned (hp : s.isPoisoned = true) (id : FrameId) :
    s.exit id = (.error .poisoned, s) := if_pos hp

theorem exit_of_root (hp : s.isPoisoned = false) (hb : s.frames.below = []) :
    s.exit id = (.error .noOpenFrame, s) := by
  unfold Session.exit
  rw [if_neg (by simp [hp]), hb]
  rfl

theorem exit_of_ne {parent : Frame R} {rest : List (Frame R)} (hp : s.isPoisoned = false)
    (hb : s.frames.below = parent :: rest) (hid : s.frames.top.id ≠ id) :
    s.exit id = (.error (.scopeViolation s.frames.top.id id), { s with isPoisoned := true }) := by
  unfold Session.exit
  rw [if_neg (by simp [hp]), hb]
  exact if_pos hid

end Exit

theorem abort_of_cut {id : FrameId} {dropped : List (Frame R)} {frames : FrameStack R}
    (hcut : FrameStack.cut? id s.frames.top s.frames.below = some (dropped, frames)) :
    s.abort id = dropped.foldl forceReclaim { s with frames } := by
  unfold Session.abort
  rw [hcut]

theorem abort_cases (s : Session R) (id : FrameId) :
    s.abort id = s ∨ ∃ dropped frames,
      FrameStack.cut? id s.frames.top s.frames.below = some (dropped, frames) ∧
        s.abort id = dropped.foldl forceReclaim { s with frames } := by
  rcases hcut : FrameStack.cut? id s.frames.top s.frames.below with _ | ⟨dropped, frames⟩
  · exact .inl (by simp [Session.abort, hcut])
  · exact .inr ⟨dropped, frames, rfl, abort_of_cut hcut⟩

end Ancilla.Session
