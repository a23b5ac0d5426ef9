import Ancilla.Proofs.Circuit.Splicing
import Ancilla.Proofs.Session.Growth

/-!
Qubits come into use only by being handed out, and every qubit in use has a wire of the circuit.
So the circuit of a session that can be reached takes every instruction whose operands are in
order.
-/

namespace Ancilla

variable {R : Type} [Scalar R]

def Call.obtained (s : Session R) : Call R → List QubitId
  | allocate count name => (s.allocate count name).1.toOption.getD []
  | _ => []

omit [Scalar R] in
theorem Call.obtained_allocate {s s' : Session R} {count : Nat} {name : String}
    {qs : List QubitId} (h : s.allocate count name = (.ok qs, s')) :
    (Call.allocate count name).obtained s = qs := by
  simp [Call.obtained, h, Except.toOption]

namespace Session

variable {s : Session R}

omit [Scalar R] in
theorem Sound.emit_isLive {limbo : List QubitId} (h : Sound limbo s) (i : Instruction R)
    (q : QubitId) : (s.emit i).2.allocator.isLive q = s.allocator.isLive q := by
  rcases s.emit_cases i with hno | ⟨-, hcall⟩
  · rw [hno.snd]
  · rw [hcall]
    exact send_isLive h.allocator i false q

omit [Scalar R] in
theorem Sound.measure_isLive {limbo : List QubitId} (h : Sound limbo s) (p q : QubitId) :
    (s.measure p).2.allocator.isLive q = s.allocator.isLive q := by
  rcases s.measure_cases p with hno | ⟨-, -, -, hcall⟩
  · rw [hno.snd]
  · have hadded : Sound limbo { s with circuit := (s.circuit.addClbit (some p)).2 } :=
      ⟨h.allocator, h.owned⟩
    rw [hcall _ rfl]
    exact hadded.emit_isLive _ q

omit [Scalar R] in
theorem Sound.release_isLive (h : Sound [] s) (qs : List QubitId) {q : QubitId}
    (hq : (s.release qs).2.allocator.isLive q = true) : s.allocator.isLive q = true := by
  rcases s.release_cases qs with hno | ⟨-, hcall⟩
  · rwa [hno.snd] at hq
  · rw [hcall] at hq
    rcases hr : (s.reclaim qs).1 with e | _
    · rwa [reclaim_error hr] at hq
    · exact ((reclaim_isLive h.allocator hr q).1 hq).1

theorem Sound.exit_isLive (h : Sound [] s) (id : FrameId) {q : QubitId}
    (hq : (s.exit id).2.allocator.isLive q = true) : s.allocator.isLive q = true := by
  cases h.closes id with
  | same _ ha => rwa [ha] at hq
  | popped _ _ _ _ _ ha => exact ((ha q).1 hq).1

omit [Scalar R] in
theorem Sound.abort_isLive (h : Sound [] s) (id : FrameId) {q : QubitId}
    (hq : (s.abort id).allocator.isLive q = true) : s.allocator.isLive q = true := by
  rcases s.abort_cases id with hcall | ⟨dropped, frames, hcut, -⟩
  · rwa [hcall] at hq
  · exact (((h.abort_effect hcut).2 q).1 hq).1

theorem Sound.live_before (h : Sound [] s) (c : Call R) {q : QubitId}
    (hq : (c.perform s).2.allocator.isLive q = true) :
    s.allocator.isLive q = true ∨ q ∈ c.obtained s := by
  have hframing : c.IsFraming → _ := fun hc => (hc.keeps s).1
  -- only `allocate` adds qubits; the calls on frames leave the allocator alone
  cases c with
  | allocate count name =>
    rcases ha : s.allocate count name with ⟨e | qs, s'⟩
    · simp only [Call.perform, ha, allocate_error ha] at hq
      exact .inl hq
    · obtain ⟨-, a, halloc, ha'⟩ := allocate_ok ha
      rw [Call.obtained_allocate ha]
      simp only [Call.perform, ha, ha'] at hq
      exact ((Allocator.allocate_spec h.allocator halloc).2.2.2 q).1 hq
  | exportQubits | assertRestored | enter | beginAction => exact .inl (hframing trivial ▸ hq)
  | release qs => exact .inl (h.release_isLive qs hq)
  | apply g qs => exact .inl (by rwa [← h.emit_isLive (.ofGate g qs)])
  | barrier qs => exact .inl (by rwa [← h.emit_isLive (.barrier qs)])
  | measure p => exact .inl (by rwa [← h.measure_isLive p])
  | exit id => exact .inl (h.exit_isLive id hq)
  | abort id => exact .inl (h.abort_isLive id hq)

omit [Scalar R] in
theorem allocate_wired (hc : s.circuit.Accepting) {s' : Session R} {count : Nat} {name : String}
    {qs : List QubitId} (h : s.allocate count name = (.ok qs, s')) {q : QubitId} (hq : q ∈ qs) :
    .qubit q ∈ s'.circuit.graph.wireList := by
  have hfold : ∀ (l : List (QubitId × Nat)) (c : Circuit R), c.Accepting →
      (∀ w ∈ c.graph.wireList, w ∈ (l.foldl (fun c p => c.registerQubit ⟨p.1, some name, some p.2⟩)
        c).graph.wireList) ∧
      ∀ p ∈ l, .qubit p.1 ∈ (l.foldl (fun c p => c.registerQubit ⟨p.1, some name, some p.2⟩)
        c).graph.wireList := by
    intro l
    induction l with
    | nil => exact fun c _ => ⟨fun w hw => hw, fun p hp => absurd hp List.not_mem_nil⟩
    | cons e l ih =>
      intro c hc
      obtain ⟨hkeep, hnew⟩ := ih _ (hc.registerQubit ⟨e.1, some name, some e.2⟩)
      refine ⟨fun w hw => hkeep w ((Circuit.Grown.refl.registerQubit _).wireList hw), ?_⟩
      intro p hp
      rcases List.mem_cons.1 hp with rfl | hp
      · exact hkeep _ (Circuit.registerQubit_wired hc _)
      · exact hnew p hp
  obtain ⟨k, hk⟩ := List.mem_iff_getElem?.1 hq
  have hzip : (q, k) ∈ qs.zipIdx := List.mem_zipIdx_iff_getElem?.2 hk
  rcases s.allocate_cases count name with hno | ⟨qs', a, -, -, -, hcall⟩
  · exact (hno.not_ok h).elim
  · obtain ⟨hqs, rfl⟩ := Prod.mk.inj (hcall.symm.trans h)
    obtain rfl := Except.ok.inj hqs
    exact (hfold _ _ hc).2 (q, k) hzip

/-- The circuit takes instructions, and every qubit in use has a wire. -/
structure Equipped (s : Session R) : Prop where
  accepting : s.circuit.Accepting
  wired : ∀ q, s.allocator.isLive q = true → .qubit q ∈ s.circuit.graph.wireList

theorem Equipped.perform (h : s.Equipped) (hs : Sound [] s) (c : Call R) :
    (c.perform s).2.Equipped := by
  have hgrown := perform_grown s c
  refine ⟨h.accepting.grown hgrown, fun q hq => ?_⟩
  rcases hs.live_before c hq with hq | hq
  · exact hgrown.wireList (h.wired q hq)
  · cases c with
    | allocate count name =>
      rcases ha : s.allocate count name with ⟨e | qs, s'⟩
      · simp [Call.obtained, ha, Except.toOption] at hq
      · rw [Call.obtained_allocate ha] at hq
        simp only [Call.perform, ha]
        exact allocate_wired h.accepting ha hq
    | _ => exact absurd hq List.not_mem_nil

theorem Reachable.equipped (h : s.Reachable) : s.Equipped := by
  refine (h.invariant (P := fun s => Sound [] s ∧ s.Equipped) ?_ ?_).2
  · refine fun config => ⟨sound_new config, Circuit.accepting_new config.name, fun q hq => ?_⟩
    rw [show (Session.new config : Session R).allocator.isLive q = false from
      Allocator.isLive_new config.maxQubits q] at hq
    exact absurd hq Bool.false_ne_true
  · exact fun s c hs => ⟨hs.1.perform c, hs.2.perform hs.1 c⟩

end Session

end Ancilla
