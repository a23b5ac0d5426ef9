import Ancilla.Proofs.Session.Partition

/-!
Calls keep a session sound, whether they succeed or fail: one lemma for each call but those that
close or drop an environment.
-/

namespace Ancilla

variable {R : Type}

namespace Frame

/-- The instructions that a closing frame undoes: a conjugation its computation, which is balanced
from there on, and an inversion all that it kept. -/
def due (f : Frame R) : List (Instruction R × Bool) :=
  match f.environment with
  | .conjugation => f.log.map fun (i, _) => (i, true)
  | .inversion => f.log
  | _ => []

variable {f : Frame R} {e : Instruction R × Bool}

theorem due_conjugation (h : f.environment = .conjugation) :
    f.due = f.log.map fun (i, _) => (i, true) := by
  rw [due, h]

theorem due_inversion (h : f.environment = .inversion) : f.due = f.log := by
  rw [due, h]

theorem due_eq_nil (hconj : f.environment ≠ .conjugation) (hinv : f.environment ≠ .inversion) :
    f.due = [] := by
  unfold due
  cases he : f.environment with
  | conjugation => exact absurd he hconj
  | inversion => exact absurd he hinv
  | iteration | controlled | classical | scope => rfl

theorem due_cases (h : e ∈ f.due) :
    (f.environment = .conjugation ∧ e.2 = true ∧ ∃ b, (e.1, b) ∈ f.log) ∨
      f.environment = .inversion ∧ e ∈ f.log := by
  by_cases hconj : f.environment = .conjugation
  · rw [due_conjugation hconj] at h
    obtain ⟨⟨i, b⟩, hib, rfl⟩ := List.mem_map.1 h
    exact .inl ⟨hconj, rfl, b, hib⟩
  · by_cases hinv : f.environment = .inversion
    · rw [due_inversion hinv] at h
      exact .inr ⟨hinv, h⟩
    · rw [due_eq_nil hconj hinv] at h
      exact absurd h List.not_mem_nil

theorem log_of_due (h : e ∈ f.due) : ∃ b, (e.1, b) ∈ f.log := by
  obtain ⟨-, -, hlog⟩ | ⟨-, hlog⟩ := due_cases h
  · exact hlog
  · exact ⟨e.2, hlog⟩

theorem references_of_due (h : e ∈ f.due) {q : QubitId} (hq : q ∈ e.1.qubits) :
    f.references q = true := by
  obtain ⟨b, hlog⟩ := log_of_due h
  have hany : f.log.any (fun (i, _) => i.qubits.contains q) = true :=
    List.any_eq_true.2 ⟨_, hlog, List.contains_iff_mem.2 hq⟩
  obtain ⟨he, -⟩ | ⟨he, -⟩ := due_cases h
  · rw [references, he]
    exact hany
  · rw [references, he]
    exact hany

end Frame

namespace Session

theorem send_kin (s : Session R) (i : Instruction R) (b : Bool) :
    List.Forall₂ Frame.Kin s.frames.toList (s.send i b).2.frames.toList := by
  have hroute := FrameStack.routeThrough_kin s.frames.toList i b
  rw [← (FrameStack.route_eq s.frames i b).2] at hroute
  refine send_invariant (P := fun s' => List.Forall₂ Frame.Kin s.frames.toList s'.frames.toList)
    hroute ?_
  intro s' j hs'
  simp only [deliver_eq, FrameStack.toList_map]
  refine kin_trans hs' (forall₂_map ?_ _)
  exact fun f => ⟨_, _, [], _, rfl⟩

theorem send_allocator {s : Session R} (h : s.allocator.Sound) (i : Instruction R) (b : Bool) :
    (s.send i b).2.allocator.Sound ∧
      ∀ q, (s.send i b).2.allocator.isLive q = s.allocator.isLive q := by
  refine send_invariant (P := fun s' => s'.allocator.Sound ∧
    ∀ q, s'.allocator.isLive q = s.allocator.isLive q) ⟨h, fun _ => rfl⟩ ?_
  rintro s' j ⟨hsound, hlive⟩
  obtain ⟨hmarked, hkept⟩ := Allocator.foldl_markEntangled_spec hsound j.qubits
  rw [deliver_eq]
  exact ⟨hmarked, fun q => (hkept q).trans (hlive q)⟩

theorem send_isLive {s : Session R} (h : s.allocator.Sound) (i : Instruction R) (b : Bool)
    (q : QubitId) : (s.send i b).2.allocator.isLive q = s.allocator.isLive q :=
  (send_allocator h i b).2 q

theorem adjoint?_spec [Scalar R] {i j : Instruction R} (h : i.adjoint? = some j) :
    j.qubits = i.qubits ∧ j.isMeasure = false ∧ i.isMeasure = false := by
  unfold Instruction.adjoint? at h
  unfold Instruction.isMeasure
  cases hop : i.operation with
  | gate g =>
    simp only [hop, Option.some.injEq] at h
    subst h
    exact ⟨rfl, rfl, rfl⟩
  | measure => simp [hop] at h
  | barrier =>
    simp only [hop, Option.some.injEq] at h
    subst h
    exact ⟨rfl, by rw [hop], rfl⟩

variable [Scalar R] {limbo : List QubitId} {s : Session R}

theorem undo_invariant {P : Session R → Prop} {l : List (Instruction R × Bool)}
    (hstep : ∀ s i b j, P s → (i, b) ∈ l → i.adjoint? = some j → P (s.send j b).2) (hs : P s) :
    P (s.undo l).2 := by
  induction l generalizing s with
  | nil => exact hs
  | cons e l ih =>
    obtain ⟨i, b⟩ := e
    unfold Session.undo
    cases hadj : i.adjoint? with
    | none => exact hs
    | some j =>
      have hsend := hstep s i b j hs List.mem_cons_self hadj
      simp only []
      split
      · next s' hs' =>
        rw [hs'] at hsend
        refine ih ?_ hsend
        exact fun s i b j hs hmem => hstep s i b j hs (List.mem_cons_of_mem _ hmem)
      · next s' hs' =>
        rw [hs'] at hsend
        exact hsend

theorem undo_cons_ok {s' : Session R} {i : Instruction R} {b : Bool}
    {l : List (Instruction R × Bool)} (h : s.undo ((i, b) :: l) = (.ok (), s')) :
    ∃ j s₁, i.adjoint? = some j ∧ s.send j b = (.ok (), s₁) ∧ s₁.undo l = (.ok (), s') := by
  unfold Session.undo at h
  cases hadj : i.adjoint? with
  | none => simp [hadj, refuse] at h
  | some j =>
    rcases hsend : s.send j b with ⟨e | _, s₁⟩
    · simp [hadj, hsend] at h
    · simp only [hadj, hsend] at h
      exact ⟨j, s₁, rfl, hsend, h⟩

theorem undo_kin (s : Session R) (l : List (Instruction R × Bool)) :
    List.Forall₂ Frame.Kin s.frames.toList (s.undo l).2.frames.toList :=
  undo_invariant (P := fun s' => List.Forall₂ Frame.Kin s.frames.toList s'.frames.toList)
    (fun s' _ b j hs' _ _ => kin_trans hs' (send_kin s' j b)) (kin_refl _)

theorem replay_eq (s : Session R) (f : Frame R) : s.replay f = s.undo f.due := by
  unfold Session.replay Frame.due
  cases f.environment with
  | conjugation | inversion => rfl
  | iteration | controlled | classical | scope => rfl

theorem replay_kin (s : Session R) (f : Frame R) :
    List.Forall₂ Frame.Kin s.frames.toList (s.replay f).2.frames.toList := by
  rw [replay_eq]
  exact undo_kin s f.due

theorem Sound.undo (h : Sound limbo s) {l : List (Instruction R × Bool)}
    (hl : ∀ e ∈ l, (Inverted s.frames.toList → ∀ q ∈ e.1.qubits, q ∈ ownedBy s.frames.toList) ∧
      (e.2 = true ∨ ∀ q ∈ e.1.qubits, s.allocator.isLive q = true)) :
    Sound limbo (s.undo l).2 := by
  -- the frames stay the same up to their marks, and the same qubits are in use
  let Kept (s' : Session R) : Prop := Sound limbo s' ∧
    List.Forall₂ Frame.Kin s.frames.toList s'.frames.toList ∧
    ∀ q, s'.allocator.isLive q = s.allocator.isLive q
  have hkept : Kept (s.undo l).2 := by
    refine undo_invariant ?_ ⟨h, kin_refl _, fun _ => rfl⟩
    rintro s' i b j ⟨hs', hkin, hlive⟩ hmem hadj
    obtain ⟨hqs, hm, -⟩ := adjoint?_spec hadj
    obtain ⟨hinv, hb⟩ := hl (i, b) hmem
    have hsend : s'.Sendable j b := by
      constructor
      · rw [inverted_of_kin hkin, ownedBy_of_kin hkin, hqs]
        exact hinv
      · simp only [hlive, hqs]
        exact hb.imp (fun hb => ⟨hb, hm⟩) id
    refine ⟨hs'.send hsend, kin_trans hkin (send_kin s' j b), ?_⟩
    exact fun q => (send_isLive hs'.allocator j b q).trans (hlive q)
  exact hkept.1

theorem Sound.replay {f : Frame R} (h : Sound limbo s) (hf : f.Sheltered s.frames.toList) :
    Sound limbo (s.replay f).2 := by
  rw [replay_eq]
  refine h.undo ?_
  intro e hmem
  have howned (hinv : Inverted (f :: s.frames.toList)) : ∀ q ∈ e.1.qubits,
      q ∈ ownedBy s.frames.toList :=
    fun q hq => hf.kept hinv q (Frame.references_of_due hmem hq)
  refine ⟨fun hinv => howned (inverted_cons.2 (.inr hinv)), ?_⟩
  obtain ⟨-, hbalanced, -⟩ | ⟨he, -⟩ := Frame.due_cases hmem
  · exact .inl hbalanced
  · exact .inr fun q hq => h.owned.live_of_owned (howned (inverted_cons.2 (.inl he)) q hq)

omit [Scalar R]

theorem filter_not_contains_nil (l : List QubitId) :
    (l.filter fun q => !([] : List QubitId).contains q) = l := by
  simp

/-- The session behind qubits that the allocator has taken back: no frame keeps anything about
them. -/
def freed (s : Session R) (qs : List QubitId) (a : Allocator) : Session R :=
  { s with
    allocator := a
    circuit := s.circuit.recordRelease qs
    frames := s.frames.map fun f => f.forget qs }

theorem freed_nil (s : Session R) : s.freed [] s.allocator = s := by
  have hcircuit : s.circuit.recordRelease [] = s.circuit := by simp [Circuit.recordRelease]
  have hframes : (s.frames.map fun f => f.forget []) = s.frames := by
    simp only [FrameStack.map, Frame.forget_nil, List.map_id']
  rw [freed, hcircuit, hframes]

theorem reclaim_cases (s : Session R) (qs : List QubitId) :
    (∃ e, s.allocator.deallocate qs = (.error e, s.allocator) ∧
      s.reclaim qs = (.error (.resource e), s)) ∨
    ∃ a, s.allocator.deallocate qs = (.ok (), a) ∧ s.reclaim qs = (.ok (), s.freed qs a) := by
  unfold Session.reclaim
  cases hempty : qs.isEmpty with
  | true =>
    obtain rfl := List.isEmpty_iff.1 hempty
    refine .inr ⟨s.allocator, rfl, ?_⟩
    rw [freed_nil]
    rfl
  | false =>
    rcases hd : s.allocator.deallocate qs with ⟨e | _, a⟩
    · obtain rfl := Allocator.deallocate_error hd
      exact .inl ⟨e, rfl, rfl⟩
    · exact .inr ⟨a, rfl, rfl⟩

theorem freed_of_reclaim {qs : List QubitId} (hok : (s.reclaim qs).1 = .ok ()) :
    ∃ a, s.allocator.deallocate qs = (.ok (), a) ∧ (s.reclaim qs).2 = s.freed qs a := by
  obtain ⟨e, -, hback⟩ | ⟨a, ha, hback⟩ := s.reclaim_cases qs
  · rw [hback] at hok
    exact absurd hok (by simp)
  · exact ⟨a, ha, congrArg Prod.snd hback⟩

theorem Sound.reclaim (h : Sound limbo s) {qs : List QubitId}
    (hqs : ∀ q ∈ qs, q ∉ ownedBy s.frames.toList ∨
      ∀ f ∈ s.frames.toList, f.references q = false)
    (hok : (s.reclaim qs).1 = .ok ()) :
    Sound (limbo.filter fun q => !qs.contains q) (s.reclaim qs).2 := by
  obtain ⟨a, ha, hback⟩ := freed_of_reclaim hok
  obtain ⟨hsound, hlive⟩ := Allocator.deallocate_spec h.allocator ha
  rw [hback]
  exact ⟨hsound, h.owned.forget hqs hlive⟩

theorem reclaim_ok_iff (s : Session R) (qs : List QubitId) :
    (s.reclaim qs).1 = .ok () ↔ (∀ q ∈ qs, s.allocator.isLive q = true) ∧ qs.Nodup := by
  rw [← Allocator.deallocate_ok_iff]
  obtain ⟨e, ha, hback⟩ | ⟨a, ha, hback⟩ := s.reclaim_cases qs
  · simp [ha, hback]
  · simp [ha, hback]

theorem reclaim_error {s : Session R} {qs : List QubitId} {e : SessionError}
    (h : (s.reclaim qs).1 = .error e) : (s.reclaim qs).2 = s := by
  obtain ⟨_, -, hback⟩ | ⟨a, -, hback⟩ := s.reclaim_cases qs
  · rw [hback]
  · rw [hback] at h
    exact absurd h (by simp)

theorem reclaim_frames {s s' : Session R} {qs : List QubitId} (h : s.reclaim qs = (.ok (), s')) :
    s'.frames = s.frames.map fun f => f.forget qs := by
  obtain ⟨a, -, hback⟩ := freed_of_reclaim (congrArg Prod.fst h)
  rw [h] at hback
  exact congrArg frames hback

theorem reclaim_isLive (h : s.allocator.Sound) {qs : List QubitId}
    (hok : (s.reclaim qs).1 = .ok ()) (q : QubitId) :
    (s.reclaim qs).2.allocator.isLive q = true ↔ s.allocator.isLive q = true ∧ q ∉ qs := by
  obtain ⟨a, ha, hback⟩ := freed_of_reclaim hok
  rw [hback]
  exact (Allocator.deallocate_spec h ha).2 q

theorem reclaim_returned {qs : List QubitId} (hok : (s.reclaim qs).1 = .ok ()) :
    ∀ q ∈ qs, q ∈ (s.reclaim qs).2.allocator.reclaimed := by
  obtain ⟨a, ha, hback⟩ := freed_of_reclaim hok
  rw [hback]
  exact Allocator.mem_reclaimed_of_deallocate ha

theorem Sound.reclaim_ok (h : Sound limbo s) {qs : List QubitId} (hnodup : qs.Nodup)
    (hqs : ∀ q ∈ qs, q ∈ limbo) : (s.reclaim qs).1 = .ok () :=
  (reclaim_ok_iff s qs).2 ⟨fun q hq => (h.owned.live_iff q).2 (.inl (hqs q hq)), hnodup⟩

theorem Sound.forceReclaim {f : Frame R} {rest : List QubitId} (h : Sound (f.owned ++ rest) s) :
    (s.reclaim (f.owned.filter s.allocator.isLive)).1 = .ok () ∧
      Sound rest (s.forceReclaim f) := by
  have hall : f.owned.filter s.allocator.isLive = f.owned := by
    rw [List.filter_eq_self]
    exact fun q hq => (h.owned.live_iff q).2 (.inl (List.mem_append_left _ hq))
  have hnodup := (List.nodup_append'.1 h.owned.nodup).1
  obtain ⟨hfo, hrest, hdisj⟩ := List.nodup_append'.1 hnodup
  have hok : (s.reclaim f.owned).1 = .ok () :=
    h.reclaim_ok hfo fun q hq => List.mem_append_left _ hq
  refine ⟨by rw [hall]; exact hok, ?_⟩
  have hnext := h.reclaim
    (fun q hq => .inl (h.owned.disjoint (List.mem_append_left _ hq))) hok
  have hlimbo : ((f.owned ++ rest).filter fun q => !f.owned.contains q) = rest := by
    rw [List.filter_append, List.filter_eq_nil_iff.2 (by simp), List.nil_append,
      List.filter_eq_self]
    intro q hq
    simpa using fun h' => hdisj h' hq
  rw [hlimbo] at hnext
  unfold Session.forceReclaim
  rw [hall]
  exact hnext

/-! ## The calls -/

theorem Sound.allocate (h : Sound [] s) (count : Nat) (name : String) :
    Sound [] (s.allocate count name).2 := by
  rcases s.allocate_cases count name with hno | ⟨qs, a, -, hinversion, ha, hcall⟩
  · rw [hno.snd]
    exact h
  · obtain ⟨hnodup, hfresh, hsound, hlive⟩ := Allocator.allocate_spec h.allocator ha
    rw [hcall]
    refine ⟨hsound, (h.owned.obtainQubits hnodup hfresh hlive).own hnodup (fun _ => Iff.rfl) ?_⟩
    rintro ⟨f, hf, he⟩
    rw [FrameStack.any, List.any_eq_false] at hinversion
    exact absurd (by simp [he]) (hinversion f hf)

theorem Sound.release (h : Sound [] s) (qs : List QubitId) : Sound [] (s.release qs).2 := by
  rcases s.release_cases qs with hno | ⟨hfree, hcall⟩
  · rw [hno.snd]
    exact h
  · rw [hcall]
    rcases hr : (s.reclaim qs).1 with e | _
    · rw [reclaim_error hr]
      exact h
    · exact h.reclaim (fun q hq => .inr fun f hf => (hfree q hq f hf).1) hr

theorem exportFault?_eq_none {f : Frame R} {qs : List QubitId} (h : exportFault? f qs = none) :
    ∀ q ∈ qs, q ∈ f.owned ∧ f.computeAncillae.contains q = false := by
  induction qs with
  | nil => simp
  | cons q qs ih =>
    unfold exportFault? at h
    cases hown : f.owns q with
    | false => simp [hown] at h
    | true =>
      cases hanc : f.computeAncillae.contains q with
      | true => simp [hown, hanc] at h
      | false =>
        simp only [hown, hanc, Bool.not_true, Bool.false_eq_true, if_false] at h
        intro p hp
        rcases List.mem_cons.1 hp with rfl | hp
        · exact ⟨by simpa [Frame.owns] using hown, hanc⟩
        · exact ih h p hp

theorem Sound.exportQubits (h : Sound [] s) (qs : List QubitId) :
    Sound [] (s.exportQubits qs).2 := by
  rcases s.exportQubits_cases qs with hno | ⟨hfault, hcall⟩
  · rw [hno.snd]
    exact h
  · have htop := h.owned.tidy s.frames.top List.mem_cons_self
    rw [hcall]
    refine ⟨h.allocator, h.owned.replaceTop rfl rfl (fun _ => rfl) ⟨?_, ?_, htop.ancillae,
      htop.superposed, htop.touched⟩⟩
    · exact Ordered.pairwise_union htop.ascending qs
    · intro q hq
      rcases (Ordered.mem_union _ _ _).1 hq with hq | hq
      · exact htop.exported q hq
      · exact (exportFault?_eq_none hfault q hq).1

theorem Sound.assertRestored (h : Sound [] s) (qs : List QubitId) :
    Sound [] (s.assertRestored qs).2 := by
  rcases s.assertRestored_cases qs with hno | hcall
  · rw [hno.snd]
    exact h
  · rw [hcall]
    refine ⟨h.allocator, ?_⟩
    rw [FrameStack.toList_map]
    refine h.owned.map _ (fun _ => rfl) (fun _ => rfl) (fun _ _ => rfl) ?_
    intro f hf
    refine ⟨hf.ascending, hf.exported, hf.ancillae, hf.superposed, ?_⟩
    intro q hq
    exact hf.touched q ((QubitSet.contains_eraseAll _ _ _).1 hq).1

theorem Sound.emit (h : Sound [] s) (i : Instruction R) : Sound [] (s.emit i).2 := by
  rcases s.emit_cases i with hno | ⟨hlive, hcall⟩
  · rw [hno.snd]
    exact h
  · rw [hcall]
    refine h.send ⟨?_, .inr hlive⟩
    intro _ q hq
    simpa using (h.owned.live_iff q).1 (hlive q hq)

theorem Sound.measure (h : Sound [] s) (q : QubitId) : Sound [] (s.measure q).2 := by
  rcases s.measure_cases q with hno | ⟨-, -, -, hcall⟩
  · rw [hno.snd]
    exact h
  · have hadded : Sound [] { s with circuit := (s.circuit.addClbit (some q)).2 } :=
      ⟨h.allocator, h.owned⟩
    rw [hcall _ rfl]
    exact hadded.emit _

theorem Sound.enter (h : Sound [] s) (environment : Environment) (label : String) :
    Sound [] (s.enter environment label).2 := by
  rcases s.enter_cases environment label with hno | ⟨hcontrols, hcall⟩
  · rw [hno.snd]
    exact h
  · rw [hcall]
    refine ⟨h.allocator, h.owned.nodup, h.owned.live_iff, ?_, ?_, h.owned.nested⟩
    · intro f hf
      rcases List.mem_cons.1 hf with rfl | hf
      · exact Frame.tidy_new _ _ _ _
      · exact h.owned.tidy f hf
    · refine Frame.sheltered_new fun cs hcs q hq => ?_
      have howned := (h.owned.live_iff q).1 (hcontrols cs hcs q hq)
      rwa [or_iff_right List.not_mem_nil] at howned

theorem Sound.beginAction (h : Sound [] s) : Sound [] s.beginAction.2 := by
  rcases s.beginAction_cases with hno | ⟨-, hcall⟩
  · rw [hno.snd]
    exact h
  · have htop := h.owned.tidy s.frames.top List.mem_cons_self
    rw [hcall]
    exact ⟨h.allocator, h.owned.replaceTop rfl rfl (fun _ => rfl) ⟨htop.ascending,
      htop.exported, htop.ancillae, htop.superposed, htop.touched⟩⟩

end Session

end Ancilla
