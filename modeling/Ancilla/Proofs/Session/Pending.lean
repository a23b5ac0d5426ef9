import Ancilla.Proofs.Session.Closing
import Mathlib.Data.List.Induction

/-!
Qubits that open environments still need: the controls of a controlling frame, and what is named
by the instructions that a conjugation or an inversion has kept. Controls and what inversions have
kept stay in use as long as they are needed. The log of a conjugation gives no such guarantee: an
environment inside it that is closed or dropped returns its qubits, whether the log names them or
not. Main statement: no other call takes a needed qubit out of use.
-/

namespace Ancilla

variable {R : Type}

namespace Frame

def Logs (f : Frame R) (q : QubitId) : Prop :=
  f.environment = .conjugation ∧ f.references q = true

structure Alike (f f' : Frame R) : Prop where
  environment : f'.environment = f.environment
  isComputing : f'.isComputing = f.isComputing
  references : ∀ q, f'.references q = f.references q

theorem Alike.logs_iff {f f' : Frame R} (h : f.Alike f') (q : QubitId) :
    f'.Logs q ↔ f.Logs q := by
  unfold Logs
  rw [h.environment, h.references]

theorem Alike.trans {f g h : Frame R} (hfg : f.Alike g) (hgh : g.Alike h) : f.Alike h :=
  ⟨hgh.environment.trans hfg.environment, hgh.isComputing.trans hfg.isComputing,
    fun q => (hgh.references q).trans (hfg.references q)⟩

theorem alike_forget (f : Frame R) (qs : List QubitId) : f.Alike (f.forget qs) :=
  ⟨rfl, rfl, fun _ => rfl⟩

theorem alike_own (f : Frame R) (qs : List QubitId) : f.Alike (f.own qs) :=
  ⟨rfl, rfl, fun _ => rfl⟩

theorem Kin.isComputing {f f' : Frame R} (h : f.Kin f') : f'.isComputing = f.isComputing := by
  obtain ⟨_, _, _, _, rfl⟩ := h
  rfl

theorem Kin.references {f f' : Frame R} (h : f.Kin f') {q : QubitId}
    (hq : f.references q = true) : f'.references q = true := by
  obtain ⟨_, _, l, _, rfl⟩ := h
  unfold Frame.references at hq ⊢
  simp only [List.any_append]
  split at hq
  · exact hq
  · exact Bool.or_eq_true_iff.2 (.inr hq)
  · exact Bool.or_eq_true_iff.2 (.inr hq)
  · exact absurd hq (by decide)

theorem Kin.logs {f f' : Frame R} (h : f.Kin f') {q : QubitId} (hq : f.Logs q) : f'.Logs q :=
  ⟨h.environment.trans hq.1, h.references hq.2⟩

theorem Passes.logs_iff {f f' : Frame R} {i : Instruction R} {b : Bool}
    {o : Option (Instruction R × Bool)} (h : f.Passes i b f' o) (q : QubitId) :
    f'.Logs q ↔ f.Logs q ∨ f.isComputing = true ∧ q ∈ i.qubits := by
  rcases h.keeps_or_marks with ⟨hc, -, rfl⟩ | ⟨he, -, rfl⟩ | ⟨hc, -, t, rfl⟩
  · have he := (isComputing_iff.1 hc).1
    simp only [Logs, Frame.references, keep, he, List.any_cons, Bool.or_eq_true,
      List.contains_eq_mem, decide_eq_true_eq, hc, true_and]
    exact or_comm
  · -- an inversion is no conjugation
    simp [Logs, keep, he, isComputing]
  · simp only [hc, Bool.false_eq_true, false_and, or_false]
    exact Iff.rfl

theorem pass_balanced (f : Frame R) {i : Instruction R} (hm : i.isMeasure = false)
    {e : SessionError} : f.pass i true ≠ .error e := by
  unfold pass
  split
  · split
    · simp [hm]
    · simp
  · simp
  · simp
  · simp [hm]
  · simp
  · simp

end Frame

/-- Each computing conjugation that a balanced instruction meets on its way outwards, up to the
first inversion, names the qubit already. -/
def Absorbs : List (Frame R) → QubitId → Prop
  | [], _ => True
  | f :: fs, q =>
    f.environment = .inversion ∨ (f.isComputing = true → f.references q = true) ∧ Absorbs fs q

/-- What a conjugation names, the computing conjugations around it name as well. -/
def Carried : List (Frame R) → Prop
  | [] => True
  | f :: fs => (∀ q, f.Logs q → Absorbs fs q) ∧ Carried fs

theorem Absorbs.mono {r : Frame R → Frame R → Prop} {fs fs' : List (Frame R)} {q : QubitId}
    (h : List.Forall₂ r fs fs') (hr : ∀ {f f'}, r f f' → f'.environment = f.environment ∧
      f'.isComputing = f.isComputing ∧ (f.references q = true → f'.references q = true))
    (hq : Absorbs fs q) : Absorbs fs' q := by
  induction h with
  | nil => trivial
  | cons hf _ ih =>
    obtain ⟨henv, hcomputing, href⟩ := hr hf
    rcases hq with hinv | ⟨hq, hrest⟩
    · exact .inl (henv.trans hinv)
    · exact .inr ⟨fun hc => href (hq (hcomputing ▸ hc)), ih hrest⟩

theorem absorbs_of_kin {fs fs' : List (Frame R)} (h : List.Forall₂ Frame.Kin fs fs')
    {q : QubitId} (hq : Absorbs fs q) : Absorbs fs' q :=
  hq.mono h fun hf => ⟨hf.environment, hf.isComputing, hf.references⟩

theorem absorbs_of_alike {fs fs' : List (Frame R)} (h : List.Forall₂ Frame.Alike fs fs')
    {q : QubitId} (hq : Absorbs fs q) : Absorbs fs' q :=
  hq.mono h fun hf => ⟨hf.environment, hf.isComputing, (hf.references q).trans⟩

theorem carried_of_alike {fs fs' : List (Frame R)} (h : List.Forall₂ Frame.Alike fs fs')
    (hc : Carried fs) : Carried fs' := by
  induction h with
  | nil => trivial
  | cons hf hfs ih =>
    refine ⟨?_, ih hc.2⟩
    intro q hq
    exact absorbs_of_alike hfs (hc.1 q ((hf.logs_iff q).1 hq))

theorem alike_refl (fs : List (Frame R)) : List.Forall₂ Frame.Alike fs fs :=
  List.forall₂_same.2 fun _ _ => ⟨rfl, rfl, fun _ => rfl⟩

theorem alike_trans {fs gs hs : List (Frame R)} (h : List.Forall₂ Frame.Alike fs gs)
    (h' : List.Forall₂ Frame.Alike gs hs) : List.Forall₂ Frame.Alike fs hs :=
  forall₂_trans h h' Frame.Alike.trans

theorem Carried.suffix {fs gs : List (Frame R)} (h : Carried (fs ++ gs)) : Carried gs := by
  induction fs with
  | nil => exact h
  | cons f fs ih => exact ih h.2

namespace FrameStack

theorem routeThrough_absorbs (fs : List (Frame R)) {i : Instruction R}
    (hm : i.isMeasure = false) {q : QubitId} (hq : q ∈ i.qubits) :
    Absorbs (routeThrough fs i true).2 q := by
  induction fs with
  | nil => trivial
  | cons f fs ih =>
    obtain ⟨e, hp, -⟩ | ⟨f', hpass, hroute⟩ | ⟨f', j, c, hpass, hroute⟩ :=
      routeThrough_cases f fs i true
    · exact absurd hp (f.pass_balanced hm)
    · rw [hroute]
      cases hpass with
      | hold he hm => exact .inl he
    · rw [hroute]
      obtain ⟨rfl, rfl⟩ := hpass.balanced_out
      refine .inr ⟨?_, ih⟩
      intro hc
      rw [hpass.kin.isComputing] at hc
      exact ((hpass.logs_iff q).2 (.inr ⟨hc, hq⟩)).2

theorem routeThrough_carried {fs : List (Frame R)} (h : Carried fs) (i : Instruction R)
    (b : Bool) : Carried (routeThrough fs i b).2 := by
  induction fs generalizing i b with
  | nil => trivial
  | cons f fs ih =>
    obtain ⟨e, -, hroute⟩ | ⟨f', hpass, hroute⟩ | ⟨f', j, c, hpass, hroute⟩ :=
      routeThrough_cases f fs i b <;> rw [hroute]
    · exact h
    · refine ⟨?_, h.2⟩
      intro q hq
      cases hpass with
      | hold he hm => exact absurd (he.symm.trans hq.1) (by decide)
    · refine ⟨?_, ih h.2 j c⟩
      intro q hq
      rcases (hpass.logs_iff q).1 hq with hold | ⟨hc, hi⟩
      · exact absorbs_of_kin (routeThrough_kin fs j c) (h.1 q hold)
      · cases hpass with
        | compute hf hm => exact routeThrough_absorbs fs hm hi
        | act he hp' => simp [Frame.isComputing_iff, hp'] at hc
        | control he hb hj => simp [Frame.isComputing_iff, he] at hc
        | condition he hb hj => simp [Frame.isComputing_iff, he] at hc
        | shield he hb => rcases he with ⟨_, he⟩ | ⟨_, he⟩ <;> simp [Frame.isComputing_iff, he] at hc
        | free he => rcases he with he | he <;> simp [Frame.isComputing_iff, he] at hc

theorem routeThrough_logs {fs : List (Frame R)} {i : Instruction R}
    (h : ∀ q ∈ i.qubits, Absorbs fs q) :
    List.Forall₂ (fun f f' => ∀ q, Frame.Logs f' q → Frame.Logs f q) fs
      (routeThrough fs i true).2 := by
  induction fs with
  | nil => exact .nil
  | cons f fs ih =>
    have hsame : ∀ gs : List (Frame R),
        List.Forall₂ (fun f f' => ∀ q, Frame.Logs f' q → Frame.Logs f q) gs gs :=
      fun gs => List.forall₂_same.2 fun _ _ _ hq => hq
    obtain ⟨e, -, hroute⟩ | ⟨f', hpass, hroute⟩ | ⟨f', j, c, hpass, hroute⟩ :=
      routeThrough_cases f fs i true <;> rw [hroute]
    · exact hsame _
    · refine .cons ?_ (hsame fs)
      intro q hq
      cases hpass with
      | hold he hm => exact absurd (he.symm.trans hq.1) (by decide)
    · obtain ⟨rfl, rfl⟩ := hpass.balanced_out
      have hout : ∀ q ∈ j.qubits, (f.isComputing = true → f.references q = true) ∧
          Absorbs fs q := fun q hq => (h q hq).resolve_left hpass.not_inversion
      refine .cons ?_ (ih fun q hq => (hout q hq).2)
      intro q hq
      rcases (hpass.logs_iff q).1 hq with hq | ⟨hc, hq⟩
      · exact hq
      · exact ⟨(Frame.isComputing_iff.1 hc).1, (hout q hq).1 hc⟩

theorem routeThrough_references {fs : List (Frame R)} {i : Instruction R} {b : Bool}
    {f' : Frame R} (hf' : f' ∈ (routeThrough fs i b).2) {q : QubitId}
    (hq : f'.references q = true) : (∃ f ∈ fs, f.references q = true) ∨ q ∈ i.qubits := by
  induction fs generalizing i b with
  | nil => exact absurd hf' List.not_mem_nil
  | cons f fs ih =>
    have keep : ∀ {f'' o}, f.Passes i b f'' o → f''.references q = true →
        (∃ g ∈ f :: fs, g.references q = true) ∨ q ∈ i.qubits := by
      intro f'' o hpass hq
      rcases hpass.references hq with hq | hq
      · exact .inl ⟨f, List.mem_cons_self, hq⟩
      · exact .inr hq
    obtain ⟨e, -, hroute⟩ | ⟨f'', hpass, hroute⟩ | ⟨f'', j, c, hpass, hroute⟩ :=
      routeThrough_cases f fs i b <;> rw [hroute] at hf'
    · exact .inl ⟨f', hf', hq⟩
    · rcases List.mem_cons.1 hf' with rfl | hf'
      · exact keep hpass hq
      · exact .inl ⟨f', List.mem_cons_of_mem _ hf', hq⟩
    · rcases List.mem_cons.1 hf' with rfl | hf'
      · exact keep hpass hq
      · rcases ih hf' with ⟨g, hg, hgq⟩ | hj
        · exact .inl ⟨g, List.mem_cons_of_mem _ hg, hgq⟩
        · rcases hpass.qubits_out hj with hi | ⟨cs, he, hcs⟩
          · exact .inr hi
          · refine .inl ⟨f, List.mem_cons_self, ?_⟩
            simpa [Frame.references, he] using hcs

end FrameStack

theorem Nested.kept_live {fs : List (Frame R)} (h : Nested fs) {f : Frame R} (hf : f ∈ fs)
    (he : f.environment = .inversion) {q : QubitId} (hq : f.references q = true) :
    q ∈ ownedBy fs := by
  induction fs with
  | nil => exact absurd hf List.not_mem_nil
  | cons g fs ih =>
    rw [ownedBy_cons, List.mem_append]
    rcases List.mem_cons.1 hf with rfl | hf
    · exact .inr (h.1.kept (inverted_cons.2 (.inl he)) q hq)
    · exact .inr (ih h.2 hf)

namespace Session

variable {s : Session R}

def PendingLive (s : Session R) : Prop :=
  ∀ f ∈ s.frames.toList, ∀ q, f.references q = true → s.allocator.isLive q = true

theorem Sound.references_live (h : Sound [] s) {f : Frame R} (hf : f ∈ s.frames.toList)
    (he : f.environment ≠ .conjugation) {q : QubitId} (hq : f.references q = true) :
    s.allocator.isLive q = true := by
  refine h.owned.live_of_owned ?_
  cases henv : f.environment with
  | conjugation => exact absurd henv he
  | inversion => exact h.owned.nested.kept_live hf henv hq
  | controlled cs =>
    refine h.owned.nested.controls_live hf henv ?_
    simpa [Frame.references, henv] using hq
  | iteration => simp [Frame.references, henv] at hq
  | classical c => simp [Frame.references, henv] at hq
  | scope => simp [Frame.references, henv] at hq

theorem send_frames (s : Session R) (i : Instruction R) (b : Bool) :
    List.Forall₂ Frame.Alike (FrameStack.routeThrough s.frames.toList i b).2
      (s.send i b).2.frames.toList := by
  rw [← (FrameStack.route_eq s.frames i b).2]
  refine send_invariant (P := fun s' => List.Forall₂ Frame.Alike (s.frames.route i b).2.toList
    s'.frames.toList) (alike_refl _) ?_
  intro s' j hs'
  simp only [deliver_eq, FrameStack.toList_map]
  refine alike_trans hs' (forall₂_map ?_ _)
  exact fun f => ⟨rfl, rfl, fun _ => rfl⟩

theorem send_carried (h : Carried s.frames.toList) (i : Instruction R) (b : Bool) :
    Carried (s.send i b).2.frames.toList :=
  carried_of_alike (send_frames s i b) (FrameStack.routeThrough_carried h i b)

theorem send_references {i : Instruction R} {b : Bool} {f' : Frame R}
    (hf' : f' ∈ (s.send i b).2.frames.toList) {q : QubitId} (hq : f'.references q = true) :
    (∃ f ∈ s.frames.toList, f.references q = true) ∨ q ∈ i.qubits := by
  obtain ⟨g, hg, halike⟩ := exists_of_mem_right (send_frames s i b) hf'
  rw [halike.references] at hq
  exact FrameStack.routeThrough_references hg hq

theorem send_logs {i : Instruction R} (h : ∀ q ∈ i.qubits, Absorbs s.frames.toList q)
    {f' : Frame R} (hf' : f' ∈ (s.send i true).2.frames.toList) {q : QubitId} (hq : f'.Logs q) :
    ∃ f ∈ s.frames.toList, f.Logs q := by
  obtain ⟨g, hg, halike⟩ := exists_of_mem_right (send_frames s i true) hf'
  obtain ⟨f, hf, hlogs⟩ := exists_of_mem_right (FrameStack.routeThrough_logs h) hg
  exact ⟨f, hf, hlogs q ((halike.logs_iff q).1 hq)⟩

theorem reclaim_alike (s : Session R) (qs : List QubitId) :
    List.Forall₂ Frame.Alike s.frames.toList (s.reclaim qs).2.frames.toList := by
  obtain ⟨_, -, hback⟩ | ⟨a, -, hback⟩ := s.reclaim_cases qs
  · rw [hback]
    exact alike_refl _
  · rw [hback]
    exact forall₂_map (fun f => Frame.alike_forget f qs) _

variable [Scalar R]

theorem undo_carried (h : Carried s.frames.toList) (l : List (Instruction R × Bool)) :
    Carried (s.undo l).2.frames.toList :=
  undo_invariant (P := fun s' => Carried s'.frames.toList)
    (fun _ _ b j hs' _ _ => send_carried hs' j b) h

theorem undo_references {l : List (Instruction R × Bool)} {f' : Frame R}
    (hf' : f' ∈ (s.undo l).2.frames.toList) {q : QubitId} (hq : f'.references q = true) :
    (∃ f ∈ s.frames.toList, f.references q = true) ∨ ∃ e ∈ l, q ∈ e.1.qubits := by
  refine undo_invariant (P := fun s' => ∀ f' ∈ s'.frames.toList, f'.references q = true →
    (∃ f ∈ s.frames.toList, f.references q = true) ∨ ∃ e ∈ l, q ∈ e.1.qubits) ?_
    (fun f hf hq => .inl ⟨f, hf, hq⟩) f' hf' hq
  intro s' i b j hs' hmem hadj f' hf' hq
  rcases send_references hf' hq with ⟨f, hf, hq⟩ | hj
  · exact hs' f hf hq
  · rw [(adjoint?_spec hadj).1] at hj
    exact .inr ⟨(i, b), hmem, hj⟩

theorem undo_logs {l : List (Instruction R × Bool)}
    (h : ∀ e ∈ l, e.2 = true ∧ ∀ q ∈ e.1.qubits, Absorbs s.frames.toList q) {f' : Frame R}
    (hf' : f' ∈ (s.undo l).2.frames.toList) {q : QubitId} (hq : f'.Logs q) :
    ∃ f ∈ s.frames.toList, f.Logs q := by
  refine (undo_invariant (P := fun s' => List.Forall₂ Frame.Kin s.frames.toList s'.frames.toList ∧
    ∀ f' ∈ s'.frames.toList, f'.Logs q → ∃ f ∈ s.frames.toList, f.Logs q) ?_
    ⟨kin_refl _, fun f hf hq => ⟨f, hf, hq⟩⟩).2 f' hf' hq
  rintro s' i b j ⟨hkin, hlogs⟩ hmem hadj
  refine ⟨kin_trans hkin (send_kin s' j b), ?_⟩
  intro f' hf' hq
  obtain ⟨rfl, hi⟩ := h _ hmem
  rw [← (adjoint?_spec hadj).1] at hi
  obtain ⟨f, hf, hq⟩ := send_logs (fun q hq => absorbs_of_kin hkin (hi q hq)) hf' hq
  exact hlogs f hf hq

theorem replay_carried (h : Carried s.frames.toList) (f : Frame R) :
    Carried (s.replay f).2.frames.toList := by
  rw [replay_eq]
  exact undo_carried h f.due

theorem replay_references {f f' : Frame R} (hf' : f' ∈ (s.replay f).2.frames.toList)
    {q : QubitId} (hq : f'.references q = true) :
    (∃ g ∈ s.frames.toList, g.references q = true) ∨ f.references q = true := by
  rw [replay_eq] at hf'
  exact (undo_references hf' hq).imp id fun ⟨_, hmem, heq⟩ => Frame.references_of_due hmem heq

/-! ## Closing and dropping -/

inductive Closes (s s' : Session R) : Prop
  | same (hf : s'.frames = s.frames) (ha : s'.allocator = s.allocator)
  | popped {parent : Frame R} {rest : List (Frame R)} {r : Except SessionError Unit}
    {s₁ : Session R} (qs : List QubitId) (hb : s.frames.below = parent :: rest)
    (hr : (s.popped parent rest).replay s.frames.top = (r, s₁))
    (hf : List.Forall₂ Frame.Alike s₁.frames.toList s'.frames.toList)
    (hqs : ∀ q ∈ qs, q ∈ s.frames.top.owned)
    (ha : ∀ q, s'.allocator.isLive q = true ↔ s.allocator.isLive q = true ∧ q ∉ qs)

theorem Sound.closes (h : Sound [] s) (id : FrameId) : s.Closes (s.exit id).2 := by
  -- after any failure behind the undoing, all that the frame still owns is returned
  have force : ∀ {parent rest r s₁}, s.frames.below = parent :: rest →
      (s.popped parent rest).replay s.frames.top = (r, s₁) →
        s.Closes (s₁.forceReclaim s.frames.top) := by
    intro parent rest r s₁ hb hr
    have hlimbo := h.replayed hb hr
    refine .popped (s.frames.top.owned.filter s₁.allocator.isLive) hb hr
      (reclaim_alike s₁ _) (fun q hq => (List.mem_filter.1 hq).1) ?_
    intro q
    rw [← h.replayed_isLive hb hr]
    exact reclaim_isLive hlimbo.allocator hlimbo.forceReclaimTop.1 q
  have hexits := exits s id
  generalize s.exit id = answer at hexits
  cases hexits with
  | refused e => exact .same rfl rfl
  | violated e => exact .same rfl rfl
  | stuck hb hr => exact force hb hr
  | leaky hb hr => exact force hb hr
  | refusedBack hb hr hback =>
    rw [(h.replayed hb hr).toReclaim_ok] at hback
    exact absurd hback (by simp)
  | closed hp hb hid hr hl hback =>
    next parent rest s₁ s₂ =>
    have hlimbo := h.replayed hb hr
    have halike := reclaim_alike s₁ s.frames.top.toReclaim
    rw [hback] at halike
    refine .popped s.frames.top.toReclaim hb hr ?_
      (fun q hq => (Frame.mem_toReclaim.1 hq).1) ?_
    · refine alike_trans halike ?_
      exact .cons (Frame.alike_own _ _) (alike_refl _)
    · intro q
      have hlive := reclaim_isLive hlimbo.allocator hlimbo.toReclaim_ok q
      rw [hback, h.replayed_isLive hb hr] at hlive
      exact hlive

omit [Scalar R] in
theorem foldl_forceReclaim_alike (fs : List (Frame R)) (s : Session R) :
    List.Forall₂ Frame.Alike s.frames.toList (fs.foldl forceReclaim s).frames.toList := by
  induction fs generalizing s with
  | nil => exact alike_refl _
  | cons f fs ih => exact alike_trans (reclaim_alike s _) (ih _)

omit [Scalar R] in
theorem Sound.foldl_forceReclaim_isLive {fs gs : List (Frame R)}
    (h : Sound (ownedBy (fs ++ gs)) s) (q : QubitId) :
    (fs.foldl Session.forceReclaim s).allocator.isLive q = true ↔
      s.allocator.isLive q = true ∧ q ∉ ownedBy fs := by
  induction fs generalizing s with
  | nil => simp
  | cons f fs ih =>
    have hstep : (s.forceReclaim f).allocator.isLive q = true ↔
        s.allocator.isLive q = true ∧ q ∉ f.owned.filter s.allocator.isLive :=
      reclaim_isLive h.allocator h.forceReclaim.1 q
    rw [List.foldl_cons, ih h.forceReclaim.2, hstep, ownedBy_cons, List.mem_append,
      List.mem_filter]
    tauto

omit [Scalar R] in
theorem Sound.abort_effect (h : Sound [] s) {id : FrameId} {dropped : List (Frame R)}
    {frames : FrameStack R}
    (hcut : FrameStack.cut? id s.frames.top s.frames.below = some (dropped, frames)) :
    List.Forall₂ Frame.Alike frames.toList (s.abort id).frames.toList ∧
      ∀ q, (s.abort id).allocator.isLive q = true ↔
        s.allocator.isLive q = true ∧ q ∉ ownedBy dropped := by
  have hdropped := h.dropped hcut
  rw [← List.append_nil dropped] at hdropped
  rw [abort_of_cut hcut]
  exact ⟨foldl_forceReclaim_alike dropped { s with frames }, hdropped.foldl_forceReclaim_isLive⟩

/-! ## One call -/

inductive Effect (s : Session R) : Call R → Session R → Prop
  | quiet {c : Call R} {s' : Session R}
    (hf : List.Forall₂ Frame.Alike s.frames.toList s'.frames.toList)
    (ha : ∀ q, s.allocator.isLive q = true → s'.allocator.isLive q = true) : Effect s c s'
  | returned {c : Call R} {s' : Session R} {qs : List QubitId}
    (hf : List.Forall₂ Frame.Alike s.frames.toList s'.frames.toList)
    (hqs : ∀ q ∈ qs, ∀ f ∈ s.frames.toList, f.references q = false)
    (ha : ∀ q, s'.allocator.isLive q = true ↔ s.allocator.isLive q = true ∧ q ∉ qs) : Effect s c s'
  | sent {c : Call R} {s' : Session R} {i : Instruction R}
    (hi : ∀ q ∈ i.qubits, s.allocator.isLive q = true)
    (hf : List.Forall₂ Frame.Alike (FrameStack.routeThrough s.frames.toList i false).2
      s'.frames.toList)
    (ha : ∀ q, s'.allocator.isLive q = s.allocator.isLive q) : Effect s c s'
  | entered {c : Call R} {s' : Session R} {f : Frame R}
    (hf : s'.frames.toList = f :: s.frames.toList) (hlogs : ∀ q, ¬ f.Logs q)
    (hlive : ∀ q, f.references q = true → s.allocator.isLive q = true)
    (ha : s'.allocator = s.allocator) : Effect s c s'
  | turned {c : Call R} {s' : Session R} {f : Frame R} (hf : s'.frames = { s.frames with top := f })
    (he : f.environment = s.frames.top.environment)
    (hr : ∀ q, f.references q = s.frames.top.references q) (ha : s'.allocator = s.allocator) :
    Effect s c s'
  | closed {id : FrameId} {s' : Session R} (h : s.Closes s') : Effect s (.exit id) s'
  | dropped {id : FrameId} {s' : Session R} {dropped : List (Frame R)} {frames : FrameStack R}
    (hcut : FrameStack.cut? id s.frames.top s.frames.below = some (dropped, frames))
    (hf : List.Forall₂ Frame.Alike frames.toList s'.frames.toList)
    (ha : ∀ q, s'.allocator.isLive q = true ↔
      s.allocator.isLive q = true ∧ q ∉ ownedBy dropped) : Effect s (.abort id) s'

theorem Effect.refl (s : Session R) (c : Call R) : Effect s c s :=
  .quiet (alike_refl _) fun _ hq => hq

theorem Sound.emit_effect (h : Sound [] s) (circuit : Circuit R) (i : Instruction R)
    (c : Call R) : Effect s c ({ s with circuit }.emit i).2 := by
  rcases Session.emit_cases { s with circuit } i with hno | ⟨hlive, hcall⟩
  · rw [hno.snd]
    exact .quiet (alike_refl _) fun _ hq => hq
  · rw [hcall]
    have hsound : Allocator.Sound { s with circuit }.allocator := h.allocator
    exact .sent hlive (send_frames { s with circuit } i false) (send_isLive hsound i false)

theorem Effect.of_refuses {α : Type} {a : Answer R α} (h : s.Refuses a) (c : Call R) :
    Effect s c a.2 := by
  rw [h.snd]
  exact .refl s c

theorem Sound.effect (h : Sound [] s) (c : Call R) : Effect s c (c.perform s).2 := by
  cases c with
  | allocate count name =>
    show Effect s _ (s.allocate count name).2
    rcases s.allocate_cases count name with hno | ⟨qs, a, -, -, ha, hcall⟩
    · exact .of_refuses hno _
    · rw [hcall]
      refine .quiet (.cons (Frame.alike_own _ _) (alike_refl _)) fun q hq => ?_
      exact ((Allocator.allocate_spec h.allocator ha).2.2.2 q).2 (.inl hq)
  | release qs =>
    show Effect s _ (s.release qs).2
    rcases s.release_cases qs with hno | ⟨hfree, hcall⟩
    · exact .of_refuses hno _
    · rw [hcall]
      rcases hr : (s.reclaim qs).1 with e | _
      · rw [reclaim_error hr]
        exact .refl s _
      · exact .returned (reclaim_alike s qs) (fun q hq f hf => (hfree q hq f hf).1)
          (reclaim_isLive h.allocator hr)
  | exportQubits qs =>
    show Effect s _ (s.exportQubits qs).2
    rcases s.exportQubits_cases qs with hno | ⟨-, hcall⟩
    · exact .of_refuses hno _
    · rw [hcall]
      exact .turned rfl rfl (fun _ => rfl) rfl
  | assertRestored qs =>
    show Effect s _ (s.assertRestored qs).2
    rcases s.assertRestored_cases qs with hno | hcall
    · exact .of_refuses hno _
    · rw [hcall]
      refine .quiet ?_ fun q hq => hq
      rw [FrameStack.toList_map]
      refine forall₂_map ?_ _
      exact fun f => ⟨rfl, rfl, fun _ => rfl⟩
  | apply g qs => exact h.emit_effect s.circuit _ _
  | barrier qs => exact h.emit_effect s.circuit _ _
  | measure q =>
    show Effect s _ (s.measure q).2
    rcases s.measure_cases q with hno | ⟨-, -, -, hcall⟩
    · exact .of_refuses hno _
    · rw [hcall _ rfl]
      exact h.emit_effect _ _ _
  | enter environment label =>
    show Effect s _ (s.enter environment label).2
    rcases s.enter_cases environment label with hno | ⟨hcontrols, hcall⟩
    · exact .of_refuses hno _
    · rw [hcall]
      refine .entered rfl ?_ ?_ rfl
      · rintro q ⟨henv, hq⟩
        obtain ⟨cs, hcs, -⟩ := Frame.references_new hq
        exact absurd (hcs.symm.trans henv) (by simp)
      · intro q hq
        obtain ⟨cs, hcs, hmem⟩ := Frame.references_new hq
        exact hcontrols cs hcs q hmem
  | beginAction =>
    show Effect s _ s.beginAction.2
    rcases s.beginAction_cases with hno | ⟨-, hcall⟩
    · exact .of_refuses hno _
    · rw [hcall]
      exact .turned rfl rfl (fun _ => rfl) rfl
  | exit id => exact .closed (h.closes id)
  | abort id =>
    show Effect s _ (s.abort id)
    rcases s.abort_cases id with hcall | ⟨dropped, frames, hcut, -⟩
    · rw [hcall]
      exact .refl s _
    · obtain ⟨hf, ha⟩ := h.abort_effect hcut
      exact .dropped hcut hf ha

theorem Effect.carried {c : Call R} {s' : Session R} (h : Effect s c s')
    (hc : Carried s.frames.toList) : Carried s'.frames.toList := by
  cases h with
  | quiet hf _ => exact carried_of_alike hf hc
  | returned hf _ _ => exact carried_of_alike hf hc
  | sent _ hf _ => exact carried_of_alike hf (FrameStack.routeThrough_carried hc _ _)
  | entered hf hlogs _ _ =>
    rw [hf]
    exact ⟨fun q hq => absurd hq (hlogs q), hc⟩
  | turned hf he hr _ =>
    rw [hf]
    refine ⟨?_, hc.2⟩
    rintro q ⟨henv, hq⟩
    exact hc.1 q ⟨he ▸ henv, hr q ▸ hq⟩
  | closed h =>
    cases h with
    | same hf _ =>
      rw [hf]
      exact hc
    | popped qs hb hr hf _ _ =>
      rw [FrameStack.toList, hb] at hc
      have hnext := replay_carried (s := s.popped _ _) hc.2 s.frames.top
      rw [hr] at hnext
      exact carried_of_alike hf hnext
  | dropped hcut hf _ =>
    rw [FrameStack.toList, FrameStack.cut?_toList hcut] at hc
    exact carried_of_alike hf hc.suffix

/-- The calls that take a qubit out of use which the log of an open conjugation names: an
environment inside the conjugation is closed or dropped and returns one of its own qubits. -/
def Strands (s : Session R) : Call R → Prop
  | .exit id => ∃ q ∈ s.frames.top.owned, (s.exit id).2.allocator.isLive q = false ∧
      ∃ f ∈ s.frames.below, f.Logs q
  | .abort id => ∃ dropped frames,
      FrameStack.cut? id s.frames.top s.frames.below = some (dropped, frames) ∧
        ∃ q ∈ ownedBy dropped, ∃ f ∈ frames.toList, f.Logs q
  | _ => False

theorem Sound.replayed_logs {parent : Frame R} {rest : List (Frame R)}
    {r : Except SessionError Unit} {s₁ : Session R} (h : Sound [] s)
    (hc : Carried s.frames.toList) (hb : s.frames.below = parent :: rest)
    (hr : (s.popped parent rest).replay s.frames.top = (r, s₁)) {q : QubitId}
    (hq : q ∈ s.frames.top.owned) {f' : Frame R} (hf' : f' ∈ s₁.frames.toList)
    (hlogs : f'.Logs q) : ∃ f ∈ s.frames.below, f.Logs q := by
  rw [FrameStack.toList, hb] at hc
  have hs₁ : s₁ = ((s.popped parent rest).replay s.frames.top).2 := by rw [hr]
  rw [hb]
  rw [hs₁, replay_eq] at hf'
  refine undo_logs (s := s.popped parent rest) ?_ hf' hlogs
  intro e hmem
  obtain ⟨he, hbalanced, -⟩ | ⟨he, -⟩ := Frame.due_cases hmem
  · exact ⟨hbalanced, fun p hp => hc.1 p ⟨he, Frame.references_of_due hmem hp⟩⟩
  · have hnone := (h.popped hb).2.owned (inverted_cons.2 (.inl he))
    rw [hnone] at hq
    exact absurd hq List.not_mem_nil

theorem Sound.exit_live (h : Sound [] s) (hc : Carried s.frames.toList) (hp : s.PendingLive)
    {id : FrameId} (hn : ¬ s.Strands (.exit id)) : PendingLive (s.exit id).2 := by
  intro f' hf' q hq
  by_cases henv : f'.environment = .conjugation
  · cases h.closes id with
    | same hf ha =>
      rw [hf] at hf'
      rw [ha]
      exact hp f' hf' q hq
    | popped qs hb hr hf hqs ha =>
      next parent rest r s₁ =>
      obtain ⟨g, hg, halike⟩ := exists_of_mem_right hf hf'
      have hgq : g.Logs q := (halike.logs_iff q).1 ⟨henv, hq⟩
      have hbefore : s.allocator.isLive q = true := by
        have hg' : g ∈ ((s.popped parent rest).replay s.frames.top).2.frames.toList := by
          rw [hr]
          exact hg
        rcases replay_references hg' hgq.2 with ⟨p, hmem, hpq⟩ | htop
        · refine hp p ?_ q hpq
          rw [FrameStack.toList, hb]
          exact List.mem_cons_of_mem _ hmem
        · exact hp s.frames.top List.mem_cons_self q htop
      refine (ha q).2 ⟨hbefore, fun hmem => hn ?_⟩
      refine ⟨q, hqs q hmem, ?_, h.replayed_logs hc hb hr (hqs q hmem) hg hgq⟩
      rw [Bool.eq_false_iff, ne_eq, ha]
      exact fun hlive => hlive.2 hmem
  · exact (h.exit id).references_live hf' henv hq

theorem Sound.abort_live (h : Sound [] s) (hp : s.PendingLive) {id : FrameId}
    (hn : ¬ s.Strands (.abort id)) : PendingLive (s.abort id) := by
  intro f' hf' q hq
  cases hcut : FrameStack.cut? id s.frames.top s.frames.below with
  | none =>
    have hsame : s.abort id = s := by simp [Session.abort, hcut]
    rw [hsame] at hf' ⊢
    exact hp f' hf' q hq
  | some cut =>
    obtain ⟨dropped, frames⟩ := cut
    obtain ⟨hf, ha⟩ := h.abort_effect hcut
    by_cases henv : f'.environment = .conjugation
    · obtain ⟨g, hg, halike⟩ := exists_of_mem_right hf hf'
      have hgq : g.Logs q := (halike.logs_iff q).1 ⟨henv, hq⟩
      refine (ha q).2 ⟨hp g ?_ q hgq.2, ?_⟩
      · rw [FrameStack.toList, FrameStack.cut?_toList hcut]
        exact List.mem_append_right _ hg
      · exact fun hmem => hn ⟨dropped, frames, hcut, q, hmem, g, hg, hgq⟩
    · exact (h.abort id).references_live hf' henv hq

theorem Effect.pendingLive {c : Call R} {s' : Session R} (h : Effect s c s')
    (hexit : ∀ id, c ≠ .exit id) (habort : ∀ id, c ≠ .abort id) (hp : s.PendingLive) :
    s'.PendingLive := by
  intro f' hf' q hq
  -- closing and dropping are left out, since they may take back what a log names
  cases h with
  | quiet hf ha =>
    obtain ⟨f, hmem, halike⟩ := exists_of_mem_right hf hf'
    exact ha q (hp f hmem q (halike.references q ▸ hq))
  | returned hf hqs ha =>
    obtain ⟨f, hmem, halike⟩ := exists_of_mem_right hf hf'
    rw [halike.references] at hq
    refine (ha q).2 ⟨hp f hmem q hq, fun hback => ?_⟩
    simp [hqs q hback f hmem] at hq
  | sent hi hf ha =>
    obtain ⟨g, hg, halike⟩ := exists_of_mem_right hf hf'
    rw [halike.references] at hq
    rw [ha]
    rcases FrameStack.routeThrough_references hg hq with ⟨f, hmem, hq⟩ | hq
    · exact hp f hmem q hq
    · exact hi q hq
  | entered hf hlogs hlive ha =>
    rw [ha]
    rw [hf] at hf'
    rcases List.mem_cons.1 hf' with rfl | hf'
    · exact hlive q hq
    · exact hp f' hf' q hq
  | turned hf he hr ha =>
    rw [ha]
    rw [hf] at hf'
    rcases List.mem_cons.1 hf' with rfl | hf'
    · exact hp s.frames.top List.mem_cons_self q (hr q ▸ hq)
    · exact hp f' (List.mem_cons_of_mem _ hf') q hq
  | closed h => exact absurd rfl (hexit _)
  | dropped hcut hf ha => exact absurd rfl (habort _)

theorem Sound.not_pendingLive (h : Sound [] s) {c : Call R} (hs : s.Strands c) :
    ¬ PendingLive (c.perform s).2 := by
  intro hp
  cases c with
  | exit id =>
    obtain ⟨q, hq, hdead, f, hf, hlogs⟩ := hs
    have hlive : s.allocator.isLive q = true :=
      h.owned.live_of_owned (List.mem_append_left _ hq)
    cases h.closes id with
    | same _ ha =>
      rw [ha, hlive] at hdead
      exact absurd hdead (by decide)
    | popped qs hb hr hfs hqs ha =>
      next parent rest r s₁ =>
      have hkin := replay_kin (s.popped parent rest) s.frames.top
      rw [hr] at hkin
      rw [hb] at hf
      obtain ⟨g, hg, hfg⟩ := exists_of_mem_left hkin hf
      obtain ⟨g', hg', halike⟩ := exists_of_mem_left hfs hg
      have hgq := ((halike.logs_iff q).2 (hfg.logs hlogs)).2
      exact absurd (hp g' hg' q hgq) (by simp [Call.perform, hdead])
  | abort id =>
    obtain ⟨dropped, frames, hcut, q, hq, f, hf, hlogs⟩ := hs
    obtain ⟨hfs, ha⟩ := h.abort_effect hcut
    obtain ⟨g, hg, halike⟩ := exists_of_mem_left hfs hf
    exact ((ha q).1 (hp g hg q ((halike.logs_iff q).2 hlogs).2)).2 hq
  | _ => exact hs

theorem Sound.pendingLive_perform_iff (h : Sound [] s) (hc : Carried s.frames.toList)
    (hp : s.PendingLive) (c : Call R) : PendingLive (c.perform s).2 ↔ ¬ s.Strands c := by
  refine ⟨fun hlive hs => h.not_pendingLive hs hlive, fun hn => ?_⟩
  cases c with
  | exit id => exact h.exit_live hc hp hn
  | abort id => exact h.abort_live hp hn
  | _ => exact (h.effect _).pendingLive (by simp) (by simp) hp

theorem Reachable.carried (h : s.Reachable) : Carried s.frames.toList := by
  refine (h.invariant (P := fun s => Sound [] s ∧ Carried s.frames.toList) ?_ ?_).2
  · intro config
    have hroot : ∀ q, ¬ (Session.new config : Session R).frames.top.Logs q := fun q hq => nomatch hq.1
    exact ⟨sound_new config, fun q hq => absurd hq (hroot q), trivial⟩
  · exact fun s c hs => ⟨hs.1.perform c, (hs.1.effect c).carried hs.2⟩

omit [Scalar R] in
theorem Sound.allocated_unreferenced (h : Sound [] s) (hp : s.PendingLive) {count : Nat}
    {name : String} {qs : List QubitId} {s' : Session R}
    (hok : s.allocate count name = (.ok qs, s')) {q : QubitId} (hq : q ∈ qs) {f : Frame R}
    (hf : f ∈ s'.frames.toList) : f.references q = false := by
  obtain ⟨hframes, a, ha, -⟩ := allocate_ok hok
  have hdead := (Allocator.allocate_spec h.allocator ha).2.1 q hq
  have hfree : ∀ g ∈ s.frames.toList, g.references q = false := by
    intro g hg
    by_contra hgq
    rw [hp g hg q (by simpa using hgq)] at hdead
    exact absurd hdead (by decide)
  rw [hframes] at hf
  rcases List.mem_cons.1 hf with rfl | hf
  · exact hfree s.frames.top List.mem_cons_self
  · exact hfree f (List.mem_cons_of_mem _ hf)

/-- Throughout a run all needed qubits are in use exactly if no call of it strands one. Controls
and what inversions have kept are in use in any case, and while all needed qubits are in use, no
request is granted with one of them. -/
theorem pending_qubits_live_iff (config : SessionConfig) (cs : List (Call R)) :
    ((∀ ds, ds <+: cs → PendingLive ((new config).after ds)) ↔
      ∀ ds c, ds ++ [c] <+: cs → ¬ Strands ((new config).after ds) c) ∧
    (∀ f ∈ ((new config).after cs).frames.toList, f.environment ≠ .conjugation →
      ∀ q, f.references q = true → ((new config).after cs).allocator.isLive q = true) ∧
    (PendingLive ((new config).after cs) → ∀ count name qs s',
      ((new config).after cs).allocate count name = (.ok qs, s') →
        ∀ q ∈ qs, ∀ f ∈ s'.frames.toList, f.references q = false) := by
  have hreach (ds : List (Call R)) : Reachable ((new config : Session R).after ds) :=
    (Reachable.new config).after ds
  have hstep (ds : List (Call R)) (c : Call R) (hp : PendingLive ((new config).after ds)) :
      PendingLive ((new config).after (ds ++ [c])) ↔ ¬ Strands ((new config).after ds) c := by
    rw [after_concat]
    exact (hreach ds).sound.pendingLive_perform_iff (hreach ds).carried hp c
  refine ⟨⟨?_, ?_⟩, ?_, ?_⟩
  · intro hlive ds c hprefix
    exact (hstep ds c (hlive ds ((List.prefix_append ds [c]).trans hprefix))).1
      (hlive (ds ++ [c]) hprefix)
  · intro hnone ds
    induction ds using List.reverseRecOn with
    | nil =>
      intro _ f hf q hq
      obtain rfl := List.mem_singleton.1 hf
      exact absurd hq Bool.false_ne_true
    | append_singleton ds c ih =>
      intro hprefix
      have hp := ih ((List.prefix_append ds [c]).trans hprefix)
      exact (hstep ds c hp).2 (hnone ds c hprefix)
  · exact fun f hf he q hq => (hreach cs).sound.references_live hf he hq
  · exact fun hp count name qs s' hok q hq f hf =>
      (hreach cs).sound.allocated_unreferenced hp hok hq hf

theorem pending_qubit_handed_out :
    ∃ s : Session Float, (new {}).run [.allocate 1 "a", .enter .conjugation "c", .enter .scope "l",
        .allocate 1 "b", .apply (.ofStandard .z) [1], .exit 2] = .ok s ∧
      ¬ s.PendingLive ∧ (s.allocate 1 "b").1 = .ok [1] ∧ s.frames.top.Logs 1 := by
  refine ⟨(new {}).after [.allocate 1 "a", .enter .conjugation "c", .enter .scope "l",
    .allocate 1 "b", .apply (.ofStandard .z) [1], .exit 2], run_eq_after (by decide +kernel), ?_,
    by decide +kernel, ?_⟩
  · intro hp
    exact absurd (hp _ List.mem_cons_self 1 (by decide +kernel)) (by decide +kernel)
  · exact ⟨by decide +kernel, by decide +kernel⟩

end Session

end Ancilla
