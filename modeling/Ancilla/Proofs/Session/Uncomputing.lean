import Ancilla.Proofs.Session.Outcome

/-!
What the end of a conjugation sends. As long as the circuit refuses nothing, the log of a
conjugation with no inversion around it is what has come out into the circuit during its compute
phase: whatever comes to it goes on outwards balanced, and a balanced instruction is kept back by
inversions only and changed by no frame. So closing the conjugation sends the adjoints of these
instructions, the latest first, just as they are.
-/

namespace Ancilla

variable {R : Type}

namespace Frame

variable {f f' : Frame R} {i : Instruction R} {b : Bool} {o : Option (Instruction R × Bool)}

theorem Passes.conjugation (h : f.Passes i b f' o) (he : f.environment = .conjugation) :
    f.phase = .compute ∧ f'.log = (i, b) :: f.log ∧ o = some (i, true) ∨
      f.phase = .act ∧ f'.log = f.log ∧ o = some (i, b) := by
  cases h with
  | compute hf hm => exact .inl ⟨(isComputing_iff.1 hf).2, rfl, rfl⟩
  | act _ hp =>
    refine .inr ⟨hp, ?_, rfl⟩
    rw [note_eq]
    cases b <;> rfl
  | control he' hb hj => exact absurd (he.symm.trans he') (by simp)
  | condition he' hb hj => exact absurd (he.symm.trans he') (by simp)
  | shield he' hb =>
    rcases he' with ⟨cs, he'⟩ | ⟨c, he'⟩
    · exact absurd (he.symm.trans he') (by simp)
    · exact absurd (he.symm.trans he') (by simp)
  | hold he' hm => exact absurd (he.symm.trans he') (by simp)
  | free he' =>
    rcases he' with he' | he'
    · exact absurd (he.symm.trans he') (by simp)
    · exact absurd (he.symm.trans he') (by simp)

end Frame

/-! ## Logs without measurements -/

def Undoable (fs : List (Frame R)) : Prop := ∀ f ∈ fs, ∀ e ∈ f.log, e.1.isMeasure = false

theorem Undoable.sheds {fs fs' : List (Frame R)} (h : Undoable fs)
    (hf : List.Forall₂ Frame.Sheds fs fs') : Undoable fs' := by
  intro f' hf' e he
  obtain ⟨f, hmem, hsheds⟩ := exists_of_mem_right hf hf'
  rw [hsheds.log] at he
  exact h f hmem e he

theorem Undoable.routeThrough {fs : List (Frame R)} (h : Undoable fs) (i : Instruction R)
    (b : Bool) : Undoable (FrameStack.routeThrough fs i b).2 := by
  induction fs generalizing i b with
  | nil => exact h
  | cons f fs ih =>
    have hfs : Undoable fs := fun g hg => h g (List.mem_cons_of_mem _ hg)
    have hlog : ∀ {f' o}, f.Passes i b f' o → ∀ e ∈ f'.log, e.1.isMeasure = false := by
      intro f' o hpass e he
      rcases hpass.log_eq with hl | ⟨hl, hm, -⟩
      · rw [hl] at he
        exact h f List.mem_cons_self e he
      · rw [hl] at he
        rcases List.mem_cons.1 he with rfl | he
        · exact hm
        · exact h f List.mem_cons_self e he
    obtain ⟨e, -, hroute⟩ | ⟨f', hpass, hroute⟩ | ⟨f', j, c, hpass, hroute⟩ :=
      FrameStack.routeThrough_cases f fs i b <;> rw [hroute]
    · exact h
    · exact List.forall_mem_cons.2 ⟨hlog hpass, hfs⟩
    · exact List.forall_mem_cons.2 ⟨hlog hpass, ih hfs j c⟩

namespace Session

variable {s s' : Session R}

theorem send_sheds (s : Session R) (i : Instruction R) (b : Bool) :
    List.Forall₂ Frame.Sheds (FrameStack.routeThrough s.frames.toList i b).2
      (s.send i b).2.frames.toList := by
  rw [← (FrameStack.route_eq s.frames i b).2]
  refine send_invariant (P := fun s' => List.Forall₂ Frame.Sheds (s.frames.route i b).2.toList
    s'.frames.toList) (sheds_refl _) ?_
  intro s' j hs'
  rw [deliver_eq]
  exact sheds_trans hs' (forall₂_map (fun f => Frame.sheds_count f (some j)) s'.frames.toList)

theorem send_error {i : Instruction R} {b : Bool} {e : SessionError} (hm : i.isMeasure = false)
    (h : s.send i b = (.error e, s')) : ∃ err, e = .circuit err := by
  obtain ⟨o, ho⟩ := FrameStack.routeThrough_of_not_measure s.frames.toList hm b
  rw [← (FrameStack.route_eq s.frames i b).1] at ho
  unfold Session.send at h
  rcases hr : s.frames.route i b with ⟨r, frames⟩
  rw [hr] at ho
  obtain rfl : r = .ok o := ho
  simp only [hr] at h
  cases o with
  | none => simp at h
  | some j =>
    simp only [Session.deliver, onCircuit_eq] at h
    split at h
    · simp at h
    · next err _ _ =>
      exact ⟨err, (Except.error.inj (Prod.mk.inj h).1).symm⟩

variable [Scalar R]

theorem exists_adjoint? {i : Instruction R} (h : i.isMeasure = false) :
    ∃ j, i.adjoint? = some j ∧ j.isMeasure = false := by
  unfold Instruction.adjoint?
  unfold Instruction.isMeasure at h ⊢
  cases hop : i.operation with
  | gate g => exact ⟨_, rfl, rfl⟩
  | measure => simp [hop] at h
  | barrier => exact ⟨_, rfl, by rw [hop]⟩

theorem undo_error {l : List (Instruction R × Bool)} {e : SessionError}
    (hl : ∀ d ∈ l, d.1.isMeasure = false) (h : s.undo l = (.error e, s')) :
    ∃ err, e = .circuit err := by
  induction l generalizing s with
  | nil => simp [Session.undo] at h
  | cons d l ih =>
    obtain ⟨i, b⟩ := d
    obtain ⟨j, hadj, hj⟩ := exists_adjoint? (hl (i, b) List.mem_cons_self)
    unfold Session.undo at h
    simp only [hadj] at h
    rcases hsend : s.send j b with ⟨e' | _, s₁⟩
    · rw [hsend] at h
      obtain ⟨err, rfl⟩ := send_error hj hsend
      exact ⟨err, (Except.error.inj (Prod.mk.inj h).1).symm⟩
    · rw [hsend] at h
      exact ih (fun d hd => hl d (List.mem_cons_of_mem _ hd)) h

theorem replay_error {f : Frame R} {e : SessionError} (hf : ∀ d ∈ f.log, d.1.isMeasure = false)
    (h : s.replay f = (.error e, s')) : ∃ err, e = .circuit err := by
  rw [replay_eq] at h
  refine undo_error (fun d hd => ?_) h
  obtain ⟨b, hlog⟩ := Frame.log_of_due hd
  exact hf (d.1, b) hlog

theorem Undoable.undo {l : List (Instruction R × Bool)} (h : Undoable s.frames.toList) :
    Undoable (s.undo l).2.frames.toList :=
  undo_invariant (P := fun s => Undoable s.frames.toList)
    (fun s' _ b j hs' _ _ => (hs'.routeThrough j b).sheds (send_sheds s' j b)) h

theorem Undoable.replay {f : Frame R} (h : Undoable s.frames.toList) :
    Undoable (s.replay f).2.frames.toList := by
  rw [replay_eq]
  exact Undoable.undo h

theorem Outcome.undoable {c : Call R} {r : Except SessionError Unit} (h : Outcome s c (r, s'))
    (hs : Undoable s.frames.toList) : Undoable s'.frames.toList := by
  have htop := hs s.frames.top List.mem_cons_self
  have hbelow : Undoable s.frames.below := fun f hf => hs f (List.mem_cons_of_mem _ hf)
  cases h with
  | kept hf => exact hs.sheds hf
  | granted _ hf =>
    rw [hf]
    exact List.forall_mem_cons.2 ⟨htop, hbelow⟩
  | @sent _ i _ fs _ _ hr hf =>
    have hrouted := hs.routeThrough i false
    rw [hr] at hrouted
    exact hrouted.sheds hf
  | entered hf =>
    rw [hf]
    exact List.forall_mem_cons.2 ⟨fun e he => absurd he List.not_mem_nil, hs⟩
  | turned _ hf =>
    rw [hf]
    exact List.forall_mem_cons.2 ⟨htop, hbelow⟩
  | @closed _ parent rest _ _ _ hb h =>
    obtain ⟨hr, hf, hs', -, -, -, -⟩ := h
    next s₁ frames qs =>
    have hpopped : Undoable (s.popped parent rest).frames.toList := by
      rw [hb] at hbelow
      exact hbelow
    have hreplay := Undoable.replay (f := s.frames.top) hpopped
    rw [hr] at hreplay
    obtain ⟨hparent, hrest⟩ := List.forall_mem_cons.1 (hreplay.sheds hf)
    rw [hs']
    exact List.forall_mem_cons.2 ⟨hparent, hrest⟩
  | @dropped _ fs frames _ hcut hf =>
    rw [show s.frames.toList = fs ++ frames.toList from FrameStack.cut?_toList hcut] at hs
    exact Undoable.sheds (fun f hmem => hs f (List.mem_append_right _ hmem)) hf

theorem Reachable.undoable (h : s.Reachable) : Undoable s.frames.toList := by
  refine (h.invariant (P := fun s => Sound [] s ∧ s.Equipped ∧ Undoable s.frames.toList) ?_ ?_).2.2
  · intro config
    refine ⟨sound_new config, (Reachable.new config).equipped, fun f hf e he => ?_⟩
    obtain rfl := List.mem_singleton.1 hf
    exact absurd he List.not_mem_nil
  · rintro s c ⟨hsound, hequipped, hs⟩
    exact ⟨hsound.perform c, hequipped.perform hsound c, (hequipped.outcome c).undoable hs⟩

end Session

/-! ## The log of a conjugation -/

theorem akin_of_sheds {fs fs' : List (Frame R)} (h : List.Forall₂ Frame.Sheds fs fs') :
    List.Forall₂ Frame.Akin fs fs' := h.imp fun _ _ hf => hf.toAkin

theorem akin_modifyTop {g : Frame R → Frame R} (hg : ∀ f : Frame R, f.Akin (g f))
    (fs : FrameStack R) : List.Forall₂ Frame.Akin fs.toList (fs.modifyTop g).toList :=
  .cons (hg fs.top) (akin_of_sheds (sheds_refl fs.below))

theorem inverted_of_akin {fs fs' : List (Frame R)} (h : List.Forall₂ Frame.Akin fs fs') :
    Inverted fs' ↔ Inverted fs :=
  inverted_congr (map_eq_of_forall₂ h Frame.Akin.environment)

/-- The conjugation `id` is open in phase `p`, no inversion stands around it, and its log holds the
instructions `kept`, the latest first. -/
def Conjugates (id : FrameId) (p : Phase) (kept : List (Instruction R)) (fs : List (Frame R)) :
    Prop :=
  ∃ inner f outer, fs = inner ++ f :: outer ∧ f.id = id ∧ f.environment = .conjugation ∧
    f.phase = p ∧ ¬ Inverted outer ∧ f.log.map Prod.fst = kept.reverse

section Log

variable {id : FrameId} {p : Phase} {kept : List (Instruction R)} {fs fs' : List (Frame R)}

theorem Conjugates.cons (h : Conjugates id p kept fs) (g : Frame R) :
    Conjugates id p kept (g :: fs) := by
  obtain ⟨inner, f, outer, rfl, hf⟩ := h
  exact ⟨g :: inner, f, outer, rfl, hf⟩

theorem Conjugates.akin (h : Conjugates id p kept fs) (hf : List.Forall₂ Frame.Akin fs fs') :
    Conjugates id p kept fs' := by
  obtain ⟨inner, f, outer, rfl, hid, he, hp, hinv, hlog⟩ := h
  induction inner generalizing fs' with
  | nil =>
    cases hf with
    | cons hf houter =>
      refine ⟨[], _, _, rfl, hf.id.trans hid, hf.environment.trans he, hf.phase.trans hp, ?_, ?_⟩
      · rwa [inverted_of_akin houter]
      · rw [hf.log, hlog]
  | cons g inner ih =>
    cases hf with
    | cons _ hrest => exact (ih hrest).cons _

theorem FrameStack.routeThrough_balanced {i : Instruction R} {o : Option (Instruction R)}
    (hinv : ¬ Inverted fs) (h : routeThrough fs i true = (.ok o, fs')) : o = some i := by
  induction fs generalizing fs' with
  | nil =>
    simp only [routeThrough, Prod.mk.injEq, Except.ok.injEq] at h
    exact h.1.symm
  | cons f fs ih =>
    rw [inverted_cons, not_or] at hinv
    rcases routeThrough_cons h with ⟨f', hp, -, -, -⟩ | ⟨f', j, c, gs, hp, -, hrest, -⟩
    · cases hp with
      | hold he hm => exact absurd he hinv.1
    · obtain ⟨rfl, rfl⟩ := hp.balanced_out
      exact ih hinv.2 hrest

theorem Conjugates.routeThrough {i : Instruction R} {b : Bool} {o : Option (Instruction R)}
    (h : Conjugates id p kept fs) (hr : FrameStack.routeThrough fs i b = (.ok o, fs')) :
    Conjugates id p (kept ++ if p = .compute then o.toList else []) fs' := by
  obtain ⟨inner, f, outer, rfl, hid, he, hp, hinv, hlog⟩ := h
  induction inner generalizing i b fs' with
  | nil =>
    rcases FrameStack.routeThrough_cons hr with
      ⟨f', hpass, -, -, -⟩ | ⟨f', j, c, gs, hpass, -, hrest, rfl⟩
    · rcases hpass.conjugation he with ⟨-, -, ho⟩ | ⟨-, -, ho⟩ <;> exact absurd ho (by simp)
    · have hkin := FrameStack.routeThrough_kin outer j c
      rw [hrest] at hkin
      refine ⟨[], f', gs, rfl, hpass.kin.id.trans hid, hpass.kin.environment.trans he,
        hpass.kin.phase.trans hp, (inverted_of_kin hkin).not.2 hinv, ?_⟩
      rcases hpass.conjugation he with ⟨hphase, hl, ho⟩ | ⟨hphase, hl, -⟩
      · simp only [Option.some.injEq, Prod.mk.injEq] at ho
        obtain ⟨rfl, rfl⟩ := ho
        obtain rfl := FrameStack.routeThrough_balanced hinv hrest
        rw [hl, List.map_cons, hlog, ← hp, hphase]
        simp
      · rw [hl, hlog, ← hp, hphase]
        simp
  | cons g inner ih =>
    rcases FrameStack.routeThrough_cons hr with
      ⟨g', -, -, rfl, rfl⟩ | ⟨g', j, c, gs, -, -, hrest, rfl⟩
    · simp only [Option.toList_none, ite_self, List.append_nil]
      exact ⟨g' :: inner, f, outer, rfl, hid, he, hp, hinv, hlog⟩
    · exact (ih hrest).cons g'

end Log

namespace Session

variable {s s' : Session R} {id : FrameId} {p : Phase} {kept : List (Instruction R)}

theorem Conjugates.send {i : Instruction R} {b : Bool} (h : Conjugates id p kept s.frames.toList)
    (hok : s.send i b = (.ok (), s')) :
    ∃ new, s'.emissions = s.emissions ++ new ∧
      Conjugates id p (kept ++ if p = .compute then new else []) s'.frames.toList := by
  obtain ⟨o, fs, hr, hf, he⟩ := send_ok hok
  refine ⟨o.toList, he, (h.routeThrough hr).akin ?_⟩
  rw [hf]
  exact akin_of_sheds (forall₂_map (fun f => Frame.sheds_count f o) fs)

variable [Scalar R]

theorem Conjugates.undo {l : List (Instruction R × Bool)} (h : Conjugates id p kept s.frames.toList)
    (hok : s.undo l = (.ok (), s')) :
    ∃ new, s'.emissions = s.emissions ++ new ∧
      Conjugates id p (kept ++ if p = .compute then new else []) s'.frames.toList := by
  induction l generalizing s kept with
  | nil =>
    obtain rfl : s = s' := (Prod.mk.inj hok).2
    exact ⟨[], (List.append_nil _).symm, by simpa using h⟩
  | cons d l ih =>
    obtain ⟨i, b⟩ := d
    obtain ⟨j, s₁, -, hsend, hrest⟩ := undo_cons_ok hok
    obtain ⟨new, he, hnext⟩ := Conjugates.send h hsend
    obtain ⟨new', he', hlast⟩ := ih hnext hrest
    refine ⟨new ++ new', by rw [he', he, List.append_assoc], ?_⟩
    rw [List.append_assoc] at hlast
    cases p <;> simpa using hlast

theorem Conjugates.replay {f : Frame R} (h : Conjugates id p kept s.frames.toList)
    (hok : s.replay f = (.ok (), s')) :
    ∃ new, s'.emissions = s.emissions ++ new ∧
      Conjugates id p (kept ++ if p = .compute then new else []) s'.frames.toList := by
  rw [replay_eq] at hok
  exact Conjugates.undo h hok

/-! ## Runs -/

def isComputing (s : Session R) (id : FrameId) : Bool :=
  s.frames.any fun f => f.id = id && f.isComputing

/-- What calls add to the circuit while the conjugation `id` computes. -/
def computed (id : FrameId) : Session R → List (Call R) → List (Instruction R)
  | _, [] => []
  | s, c :: cs =>
    let s' := (c.perform s).2
    (if s.isComputing id then s'.emissions.drop s.emissions.length else []) ++ s'.computed id cs

def Unrefused : Session R → List (Call R) → Prop
  | _, [] => True
  | s, c :: cs => (∀ err, (c.perform s).1 ≠ .error (.circuit err)) ∧ Unrefused (c.perform s).2 cs

theorem unrefused_of_run {cs : List (Call R)} (h : (s.run cs).isOk = true) : s.Unrefused cs := by
  induction cs generalizing s with
  | nil => trivial
  | cons c cs ih =>
    rw [run_cons] at h
    rcases hc : c.perform s with ⟨e | _, s'⟩
    · rw [hc] at h
      exact absurd h Bool.false_ne_true
    · rw [hc] at h
      unfold Unrefused
      rw [hc]
      exact ⟨fun err => by simp, ih h⟩

/-- Either the log of the conjugation `id` holds `kept`, or the conjugation has been closed or
dropped for good. -/
def Recorded (id : FrameId) (kept : List (Instruction R)) (s : Session R) : Prop :=
  (∃ p, Conjugates id p kept s.frames.toList) ∨
    id < s.nextFrame ∧ id ∉ s.frames.toList.map Frame.id

omit [Scalar R] in
theorem Numbered.isComputing_iff (hs : s.Numbered) (h : Conjugates id p kept s.frames.toList) :
    s.isComputing id = true ↔ p = .compute := by
  obtain ⟨inner, f, outer, hframes, hid, he, hp, -, -⟩ := h
  have hnodup := hs.nodup
  unfold Session.isComputing FrameStack.any
  rw [List.any_eq_true]
  constructor
  · rintro ⟨g, hg, hgc⟩
    simp only [Bool.and_eq_true, decide_eq_true_eq] at hgc
    have hf : f ∈ s.frames.toList := by simp [hframes]
    have heq := List.inj_on_of_nodup_map hnodup hg hf (hgc.1.trans hid.symm)
    rw [← hp, ← heq]
    exact (Frame.isComputing_iff.1 hgc.2).2
  · rintro rfl
    refine ⟨f, by simp [hframes], ?_⟩
    simp only [Bool.and_eq_true, decide_eq_true_eq]
    exact ⟨hid, Frame.isComputing_iff.2 ⟨he, hp⟩⟩

omit [Scalar R] in
theorem Conjugates.turn (h : Conjugates id p kept s.frames.toList) :
    ∃ p', Conjugates id p' kept
      (s.frames.modifyTop fun f => { f with phase := .act }).toList := by
  obtain ⟨inner, f, outer, hframes, hid, henv, hp, hinv, hlog⟩ := h
  cases inner with
  | nil =>
    obtain ⟨rfl, rfl⟩ := List.cons.inj hframes
    exact ⟨.act, [], _, _, rfl, hid, henv, rfl, hinv, hlog⟩
  | cons g inner =>
    obtain ⟨rfl, hbelow⟩ := List.cons.inj hframes
    exact ⟨p, _ :: inner, f, outer, congrArg (_ :: ·) hbelow, hid, henv, hp, hinv, hlog⟩

omit [Scalar R] in
theorem Conjugates.cut {n : FrameId} {dropped : List (Frame R)} {frames : FrameStack R}
    (hs : s.Numbered) (h : Conjugates id p kept s.frames.toList)
    (hcut : FrameStack.cut? n s.frames.top s.frames.below = some (dropped, frames)) :
    Conjugates id p kept frames.toList ∨ id ∉ frames.toList.map Frame.id := by
  obtain ⟨inner, f, outer, hframes, hid, henv, hp, hinv, hlog⟩ := h
  have hall : inner ++ f :: outer = dropped ++ frames.toList :=
    hframes.symm.trans (FrameStack.cut?_toList hcut)
  rcases List.append_eq_append_iff.1 hall with ⟨as, rfl, hrest⟩ | ⟨as, rfl, hrest⟩
  · cases as with
    | nil => exact .inl ⟨[], f, outer, hrest.symm, hid, henv, hp, hinv, hlog⟩
    | cons g as =>
      -- the conjugation is among the dropped frames
      obtain ⟨rfl, hrest⟩ := List.cons.inj hrest
      right
      rw [← hid]
      have hnodup := hs.nodup
      rw [hframes, hrest, List.map_append, List.cons_append, List.map_cons,
        List.map_append] at hnodup
      have houtside := (List.nodup_cons.1 (List.nodup_append'.1 hnodup).2.1).1
      exact fun hmem => houtside (List.mem_append_right _ hmem)
  · exact .inl ⟨as, f, outer, hrest, hid, henv, hp, hinv, hlog⟩

theorem Closed.conjugates {parent : Frame R} {rest : List (Frame R)} {r : Except SessionError Unit}
    (h : Closed s parent rest (r, s')) (hb : s.frames.below = parent :: rest) (hs : s.Numbered)
    (hu : Undoable s.frames.toList) (hr : ∀ err, r ≠ .error (.circuit err))
    (hk : Conjugates id p kept s.frames.toList) :
    (∃ new, s'.emissions = s.emissions ++ new ∧
      Conjugates id p (kept ++ if p = .compute then new else []) s'.frames.toList) ∨
      id ∉ s'.frames.toList.map Frame.id := by
  obtain ⟨inner, f, outer, hframes, hid, henv, hp, hinv, hlog⟩ := hk
  cases inner with
  | nil =>
    obtain ⟨rfl, hbelow⟩ := List.cons.inj hframes
    right
    rw [h.ids, ← hb, ← hid]
    exact (List.nodup_cons.1 hs.nodup).1
  | cons g inner =>
    obtain ⟨rfl, hbelow⟩ := List.cons.inj hframes
    have hpopped : Conjugates id p kept (s.popped parent rest).frames.toList :=
      ⟨inner, f, outer, hb.symm.trans hbelow, hid, henv, hp, hinv, hlog⟩
    obtain ⟨hreplay, hf, hs', -, hr₁, he, -⟩ := h
    next r₁ s₁ frames qs =>
    rcases r₁ with e | _
    · -- logs hold no measurements, so a failure would be one of the circuit
      obtain ⟨err, rfl⟩ := replay_error (hu s.frames.top List.mem_cons_self) hreplay
      exact absurd (hr₁ _ rfl) (hr err)
    · obtain ⟨new, hnew, hnext⟩ := Conjugates.replay hpopped hreplay
      refine .inl ⟨new, he.trans hnew, ?_⟩
      rw [hs']
      exact (hnext.akin (akin_of_sheds hf)).akin (akin_modifyTop (fun f => f.akin_own qs) frames)

theorem Outcome.conjugates {c : Call R} {r : Except SessionError Unit} (h : Outcome s c (r, s'))
    (hs : s.Numbered) (hu : Undoable s.frames.toList) (hr : ∀ err, r ≠ .error (.circuit err))
    (hk : Conjugates id p kept s.frames.toList) :
    (∃ new p', s'.emissions = s.emissions ++ new ∧
      Conjugates id p' (kept ++ if p = .compute then new else []) s'.frames.toList) ∨
      id ∉ s'.frames.toList.map Frame.id := by
  -- most calls emit nothing
  have quiet : ∀ p', s'.emissions = s.emissions → Conjugates id p' kept s'.frames.toList →
      (∃ new p', s'.emissions = s.emissions ++ new ∧
        Conjugates id p' (kept ++ if p = .compute then new else []) s'.frames.toList) ∨
        id ∉ s'.frames.toList.map Frame.id := by
    intro p' he hk'
    exact .inl ⟨[], p', by rw [he, List.append_nil], by simpa using hk'⟩
  cases h with
  | kept hf he _ => exact quiet p he (hk.akin (akin_of_sheds hf))
  | granted _ hf he _ =>
    refine quiet p he ?_
    rw [hf]
    exact hk.akin (akin_modifyTop (fun f => f.akin_own _) s.frames)
  | @sent _ i o fs _ _ hroute hf he _ =>
    rcases he with ⟨-, he⟩ | ⟨⟨err, rfl⟩, -⟩
    · exact .inl ⟨o.toList, p, he, (hk.routeThrough hroute).akin (akin_of_sheds hf)⟩
    · exact absurd rfl (hr err)
  | entered hf he _ =>
    refine quiet p he ?_
    rw [hf]
    exact hk.cons _
  | turned _ hf he _ =>
    obtain ⟨p', hk'⟩ := Conjugates.turn hk
    exact quiet p' he (hf ▸ hk')
  | closed _ hb h =>
    exact (h.conjugates hb hs hu hr hk).imp_left fun ⟨new, he, hk'⟩ => ⟨new, p, he, hk'⟩
  | dropped hcut hf he _ =>
    rcases Conjugates.cut hs hk hcut with hk' | hid
    · exact quiet p he (hk'.akin (akin_of_sheds hf))
    · right
      rwa [ids_of_sheds hf]

theorem Outcome.recorded {c : Call R} {r : Except SessionError Unit} (h : Outcome s c (r, s'))
    (hs : s.Numbered) (hu : Undoable s.frames.toList) (hr : ∀ err, r ≠ .error (.circuit err))
    (hk : Recorded id kept s) :
    Recorded id
      (kept ++ if s.isComputing id then s'.emissions.drop s.emissions.length else []) s' := by
  rcases hk with ⟨p, hk⟩ | ⟨hlt, hid⟩
  · rcases h.conjugates hs hu hr hk with ⟨new, p', he, hk'⟩ | hid
    · refine .inl ⟨p', ?_⟩
      rw [he, List.drop_left]
      simp only [hs.isComputing_iff hk]
      exact hk'
    · refine .inr ⟨?_, hid⟩
      obtain ⟨inner, f, outer, hframes, rfl, -⟩ := hk
      have hlt : f.id < s.nextFrame := (List.pairwise_cons.1 hs).1 f.id (by simp [hframes])
      rcases h.ids with ⟨hn, -⟩ | ⟨hn, -⟩
      · exact hn ▸ hlt
      · exact hn ▸ Nat.lt_succ_of_lt hlt
  · right
    rcases h.ids with ⟨hn, hsuffix⟩ | ⟨hn, hids⟩
    · exact ⟨hn ▸ hlt, fun hmem => hid (hsuffix.subset hmem)⟩
    · refine ⟨hn ▸ Nat.lt_succ_of_lt hlt, ?_⟩
      rw [hids, List.mem_cons, not_or]
      exact ⟨Nat.ne_of_lt hlt, hid⟩

theorem Recorded.after {cs : List (Call R)} (hs : s.Reachable) (h : Recorded id kept s)
    (hcs : s.Unrefused cs) : Recorded id (kept ++ s.computed id cs) (s.after cs) := by
  induction cs generalizing s kept with
  | nil =>
    rw [computed, List.append_nil]
    exact h
  | cons c cs ih =>
    have hstep := (hs.equipped.outcome c).recorded hs.numbered hs.undoable hcs.1 h
    have hrest := ih (hs.call c) hstep hcs.2
    rwa [List.append_assoc] at hrest

theorem undo_balanced {l : List (Instruction R)} (hinv : ¬ Inverted s.frames.toList)
    (hok : s.undo (l.map fun i => (i, true)) = (.ok (), s')) :
    ∃ sent, s'.emissions = s.emissions ++ sent ∧
      l.map Instruction.adjoint? = sent.map some := by
  induction l generalizing s with
  | nil =>
    obtain rfl : s = s' := (Prod.mk.inj hok).2
    exact ⟨[], (List.append_nil _).symm, rfl⟩
  | cons i l ih =>
    rw [List.map_cons] at hok
    obtain ⟨j, s₁, hadj, hsend, hrest⟩ := undo_cons_ok hok
    obtain ⟨o, fs, hr, hf, he⟩ := send_ok hsend
    obtain rfl := FrameStack.routeThrough_balanced hinv hr
    have hkin := send_kin s j true
    rw [hsend] at hkin
    obtain ⟨sent, he', hsent⟩ := ih ((inverted_of_kin hkin).not.2 hinv) hrest
    refine ⟨j :: sent, by rw [he', he, List.append_assoc]; rfl, ?_⟩
    rw [List.map_cons, List.map_cons, hadj, hsent]

theorem Recorded.exit (hs : s.Numbered) (h : Recorded id kept s)
    (hexit : s.exit id = (.ok (), s')) :
    ∃ sent, s'.emissions = s.emissions ++ sent ∧
      kept.reverse.map Instruction.adjoint? = sent.map some := by
  obtain ⟨parent, rest, s₁, s₂, hb, htop, hr, -, hback, rfl⟩ := exit_ok hexit
  rcases h with ⟨p, inner, f, outer, hframes, hid, henv, -, houter, hlog⟩ | ⟨-, hgone⟩
  · cases inner with
    | cons g inner =>
      -- frames have different numbers, so this one is not the innermost
      obtain ⟨rfl, hbelow⟩ := List.cons.inj hframes
      refine absurd ?_ (List.nodup_cons.1 hs.nodup).1
      rw [htop, hbelow, ← hid]
      exact List.mem_map_of_mem (List.mem_append_right _ List.mem_cons_self)
    | nil =>
      obtain ⟨rfl, hbelow⟩ := List.cons.inj hframes
      rw [hb] at hbelow
      have hundo : s.frames.top.due = kept.reverse.map fun i => (i, true) := by
        rw [Frame.due_conjugation henv, ← hlog, List.map_map]
        rfl
      rw [replay_eq, hundo] at hr
      have hinv : ¬ Inverted (s.popped parent rest).frames.toList := by
        rw [← hbelow] at houter
        exact houter
      obtain ⟨sent, hsent, hadjoint⟩ := undo_balanced hinv hr
      exact ⟨sent, (reclaim_emissions hback).trans hsent, hadjoint⟩
  · rw [← htop] at hgone
    exact absurd List.mem_cons_self hgone

/-- Closing a conjugation that stands in no inversion sends the adjoints of what came out during
its compute phase, the latest first, and nothing else. -/
theorem conjugation_exit_inverts {s s₁ s' : Session R} {label : String} {id : FrameId}
    {cs : List (Call R)} (hs : s.Reachable) (hinv : ¬ Inverted s.frames.toList)
    (henter : s.enter .conjugation label = (.ok id, s₁)) (hcs : s₁.Unrefused cs)
    (hexit : (s₁.after cs).exit id = (.ok (), s')) :
    ∃ sent, s'.emissions = (s₁.after cs).emissions ++ sent ∧
      (s₁.computed id cs).reverse.map Instruction.adjoint? = sent.map some := by
  have hentered : Recorded id [] s₁ := by
    obtain ⟨rfl, rfl⟩ := enter_eq henter
    exact .inl ⟨.compute, [], _, _, rfl, rfl, rfl, rfl, hinv, rfl⟩
  have hreach := hs.entered henter
  exact (Recorded.after hreach hentered hcs).exit (hreach.after cs).numbered hexit

theorem nested_conjugation_exit_inverts :
    ∃ (s s₁ s' : Session Float) (cs : List (Call Float)),
      s = (new {}).after [.allocate 3 "a", .enter (.controlled [0]) "k"] ∧
      s.enter .conjugation "c" = (.ok 2, s₁) ∧
      cs = [.apply (.ofStandard .h) [1], .enter .inversion "i", .apply (.ofStandard .s) [1],
        .exit 3, .enter .conjugation "n", .apply (.ofStandard .cx) [1, 2], .beginAction,
        .apply (.ofStandard .t) [2], .exit 4, .beginAction, .apply (.ofStandard .z) [2]] ∧
      (s₁.run cs).isOk = true ∧ (s₁.after cs).exit 2 = (.ok (), s') ∧
      (s₁.computed 2 cs).length = 5 ∧ ∃ sent, s'.emissions = (s₁.after cs).emissions ++ sent ∧
        (s₁.computed 2 cs).reverse.map Instruction.adjoint? = sent.map some := by
  let s : Session Float := (new {}).after [.allocate 3 "a", .enter (.controlled [0]) "k"]
  let s₁ := (s.enter .conjugation "c").2
  let cs : List (Call Float) := [.apply (.ofStandard .h) [1], .enter .inversion "i",
    .apply (.ofStandard .s) [1], .exit 3, .enter .conjugation "n", .apply (.ofStandard .cx) [1, 2],
    .beginAction, .apply (.ofStandard .t) [2], .exit 4, .beginAction, .apply (.ofStandard .z) [2]]
  have henter : s.enter .conjugation "c" = (.ok 2, s₁) := Prod.ext (by decide +kernel) rfl
  have hrun : (s₁.run cs).isOk = true := by decide +kernel
  have hexit : (s₁.after cs).exit 2 = (.ok (), ((s₁.after cs).exit 2).2) :=
    Prod.ext (by decide +kernel) rfl
  have hinv : ¬ Inverted s.frames.toList := by
    have henvs : s.frames.toList.map Frame.environment = [.controlled [0], .scope] := by
      decide +kernel
    rintro ⟨f, hf, he⟩
    have hmem := List.mem_map_of_mem (f := Frame.environment) hf
    rw [henvs, he] at hmem
    exact absurd hmem (by decide)
  exact ⟨s, s₁, _, cs, rfl, henter, rfl, hrun, hexit, by decide +kernel,
    conjugation_exit_inverts ((Reachable.new {}).after _) hinv henter (unrefused_of_run hrun) hexit⟩

end Session

end Ancilla
