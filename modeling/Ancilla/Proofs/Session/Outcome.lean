import Ancilla.Proofs.Session.Leaks
import Ancilla.Proofs.Session.Refusals

/-!
What a call does to the stack of open frames and to the circuit, said once, with what each frame
has kept and owns. It follows that frames are numbered upwards from the root, below the number that
is given out next.
-/

namespace Ancilla

variable {R : Type}

structure Frame.Akin (f f' : Frame R) : Prop where
  id : f'.id = f.id
  environment : f'.environment = f.environment
  phase : f'.phase = f.phase
  log : f'.log = f.log

/-- Two states of one frame: it may have lost qubits and changed its marks. -/
structure Frame.Sheds (f f' : Frame R) : Prop extends Frame.Akin f f' where
  owned : ∀ q ∈ f'.owned, q ∈ f.owned

namespace Frame

theorem akin_own (f : Frame R) (qs : List QubitId) : f.Akin (f.own qs) := ⟨rfl, rfl, rfl, rfl⟩

theorem sheds_refl (f : Frame R) : f.Sheds f := ⟨⟨rfl, rfl, rfl, rfl⟩, fun _ hq => hq⟩

theorem Akin.trans {f g h : Frame R} (hfg : f.Akin g) (hgh : g.Akin h) : f.Akin h :=
  ⟨hgh.id.trans hfg.id, hgh.environment.trans hfg.environment, hgh.phase.trans hfg.phase,
    hgh.log.trans hfg.log⟩

theorem Sheds.trans {f g h : Frame R} (hfg : f.Sheds g) (hgh : g.Sheds h) : f.Sheds h :=
  ⟨hfg.toAkin.trans hgh.toAkin, fun q hq => hfg.owned q (hgh.owned q hq)⟩

theorem sheds_forget (f : Frame R) (qs : List QubitId) : f.Sheds (f.forget qs) :=
  ⟨⟨rfl, rfl, rfl, rfl⟩, fun _ hq => (mem_owned_forget.1 hq).1⟩

theorem sheds_count (f : Frame R) (o : Option (Instruction R)) : f.Sheds (f.count o) :=
  ⟨⟨rfl, rfl, rfl, rfl⟩, fun _ hq => hq⟩

theorem own_nil (f : Frame R) : f.own [] = f := by
  simp [own, QubitSet.insertAll]

end Frame

theorem FrameStack.modifyTop_own_nil (s : FrameStack R) :
    (s.modifyTop fun f => f.own []) = s := by
  simp only [Frame.own_nil]
  rfl

theorem sheds_refl (fs : List (Frame R)) : List.Forall₂ Frame.Sheds fs fs :=
  List.forall₂_same.2 fun f _ => f.sheds_refl

theorem sheds_trans {fs gs hs : List (Frame R)} (h : List.Forall₂ Frame.Sheds fs gs)
    (h' : List.Forall₂ Frame.Sheds gs hs) : List.Forall₂ Frame.Sheds fs hs :=
  forall₂_trans h h' Frame.Sheds.trans

theorem ids_of_sheds {fs fs' : List (Frame R)} (h : List.Forall₂ Frame.Sheds fs fs') :
    fs'.map Frame.id = fs.map Frame.id :=
  map_eq_of_forall₂ h fun hf => hf.id

namespace Session

variable {s s' : Session R}

theorem reclaim_sheds (s : Session R) (qs : List QubitId) :
    List.Forall₂ Frame.Sheds s.frames.toList (s.reclaim qs).2.frames.toList := by
  obtain ⟨_, -, hback⟩ | ⟨a, -, hback⟩ := s.reclaim_cases qs
  · rw [hback]
    exact sheds_refl _
  · rw [hback]
    exact forall₂_map (fun f => Frame.sheds_forget f qs) _

theorem reclaim_keeps (s : Session R) (qs : List QubitId) :
    (s.reclaim qs).2.emissions = s.emissions ∧ (s.reclaim qs).2.nextFrame = s.nextFrame ∧
      (s.reclaim qs).2.isPoisoned = s.isPoisoned := by
  obtain ⟨_, -, hback⟩ | ⟨a, -, hback⟩ := s.reclaim_cases qs <;> rw [hback] <;>
    exact ⟨rfl, rfl, rfl⟩

theorem foldl_forceReclaim_keeps (fs : List (Frame R)) (s : Session R) :
    List.Forall₂ Frame.Sheds s.frames.toList (fs.foldl forceReclaim s).frames.toList ∧
      (fs.foldl forceReclaim s).emissions = s.emissions ∧
      (fs.foldl forceReclaim s).nextFrame = s.nextFrame ∧
      (fs.foldl forceReclaim s).isPoisoned = s.isPoisoned := by
  induction fs generalizing s with
  | nil => exact ⟨sheds_refl _, rfl, rfl, rfl⟩
  | cons f fs ih =>
    obtain ⟨hsheds, hemissions, hnext, hpoisoned⟩ := ih (s.forceReclaim f)
    obtain ⟨h₁, h₂, h₃⟩ := reclaim_keeps s (f.owned.filter s.allocator.isLive)
    exact ⟨sheds_trans (reclaim_sheds s _) hsheds, hemissions.trans h₁, hnext.trans h₂,
      hpoisoned.trans h₃⟩

theorem send_keeps (s : Session R) (i : Instruction R) (b : Bool) :
    (s.send i b).2.nextFrame = s.nextFrame ∧ (s.send i b).2.isPoisoned = s.isPoisoned := by
  refine send_invariant
    (P := fun s' => s'.nextFrame = s.nextFrame ∧ s'.isPoisoned = s.isPoisoned) ⟨rfl, rfl⟩ ?_
  intro s' j hs'
  rw [deliver_eq]
  exact hs'

variable [Scalar R]

theorem replay_keeps (s : Session R) (f : Frame R) :
    (s.replay f).2.nextFrame = s.nextFrame ∧ (s.replay f).2.isPoisoned = s.isPoisoned := by
  rw [replay_eq]
  exact undo_invariant
    (P := fun s' => s'.nextFrame = s.nextFrame ∧ s'.isPoisoned = s.isPoisoned)
    (fun s' _ b j hs' _ _ => ⟨(send_keeps s' j b).1.trans hs'.1,
      (send_keeps s' j b).2.trans hs'.2⟩) ⟨rfl, rfl⟩

/-! ## The inversion of a call -/

inductive Closed (s : Session R) (parent : Frame R) (rest : List (Frame R)) : Answer R Unit → Prop
  | mk {r₁ r : Except SessionError Unit} {s₁ s' : Session R} {frames : FrameStack R}
    {qs : List QubitId} (hr : (s.popped parent rest).replay s.frames.top = (r₁, s₁))
    (hf : List.Forall₂ Frame.Sheds s₁.frames.toList frames.toList)
    (hs' : s'.frames = frames.modifyTop fun f => f.own qs)
    (hqs : r = .ok () ∧ qs = s.frames.top.exported ∨ (∃ e, r = .error e) ∧ qs = [])
    (hr₁ : ∀ e, r₁ = .error e → r = .error e) (he : s'.emissions = s₁.emissions)
    (hn : s'.nextFrame = s.nextFrame) : Closed s parent rest (r, s')

/-- What a call does: nothing but to marks, exports and lost qubits; it hands out qubits; it sends
an instruction, which the circuit may refuse; it opens a frame, turns a conjugation to its action,
closes the innermost frame or drops frames. -/
inductive Outcome (s : Session R) : Call R → Answer R Unit → Prop
  | kept {c : Call R} {r : Except SessionError Unit} {s' : Session R}
    (hf : List.Forall₂ Frame.Sheds s.frames.toList s'.frames.toList)
    (he : s'.emissions = s.emissions) (hn : s'.nextFrame = s.nextFrame) : Outcome s c (r, s')
  | granted {count : Nat} {name : String} {qs : List QubitId} {s' : Session R}
    (ha : s.allocate count name = (.ok qs, s'))
    (hf : s'.frames = s.frames.modifyTop fun f => f.own qs)
    (he : s'.emissions = s.emissions) (hn : s'.nextFrame = s.nextFrame) :
    Outcome s (.allocate count name) (.ok (), s')
  | sent {c : Call R} {i : Instruction R} {o : Option (Instruction R)} {fs : List (Frame R)}
    {r : Except SessionError Unit} {s' : Session R}
    (hr : FrameStack.routeThrough s.frames.toList i false = (.ok o, fs))
    (hf : List.Forall₂ Frame.Sheds fs s'.frames.toList)
    (he : r = .ok () ∧ s'.emissions = s.emissions ++ o.toList ∨
      (∃ err, r = .error (.circuit err)) ∧ s'.emissions = s.emissions)
    (hn : s'.nextFrame = s.nextFrame) : Outcome s c (r, s')
  | entered {environment : Environment} {label : String} {s' : Session R}
    (hf : s'.frames = s.frames.push (.new s.nextFrame environment label))
    (he : s'.emissions = s.emissions) (hn : s'.nextFrame = s.nextFrame + 1) :
    Outcome s (.enter environment label) (.ok (), s')
  | turned {s' : Session R} (hc : s.frames.top.isComputing = true)
    (hf : s'.frames = s.frames.modifyTop fun f => { f with phase := .act })
    (he : s'.emissions = s.emissions) (hn : s'.nextFrame = s.nextFrame) :
    Outcome s .beginAction (.ok (), s')
  | closed {id : FrameId} {parent : Frame R} {rest : List (Frame R)}
    {r : Except SessionError Unit} {s' : Session R} (hid : s.frames.top.id = id)
    (hb : s.frames.below = parent :: rest) (h : Closed s parent rest (r, s')) :
    Outcome s (.exit id) (r, s')
  | dropped {id : FrameId} {fs : List (Frame R)} {frames : FrameStack R} {s' : Session R}
    (hcut : FrameStack.cut? id s.frames.top s.frames.below = some (fs, frames))
    (hf : List.Forall₂ Frame.Sheds frames.toList s'.frames.toList)
    (he : s'.emissions = s.emissions) (hn : s'.nextFrame = s.nextFrame) :
    Outcome s (.abort id) (.ok (), s')

theorem Outcome.same (s : Session R) (c : Call R) (r : Except SessionError Unit) :
    Outcome s c (r, s) := .kept (sheds_refl _) rfl rfl

theorem Outcome.refused (c : Call R) {a : Except SessionError Unit × Session R}
    (h : s.Refuses a) : Outcome s c a := by
  obtain ⟨e, -, rfl⟩ := h
  exact .same s c _

theorem Outcome.emitted {circuit : Circuit R} {i : Instruction R} (c : Call R)
    (hc : circuit.instructions = s.circuit.instructions)
    (h : { s with circuit }.emit i = (.ok (), s')) : Outcome s c (.ok (), s') := by
  have hsend := (emit_ok h).2
  obtain ⟨o, fs, hr, hf, he⟩ := send_ok hsend
  have hn := (send_keeps { s with circuit } i false).1
  rw [hsend] at hn
  refine .sent hr ?_ (.inl ⟨rfl, he.trans ?_⟩) hn
  · rw [hf]
    exact forall₂_map (fun f => Frame.sheds_count f o) fs
  · exact congrArg (fun a : Array (Instruction R) => a.toList ++ o.toList) hc

theorem Equipped.emit_outcome (h : s.Equipped) (c : Call R) {i : Instruction R}
    (hm : i.isMeasure = false) : Outcome s c (s.emit i) := by
  rcases hemit : s.emit i with ⟨e | _, s'⟩
  · rcases emit_error h.accepting hm hemit with
      ⟨rfl, -⟩ | ⟨j, frames, err, hroute, rfl, -, rfl⟩
    · exact .same _ c _
    · obtain ⟨hr, hframes⟩ := FrameStack.route_eq s.frames i false
      rw [hroute] at hr hframes
      refine .sent (o := some j) (Prod.ext hr.symm hframes.symm) ?_ (.inr ⟨⟨err, rfl⟩, rfl⟩) rfl
      exact forall₂_map (fun f => Frame.sheds_count f (some j)) frames.toList
  · exact .emitted c rfl hemit

theorem Equipped.measure_outcome (h : s.Equipped) (q : QubitId) :
    Outcome s (.measure q) ((Call.measure q).perform s) := by
  rcases hm : s.measure q with ⟨e | b, s'⟩
  · obtain ⟨rfl, -⟩ := h.measure_error hm
    simp only [Call.perform, hm]
    exact .same _ _ _
  · simp only [Call.perform, hm, Except.map]
    have hkept : (s.circuit.addClbit (some q)).2.instructions = s.circuit.instructions := rfl
    exact .emitted _ hkept (measure_ok hm)

theorem exit_closed {id : FrameId} {parent : Frame R} {rest : List (Frame R)}
    (hp : s.isPoisoned = false) (hid : s.frames.top.id = id)
    (hb : s.frames.below = parent :: rest) : Closed s parent rest (s.exit id) := by
  rcases hr : (s.popped parent rest).replay s.frames.top with ⟨r₁, s₁⟩
  have hnext := (replay_keeps (s.popped parent rest) s.frames.top).1
  rw [hr] at hnext
  -- a failed attempt returns all qubits of the frame
  have failed : ∀ e, (∀ e', r₁ = .error e' → e = e') →
      Closed s parent rest (.error e, s₁.forceReclaim s.frames.top) := by
    intro e herr
    obtain ⟨hemissions, hframe, -⟩ :=
      reclaim_keeps s₁ (s.frames.top.owned.filter s₁.allocator.isLive)
    exact .mk hr (reclaim_sheds s₁ (s.frames.top.owned.filter s₁.allocator.isLive))
      (FrameStack.modifyTop_own_nil _).symm (.inr ⟨⟨e, rfl⟩, rfl⟩)
      (fun e' he' => by rw [herr e' he']) hemissions (hframe.trans hnext)
  obtain ⟨hemissions, hframe, -⟩ := reclaim_keeps s₁ s.frames.top.toReclaim
  have hsheds := reclaim_sheds s₁ s.frames.top.toReclaim
  rw [← hid, exit_of_top hp hb, hr]
  rcases r₁ with e | _
  · exact failed e fun e' he' => Except.error.inj he'
  · simp only []
    split
    · split
      · next e s₂ hback =>
        rw [hback] at hemissions hframe hsheds
        exact .mk hr hsheds (FrameStack.modifyTop_own_nil _).symm (.inr ⟨⟨e, rfl⟩, rfl⟩)
          (fun e' he' => by simp at he') hemissions (hframe.trans hnext)
      · next s₂ hback =>
        rw [hback] at hemissions hframe hsheds
        exact .mk hr hsheds rfl (.inl ⟨rfl, rfl⟩) (fun e' he' => by simp at he') hemissions
          (hframe.trans hnext)
    · exact failed _ fun e' he' => by simp at he'

theorem exit_outcome (s : Session R) (id : FrameId) : Outcome s (.exit id) (s.exit id) := by
  cases hp : s.isPoisoned with
  | true =>
    rw [exit_of_poisoned hp]
    exact .same s _ _
  | false =>
    cases hb : s.frames.below with
    | nil =>
      rw [exit_of_root hp hb]
      exact .same s _ _
    | cons parent rest =>
      by_cases hid : s.frames.top.id = id
      · exact .closed hid hb (exit_closed hp hid hb)
      · rw [exit_of_ne hp hb hid]
        exact .kept (sheds_refl _) rfl rfl

theorem Equipped.outcome (h : s.Equipped) (c : Call R) : Outcome s c (c.perform s) := by
  cases c with
  | allocate count name =>
    rcases ha : s.allocate count name with ⟨e | qs, s'⟩
    · simp only [Call.perform, ha, allocate_error ha]
      exact .same s _ _
    · simp only [Call.perform, ha, Except.map]
      obtain ⟨_, -, rfl⟩ := granted_of_allocate ha
      exact .granted ha rfl (allocate_emissions ha) rfl
  | release qs =>
    show Outcome s _ (s.release qs)
    obtain hrefused | ⟨-, heq⟩ := s.release_cases qs
    · exact .refused _ hrefused
    · obtain ⟨hemissions, hnext, -⟩ := reclaim_keeps s qs
      rw [heq]
      exact .kept (reclaim_sheds s qs) hemissions hnext
  | exportQubits qs =>
    show Outcome s _ (s.exportQubits qs)
    obtain hrefused | ⟨-, heq⟩ := s.exportQubits_cases qs
    · exact .refused _ hrefused
    · rw [heq]
      exact .kept (.cons ⟨⟨rfl, rfl, rfl, rfl⟩, fun _ hq => hq⟩ (sheds_refl _)) rfl rfl
  | assertRestored qs =>
    show Outcome s _ (s.assertRestored qs)
    obtain hrefused | heq := s.assertRestored_cases qs
    · exact .refused _ hrefused
    · rw [heq]
      refine .kept ?_ rfl rfl
      rw [FrameStack.toList_map]
      refine forall₂_map ?_ _
      exact fun f => ⟨⟨rfl, rfl, rfl, rfl⟩, fun _ hq => hq⟩
  | apply g qs => exact h.emit_outcome _ rfl
  | barrier qs => exact h.emit_outcome _ rfl
  | measure q => exact h.measure_outcome q
  | enter environment label =>
    show Outcome s _ ((s.enter environment label).1.map fun _ => (), (s.enter environment label).2)
    obtain hrefused | ⟨-, heq⟩ := s.enter_cases environment label
    · exact .refused _ (hrefused.map fun _ => ())
    · rw [heq]
      exact .entered rfl rfl rfl
  | beginAction =>
    show Outcome s _ s.beginAction
    obtain hrefused | ⟨hc, heq⟩ := s.beginAction_cases
    · exact .refused _ hrefused
    · rw [heq]
      exact .turned hc rfl rfl rfl
  | exit id => exact exit_outcome s id
  | abort id =>
    show Outcome s _ (.ok (), s.abort id)
    obtain heq | ⟨fs, frames, hcut, heq⟩ := s.abort_cases id
    · rw [heq]
      exact .same s _ _
    · obtain ⟨hsheds, hemissions, hnext, -⟩ := foldl_forceReclaim_keeps fs { s with frames }
      rw [heq]
      exact .dropped hcut hsheds hemissions hnext

/-! ## Numbers of frames -/

def Numbered (s : Session R) : Prop := (s.nextFrame :: s.frames.toList.map Frame.id).Pairwise (· > ·)

omit [Scalar R] in
theorem Numbered.nodup (h : s.Numbered) : (s.frames.toList.map Frame.id).Nodup :=
  (List.pairwise_cons.1 h).2.imp fun hlt => Nat.ne_of_gt hlt

omit [Scalar R] in
theorem Numbered.suffix (h : s.Numbered) (hn : s'.nextFrame = s.nextFrame)
    (hids : s'.frames.toList.map Frame.id <:+ s.frames.toList.map Frame.id) : s'.Numbered := by
  unfold Numbered
  rw [hn]
  exact List.Pairwise.sublist (hids.sublist.cons_cons _) h

theorem Closed.nextFrame {parent : Frame R} {rest : List (Frame R)} {r : Except SessionError Unit}
    (h : Closed s parent rest (r, s')) : s'.nextFrame = s.nextFrame := by
  obtain ⟨_, _, _, _, _, _, hn⟩ := h
  exact hn

theorem Closed.ids {parent : Frame R} {rest : List (Frame R)} {r : Except SessionError Unit}
    (h : Closed s parent rest (r, s')) :
    s'.frames.toList.map Frame.id = (parent :: rest).map Frame.id := by
  obtain ⟨hr, hf, hs', -, -, -, -⟩ := h
  have hkin := replay_kin (s.popped parent rest) s.frames.top
  rw [hr] at hkin
  rw [hs']
  exact (ids_of_sheds hf).trans (ids_of_kin hkin)

theorem Outcome.ids {c : Call R} {r : Except SessionError Unit} (h : Outcome s c (r, s')) :
    s'.nextFrame = s.nextFrame ∧ s'.frames.toList.map Frame.id <:+ s.frames.toList.map Frame.id ∨
      s'.nextFrame = s.nextFrame + 1 ∧
        s'.frames.toList.map Frame.id = s.nextFrame :: s.frames.toList.map Frame.id := by
  cases h with
  | kept hf _ hn => exact .inl ⟨hn, (ids_of_sheds hf) ▸ List.suffix_rfl⟩
  | granted _ hf _ hn => exact .inl ⟨hn, hf ▸ List.suffix_rfl⟩
  | @sent _ i _ fs _ _ hr hf _ hn =>
    have hkin := FrameStack.routeThrough_kin s.frames.toList i false
    rw [hr] at hkin
    exact .inl ⟨hn, ((ids_of_sheds hf).trans (ids_of_kin hkin)) ▸ List.suffix_rfl⟩
  | entered hf _ hn =>
    rw [hf]
    exact .inr ⟨hn, rfl⟩
  | turned _ hf _ hn => exact .inl ⟨hn, hf ▸ List.suffix_rfl⟩
  | closed _ hb h =>
    refine .inl ⟨h.nextFrame, ?_⟩
    rw [h.ids, FrameStack.toList, hb]
    exact List.suffix_cons _ _
  | @dropped _ fs frames _ hcut hf _ hn =>
    refine .inl ⟨hn, ?_⟩
    rw [ids_of_sheds hf, show s.frames.toList = fs ++ frames.toList from
      FrameStack.cut?_toList hcut, List.map_append]
    exact List.suffix_append _ _

theorem Outcome.numbered {c : Call R} {r : Except SessionError Unit} (h : Outcome s c (r, s'))
    (hs : s.Numbered) : s'.Numbered := by
  rcases h.ids with ⟨hn, hids⟩ | ⟨hn, hids⟩
  · exact hs.suffix hn hids
  · unfold Numbered
    rw [hn, hids]
    refine List.pairwise_cons.2 ⟨fun n hmem => ?_, hs⟩
    rcases List.mem_cons.1 hmem with rfl | hmem
    · exact Nat.lt_succ_self _
    · exact Nat.lt_succ_of_lt ((List.pairwise_cons.1 hs).1 n hmem)

theorem Reachable.numbered (h : s.Reachable) : s.Numbered := by
  refine (h.invariant (P := fun s => Sound [] s ∧ s.Equipped ∧ s.Numbered) ?_ ?_).2.2
  · intro config
    exact ⟨sound_new config, (Reachable.new config).equipped,
      List.pairwise_cons.2 ⟨by simp [Session.new, FrameStack.toList, Frame.new],
        List.pairwise_singleton _ _⟩⟩
  · rintro s c ⟨hsound, hequipped, hnumbered⟩
    exact ⟨hsound.perform c, hequipped.perform hsound c, (hequipped.outcome c).numbered hnumbered⟩

end Session

end Ancilla
