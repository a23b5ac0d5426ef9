import Ancilla.Proofs.Session.Equipment
import Ancilla.Proofs.Session.Outcome
import Ancilla.Proofs.Session.Program

/-!
Constructions that succeed. A construction places a list of placements if it succeeds in every
session that can send them and leaves the session that sending them leaves, up to the marks of the
frames. An environment around such a construction is opened and closed without a refusal: what
leaves it can be sent to the frames around, so what its body sends can be sent inside it.
-/

namespace Ancilla

variable {R : Type}

/-! ## Sessions up to marks -/

def Frame.unmarked (f : Frame R) : Frame R := { f with touched := {}, superposed := {} }

theorem Frame.unmarked_note (f : Frame R) (i : Instruction R) (b : Bool) :
    (f.note i b).unmarked = f.unmarked := by
  unfold Frame.note
  split
  · rfl
  · split <;> rfl

theorem Frame.pass_unmarked (f : Frame R) (i : Instruction R) (b : Bool) :
    (f.unmarked.pass i b).map (fun r => (r.1.unmarked, r.2)) =
      (f.pass i b).map fun r => (r.1.unmarked, r.2) := by
  have hplain : f.unmarked.unmarked = f.unmarked := rfl
  unfold Frame.pass
  rw [show f.unmarked.environment = f.environment from rfl,
    show f.unmarked.phase = f.phase from rfl]
  -- no branch looks at marks; what a frame notes is taken off again on either side
  cases f.environment with
  | conjugation =>
    simp only []
    split
    · split
      · rfl
      · simp only [Except.map, unmarked_note]
        rfl
    · cases b <;> simp only [Except.map, unmarked_note] <;> rfl
  | controlled cs =>
    cases b with
    | true => simp only [if_true, Except.map, unmarked_note, hplain]
    | false =>
      simp only [Bool.false_eq_true, if_false]
      rcases i.addControls cs with e | j
      · rfl
      · simp only [bind, Except.bind, pure, Except.pure, Except.map, unmarked_note, hplain]
  | classical c =>
    cases b with
    | true => simp only [if_true, Except.map, unmarked_note, hplain]
    | false =>
      simp only [Bool.false_eq_true, if_false]
      rcases i.addCondition c with e | j
      · rfl
      · simp only [bind, Except.bind, pure, Except.pure, Except.map, unmarked_note, hplain]
  | inversion =>
    simp only []
    split <;> rfl
  | iteration => simp only [Except.map, unmarked_note, hplain]
  | scope => simp only [Except.map, unmarked_note, hplain]

theorem FrameStack.routeThrough_unmarked (fs : List (Frame R)) (i : Instruction R) (b : Bool) :
    (routeThrough (fs.map Frame.unmarked) i b).1 = (routeThrough fs i b).1 ∧
      (routeThrough (fs.map Frame.unmarked) i b).2.map Frame.unmarked =
        (routeThrough fs i b).2.map Frame.unmarked := by
  induction fs generalizing i b with
  | nil => exact ⟨rfl, rfl⟩
  | cons f fs ih =>
    have hpass := f.pass_unmarked i b
    have hplain : (fs.map Frame.unmarked).map Frame.unmarked = fs.map Frame.unmarked := by
      rw [List.map_map]
      rfl
    simp only [List.map_cons, routeThrough]
    rcases hf : f.pass i b with e | ⟨f₁, o⟩ <;> rcases hu : f.unmarked.pass i b with e' | ⟨g₁, o'⟩ <;>
      simp only [hf, hu, Except.map, Except.ok.injEq, Except.error.injEq, Prod.mk.injEq,
        reduceCtorEq] at hpass
    · subst hpass
      exact ⟨rfl, congrArg (f.unmarked :: ·) hplain⟩
    · obtain ⟨hframe, rfl⟩ := hpass
      rcases o' with _ | ⟨j, c⟩
      · exact ⟨rfl, by simp only [List.map_cons, hframe, hplain]⟩
      · obtain ⟨hrest, hrest'⟩ := ih j c
        exact ⟨hrest, by simp only [List.map_cons, hframe, hrest']⟩

theorem FrameStack.route_unmarked {fs gs : FrameStack R}
    (h : fs.map Frame.unmarked = gs.map Frame.unmarked) (i : Instruction R) (b : Bool) :
    (fs.route i b).1 = (gs.route i b).1 ∧
      (fs.route i b).2.map Frame.unmarked = (gs.route i b).2.map Frame.unmarked := by
  obtain ⟨hf, hf'⟩ := fs.route_eq i b
  obtain ⟨hg, hg'⟩ := gs.route_eq i b
  obtain ⟨hfs, hfs'⟩ := routeThrough_unmarked fs.toList i b
  obtain ⟨hgs, hgs'⟩ := routeThrough_unmarked gs.toList i b
  have hlist : fs.toList.map Frame.unmarked = gs.toList.map Frame.unmarked := congrArg toList h
  rw [hlist] at hfs hfs'
  refine ⟨hf.trans (hfs.symm.trans (hgs.trans hg.symm)), ?_⟩
  have hout : (fs.route i b).2.toList.map Frame.unmarked =
      (gs.route i b).2.toList.map Frame.unmarked := by
    rw [hf', hg', ← hfs', hgs']
  obtain ⟨htop, hbelow⟩ := List.cons.inj hout
  exact congrArg₂ FrameStack.mk htop hbelow

def Environment.controls : Environment → List QubitId
  | .controlled cs => cs
  | _ => []

namespace Session

/-- The session up to the marks of its frames and the number of the next frame. -/
def outline (s : Session R) : Session R :=
  { s with frames := s.frames.map Frame.unmarked, nextFrame := 0 }

variable {s t : Session R}

theorem outline_eq_iff : s.outline = t.outline ↔ s.config = t.config ∧
    s.allocator = t.allocator ∧ s.circuit = t.circuit ∧
    s.frames.map Frame.unmarked = t.frames.map Frame.unmarked ∧ s.isPoisoned = t.isPoisoned := by
  simp [outline]

theorem outline_eraseMarks (s : Session R) (qs : List QubitId) :
    { s with frames := s.frames.map fun f => { f with touched := f.touched.eraseAll qs } }.outline =
      s.outline := by
  refine outline_eq_iff.2 ⟨rfl, rfl, rfl, ?_, rfl⟩
  simp only [FrameStack.map, List.map_map]
  rfl

theorem deliver_of_outline (h : s.outline = t.outline) (i : Instruction R) :
    (s.deliver i).1 = (t.deliver i).1 ∧ (s.deliver i).2.outline = (t.deliver i).2.outline := by
  obtain ⟨hconfig, hallocator, hcircuit, hframes, hpoison⟩ := outline_eq_iff.1 h
  have hcount : ∀ fs : FrameStack R,
      (fs.map fun f => { f with emitted := f.emitted + 1 }).map Frame.unmarked =
        (fs.map Frame.unmarked).map fun f => { f with emitted := f.emitted + 1 } := by
    intro fs
    simp only [FrameStack.map, List.map_map]
    rfl
  constructor
  · simp only [Session.deliver, onCircuit_eq, hcircuit]
    rcases t.circuit.push i with ⟨_ | _, _⟩ <;> rfl
  · rw [deliver_eq, deliver_eq]
    simp only [outline, hcount, hframes, hcircuit, hallocator, hconfig, hpoison]

theorem send_of_outline (h : s.outline = t.outline) (i : Instruction R) (b : Bool) :
    (s.send i b).1 = (t.send i b).1 ∧ (s.send i b).2.outline = (t.send i b).2.outline := by
  obtain ⟨hr, hframes⟩ := FrameStack.route_unmarked (congrArg Session.frames h) i b
  have hnext : ∀ fs gs : FrameStack R, fs.map Frame.unmarked = gs.map Frame.unmarked →
      { s with frames := fs }.outline = { t with frames := gs }.outline := by
    intro fs gs hfs
    obtain ⟨hconfig, hallocator, hcircuit, -, hpoison⟩ := outline_eq_iff.1 h
    exact outline_eq_iff.2 ⟨hconfig, hallocator, hcircuit, hfs, hpoison⟩
  unfold Session.send
  rcases hs : s.frames.route i b with ⟨rs, fs⟩
  rcases ht : t.frames.route i b with ⟨rt, gs⟩
  rw [hs, ht] at hr hframes
  simp only [] at hr hframes
  subst hr
  rcases rs with e | _ | j
  · exact ⟨rfl, hnext fs gs hframes⟩
  · exact ⟨rfl, hnext fs gs hframes⟩
  · exact deliver_of_outline (hnext fs gs hframes) j

theorem sendAll_of_outline (h : s.outline = t.outline) {es : List (Placement R)} {s' : Session R}
    (hs : s.sendAll es = .ok s') : ∃ t', t.sendAll es = .ok t' ∧ t'.outline = s'.outline := by
  induction es generalizing s t with
  | nil =>
    obtain rfl := Except.ok.inj hs
    exact ⟨t, rfl, h.symm⟩
  | cons e es ih =>
    obtain ⟨s₁, hfirst, hrest⟩ := sendAll_cons.1 hs
    obtain ⟨hr, hout⟩ := send_of_outline h e.instruction e.balanced
    rw [hfirst] at hr hout
    obtain ⟨t', ht', hlast⟩ := ih hout hrest
    refine ⟨t', sendAll_cons.2 ⟨(t.send e.instruction e.balanced).2, ?_, ht'⟩, hlast⟩
    exact Prod.ext hr.symm rfl

theorem exists_inside_of_outline {f : Frame R} {u : Session R} (h : s.outline = (u.inside f).outline) :
    ∃ v g, s = inside v g ∧ v.outline = u.outline ∧ g.unmarked = f.unmarked := by
  obtain ⟨hconfig, hallocator, hcircuit, hframes, hpoison⟩ := outline_eq_iff.1 h
  obtain ⟨htop, hbelow⟩ := FrameStack.mk.inj hframes
  rcases hs : s.frames.below with _ | ⟨parent, rest⟩
  · rw [hs] at hbelow
    exact absurd hbelow.symm (List.cons_ne_nil _ _)
  · rw [hs] at hbelow
    obtain ⟨hparent, hrest⟩ := List.cons.inj hbelow
    refine ⟨s.popped parent rest, s.frames.top, ?_, ?_, htop⟩
    · unfold inside popped FrameStack.push
      simp only [← hs]
    · exact outline_eq_iff.2 ⟨hconfig, hallocator, hcircuit, congrArg₂ FrameStack.mk hparent hrest,
        hpoison⟩

/-! ## Sessions that take steps -/

structure Hosts (s : Session R) (qs : List QubitId) : Prop where
  unpoisoned : s.isPoisoned = false
  allocator : s.allocator.Sound
  live : ∀ q ∈ qs, s.allocator.isLive q = true

theorem Hosts.of_outline {qs : List QubitId} (h : s.Hosts qs) (ho : t.outline = s.outline) :
    t.Hosts qs := by
  obtain ⟨-, hallocator, -, -, hpoison⟩ := outline_eq_iff.1 ho
  refine ⟨hpoison.trans h.unpoisoned, ?_, ?_⟩
  · rw [hallocator]
    exact h.allocator
  · rw [hallocator]
    exact h.live

theorem sendAll_allocator (h : s.allocator.Sound) {es : List (Placement R)}
    (hs : s.sendAll es = .ok t) :
    t.allocator.Sound ∧ ∀ q, t.allocator.isLive q = s.allocator.isLive q := by
  induction es generalizing s with
  | nil =>
    obtain rfl := Except.ok.inj hs
    exact ⟨h, fun _ => rfl⟩
  | cons e es ih =>
    obtain ⟨s₁, hfirst, hrest⟩ := sendAll_cons.1 hs
    obtain ⟨hsound, hlive⟩ := send_allocator h e.instruction e.balanced
    rw [hfirst] at hsound hlive
    obtain ⟨hsound', hlive'⟩ := ih hsound hrest
    exact ⟨hsound', fun q => (hlive' q).trans (hlive q)⟩

theorem Hosts.send {qs : List QubitId} (h : s.Hosts qs) (i : Instruction R) (b : Bool) :
    (s.send i b).2.Hosts qs := by
  refine ⟨(send_keeps s i b).2.trans h.unpoisoned, (send_allocator h.allocator i b).1, ?_⟩
  intro q hq
  rw [send_isLive h.allocator]
  exact h.live q hq

theorem Hosts.sendAll {qs : List QubitId} (h : s.Hosts qs) {es : List (Placement R)}
    (hs : s.sendAll es = .ok t) : t.Hosts qs := by
  induction es generalizing s with
  | nil =>
    obtain rfl := Except.ok.inj hs
    exact h
  | cons e es ih =>
    obtain ⟨s₁, hfirst, hrest⟩ := sendAll_cons.1 hs
    have hnext := h.send e.instruction e.balanced
    rw [hfirst] at hnext
    exact ih hnext hrest

theorem sendAll_through {f : Frame R} {id : FrameId} {environment : Environment} {phase : Phase}
    {owned : List QubitId} {kept es : List (Placement R)}
    (hf : f.Holds id environment phase owned kept)
    (h : s.sendAll (es.filterMap (environment.relay phase)) = .ok t) :
    ∃ f', (s.inside f).sendAll es = .ok (t.inside f') ∧ f'.Holds id environment phase owned
      (if environment.retains phase then es.reverse ++ kept else kept) := by
  induction es generalizing s f kept with
  | nil =>
    obtain rfl := Except.ok.inj h
    exact ⟨f, rfl, by simpa using hf⟩
  | cons e es ih =>
    obtain ⟨f₁, hpass, hf₁⟩ := hf.pass e
    -- the frame keeps the placement back or sends one on
    have hstep : ∃ (s₁ : Session R) (f₂ : Frame R),
        (s.inside f).send e.instruction e.balanced = (.ok (), s₁.inside f₂) ∧
        s₁.sendAll (es.filterMap (environment.relay phase)) = .ok t ∧
        f₂.Holds id environment phase owned (if environment.retains phase then e :: kept else kept) := by
      rw [List.filterMap_cons] at h
      cases hrelay : environment.relay phase e with
      | none =>
        rw [hrelay] at hpass h
        exact ⟨s, f₁, send_inside_kept hpass s, h, hf₁⟩
      | some e' =>
        rw [hrelay] at hpass h
        obtain ⟨s₁, hfirst, hrest⟩ := sendAll_cons.1 h
        obtain ⟨o, hsend⟩ := send_inside hpass s
        rw [hfirst] at hsend
        exact ⟨s₁, Frame.count o f₁, hsend, hrest, hf₁.count o⟩
    obtain ⟨s₁, f₂, hsend, hrest, hf₂⟩ := hstep
    obtain ⟨f', hall, hf'⟩ := ih hf₂ hrest
    refine ⟨f', sendAll_cons.2 ⟨_, hsend, hall⟩, ?_⟩
    cases hkeeps : environment.retains phase with
    | false => simpa [hkeeps] using hf'
    | true => simpa [hkeeps] using hf'

def entered (s : Session R) (environment : Environment) (label : String) : Session R :=
  { s with
    nextFrame := s.nextFrame + 1
    frames := s.frames.push (.new s.nextFrame environment label) }

theorem entered_outline (s : Session R) (environment : Environment) (label : String) :
    (s.entered environment label).outline =
      (s.inside (.new s.nextFrame environment label)).outline := rfl

theorem enter_of_live {environment : Environment} (hs : s.Hosts environment.controls)
    (label : String) :
    s.enter environment label = (.ok s.nextFrame, s.entered environment label) := by
  unfold Session.enter
  rw [if_neg (by simp [hs.unpoisoned])]
  cases environment with
  | controlled cs =>
    have hdead : (cs.find? fun q => !s.allocator.isLive q) = none := by
      rw [List.find?_eq_none]
      intro q hq
      simp [hs.live q hq]
    simp only [hdead]
    rfl
  | _ => rfl

variable [Scalar R]

theorem undo_of_sendAll {es : List (Placement R)} (h : s.sendAll (es.map Placement.undone) = .ok t) :
    s.undo (es.map Placement.entry) = (.ok (), t) := by
  induction es generalizing s with
  | nil =>
    obtain rfl := Except.ok.inj h
    rfl
  | cons e es ih =>
    obtain ⟨s₁, hfirst, hrest⟩ := sendAll_cons.1 h
    have hadjoint : e.entry.1.adjoint? = some e.undone.instruction := rfl
    rw [List.map_cons, Session.undo, hadjoint]
    have hsend : s.send e.undone.instruction e.entry.2 = (.ok (), s₁) := hfirst
    simp only [hsend]
    exact ih hrest

theorem exit_of_closed {id : FrameId} {parent : Frame R} {rest : List (Frame R)} {s₁ s₂ : Session R}
    (hp : s.isPoisoned = false) (hb : s.frames.below = parent :: rest) (hid : s.frames.top.id = id)
    (hr : (s.popped parent rest).replay s.frames.top = (.ok (), s₁)) (hl : s.frames.top.leaked = [])
    (hback : s₁.reclaim s.frames.top.toReclaim = (.ok (), s₂)) :
    s.exit id = (.ok (), { s₂ with
      frames := s₂.frames.modifyTop fun f => f.own s.frames.top.exported }) := by
  rw [← hid, exit_of_top hp hb]
  simp only [hr, hl, hback]

theorem owed_conjugation (es : List (Placement R)) : owed .conjugation es.reverse =
    (es.map Placement.shielded).reverse.map Placement.undone := by
  rw [← List.map_reverse, List.map_map]
  rfl

theorem replay_of_sendAll {f : Frame R} {id : FrameId} {environment : Environment} {phase : Phase}
    {owned : List QubitId} {kept : List (Placement R)}
    (hf : f.Holds id environment phase owned kept)
    (h : s.sendAll (owed environment kept) = .ok t) : s.replay f = (.ok (), t) := by
  obtain ⟨es, hdue, howed⟩ := due_of_holds hf
  rw [replay_eq, hdue]
  rw [howed] at h
  exact undo_of_sendAll h

theorem exit_of_sendAll {f : Frame R} {id : FrameId} {environment : Environment} {phase : Phase}
    {kept : List (Placement R)} (hp : s.isPoisoned = false)
    (hf : f.Holds id environment phase [] kept)
    (h : s.sendAll (owed environment kept) = .ok t) : (s.inside f).exit id = (.ok (), t) := by
  have hreplay := replay_of_sendAll hf h
  have hreclaim : f.toReclaim = [] := by rw [Frame.toReclaim, hf.owned, List.filter_nil]
  have hleaked : f.leaked = [] := by rw [Frame.leaked, hreclaim, List.filter_nil]
  have hback : t.reclaim f.toReclaim = (.ok (), t) := by
    rw [hreclaim]
    rfl
  have hown : (t.frames.modifyTop fun g => g.own f.exported) = t.frames := by
    rw [hf.exported]
    exact FrameStack.modifyTop_own_nil _
  refine (exit_of_closed (s := s.inside f) hp rfl hf.id hreplay hleaked hback).trans ?_
  rw [show (s.inside f).frames.top = f from rfl, hown]

end Session

/-! ## Placing -/

theorem Frame.Holds.of_unmarked {f g : Frame R} {id : FrameId} {environment : Environment}
    {phase : Phase} {owned : List QubitId} {kept : List (Placement R)}
    (hf : f.Holds id environment phase owned kept) (h : g.unmarked = f.unmarked) :
    g.Holds id environment phase owned kept :=
  ⟨(congrArg Frame.id h :).trans hf.id, (congrArg Frame.environment h :).trans hf.environment,
    (congrArg Frame.phase h :).trans hf.phase, (congrArg Frame.owned h :).trans hf.owned,
    (congrArg Frame.exported h :).trans hf.exported, (congrArg Frame.log h :).trans hf.log⟩

namespace Build

open Session

variable {ε : Type} [FromSession ε]

/-- A construction on qubits in use succeeds wherever its placements can be sent, and sends them. -/
def Places (b : Build R ε Unit) (qs : List QubitId) (es : List (Placement R)) : Prop :=
  ∀ s t : Session R, s.Hosts qs → s.sendAll es = .ok t →
    ∃ t', b.exec s = (.ok (), t') ∧ t'.outline = t.outline

variable {qs : List QubitId} {es fs : List (Placement R)}

theorem exec_of_step {α : Type} {f : Session R → Answer R α} {a : α} {s t : Session R}
    (h : f s = (.ok a, t)) : exec (step f : Build R ε α) s = (.ok a, t) := by
  show ((f s).1.mapError FromSession.ofSession, (f s).2) = _
  rw [h]
  rfl

omit [FromSession ε] in
theorem exec_bind_of {α β : Type} {b : Build R ε α} {k : α → Build R ε β} {a : α}
    {s s₁ : Session R} (h : b.exec s = (.ok a, s₁)) : exec (b >>= k) s = (k a).exec s₁ := by
  rw [exec_bind, h]

omit [FromSession ε] in
theorem places_pure (qs : List QubitId) : Places (pure () : Build R ε Unit) qs [] := by
  intro s t _ h
  obtain rfl := Except.ok.inj h
  exact ⟨s, rfl, rfl⟩

omit [FromSession ε] in
theorem Places.bind {b : Build R ε Unit} {k : Unit → Build R ε Unit} (hb : b.Places qs es)
    (hk : (k ()).Places qs fs) : (b >>= k).Places qs (es ++ fs) := by
  intro s t hs h
  obtain ⟨s₁, hfirst, hrest⟩ := sendAll_append.1 h
  obtain ⟨t₁, hexec, hout⟩ := hb s s₁ hs hfirst
  obtain ⟨t₂, hrest', hout'⟩ := sendAll_of_outline hout.symm hrest
  obtain ⟨t₃, hexec', hlast⟩ := hk t₁ t₂ ((hs.sendAll hfirst).of_outline hout) hrest'
  exact ⟨t₃, (exec_bind_of hexec).trans hexec', hlast.trans hout'⟩

theorem places_apply (g : Gate R) {ps : List QubitId} (hps : ∀ q ∈ ps, q ∈ qs) :
    Places (apply g ps : Build R ε Unit) qs [⟨g, ps, false⟩] := by
  intro s t hs h
  obtain ⟨s₁, hsend, hnil⟩ := sendAll_cons.1 h
  obtain rfl := Except.ok.inj hnil
  refine ⟨s₁, ?_, rfl⟩
  have hlive : ∀ q ∈ (Instruction.ofGate g ps).qubits, s.allocator.isLive q = true := fun q hq =>
    hs.live q (hps q hq)
  exact exec_of_step ((Session.emit_of_live hs.unpoisoned hlive).trans hsend)

theorem places_assertRestored (ps qs : List QubitId) :
    Places (assertRestored ps : Build R ε Unit) qs [] := by
  intro s t hs h
  obtain rfl := Except.ok.inj h
  exact ⟨_, exec_of_step (Session.assertRestored_of_unpoisoned hs.unpoisoned ps),
    outline_eraseMarks s ps⟩

omit [FromSession ε] in
theorem Places.inside {b : Build R ε Unit} (hb : b.Places qs es) {s s₁ t : Session R} {f : Frame R}
    {id : FrameId} {environment : Environment} {phase : Phase} {owned : List QubitId}
    {kept : List (Placement R)} (hf : f.Holds id environment phase owned kept) (hs : s.Hosts qs)
    (hs₁ : s₁.outline = (s.inside f).outline)
    (h : s.sendAll (es.filterMap (environment.relay phase)) = .ok t) :
    ∃ t₁ g, b.exec s₁ = (.ok (), Session.inside t₁ g) ∧ t₁.outline = t.outline ∧
      g.Holds id environment phase owned
        (if environment.retains phase then es.reverse ++ kept else kept) := by
  obtain ⟨f', hthrough, hf'⟩ := sendAll_through hf h
  obtain ⟨u, hu, hout⟩ := sendAll_of_outline hs₁.symm hthrough
  have hhosts : (s.inside f).Hosts qs := ⟨hs.unpoisoned, hs.allocator, hs.live⟩
  obtain ⟨u', hexec, hout'⟩ := hb s₁ u (hhosts.of_outline hs₁) hu
  obtain ⟨t₁, g, rfl, ht₁, hg⟩ := exists_inside_of_outline (hout'.trans hout)
  exact ⟨t₁, g, hexec, ht₁, hf'.of_unmarked hg⟩

variable [Scalar R]

theorem exec_within_of {α : Type} {environment : Environment} {label : String} {body : Build R ε α}
    {a : α} {id : FrameId} {s s₁ s₂ t : Session R} (henter : s.enter environment label = (.ok id, s₁))
    (hbody : body.exec s₁ = (.ok a, s₂)) (hexit : s₂.exit id = (.ok (), t)) :
    exec (within environment label body) s = (.ok a, t) := by
  rw [exec_within, henter]
  simp only [hbody, hexit]

theorem Places.within (environment : Environment) (hc : ∀ q ∈ environment.controls, q ∈ qs)
    (label : String) {body : Build R ε Unit} (hb : body.Places qs es) :
    Places (within environment label body) qs (es.filterMap (environment.relay .compute) ++
      owed environment (if environment.retains .compute then es.reverse else [])) := by
  intro s t hs h
  obtain ⟨v, hpassed, howed⟩ := sendAll_append.1 h
  have hcontrols : s.Hosts environment.controls :=
    ⟨hs.unpoisoned, hs.allocator, fun q hq => hs.live q (hc q hq)⟩
  obtain ⟨t₁, g, hexec, hout, hg⟩ := hb.inside (Frame.holds_new s.nextFrame environment label) hs
    (s.entered_outline environment label) hpassed
  rw [List.append_nil] at hg
  obtain ⟨t', ht', hlast⟩ := sendAll_of_outline hout.symm howed
  have hhosts : t₁.Hosts qs := (hs.sendAll hpassed).of_outline hout
  have hexit := exit_of_sendAll hhosts.unpoisoned hg ht'
  exact ⟨t', exec_within_of (enter_of_live hcontrols label) hexec hexit, hlast⟩

theorem Places.control {cs : List QubitId} (hcs : ∀ q ∈ cs, q ∈ qs) {body : Build R ε Unit}
    (hb : body.Places qs es) : Places (control cs body) qs (es.map (.under cs)) := by
  have hplaces := hb.within (.controlled cs) hcs "control"
  have hrelay : es.filterMap ((Environment.controlled cs).relay .compute) =
      es.map (Placement.under cs) := congrFun List.filterMap_eq_map' es
  rw [hrelay, show owed (Environment.controlled cs) _ = ([] : List (Placement R)) from rfl,
    List.append_nil] at hplaces
  exact hplaces

theorem Places.invert {body : Build R ε Unit} (hb : body.Places qs es) :
    Places (invert body) qs (es.reverse.map .undone) := by
  have hplaces := hb.within .inversion (fun q hq => absurd hq List.not_mem_nil) "invert"
  have hrelay : es.filterMap (Environment.inversion.relay .compute) = [] :=
    List.filterMap_eq_nil_iff.2 fun _ _ => rfl
  rw [hrelay, List.nil_append] at hplaces
  exact hplaces

theorem Places.conjugate (label : String) {compute : Build R ε Unit} {act : Unit → Build R ε Unit}
    (hc : compute.Places qs es) (ha : (act ()).Places qs fs) :
    Places (conjugate label compute act) qs
      (es.map .shielded ++ fs ++ (es.map Placement.shielded).reverse.map .undone) := by
  have hforward : es.filterMap (Environment.conjugation.relay .compute) =
      es.map Placement.shielded := congrFun List.filterMap_eq_map' es
  have hplain : fs.filterMap (Environment.conjugation.relay .act) = fs := List.filterMap_some
  have hback : owed .conjugation (es.reverse ++ []) =
      (es.map Placement.shielded).reverse.map Placement.undone := by
    rw [List.append_nil, owed_conjugation]
  intro s t hs h
  obtain ⟨v, hpassed, howed⟩ := sendAll_append.1 h
  obtain ⟨u, hcompute, hact⟩ := sendAll_append.1 hpassed
  rw [← hforward] at hcompute
  rw [← hback] at howed
  have hcontrols : s.Hosts Environment.conjugation.controls :=
    ⟨hs.unpoisoned, hs.allocator, fun q hq => absurd hq List.not_mem_nil⟩
  -- the compute phase
  obtain ⟨t₁, g₁, hexec₁, hout₁, hg₁⟩ := hc.inside (Frame.holds_new s.nextFrame .conjugation label)
    hs (s.entered_outline .conjugation label) hcompute
  have hhosts₁ : t₁.Hosts qs := (hs.sendAll hcompute).of_outline hout₁
  have hbegin : (t₁.inside g₁).beginAction = (.ok (), t₁.inside { g₁ with phase := .act }) :=
    Session.beginAction_of_computing hhosts₁.unpoisoned
      (Frame.isComputing_iff.2 ⟨hg₁.environment, hg₁.phase⟩)
  -- the action
  obtain ⟨t₂, ht₂, hout₂⟩ := sendAll_of_outline hout₁.symm hact
  rw [← hplain] at ht₂
  have hturned : Frame.Holds { g₁ with phase := .act } s.nextFrame .conjugation .act []
      (es.reverse ++ []) :=
    ⟨hg₁.id, hg₁.environment, rfl, hg₁.owned, hg₁.exported, hg₁.log⟩
  obtain ⟨t₃, g₃, hexec₃, hout₃, hg₃⟩ := ha.inside hturned hhosts₁ rfl ht₂
  obtain ⟨t', ht', hlast⟩ := sendAll_of_outline (hout₃.trans hout₂).symm howed
  have hhosts₃ : t₃.Hosts qs := (hhosts₁.sendAll ht₂).of_outline hout₃
  have hexit := exit_of_sendAll hhosts₃.unpoisoned hg₃ ht'
  refine ⟨t', exec_within_of (enter_of_live hcontrols label) ?_ hexit, hlast⟩
  exact (exec_bind_of hexec₁).trans ((exec_bind_of (exec_of_step hbegin)).trans hexec₃)

end Build

end Ancilla
