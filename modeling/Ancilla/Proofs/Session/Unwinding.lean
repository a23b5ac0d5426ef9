import Ancilla.Proofs.Session.Outcome

/-!
Environments with a body unwind. Whatever the body does, short of closing or dropping the frame of
the environment or one around it, the frames that are open behind the environment are those that
were open before it, and of the qubits handed out inside only the exported ones are still in use.
An exception is a session that got poisoned: there the frames of the body stay.
-/

namespace Ancilla

variable {R : Type} [Scalar R]

/-! ## The calls of a construction -/

def Call.Spares (barred : FrameId → Prop) : Call R → Prop
  | exit id => ¬ barred id
  | abort id => ¬ barred id
  | _ => True

def Session.obtained : Session R → List (Call R) → List QubitId
  | _, [] => []
  | s, c :: cs => c.obtained s ++ Session.obtained (c.perform s).2 cs

theorem Session.Reachable.nextFrame_le {s : Session R} (hs : s.Reachable) (cs : List (Call R)) :
    s.nextFrame ≤ (s.after cs).nextFrame := by
  induction cs generalizing s with
  | nil => exact Nat.le_refl _
  | cons c cs ih =>
    have hstep : s.nextFrame ≤ (c.perform s).2.nextFrame := by
      rcases (hs.equipped.outcome c).ids with ⟨hn, -⟩ | ⟨hn, -⟩
      · exact Nat.le_of_eq hn.symm
      · exact hn ▸ Nat.le_succ _
    exact Nat.le_trans hstep (ih (hs.call c))

namespace Build

variable {ε : Type} [FromSession ε] {barred : FrameId → Prop}

/-- The calls that a construction makes when it is run from a session. It does not itself close or
drop a barred frame; the environments with a body inside it open and close their own frames. -/
inductive Makes (barred : FrameId → Prop) :
    {α : Type} → Build R ε α → Session R → List (Call R) → Prop
  | pure {α : Type} (a : α) (s : Session R) : Makes barred (pure a) s []
  | throw {α : Type} (e : ε) (s : Session R) : Makes barred (throw e : Build R ε α) s []
  | bind_ok {α β : Type} {b : Build R ε α} {k : α → Build R ε β} {s s' : Session R} {a : α}
    {cs ds : List (Call R)} (hb : Makes barred b s cs) (hok : exec b s = (.ok a, s'))
    (hk : Makes barred (k a) s' ds) : Makes barred (b >>= k) s (cs ++ ds)
  | bind_error {α β : Type} {b : Build R ε α} {k : α → Build R ε β} {s s' : Session R} {e : ε}
    {cs : List (Call R)} (hb : Makes barred b s cs) (herr : exec b s = (.error e, s')) :
    Makes barred (b >>= k) s cs
  | attempt {α : Type} {b : Build R ε α} {s : Session R} {cs : List (Call R)}
    (hb : Makes barred b s cs) : Makes barred (attempt b) s cs
  | session (s : Session R) : Makes barred session s []
  | allocate (count : Nat) (name : String) (s : Session R) :
    Makes barred (allocate count name) s [.allocate count name]
  | release (qs : List QubitId) (s : Session R) : Makes barred (release qs) s [.release qs]
  | exportQubits (qs : List QubitId) (s : Session R) :
    Makes barred (exportQubits qs) s [.exportQubits qs]
  | assertRestored (qs : List QubitId) (s : Session R) :
    Makes barred (assertRestored qs) s [.assertRestored qs]
  | apply (g : Gate R) (qs : List QubitId) (s : Session R) :
    Makes barred (apply g qs) s [.apply g qs]
  | barrier (qs : List QubitId) (s : Session R) : Makes barred (barrier qs) s [.barrier qs]
  | measure (q : QubitId) (s : Session R) : Makes barred (measure q) s [.measure q]
  | enter (environment : Environment) (label : String) (s : Session R) :
    Makes barred (enter environment label) s [.enter environment label]
  | beginAction (s : Session R) : Makes barred beginAction s [.beginAction]
  | exit {id : FrameId} (h : ¬ barred id) (s : Session R) : Makes barred (exit id) s [.exit id]
  | abort {id : FrameId} (h : ¬ barred id) (s : Session R) : Makes barred (abort id) s [.abort id]
  | within_refused {α : Type} {environment : Environment} {label : String} {body : Build R ε α}
    {s s₁ : Session R} {e : SessionError} (henter : s.enter environment label = (.error e, s₁)) :
    Makes barred (within environment label body) s [.enter environment label]
  | within_closed {α : Type} {environment : Environment} {label : String} {body : Build R ε α}
    {s s₁ s₂ : Session R} {id : FrameId} {a : α} {cs : List (Call R)}
    (henter : s.enter environment label = (.ok id, s₁)) (hbody : Makes barred body s₁ cs)
    (hok : exec body s₁ = (.ok a, s₂)) :
    Makes barred (within environment label body) s (.enter environment label :: cs ++ [.exit id])
  | within_dropped {α : Type} {environment : Environment} {label : String} {body : Build R ε α}
    {s s₁ s₂ : Session R} {id : FrameId} {e : ε} {cs : List (Call R)}
    (henter : s.enter environment label = (.ok id, s₁)) (hbody : Makes barred body s₁ cs)
    (herr : exec body s₁ = (.error e, s₂)) :
    Makes barred (within environment label body) s (.enter environment label :: cs ++ [.abort id])

theorem Makes.exec_eq {α : Type} {b : Build R ε α} {s : Session R} {cs : List (Call R)}
    (h : Makes barred b s cs) : (exec b s).2 = s.after cs := by
  induction h with
  | pure a s => rfl
  | throw e s => rfl
  | bind_ok hb hok hk ihb ihk =>
    rw [exec_bind, hok, Session.after_append, ← ihb, hok]
    exact ihk
  | bind_error hb herr ihb => rw [exec_bind, herr, ← ihb, herr]
  | attempt hb ih => exact ih
  | session s => rfl
  | allocate count name s => rfl
  | release qs s => rfl
  | exportQubits qs s => rfl
  | assertRestored qs s => rfl
  | apply g qs s => rfl
  | barrier qs s => rfl
  | measure q s => rfl
  | enter environment label s => rfl
  | beginAction s => rfl
  | exit h s => rfl
  | abort h s => rfl
  | @within_refused _ environment label _ s s₁ e henter =>
    rw [exec_within, henter]
    show s₁ = (s.enter environment label).2
    rw [henter]
  | @within_closed _ environment label body s s₁ s₂ id a cs henter hbody hok ih =>
    have hs₁ := Call.perform_enter henter
    have hs₂ : s₁.after cs = s₂ := by rw [← ih, hok]
    rw [Session.after_concat, Session.after_cons, hs₁, hs₂, exec_within, henter]
    simp only [hok]
    show _ = (s₂.exit id).2
    rcases s₂.exit id with ⟨e | _, s₃⟩ <;> rfl
  | @within_dropped _ environment label body s s₁ s₂ id e cs henter hbody herr ih =>
    have hs₁ := Call.perform_enter henter
    have hs₂ : s₁.after cs = s₂ := by rw [← ih, herr]
    rw [Session.after_concat, Session.after_cons, hs₁, hs₂, exec_within, henter]
    simp only [herr]
    rfl

theorem Public.makes {α : Type} {b : Build R ε α} (h : Public b) (s : Session R) :
    ∃ cs, Makes (fun _ => False) b s cs := by
  induction h generalizing s with
  | pure a => exact ⟨_, .pure a s⟩
  | throw e => exact ⟨_, .throw e s⟩
  | @bind _ _ b k hb hk ihb ihk =>
    obtain ⟨cs, hcs⟩ := ihb s
    rcases hexec : exec b s with ⟨e | a, s'⟩
    · exact ⟨_, .bind_error hcs hexec⟩
    · obtain ⟨ds, hds⟩ := ihk a s'
      exact ⟨_, .bind_ok hcs hexec hds⟩
  | attempt hb ih =>
    obtain ⟨cs, hcs⟩ := ih s
    exact ⟨_, .attempt hcs⟩
  | session => exact ⟨_, .session s⟩
  | allocate count name => exact ⟨_, .allocate count name s⟩
  | release qs => exact ⟨_, .release qs s⟩
  | exportQubits qs => exact ⟨_, .exportQubits qs s⟩
  | assertRestored qs => exact ⟨_, .assertRestored qs s⟩
  | apply g qs => exact ⟨_, .apply g qs s⟩
  | barrier qs => exact ⟨_, .barrier qs s⟩
  | measure q => exact ⟨_, .measure q s⟩
  | enter environment label => exact ⟨_, .enter environment label s⟩
  | beginAction => exact ⟨_, .beginAction s⟩
  | exit id => exact ⟨_, .exit not_false s⟩
  | abort id => exact ⟨_, .abort not_false s⟩

theorem Makes.spares {α : Type} {b : Build R ε α} {s : Session R} {cs : List (Call R)}
    (h : Makes barred b s cs) (hs : s.Reachable) (hbarred : ∀ n, barred n → n < s.nextFrame) :
    ∀ c ∈ cs, c.Spares barred := by
  -- the calls inside an environment that has been opened, and the one that ends it
  have enclosed {s s₁ : Session R} {environment : Environment} {label : String} {id : FrameId}
      {cs : List (Call R)} {last : Call R} (hs : s.Reachable)
      (hbarred : ∀ n, barred n → n < s.nextFrame)
      (henter : s.enter environment label = (.ok id, s₁))
      (ih : s₁.Reachable → (∀ n, barred n → n < s₁.nextFrame) → ∀ c ∈ cs, c.Spares barred)
      (hlast : ¬ barred id → last.Spares barred) :
      ∀ c ∈ .enter environment label :: cs ++ [last], c.Spares barred := by
    have hreach := hs.entered henter
    obtain ⟨rfl, rfl⟩ := Session.enter_eq henter
    have hinside := ih hreach fun n hn => Nat.lt_succ_of_lt (hbarred n hn)
    have hfresh : ¬ barred s.nextFrame := fun hn => Nat.lt_irrefl _ (hbarred _ hn)
    exact List.forall_mem_append.2 ⟨List.forall_mem_cons.2 ⟨trivial, hinside⟩,
      List.forall_mem_singleton.2 (hlast hfresh)⟩
  induction h with
  | pure | throw | session => exact fun c hc => absurd hc List.not_mem_nil
  | @bind_ok _ _ b k s s' a cs ds hb hok hk ihb ihk =>
    have hs' : s' = s.after cs := by rw [← hb.exec_eq, hok]
    subst hs'
    have hnext := ihk (hs.after cs) fun n hn =>
      Nat.lt_of_lt_of_le (hbarred n hn) (hs.nextFrame_le cs)
    exact List.forall_mem_append.2 ⟨ihb hs hbarred, hnext⟩
  | bind_error hb herr ihb => exact ihb hs hbarred
  | attempt hb ih => exact ih hs hbarred
  | exit h s => exact List.forall_mem_singleton.2 h
  | abort h s => exact List.forall_mem_singleton.2 h
  | within_closed henter _ _ ih => exact enclosed hs hbarred henter ih fun hid => hid
  | within_dropped henter _ _ ih => exact enclosed hs hbarred henter ih fun hid => hid
  | _ => exact List.forall_mem_singleton.2 trivial

end Build

/-! ## Frames and qubits inside an environment -/

/-- The frame `id` is open with the frames `around` it. The qubits of this frame and of those inside
it are among `got`, and none of the frames around owns one of `got`. -/
def Walled (id : FrameId) (around : List FrameId) (got : List QubitId) (fs : List (Frame R)) : Prop :=
  ∃ inner f outer, fs = inner ++ f :: outer ∧ f.id = id ∧ outer.map Frame.id = around ∧
    (∀ q ∈ ownedBy (inner ++ [f]), q ∈ got) ∧ ∀ q ∈ ownedBy outer, q ∉ got

section Walls

omit [Scalar R]

variable {id : FrameId} {around : List FrameId} {got : List QubitId} {fs fs' : List (Frame R)}

theorem ownedBy_append (fs gs : List (Frame R)) : ownedBy (fs ++ gs) = ownedBy fs ++ ownedBy gs :=
  List.flatMap_append

structure Frame.Trims (f f' : Frame R) : Prop where
  id : f'.id = f.id
  owned : ∀ q ∈ f'.owned, q ∈ f.owned

theorem Frame.Kin.trims {f f' : Frame R} (h : f.Kin f') : f.Trims f' :=
  ⟨h.id, fun _ hq => h.owned ▸ hq⟩

theorem Frame.Sheds.trims {f f' : Frame R} (h : f.Sheds f') : f.Trims f' := ⟨h.id, h.owned⟩

theorem trims_of_kin {fs fs' : List (Frame R)} (h : List.Forall₂ Frame.Kin fs fs') :
    List.Forall₂ Frame.Trims fs fs' := h.imp fun _ _ hf => hf.trims

theorem trims_of_sheds {fs fs' : List (Frame R)} (h : List.Forall₂ Frame.Sheds fs fs') :
    List.Forall₂ Frame.Trims fs fs' := h.imp fun _ _ hf => hf.trims

theorem ownedBy_subset {fs fs' : List (Frame R)}
    (h : List.Forall₂ Frame.Trims fs fs')
    {q : QubitId} (hq : q ∈ ownedBy fs') : q ∈ ownedBy fs := by
  induction h with
  | nil => exact hq
  | cons hf _ ih =>
    rw [ownedBy_cons, List.mem_append] at hq ⊢
    exact hq.imp (hf.owned q) ih

theorem Walled.cons {g : Frame R} (hg : ∀ q ∈ g.owned, q ∈ got) (h : Walled id around got fs) :
    Walled id around got (g :: fs) := by
  obtain ⟨inner, f, outer, rfl, hid, haround, hin, hout⟩ := h
  refine ⟨g :: inner, f, outer, rfl, hid, haround, fun q hq => ?_, hout⟩
  rcases List.mem_append.1 hq with hq | hq
  · exact hg q hq
  · exact hin q hq

theorem Walled.trimmed (h : Walled id around got fs)
    (hf : List.Forall₂ Frame.Trims fs fs') :
    Walled id around got fs' := by
  obtain ⟨inner, f, outer, rfl, hid, haround, hin, hout⟩ := h
  induction inner generalizing fs' with
  | nil =>
    cases hf with
    | @cons _ f' _ outer' hf houter =>
      refine ⟨[], f', outer', rfl, hf.id.trans hid, ?_, ?_, ?_⟩
      · rw [← haround]
        clear hout haround
        induction houter with
        | nil => rfl
        | cons hg _ ih => rw [List.map_cons, List.map_cons, hg.id, ih]
      · intro q hq
        rw [List.nil_append, ownedBy_cons, ownedBy_nil, List.append_nil] at hq
        exact hin q (List.mem_append_left _ (hf.owned q hq))
      · exact fun q hq => hout q (ownedBy_subset houter hq)
  | cons g inner ih =>
    cases hf with
    | @cons _ g' _ rest hg hrest =>
      refine (ih hrest fun q hq => hin q (List.mem_append_right _ hq)).cons fun q hq => ?_
      exact hin q (List.mem_append_left _ (hg.owned q hq))

theorem Walled.own {f : Frame R} {qs : List QubitId} (h : Walled id around got (f :: fs))
    (hqs : ∀ q ∈ qs, q ∈ got) : Walled id around got (f.own qs :: fs) := by
  obtain ⟨inner, g, outer, heq, hid, haround, hin, hout⟩ := h
  cases inner with
  | nil =>
    obtain ⟨rfl, rfl⟩ := List.cons.inj heq
    refine ⟨[], f.own qs, fs, rfl, hid, haround, fun q hq => ?_, hout⟩
    simp only [List.nil_append, ownedBy_cons, ownedBy_nil, List.append_nil, Frame.own,
      List.mem_append] at hq hin
    exact hq.elim (hin q) (hqs q)
  | cons g' inner =>
    obtain ⟨rfl, rfl⟩ := List.cons.inj heq
    refine Walled.cons (fun q hq => ?_) ⟨inner, g, outer, rfl, hid, haround,
      fun q hq => hin q (List.mem_append_right _ hq), hout⟩
    rcases List.mem_append.1 hq with hq | hq
    · exact hin q (List.mem_append_left _ hq)
    · exact hqs q hq

theorem Walled.extend (h : Walled id around got fs) {new : List QubitId}
    (hnew : ∀ q ∈ new, q ∉ ownedBy fs) : Walled id around (got ++ new) fs := by
  obtain ⟨inner, f, outer, rfl, hid, haround, hin, hout⟩ := h
  refine ⟨inner, f, outer, rfl, hid, haround, fun q hq => List.mem_append_left _ (hin q hq), ?_⟩
  intro q hq hmem
  rcases List.mem_append.1 hmem with hmem | hmem
  · exact hout q hq hmem
  · refine hnew q hmem ?_
    rw [ownedBy_append, ownedBy_cons]
    exact List.mem_append_right _ (List.mem_append_right _ hq)

theorem Walled.tail {g : Frame R} (h : Walled id around got (g :: fs)) (hg : g.id ≠ id) :
    Walled id around got fs ∧ ∀ q ∈ g.owned, q ∈ got := by
  obtain ⟨inner, f, outer, heq, hid, haround, hin, hout⟩ := h
  cases inner with
  | nil =>
    obtain ⟨rfl, rfl⟩ := List.cons.inj heq
    exact absurd hid hg
  | cons g' inner =>
    obtain ⟨rfl, rfl⟩ := List.cons.inj heq
    exact ⟨⟨inner, f, outer, rfl, hid, haround, fun q hq => hin q (List.mem_append_right _ hq),
      hout⟩, fun q hq => hin q (List.mem_append_left _ hq)⟩

theorem FrameStack.cut?_last {f : Frame R} {fs dropped : List (Frame R)} {n : FrameId}
    {st : FrameStack R} (h : cut? n f fs = some (dropped, st)) :
    ∃ ds g, dropped = ds ++ [g] ∧ g.id = n ∧ ∀ d ∈ ds, d.id ≠ n := by
  induction fs generalizing f dropped with
  | nil => simp [cut?] at h
  | cons g rest ih =>
    unfold cut? at h
    split at h
    · next hf =>
      simp only [Option.some.injEq, Prod.mk.injEq] at h
      exact ⟨[], f, h.1.symm, hf, fun d hd => absurd hd List.not_mem_nil⟩
    · next hf =>
      obtain ⟨⟨ds, t⟩, hcut, heq⟩ := Option.map_eq_some_iff.1 h
      simp only [Prod.mk.injEq] at heq
      obtain ⟨rfl, rfl⟩ := heq
      obtain ⟨ds', g', rfl, hg', hds'⟩ := ih hcut
      refine ⟨f :: ds', g', rfl, hg', fun d hd => ?_⟩
      rcases List.mem_cons.1 hd with rfl | hd
      · exact hf
      · exact hds' d hd

theorem Walled.drop {dropped rest : List (Frame R)} {n : FrameId} {ds : List (Frame R)}
    {g : Frame R} (h : Walled id around got (dropped ++ rest)) (hd : dropped = ds ++ [g])
    (hg : g.id = n) (hn : ¬ (n = id ∨ n ∈ around)) : Walled id around got rest := by
  obtain ⟨inner, f, outer, heq, hid, haround, hin, hout⟩ := h
  rcases List.append_eq_append_iff.1 heq with ⟨as, rfl, hrest⟩ | ⟨as, hdropped, hrest⟩
  · refine ⟨as, f, outer, hrest, hid, haround, fun q hq => hin q ?_, hout⟩
    rw [List.append_assoc, ownedBy_append]
    exact List.mem_append_right _ hq
  · cases as with
    | nil =>
      refine ⟨[], f, outer, hrest.symm, hid, haround, fun q hq => hin q ?_, hout⟩
      rw [ownedBy_append]
      exact List.mem_append_right _ hq
    | cons f' as =>
      -- the last dropped frame would be `id` or around it
      obtain ⟨rfl, rfl⟩ := List.cons.inj hrest
      refine absurd ?_ hn
      rw [hd] at hdropped
      have hlast : g ∈ f :: as := by
        have hends := congrArg List.getLast? hdropped
        rw [List.getLast?_concat, List.getLast?_append_of_ne_nil _ (by simp)] at hends
        exact List.mem_of_getLast? hends.symm
      rcases List.mem_cons.1 hlast with rfl | hmem
      · exact .inl (hg.symm.trans hid)
      · rw [← haround, ← hg]
        exact .inr (List.mem_map_of_mem (List.mem_append_left _ hmem))

end Walls

namespace Session

variable {s s' : Session R} {id : FrameId} {around : List FrameId} {got : List QubitId}

omit [Scalar R] in
theorem Sound.obtained_fresh (h : Sound [] s) (c : Call R) {q : QubitId} (hq : q ∈ c.obtained s) :
    q ∉ ownedBy s.frames.toList := by
  cases c with
  | allocate count name =>
    rcases ha : s.allocate count name with ⟨e | qs, s'⟩
    · simp [Call.obtained, ha, Except.toOption] at hq
    · rw [Call.obtained_allocate ha] at hq
      obtain ⟨-, a, halloc, -⟩ := allocate_ok ha
      have hdead := (Allocator.allocate_spec h.allocator halloc).2.1 q hq
      intro howned
      rw [h.owned.live_of_owned howned] at hdead
      exact absurd hdead (by simp)
  | _ => exact absurd hq List.not_mem_nil

theorem Outcome.walled {c : Call R} {r : Except SessionError Unit} (h : Outcome s c (r, s'))
    (hs : Sound [] s) (hc : c.Spares fun n => n = id ∨ n ∈ around)
    (hw : Walled id around got s.frames.toList) :
    Walled id around (got ++ c.obtained s) s'.frames.toList := by
  have hw := hw.extend fun q hq => hs.obtained_fresh c hq
  cases h with
  | kept hf => exact hw.trimmed (trims_of_sheds hf)
  | granted ha hf =>
    rw [hf]
    refine Walled.own hw fun q hq => List.mem_append_right _ ?_
    rw [Call.obtained_allocate ha]
    exact hq
  | @sent _ i _ fs _ _ hr hf =>
    have hkin := FrameStack.routeThrough_kin s.frames.toList i false
    rw [hr] at hkin
    exact (hw.trimmed (trims_of_kin hkin)).trimmed (trims_of_sheds hf)
  | entered hf =>
    rw [hf]
    exact hw.cons fun q hq => absurd hq List.not_mem_nil
  | turned _ hf =>
    rw [hf]
    refine hw.trimmed (.cons ⟨rfl, fun _ hq => hq⟩ ?_)
    exact trims_of_sheds (sheds_refl _)
  | @closed n parent rest _ _ hid hb h =>
    obtain ⟨hr, hf, hs', hqs, -, -, -⟩ := h
    next r₁ s₁ frames qs =>
    rw [FrameStack.toList, hb] at hw
    obtain ⟨hrest, howned⟩ := hw.tail fun htop => hc (.inl (hid.symm.trans htop))
    have hkin := replay_kin (s.popped parent rest) s.frames.top
    rw [hr] at hkin
    have hnext := (hrest.trimmed (trims_of_kin hkin)).trimmed (trims_of_sheds hf)
    rw [hs']
    refine Walled.own hnext fun q hq => ?_
    rcases hqs with ⟨-, rfl⟩ | ⟨-, rfl⟩
    · exact howned q ((hs.owned.tidy s.frames.top List.mem_cons_self).exported q hq)
    · exact absurd hq List.not_mem_nil
  | @dropped n fs frames _ hcut hf =>
    obtain ⟨ds, g, hlast, hg, -⟩ := FrameStack.cut?_last hcut
    rw [show s.frames.toList = fs ++ frames.toList from FrameStack.cut?_toList hcut] at hw
    exact (hw.drop hlast hg hc).trimmed (trims_of_sheds hf)

theorem Reachable.walled_after {cs : List (Call R)} (hs : s.Reachable)
    (hcs : ∀ c ∈ cs, c.Spares fun n => n = id ∨ n ∈ around)
    (hw : Walled id around got s.frames.toList) :
    Walled id around (got ++ s.obtained cs) (s.after cs).frames.toList := by
  induction cs generalizing s got with
  | nil =>
    rw [obtained, List.append_nil]
    exact hw
  | cons c cs ih =>
    have hstep := (hs.equipped.outcome c).walled hs.sound (hcs c List.mem_cons_self) hw
    have hrest := ih (hs.call c) (fun d hd => hcs d (List.mem_cons_of_mem _ hd)) hstep
    rwa [List.append_assoc] at hrest

/-! ## The end of an environment -/

omit [Scalar R] in
theorem Walled.top (hs : s.Numbered) (hw : Walled id around got s.frames.toList)
    (htop : s.frames.top.id = id) :
    s.frames.below.map Frame.id = around ∧ (∀ q ∈ s.frames.top.owned, q ∈ got) ∧
      ∀ q ∈ ownedBy s.frames.below, q ∉ got := by
  obtain ⟨inner, f, outer, hframes, hid, haround, hin, hout⟩ := hw
  cases inner with
  | nil =>
    obtain ⟨rfl, rfl⟩ := List.cons.inj hframes
    exact ⟨haround, fun q hq => hin q (List.mem_append_left _ hq), hout⟩
  | cons g inner =>
    -- frames have different numbers
    obtain ⟨rfl, hbelow⟩ := List.cons.inj hframes
    refine absurd ?_ (List.nodup_cons.1 hs.nodup).1
    rw [htop, hbelow, ← hid]
    exact List.mem_map_of_mem (List.mem_append_right _ List.mem_cons_self)

omit [Scalar R] in
theorem Walled.below (hw : Walled id around got s.frames.toList) (haround : around ≠ []) :
    ∃ parent rest, s.frames.below = parent :: rest := by
  obtain ⟨inner, f, outer, hframes, -, hids, -, -⟩ := hw
  refine List.exists_cons_of_ne_nil fun hnil => haround ?_
  rw [FrameStack.toList, hnil] at hframes
  have houter : outer = [] := by
    have hlength := congrArg List.length hframes
    simp only [List.length_cons, List.length_nil, List.length_append] at hlength
    exact List.length_eq_zero_iff.1 (by omega)
  rw [← hids, houter]
  rfl

theorem top_of_exit {parent : Frame R} {rest : List (Frame R)} {r : Except SessionError Unit}
    (hb : s.frames.below = parent :: rest) (hexit : s.exit id = (r, s'))
    (hp : s'.isPoisoned = false) : s.isPoisoned = false ∧ s.frames.top.id = id := by
  have hunpoisoned : s.isPoisoned = false := by
    by_contra hpoisoned
    rw [exit_of_poisoned (by simpa using hpoisoned)] at hexit
    rw [← (Prod.mk.inj hexit).2] at hp
    exact hpoisoned hp
  refine ⟨hunpoisoned, ?_⟩
  by_contra hne
  rw [exit_of_ne hunpoisoned hb hne] at hexit
  rw [← (Prod.mk.inj hexit).2] at hp
  exact absurd hp (by simp)

theorem Reachable.walled_exit (hs : s.Reachable) (haround : around ≠ [])
    (hw : Walled id around got s.frames.toList) {r : Except SessionError Unit}
    (hexit : s.exit id = (r, s')) (hp : s'.isPoisoned = false) :
    s'.frames.toList.map Frame.id = around ∧
      (∀ e, r = .error e → ∀ q ∈ got, s'.allocator.isLive q = false) ∧
      (r = .ok () → (∀ q, q ∈ got ∧ s'.allocator.isLive q = true ↔ q ∈ s.frames.top.exported) ∧
        ∀ q ∈ s.frames.top.exported, q ∈ s'.frames.top.owned) := by
  obtain ⟨parent, rest, hb⟩ := Walled.below hw haround
  obtain ⟨hunpoisoned, htop⟩ := top_of_exit hb hexit hp
  obtain ⟨hids, howned, hout⟩ := Walled.top hs.numbered hw htop
  have hclosed := exit_closed hunpoisoned htop hb
  have hsound : Sound [] s' := by
    have := (hs.call (.exit id)).sound
    rwa [show ((Call.exit id).perform s).2 = s' from congrArg Prod.snd hexit] at this
  rw [hexit] at hclosed
  refine ⟨by rw [hclosed.ids, ← hb, hids], ?_⟩
  obtain ⟨hr, hf, hs', hqs, -, -, -⟩ := hclosed
  next r₁ s₁ frames qs =>
  have hkin := replay_kin (s.popped parent rest) s.frames.top
  rw [hr] at hkin
  -- what is in use behind the call belonged to the frames around, or has just been taken over
  have hlive : ∀ q ∈ got, s'.allocator.isLive q = true → q ∈ qs := by
    intro q hq hlive
    have hmem := (hsound.owned.live_iff q).1 hlive
    rw [or_iff_right List.not_mem_nil, hs'] at hmem
    have hcase : q ∈ qs ∨ q ∈ ownedBy frames.toList := by
      simp only [FrameStack.modifyTop, FrameStack.toList, ownedBy_cons, Frame.own,
        List.mem_append] at hmem ⊢
      tauto
    refine hcase.resolve_right fun hmem => hout q ?_ hq
    rw [hb]
    exact ownedBy_subset (trims_of_kin hkin) (ownedBy_subset (trims_of_sheds hf) hmem)
  rcases hqs with ⟨rfl, rfl⟩ | ⟨⟨e, rfl⟩, rfl⟩
  · have htaken : ∀ q ∈ s.frames.top.exported, q ∈ s'.frames.top.owned := by
      intro q hq
      rw [hs']
      exact List.mem_append_right _ hq
    have hgot : ∀ q ∈ s.frames.top.exported, q ∈ got := fun q hq =>
      howned q ((hs.sound.owned.tidy s.frames.top List.mem_cons_self).exported q hq)
    refine ⟨fun e he => by simp at he, fun _ => ⟨fun q => ?_, htaken⟩⟩
    refine ⟨fun hq => hlive q hq.1 hq.2, fun hq => ⟨hgot q hq, hsound.owned.live_of_owned ?_⟩⟩
    exact mem_ownedBy.2 ⟨s'.frames.top, List.mem_cons_self, htaken q hq⟩
  · refine ⟨fun _ _ q hq => ?_, fun hok => by simp at hok⟩
    by_contra hne
    exact absurd (hlive q hq (by simpa using hne)) List.not_mem_nil

omit [Scalar R] in
theorem cut?_of_split {g : Frame R} {gs inner : List (Frame R)} {f o : Frame R}
    {os : List (Frame R)} (h : g :: gs = inner ++ f :: o :: os) (hf : f.id = id)
    (hinner : ∀ d ∈ inner, d.id ≠ id) :
    FrameStack.cut? id g gs = some (inner ++ [f], ⟨o, os⟩) := by
  induction inner generalizing g gs with
  | nil =>
    obtain ⟨rfl, rfl⟩ := List.cons.inj h
    simp [FrameStack.cut?, hf]
  | cons d inner ih =>
    obtain ⟨rfl, rfl⟩ := List.cons.inj h
    have hd := hinner g List.mem_cons_self
    have hrest : ∀ d ∈ inner, d.id ≠ id := fun d hmem => hinner d (List.mem_cons_of_mem _ hmem)
    rcases hsplit : inner ++ f :: o :: os with _ | ⟨d', rest⟩
    · exact absurd hsplit (by simp)
    · show FrameStack.cut? id g (inner ++ f :: o :: os) = _
      rw [hsplit]
      unfold FrameStack.cut?
      rw [if_neg hd, ih hsplit.symm hrest]
      rfl

theorem Reachable.walled_abort (hs : s.Reachable) (haround : around ≠ [])
    (hw : Walled id around got s.frames.toList) :
    (s.abort id).frames.toList.map Frame.id = around ∧
      ∀ q ∈ got, (s.abort id).allocator.isLive q = false := by
  obtain ⟨inner, f, outer, hframes, hid, hids, hin, hout⟩ := hw
  have hinner : ∀ d ∈ inner, d.id ≠ id := by
    intro d hd heq
    have hnodup := hs.numbered.nodup
    rw [hframes, List.map_append, List.map_cons] at hnodup
    refine (List.nodup_append'.1 hnodup).2.2 (List.mem_map_of_mem hd) ?_
    rw [heq, hid]
    exact List.mem_cons_self
  cases outer with
  | nil => exact absurd hids.symm haround
  | cons o os =>
    have hcut : FrameStack.cut? id s.frames.top s.frames.below = some (inner ++ [f], ⟨o, os⟩) :=
      cut?_of_split hframes hid hinner
    have hsound : Sound [] (s.abort id) := (hs.call (.abort id)).sound
    have hsheds : List.Forall₂ Frame.Sheds (o :: os) (s.abort id).frames.toList := by
      rw [abort_of_cut hcut]
      exact (foldl_forceReclaim_keeps (inner ++ [f]) { s with frames := ⟨o, os⟩ }).1
    refine ⟨(ids_of_sheds hsheds).trans hids, fun q hq => ?_⟩
    by_contra hlive
    have hmem := (hsound.owned.live_iff q).1 (by simpa using hlive)
    rw [or_iff_right List.not_mem_nil] at hmem
    exact hout q (ownedBy_subset (trims_of_sheds hsheds) hmem) hq

end Session

namespace Build

variable {ε : Type} [FromSession ε]

/-- The environments with a body: the construction, the frame it opens, and what it runs inside. -/
inductive Encloses : {α : Type} → Build R ε α → Environment → String → Build R ε α → Prop
  | conjugate {α β : Type} (label : String) (compute : Build R ε α) (act : α → Build R ε β) :
    Encloses (conjugate label compute act) .conjugation label (do
      let a ← compute
      beginAction
      act a)
  | control {α : Type} (controls : List QubitId) (body : Build R ε α) :
    Encloses (control controls body) (.controlled controls) "control" body
  | controlClassical {α : Type} (clbits : List ClbitId) (value : Nat) (body : Build R ε α) :
    Encloses (controlClassical clbits value body) (.classical (.ofValue clbits value)) "if" body
  | invert {α : Type} (body : Build R ε α) : Encloses (invert body) .inversion "invert" body
  | scope {α : Type} (label : String) (body : Build R ε α) :
    Encloses (scope label body) .scope label body
  | iterate (steps : Nat) (strategy : IterationStrategy)
    (predicate : Nat → QubitId → Build R ε Unit) (forward backward : Nat → Build R ε Unit) :
    Encloses (iterate steps strategy predicate forward backward) .iteration "iterate" (do
      countUp
        (fun k => match strategy with
          | .shared => sharedStep (predicate k) (forward k) (backward k)
          | .naive => naiveStep (predicate k) (forward k) (backward k))
        steps 0
      return ⟨steps, steps * strategy.evaluations⟩)

theorem Encloses.eq_within {α : Type} {b body : Build R ε α} {environment : Environment}
    {label : String} (h : Encloses b environment label body) :
    b = within environment label body := by
  cases h <;> rfl

theorem Makes.walled {α : Type} {s s₁ : Session R} {body : Build R ε α} {environment : Environment}
    {label : String} {id : FrameId} {cs : List (Call R)}
    (hcs : Makes (fun n => n = id ∨ n ∈ s.frames.toList.map Frame.id) body s₁ cs)
    (hs : s.Reachable) (henter : s.enter environment label = (.ok id, s₁)) :
    Walled id (s.frames.toList.map Frame.id) (s₁.obtained cs) (s₁.after cs).frames.toList := by
  have hreach := hs.entered henter
  obtain ⟨rfl, rfl⟩ := Session.enter_eq henter
  have hspares := hcs.spares hreach <| by
    rintro n (rfl | hn)
    · exact Nat.lt_succ_self _
    · exact Nat.lt_succ_of_lt ((List.pairwise_cons.1 hs.numbered).1 n hn)
  have hstart : Walled s.nextFrame (s.frames.toList.map Frame.id) []
      (s.frames.push (.new s.nextFrame environment label)).toList :=
    ⟨[], _, _, rfl, rfl, rfl, fun q hq => absurd hq List.not_mem_nil, fun q _ => List.not_mem_nil⟩
  have hwalled := hreach.walled_after hspares hstart
  rwa [List.nil_append] at hwalled

/-- Either the environment is refused and nothing happens, or its body is run in its frame. Then,
unless a body that succeeded has poisoned the session, the frames are those from before. If the call
fails, no qubit handed out by the body is in use; if it succeeds, those in use are the ones the
closing frame has exported, and the innermost frame owns them. -/
theorem environment_unwinds {α : Type} {s s' : Session R} {b body : Build R ε α}
    {environment : Environment} {label : String} {r : Except ε α} (hs : s.Reachable)
    (hb : Encloses b environment label body) (hrun : exec b s = (r, s')) :
    (∃ e, s.enter environment label = (.error e, s) ∧ r = .error (FromSession.ofSession e) ∧
      s' = s) ∨
    ∃ id s₁, s.enter environment label = (.ok id, s₁) ∧
      ∀ cs, Makes (fun n => n = id ∨ n ∈ s.frames.toList.map Frame.id) body s₁ cs →
        (s'.isPoisoned = false ∨ ∃ e, (exec body s₁).1 = .error e) →
        s'.frames.toList.map Frame.id = s.frames.toList.map Frame.id ∧
        (∀ e, r = .error e → ∀ q ∈ s₁.obtained cs, s'.allocator.isLive q = false) ∧
        ∀ a, r = .ok a →
          (∀ q, q ∈ s₁.obtained cs ∧ s'.allocator.isLive q = true ↔
            q ∈ (s₁.after cs).frames.top.exported) ∧
          ∀ q ∈ (s₁.after cs).frames.top.exported, q ∈ s'.frames.top.owned := by
  rw [hb.eq_within, exec_within] at hrun
  rcases henter : s.enter environment label with ⟨e | id, s₁⟩
  · obtain rfl := Session.enter_error henter
    rw [henter, Prod.mk.injEq] at hrun
    exact .inl ⟨e, rfl, hrun.1.symm, hrun.2.symm⟩
  · refine .inr ⟨id, s₁, rfl, fun cs hcs hp => ?_⟩
    rw [henter] at hrun
    simp only [] at hrun
    have hreach := hs.entered henter
    have hwalled := hcs.walled hs henter
    have haround : s.frames.toList.map Frame.id ≠ [] := by simp [FrameStack.toList]
    have hend := hcs.exec_eq
    rcases hbody : exec body s₁ with ⟨e | a, s₂⟩
    · rw [hbody] at hend hrun
      obtain ⟨rfl, rfl⟩ := Prod.mk.inj hrun
      obtain rfl : s₂ = s₁.after cs := hend
      obtain ⟨hids, hdead⟩ := (hreach.after cs).walled_abort haround hwalled
      exact ⟨hids, fun _ _ => hdead, fun a ha => by simp at ha⟩
    · rw [hbody] at hend hrun hp
      obtain rfl : s₂ = s₁.after cs := hend
      have hp : s'.isPoisoned = false := hp.resolve_right (by simp)
      rcases hexit : (s₁.after cs).exit id with ⟨e | _, s₃⟩
      · simp only [hexit, Prod.mk.injEq] at hrun
        obtain ⟨rfl, rfl⟩ := hrun
        obtain ⟨hids, hfail, -⟩ := (hreach.after cs).walled_exit haround hwalled hexit hp
        exact ⟨hids, fun _ _ => hfail e rfl, fun a ha => by simp at ha⟩
      · simp only [hexit, Prod.mk.injEq] at hrun
        obtain ⟨rfl, rfl⟩ := hrun
        obtain ⟨hids, -, hok⟩ := (hreach.after cs).walled_exit haround hwalled hexit hp
        exact ⟨hids, fun e he => by simp at he, fun _ _ => hok rfl⟩

theorem environment_unwinds_scope :
    ∃ (s s₁ s' : Session Float) (body : Build Float SessionError Unit) (cs : List (Call Float)),
      s = (Session.new {}).after [.allocate 1 "a"] ∧ s.enter .scope "l" = (.ok 1, s₁) ∧
      Makes (fun n => n = 1 ∨ n ∈ s.frames.toList.map Frame.id) body s₁ cs ∧
      exec (scope "l" body) s = (.ok (), s') ∧ s'.isPoisoned = false ∧
      s₁.obtained cs = [1, 2] ∧ (s₁.after cs).frames.top.exported = [2] ∧
      s'.frames.toList.map Frame.id = s.frames.toList.map Frame.id ∧
      (∀ q, q ∈ s₁.obtained cs ∧ s'.allocator.isLive q = true ↔ q = 2) ∧
      2 ∈ s'.frames.top.owned := by
  let s : Session Float := (Session.new {}).after [.allocate 1 "a"]
  let s₁ := (s.enter .scope "l").2
  let body : Build Float SessionError Unit := do
    let _ ← allocate 2 "b"
    exportQubits [2]
  let cs : List (Call Float) := [.allocate 2 "b"] ++ [.exportQubits [2]]
  have hs : s.Reachable := (Session.Reachable.new {}).after _
  have henter : s.enter .scope "l" = (.ok 1, s₁) := Prod.ext (by decide +kernel) rfl
  have hallocate : exec (allocate 2 "b" : Build Float SessionError (List QubitId)) s₁ =
      (.ok [1, 2], (s₁.allocate 2 "b").2) := Prod.ext (by decide +kernel) rfl
  have hmakes : Makes (fun n => n = 1 ∨ n ∈ s.frames.toList.map Frame.id) body s₁ cs :=
    .bind_ok (.allocate 2 "b" s₁) hallocate (.exportQubits [2] _)
  have hrun : exec (scope "l" body) s = (.ok (), (exec (scope "l" body) s).2) :=
    Prod.ext (by decide +kernel) rfl
  have hpoisoned : (exec (scope "l" body) s).2.isPoisoned = false := by decide +kernel
  have hobtained : s₁.obtained cs = [1, 2] := by decide +kernel
  have hexported : (s₁.after cs).frames.top.exported = [2] := by decide +kernel
  rcases environment_unwinds hs (.scope "l" body) hrun with ⟨e, he, -⟩ | ⟨id, s₂, hid, hall⟩
  · rw [henter] at he
    exact absurd (Prod.mk.inj he).1 (by simp)
  · rw [henter, Prod.mk.injEq, Except.ok.injEq] at hid
    obtain ⟨rfl, rfl⟩ := hid
    obtain ⟨hids, -, hok⟩ := hall cs hmakes (.inl hpoisoned)
    obtain ⟨hlive, howned⟩ := hok () rfl
    rw [hexported] at hlive howned
    exact ⟨s, s₁, _, body, cs, rfl, henter, hmakes, hrun, hpoisoned, hobtained, hexported, hids,
      fun q => (hlive q).trans List.mem_singleton, howned 2 (List.mem_singleton.2 rfl)⟩

end Build

end Ancilla
