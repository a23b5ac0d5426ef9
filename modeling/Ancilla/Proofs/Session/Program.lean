import Ancilla.Proofs.Session.Growth
import Ancilla.Proofs.Session.Leaks

/-!
Programs of gates and nested environments, and what compiling one sends. The gates of a program
reach the frames around it as a list of placements that the text of the program determines: each
environment changes what comes out of its body, and a gate of a compute phase is balanced from
there on. Compiling a program is sending its placements one after another.
-/

namespace Ancilla

variable {R : Type}

/-- A gate on its operands, and whether it will be undone. -/
structure Placement (R : Type) where
  gate : Gate R
  qubits : List QubitId
  balanced : Bool := false

namespace Placement

def instruction (e : Placement R) : Instruction R := .ofGate e.gate e.qubits

def entry (e : Placement R) : Instruction R × Bool := (e.instruction, e.balanced)

def shielded (e : Placement R) : Placement R := { e with balanced := true }

def under (cs : List QubitId) (e : Placement R) : Placement R :=
  if e.balanced then e
  else { e with
    gate := { e.gate with kind := e.gate.kind.withControls cs.length }
    qubits := cs ++ e.qubits }

def provided (c : Condition) (e : Placement R) : Placement R :=
  if e.balanced then e else { e with gate := e.gate.withCondition c }

def undone [Scalar R] (e : Placement R) : Placement R := { e with gate := e.gate.adjoint }

end Placement

/-- Gates in sequence and inside environments, on qubits in use. -/
inductive Program (R : Type)
  | skip
  | seq (p q : Program R)
  | apply (g : Gate R) (qs : List QubitId)
  | conjugate (label : String) (compute act : Program R)
  | control (cs : List QubitId) (body : Program R)
  | controlClassical (clbits : List ClbitId) (value : Nat) (body : Program R)
  | invert (body : Program R)
  | scope (label : String) (body : Program R)

namespace Program

def gates : Program R → List (Gate R × List QubitId)
  | skip => []
  | seq p q => p.gates ++ q.gates
  | apply g qs => [(g, qs)]
  | conjugate _ compute act => compute.gates ++ act.gates
  | control _ body => body.gates
  | controlClassical _ _ body => body.gates
  | invert body => body.gates
  | scope _ body => body.gates

/-- No gate inside a control names a qubit of the control. -/
def Separated : Program R → Prop
  | skip => True
  | seq p q => p.Separated ∧ q.Separated
  | apply _ _ => True
  | conjugate _ compute act => compute.Separated ∧ act.Separated
  | control cs body => body.Separated ∧ ∀ e ∈ body.gates, ∀ q ∈ e.2, q ∉ cs
  | controlClassical _ _ body => body.Separated
  | invert body => body.Separated
  | scope _ body => body.Separated

variable [Scalar R]

def build : Program R → Build R SessionError Unit
  | skip => pure ()
  | seq p q => p.build >>= fun _ => q.build
  | apply g qs => Build.apply g qs
  | conjugate label compute act => Build.conjugate label compute.build fun _ => act.build
  | control cs body => Build.control cs body.build
  | controlClassical clbits value body => Build.controlClassical clbits value body.build
  | invert body => Build.invert body.build
  | scope label body => Build.scope label body.build

def placements : Program R → List (Placement R)
  | skip => []
  | seq p q => p.placements ++ q.placements
  | apply g qs => [⟨g, qs, false⟩]
  | conjugate _ compute act =>
    let forward := compute.placements.map .shielded
    forward ++ act.placements ++ forward.reverse.map .undone
  | control cs body => body.placements.map (.under cs)
  | controlClassical clbits value body => body.placements.map (.provided (.ofValue clbits value))
  | invert body => body.placements.reverse.map .undone
  | scope _ body => body.placements

end Program

/-! ## One frame on the way outwards -/

def Environment.relay : Environment → Phase → Placement R → Option (Placement R)
  | .conjugation, .compute, e => some e.shielded
  | .conjugation, .act, e => some e
  | .controlled cs, _, e => some (e.under cs)
  | .classical c, _, e => some (e.provided c)
  | .inversion, _, _ => none
  | .iteration, _, e => some e
  | .scope, _, e => some e

def Environment.retains : Environment → Phase → Bool
  | .conjugation, .compute => true
  | .inversion, _ => true
  | _, _ => false

namespace Frame

structure Holds (f : Frame R) (id : FrameId) (environment : Environment) (phase : Phase)
    (owned : List QubitId) (kept : List (Placement R)) : Prop where
  id : f.id = id
  environment : f.environment = environment
  phase : f.phase = phase
  owned : f.owned = owned
  exported : f.exported = []
  log : f.log = kept.map Placement.entry

variable {f : Frame R} {id : FrameId} {environment : Environment} {phase : Phase}
  {owned : List QubitId} {kept : List (Placement R)}

theorem holds_new (id : FrameId) (environment : Environment) (label : String) :
    (Frame.new id environment label : Frame R).Holds id environment .compute [] [] :=
  ⟨rfl, rfl, rfl, rfl, rfl, rfl⟩

theorem Holds.own (h : f.Holds id environment phase owned kept) (qs : List QubitId) :
    (f.own qs).Holds id environment phase (owned ++ qs) kept :=
  ⟨h.id, h.environment, h.phase, congrArg (· ++ qs) h.owned, h.exported, h.log⟩

theorem Holds.touch (h : f.Holds id environment phase owned kept) (qs : List QubitId) :
    (f.touch qs).Holds id environment phase owned kept :=
  ⟨h.id, h.environment, h.phase, h.owned, h.exported, h.log⟩

theorem Holds.note (h : f.Holds id environment phase owned kept) (i : Instruction R) (b : Bool) :
    (f.note i b).Holds id environment phase owned kept := by
  unfold Frame.note
  split
  · exact h.touch _
  · split
    · exact h
    · exact h.touch _

theorem Holds.keep (h : f.Holds id environment phase owned kept) (e : Placement R) :
    (f.keep e.instruction e.balanced).Holds id environment phase owned (e :: kept) := by
  refine ⟨h.id, h.environment, h.phase, h.owned, h.exported, ?_⟩
  rw [List.map_cons, ← h.log]
  rfl

theorem Holds.count (h : f.Holds id environment phase owned kept) (o : Option (Instruction R)) :
    (Frame.count o f).Holds id environment phase owned kept :=
  ⟨h.id, h.environment, h.phase, h.owned, h.exported, h.log⟩

theorem Holds.pass (h : f.Holds id environment phase owned kept) (e : Placement R) :
    ∃ f', f.pass e.instruction e.balanced =
        .ok (f', (environment.relay phase e).map Placement.entry) ∧
      f'.Holds id environment phase owned (if environment.retains phase then e :: kept else kept) := by
  have hgate : e.instruction.isMeasure = false := rfl
  unfold Frame.pass
  rw [h.environment]
  cases environment with
  | conjugation =>
    cases phase with
    | compute =>
      simp only [h.phase, if_true, hgate]
      refine ⟨_, rfl, ?_⟩
      apply Holds.note
      apply Holds.keep
      exact ⟨h.id, rfl, rfl, h.owned, h.exported, h.log⟩
    | act =>
      simp only [h.phase, if_neg (show ¬ Phase.act = .compute by decide)]
      refine ⟨_, rfl, ?_⟩
      apply Holds.note
      split
      · exact h
      · exact h.touch _
  | iteration => exact ⟨_, rfl, h.note _ _⟩
  | controlled cs =>
    cases hb : e.balanced with
    | true =>
      refine ⟨_, ?_, h.note e.instruction true⟩
      simp [Environment.relay, Placement.under, Placement.entry, hb]
    | false =>
      refine ⟨_, ?_, h.note (e.under cs).instruction false⟩
      simp only [Environment.relay, Placement.under, hb]
      rfl
  | classical c =>
    cases hb : e.balanced with
    | true =>
      refine ⟨_, ?_, h.note e.instruction true⟩
      simp [Environment.relay, Placement.provided, Placement.entry, hb]
    | false =>
      refine ⟨_, ?_, h.note (e.provided c).instruction false⟩
      simp only [Environment.relay, Placement.provided, hb]
      rfl
  | inversion => exact ⟨_, rfl, h.keep e⟩
  | scope => exact ⟨_, rfl, h.note _ _⟩

end Frame

theorem FrameStack.route_push {f f' : Frame R} {i j : Instruction R} {b c : Bool}
    (h : f.pass i b = .ok (f', some (j, c))) (s : FrameStack R) :
    (s.push f).route i b = ((s.route j c).1, (s.route j c).2.push f') := by
  obtain ⟨hr, hframes⟩ := s.route_eq j c
  have hroute : (s.push f).route i b =
      ((routeThrough s.toList j c).1, ⟨f', (routeThrough s.toList j c).2⟩) := by
    unfold FrameStack.route
    simp only [FrameStack.push, h]
    rfl
  rw [hroute, ← hr, ← hframes]
  rfl

namespace Session

def inside (s : Session R) (f : Frame R) : Session R := { s with frames := s.frames.push f }

def sendAll (s : Session R) (es : List (Placement R)) : Except SessionError (Session R) :=
  es.foldlM (fun s e => (s.send e.instruction e.balanced).settle) s

variable {s t : Session R} {owned : List QubitId}

theorem settle_eq_ok {ε σ : Type} {r : Reply ε σ Unit} {a : σ} : r.settle = .ok a ↔ r = (.ok (), a) := by
  rcases r with ⟨e | _, b⟩ <;> simp [Reply.settle]

theorem sendAll_nil (s : Session R) : s.sendAll [] = .ok s := rfl

theorem sendAll_cons {e : Placement R} {es : List (Placement R)} :
    s.sendAll (e :: es) = .ok t ↔
      ∃ s₁, s.send e.instruction e.balanced = (.ok (), s₁) ∧ s₁.sendAll es = .ok t := by
  have hsplit : s.sendAll (e :: es) =
      (s.send e.instruction e.balanced).settle >>= fun s₁ => s₁.sendAll es := List.foldlM_cons
  rw [hsplit]
  simp only [← settle_eq_ok]
  cases (s.send e.instruction e.balanced).settle <;> simp [bind, Except.bind]

theorem sendAll_append {es fs : List (Placement R)} :
    s.sendAll (es ++ fs) = .ok t ↔ ∃ s₁, s.sendAll es = .ok s₁ ∧ s₁.sendAll fs = .ok t := by
  have hsplit : s.sendAll (es ++ fs) = s.sendAll es >>= fun s₁ => s₁.sendAll fs :=
    List.foldlM_append
  rw [hsplit]
  cases s.sendAll es <;> simp [bind, Except.bind]

theorem deliver_inside (s : Session R) (f : Frame R) (i : Instruction R) :
    (s.inside f).deliver i =
      ((s.deliver i).1, (s.deliver i).2.inside (Frame.count (some i) f)) := by
  unfold Session.deliver
  simp only [onCircuit_eq, inside]
  rcases s.circuit.push i with ⟨_ | _, _⟩ <;> rfl

theorem send_inside {f f' : Frame R} {i j : Instruction R} {b c : Bool}
    (h : f.pass i b = .ok (f', some (j, c))) (s : Session R) :
    ∃ o, (s.inside f).send i b = ((s.send j c).1, (s.send j c).2.inside (Frame.count o f')) := by
  unfold Session.send
  simp only [inside, FrameStack.route_push h]
  rcases s.frames.route j c with ⟨e | _ | x, frames⟩
  · exact ⟨none, rfl⟩
  · exact ⟨none, rfl⟩
  · exact ⟨some x, deliver_inside { s with frames } f' x⟩

theorem send_inside_kept {f f' : Frame R} {i : Instruction R} {b : Bool}
    (h : f.pass i b = .ok (f', none)) (s : Session R) :
    (s.inside f).send i b = (.ok (), s.inside f') := by
  unfold Session.send
  simp only [inside, FrameStack.route, FrameStack.push, h]

theorem sendOne_inside {f : Frame R} {id : FrameId} {environment : Environment} {phase : Phase}
    {kept : List (Placement R)} (hf : f.Holds id environment phase owned kept) {e : Placement R}
    (h : (s.inside f).send e.instruction e.balanced = (.ok (), t)) :
    ∃ s₁ f', t = s₁.inside f' ∧ s.sendAll (environment.relay phase e).toList = .ok s₁ ∧
      f'.Holds id environment phase owned (if environment.retains phase then e :: kept else kept) := by
  obtain ⟨f', hpass, hf'⟩ := hf.pass e
  cases hrelay : environment.relay phase e with
  | none =>
    rw [hrelay] at hpass
    rw [send_inside_kept hpass s] at h
    exact ⟨s, f', (Prod.mk.inj h).2.symm, rfl, hf'⟩
  | some e' =>
    rw [hrelay] at hpass
    obtain ⟨o, hsend⟩ := send_inside hpass s
    rw [hsend] at h
    refine ⟨_, _, (Prod.mk.inj h).2.symm, ?_, hf'.count o⟩
    rw [Option.toList_some, sendAll_cons]
    exact ⟨_, Prod.ext (Prod.mk.inj h).1 rfl, sendAll_nil _⟩

theorem sendAll_inside {f : Frame R} {id : FrameId} {environment : Environment} {phase : Phase}
    {kept es : List (Placement R)} (hf : f.Holds id environment phase owned kept)
    (h : (s.inside f).sendAll es = .ok t) :
    ∃ s₁ f', t = s₁.inside f' ∧ s.sendAll (es.filterMap (environment.relay phase)) = .ok s₁ ∧
      f'.Holds id environment phase owned
        (if environment.retains phase then es.reverse ++ kept else kept) := by
  -- the frame and what it has kept change with each placement, so they are general
  induction es generalizing s f kept with
  | nil =>
    obtain rfl := Except.ok.inj h
    exact ⟨s, f, rfl, rfl, by simpa using hf⟩
  | cons e es ih =>
    obtain ⟨t₁, hfirst, hrest⟩ := sendAll_cons.1 h
    obtain ⟨s₁, f₁, rfl, hs₁, hf₁⟩ := sendOne_inside hf hfirst
    obtain ⟨s₂, f₂, rfl, hs₂, hf₂⟩ := ih hf₁ hrest
    refine ⟨s₂, f₂, rfl, ?_, ?_⟩
    · have hlist : (e :: es).filterMap (environment.relay phase) =
          (environment.relay phase e).toList ++ es.filterMap (environment.relay phase) := by
        rw [List.filterMap_cons]
        cases environment.relay phase e <;> rfl
      rw [hlist, sendAll_append]
      exact ⟨s₁, hs₁, hs₂⟩
    · cases hkeeps : environment.retains phase with
      | false => simpa [hkeeps] using hf₂
      | true => simpa [hkeeps] using hf₂

/-! ## Compiling -/

def unnumbered (s : Session R) : Session R := { s with nextFrame := 0 }

theorem send_unnumbered (s : Session R) (i : Instruction R) (b : Bool) :
    s.unnumbered.send i b = ((s.send i b).1, (s.send i b).2.unnumbered) := by
  unfold Session.send
  simp only [unnumbered]
  rcases s.frames.route i b with ⟨e | _ | x, frames⟩
  · rfl
  · rfl
  · simp only [Session.deliver, onCircuit_eq]
    rcases s.circuit.push x with ⟨_ | _, _⟩ <;> rfl

theorem sendAll_unnumbered {es : List (Placement R)} (h : s.sendAll es = .ok t) :
    s.unnumbered.sendAll es = .ok t.unnumbered := by
  induction es generalizing s with
  | nil =>
    obtain rfl := Except.ok.inj h
    rfl
  | cons e es ih =>
    obtain ⟨s₁, hfirst, hrest⟩ := sendAll_cons.1 h
    refine sendAll_cons.2 ⟨s₁.unnumbered, ?_, ih hrest⟩
    rw [send_unnumbered, hfirst]

theorem reclaim_unnumbered (s : Session R) (qs : List QubitId) :
    s.unnumbered.reclaim qs = ((s.reclaim qs).1, (s.reclaim qs).2.unnumbered) := by
  unfold Session.reclaim
  split
  · rfl
  · simp only [unnumbered]
    rcases s.allocator.deallocate qs with ⟨e | _, a⟩ <;> rfl

variable [Scalar R]

theorem undo_eq_sendAll {es : List (Placement R)}
    (h : s.undo (es.map Placement.entry) = (.ok (), t)) :
    s.sendAll (es.map Placement.undone) = .ok t := by
  induction es generalizing s with
  | nil => exact congrArg Except.ok (Prod.mk.inj h).2
  | cons e es ih =>
    obtain ⟨j, s₁, hadj, hsend, hrest⟩ := undo_cons_ok h
    obtain rfl : e.undone.instruction = j := Option.some.inj hadj
    exact sendAll_cons.2 ⟨s₁, hsend, ih hrest⟩

def owed (environment : Environment) (kept : List (Placement R)) : List (Placement R) :=
  match environment with
  | .conjugation => kept.map fun e => e.shielded.undone
  | .inversion => kept.map Placement.undone
  | _ => []

theorem due_of_holds {f : Frame R} {id : FrameId} {environment : Environment} {phase : Phase}
    {kept : List (Placement R)} (hf : f.Holds id environment phase owned kept) :
    ∃ es : List (Placement R), f.due = es.map Placement.entry ∧
      owed environment kept = es.map Placement.undone := by
  have henv := hf.environment
  cases environment with
  | conjugation =>
    refine ⟨kept.map Placement.shielded, ?_, ?_⟩
    · rw [Frame.due_conjugation henv, hf.log, List.map_map, List.map_map]
      rfl
    · rw [List.map_map]
      rfl
  | inversion => exact ⟨kept, by rw [Frame.due_inversion henv, hf.log], rfl⟩
  | iteration | controlled | classical | scope =>
    exact ⟨[], Frame.due_eq_nil (by simp [henv]) (by simp [henv]), rfl⟩

theorem exit_inside {f : Frame R} {id : FrameId} {environment : Environment} {phase : Phase}
    {kept : List (Placement R)} (hf : f.Holds id environment phase owned kept) {id' : FrameId}
    (h : (s.inside f).exit id' = (.ok (), t)) :
    ∃ s₁, s.sendAll (owed environment kept) = .ok s₁ ∧ s₁.reclaim owned = (.ok (), t) := by
  obtain ⟨parent, rest, s₁, s₂, hbelow, -, hreplay, -, hback, rfl⟩ := exit_ok h
  obtain ⟨rfl, rfl⟩ : s.frames.top = parent ∧ s.frames.below = rest := List.cons.inj hbelow
  have hpopped : (s.inside f).popped s.frames.top s.frames.below = s := rfl
  have htop : (s.inside f).frames.top = f := rfl
  -- the frame hands nothing on, so all its qubits are returned
  have hreclaim : f.toReclaim = owned := by
    rw [Frame.toReclaim, hf.owned, hf.exported, filter_not_contains_nil]
  rw [hpopped, htop] at hreplay
  rw [htop, hreclaim] at hback
  have hown : ∀ g : Frame R, g.own f.exported = g := by
    intro g
    simp [Frame.own, hf.exported, QubitSet.insertAll]
  rw [htop]
  simp only [hown, FrameStack.modifyTop]
  refine ⟨s₁, ?_, hback⟩
  obtain ⟨es, hdue, howed⟩ := due_of_holds hf
  rw [replay_eq, hdue] at hreplay
  rw [howed]
  exact undo_eq_sendAll hreplay

omit [Scalar R] in
theorem enter_ok {environment : Environment} {label : String} {id : FrameId}
    (h : s.enter environment label = (.ok id, t)) :
    t.unnumbered = s.unnumbered.inside (.new id environment label) := by
  obtain ⟨rfl, rfl⟩ := enter_eq h
  rfl

end Session

namespace Build

variable {ε α : Type} [FromSession ε]

theorem exec_step_ok {f : Session R → Answer R α} {a : α} {s t : Session R}
    (h : exec (step f : Build R ε α) s = (.ok a, t)) : f s = (.ok a, t) := by
  have hstep : exec (step f : Build R ε α) s =
      ((f s).1.mapError FromSession.ofSession, (f s).2) := rfl
  rw [hstep] at h
  rcases hf : f s with ⟨e | b, s'⟩
  · simp [hf, Except.mapError] at h
  · simpa [hf, Except.mapError] using h

omit [FromSession ε] in
theorem exec_eq {b : Build R ε α} {s : Session R} {r : Except ε α} (h : (exec b s).1 = r) :
    exec b s = (r, (exec b s).2) := Prod.ext h rfl

omit [FromSession ε] in
theorem exec_bind_ok {β : Type} {b : Build R ε α} {k : α → Build R ε β} {s t : Session R} {y : β}
    (h : exec (b >>= k) s = (.ok y, t)) :
    ∃ a s₁, exec b s = (.ok a, s₁) ∧ exec (k a) s₁ = (.ok y, t) := by
  rw [exec_bind] at h
  rcases hb : exec b s with ⟨e | a, s₁⟩
  · simp [hb] at h
  · rw [hb] at h
    exact ⟨a, s₁, rfl, h⟩

variable [Scalar R]

theorem exec_within_ok {environment : Environment} {label : String} {body : Build R ε α} {a : α}
    {s t : Session R} (h : exec (within environment label body) s = (.ok a, t)) :
    ∃ id s₁ s₂, s.enter environment label = (.ok id, s₁) ∧ exec body s₁ = (.ok a, s₂) ∧
      s₂.exit id = (.ok (), t) := by
  obtain ⟨id, s₁, henter, h⟩ := exec_bind_ok h
  obtain ⟨result, s₂, hbody, h⟩ := exec_bind_ok h
  have hresult : exec body s₁ = (result, s₂) := by
    obtain ⟨hr, hs⟩ := Prod.mk.inj hbody
    exact Prod.ext (Except.ok.inj hr) hs
  rcases result with e | a'
  · obtain ⟨_, s₃, -, hthrow⟩ := exec_bind_ok h
    exact absurd (Prod.mk.inj hthrow).1 (by simp)
  · obtain ⟨_, s₃, hexit, hpure⟩ := exec_bind_ok h
    obtain ⟨ha, rfl⟩ := Prod.mk.inj hpure
    obtain rfl := Except.ok.inj ha
    exact ⟨id, s₁, s₂, exec_step_ok henter, hresult, exec_step_ok hexit⟩

end Build

namespace Session

variable {s t u : Session R} {f : Frame R} {owned : List QubitId}

theorem exists_inside (h : s.unnumbered = u.inside f) :
    ∃ v : Session R, s = v.inside f ∧ v.unnumbered = u := by
  refine ⟨{ u with nextFrame := s.nextFrame }, ?_, ?_⟩
  · show { s.unnumbered with nextFrame := s.nextFrame } = _
    rw [h]
    rfl
  · have hzero : 0 = u.nextFrame := congrArg Session.nextFrame h
    show { u with nextFrame := 0 } = u
    rw [hzero]

theorem beginAction_ok {id : FrameId} {kept : List (Placement R)}
    (hf : f.Holds id .conjugation .compute owned kept) (hs : s.unnumbered = u.inside f)
    (h : s.beginAction = (.ok (), t)) :
    ∃ f', t.unnumbered = u.inside f' ∧ f'.Holds id .conjugation .act owned kept := by
  obtain ⟨v, rfl, rfl⟩ := exists_inside hs
  refine ⟨{ f with phase := .act }, ?_, hf.id, hf.environment, rfl, hf.owned, hf.exported, hf.log⟩
  obtain hrefused | ⟨-, heq⟩ := beginAction_cases _
  · exact (hrefused.not_ok h).elim
  · rw [← (Prod.mk.inj (heq.symm.trans h)).2]
    rfl

variable [Scalar R]

theorem exit_unnumbered {id id' : FrameId} {environment : Environment} {phase : Phase}
    {kept : List (Placement R)} (hf : f.Holds id environment phase owned kept)
    (hs : s.unnumbered = u.inside f) (h : s.exit id' = (.ok (), t)) :
    ∃ u₁, u.sendAll (owed environment kept) = .ok u₁ ∧
      u₁.reclaim owned = (.ok (), t.unnumbered) := by
  obtain ⟨v, rfl, rfl⟩ := exists_inside hs
  obtain ⟨v₁, hsent, hback⟩ := exit_inside hf h
  refine ⟨v₁.unnumbered, sendAll_unnumbered hsent, ?_⟩
  rw [reclaim_unnumbered, hback]

end Session

namespace Program

open Session

variable [Scalar R]

/-- A construction step sends placements, whatever the session. -/
def Sends (b : Build R SessionError Unit) (es : List (Placement R)) : Prop :=
  ∀ s t, b.exec s = (.ok (), t) → s.unnumbered.sendAll es = .ok t.unnumbered

theorem sends_within (environment : Environment) (label : String)
    {body : Build R SessionError Unit} {es : List (Placement R)} (hbody : Sends body es) :
    Sends (Build.within environment label body) (es.filterMap (environment.relay .compute) ++
      owed environment (if environment.retains .compute then es.reverse else [])) := by
  intro s t h
  obtain ⟨id, s₁, s₂, henter, hexec, hexit⟩ := Build.exec_within_ok h
  have hsent := hbody s₁ s₂ hexec
  rw [enter_ok henter] at hsent
  obtain ⟨u, f, hu, hpassed, hf⟩ := sendAll_inside (Frame.holds_new id environment label) hsent
  rw [List.append_nil] at hf
  obtain ⟨v, howed, hback⟩ := exit_unnumbered hf hu hexit
  obtain rfl : v = t.unnumbered := (Prod.mk.inj hback).2
  exact sendAll_append.2 ⟨u, hpassed, howed⟩

theorem sends_relay (environment : Environment) (label : String) {g : Placement R → Placement R}
    (hg : ∀ e, environment.relay .compute e = some (g e))
    (howed : ∀ kept : List (Placement R), owed environment kept = [])
    {body : Build R SessionError Unit} {es : List (Placement R)} (hbody : Sends body es) :
    Sends (Build.within environment label body) (es.map g) := by
  have hsent := sends_within environment label hbody
  rw [howed, List.append_nil, funext hg, List.filterMap_eq_map'] at hsent
  exact hsent

theorem conjugation_sends {compute : Build R SessionError Unit} {es fs : List (Placement R)}
    (hcompute : Sends compute es) {act : Build R SessionError Unit} (hact : Sends act fs)
    {s₁ s₂ s₃ s₄ t u : Session R} {f : Frame R} {id id' : FrameId} {owned : List QubitId}
    (hf : f.Holds id .conjugation .compute owned []) (hs₁ : s₁.unnumbered = u.inside f)
    (h₁ : compute.exec s₁ = (.ok (), s₂)) (h₂ : s₂.beginAction = (.ok (), s₃))
    (h₃ : act.exec s₃ = (.ok (), s₄)) (h₄ : s₄.exit id' = (.ok (), t)) :
    ∃ v, u.sendAll (es.map .shielded ++ fs ++ (es.map Placement.shielded).reverse.map .undone) =
        .ok v ∧ v.reclaim owned = (.ok (), t.unnumbered) := by
  -- the compute phase
  have hsent := hcompute s₁ s₂ h₁
  rw [hs₁] at hsent
  obtain ⟨u₁, f₁, hu₁, hpassed₁, hf₁⟩ := sendAll_inside hf hsent
  -- the action
  obtain ⟨f₂, hu₂, hf₂⟩ := beginAction_ok hf₁ hu₁ h₂
  have hsent := hact s₃ s₄ h₃
  rw [hu₂] at hsent
  obtain ⟨u₃, f₃, hu₃, hpassed₃, hf₃⟩ := sendAll_inside hf₂ hsent
  obtain ⟨v, howed, hback⟩ := exit_unnumbered hf₃ hu₃ h₄
  have hforward : es.filterMap (Environment.conjugation.relay .compute) =
      es.map Placement.shielded := congrFun List.filterMap_eq_map' es
  have hplain : fs.filterMap (Environment.conjugation.relay .act) = fs := List.filterMap_some
  have hundone : owed .conjugation (es.reverse ++ []) =
      (es.map Placement.shielded).reverse.map Placement.undone := by
    rw [List.append_nil, ← List.map_reverse, List.map_map]
    rfl
  rw [hforward] at hpassed₁
  rw [hplain] at hpassed₃
  refine ⟨v, sendAll_append.2 ⟨u₃, sendAll_append.2 ⟨u₁, hpassed₁, hpassed₃⟩, ?_⟩, hback⟩
  exact hundone ▸ howed

theorem sends_conjugate {label : String} {compute act : Build R SessionError Unit}
    {es fs : List (Placement R)} (hcompute : Sends compute es) (hact : Sends act fs) :
    Sends (Build.conjugate label compute fun _ => act)
      (es.map .shielded ++ fs ++ (es.map Placement.shielded).reverse.map .undone) := by
  intro s t h
  obtain ⟨id, s₁, s₂, henter, hexec, hexit⟩ := Build.exec_within_ok h
  obtain ⟨_, s₃, hexec₁, hexec⟩ := Build.exec_bind_ok hexec
  obtain ⟨_, s₄, hexec₂, hexec₃⟩ := Build.exec_bind_ok hexec
  obtain ⟨v, hsent, hback⟩ := conjugation_sends hcompute hact
    (Frame.holds_new id .conjugation label) (enter_ok henter) hexec₁ (Build.exec_step_ok hexec₂)
    hexec₃ hexit
  obtain rfl : v = t.unnumbered := (Prod.mk.inj hback).2
  exact hsent

theorem sends_build (p : Program R) : Sends p.build p.placements := by
  induction p with
  | skip =>
    intro s t h
    obtain rfl := (Prod.mk.inj h).2
    rfl
  | seq p q ihp ihq =>
    intro s t h
    obtain ⟨_, s₁, hp, hq⟩ := Build.exec_bind_ok h
    exact sendAll_append.2 ⟨s₁.unnumbered, ihp s s₁ hp, ihq s₁ t hq⟩
  | apply g qs =>
    intro s t h
    have hemit : s.emit (.ofGate g qs) = (.ok (), t) := Build.exec_step_ok h
    exact sendAll_unnumbered (sendAll_cons.2 ⟨t, (Session.emit_ok hemit).2, sendAll_nil t⟩)
  | conjugate label compute act ihc iha => exact sends_conjugate ihc iha
  | control cs body ih => exact sends_relay (.controlled cs) "control" (fun _ => rfl) (fun _ => rfl) ih
  | controlClassical clbits value body ih =>
    exact sends_relay (.classical (.ofValue clbits value)) "if" (fun _ => rfl) (fun _ => rfl) ih
  | invert body ih =>
    have hsent := sends_within .inversion "invert" ih
    have hpassed : body.placements.filterMap (Environment.inversion.relay .compute) = [] :=
      List.filterMap_eq_nil_iff.2 fun _ _ => rfl
    rw [hpassed, List.nil_append] at hsent
    exact hsent
  | scope label body ih =>
    have hsent := sends_relay .scope label (g := id) (fun _ => rfl) (fun _ => rfl) ih
    rw [List.map_id] at hsent
    exact hsent

end Program

/-! ## Inside scopes and walks -/

def FrameStack.Plain (fs : FrameStack R) : Prop :=
  ∀ f ∈ fs.toList, f.environment = .scope ∨ f.environment = .iteration

theorem FrameStack.Plain.congr {fs gs : FrameStack R} (h : fs.Plain)
    (heq : gs.toList.map Frame.environment = fs.toList.map Frame.environment) : gs.Plain := by
  intro g hg
  have hmem : g.environment ∈ gs.toList.map Frame.environment := List.mem_map_of_mem hg
  rw [heq] at hmem
  obtain ⟨f, hf, hsame⟩ := List.mem_map.1 hmem
  exact hsame ▸ h f hf

theorem FrameStack.route_plain {fs : FrameStack R} (h : fs.Plain) (i : Instruction R) (b : Bool) :
    (fs.route i b).1 = .ok (some i) := by
  rw [(fs.route_eq i b).1]
  unfold Plain at h
  generalize fs.toList = l at h
  induction l with
  | nil => rfl
  | cons f l ih =>
    have hpass : f.pass i b = .ok (f.note i b, some (i, b)) := by
      unfold Frame.pass
      rcases h f List.mem_cons_self with hf | hf <;> rw [hf]
    simp only [routeThrough, hpass]
    exact ih fun g hg => h g (List.mem_cons_of_mem _ hg)

namespace Session

variable {s t : Session R}

theorem deliver_ok_iff (s : Session R) (i : Instruction R) :
    (s.deliver i).1 = .ok () ↔ (s.circuit.push i).1 = .ok () := by
  simp only [Session.deliver, onCircuit_eq]
  rcases s.circuit.push i with ⟨e | _, c⟩ <;> simp [refuse]

theorem send_eq_deliver (h : s.frames.Plain) (i : Instruction R) (b : Bool) :
    s.send i b = { s with frames := (s.frames.route i b).2 }.deliver i := by
  have hroute := FrameStack.route_plain h i b
  unfold Session.send
  rcases hr : s.frames.route i b with ⟨r, frames⟩
  rw [hr] at hroute
  obtain rfl : r = .ok (some i) := hroute
  rfl

theorem send_plain (h : s.frames.Plain) {i : Instruction R} {b : Bool}
    (hsent : s.send i b = (.ok (), t)) :
    s.circuit.push i = (.ok (), t.circuit) ∧ t.frames.Plain := by
  have hkin := send_kin s i b
  have hok := deliver_ok_iff { s with frames := (s.frames.route i b).2 } i
  have hstate := deliver_eq { s with frames := (s.frames.route i b).2 } i
  rw [← send_eq_deliver h, hsent] at hok hstate
  rw [hsent] at hkin
  refine ⟨Prod.ext (hok.1 rfl) ?_, h.congr (environments_of_kin hkin)⟩
  exact (congrArg Session.circuit hstate).symm

theorem sendAll_plain (hc : s.circuit.Registers) (hplain : s.frames.Plain) {es : List (Placement R)}
    (h : s.sendAll es = .ok t) :
    t.emissions = s.emissions ++ es.map Placement.instruction ∧ t.circuit.width = s.circuit.width ∧
      (∀ e ∈ es, e.gate.kind.Fits s.circuit.width e.qubits) ∧ t.frames.Plain := by
  induction es generalizing s with
  | nil =>
    obtain rfl := Except.ok.inj h
    exact ⟨(List.append_nil _).symm, rfl, fun e he => absurd he List.not_mem_nil, hplain⟩
  | cons e es ih =>
    obtain ⟨s₁, hfirst, hrest⟩ := sendAll_cons.1 h
    obtain ⟨hpush, hplain₁⟩ := send_plain hplain hfirst
    have hgrown : Circuit.Grown s.circuit s₁.circuit := by
      have hpushed := Circuit.Grown.refl (c := s.circuit).push e.instruction
      rw [hpush] at hpushed
      exact hpushed
    have hwidth : s₁.circuit.width = s.circuit.width := by
      have hqubits := (s.circuit.push_eq e.instruction).2
      rw [hpush] at hqubits
      rw [Circuit.width, hqubits, Circuit.width]
    obtain ⟨hout, hwidth', hfits, hlast⟩ := ih (hc.grown hgrown) hplain₁ hrest
    have hone : s₁.emissions = s.emissions ++ [e.instruction] := Circuit.push_ok hpush
    refine ⟨?_, hwidth'.trans hwidth, ?_, hlast⟩
    · rw [hout, hone, List.append_assoc]
      rfl
    · intro e' he'
      rcases List.mem_cons.1 he' with rfl | he'
      · exact hc.push_gate hpush
      · rw [← hwidth]
        exact hfits e' he'

theorem Reachable.plain [Scalar R] (hs : s.Reachable) (hopen : s.numOpen = 0) : s.frames.Plain := by
  obtain ⟨hbelow, hscope⟩ := hs.closed hopen
  intro f hf
  rw [FrameStack.toList, hbelow] at hf
  exact .inl (List.mem_singleton.1 hf ▸ hscope)

end Session

theorem Program.appends [Scalar R] {s t : Session R} (hs : s.Reachable) (hopen : s.numOpen = 0)
    {p : Program R} (h : p.build.exec s = (.ok (), t)) :
    t.emissions = s.emissions ++ p.placements.map Placement.instruction ∧
      t.circuit.width = s.circuit.width ∧
      ∀ e ∈ p.placements, e.gate.kind.Fits s.circuit.width e.qubits := by
  obtain ⟨hout, hwidth, hfits, -⟩ := Session.sendAll_plain (s := s.unnumbered) (t := t.unnumbered)
    hs.registers (hs.plain hopen) (p.sends_build s t h)
  exact ⟨hout, hwidth, hfits⟩

end Ancilla
