import Ancilla.Session.Iteration

/-!
The calls a session answers, the constructions that touch a session through such calls only, and
the sessions that can be reached by them. Environments with a body and walks belong to these
constructions as soon as their bodies do.
-/

namespace Ancilla

inductive Call (R : Type)
  | allocate (count : Nat) (name : String)
  | release (qs : List QubitId)
  | exportQubits (qs : List QubitId)
  | assertRestored (qs : List QubitId)
  | apply (g : Gate R) (qs : List QubitId)
  | barrier (qs : List QubitId)
  | measure (q : QubitId)
  | enter (environment : Environment) (label : String)
  | beginAction
  | exit (id : FrameId)
  | abort (id : FrameId)

variable {R ε α β : Type} [Scalar R]

def Call.perform (s : Session R) : Call R → Answer R Unit
  | allocate count name => ((s.allocate count name).1.map fun _ => (), (s.allocate count name).2)
  | release qs => s.release qs
  | exportQubits qs => s.exportQubits qs
  | assertRestored qs => s.assertRestored qs
  | apply g qs => s.apply g qs
  | barrier qs => s.barrier qs
  | measure q => ((s.measure q).1.map fun _ => (), (s.measure q).2)
  | enter environment label =>
    ((s.enter environment label).1.map fun _ => (), (s.enter environment label).2)
  | beginAction => s.beginAction
  | exit id => s.exit id
  | abort id => (.ok (), s.abort id)

def Session.after (s : Session R) (calls : List (Call R)) : Session R :=
  calls.foldl (fun s c => (c.perform s).2) s

theorem Session.after_append (s : Session R) (cs ds : List (Call R)) :
    s.after (cs ++ ds) = (s.after cs).after ds := List.foldl_append

theorem Session.after_cons (s : Session R) (c : Call R) (cs : List (Call R)) :
    s.after (c :: cs) = (c.perform s).2.after cs := rfl

theorem Session.after_concat (s : Session R) (cs : List (Call R)) (c : Call R) :
    s.after (cs ++ [c]) = (c.perform (s.after cs)).2 := s.after_append cs [c]

def Session.run (s : Session R) (calls : List (Call R)) : Except SessionError (Session R) :=
  calls.foldlM (fun s c => (c.perform s).settle) s

theorem Session.run_cons (s : Session R) (c : Call R) (cs : List (Call R)) :
    s.run (c :: cs) = (c.perform s).settle >>= fun s' => s'.run cs := List.foldlM_cons

theorem Session.run_eq_after {s : Session R} {cs : List (Call R)} (h : (s.run cs).isOk = true) :
    s.run cs = .ok (s.after cs) := by
  induction cs generalizing s with
  | nil => rfl
  | cons c cs ih =>
    rw [run_cons] at h ⊢
    rcases hc : c.perform s with ⟨e | _, s'⟩
    · rw [hc] at h
      exact absurd h Bool.false_ne_true
    · rw [hc] at h
      have hafter : s.after (c :: cs) = s'.after cs := by
        rw [after, List.foldl_cons, hc]
        rfl
      rw [hafter]
      exact ih h

namespace Build

def exec (b : Build R ε α) (s : Session R) : Except ε α × Session R := Id.run (b.run.run s)

omit [Scalar R] in
theorem exec_bind (b : Build R ε α) (k : α → Build R ε β) (s : Session R) :
    exec (b >>= k) s = match exec b s with
      | (.ok a, s) => exec (k a) s
      | (.error e, s) => (.error e, s) := by
  unfold exec ExceptT.run StateT.run Id.run
  simp only [bind, ExceptT.bind, ExceptT.mk, StateT.bind, ExceptT.bindCont]
  cases b s with
  | mk r s' => cases r <;> rfl

def attempt (b : Build R ε α) : Build R ε (Except ε α) :=
  ExceptT.mk do return .ok (← b.run)

omit [Scalar R] in
theorem exec_attempt (b : Build R ε α) (s : Session R) :
    exec (attempt b) s = (.ok (exec b s).1, (exec b s).2) := rfl

variable [FromSession ε]

theorem exec_within (environment : Environment) (label : String) (body : Build R ε α)
    (s : Session R) :
    exec (within environment label body) s = match s.enter environment label with
      | (.error e, s₁) => (.error (FromSession.ofSession e), s₁)
      | (.ok id, s₁) => match exec body s₁ with
        | (.error e, s₂) => (.error e, s₂.abort id)
        | (.ok a, s₂) => match s₂.exit id with
          | (.error e, s₃) => (.error (FromSession.ofSession e), s₃)
          | (.ok (), s₃) => (.ok a, s₃) := by
  unfold within
  rw [exec_bind, show exec (enter environment label : Build R ε FrameId) s =
    ((s.enter environment label).1.mapError FromSession.ofSession,
      (s.enter environment label).2) from rfl]
  rcases s.enter environment label with ⟨e | id, s₁⟩
  · rfl
  · have hentered : (Except.ok id).mapError FromSession.ofSession = (.ok id : Except ε FrameId) := rfl
    simp only [hentered]
    rw [exec_bind, show exec (ExceptT.mk do return .ok (← body.run) : Build R ε (Except ε α)) s₁ =
      (.ok (exec body s₁).1, (exec body s₁).2) from rfl]
    rcases exec body s₁ with ⟨e | a, s₂⟩
    · rfl
    · simp only []
      rw [exec_bind, show exec (exit id : Build R ε Unit) s₂ =
        ((s₂.exit id).1.mapError FromSession.ofSession, (s₂.exit id).2) from rfl]
      rcases s₂.exit id with ⟨e | _, s₃⟩
      · rfl
      · rfl

/-- The constructions that act on the session through calls only. What they do next may depend on
all they have seen, the session included. -/
inductive Public : {α : Type} → Build R ε α → Prop
  | pure {α : Type} (a : α) : Public (pure a)
  | throw {α : Type} (e : ε) : Public (throw e : Build R ε α)
  | bind {α β : Type} {b : Build R ε α} {k : α → Build R ε β} (hb : Public b)
    (hk : ∀ a, Public (k a)) : Public (b >>= k)
  | attempt {α : Type} {b : Build R ε α} (hb : Public b) : Public (attempt b)
  | session : Public session
  | allocate (count : Nat) (name : String) : Public (allocate count name)
  | release (qs : List QubitId) : Public (release qs)
  | exportQubits (qs : List QubitId) : Public (exportQubits qs)
  | assertRestored (qs : List QubitId) : Public (assertRestored qs)
  | apply (g : Gate R) (qs : List QubitId) : Public (apply g qs)
  | barrier (qs : List QubitId) : Public (barrier qs)
  | measure (q : QubitId) : Public (measure q)
  | enter (environment : Environment) (label : String) : Public (enter environment label)
  | beginAction : Public beginAction
  | exit (id : FrameId) : Public (exit id)
  | abort (id : FrameId) : Public (abort id)

theorem Public.preserves {P : Session R → Prop} (hP : ∀ s (c : Call R), P s → P (c.perform s).2)
    {b : Build R ε α} (hb : Public b) (s : Session R) (hs : P s) : P (exec b s).2 := by
  induction hb generalizing s with
  | pure a => exact hs
  | throw e => exact hs
  | bind hb hk ihb ihk =>
    rw [exec_bind]
    have hmid := ihb s hs
    split
    · next a s' h =>
      rw [h] at hmid
      exact ihk a s' hmid
    · next e s' h =>
      rw [h] at hmid
      exact hmid
  | attempt hb ih =>
    rw [exec_attempt]
    exact ih s hs
  | session => exact hs
  | allocate count name => exact hP s (.allocate count name) hs
  | release qs => exact hP s (.release qs) hs
  | exportQubits qs => exact hP s (.exportQubits qs) hs
  | assertRestored qs => exact hP s (.assertRestored qs) hs
  | apply g qs => exact hP s (.apply g qs) hs
  | barrier qs => exact hP s (.barrier qs) hs
  | measure q => exact hP s (.measure q) hs
  | enter environment label => exact hP s (.enter environment label) hs
  | beginAction => exact hP s .beginAction hs
  | exit id => exact hP s (.exit id) hs
  | abort id => exact hP s (.abort id) hs

namespace Public

theorem map (f : α → β) {b : Build R ε α} (h : Public b) : Public (f <$> b) := by
  rw [map_eq_pure_bind]
  exact .bind h fun a => .pure (f a)

theorem allocateOne (name : String) : Public (allocateOne name : Build R ε QubitId) :=
  (Public.allocate 1 name).map _

theorem ofExcept (r : Except ε α) : Public (ofExcept r : Build R ε α) := by
  cases r with
  | ok a => exact .pure a
  | error e => exact .throw e

theorem forM {l : List α} {f : α → Build R ε Unit} (h : ∀ a, Public (f a)) :
    Public (l.forM f) := by
  induction l with
  | nil => exact .pure ()
  | cons a l ih => exact .bind (h a) fun _ => ih

theorem within (environment : Environment) (label : String) {body : Build R ε α}
    (h : Public body) : Public (within environment label body) := by
  refine .bind (.enter environment label) fun id => .bind (.attempt h) fun result => ?_
  cases result with
  | ok a => exact .bind (.exit id) fun _ => .pure a
  | error e => exact .bind (.abort id) fun _ => .throw e

theorem conjugate (label : String) {compute : Build R ε α} {act : α → Build R ε β}
    (hc : Public compute) (ha : ∀ a, Public (act a)) : Public (conjugate label compute act) :=
  within _ _ (.bind hc fun a => .bind .beginAction fun _ => ha a)

theorem control (cs : List QubitId) {body : Build R ε α} (h : Public body) :
    Public (control cs body) := within _ _ h

theorem controlClassical (clbits : List ClbitId) (value : Nat) {body : Build R ε α}
    (h : Public body) : Public (controlClassical clbits value body) := within _ _ h

theorem invert {body : Build R ε α} (h : Public body) : Public (invert body) := within _ _ h

theorem scope (label : String) {body : Build R ε α} (h : Public body) :
    Public (scope label body) := within _ _ h

theorem underControls (controls : List QubitId) {body : Build R ε α} (h : Public body) :
    Public (underControls controls body) := by
  unfold Build.underControls
  split
  · exact h
  · exact h.control controls

theorem askInto {question : QubitId → Build R ε Unit} (h : ∀ q, Public (question q)) :
    Public (askInto question) :=
  .bind (allocateOne "flag") fun flag => .bind (h flag) fun _ => .pure flag

end Public

end Build

/-- The sessions that can be reached: from a new one by calls, and by constructions that act
through calls, whether they succeed or fail. -/
inductive Session.Reachable : Session R → Prop
  | new (config : SessionConfig) : Reachable (Session.new config)
  | call {s : Session R} (hs : Reachable s) (c : Call R) : Reachable (c.perform s).2
  | build {s : Session R} {ε α : Type} [FromSession ε] {b : Build R ε α} (hs : Reachable s)
    (hb : b.Public) : Reachable (b.exec s).2

theorem Build.Public.reachable {ε α : Type} [FromSession ε] {b : Build R ε α} (hb : b.Public)
    {s t : Session R} {r : Except ε α} (hs : s.Reachable) (h : b.exec s = (r, t)) : t.Reachable := by
  have hbuilt := hs.build hb
  rw [h] at hbuilt
  exact hbuilt

theorem Session.Reachable.after {s : Session R} (hs : s.Reachable) (cs : List (Call R)) :
    (s.after cs).Reachable := by
  induction cs generalizing s with
  | nil => exact hs
  | cons c cs ih => exact ih (hs.call c)

theorem Call.perform_enter {s t : Session R} {environment : Environment} {label : String}
    {r : Except SessionError FrameId} (h : s.enter environment label = (r, t)) :
    ((Call.enter environment label).perform s).2 = t := congrArg Prod.snd h

theorem Session.Reachable.entered {s t : Session R} (hs : s.Reachable) {environment : Environment}
    {label : String} {r : Except SessionError FrameId}
    (h : s.enter environment label = (r, t)) : t.Reachable := by
  have hcall := hs.call (.enter environment label)
  rwa [Call.perform_enter h] at hcall

theorem Session.Reachable.invariant {P : Session R → Prop}
    (hnew : ∀ config, P (Session.new config)) (hcall : ∀ s (c : Call R), P s → P (c.perform s).2)
    {s : Session R} (hs : s.Reachable) : P s := by
  induction hs with
  | new config => exact hnew config
  | call _ c ih => exact hcall _ c ih
  | build _ hb ih => exact hb.preserves hcall _ ih

end Ancilla
