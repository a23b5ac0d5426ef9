import Ancilla.Proofs.Session.Conjugating

/-!
The limit on the number of qubits in use. It does nothing but refuse: a construction that succeeds
under a limit does the same without one.
-/

namespace Ancilla

namespace Allocator

def unlimited (a : Allocator) : Allocator := { a with capacity := none }

@[simp] theorem isLive_unlimited (a : Allocator) (q : QubitId) :
    a.unlimited.isLive q = a.isLive q :=
  rfl

theorem take_unlimited (a : Allocator) : a.unlimited.take = (a.take.1, a.take.2.unlimited) := by
  obtain ⟨capacity, states, _ | ⟨q, rest⟩, live, peak⟩ := a <;> rfl

theorem takeMany_unlimited (n : ℕ) (a : Allocator) :
    takeMany n a.unlimited = ((takeMany n a).1, (takeMany n a).2.unlimited) := by
  induction n generalizing a with
  | zero => rfl
  | succ n ih => simp only [takeMany, take_unlimited, ih]

theorem allocate_unlimited {a a' : Allocator} {n : ℕ} {qs : List QubitId}
    (h : a.allocate n = (.ok qs, a')) : a.unlimited.allocate n = (.ok qs, a'.unlimited) := by
  unfold allocate at h
  split at h
  · exact nomatch (Prod.mk.inj h).1
  · obtain ⟨hqs, rfl⟩ := Prod.mk.inj h
    rw [← Except.ok.inj hqs]
    show (Except.ok (takeMany n a.unlimited).1, _) = _
    rw [takeMany_unlimited]
    rfl

theorem foldl_markEntangled_unlimited (qs : List QubitId) (a : Allocator) :
    qs.foldl markEntangled a.unlimited = (qs.foldl markEntangled a).unlimited := by
  induction qs generalizing a with
  | nil => rfl
  | cons q qs ih =>
    have hone : markEntangled a.unlimited q = (markEntangled a q).unlimited := by
      show (if a.state q = .allocated then _ else _) =
        unlimited (if a.state q = .allocated then _ else _)
      split <;> rfl
    rw [List.foldl_cons, List.foldl_cons, hone, ih]

theorem releaseFault?_unlimited (a : Allocator) (seen qs : List QubitId) :
    a.unlimited.releaseFault? seen qs = a.releaseFault? seen qs := by
  induction qs generalizing seen with
  | nil => rfl
  | cons q qs ih =>
    unfold releaseFault?
    rw [ih]
    rfl

theorem deallocate_unlimited (a : Allocator) (qs : List QubitId) :
    a.unlimited.deallocate qs = ((a.deallocate qs).1, (a.deallocate qs).2.unlimited) := by
  have hfold : qs.foldl reclaim a.unlimited = (qs.foldl reclaim a).unlimited :=
    List.foldl_hom unlimited fun _ _ => rfl
  unfold deallocate
  rw [releaseFault?_unlimited]
  split
  · rfl
  · rw [hfold]
    rfl

end Allocator

namespace Session

variable {R : Type} {s t : Session R}

def unlimited (s : Session R) : Session R := { s with allocator := s.allocator.unlimited }

@[simp] theorem unlimited_isPoisoned (s : Session R) : s.unlimited.isPoisoned = s.isPoisoned := rfl

@[simp] theorem unlimited_frames (s : Session R) : s.unlimited.frames = s.frames := rfl

@[simp] theorem unlimited_circuit (s : Session R) : s.unlimited.circuit = s.circuit := rfl

@[simp] theorem unlimited_allocator (s : Session R) :
    s.unlimited.allocator = s.allocator.unlimited := rfl

theorem Reachable.idle_unlimited [Scalar R] (hs : s.Reachable) (hp : s.isPoisoned = false)
    (hopen : s.numOpen = 0) : s.unlimited.Idle := by
  obtain ⟨hclosed, hroot⟩ := hs.closed hopen
  obtain ⟨hascending, hstates⟩ := hs.sound.allocator
  exact ⟨hp, hclosed, hroot, rfl, ⟨hascending, hstates⟩, ⟨hs.equipped.accepting, hs.equipped.wired⟩,
    hs.registers⟩

theorem deliver_unlimited (s : Session R) (i : Instruction R) :
    s.unlimited.deliver i = ((s.deliver i).1, (s.deliver i).2.unlimited) := by
  unfold deliver
  simp only [onCircuit_eq, unlimited_allocator, Allocator.foldl_markEntangled_unlimited,
    unlimited_circuit]
  rcases s.circuit.push i with ⟨_ | _, _⟩ <;> rfl

theorem send_unlimited (s : Session R) (i : Instruction R) (b : Bool) :
    s.unlimited.send i b = ((s.send i b).1, (s.send i b).2.unlimited) := by
  unfold Session.send
  rw [unlimited_frames]
  rcases s.frames.route i b with ⟨e | _ | j, frames⟩
  · rfl
  · rfl
  · exact deliver_unlimited { s with frames } j

theorem emit_unlimited (s : Session R) (i : Instruction R) :
    s.unlimited.emit i = ((s.emit i).1, (s.emit i).2.unlimited) := by
  unfold Session.emit
  simp only [send_unlimited, unlimited_isPoisoned, unlimited_allocator, Allocator.isLive_unlimited]
  rcases s.isPoisoned
  · rcases i.qubits.find? fun q => !s.allocator.isLive q <;> rfl
  · rfl

theorem apply_unlimited (s : Session R) (g : Gate R) (qs : List QubitId) :
    s.unlimited.apply g qs = ((s.apply g qs).1, (s.apply g qs).2.unlimited) :=
  emit_unlimited s (.ofGate g qs)

theorem barrier_unlimited (s : Session R) (qs : List QubitId) :
    s.unlimited.barrier qs = ((s.barrier qs).1, (s.barrier qs).2.unlimited) :=
  emit_unlimited s (.barrier qs)

theorem reclaim_unlimited (s : Session R) (qs : List QubitId) :
    s.unlimited.reclaim qs = ((s.reclaim qs).1, (s.reclaim qs).2.unlimited) := by
  unfold Session.reclaim
  simp only [unlimited_allocator, Allocator.deallocate_unlimited]
  rcases qs.isEmpty
  · rcases s.allocator.deallocate qs with ⟨_ | _, a⟩ <;> rfl
  · rfl

theorem allocate_unlimited {n : ℕ} {name : String} {qs : List QubitId}
    (h : s.allocate n name = (.ok qs, t)) :
    s.unlimited.allocate n name = (.ok qs, t.unlimited) := by
  obtain hno | ⟨qs', a, hp, hinversion, ha, heq⟩ := s.allocate_cases n name
  · exact (hno.not_ok h).elim
  · obtain ⟨hqs, rfl⟩ := Prod.mk.inj (heq.symm.trans h)
    obtain rfl := Except.ok.inj hqs
    exact allocate_of_grant (s := s.unlimited) hp hinversion (Allocator.allocate_unlimited ha) name

theorem enter_unlimited (s : Session R) (environment : Environment) (label : String) :
    s.unlimited.enter environment label =
      ((s.enter environment label).1, (s.enter environment label).2.unlimited) := by
  obtain ⟨_, allocator, _, _, _, _ | _⟩ := s
  · cases environment with
    | controlled controls =>
      unfold Session.enter
      simp only [unlimited_allocator, Allocator.isLive_unlimited]
      rcases controls.find? fun q => !allocator.isLive q <;> rfl
    | _ => rfl
  · rfl

theorem beginAction_unlimited (s : Session R) :
    s.unlimited.beginAction = (s.beginAction.1, s.beginAction.2.unlimited) := by
  obtain ⟨_, _, _, ⟨f, _⟩, _, _ | _⟩ := s
  · by_cases hc : f.isComputing = true <;> simp [Session.beginAction, unlimited, refuse, hc]
  · rfl

theorem exportQubits_unlimited (s : Session R) (qs : List QubitId) :
    s.unlimited.exportQubits qs = ((s.exportQubits qs).1, (s.exportQubits qs).2.unlimited) := by
  obtain ⟨_, _, _, ⟨f, _ | ⟨_, _⟩⟩, _, _ | _⟩ := s
  · rfl
  · rfl
  · unfold Session.exportQubits
    simp only [unlimited_frames]
    rcases f.environment <;> rcases exportFault? f qs <;> rfl
  · rfl

theorem assertRestored_unlimited (s : Session R) (qs : List QubitId) :
    s.unlimited.assertRestored qs =
      ((s.assertRestored qs).1, (s.assertRestored qs).2.unlimited) := by
  obtain ⟨_, _, _, _, _, _ | _⟩ := s <;> rfl

theorem release_unlimited (s : Session R) (qs : List QubitId) :
    s.unlimited.release qs = ((s.release qs).1, (s.release qs).2.unlimited) := by
  have hclean : ∀ q, s.unlimited.isClean q = s.isClean q := fun _ => rfl
  have hreclaim := s.reclaim_unlimited qs
  unfold Session.release
  simp only [hclean, unlimited_isPoisoned, unlimited_frames, hreclaim]
  split
  · rfl
  · split
    · rfl
    · split <;> rfl

theorem measure_unlimited {q : QubitId} {b : ClbitId} (h : s.measure q = (.ok b, t)) :
    s.unlimited.measure q = (.ok b, t.unlimited) := by
  obtain hno | ⟨hp, hfault, hlive, hm⟩ := s.measure_cases q
  · exact (hno.not_ok h).elim
  · obtain ⟨hb, -⟩ := Prod.mk.inj (h.symm.trans (hm _ (measure_ok h)))
    obtain rfl := Except.ok.inj hb
    have hemit := emit_unlimited { s with circuit := (s.circuit.addClbit (some q)).2 }
      (.measure q (s.circuit.addClbit (some q)).1)
    rw [measure_ok h] at hemit
    exact measure_of_live (s := s.unlimited) hp hfault hlive hemit

variable [Scalar R]

theorem undo_unlimited (l : List (Instruction R × Bool)) (s : Session R) :
    s.unlimited.undo l = ((s.undo l).1, (s.undo l).2.unlimited) := by
  induction l generalizing s with
  | nil => rfl
  | cons e l ih =>
    obtain ⟨i, b⟩ := e
    unfold Session.undo
    rcases i.adjoint? with _ | j
    · rfl
    · simp only [send_unlimited]
      rcases s.send j b with ⟨e | _, s₁⟩
      · rfl
      · exact ih s₁

theorem replay_unlimited (s : Session R) (f : Frame R) :
    s.unlimited.replay f = ((s.replay f).1, (s.replay f).2.unlimited) := by
  rw [replay_eq, replay_eq]
  exact undo_unlimited f.due s

theorem exit_unlimited {id : FrameId} (h : s.exit id = (.ok (), t)) :
    s.unlimited.exit id = (.ok (), t.unlimited) := by
  have hexits := exits s id
  rw [h] at hexits
  cases hexits with
  | @closed parent rest s₁ s₂ hp hb hid hr hl hback =>
    have hreplay : (s.unlimited.popped parent rest).replay s.frames.top =
        (.ok (), s₁.unlimited) := by
      have hreplay := replay_unlimited (s.popped parent rest) s.frames.top
      rwa [hr] at hreplay
    have hreclaim : s₁.unlimited.reclaim s.frames.top.toReclaim = (.ok (), s₂.unlimited) := by
      rw [reclaim_unlimited, hback]
    exact exit_of_closed (s := s.unlimited) hp hb hid hreplay hl hreclaim

end Session

namespace Build

variable {R ε α β : Type} [Scalar R] [FromSession ε]

omit [Scalar R] in
theorem exec_step_unlimited {f : Session R → Answer R α} {s t : Session R} {a : α}
    (hf : ∀ {t a}, f s = (.ok a, t) → f s.unlimited = (.ok a, t.unlimited))
    (h : exec (step f : Build R ε α) s = (.ok a, t)) :
    exec (step f : Build R ε α) s.unlimited = (.ok a, t.unlimited) := by
  have hstep : ((f s).1.mapError FromSession.ofSession, (f s).2) =
      ((.ok a, t) : Except ε α × _) := h
  rcases hanswer : f s with ⟨e | a', s'⟩ <;> rw [hanswer] at hstep
  · exact nomatch (Prod.mk.inj hstep).1
  · obtain ⟨ha, rfl⟩ := Prod.mk.inj hstep
    obtain rfl := Except.ok.inj ha
    exact exec_of_step (hf hanswer)

theorem exec_within_unlimited {environment : Environment} {label : String} {body : Build R ε α}
    (hbody : ∀ {s t a}, body.exec s = (.ok a, t) → body.exec s.unlimited = (.ok a, t.unlimited))
    {s t : Session R} {a : α} (h : exec (within environment label body) s = (.ok a, t)) :
    exec (within environment label body) s.unlimited = (.ok a, t.unlimited) := by
  have henters := s.enter_unlimited environment label
  rw [exec_within] at h
  rcases henter : s.enter environment label with ⟨e | id, s₁⟩ <;> rw [henter] at h henters
  · exact nomatch (Prod.mk.inj h).1
  · simp only [] at h
    rcases hrun : body.exec s₁ with ⟨e | a', s₂⟩ <;> rw [hrun] at h
    · exact nomatch (Prod.mk.inj h).1
    · simp only [] at h
      rcases hexit : s₂.exit id with ⟨e | _, s₃⟩ <;> rw [hexit] at h
      · exact nomatch (Prod.mk.inj h).1
      · obtain ⟨ha, rfl⟩ := Prod.mk.inj h
        obtain rfl := Except.ok.inj ha
        exact exec_within_of henters (hbody hrun) (Session.exit_unlimited hexit)

/-- The constructions that neither look at the session nor go on after a refusal. -/
inductive Plain : {α : Type} → Build R ε α → Prop
  | pure {α : Type} (a : α) : Plain (pure a)
  | throw {α : Type} (e : ε) : Plain (throw e : Build R ε α)
  | bind {α β : Type} {b : Build R ε α} {k : α → Build R ε β} (hb : Plain b)
    (hk : ∀ a, Plain (k a)) : Plain (b >>= k)
  | within {α : Type} (environment : Environment) (label : String) {body : Build R ε α}
    (h : Plain body) : Plain (within environment label body)
  | allocate (count : ℕ) (name : String) : Plain (allocate count name)
  | release (qs : List QubitId) : Plain (release qs)
  | exportQubits (qs : List QubitId) : Plain (exportQubits qs)
  | assertRestored (qs : List QubitId) : Plain (assertRestored qs)
  | apply (g : Gate R) (qs : List QubitId) : Plain (apply g qs)
  | barrier (qs : List QubitId) : Plain (barrier qs)
  | measure (q : QubitId) : Plain (measure q)
  | beginAction : Plain beginAction

namespace Plain

theorem ofExcept (r : Except ε α) : Plain (ofExcept r : Build R ε α) := by
  cases r with
  | ok a => exact .pure a
  | error e => exact .throw e

theorem forM {l : List β} {f : β → Build R ε Unit} (hf : ∀ a, Plain (f a)) : Plain (l.forM f) := by
  induction l with
  | nil => exact .pure ()
  | cons a l ih => exact .bind (hf a) fun _ => ih

theorem foldlM {l : List β} {f : α → β → Build R ε α} (hf : ∀ a c, Plain (f a c)) (a : α) :
    Plain (l.foldlM f a) := by
  induction l generalizing a with
  | nil => exact .pure a
  | cons c l ih =>
    rw [List.foldlM_cons]
    exact .bind (hf a c) ih

theorem standard (g : Standard R) (qs : List QubitId) : Plain (standard g qs : Build R ε Unit) :=
  .apply _ qs

theorem conjugate (label : String) {compute : Build R ε α} {act : α → Build R ε β}
    (hc : Plain compute) (ha : ∀ a, Plain (act a)) : Plain (conjugate label compute act) :=
  .within _ _ (.bind hc fun a => .bind .beginAction fun _ => ha a)

theorem isPublic {b : Build R ε α} (h : Plain b) : Public b := by
  induction h with
  | pure a => exact .pure a
  | throw e => exact .throw e
  | bind _ _ ihb ihk => exact .bind ihb ihk
  | within environment label _ ih => exact .within environment label ih
  | allocate count name => exact .allocate count name
  | release qs => exact .release qs
  | exportQubits qs => exact .exportQubits qs
  | assertRestored qs => exact .assertRestored qs
  | apply g qs => exact .apply g qs
  | barrier qs => exact .barrier qs
  | measure q => exact .measure q
  | beginAction => exact .beginAction

theorem exec_unlimited {b : Build R ε α} (hb : Plain b) {s t : Session R} {a : α}
    (h : b.exec s = (.ok a, t)) : b.exec s.unlimited = (.ok a, t.unlimited) := by
  induction hb generalizing s t with
  | pure a' =>
    obtain ⟨ha, rfl⟩ := Prod.mk.inj h
    rw [← Except.ok.inj ha]
    rfl
  | throw e => exact nomatch (Prod.mk.inj h).1
  | @bind _ _ b k _ _ ihb ihk =>
    rw [exec_bind] at h
    rcases hfirst : b.exec s with ⟨e | a₁, s₁⟩ <;> rw [hfirst] at h
    · exact nomatch (Prod.mk.inj h).1
    · rw [exec_bind_of (ihb hfirst)]
      exact ihk a₁ h
  | within environment label _ ih => exact exec_within_unlimited ih h
  | allocate count name => exact exec_step_unlimited Session.allocate_unlimited h
  | release qs => exact exec_step_unlimited (fun h => by rw [Session.release_unlimited, h]) h
  | exportQubits qs =>
    exact exec_step_unlimited (fun h => by rw [Session.exportQubits_unlimited, h]) h
  | assertRestored qs =>
    exact exec_step_unlimited (fun h => by rw [Session.assertRestored_unlimited, h]) h
  | apply g qs => exact exec_step_unlimited (fun h => by rw [Session.apply_unlimited, h]) h
  | barrier qs => exact exec_step_unlimited (fun h => by rw [Session.barrier_unlimited, h]) h
  | measure q => exact exec_step_unlimited Session.measure_unlimited h
  | beginAction => exact exec_step_unlimited (fun h => by rw [Session.beginAction_unlimited, h]) h

end Plain

end Build

end Ancilla
