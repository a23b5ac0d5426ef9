import Ancilla.Proofs.Session.Lending
import Ancilla.Proofs.Simulation.Flips

/-!
Conjugations with qubits of their own, over circuits of flips. The compute phase is given as many
qubits as it asks for and flips some; the action copies what it found to qubits that it hands out.
Such a conjugation is closed without a refusal: no qubit of its compute phase is marked, so they are
returned once the flips are undone, and they read 0 again if the action leaves them alone.
-/

namespace Ancilla

namespace Flip

def gate : Flip → Standard ℝ
  | single .. => .cx
  | double .. => .ccx

def placement (f : Flip) : Placement ℝ := ⟨.ofStandard f.gate, f.qubits, false⟩

def instruction (f : Flip) : Instruction ℝ := f.placement.instruction

def build {ε : Type} [FromSession ε] (f : Flip) : Build ℝ ε Unit := Build.standard f.gate f.qubits

variable {f : Flip} {qs : List QubitId}

theorem sits (hnodup : f.qubits.Nodup) (hqs : ∀ q ∈ f.qubits, q ∈ qs) : f.placement.Sits qs := by
  refine ⟨fun b => ⟨GateKind.isRooted_standard f.gate, [], ?_⟩, ?_, hnodup, hqs, rfl⟩
  · cases f <;> rfl
  · cases f <;> rfl

theorem sits_fresh {ancillae fresh : List QubitId} (hcontrols : f.controls.Nodup)
    (hknown : ∀ c ∈ f.controls, c ∈ qs ++ ancillae) (htarget : f.target ∈ fresh)
    (hnew : ∀ q ∈ fresh, q ∉ qs ++ ancillae) : f.placement.Sits (qs ++ (ancillae ++ fresh)) := by
  refine sits (List.nodup_append.2 ⟨hcontrols, List.nodup_singleton _, fun c hc t ht heq => ?_⟩)
    fun q hq => ?_
  · rw [List.mem_singleton.1 ht] at heq
    exact hnew _ htarget (heq ▸ hknown c hc)
  · rw [← List.append_assoc]
    rcases List.mem_append.1 hq with hq | hq
    · exact List.mem_append_left _ (hknown q hq)
    · rw [List.mem_singleton.1 hq]
      exact List.mem_append_right _ htarget

theorem isMeasure_instruction (f : Flip) : f.instruction.isMeasure = false := rfl

theorem spreadTargets_instruction (f : Flip) : f.instruction.spreadTargets = [] := by
  cases f <;> rfl

theorem movedTargets_instruction (f : Flip) : f.instruction.movedTargets = [f.target] := by
  cases f <;> rfl

theorem operator_placement (f : Flip) (read : ClbitId → Bool) (b : Bindings ℝ) :
    f.placement.operator read b = .controlled f.controls (.onQubit Kernel.flip f.target) := by
  cases f <;> rfl

theorem compose_placements (fs : List Flip) (read : ClbitId → Bool) (b : Bindings ℝ) (y : ℕ) :
    Placement.compose read b (fs.map placement) (ket y) = ket (flipAll fs y) := by
  induction fs generalizing y with
  | nil => rfl
  | cons f fs ih =>
    rw [List.map_cons, Placement.compose, Module.End.mul_apply, operator_placement,
      Operator.controlled_flip_ket, ih, flipAll_cons]

end Flip

def Build.flips {ε : Type} [FromSession ε] (fs : List Flip) : Build ℝ ε Unit := fs.forM Flip.build

theorem Build.flips_cons {ε : Type} [FromSession ε] (f : Flip) (fs : List Flip) :
    (Build.flips (f :: fs) : Build ℝ ε Unit) = f.build >>= fun _ => Build.flips fs := rfl

theorem Build.flips_append {ε : Type} [FromSession ε] (fs gs : List Flip) :
    (Build.flips (fs ++ gs) : Build ℝ ε Unit) = Build.flips fs >>= fun _ => Build.flips gs :=
  List.forM_append

theorem Build.flips_map {ε α : Type} [FromSession ε] (xs : List α) (f : α → Flip) :
    (Build.flips (xs.map f) : Build ℝ ε Unit) = xs.forM fun x => (f x).build :=
  List.forM_map

/-! ## Sessions that hand out qubits without a limit -/

namespace Session

variable {R : Type} {s t : Session R} {qs : List QubitId} {l : List (Instruction R)}

theorem send_capacity (s : Session R) (i : Instruction R) (b : Bool) :
    (s.send i b).2.allocator.capacity = s.allocator.capacity := by
  refine send_invariant (P := fun s' => s'.allocator.capacity = s.allocator.capacity) rfl ?_
  intro s' j hs'
  rw [deliver_eq]
  exact (Allocator.capacity_foldl_markEntangled _ _).trans hs'

theorem sendAll_capacity {es : List (Placement R)} (h : s.sendAll es = .ok t) :
    t.allocator.capacity = s.allocator.capacity := by
  induction es generalizing s with
  | nil => rw [← Except.ok.inj h]
  | cons e es ih =>
    obtain ⟨s₁, hfirst, hrest⟩ := sendAll_cons.1 h
    have hone := send_capacity s e.instruction e.balanced
    rw [hfirst] at hone
    exact (ih hrest).trans hone

theorem Idle.steady (h : s.Idle) : s.Steady := by
  refine ⟨h.unpoisoned, fun f hf => ?_, h.allocator, h.equipped, h.registers⟩
  rw [FrameStack.toList, h.closed, List.mem_singleton] at hf
  exact .inl (hf ▸ h.root)

theorem Idle.sent (h : s.Idle) (hsent : s.Sent l t)
    (hcapacity : t.allocator.capacity = s.allocator.capacity) : t.Idle := by
  have hclosed : t.frames.below = [] :=
    List.eq_nil_of_length_eq_zero (hsent.numOpen.trans h.numOpen)
  have hkin := hsent.kin
  rw [FrameStack.toList, FrameStack.toList, hclosed, h.closed] at hkin
  exact ⟨hsent.steady.unpoisoned, hclosed,
    ((List.forall₂_cons.1 hkin).1.environment).trans h.root, hcapacity.trans h.unlimited,
    hsent.steady.allocator, hsent.steady.equipped, hsent.steady.registers⟩

theorem Idle.allocate_inside (h : s.Idle) {f : Frame R} (hf : f.environment ≠ .inversion) (n : ℕ)
    (name : String) :
    ∃ (fresh : List QubitId) (t : Session R),
      (s.inside f).allocate n name = (.ok fresh, t.inside (f.own fresh)) ∧
      fresh.length = n ∧ t.Idle := by
  obtain ⟨fresh, a, hgrant, hlength, hunlimited⟩ := Allocator.allocate_of_unlimited h.unlimited n
  have hinversion : ((s.inside f).frames.any fun f => f.environment = .inversion) = false := by
    simp [Session.inside, FrameStack.push, FrameStack.any, FrameStack.toList, h.closed, h.root, hf]
  -- the same qubits are handed out without the frame
  have hopen : (s.frames.any fun f => f.environment = .inversion) = false := by
    simp [FrameStack.any, FrameStack.toList, h.closed, h.root]
  have hhealthy := h.steady.healthy.allocate (allocate_of_grant h.unpoisoned hopen hgrant name)
  have hinside := allocate_of_grant (s := s.inside f) h.unpoisoned hinversion hgrant name
  exact ⟨fresh, { s.granted fresh a name with frames := s.frames }, hinside, hlength,
    hhealthy.unpoisoned, h.closed, h.root, hunlimited, hhealthy.allocator,
    ⟨hhealthy.equipped.accepting, hhealthy.equipped.wired⟩, hhealthy.registers⟩

end Session

/-! ## The frame of a conjugation -/

namespace Frame

/-- The marks of a conjugation let it be closed: only results of its action are marked, and nothing is
in superposition. -/
structure Restores {R : Type} (f : Frame R) (ancillae results : List QubitId) : Prop where
  touched : ∀ q, f.touched.contains q = true → q ∈ results
  unspread : ∀ q, f.superposed.contains q = false
  computed : ∀ q, f.computeAncillae.contains q = true → q ∈ ancillae

variable {f : Frame ℝ} {id : FrameId} {owned ancillae results : List QubitId}
  {kept : List (Placement ℝ)}

theorem restores_new (id : FrameId) (environment : Environment) (label : String) :
    (Frame.new id environment label : Frame ℝ).Restores [] [] := by
  have hnone : ∀ q, ({} : QubitSet).contains q = true → q ∈ ([] : List QubitId) := fun q hq =>
    Bool.noConfusion ((QubitSet.contains_default q).symm.trans hq)
  exact ⟨hnone, QubitSet.contains_default, hnone⟩

theorem Restores.own_computing (hr : f.Restores ancillae results) (hf : f.isComputing = true)
    (fresh : List QubitId) : (f.own fresh).Restores (ancillae ++ fresh) results := by
  refine ⟨hr.touched, hr.unspread, fun q hq => ?_⟩
  have hown : (f.own fresh).computeAncillae = f.computeAncillae.insertAll fresh := if_pos hf
  rw [hown, QubitSet.contains_insertAll] at hq
  exact List.mem_append.2 (hq.imp_left (hr.computed q))

theorem Restores.own_acting (hr : f.Restores ancillae results) (hf : f.isComputing = false)
    (fresh : List QubitId) : (f.own fresh).Restores ancillae (results ++ fresh) := by
  refine ⟨fun q hq => List.mem_append_left _ (hr.touched q hq), hr.unspread, fun q hq => ?_⟩
  have hown : (f.own fresh).computeAncillae = f.computeAncillae := if_neg (by simp [hf])
  rw [hown] at hq
  exact hr.computed q hq

theorem Holds.pass_computing (hf : f.Holds id .conjugation .compute owned kept)
    (hr : f.Restores ancillae results) (g : Flip) :
    ∃ f', f.pass g.instruction false = .ok (f', some (g.instruction, true)) ∧
      f'.Holds id .conjugation .compute owned (g.placement :: kept) ∧
      f'.Restores ancillae results := by
  have hpass : f.pass g.instruction false = .ok (f.keep g.instruction false,
      some (g.instruction, true)) := by
    unfold Frame.pass
    split
    · simp only [hf.phase, g.isMeasure_instruction, g.spreadTargets_instruction, if_true,
        Bool.false_eq_true, if_false, Frame.note, Frame.keep, QubitSet.insertAll, List.filter_nil,
        List.foldl_nil]
    all_goals
      next he => exact absurd (hf.environment.symm.trans he) (by simp)
  exact ⟨_, hpass, hf.keep g.placement, hr.touched, hr.unspread, hr.computed⟩

theorem Holds.pass_acting (hf : f.Holds id .conjugation .act owned kept)
    (hr : f.Restores ancillae results) {g : Flip} (hg : g.target ∈ results) :
    ∃ f', f.pass g.instruction false = .ok (f', some (g.instruction, false)) ∧
      f'.Holds id .conjugation .act owned kept ∧ f'.Restores ancillae results := by
  have hnone : g.instruction.qubits.filter f.superposed.contains = [] := by
    rw [List.filter_eq_nil_iff]
    intro q _
    rw [hr.unspread]
    exact Bool.false_ne_true
  have hpass : f.pass g.instruction false =
      .ok (f.touch [g.target], some (g.instruction, false)) := by
    unfold Frame.pass
    split
    · simp only [hf.phase, hnone, reduceCtorEq, if_false, Bool.false_eq_true]
      rw [← g.movedTargets_instruction]
      rfl
    all_goals
      next he => exact absurd (hf.environment.symm.trans he) (by simp)
  refine ⟨_, hpass, hf.touch _, fun q hq => ?_, hr.unspread, hr.computed⟩
  rcases (QubitSet.contains_insertAll _ _ _).1 hq with hq | hq
  · exact hr.touched q hq
  · rw [List.mem_singleton.1 hq]
    exact hg

def exporting (f : Frame ℝ) (qs : List QubitId) : Frame ℝ :=
  { f with exported := Ordered.union f.exported qs }

theorem Holds.toReclaim_exporting (hf : f.Holds id .conjugation .act (ancillae ++ results) kept)
    (hapart : ancillae.Disjoint results) : (f.exporting results).toReclaim = ancillae := by
  have hmem : ∀ q, q ∈ (f.exporting results).exported ↔ q ∈ results := fun q => by
    rw [exporting, Ordered.mem_union, hf.exported]
    exact or_iff_right List.not_mem_nil
  have howned : (f.exporting results).owned = ancillae ++ results := hf.owned
  have hkeep : ancillae.filter (fun q => !(f.exporting results).exported.contains q) = ancillae :=
    List.filter_eq_self.2 fun q hq => by simpa [hmem] using fun hq' => hapart hq hq'
  have hdrop : results.filter (fun q => !(f.exporting results).exported.contains q) = [] :=
    List.filter_eq_nil_iff.2 fun q hq => by simpa [hmem] using hq
  rw [Frame.toReclaim, howned, List.filter_append, hkeep, hdrop, List.append_nil]

theorem Restores.leaked_exporting (hr : f.Restores ancillae results)
    (hf : f.Holds id .conjugation .act (ancillae ++ results) kept)
    (hapart : ancillae.Disjoint results) : (f.exporting results).leaked = [] := by
  rw [Frame.leaked, hf.toReclaim_exporting hapart, List.filter_eq_nil_iff]
  exact fun q hq htouched => hapart hq (hr.touched q htouched)

end Frame

/-! ## Computing and acting -/

namespace Session

variable {s t : Session ℝ} {id : FrameId} {qs ancillae results : List QubitId} {fs gs : List Flip}
  {l : List (Instruction ℝ)}

/-- A session inside the compute phase of one conjugation, which was opened in `s`: `ancillae` were
handed out, and the flips `fs` were sent, on these and on `qs`. -/
structure Computing (s : Session ℝ) (qs : List QubitId) (id : FrameId) (ancillae : List QubitId)
    (fs : List Flip) (t : Session ℝ) : Prop where
  frame : ∃ (f : Frame ℝ) (u : Session ℝ), t = u.inside f ∧ u.Idle ∧
    f.Holds id .conjugation .compute ancillae (fs.map Flip.placement).reverse ∧ f.Restores ancillae []
  lent : s.Lent ancillae (fs.map Flip.instruction) t
  sits : ∀ g ∈ fs, g.placement.Sits (qs ++ ancillae)

/-- A session inside the action of such a conjugation: `results` were handed out besides, and the
flips `gs` were sent, all with results for their targets. -/
structure Acting (s : Session ℝ) (qs : List QubitId) (id : FrameId) (ancillae : List QubitId)
    (fs : List Flip) (results : List QubitId) (gs : List Flip) (t : Session ℝ) : Prop where
  frame : ∃ (f : Frame ℝ) (u : Session ℝ), t = u.inside f ∧ u.Idle ∧
    f.Holds id .conjugation .act (ancillae ++ results) (fs.map Flip.placement).reverse ∧
    f.Restores ancillae results
  lent : s.Lent (ancillae ++ results) ((fs ++ gs).map Flip.instruction) t
  computed : ∀ g ∈ fs, g.placement.Sits (qs ++ ancillae)
  acted : ∀ g ∈ gs, g.placement.Sits (qs ++ (ancillae ++ results))

theorem Idle.enter_conjugation (h : s.Idle) (qs : List QubitId) (label : String) :
    s.enter .conjugation label = (.ok s.nextFrame, s.entered .conjugation label) ∧
      s.Computing qs s.nextFrame [] [] (s.entered .conjugation label) := by
  have hhosts : s.Hosts Environment.conjugation.controls :=
    ⟨h.unpoisoned, h.allocator, fun q hq => absurd hq List.not_mem_nil⟩
  refine ⟨enter_of_live hhosts label, ⟨.new s.nextFrame .conjugation label,
    { s with nextFrame := s.nextFrame + 1 }, rfl, ?_, Frame.holds_new _ _ _,
    Frame.restores_new _ _ _⟩, s.lent_nil.congr rfl rfl, fun g hg => absurd hg List.not_mem_nil⟩
  exact ⟨h.unpoisoned, h.closed, h.root, h.unlimited, h.allocator,
    ⟨h.equipped.accepting, h.equipped.wired⟩, h.registers⟩

theorem Lent.known (h : s.Lent ancillae l t) (hqs : ∀ q ∈ qs, s.allocator.isLive q = true)
    {q : QubitId} (hq : q ∈ qs ++ ancillae) : t.allocator.isLive q = true :=
  (h.live q).2 ((List.mem_append.1 hq).imp_left (hqs q))

theorem Computing.allocate (h : s.Computing qs id ancillae fs t)
    (hqs : ∀ q ∈ qs, s.allocator.isLive q = true) (n : ℕ) (name : String) :
    ∃ fresh u, t.allocate n name = (.ok fresh, u) ∧ fresh.length = n ∧ fresh.Nodup ∧
      (∀ q ∈ fresh, q ∉ qs ++ ancillae) ∧ s.Computing qs id (ancillae ++ fresh) fs u := by
  obtain ⟨f, u, rfl, hu, hf, hr⟩ := h.frame
  obtain ⟨fresh, v, hcall, hlength, hv⟩ :=
    hu.allocate_inside (f := f) (by rw [hf.environment]; simp) n name
  obtain ⟨hnodup, hfresh, -⟩ := allocate_fresh (s := u.inside f) hu.allocator hcall
  refine ⟨fresh, _, hcall, hlength, hnodup, fun q hq hmem => ?_,
    ⟨f.own fresh, v, rfl, hv, hf.own fresh,
      hr.own_computing (Frame.isComputing_iff.2 ⟨hf.environment, hf.phase⟩) fresh⟩,
    h.lent.allocate hu.allocator hcall, fun g hg => (h.sits g hg).mono fun q hq => ?_⟩
  · have hlive := h.lent.known hqs hmem
    rw [hfresh q hq] at hlive
    exact Bool.noConfusion hlive
  · rw [← List.append_assoc]
    exact List.mem_append_left _ hq

theorem Idle.flip_inside {ε : Type} [FromSession ε] {u : Session ℝ} (hu : u.Idle) {f f' : Frame ℝ}
    {g : Flip} {c : Bool} (hpass : f.pass g.instruction false = .ok (f', some (g.instruction, c)))
    (hg : g.placement.Sits qs) (hqs : ∀ q ∈ qs, u.allocator.isLive q = true) :
    ∃ (o : Option (Instruction ℝ)) (v : Session ℝ),
      (g.build : Build ℝ ε Unit).exec (u.inside f) = (.ok (), v.inside (Frame.count o f')) ∧ v.Idle ∧
      u.Sent [g.instruction] v := by
  obtain ⟨v, hsend, hsent⟩ := hu.steady.send (hu.steady.fault (hg.suits hqs)) c
  have hcapacity := send_capacity u g.instruction c
  obtain ⟨o, hinside⟩ := send_inside hpass u
  have hsame : u.send g.instruction c = (.ok (), v) := hsend
  rw [hsame] at hcapacity hinside
  have hemit : (u.inside f).emit g.instruction = (u.inside f).send g.instruction false :=
    emit_of_live (s := u.inside f) hu.unpoisoned fun q hq => hqs q (hg.among q hq)
  exact ⟨o, v, Build.exec_of_step (hemit.trans hinside), hu.sent hsent hcapacity, hsent⟩

theorem Computing.flip {ε : Type} [FromSession ε] (h : s.Computing qs id ancillae fs t)
    (hqs : ∀ q ∈ qs, s.allocator.isLive q = true) {g : Flip}
    (hg : g.placement.Sits (qs ++ ancillae)) :
    ∃ t', (g.build : Build ℝ ε Unit).exec t = (.ok (), t') ∧
      s.Computing qs id ancillae (fs ++ [g]) t' := by
  obtain ⟨f, u, rfl, hu, hf, hr⟩ := h.frame
  obtain ⟨f', hpass, hf', hr'⟩ := hf.pass_computing hr g
  obtain ⟨o, v, hexec, hv, hsent⟩ :=
    hu.flip_inside (ε := ε) hpass hg fun q hq => h.lent.known hqs hq
  have hlent := ((h.lent.congr (u := u) rfl rfl).sent hsent).congr
    (u := v.inside (Frame.count o f')) rfl rfl
  refine ⟨_, hexec, ⟨Frame.count o f', v, rfl, hv, ?_, hr'.touched, hr'.unspread, hr'.computed⟩, ?_,
    ?_⟩
  · rw [List.map_append, List.reverse_append]
    exact hf'.count o
  · rw [List.map_append]
    exact hlent
  · intro g' hg'
    rcases List.mem_append.1 hg' with hg' | hg'
    · exact h.sits g' hg'
    · rw [List.mem_singleton.1 hg']
      exact hg

theorem Acting.flip {ε : Type} [FromSession ε] (h : s.Acting qs id ancillae fs results gs t)
    (hqs : ∀ q ∈ qs, s.allocator.isLive q = true) {g : Flip}
    (hg : g.placement.Sits (qs ++ (ancillae ++ results))) (htarget : g.target ∈ results) :
    ∃ t', (g.build : Build ℝ ε Unit).exec t = (.ok (), t') ∧
      s.Acting qs id ancillae fs results (gs ++ [g]) t' := by
  obtain ⟨f, u, rfl, hu, hf, hr⟩ := h.frame
  obtain ⟨f', hpass, hf', hr'⟩ := hf.pass_acting hr htarget
  obtain ⟨o, v, hexec, hv, hsent⟩ :=
    hu.flip_inside (ε := ε) hpass hg fun q hq => h.lent.known hqs hq
  have hlent := ((h.lent.congr (u := u) rfl rfl).sent hsent).congr
    (u := v.inside (Frame.count o f')) rfl rfl
  refine ⟨_, hexec, ⟨Frame.count o f', v, rfl, hv, hf'.count o, hr'.touched, hr'.unspread,
    hr'.computed⟩, ?_, h.computed, ?_⟩
  · rw [← List.append_assoc, List.map_append]
    exact hlent
  · intro g' hg'
    rcases List.mem_append.1 hg' with hg' | hg'
    · exact h.acted g' hg'
    · rw [List.mem_singleton.1 hg']
      exact hg

variable {ε : Type} [FromSession ε]

theorem exec_flips {P : List Flip → Session ℝ → Prop} {Q : Flip → Prop}
    (hstep : ∀ {gs t g}, P gs t → Q g →
      ∃ t', (g.build : Build ℝ ε Unit).exec t = (.ok (), t') ∧ P (gs ++ [g]) t')
    (h : P gs t) {ms : List Flip} (hms : ∀ g ∈ ms, Q g) :
    ∃ t', (Build.flips ms : Build ℝ ε Unit).exec t = (.ok (), t') ∧ P (gs ++ ms) t' := by
  induction ms generalizing gs t with
  | nil =>
    rw [List.append_nil]
    exact ⟨t, rfl, h⟩
  | cons g ms ih =>
    obtain ⟨t₁, hfirst, h₁⟩ := hstep h (hms g List.mem_cons_self)
    obtain ⟨t', hrest, h'⟩ := ih h₁ fun g' hg' => hms g' (List.mem_cons_of_mem _ hg')
    rw [List.append_assoc, List.singleton_append] at h'
    refine ⟨t', ?_, h'⟩
    rw [Build.flips_cons, Build.exec_bind_of hfirst]
    exact hrest

theorem Computing.flips (h : s.Computing qs id ancillae fs t)
    (hqs : ∀ q ∈ qs, s.allocator.isLive q = true)
    (hgs : ∀ g ∈ gs, g.placement.Sits (qs ++ ancillae)) :
    ∃ t', (Build.flips gs : Build ℝ ε Unit).exec t = (.ok (), t') ∧
      s.Computing qs id ancillae (fs ++ gs) t' :=
  exec_flips (fun h hg => h.flip hqs hg) h hgs

theorem Acting.flips {ms : List Flip} (h : s.Acting qs id ancillae fs results gs t)
    (hqs : ∀ q ∈ qs, s.allocator.isLive q = true)
    (hms : ∀ g ∈ ms, g.placement.Sits (qs ++ (ancillae ++ results)) ∧ g.target ∈ results) :
    ∃ t', (Build.flips ms : Build ℝ ε Unit).exec t = (.ok (), t') ∧
      s.Acting qs id ancillae fs results (gs ++ ms) t' :=
  exec_flips (fun h hg => h.flip hqs hg.1 hg.2) h hms

theorem Computing.extend {α : Type} (h : s.Computing qs id ancillae fs t)
    (hqs : ∀ q ∈ qs, s.allocator.isLive q = true) (n : ℕ) (name : String)
    (layer : List QubitId → List Flip) (result : List QubitId → α)
    (hlayer : ∀ fresh : List QubitId, fresh.length = n → fresh.Nodup →
      (∀ q ∈ fresh, q ∉ qs ++ ancillae) →
        ∀ g ∈ layer fresh, g.placement.Sits (qs ++ (ancillae ++ fresh))) :
    ∃ fresh t', (do
        let fresh ← Build.allocate n name
        Build.flips (layer fresh)
        return result fresh : Build ℝ ε α).exec t = (.ok (result fresh), t') ∧
      fresh.length = n ∧ fresh.Nodup ∧ (∀ q ∈ fresh, q ∉ qs ++ ancillae) ∧
      s.Computing qs id (ancillae ++ fresh) (fs ++ layer fresh) t' := by
  obtain ⟨fresh, u, hcall, hlength, hnodup, hnew, hu⟩ := h.allocate hqs n name
  obtain ⟨t', hflips, ht'⟩ := hu.flips (ε := ε) hqs (hlayer fresh hlength hnodup hnew)
  have hallocate : Build.exec (Build.allocate n name : Build ℝ ε (List QubitId)) t = (.ok fresh, u) :=
    Build.exec_of_step hcall
  refine ⟨fresh, t', ?_, hlength, hnodup, hnew, ht'⟩
  rw [Build.exec_bind_of hallocate, Build.exec_bind_of hflips]
  rfl

theorem Computing.testBit_of_not_mem (h : s.Computing qs id ancillae fs t) {q : QubitId}
    (hq : q ∉ qs ++ ancillae) (y : ℕ) : (flipAll fs y).testBit q = y.testBit q := by
  refine testBit_flipAll_of_not_target (fun g hg heq => hq ?_) y
  exact (h.sits g hg).among q (heq ▸ g.target_mem_qubits)

theorem Computing.beginAction (h : s.Computing qs id ancillae fs t) :
    ∃ t', t.beginAction = (.ok (), t') ∧ s.Acting qs id ancillae fs [] [] t' := by
  obtain ⟨f, u, rfl, hu, hf, hr⟩ := h.frame
  have hcall : (u.inside f).beginAction = (.ok (), u.inside { f with phase := .act }) :=
    beginAction_of_computing (s := u.inside f) hu.unpoisoned
      (Frame.isComputing_iff.2 ⟨hf.environment, hf.phase⟩)
  refine ⟨_, hcall, ⟨_, u, rfl, hu, ⟨hf.id, hf.environment, rfl, ?_, hf.exported, hf.log⟩,
    hr.touched, hr.unspread, hr.computed⟩, ?_, h.sits, fun g hg => absurd hg List.not_mem_nil⟩
  · rw [List.append_nil]
    exact hf.owned
  · rw [List.append_nil, List.append_nil]
    exact h.lent.congr rfl rfl

theorem Acting.allocate (h : s.Acting qs id ancillae fs [] [] t)
    (hqs : ∀ q ∈ qs, s.allocator.isLive q = true) (n : ℕ) (name : String) :
    ∃ fresh u, t.allocate n name = (.ok fresh, u) ∧ fresh.length = n ∧ fresh.Nodup ∧
      (∀ q ∈ fresh, q ∉ qs ++ ancillae) ∧ s.Acting qs id ancillae fs fresh [] u := by
  obtain ⟨f, u, rfl, hu, hf, hr⟩ := h.frame
  obtain ⟨fresh, v, hcall, hlength, hv⟩ :=
    hu.allocate_inside (f := f) (by rw [hf.environment]; simp) n name
  obtain ⟨hnodup, hfresh, -⟩ := allocate_fresh (s := u.inside f) hu.allocator hcall
  have hacting : f.isComputing = false := by simp [Frame.isComputing, hf.phase]
  have hlent := h.lent.allocate hu.allocator hcall
  have hholds := hf.own fresh
  rw [List.append_nil] at hlent hholds
  refine ⟨fresh, _, hcall, hlength, hnodup, fun q hq hmem => ?_, ⟨f.own fresh, v, rfl, hv, hholds,
    hr.own_acting hacting fresh⟩, hlent, h.computed, fun g hg => absurd hg List.not_mem_nil⟩
  have hlive := h.lent.known hqs (List.append_nil ancillae ▸ hmem)
  rw [hfresh q hq] at hlive
  exact Bool.noConfusion hlive

/-! ## Closing the conjugation -/

noncomputable def conjugated (fs gs : List Flip) : List (Placement ℝ) :=
  (fs.map Flip.placement).map Placement.shielded ++ gs.map Flip.placement ++
    ((fs.map Flip.placement).map Placement.shielded).reverse.map Placement.undone

theorem sits_undone {ps : List QubitId} (hfs : ∀ g ∈ fs, g.placement.Sits ps) :
    ∀ e ∈ ((fs.map Flip.placement).map Placement.shielded).reverse.map Placement.undone,
      e.Sits ps := by
  intro e he
  obtain ⟨e', he', rfl⟩ := List.mem_map.1 he
  obtain ⟨e'', he'', rfl⟩ := List.mem_map.1 (List.mem_reverse.1 he')
  obtain ⟨g, hg, rfl⟩ := List.mem_map.1 he''
  exact (hfs g hg).shielded.undone

theorem compose_conjugated {ps : List QubitId} (hfs : ∀ g ∈ fs, g.placement.Sits ps)
    (read : ClbitId → Bool) (b : Bindings ℝ) {y z : ℕ}
    (h : flipAll gs (flipAll fs y) = flipAll fs z) :
    Placement.compose read b (conjugated fs gs) (ket y) = ket z := by
  have hsits : ∀ e ∈ fs.map Flip.placement, e.Sits ps := by
    intro e he
    obtain ⟨g, hg, rfl⟩ := List.mem_map.1 he
    exact hfs g hg
  obtain ⟨n, hn⟩ := exists_above ps
  have hready : ∀ e ∈ fs.map Flip.placement, e.Ready b := fun e he => (hsits e he).ready b
  have hfits : ∀ e ∈ fs.map Flip.placement, e.Fits n := fun e he => (hsits e he).fits hn
  rw [conjugated, Placement.compose_conjugate hready hfits]
  refine Operator.conjugate_apply (Placement.compose_uncompute hready hfits).1 ?_
  rw [Flip.compose_placements, Flip.compose_placements, Flip.compose_placements, h]

structure Delivered (s s' : Session ℝ) (qs ancillae results : List QubitId)
    (es : List (Placement ℝ)) : Prop where
  idle : s'.Idle
  live : ∀ q, s'.allocator.isLive q = true ↔ s.allocator.isLive q = true ∨ q ∈ results
  returned : ∀ q ∈ ancillae, q ∈ s'.allocator.reclaimed
  handed : s.circuit.HandsOut s'.circuit (ancillae ++ results)
  emissions : s'.emissions = s.emissions ++ es.map Placement.instruction
  nodup : (ancillae ++ results).Nodup
  fresh : ∀ q ∈ ancillae ++ results, s.allocator.isLive q = false
  below : ∀ q ∈ qs ++ (ancillae ++ results), q < s'.circuit.width
  sits : ∀ e ∈ es, e.Sits (qs ++ (ancillae ++ results))

theorem exportFault?_of_owned {f : Frame ℝ}
    (h : ∀ q ∈ results, q ∈ f.owned ∧ f.computeAncillae.contains q = false) :
    exportFault? f results = none := by
  induction results with
  | nil => rfl
  | cons q qs ih =>
    obtain ⟨howned, hresult⟩ := h q List.mem_cons_self
    have howns : f.owns q = true := List.contains_iff_mem.2 howned
    unfold exportFault?
    rw [if_neg (by simp [howns]), if_neg (by simp [hresult])]
    exact ih fun p hp => h p (List.mem_cons_of_mem _ hp)

theorem exportQubits_inside {u : Session ℝ} (hu : u.Idle) {f : Frame ℝ} {kept : List (Placement ℝ)}
    (hf : f.Holds id .conjugation .act (ancillae ++ results) kept) (hr : f.Restores ancillae results)
    (hapart : ancillae.Disjoint results) :
    (u.inside f).exportQubits results =
      (.ok (), u.inside (f.exporting results)) := by
  have hfault : exportFault? f results = none := by
    refine exportFault?_of_owned fun q hq => ⟨?_, ?_⟩
    · rw [hf.owned]
      exact List.mem_append_right _ hq
    · rw [Bool.eq_false_iff]
      exact fun hmem => hapart (hr.computed q hmem) hq
  unfold Session.exportQubits
  rw [if_neg (by simp [Session.inside, hu.unpoisoned]),
    if_neg (by simp [Session.inside, FrameStack.push])]
  split
  · next he => exact absurd (hf.environment.symm.trans he) (by simp)
  · simp only [show (u.inside f).frames.top = f from rfl, hfault]
    rfl

theorem sits_conjugated {ps : List QubitId} (hfs : ∀ g ∈ fs, g.placement.Sits ps)
    (hgs : ∀ g ∈ gs, g.placement.Sits ps) : ∀ e ∈ conjugated fs gs, e.Sits ps := by
  intro e he
  rcases List.mem_append.1 he with he | he
  · rcases List.mem_append.1 he with he | he
    · obtain ⟨e', he', rfl⟩ := List.mem_map.1 he
      obtain ⟨g, hg, rfl⟩ := List.mem_map.1 he'
      exact (hfs g hg).shielded
    · obtain ⟨g, hg, rfl⟩ := List.mem_map.1 he
      exact hgs g hg
  · exact sits_undone hfs e he

theorem Acting.exit (h : s.Acting qs id ancillae fs results gs t)
    (hqs : ∀ q ∈ qs, s.allocator.isLive q = true) :
    ∃ t' s', t.exportQubits results = (.ok (), t') ∧ t'.exit id = (.ok (), s') ∧
      s.Delivered s' qs ancillae results (conjugated fs gs) := by
  obtain ⟨f, u, rfl, hu, hf, hr⟩ := h.frame
  obtain ⟨hnodup, -, hapart⟩ := List.nodup_append'.1 h.lent.nodup
  have hknown : ∀ q ∈ qs ++ (ancillae ++ results), u.allocator.isLive q = true := fun q hq =>
    h.lent.known hqs hq
  have hcomputed : ∀ g ∈ fs, g.placement.Sits (qs ++ (ancillae ++ results)) := fun g hg =>
    (h.computed g hg).mono fun q hq => by
      rw [← List.append_assoc]
      exact List.mem_append_left _ hq
  -- what the computation flipped is flipped back
  obtain ⟨u₁, hsend, hsent⟩ := hu.steady.sendAll fun e he => (sits_undone hcomputed e he).suits hknown
  have hu₁ := hu.sent hsent (sendAll_capacity hsend)
  have hreplay : u.replay (f.exporting results) = (.ok (), u₁) := by
    rw [← owed_conjugation] at hsend
    have hsame : u.replay (f.exporting results) = u.replay f := by
      rw [Frame.exporting, Session.replay, Session.replay]
    exact hsame.trans (replay_of_sendAll hf hsend)
  -- the qubits of the computation are returned
  have hok : (u₁.reclaim ancillae).1 = .ok () := (reclaim_ok_iff _ _).2 ⟨fun q hq => by
    rw [hsent.live]
    exact hknown q (List.mem_append_right _ (List.mem_append_left _ hq)), hnodup⟩
  have hreclaim := hf.toReclaim_exporting hapart
  obtain ⟨s', hexit, hidle, hallocator, hcircuit, hemissions⟩ := hu.exit_inside
    (f := f.exporting results) hf.id hreplay (hr.leaked_exporting hf hapart) hu₁ (hreclaim.symm ▸ hok)
  rw [hreclaim] at hallocator hcircuit
  refine ⟨_, s', exportQubits_inside hu hf hr hapart, hexit, hidle, fun q => ?_, ?_, ?_, ?_,
    h.lent.nodup, h.lent.fresh, fun q hq => ?_, sits_conjugated hcomputed h.acted⟩
  · have hlive : ∀ q, u₁.allocator.isLive q = true ↔ s.allocator.isLive q = true ∨
        q ∈ ancillae ++ results := fun q => by
      rw [hsent.live]
      exact h.lent.live q
    rw [hallocator]
    exact reclaim_live_of_fresh hu₁.allocator hok
      (fun q hq => h.lent.fresh q (List.mem_append_left _ hq)) hlive hapart q
  · rw [hallocator]
    exact reclaim_returned hok
  · have hall := (h.lent.handed.trans hsent.handed).trans (handsOut_reclaim u₁ ancillae)
    rw [List.append_nil, List.append_nil] at hall
    exact hcircuit ▸ hall
  · have hbefore : u.emissions = _ := h.lent.emissions
    rw [hemissions, hsent.emissions, hbefore, conjugated]
    simp only [List.map_append, List.map_map, List.append_assoc]
    rfl
  · have hwidth := (hsent.grown.trans (reclaim_grown u₁ ancillae)).width_le
    rw [hcircuit]
    exact (hu.steady.lt_width (hknown q hq)).trans_le hwidth

end Session

end Ancilla
