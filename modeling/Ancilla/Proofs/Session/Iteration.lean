import Ancilla.Proofs.Session.Meaning
import Ancilla.Proofs.Session.Placing
import Ancilla.Proofs.Session.Timeline
import Ancilla.Session.Iteration

/-!
Walks. A walk whose questions and moves are programs is itself a program on the flag, which is the
lowest qubit not in use in every step, since each step returns it. Steps that compute the answer
once and steps that compute it for each move are different programs. Their placements amount to the
same operator: between the two moves of the second kind the answer is undone and computed again.
-/

namespace Ancilla

variable {R : Type}

/-! ## The flag -/

noncomputable def Allocator.firstFree (a : Allocator) : QubitId :=
  Nat.nth (fun q => a.isLive q = false) 0

theorem Allocator.firstFree_congr {a a' : Allocator} (h : ∀ q, a'.isLive q = a.isLive q) :
    a'.firstFree = a.firstFree := by
  unfold firstFree
  simp only [h]

namespace Session

variable [Scalar R] {s t : Session R}

theorem Reachable.settled (hs : s.Reachable) : s.allocator.Settled := by
  have hbooks : s.books.Agreeing := hs.books_invariant Books.Agreeing.new fun b e hb => hb.enter e
  obtain ⟨capacity, htallied⟩ := hbooks.tallied
  exact htallied.settled

theorem Reachable.allocate_one (hs : s.Reachable) {name : String} {qs : List QubitId}
    (h : s.allocate 1 name = (.ok qs, t)) : qs = [s.allocator.firstFree] := by
  obtain ⟨-, a, hgrant, -⟩ := allocate_ok h
  exact (hs.settled.allocate_ok hgrant).2

end Session

/-! ## Steps as programs -/

variable [Scalar R]

def IterationStrategy.step (flag : QubitId) (question forward backward : Program R) :
    IterationStrategy → Program R
  | shared =>
    .conjugate "predicate" question (.seq (.control [flag] forward)
      (.conjugate "negate" (.apply (.ofStandard .x) [flag]) (.control [flag] backward)))
  | naive =>
    .seq (.conjugate "predicate" question (.control [flag] forward))
      (.conjugate "predicate" (.seq question (.apply (.ofStandard .x) [flag]))
        (.control [flag] backward))

def Program.countUp (p : ℕ → Program R) : ℕ → ℕ → Program R
  | 0, _ => .skip
  | count + 1, first => .seq (p first) (countUp p count (first + 1))

def IterationStrategy.walk (strategy : IterationStrategy) (steps : ℕ)
    (predicate : ℕ → QubitId → Program R) (forward backward : ℕ → Program R) (flag : QubitId) :
    Program R :=
  .countUp (fun k => strategy.step flag (predicate k flag) (forward k) (backward k)) steps 0

theorem Program.public (p : Program R) : p.build.Public := by
  induction p with
  | skip => exact .pure ()
  | seq p q ihp ihq => exact .bind ihp fun _ => ihq
  | apply g qs => exact .apply g qs
  | conjugate label compute act ihc iha => exact ihc.conjugate label fun _ => iha
  | control cs body ih => exact ih.control cs
  | controlClassical clbits value body ih => exact ih.controlClassical clbits value
  | invert body ih => exact ih.invert
  | scope label body ih => exact ih.scope label

namespace Session

variable {s t u : Session R} {es fs : List (Placement R)}

structure Added (s t : Session R) (es : List (Placement R)) : Prop where
  reachable : t.Reachable
  plain : t.frames.Plain
  live : ∀ q, t.allocator.isLive q = s.allocator.isLive q
  width : s.circuit.width ≤ t.circuit.width
  emissions : t.emissions = s.emissions ++ es.map Placement.instruction
  fits : ∀ e ∈ es, e.gate.kind.Fits t.circuit.width e.qubits

theorem Reachable.added_nil (hs : s.Reachable) (hplain : s.frames.Plain) : s.Added s [] :=
  ⟨hs, hplain, fun _ => rfl, Nat.le_refl _, (List.append_nil _).symm,
    fun _ he => absurd he List.not_mem_nil⟩

theorem Added.trans (h : s.Added t es) (h' : t.Added u fs) : s.Added u (es ++ fs) := by
  refine ⟨h'.reachable, h'.plain, fun q => (h'.live q).trans (h.live q), h.width.trans h'.width,
    ?_, ?_⟩
  · rw [h'.emissions, h.emissions, List.map_append, List.append_assoc]
  · intro e he
    rcases List.mem_append.1 he with he | he
    · exact GateKind.Fits.mono (h.fits e he) h'.width
    · exact h'.fits e he

theorem Added.firstFree (h : s.Added t es) : t.allocator.firstFree = s.allocator.firstFree :=
  Allocator.firstFree_congr h.live

def amid (s : Session R) (frames : FrameStack R) : Session R := { s.unnumbered with frames }

/-- A session inside the frame of a conjugation, which was opened in `s` and was given the lowest
qubit not in use there. -/
structure Flagged (s : Session R) (id : FrameId) (label : String) (t : Session R) : Prop where
  reachable : t.Reachable
  inside : t.unnumbered =
    (t.amid s.frames).inside ((Frame.new id .conjugation label).own [s.allocator.firstFree])
  fresh : s.allocator.isLive s.allocator.firstFree = false
  live : ∀ q, t.allocator.isLive q = true ↔
    s.allocator.isLive q = true ∨ q = s.allocator.firstFree
  width : s.circuit.width ≤ t.circuit.width
  emissions : t.emissions = s.emissions

theorem Flagged.added {id : FrameId} {label : String} {v : Session R} (h : s.Flagged id label u)
    (hplain : s.frames.Plain) (hsent : (u.amid s.frames).sendAll es = .ok v)
    (hback : v.reclaim [s.allocator.firstFree] = (.ok (), t.unnumbered)) (ht : t.Reachable) :
    s.Added t es := by
  obtain ⟨hout, hwidth, hfits, hplain'⟩ :=
    sendAll_plain (s := u.amid s.frames) h.reachable.registers hplain hsent
  obtain ⟨hsound, hlive⟩ : v.allocator.Sound ∧ ∀ q, v.allocator.isLive q = u.allocator.isLive q :=
    sendAll_allocator (s := u.amid s.frames) h.reachable.sound.allocator hsent
  have hframes : t.frames = v.frames.map fun f => f.forget [s.allocator.firstFree] :=
    (reclaim_frames hback :)
  have hlast : t.emissions = v.emissions := (reclaim_emissions hback :)
  have hgrown := reclaim_grown v [s.allocator.firstFree]
  have hreturned := reclaim_isLive hsound (congrArg Prod.fst hback)
  rw [hback] at hgrown hreturned
  have hwide : u.circuit.width ≤ t.circuit.width := hwidth ▸ hgrown.width_le
  refine ⟨ht, hplain'.congr ?_, fun q => ?_, h.width.trans hwide, ?_, fun e he => ?_⟩
  · rw [hframes, FrameStack.toList_map, List.map_map]
    rfl
  · rw [Bool.eq_iff_iff]
    refine (hreturned q).trans ?_
    rw [hlive, h.live, List.mem_singleton]
    -- the flag was not in use before it was allocated
    constructor
    · rintro ⟨hq | hq, hne⟩
      · exact hq
      · exact absurd hq hne
    · intro hq
      refine ⟨.inl hq, fun heq => ?_⟩
      rw [heq, h.fresh] at hq
      exact Bool.false_ne_true hq
  · rw [hlast, hout]
    exact congrArg (· ++ _) h.emissions
  · exact GateKind.Fits.mono (hfits e he) hwide

omit [Scalar R] in
theorem enter_keeps {environment : Environment} {label : String} {id : FrameId}
    (h : s.enter environment label = (.ok id, t)) : t.allocator = s.allocator ∧
      t.circuit = s.circuit ∧ t.frames = s.frames.push (.new id environment label) := by
  obtain ⟨rfl, rfl⟩ := enter_eq h
  exact ⟨rfl, rfl, rfl⟩

end Session

namespace Build

open Session

theorem askInto_ok {question : QubitId → Build R SessionError Unit} {s s₁ t : Session R}
    (hs : s.Reachable) {label : String} {id : FrameId} {flag : QubitId}
    (henter : s.enter .conjugation label = (.ok id, s₁))
    (h : exec (askInto question) s₁ = (.ok flag, t)) :
    flag = s.allocator.firstFree ∧ ∃ s₂, s.Flagged id label s₂ ∧
      exec (question flag) s₂ = (.ok (), t) := by
  obtain ⟨q, s₂, hone, h⟩ := exec_bind_ok h
  obtain ⟨_, s₃, hquestion, hpure⟩ := exec_bind_ok h
  obtain ⟨hq, rfl⟩ := Prod.mk.inj hpure
  obtain rfl := Except.ok.inj hq
  unfold allocateOne at hone
  rw [map_eq_pure_bind] at hone
  obtain ⟨qs, s₄, hallocate, hhead⟩ := exec_bind_ok hone
  have hgrant := exec_step_ok hallocate
  have hs₁ := hs.entered henter
  obtain rfl := hs₁.allocate_one hgrant
  obtain ⟨hq, rfl⟩ := Prod.mk.inj hhead
  obtain rfl : s₁.allocator.firstFree = q := Except.ok.inj hq
  have hs₄ : s₄.Reachable := (Public.allocate 1 "flag").reachable hs₁ hallocate
  -- the frame is opened, and the flag is given to it
  obtain ⟨hallocator, hcircuit, hopened⟩ := enter_keeps henter
  obtain ⟨hframes, after, hafter, hs₄a⟩ := allocate_ok hgrant
  obtain ⟨-, hfresh, -, hlive⟩ := Allocator.allocate_spec hs₁.sound.allocator hafter
  have hgrown := allocate_grown s₁ 1 "flag"
  have hkept := allocate_emissions hgrant
  rw [hallocator] at hframes hfresh hlive ⊢
  rw [hgrant, hcircuit] at hgrown
  rw [hopened] at hframes
  refine ⟨rfl, s₄, ⟨hs₄, ?_, hfresh _ List.mem_cons_self, fun q => ?_, hgrown.width_le, ?_⟩, ?_⟩
  · have howns : s₄.frames =
        s.frames.push ((Frame.new id .conjugation label).own [s.allocator.firstFree]) := hframes
    show { s₄ with nextFrame := 0 } = { s₄ with nextFrame := 0, frames := s.frames.push _ }
    rw [← howns]
  · rw [hs₄a, hlive, List.mem_singleton]
  · exact hkept.trans (congrArg (fun c => c.instructions.toList) hcircuit)
  · rw [hallocator] at hquestion
    exact hquestion

/-- A construction appends the placements of a program on the lowest free qubit, wherever it
succeeds inside plain frames, and leaves the same qubits in use. -/
def Writes (b : Build R SessionError Unit) (p : QubitId → Program R) : Prop :=
  ∀ s t : Session R, s.Reachable → s.frames.Plain → b.exec s = (.ok (), t) →
    s.Added t (p s.allocator.firstFree).placements

theorem writes_pure : Writes (pure () : Build R SessionError Unit) fun _ => .skip := by
  intro s t hs hplain h
  obtain rfl := (Prod.mk.inj h).2
  exact hs.added_nil hplain

theorem Writes.bind {b k : Build R SessionError Unit} {p q : QubitId → Program R}
    (hb : b.Writes p) (hk : k.Writes q) :
    Writes (b >>= fun _ => k) fun flag => .seq (p flag) (q flag) := by
  intro s t hs hplain h
  obtain ⟨_, s₁, hfirst, hrest⟩ := exec_bind_ok h
  have hadded := hb s s₁ hs hplain hfirst
  have hadded' := hk s₁ t hadded.reachable hadded.plain hrest
  rw [hadded.firstFree] at hadded'
  exact hadded.trans hadded'

theorem writes_conjugate (label : String) (p a : QubitId → Program R) :
    Writes (conjugate label (askInto fun flag => (p flag).build) fun flag => (a flag).build)
      fun flag => .conjugate label (p flag) (a flag) := by
  intro s t hs hplain h
  have hpublic := Public.conjugate label (Public.askInto fun flag => (p flag).public)
    fun flag => (a flag).public
  have ht : t.Reachable := hpublic.reachable hs h
  obtain ⟨id, s₁, s₅, henter, hexec, hexit⟩ := exec_within_ok h
  obtain ⟨flag, s₃, hask, hexec⟩ := exec_bind_ok hexec
  obtain ⟨_, s₄, hbegin, hact⟩ := exec_bind_ok hexec
  obtain ⟨rfl, s₂, hflagged, hcompute⟩ := askInto_ok hs henter hask
  have hholds : ((Frame.new id .conjugation label).own [s.allocator.firstFree]).Holds id
      .conjugation .compute [s.allocator.firstFree] ([] : List (Placement R)) :=
    (Frame.holds_new id .conjugation label).own [s.allocator.firstFree]
  obtain ⟨v, hsent, hback⟩ := Program.conjugation_sends (Program.sends_build _)
    (Program.sends_build _) hholds hflagged.inside hcompute (exec_step_ok hbegin) hact hexit
  exact hflagged.added hplain hsent hback ht

theorem writes_sharedStep (question : QubitId → Program R) (forward backward : Program R) :
    Writes (sharedStep (fun flag => (question flag).build) forward.build backward.build)
      fun flag => IterationStrategy.shared.step flag (question flag) forward backward :=
  writes_conjugate "predicate" question fun flag => .seq (.control [flag] forward)
    (.conjugate "negate" (.apply (.ofStandard .x) [flag]) (.control [flag] backward))

theorem writes_naiveStep (question : QubitId → Program R) (forward backward : Program R) :
    Writes (naiveStep (fun flag => (question flag).build) forward.build backward.build)
      fun flag => IterationStrategy.naive.step flag (question flag) forward backward := by
  have hforward := writes_conjugate "predicate" question fun flag => .control [flag] forward
  have hbackward := writes_conjugate "predicate"
    (fun flag => .seq (question flag) (.apply (.ofStandard .x) [flag]))
    fun flag => .control [flag] backward
  -- the negation belongs to the question that is asked for the move backward
  have hnegated : (askInto fun flag =>
      (Program.seq (question flag) (.apply (.ofStandard .x) [flag])).build) =
        askInto (fun flag => (question flag).build) >>= fun flag =>
          (x flag >>= fun _ => pure flag : Build R SessionError QubitId) := by
    simp only [askInto, Program.build, bind_assoc, pure_bind]
    rfl
  rw [hnegated] at hbackward
  exact hforward.bind hbackward

theorem writes_countUp {f : ℕ → Build R SessionError Unit} {p : ℕ → QubitId → Program R}
    (hf : ∀ k, (f k).Writes (p k)) (count first : ℕ) :
    Writes (countUp f count first) fun flag => .countUp (fun k => p k flag) count first := by
  induction count generalizing first with
  | zero => exact writes_pure
  | succ count ih => exact (hf first).bind (ih (first + 1))

theorem iterate_appends {s t : Session R} (hs : s.Reachable) (hplain : s.frames.Plain) {steps : ℕ}
    {strategy : IterationStrategy} {predicate : ℕ → QubitId → Program R}
    {forward backward : ℕ → Program R} {report : IterationReport}
    (h : exec (iterate steps strategy (fun k flag => (predicate k flag).build)
      (fun k => (forward k).build) fun k => (backward k).build) s = (.ok report, t)) :
    t.emissions = s.emissions ++ (strategy.walk steps predicate forward backward
        s.allocator.firstFree).placements.map Placement.instruction ∧
      ∀ e ∈ (strategy.walk steps predicate forward backward s.allocator.firstFree).placements,
        e.gate.kind.Fits t.circuit.width e.qubits := by
  obtain ⟨id, s₁, s₂, henter, hexec, hexit⟩ := exec_within_ok h
  obtain ⟨_, s₃, hwalk, hpure⟩ := exec_bind_ok hexec
  obtain rfl : s₃ = s₂ := (Prod.mk.inj hpure).2
  have hs₁ := hs.entered henter
  obtain ⟨hallocator, hcircuit, hopened⟩ := enter_keeps henter
  have hplain₁ : s₁.frames.Plain := by
    rw [hopened]
    intro f hf
    rcases List.mem_cons.1 hf with rfl | hf
    · exact .inr rfl
    · exact hplain f hf
  have hadded : s₁.Added s₃ (strategy.walk steps predicate forward backward
      s₁.allocator.firstFree).placements := by
    cases strategy with
    | shared =>
      exact writes_countUp (fun k => writes_sharedStep (predicate k) (forward k) (backward k)) steps 0
        s₁ s₃ hs₁ hplain₁ hwalk
    | naive =>
      exact writes_countUp (fun k => writes_naiveStep (predicate k) (forward k) (backward k)) steps 0
        s₁ s₃ hs₁ hplain₁ hwalk
  rw [hallocator] at hadded
  -- the frame of the walk has nothing to send when it is closed
  have hgrown := exit_grown s₃ id
  rw [hexit] at hgrown
  obtain ⟨parent, rest, s₄, s₅, -, -, hreplay, -, hback, rfl⟩ := exit_ok hexit
  have hnothing : s₄ = s₃.popped parent rest := by
    have hdue : s₃.frames.top.due = [] := by
      rcases hadded.plain s₃.frames.top List.mem_cons_self with he | he <;>
      · exact Frame.due_eq_nil (by simp [he]) (by simp [he])
    rw [replay_eq, hdue] at hreplay
    exact (Prod.mk.inj hreplay).2.symm
  have hlast : s₅.emissions = s₃.emissions := by
    rw [reclaim_emissions hback, hnothing]
    rfl
  refine ⟨?_, fun e he => GateKind.Fits.mono (hadded.fits e he) hgrown.width_le⟩
  have hsame : s₁.emissions = s.emissions := congrArg (fun c => c.instructions.toList) hcircuit
  show s₅.emissions = _
  rw [hlast, hadded.emissions, hsame]

end Build

/-! ## The operator of a walk -/

section Operator

open Placement

variable {read : ClbitId → Bool} {b : Bindings ℝ} {n : ℕ}

theorem Operator.uncompute_recompute {U : Operator ℂ} (hU : IsUnit U) (X F B : Operator ℂ) :
    Ring.inverse (X * U) * B * (X * U) * (Ring.inverse U * F * U) =
      Ring.inverse U * (Ring.inverse X * B * X * F) * U := by
  have hcancel : U * (Ring.inverse U * F * U) = F * U := by
    rw [mul_assoc, ← mul_assoc U, Ring.mul_inverse_cancel U hU, one_mul]
  calc Ring.inverse (X * U) * B * (X * U) * (Ring.inverse U * F * U)
      = Ring.inverse (X * U) * B * X * (U * (Ring.inverse U * F * U)) := by simp only [mul_assoc]
    _ = Ring.inverse U * Ring.inverse X * B * X * (F * U) := by
        rw [hcancel, Ring.inverse_mul (.inr hU)]
    _ = Ring.inverse U * (Ring.inverse X * B * X * F) * U := by simp only [mul_assoc]

namespace Program

theorem forall_mem_conjugate {label : String} {compute act : Program ℝ} {P : Placement ℝ → Prop}
    (h : ∀ e ∈ (conjugate label compute act).placements, P e) :
    (∀ e ∈ compute.placements, P e.shielded) ∧ ∀ e ∈ act.placements, P e := by
  constructor
  · intro e he
    exact h _ (List.mem_append_left _ (List.mem_append_left _ (List.mem_map_of_mem he)))
  · exact fun e he => h e (List.mem_append_left _ (List.mem_append_right _ he))

theorem compose_seq (p q : Program ℝ) :
    compose read b (seq p q).placements =
      compose read b q.placements * compose read b p.placements :=
  compose_append p.placements q.placements

variable (read) in
theorem compose_conjugate {compute : Program ℝ}
    (h : ∀ e ∈ compute.placements, e.shielded.Ready b ∧ e.shielded.Fits n) (label : String)
    (act : Program ℝ) :
    IsUnit (compose read b compute.placements) ∧
      compose read b (conjugate label compute act).placements =
        Ring.inverse (compose read b compute.placements) * compose read b act.placements *
          compose read b compute.placements := by
  have hready : ∀ e ∈ compute.placements, e.Ready b := fun e he =>
    ⟨(h e he).1.rooted, (h e he).1.angles⟩
  have hfits : ∀ e ∈ compute.placements, e.Fits n := fun e he => (h e he).2
  exact ⟨(compose_undone hready hfits).1, Placement.compose_conjugate hready hfits⟩

theorem mem_countUp_iff {p q : ℕ → Program ℝ} {e : Placement ℝ}
    (h : ∀ k, e ∈ (p k).placements ↔ e ∈ (q k).placements) (count first : ℕ) :
    e ∈ (countUp p count first).placements ↔ e ∈ (countUp q count first).placements := by
  induction count generalizing first with
  | zero => exact Iff.rfl
  | succ count ih =>
    have hsplit : ∀ r : ℕ → Program ℝ, e ∈ (countUp r (count + 1) first).placements ↔
        e ∈ (r first).placements ∨ e ∈ (countUp r count (first + 1)).placements :=
      fun _ => List.mem_append
    rw [hsplit, hsplit, h, ih]

theorem Ready.countUp {p : ℕ → Program ℝ} (h : ∀ k, (p k).Ready b) (count first : ℕ) :
    (countUp p count first).Ready b := by
  induction count generalizing first with
  | zero => exact fun _ hx => absurd hx List.not_mem_nil
  | succ count ih => exact fun x hx => (List.mem_append.1 hx).elim (h first x) (ih (first + 1) x)

theorem compose_countUp {p q : ℕ → Program ℝ} {P : Placement ℝ → Prop}
    (h : ∀ k, (∀ e ∈ (p k).placements, P e) →
      compose read b (p k).placements = compose read b (q k).placements) (count first : ℕ)
    (hall : ∀ e ∈ (countUp p count first).placements, P e) :
    compose read b (countUp p count first).placements =
      compose read b (countUp q count first).placements := by
  induction count generalizing first with
  | zero => rfl
  | succ count ih =>
    have hfirst : compose read b (p first).placements = compose read b (q first).placements :=
      h first fun e he => hall e (List.mem_append_left _ he)
    have hrest := ih (first + 1) fun e he => hall e (List.mem_append_right _ he)
    rw [countUp, countUp, compose_seq, compose_seq, hfirst, hrest]

end Program

namespace IterationStrategy

variable {flag : QubitId} {question forward backward : Program ℝ}

theorem mem_step_iff {e : Placement ℝ} :
    e ∈ (shared.step flag question forward backward).placements ↔
      e ∈ (naive.step flag question forward backward).placements := by
  simp only [step, Program.placements, List.map_append, List.reverse_append, List.mem_append]
  tauto

theorem ready_step (hquestion : question.Ready b) (hforward : forward.Ready b)
    (hbackward : backward.Ready b) : (shared.step flag question forward backward).Ready b := by
  intro x hx
  rcases List.mem_append.1 hx with hx | hx
  · exact hquestion x hx
  rcases List.mem_append.1 hx with hx | hx
  · exact hforward x hx
  rcases List.mem_append.1 hx with hx | hx
  · obtain rfl := List.mem_singleton.1 hx
    exact ⟨GateKind.isRooted_standard _, [], rfl⟩
  · exact hbackward x hx

theorem compose_step (h : ∀ e ∈ (shared.step flag question forward backward).placements,
    e.Ready b ∧ e.Fits n) :
    compose read b (shared.step flag question forward backward).placements =
      compose read b (naive.step flag question forward backward).placements := by
  let negation : Program ℝ := .apply (.ofStandard .x) [flag]
  let onward : Program ℝ := .control [flag] forward
  let back : Program ℝ := .control [flag] backward
  obtain ⟨hquestion, hmoves⟩ := Program.forall_mem_conjugate h
  have hback : ∀ e ∈ (Program.conjugate "negate" negation back).placements,
      e.Ready b ∧ e.Fits n := fun e he => hmoves e (List.mem_append_right _ he)
  obtain ⟨hnegation, -⟩ := Program.forall_mem_conjugate hback
  have hboth : ∀ e ∈ (Program.seq question negation).placements,
      e.shielded.Ready b ∧ e.shielded.Fits n := fun e he =>
    (List.mem_append.1 he).elim (hquestion e) (hnegation e)
  have hanswer := fun act => Program.compose_conjugate read hquestion "predicate" act
  have hrefusal := Program.compose_conjugate read hboth "predicate" back
  have hnegated := Program.compose_conjugate read hnegation "negate" back
  show compose read b (Program.conjugate "predicate" question
      (.seq onward (.conjugate "negate" negation back))).placements =
    compose read b (Program.seq (.conjugate "predicate" question onward)
      (.conjugate "predicate" (.seq question negation) back)).placements
  rw [(hanswer _).2, Program.compose_seq, Program.compose_seq, hnegated.2, (hanswer _).2, hrefusal.2,
    Program.compose_seq, Operator.uncompute_recompute (hanswer onward).1]

variable {steps : ℕ} {predicate : ℕ → QubitId → Program ℝ} {forwards backwards : ℕ → Program ℝ}

theorem mem_walk_iff {e : Placement ℝ} :
    e ∈ (shared.walk steps predicate forwards backwards flag).placements ↔
      e ∈ (naive.walk steps predicate forwards backwards flag).placements :=
  Program.mem_countUp_iff (fun _ => mem_step_iff) steps 0

variable (read) in
theorem compose_walk (hready : ∀ e ∈ (shared.walk steps predicate forwards backwards flag).placements,
      e.Ready b)
    (hfits : ∀ e ∈ (shared.walk steps predicate forwards backwards flag).placements, e.Fits n) :
    compose read b (shared.walk steps predicate forwards backwards flag).placements =
      compose read b (naive.walk steps predicate forwards backwards flag).placements :=
  Program.compose_countUp (fun _ => compose_step) steps 0 fun e he => ⟨hready e he, hfits e he⟩

end IterationStrategy

end Operator

/-! ## What a walk denotes -/

/-- Instructions are lowered to steps that change the amplitudes of every register of at least
`width` qubits by an operator, which may depend on the classical bits that are read. -/
def Denotes (width : ℕ) (b : Bindings ℝ) (l : List (Instruction ℝ))
    (A : (ClbitId → Bool) → Operator ℂ) : Prop :=
  ∀ collapse, ∃ steps, Step.ofInstructions b collapse l = .ok steps ∧
    ∀ {σ : Type} [DrawSource σ ℝ] (t : Trajectory ℂ σ), width ≤ t.state.numQubits →
      t.state.amplitudes.size = 2 ^ t.state.numQubits →
      ∃ v, v.size = t.state.amplitudes.size ∧ t.run steps = t.withAmplitudes v ∧
        amplitudes v = A t.read (amplitudes t.state.amplitudes)

namespace Placement

variable {b : Bindings ℝ} {e : Placement ℝ} {es : List (Placement ℝ)}

theorem ready_of_lowered {collapse : Bool} {steps : List (Step ℂ)}
    (h : Step.ofInstruction b collapse e.instruction = .ok steps) : e.Ready b := by
  obtain ⟨as, ks, has, hks, -⟩ := (Step.ofInstruction_gate_iff rfl).1 h
  exact ⟨Kernel.isRooted_of_lower hks, as, has⟩

theorem forall_ready_of_lowered {collapse : Bool} {steps : List (Step ℂ)}
    (h : Step.ofInstructions b collapse (es.map instruction) = .ok steps) : ∀ e ∈ es, e.Ready b := by
  intro e he
  obtain ⟨steps', hsteps'⟩ :=
    Step.exists_ofInstructions_iff.1 ⟨steps, h⟩ e.instruction (List.mem_map_of_mem he)
  exact ready_of_lowered hsteps'

theorem denotes_compose (hready : ∀ e ∈ es, e.Ready b) {width : ℕ} (hfits : ∀ e ∈ es, e.Fits width) :
    Denotes width b (es.map instruction) fun read => compose read b es := by
  intro collapse
  obtain ⟨steps, hsteps, -⟩ := run_steps (ℕ → ℝ) hready hfits collapse
  refine ⟨steps, hsteps, fun {σ} _ t hwidth hsize => ?_⟩
  -- in a wider register the same steps are run
  have hwide : ∀ e ∈ es, e.Fits t.state.numQubits := fun e he =>
    GateKind.Fits.mono (hfits e he) hwidth
  obtain ⟨steps', hsteps', hrun⟩ := run_steps σ hready hwide collapse
  obtain rfl : steps' = steps := Except.ok.inj (hsteps'.symm.trans hsteps)
  obtain ⟨v, hv, hlast, hamplitudes⟩ := hrun t hsize
  exact ⟨v, hv.trans hsize.symm, hlast, hamplitudes⟩

end Placement

/-- Computing the answer of each step once or for each move makes no difference. Where a walk whose
questions and moves are programs is compiled with either strategy, from the same session without an
open environment, the instructions that are emitted denote the same operator, on the flag too. They
do so for all values of symbols with which the gates of the programs have a meaning, and as soon as
one of the two lists of instructions can be lowered. -/
theorem Build.iterate_strategies_agree {s s₁ s₂ : Session ℝ} (hs : s.Reachable) (hopen : s.numOpen = 0)
    (steps : ℕ) (predicate : ℕ → QubitId → Program ℝ) (forward backward : ℕ → Program ℝ)
    {report₁ report₂ : IterationReport}
    (hshared : exec (iterate steps .shared (fun k flag => (predicate k flag).build)
      (fun k => (forward k).build) fun k => (backward k).build) s = (.ok report₁, s₁))
    (hnaive : exec (iterate steps .naive (fun k flag => (predicate k flag).build)
      (fun k => (forward k).build) fun k => (backward k).build) s = (.ok report₂, s₂)) :
    ∃ l₁ l₂, s₁.emissions = s.emissions ++ l₁ ∧ s₂.emissions = s.emissions ++ l₂ ∧
      ∀ b, ((∀ k flag, (predicate k flag).Ready b ∧ (forward k).Ready b ∧ (backward k).Ready b) ∨
          ∃ collapse, ∃ lowered : List (Step ℂ), Step.ofInstructions b collapse l₁ = .ok lowered ∨
            Step.ofInstructions b collapse l₂ = .ok lowered) →
        ∃ A, Denotes s₁.circuit.width b l₁ A ∧ Denotes s₂.circuit.width b l₂ A := by
  have hplain := hs.plain hopen
  obtain ⟨hout₁, hfits₁⟩ := iterate_appends hs hplain hshared
  obtain ⟨hout₂, hfits₂⟩ := iterate_appends hs hplain hnaive
  refine ⟨_, _, hout₁, hout₂, fun b hmeaning => ?_⟩
  -- both walks consist of the same placements, so it is enough to look at those of one
  have hready : ∀ e ∈ (IterationStrategy.shared.walk steps predicate forward backward
      s.allocator.firstFree).placements, e.Ready b := by
    intro e he
    rcases hmeaning with hgates | ⟨collapse, lowered, hlowered | hlowered⟩
    · have hstep : ∀ k, (IterationStrategy.shared.step s.allocator.firstFree
          (predicate k s.allocator.firstFree) (forward k) (backward k)).Ready b := by
        intro k
        obtain ⟨hpredicate, hforward, hbackward⟩ := hgates k s.allocator.firstFree
        exact IterationStrategy.ready_step hpredicate hforward hbackward
      exact ((Program.Ready.countUp hstep steps 0).placements e he).1
    · exact Placement.forall_ready_of_lowered hlowered e he
    · exact Placement.forall_ready_of_lowered hlowered e (IterationStrategy.mem_walk_iff.1 he)
  have hsame := fun read => IterationStrategy.compose_walk read hready hfits₁
  refine ⟨_, Placement.denotes_compose hready hfits₁, ?_⟩
  rw [funext hsame]
  exact Placement.denotes_compose (fun e he => hready e (IterationStrategy.mem_walk_iff.2 he)) hfits₂

theorem Build.iterate_strategies_agree_two_steps :
    ∃ (s s₁ s₂ : Session ℝ) (predicate : ℕ → QubitId → Program ℝ) (backward : Program ℝ),
      s = (Session.new {}).after [.allocate 3 "q"] ∧
      predicate = (fun k flag => .apply (.ofStandard .cx) [k, flag]) ∧
      backward = .conjugate "turn" (.apply (.ofStandard .h) [2]) (.invert (.apply (.ofStandard .t) [2])) ∧
      exec (iterate 2 .shared (fun k flag => (predicate k flag).build) (fun _ => x 2)
        fun _ => backward.build) s = (.ok ⟨2, 2⟩, s₁) ∧
      exec (iterate 2 .naive (fun k flag => (predicate k flag).build) (fun _ => x 2)
        fun _ => backward.build) s = (.ok ⟨2, 4⟩, s₂) ∧
      ∃ l₁ l₂ A, s₁.emissions = s.emissions ++ l₁ ∧ s₂.emissions = s.emissions ++ l₂ ∧
        Denotes s₁.circuit.width [] l₁ A ∧ Denotes s₂.circuit.width [] l₂ A := by
  let s : Session ℝ := (Session.new {}).after [.allocate 3 "q"]
  let predicate : ℕ → QubitId → Program ℝ := fun k flag => .apply (.ofStandard .cx) [k, flag]
  let forward : Program ℝ := .apply (.ofStandard .x) [2]
  let backward : Program ℝ :=
    .conjugate "turn" (.apply (.ofStandard .h) [2]) (.invert (.apply (.ofStandard .t) [2]))
  let walk (strategy : IterationStrategy) : Build ℝ SessionError IterationReport :=
    iterate 2 strategy (fun k flag => (predicate k flag).build) (fun _ => forward.build)
      fun _ => backward.build
  have hshared : exec (walk .shared) s = (.ok ⟨2, 2⟩, (exec (walk .shared) s).2) :=
    exec_eq (by decide +kernel)
  have hnaive : exec (walk .naive) s = (.ok ⟨2, 4⟩, (exec (walk .naive) s).2) :=
    exec_eq (by decide +kernel)
  have hnamed : ∀ (g : Standard ℝ) (qs : List QubitId), g.parameters = [] →
      (Program.apply (.ofStandard g) qs).Ready [] := by
    intro g qs hg y hy
    obtain rfl := List.mem_singleton.1 hy
    refine ⟨GateKind.isRooted_standard g, [], ?_⟩
    show Step.angles [] g.parameters = .ok []
    rw [hg]
    rfl
  have hback : backward.Ready [] := fun y hy =>
    (List.mem_append.1 hy).elim (hnamed .h [2] rfl y) (hnamed .t [2] rfl y)
  obtain ⟨l₁, l₂, hout₁, hout₂, hdenotes⟩ := iterate_strategies_agree
    ((Session.Reachable.new {}).after [.allocate 3 "q"]) (by decide +kernel) 2 predicate
    (fun _ => forward) (fun _ => backward) hshared hnaive
  obtain ⟨A, hfirst, hsecond⟩ := hdenotes [] (.inl fun k flag =>
    ⟨hnamed .cx [k, flag] rfl, hnamed .x [2] rfl, hback⟩)
  exact ⟨s, _, _, predicate, backward, rfl, rfl, rfl, hshared, hnaive, l₁, l₂, A, hout₁, hout₂,
    hfirst, hsecond⟩

end Ancilla
