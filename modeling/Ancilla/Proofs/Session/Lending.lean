import Ancilla.Proofs.Session.Steady

/-!
Qubits lent to an environment. From the session in which an environment is opened to the one in which
it is closed, some qubits are handed out and some instructions are appended; the qubits were not in
use before, and once they are returned the same qubits are in use as at the start.
-/

namespace Ancilla

variable {R : Type}

namespace Session

variable {s t u : Session R} {work qs : List QubitId} {l m : List (Instruction R)} {id : FrameId}

structure Healthy (s : Session R) : Prop where
  unpoisoned : s.isPoisoned = false
  allocator : s.allocator.Sound
  equipped : s.Equipped
  registers : s.circuit.Registers

theorem Steady.healthy (h : s.Steady) : s.Healthy :=
  ⟨h.unpoisoned, h.allocator, h.equipped, h.registers⟩

theorem Healthy.steady (h : s.Healthy) (hplain : s.frames.Plain) : s.Steady :=
  ⟨h.unpoisoned, hplain, h.allocator, h.equipped, h.registers⟩

theorem Healthy.congr (h : s.Healthy) (hpoison : t.isPoisoned = s.isPoisoned)
    (hallocator : t.allocator = s.allocator) (hcircuit : t.circuit = s.circuit) : t.Healthy := by
  refine ⟨hpoison.trans h.unpoisoned, hallocator ▸ h.allocator, ⟨hcircuit ▸ h.equipped.accepting, ?_⟩,
    hcircuit ▸ h.registers⟩
  rw [hallocator, hcircuit]
  exact h.equipped.wired

theorem allocate_fresh (hs : s.allocator.Sound) {n : ℕ} {name : String}
    (h : s.allocate n name = (.ok qs, t)) :
    qs.Nodup ∧ (∀ q ∈ qs, s.allocator.isLive q = false) ∧
      ∀ q, t.allocator.isLive q = true ↔ s.allocator.isLive q = true ∨ q ∈ qs := by
  obtain ⟨-, a, hgrant, rfl⟩ := allocate_ok h
  obtain ⟨hnodup, hfresh, -, hlive⟩ := Allocator.allocate_spec hs hgrant
  exact ⟨hnodup, hfresh, hlive⟩

theorem allocate_isPoisoned {n : ℕ} {name : String} (h : s.allocate n name = (.ok qs, t)) :
    t.isPoisoned = s.isPoisoned := by
  obtain ⟨_, -, rfl⟩ := granted_of_allocate h
  rfl

theorem Healthy.allocate (h : s.Healthy) {n : ℕ} {name : String}
    (hqs : s.allocate n name = (.ok qs, t)) : t.Healthy := by
  obtain ⟨-, a, hgrant, rfl⟩ := allocate_ok hqs
  obtain ⟨-, -, hsound, hlive⟩ := Allocator.allocate_spec h.allocator hgrant
  have hgrown : Circuit.Grown s.circuit t.circuit := by
    have hgrown := allocate_grown s n name
    rwa [hqs] at hgrown
  refine ⟨(allocate_isPoisoned hqs).trans h.unpoisoned, hsound,
    ⟨h.equipped.accepting.grown hgrown, fun q hq => ?_⟩, h.registers.grown hgrown⟩
  rcases (hlive q).1 hq with hq | hq
  · exact hgrown.wireList (h.equipped.wired q hq)
  · exact allocate_wired h.equipped.accepting hqs hq

/-- What becomes of a session when qubits are handed out and instructions are appended. -/
structure Lent (s : Session R) (work : List QubitId) (l : List (Instruction R)) (t : Session R) :
    Prop where
  nodup : work.Nodup
  fresh : ∀ q ∈ work, s.allocator.isLive q = false
  live : ∀ q, t.allocator.isLive q = true ↔ s.allocator.isLive q = true ∨ q ∈ work
  grown : Circuit.Grown s.circuit t.circuit
  handed : s.circuit.HandsOut t.circuit work
  emissions : t.emissions = s.emissions ++ l

theorem lent_nil (s : Session R) : s.Lent [] [] s :=
  ⟨List.nodup_nil, fun _ hq => absurd hq List.not_mem_nil,
    fun _ => (or_iff_left List.not_mem_nil).symm, .refl, Circuit.handsOut_of_eq rfl,
    (List.append_nil _).symm⟩

theorem Lent.congr (h : s.Lent work l t) (hallocator : u.allocator = t.allocator)
    (hcircuit : u.circuit = t.circuit) : s.Lent work l u := by
  have hemissions : u.emissions = t.emissions :=
    congrArg (fun c => c.instructions.toList) hcircuit
  exact ⟨h.nodup, h.fresh, hallocator ▸ h.live, hcircuit ▸ h.grown, hcircuit ▸ h.handed,
    hemissions.trans h.emissions⟩

theorem Lent.allocate (h : s.Lent work l t) (ht : t.allocator.Sound) {n : ℕ} {name : String}
    (hqs : t.allocate n name = (.ok qs, u)) : s.Lent (work ++ qs) l u := by
  obtain ⟨hnodup, hfresh, hlive⟩ := allocate_fresh ht hqs
  have hgrown : Circuit.Grown t.circuit u.circuit := by
    have hgrown := allocate_grown t n name
    rwa [hqs] at hgrown
  have hdead := fresh_of_live h.live hfresh
  refine ⟨List.nodup_append'.2 ⟨h.nodup, hnodup, fun q hq hmem => (hdead q hmem).2 hq⟩, ?_, ?_,
    h.grown.trans hgrown, h.handed.trans (handsOut_allocate hqs),
    (allocate_emissions hqs).trans h.emissions⟩
  · intro q hq
    exact (List.mem_append.1 hq).elim (h.fresh q) fun hq => (hdead q hq).1
  · intro q
    rw [hlive, h.live, List.mem_append, or_assoc]

theorem Lent.sent (h : s.Lent work l t) (hm : t.Sent m u) : s.Lent work (l ++ m) u := by
  have hhanded := h.handed.trans hm.handed
  rw [List.append_nil] at hhanded
  refine ⟨h.nodup, h.fresh, fun q => ?_, h.grown.trans hm.grown, hhanded, ?_⟩
  · rw [hm.live, h.live]
  · rw [hm.emissions, h.emissions, List.append_assoc]

theorem Lent.reclaim_live (h : s.Lent work l t) (ht : t.allocator.Sound)
    (hok : (t.reclaim work).1 = .ok ()) (q : QubitId) :
    (t.reclaim work).2.allocator.isLive q = s.allocator.isLive q :=
  reclaim_live_eq ht hok h.fresh h.live q

/-! ## Scopes -/

structure Scoped (s : Session R) (id : FrameId) (work : List QubitId) (l : List (Instruction R))
    (t : Session R) : Prop where
  steady : t.Steady
  frames : ∃ f root, t.frames = ⟨f, [root]⟩ ∧ f.Lends id work
  lent : s.Lent work l t

theorem Steady.enter (h : s.Steady) (hopen : s.numOpen = 0) {label : String}
    (henter : s.enter .scope label = (.ok id, t)) : s.Scoped id [] [] t := by
  obtain ⟨rfl, ht⟩ := enter_eq henter
  have hbelow : s.frames.below = [] := List.eq_nil_of_length_eq_zero hopen
  have hframes : t.frames = ⟨.new s.nextFrame .scope label, [s.frames.top]⟩ := by
    rw [ht, ← hbelow]
    rfl
  have hhealthy : t.Healthy := h.healthy.congr (by rw [ht]) (by rw [ht]) (by rw [ht])
  refine ⟨hhealthy.steady ?_, ⟨_, _, hframes, rfl, rfl, rfl, rfl⟩,
    s.lent_nil.congr (by rw [ht]) (by rw [ht])⟩
  rw [hframes]
  intro f hf
  rcases List.mem_cons.1 hf with rfl | hf
  · exact .inl rfl
  · rw [List.mem_singleton.1 hf]
    exact h.plain s.frames.top List.mem_cons_self

theorem Scoped.allocate (h : s.Scoped id work l t) {n : ℕ} {name : String}
    (hqs : t.allocate n name = (.ok qs, u)) : s.Scoped id (work ++ qs) l u := by
  obtain ⟨f, root, hframes, hlends⟩ := h.frames
  have hafter : u.frames = ⟨f.own qs, [root]⟩ := by
    rw [(allocate_ok hqs).1, hframes]
    rfl
  refine ⟨(h.steady.healthy.allocate hqs).steady (h.steady.plain.congr ?_),
    ⟨f.own qs, root, hafter, hlends.id, hlends.environment, congrArg (· ++ qs) hlends.owned,
      hlends.exported⟩, h.lent.allocate h.steady.allocator hqs⟩
  rw [hafter, hframes]
  rfl

theorem Scoped.sent (h : s.Scoped id work l t) (hm : t.Sent m u) : s.Scoped id work (l ++ m) u := by
  obtain ⟨f, root, hframes, hlends⟩ := h.frames
  have hkin := hm.kin
  rw [hframes] at hkin
  obtain ⟨f', l', hf', hl', htop⟩ := List.forall₂_cons_left_iff.1 hkin
  obtain ⟨root', l'', -, hl'', rfl⟩ := List.forall₂_cons_left_iff.1 hl'
  obtain rfl := List.forall₂_nil_left_iff.1 hl''
  obtain ⟨htop, hbelow⟩ := List.cons.inj htop
  exact ⟨hm.steady, ⟨f', root', congrArg₂ FrameStack.mk htop hbelow, hlends.kin hf'⟩, h.lent.sent hm⟩

theorem Scoped.of_outline (h : s.Scoped id work l t) (ho : u.outline = t.outline) :
    s.Scoped id work l u := by
  have hsent := h.sent (h.steady.sent.of_outline ho)
  rwa [List.append_nil] at hsent

theorem assertRestored_outline (h : s.assertRestored qs = (.ok (), t)) : t.outline = s.outline := by
  obtain hrefused | heq := s.assertRestored_cases qs
  · exact (hrefused.not_ok h).elim
  · obtain rfl := (Prod.mk.inj (heq.symm.trans h)).2
    exact outline_eraseMarks s qs

theorem Scoped.exit [Scalar R] (h : s.Scoped id work l t) (hexit : t.exit id = (.ok (), u)) :
    u.Steady ∧ u.numOpen = 0 ∧ (∀ q, u.allocator.isLive q = s.allocator.isLive q) ∧
      Circuit.Grown t.circuit u.circuit ∧ s.circuit.HandsOut u.circuit work ∧
      u.emissions = s.emissions ++ l := by
  obtain ⟨f, root, hframes, hlends⟩ := h.frames
  obtain ⟨parent, rest, t₁, t₂, hbelow, -, hreplay, -, hback, rfl⟩ := exit_ok hexit
  rw [hframes] at hbelow hreplay hback ⊢
  obtain ⟨rfl, rfl⟩ := List.cons.inj hbelow
  have hreclaim : f.toReclaim = work := by
    rw [Frame.toReclaim, hlends.owned, hlends.exported, filter_not_contains_nil]
  -- a scope owes nothing
  obtain rfl : t.popped root [] = t₁ := by
    rw [replay_eq, hlends.due] at hreplay
    exact (Prod.mk.inj hreplay).2
  rw [hreclaim] at hback
  have hok : ((t.popped root []).reclaim work).1 = .ok () := by rw [hback]
  have hlive := (h.lent.congr (u := t.popped root []) rfl rfl).reclaim_live h.steady.allocator hok
  have hgrown := exit_grown t id
  have hhanded := handsOut_reclaim (t.popped root []) work
  obtain ⟨hsound, -⟩ := reclaim_allocator (s := t.popped root []) h.steady.allocator hok
  obtain ⟨hemissions, -, hpoison⟩ := reclaim_keeps (t.popped root []) work
  rw [hback] at hlive hhanded hsound hemissions hpoison
  rw [hexit] at hgrown
  have hall := h.lent.handed.trans hhanded
  rw [List.append_nil] at hall
  have hbare : ∀ q, t₂.allocator.isLive q = true → t.allocator.isLive q = true := fun q hq =>
    (h.lent.live q).2 (.inl (hlive q ▸ hq))
  have hhealthy : Healthy { t₂ with frames := t₂.frames.modifyTop fun g => g.own f.exported } :=
    ⟨hpoison.trans h.steady.unpoisoned, hsound, ⟨h.steady.equipped.accepting.grown hgrown,
      fun q hq => hgrown.wireList (h.steady.equipped.wired q (hbare q hq))⟩,
      h.steady.registers.grown hgrown⟩
  have hleft : t₂.frames = ⟨root.forget work, []⟩ := reclaim_frames hback
  refine ⟨hhealthy.steady ?_, ?_, hlive, hgrown, hall, hemissions.trans h.lent.emissions⟩
  · intro g hg
    rw [hleft] at hg
    rw [List.mem_singleton.1 hg]
    refine h.steady.plain root ?_
    rw [hframes]
    exact List.mem_cons_of_mem _ List.mem_cons_self
  · show t₂.frames.below.length = 0
    rw [hleft]
    rfl

end Session

namespace Build

variable {ε : Type} [FromSession ε] {s t : Session R}

theorem allocateOne_ok {name : String} {q : QubitId}
    (h : exec (allocateOne name : Build R ε QubitId) s = (.ok q, t)) :
    s.allocate 1 name = (.ok [q], t) := by
  unfold allocateOne at h
  rw [map_eq_pure_bind] at h
  obtain ⟨qs, t₁, hallocate, hpure⟩ := exec_bind_ok h
  have hgrant := exec_step_ok hallocate
  obtain ⟨p, rfl⟩ := List.length_eq_one_iff.1 (Session.length_allocate hgrant)
  obtain ⟨hq, rfl⟩ := Prod.mk.inj (show (Except.ok p, t₁) = (.ok q, t) from hpure)
  rw [← Except.ok.inj hq]
  exact hgrant

end Build

end Ancilla
