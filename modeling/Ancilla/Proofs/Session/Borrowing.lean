import Ancilla.Proofs.Session.Realizing

/-!
Constructions with qubits of their own. A session between environments opens a scope and allocates
qubits in it, gates on qubits in use pass the scope and the root without a refusal, and once the
qubits are declared restored the scope is closed and the same qubits are in use as before.
-/

namespace Ancilla

namespace Allocator

theorem allocate_of_unlimited {a : Allocator} (h : a.capacity = none) (n : ℕ) :
    ∃ qs a', a.allocate n = (.ok qs, a') ∧ qs.length = n ∧ a'.capacity = none := by
  have hfault : a.capacityFault? n = none := by
    unfold capacityFault?
    rw [h]
  obtain ⟨hcapacity, -, -⟩ := takeMany_keeps n a
  unfold allocate
  rw [hfault]
  exact ⟨_, _, rfl, length_takeMany n a, hcapacity.trans h⟩

theorem capacity_foldl_markEntangled (qs : List QubitId) (a : Allocator) :
    (qs.foldl markEntangled a).capacity = a.capacity := by
  induction qs generalizing a with
  | nil => rfl
  | cons q qs ih =>
    rw [List.foldl_cons, ih, markEntangled]
    split <;> rfl

theorem capacity_deallocate (a : Allocator) (qs : List QubitId) :
    (a.deallocate qs).2.capacity = a.capacity := by
  unfold deallocate
  split
  · rfl
  · exact (foldl_reclaim_keeps qs a).1

end Allocator

variable {R : Type}

/-! ## Allocations -/

def AllocationEvent.allocated? : AllocationEvent → Option QubitId
  | .allocate q _ => some q
  | .release _ _ => none

namespace Circuit

def HandsOut (c c' : Circuit R) (qs : List QubitId) : Prop :=
  ∃ events, c'.timeline.toList = c.timeline.toList ++ events ∧
    events.filterMap AllocationEvent.allocated? = qs

theorem handsOut_of_eq {c c' : Circuit R} (h : c'.timeline = c.timeline) : c.HandsOut c' [] :=
  ⟨[], by rw [h, List.append_nil], rfl⟩

theorem HandsOut.trans {c c' c'' : Circuit R} {ps qs : List QubitId} (h : c.HandsOut c' ps)
    (h' : c'.HandsOut c'' qs) : c.HandsOut c'' (ps ++ qs) := by
  obtain ⟨events, htimeline, hps⟩ := h
  obtain ⟨events', htimeline', hqs⟩ := h'
  refine ⟨events ++ events', ?_, ?_⟩
  · rw [htimeline', htimeline, List.append_assoc]
  · rw [List.filterMap_append, hps, hqs]

theorem handsOut_registerQubit (c : Circuit R) (q : Qubit) :
    c.HandsOut (c.registerQubit q) [q.id] := by
  refine ⟨[.allocate q.id c.instructions.size], ?_, rfl⟩
  obtain ⟨-, hq⟩ | ⟨-, hq⟩ := c.registerQubit_cases q <;> simp [hq]

theorem handsOut_push (c : Circuit R) (i : Instruction R) : c.HandsOut (c.push i).2 [] := by
  obtain ⟨g, -, hpush⟩ := c.push_shape i
  rw [hpush]
  exact handsOut_of_eq rfl

theorem handsOut_recordRelease (c : Circuit R) (qs : List QubitId) :
    c.HandsOut (c.recordRelease qs) [] := by
  refine ⟨qs.map fun q => .release q c.instructions.size, by simp [recordRelease], ?_⟩
  rw [List.filterMap_map]
  exact List.filterMap_eq_nil_iff.2 fun _ _ => rfl

end Circuit

namespace Session

theorem handsOut_allocate {s t : Session R} {n : ℕ} {name : String} {qs : List QubitId}
    (h : s.allocate n name = (.ok qs, t)) : s.circuit.HandsOut t.circuit qs := by
  have hfold : ∀ (l : List (QubitId × ℕ)) (c : Circuit R),
      c.HandsOut (l.foldl (fun c p => c.registerQubit ⟨p.1, some name, some p.2⟩) c)
        (l.map Prod.fst) := by
    intro l
    induction l with
    | nil => exact fun c => Circuit.handsOut_of_eq rfl
    | cons p l ih => exact fun c => (c.handsOut_registerQubit _).trans (ih _)
  obtain ⟨a, -, rfl⟩ := granted_of_allocate h
  have hzip := hfold qs.zipIdx s.circuit
  rwa [List.zipIdx_map_fst] at hzip

theorem handsOut_reclaim (s : Session R) (qs : List QubitId) :
    s.circuit.HandsOut (s.reclaim qs).2.circuit [] := by
  obtain ⟨_, -, hback⟩ | ⟨a, -, hback⟩ := s.reclaim_cases qs
  · rw [hback]
    exact Circuit.handsOut_of_eq rfl
  · rw [hback]
    exact s.circuit.handsOut_recordRelease qs

end Session

/-! ## Scopes -/

structure Frame.Lends (f : Frame R) (id : FrameId) (work : List QubitId) : Prop where
  id : f.id = id
  environment : f.environment = .scope
  owned : f.owned = work
  exported : f.exported = []

theorem Frame.Lends.due {f : Frame R} {id : FrameId} {work : List QubitId} (h : f.Lends id work) :
    f.due = [] :=
  due_eq_nil (by simp [h.environment]) (by simp [h.environment])

theorem Frame.Lends.kin {f g : Frame R} {id : FrameId} {work : List QubitId} (h : f.Lends id work)
    (hg : f.Kin g) : g.Lends id work := by
  obtain ⟨_, _, _, _, rfl⟩ := hg
  exact ⟨h.id, h.environment, h.owned, h.exported⟩

theorem Frame.Lends.of_unmarked {f g : Frame R} {id : FrameId} {work : List QubitId}
    (h : f.Lends id work) (hg : g.unmarked = f.unmarked) : g.Lends id work :=
  ⟨(congrArg Frame.id hg :).trans h.id, (congrArg Frame.environment hg :).trans h.environment,
    (congrArg Frame.owned hg :).trans h.owned, (congrArg Frame.exported hg :).trans h.exported⟩

namespace Session

variable {s t u : Session R}

theorem send_of_push (h : s.frames.Plain) {i : Instruction R}
    (hi : (s.circuit.push i).1 = .ok ()) (b : Bool) :
    ∃ t, s.send i b = (.ok (), t) ∧ t.circuit = (s.circuit.push i).2 ∧
      t.allocator.capacity = s.allocator.capacity := by
  have heq := deliver_eq { s with frames := (s.frames.route i b).2 } i
  rw [send_eq_deliver h]
  refine ⟨_, Prod.ext ((deliver_ok_iff _ i).2 hi) rfl, ?_, ?_⟩
  · exact congrArg Session.circuit heq
  · rw [congrArg Session.allocator heq]
    exact Allocator.capacity_foldl_markEntangled _ _

structure Idle (s : Session R) : Prop where
  unpoisoned : s.isPoisoned = false
  closed : s.frames.below = []
  root : s.frames.top.environment = .scope
  unlimited : s.allocator.capacity = none
  allocator : s.allocator.Sound
  equipped : s.Equipped
  registers : s.circuit.Registers

theorem Reachable.idle [Scalar R] {s : Session R} (hs : s.Reachable) (hp : s.isPoisoned = false)
    (hopen : s.numOpen = 0) (hunlimited : s.allocator.capacity = none) : s.Idle := by
  obtain ⟨hclosed, hroot⟩ := hs.closed hopen
  exact ⟨hp, hclosed, hroot, hunlimited, hs.sound.allocator, hs.equipped, hs.registers⟩

theorem Idle.numOpen {s : Session R} (h : s.Idle) : s.numOpen = 0 := by
  rw [Session.numOpen, FrameStack.numOpen, h.closed, List.length_nil]

/-- A session inside one scope, which was opened in `s` and in which `work` was allocated. -/
structure Borrows (s : Session R) (id : FrameId) (work : List QubitId) (t : Session R) : Prop where
  unpoisoned : t.isPoisoned = false
  frames : ∃ f root, t.frames = ⟨f, [root]⟩ ∧ f.Lends id work ∧ root.environment = .scope
  unlimited : t.allocator.capacity = none
  allocator : t.allocator.Sound
  nodup : work.Nodup
  fresh : ∀ q ∈ work, s.allocator.isLive q = false
  live : ∀ q, t.allocator.isLive q = true ↔ s.allocator.isLive q = true ∨ q ∈ work
  grown : Circuit.Grown s.circuit t.circuit
  handed : s.circuit.HandsOut t.circuit work
  wired : ∀ q ∈ work, .qubit q ∈ t.circuit.graph.wireList

variable {id : FrameId} {work : List QubitId}

theorem Borrows.of_outline (h : s.Borrows id work t) (ho : u.outline = t.outline) :
    s.Borrows id work u := by
  obtain ⟨-, hallocator, hcircuit, hframes, hpoison⟩ := outline_eq_iff.1 ho
  obtain ⟨f, root, hf, hlends, hroot⟩ := h.frames
  rw [hf] at hframes
  obtain ⟨htop, hbelow⟩ := FrameStack.mk.inj hframes
  refine ⟨hpoison.trans h.unpoisoned, ?_, hallocator ▸ h.unlimited, hallocator ▸ h.allocator, h.nodup,
    h.fresh, hallocator ▸ h.live, hcircuit ▸ h.grown, hcircuit ▸ h.handed, hcircuit ▸ h.wired⟩
  rcases hu : u.frames.below with _ | ⟨root', _ | ⟨g, rest⟩⟩
  · simp [hu] at hbelow
  · rw [hu] at hbelow
    have hsame := (List.cons.inj hbelow).1
    refine ⟨u.frames.top, root', ?_, hlends.of_unmarked htop, ?_⟩
    · rw [← hu]
    · exact (congrArg Frame.environment hsame :).trans hroot
  · simp [hu] at hbelow

theorem Borrows.equipped (h : s.Borrows id work t) (hs : s.Equipped) : t.Equipped := by
  refine ⟨hs.accepting.grown h.grown, fun q hq => ?_⟩
  rcases (h.live q).1 hq with hq | hq
  · exact h.grown.wireList (hs.wired q hq)
  · exact h.wired q hq

theorem Idle.enter (h : s.Idle) (label : String) :
    s.enter .scope label = (.ok s.nextFrame, s.entered .scope label) ∧
      s.Borrows s.nextFrame [] (s.entered .scope label) := by
  have hcontrols : s.Hosts Environment.scope.controls :=
    ⟨h.unpoisoned, h.allocator, fun q hq => absurd hq List.not_mem_nil⟩
  refine ⟨enter_of_live hcontrols label, ?_⟩
  refine ⟨h.unpoisoned, ⟨.new s.nextFrame .scope label, s.frames.top, ?_, ⟨rfl, rfl, rfl, rfl⟩,
    h.root⟩, h.unlimited, h.allocator, List.nodup_nil, fun q hq => absurd hq List.not_mem_nil,
    fun q => ?_, .refl, Circuit.handsOut_of_eq rfl, fun q hq => absurd hq List.not_mem_nil⟩
  · show FrameStack.mk _ (s.frames.top :: s.frames.below) = _
    rw [h.closed]
  · exact (or_iff_left List.not_mem_nil).symm

theorem fresh_of_live {qs : List QubitId}
    (hlive : ∀ q, t.allocator.isLive q = true ↔ s.allocator.isLive q = true ∨ q ∈ work)
    (hdead : ∀ q ∈ qs, t.allocator.isLive q = false) :
    ∀ q ∈ qs, s.allocator.isLive q = false ∧ q ∉ work := by
  intro q hq
  have hnot : ¬(s.allocator.isLive q = true ∨ q ∈ work) := by
    rw [← hlive, hdead q hq]
    exact Bool.false_ne_true
  rw [not_or] at hnot
  exact ⟨Bool.eq_false_of_not_eq_true hnot.1, hnot.2⟩

theorem Borrows.allocate (h : s.Borrows id work t) (hs : s.Equipped) (n : ℕ) (name : String) :
    ∃ qs t', t.allocate n name = (.ok qs, t') ∧ qs.length = n ∧ s.Borrows id (work ++ qs) t' ∧
      t'.emissions = t.emissions := by
  obtain ⟨f, root, hframes, hlends, hroot⟩ := h.frames
  obtain ⟨qs, a, hgrant, hlength, hunlimited⟩ := Allocator.allocate_of_unlimited h.unlimited n
  obtain ⟨hnodup, hfresh, hsound, hlive⟩ := Allocator.allocate_spec h.allocator hgrant
  -- neither the scope nor the root forbids to hand out qubits
  have hinversion : (t.frames.any fun f => f.environment = .inversion) = false := by
    simp [FrameStack.any, FrameStack.toList, hframes, hlends.environment, hroot]
  have hcall := allocate_of_grant h.unpoisoned hinversion hgrant name
  have hgrown := allocate_grown t n name
  rw [hcall] at hgrown
  have hwired : ∀ q ∈ qs, .qubit q ∈ (t.granted qs a name).circuit.graph.wireList := fun q hq =>
    allocate_wired (h.equipped hs).accepting hcall hq
  have hdead := fresh_of_live h.live hfresh
  refine ⟨qs, _, hcall, hlength, ?_, allocate_emissions hcall⟩
  refine ⟨h.unpoisoned, ?_, hunlimited, hsound, ?_, ?_, ?_, h.grown.trans hgrown,
    h.handed.trans (handsOut_allocate hcall), ?_⟩
  · refine ⟨f.own qs, root, ?_, ?_, hroot⟩
    · rw [granted, hframes]
      rfl
    · exact ⟨hlends.id, hlends.environment, congrArg (· ++ qs) hlends.owned, hlends.exported⟩
  · exact List.nodup_append'.2 ⟨h.nodup, hnodup, fun q hq hmem => (hdead q hmem).2 hq⟩
  · intro q hq
    exact (List.mem_append.1 hq).elim (h.fresh q) fun hq => (hdead q hq).1
  · intro q
    rw [List.mem_append, ← or_assoc, ← h.live]
    exact hlive q
  · intro q hq
    exact (List.mem_append.1 hq).elim (fun hq => hgrown.wireList (h.wired q hq)) (hwired q)

theorem reclaim_allocator {qs : List QubitId} (h : s.allocator.Sound)
    (hok : (s.reclaim qs).1 = .ok ()) : (s.reclaim qs).2.allocator.Sound ∧
      (s.reclaim qs).2.allocator.capacity = s.allocator.capacity := by
  obtain ⟨a, ha, hback⟩ := freed_of_reclaim hok
  have hcapacity := Allocator.capacity_deallocate s.allocator qs
  rw [ha] at hcapacity
  rw [hback]
  exact ⟨(Allocator.deallocate_spec h ha).1, hcapacity⟩

theorem Idle.reclaim {qs : List QubitId} (h : s.Idle) (hok : (s.reclaim qs).1 = .ok ()) :
    (s.reclaim qs).2.Idle := by
  have hback : s.reclaim qs = (.ok (), (s.reclaim qs).2) := Prod.ext hok rfl
  obtain ⟨hsound, hcapacity⟩ := reclaim_allocator h.allocator hok
  obtain ⟨-, -, hpoison⟩ := reclaim_keeps s qs
  have hgrown := reclaim_grown s qs
  have hleft := reclaim_frames hback
  refine ⟨hpoison.trans h.unpoisoned, ?_, ?_, hcapacity.trans h.unlimited, hsound,
    ⟨h.equipped.accepting.grown hgrown, fun q hq => hgrown.wireList (h.equipped.wired q ?_)⟩,
    h.registers.grown hgrown⟩
  · rw [hleft, FrameStack.map, h.closed]
    rfl
  · rw [hleft]
    exact h.root
  · exact ((reclaim_isLive h.allocator hok q).1 hq).1

theorem reclaim_live_of_fresh {kept : List QubitId} (ht : t.allocator.Sound)
    (hok : (t.reclaim work).1 = .ok ()) (hfresh : ∀ q ∈ work, s.allocator.isLive q = false)
    (hlive : ∀ q, t.allocator.isLive q = true ↔ s.allocator.isLive q = true ∨ q ∈ work ++ kept)
    (hapart : work.Disjoint kept) (q : QubitId) :
    (t.reclaim work).2.allocator.isLive q = true ↔ s.allocator.isLive q = true ∨ q ∈ kept := by
  rw [reclaim_isLive ht hok, hlive, List.mem_append]
  constructor
  · rintro ⟨hq | hq | hq, hnot⟩
    · exact .inl hq
    · exact absurd hq hnot
    · exact .inr hq
  · rintro (hq | hq)
    · refine ⟨.inl hq, fun hmem => ?_⟩
      rw [hfresh q hmem] at hq
      exact Bool.false_ne_true hq
    · exact ⟨.inr (.inr hq), fun hmem => hapart hmem hq⟩

theorem reclaim_live_eq (ht : t.allocator.Sound) (hok : (t.reclaim work).1 = .ok ())
    (hfresh : ∀ q ∈ work, s.allocator.isLive q = false)
    (hlive : ∀ q, t.allocator.isLive q = true ↔ s.allocator.isLive q = true ∨ q ∈ work)
    (q : QubitId) : (t.reclaim work).2.allocator.isLive q = s.allocator.isLive q := by
  have hback := reclaim_live_of_fresh (s := s) ht hok hfresh (by simpa using hlive)
    (List.disjoint_nil_right work) q
  rw [Bool.eq_iff_iff, hback]
  exact or_iff_left List.not_mem_nil

theorem Idle.exit_inside [Scalar R] {u u₁ : Session R} (hu : u.Idle) {f : Frame R} (hid : f.id = id)
    (hreplay : u.replay f = (.ok (), u₁)) (hleaked : f.leaked = []) (hu₁ : u₁.Idle)
    (hok : (u₁.reclaim f.toReclaim).1 = .ok ()) :
    ∃ s', (u.inside f).exit id = (.ok (), s') ∧ s'.Idle ∧
      s'.allocator = (u₁.reclaim f.toReclaim).2.allocator ∧
      s'.circuit = (u₁.reclaim f.toReclaim).2.circuit ∧ s'.emissions = u₁.emissions := by
  have hbelow : (u.inside f).frames.below = u.frames.top :: [] := by
    rw [Session.inside, FrameStack.push, hu.closed]
  have hpopped : (u.inside f).popped u.frames.top [] = u := by
    show { u with frames := ⟨u.frames.top, []⟩ } = u
    rw [← hu.closed]
  have hback : u₁.reclaim f.toReclaim = (.ok (), (u₁.reclaim f.toReclaim).2) := Prod.ext hok rfl
  have hexit := exit_of_closed (s := u.inside f) hu.unpoisoned hbelow hid
    (by rw [hpopped]; exact hreplay) hleaked hback
  obtain ⟨hemissions, -, -⟩ := reclaim_keeps u₁ f.toReclaim
  have hu₂ := hu₁.reclaim hok
  exact ⟨_, hexit, ⟨hu₂.unpoisoned, hu₂.closed, hu₂.root, hu₂.unlimited, hu₂.allocator,
    ⟨hu₂.equipped.accepting, hu₂.equipped.wired⟩, hu₂.registers⟩, rfl, rfl, hemissions⟩

theorem Borrows.exit [Scalar R] (h : s.Borrows id work t) (hs : s.Idle)
    (hclean : ∀ q ∈ work, t.frames.top.touched.contains q = false) :
    ∃ u, t.exit id = (.ok (), u) ∧ u.Idle ∧ (∀ q, u.allocator.isLive q = s.allocator.isLive q) ∧
      Circuit.Grown t.circuit u.circuit ∧ t.circuit.HandsOut u.circuit [] ∧
      u.emissions = t.emissions := by
  obtain ⟨f, root, hframes, hlends, hroot⟩ := h.frames
  rw [hframes] at hclean
  have hreclaim : f.toReclaim = work := by
    rw [Frame.toReclaim, hlends.owned, hlends.exported, filter_not_contains_nil]
  have hleaked : f.leaked = [] := by
    rw [Frame.leaked, hreclaim, List.filter_eq_nil_iff]
    intro q hq
    rw [hclean q hq]
    exact Bool.false_ne_true
  -- below the scope nothing is open, and it owes nothing
  have hbelow : (t.popped root []).Idle := by
    have hequipped := h.equipped hs.equipped
    exact ⟨h.unpoisoned, rfl, hroot, h.unlimited, h.allocator,
      ⟨hequipped.accepting, hequipped.wired⟩, hs.registers.grown h.grown⟩
  have hinside : (t.popped root []).inside f = t := by
    show { t with frames := ⟨f, [root]⟩ } = t
    rw [← hframes]
  have hreplay : (t.popped root []).replay f = (.ok (), t.popped root []) := by
    rw [replay_eq, hlends.due]
    rfl
  have hok : ((t.popped root []).reclaim work).1 = .ok () :=
    (reclaim_ok_iff _ work).2 ⟨fun q hq => (h.live q).2 (.inr hq), h.nodup⟩
  obtain ⟨u, hexit, hidle, hallocator, hcircuit, hemissions⟩ :=
    hbelow.exit_inside hlends.id hreplay hleaked hbelow (hreclaim.symm ▸ hok)
  rw [hinside] at hexit
  rw [hreclaim] at hallocator hcircuit
  refine ⟨u, hexit, hidle, fun q => ?_, ?_, ?_, hemissions⟩
  · rw [hallocator]
    exact reclaim_live_eq (t := t.popped root []) h.allocator hok h.fresh h.live q
  · exact hcircuit ▸ reclaim_grown (t.popped root []) work
  · exact hcircuit ▸ handsOut_reclaim (t.popped root []) work

theorem Borrows.send {s t : Session ℝ} (h : s.Borrows id work t) (hs : s.Equipped) {qs : List QubitId}
    (hqs : ∀ q ∈ qs, t.allocator.isLive q = true) {e : Placement ℝ} (he : e.Sits qs) :
    ∃ u, t.send e.instruction e.balanced = (.ok (), u) ∧ s.Borrows id work u ∧
      u.emissions = t.emissions ++ [e.instruction] ∧ ∀ q ∈ qs, u.allocator.isLive q = true := by
  obtain ⟨f, root, hframes, hlends, hroot⟩ := h.frames
  have hplain : t.frames.Plain := by
    rw [hframes]
    intro g hg
    rcases List.mem_cons.1 hg with rfl | hg
    · exact .inl hlends.environment
    · exact .inl (List.mem_singleton.1 hg ▸ hroot)
  have hequipped := h.equipped hs
  -- a gate without a condition has no wires but its operands, and these are in use
  have hfault : t.circuit.graph.fault? e.instruction = none := by
    refine WireGraph.fault?_eq_none_iff.2 ⟨if_pos he.length.symm, he.nodup, ?_⟩
    have hclassical : e.instruction.classicalWires = [] := by
      show Ordered.ofList ([] ++ (e.gate.condition.map Condition.clbits).getD []) = []
      rw [he.plain]
      rfl
    intro w hw
    rw [WireGraph.wires, hclassical, List.map_nil, List.append_nil] at hw
    obtain ⟨q, hq, rfl⟩ := List.mem_map.1 hw
    exact hequipped.wired q (hqs q (he.among q hq))
  have hpush := (hequipped.accepting.push_of_none hfault).1
  obtain ⟨u, hsend, hcircuit, hcapacity⟩ := send_of_push hplain hpush e.balanced
  have hkin := send_kin t e.instruction e.balanced
  have hhosts := (Hosts.mk h.unpoisoned h.allocator hqs).send e.instruction e.balanced
  have hlive := send_isLive h.allocator e.instruction e.balanced
  rw [hsend] at hkin hhosts hlive
  have hgrown : Circuit.Grown t.circuit u.circuit := by
    rw [hcircuit]
    exact Circuit.Grown.refl.push _
  have hhanded : s.circuit.HandsOut u.circuit (work ++ []) := by
    rw [hcircuit]
    exact h.handed.trans (t.circuit.handsOut_push e.instruction)
  rw [List.append_nil] at hhanded
  refine ⟨u, hsend, ⟨hhosts.unpoisoned, ?_, hcapacity.trans h.unlimited, hhosts.allocator, h.nodup,
    h.fresh, fun q => ?_, h.grown.trans hgrown, hhanded, fun q hq => hgrown.wireList (h.wired q hq)⟩,
    ?_, hhosts.live⟩
  · rw [hframes] at hkin
    obtain ⟨f', l, hf', hl, htop⟩ := List.forall₂_cons_left_iff.1 hkin
    obtain ⟨root', l', hroot', hl', hbelow⟩ := List.forall₂_cons_left_iff.1 hl
    obtain rfl := List.forall₂_nil_left_iff.1 hl'
    subst hbelow
    obtain ⟨htop, hbelow⟩ := List.cons.inj htop
    exact ⟨f', root', congrArg₂ FrameStack.mk htop hbelow, hlends.kin hf', hroot'.environment.trans hroot⟩
  · rw [hlive, h.live]
  · exact Circuit.push_ok (Prod.ext hpush hcircuit.symm)

theorem Borrows.sendAll {s t : Session ℝ} (h : s.Borrows id work t) (hs : s.Equipped)
    {qs : List QubitId} (hqs : ∀ q ∈ qs, t.allocator.isLive q = true) {es : List (Placement ℝ)}
    (hes : ∀ e ∈ es, e.Sits qs) :
    ∃ u, t.sendAll es = .ok u ∧ s.Borrows id work u ∧
      u.emissions = t.emissions ++ es.map Placement.instruction := by
  induction es generalizing t with
  | nil => exact ⟨t, rfl, h, (List.append_nil _).symm⟩
  | cons e es ih =>
    obtain ⟨t₁, hfirst, hborrows, hone, hlive⟩ := h.send hs hqs (hes e List.mem_cons_self)
    obtain ⟨u, hrest, hlast, hout⟩ := ih hborrows hlive fun e' he' => hes e' (List.mem_cons_of_mem _ he')
    refine ⟨u, sendAll_cons.2 ⟨t₁, hfirst, hrest⟩, hlast, ?_⟩
    rw [hout, hone, List.append_assoc]
    rfl

theorem Borrows.assertRestored (h : s.Borrows id work t) (ps : List QubitId) :
    ∃ u, t.assertRestored ps = (.ok (), u) ∧ s.Borrows id work u ∧ u.emissions = t.emissions ∧
      u.frames.top.touched = t.frames.top.touched.eraseAll ps :=
  ⟨_, assertRestored_of_unpoisoned h.unpoisoned ps, h.of_outline (outline_eraseMarks t ps), rfl,
    rfl⟩

/-- What is left of a construction that succeeded on `qs` with qubits of its own: the placements are
appended, and its qubits are those that were handed out, were fresh and are returned. -/
structure Appended (s s' : Session ℝ) (qs work : List QubitId) (es : List (Placement ℝ)) : Prop where
  idle : s'.Idle
  live : ∀ q, s'.allocator.isLive q = s.allocator.isLive q
  grown : Circuit.Grown s.circuit s'.circuit
  handed : s.circuit.HandsOut s'.circuit work
  emissions : s'.emissions = s.emissions ++ es.map Placement.instruction
  fresh : ∀ q ∈ work, s.allocator.isLive q = false
  wired : ∀ q ∈ work, .qubit q ∈ s'.circuit.graph.wireList
  sits : ∀ e ∈ es, e.Sits (qs ++ work)

theorem Appended.runs {s s' : Session ℝ} {qs work : List QubitId} {es : List (Placement ℝ)}
    (h : s.Appended s' qs work es) (hs : s.Idle) (hqs : ∀ q ∈ qs, s.allocator.isLive q = true)
    (σ : Type) [DrawSource σ ℝ] (t : Trajectory ℂ σ) (b : Bindings ℝ) (collapse : Bool) {y z : ℕ}
    (hact : Placement.compose t.read b es (ket y) = ket z) (hwidth : s'.circuit.width ≤ t.state.numQubits)
    (hsize : t.state.amplitudes.size = 2 ^ t.state.numQubits)
    (hstart : amplitudes t.state.amplitudes = ket y) :
    ∃ steps v, Step.ofInstructions b collapse (es.map Placement.instruction) = .ok steps ∧
      t.run steps = t.withAmplitudes v ∧ v.size = t.state.amplitudes.size ∧ amplitudes v = ket z := by
  have hbelow : ∀ q ∈ qs ++ work, q < s'.circuit.width := by
    intro q hq
    have hwire : .qubit q ∈ s'.circuit.graph.wireList := (List.mem_append.1 hq).elim
      (fun hq => h.grown.wireList (hs.equipped.wired q (hqs q hq))) (h.wired q)
    obtain ⟨p, hp, rfl⟩ := h.idle.registers q hwire
    exact Circuit.lt_width hp
  exact Placement.runs_ket h.sits σ t b collapse (fun q hq => (hbelow q hq).trans_le hwidth) hsize hstart
    hact

theorem Appended.among {s s' : Session ℝ} {qs work : List QubitId} {es : List (Placement ℝ)}
    (h : s.Appended s' qs work es) :
    ∀ i ∈ es.map Placement.instruction, ∀ q ∈ i.qubits, q ∈ qs ∨ q ∈ work := by
  intro i hi q hq
  obtain ⟨e, he, rfl⟩ := List.mem_map.1 hi
  exact List.mem_append.1 ((h.sits e he).among q hq)

end Session

namespace Build

open Session Placement

variable {ε : Type} {qs : List QubitId} {P Q : ℕ → Prop} {f g : ℕ → ℕ}

def Computes (c : Build ℝ ε Unit) (qs : List QubitId) (P : ℕ → Prop) (f : ℕ → ℕ) : Prop :=
  ∀ s : Session ℝ, s.Idle → (∀ q ∈ qs, s.allocator.isLive q = true) →
    ∃ s' work es, c.exec s = (.ok (), s') ∧ s.Appended s' qs work es ∧
      ∀ read b y, P y → (∀ q ∈ work, y.testBit q = false) →
        compose read b es (ket y) = ket (f y)

theorem computes_pure (qs : List QubitId) (P : ℕ → Prop) :
    Computes (pure () : Build ℝ ε Unit) qs P id := by
  intro s hs _
  refine ⟨s, [], [], rfl, ⟨hs, fun _ => rfl, .refl, Circuit.handsOut_of_eq rfl,
    (List.append_nil _).symm, ?_, ?_, ?_⟩, ?_⟩
  · exact fun q hq => absurd hq List.not_mem_nil
  · exact fun q hq => absurd hq List.not_mem_nil
  · exact fun e he => absurd he List.not_mem_nil
  · exact fun read b y _ _ => rfl

theorem Computes.bind {c k : Build ℝ ε Unit} (hc : c.Computes qs P f) (hk : k.Computes qs Q g)
    (hPQ : ∀ y, P y → Q (f y)) (hf : ∀ y p, p ∉ qs → (f y).testBit p = y.testBit p) :
    (c >>= fun _ => k).Computes qs P (g ∘ f) := by
  intro s hs hqs
  obtain ⟨s₁, work, es, hexec, happended, hact⟩ := hc s hs hqs
  have hqs₁ : ∀ q ∈ qs, s₁.allocator.isLive q = true := by
    intro q hq
    rw [happended.live]
    exact hqs q hq
  obtain ⟨s₂, work', es', hexec', happended', hact'⟩ := hk s₁ happended.idle hqs₁
  have hfresh' : ∀ q ∈ work', s.allocator.isLive q = false := by
    intro q hq
    rw [← happended.live]
    exact happended'.fresh q hq
  refine ⟨s₂, work ++ work', es ++ es', (exec_bind_of hexec).trans hexec', ?_, ?_⟩
  · refine ⟨happended'.idle, fun q => (happended'.live q).trans (happended.live q),
      happended.grown.trans happended'.grown, happended.handed.trans happended'.handed, ?_, ?_, ?_,
      ?_⟩
    · rw [happended'.emissions, happended.emissions, List.map_append, List.append_assoc]
    · exact fun q hq => (List.mem_append.1 hq).elim (happended.fresh q) (hfresh' q)
    · exact fun q hq => (List.mem_append.1 hq).elim
        (fun hq => happended'.grown.wireList (happended.wired q hq)) (happended'.wired q)
    · intro e he
      rcases List.mem_append.1 he with he | he
      · refine (happended.sits e he).mono fun q hq => ?_
        rw [← List.append_assoc]
        exact List.mem_append_left _ hq
      · refine (happended'.sits e he).mono fun q hq => ?_
        simp only [List.mem_append] at hq ⊢
        tauto
  · intro read b y hy hzero
    rw [compose_append, Module.End.mul_apply,
      hact read b y hy fun q hq => hzero q (List.mem_append_left _ hq)]
    -- the second construction may be handed the same qubits again: none is in use, so `f` leaves it at 0
    refine hact' read b (f y) (hPQ y hy) fun q hq => ?_
    rw [hf y q ?_, hzero q (List.mem_append_right _ hq)]
    intro hmem
    have hlive := hqs q hmem
    rw [hfresh' q hq] at hlive
    exact Bool.false_ne_true hlive

theorem Computes.mono {ps : List QubitId} {c : Build ℝ ε Unit} (hc : c.Computes ps P f)
    (hps : ∀ q ∈ ps, q ∈ qs) : c.Computes qs P f := by
  intro s hs hqs
  obtain ⟨s', work, es, hexec, ⟨hidle, hlive, hgrown, hhanded, hout, hfresh, hwired, hsits⟩, hact⟩ :=
    hc s hs fun q hq => hqs q (hps q hq)
  refine ⟨s', work, es, hexec, ⟨hidle, hlive, hgrown, hhanded, hout, hfresh, hwired, fun e he => ?_⟩,
    hact⟩
  exact (hsits e he).mono fun q hq => List.mem_append.2 ((List.mem_append.1 hq).imp_left (hps q))

theorem Computes.congr {c : Build ℝ ε Unit} (hc : c.Computes qs P f) (hfg : ∀ y, P y → f y = g y) :
    c.Computes qs P g := by
  intro s hs hqs
  obtain ⟨s', work, es, hexec, happended, hact⟩ := hc s hs hqs
  refine ⟨s', work, es, hexec, happended, fun read b y hy hzero => ?_⟩
  rw [hact read b y hy hzero, hfg y hy]

theorem Computes.after {r : Except ε Unit} (hr : r = .ok ()) {c : Build ℝ ε Unit}
    (hc : c.Computes qs P f) : (ofExcept r >>= fun _ => c : Build ℝ ε Unit).Computes qs P f := by
  rw [hr]
  exact hc

/-- From a session a construction succeeds and leaves no environment open. It appends instructions on
the qubits `qs` and on those it is handed, which were not in use before and are not in use
afterwards, and the run of these takes the state with amplitude 1 at a basis state with the property
`P`, in which the qubits handed out read 0, to the state with amplitude 1 at a basis state in the
relation `Q` to it. -/
def Maps (c : Build ℝ ε Unit) (s : Session ℝ) (qs : List QubitId) (P : ℕ → Prop)
    (Q : ℕ → ℕ → Prop) : Prop :=
  ∃ (s' : Session ℝ) (l : List (Instruction ℝ)) (work : List QubitId),
    c.exec s = (.ok (), s') ∧ s'.isPoisoned = false ∧ s'.numOpen = 0 ∧
    (∀ q, s'.allocator.isLive q = s.allocator.isLive q) ∧ s'.emissions = s.emissions ++ l ∧
    s.circuit.HandsOut s'.circuit work ∧ (∀ q ∈ work, s.allocator.isLive q = false) ∧
    (∀ i ∈ l, ∀ q ∈ i.qubits, q ∈ qs ∨ q ∈ work) ∧
    ∀ (σ : Type) [DrawSource σ ℝ] (t : Trajectory ℂ σ) (b : Bindings ℝ) (collapse : Bool) (y : ℕ),
      s'.circuit.width ≤ t.state.numQubits →
      t.state.amplitudes.size = 2 ^ t.state.numQubits →
      amplitudes t.state.amplitudes = ket y → P y → (∀ q ∈ work, y.testBit q = false) →
      ∃ steps v z, Step.ofInstructions b collapse l = .ok steps ∧ t.run steps = t.withAmplitudes v ∧
        v.size = t.state.amplitudes.size ∧ amplitudes v = ket z ∧ Q y z

theorem Computes.maps {c : Build ℝ ε Unit} (hc : c.Computes qs P f) {s : Session ℝ}
    (hs : s.Reachable) (hp : s.isPoisoned = false) (hopen : s.numOpen = 0)
    (hunlimited : s.allocator.capacity = none) (hqs : ∀ q ∈ qs, s.allocator.isLive q = true)
    {Q : ℕ → ℕ → Prop} (hQ : ∀ y, P y → Q y (f y)) : c.Maps s qs P Q := by
  have hidle := hs.idle hp hopen hunlimited
  obtain ⟨s', work, es, hexec, happended, hact⟩ := hc s hidle hqs
  refine ⟨s', es.map Placement.instruction, work, hexec, happended.idle.unpoisoned,
    happended.idle.numOpen, happended.live, happended.emissions, happended.handed, happended.fresh,
    happended.among, ?_⟩
  intro σ _ t b collapse y hwidth hsize hstart hy hzero
  obtain ⟨steps, v, hsteps, hrun, hv, hlast⟩ := happended.runs hidle hqs σ t b collapse
    (hact t.read b y hy hzero) hwidth hsize hstart
  exact ⟨steps, v, f y, hsteps, hrun, hv, hlast, hQ y hy⟩

variable [FromSession ε]

theorem exec_allocateOne {s t : Session ℝ} {name : String} {q : QubitId}
    (h : s.allocate 1 name = (.ok [q], t)) :
    exec (allocateOne name : Build ℝ ε QubitId) s = (.ok q, t) := by
  unfold allocateOne
  have hgrant : exec (allocate 1 name : Build ℝ ε (List QubitId)) s = (.ok [q], t) := exec_of_step h
  rw [map_eq_pure_bind, exec_bind_of hgrant]
  rfl

def borrowing (n : ℕ) (name name' : String) (body : List QubitId → QubitId → Build ℝ ε Unit) :
    Build ℝ ε Unit := do
  let b ← allocate n name
  let flag ← allocateOne name'
  body b flag
  assertRestored b
  assertRestored [flag]

/-- The run of a scope with a register and a flag of its own: the answers of its calls, from the
session `s` to `s'`. What follows the body, the declarations that both are restored among it, emits
nothing. -/
structure ScopeRun (label name name' : String) (n : ℕ)
    (body : List QubitId → QubitId → Build ℝ ε Unit) (s s' : Session ℝ) where
  id : FrameId
  register : List QubitId
  flag : QubitId
  opened : Session ℝ
  lent : Session ℝ
  ready : Session ℝ
  done : Session ℝ
  cleared : Session ℝ
  settled : Session ℝ
  opens : s.enter .scope label = (.ok id, opened)
  lends : opened.allocate n name = (.ok register, lent)
  flags : lent.allocate 1 name' = (.ok [flag], ready)
  runs : exec (body register flag) ready = (.ok (), done)
  clears : done.assertRestored register = (.ok (), cleared)
  settles : cleared.assertRestored [flag] = (.ok (), settled)
  closes : settled.exit id = (.ok (), s')
  length : register.length = n
  emissions : s'.emissions = done.emissions

section Scope

variable {n : ℕ} {body : List QubitId → QubitId → Build ℝ ε Unit}

theorem ScopeRun.inside {label name name' : String} {s s' : Session ℝ}
    (r : ScopeRun label name name' n body s s') :
    exec (borrowing n name name' body) r.opened = (.ok (), r.settled) := by
  refine (exec_bind_of (exec_of_step r.lends)).trans ?_
  refine (exec_bind_of (exec_allocateOne r.flags)).trans ?_
  refine (exec_bind_of r.runs).trans ((exec_bind_of (exec_of_step r.clears)).trans ?_)
  exact exec_of_step r.settles

theorem ScopeRun.whole {label name name' : String} {s s' : Session ℝ}
    (r : ScopeRun label name name' n body s s') :
    exec (scope label (borrowing n name name' body)) s = (.ok (), s') :=
  exec_within_of r.opens r.inside r.closes

omit [FromSession ε] in
theorem scope_run (hbody : ∀ b flag, b.length = n → (flag :: b).Nodup → (∀ q ∈ flag :: b, q ∉ qs) →
      ∃ A, (body b flag).Realizes (qs ++ flag :: b) A ∧
        ∀ y, P y → reading b y = 0 → y.testBit flag = false → A (ket y) = ket (f y))
    (label name name' : String) {s : Session ℝ} (hs : s.Idle)
    (hqs : ∀ q ∈ qs, s.allocator.isLive q = true) :
    ∃ (s' : Session ℝ) (r : ScopeRun label name name' n body s s') (es : List (Placement ℝ)),
      s.Appended s' qs (r.register ++ [r.flag]) es ∧
      ∀ read bindings y, P y → (∀ q ∈ r.register ++ [r.flag], y.testBit q = false) →
        compose read bindings es (ket y) = ket (f y) := by
  obtain ⟨henter, h₀⟩ := hs.enter label
  obtain ⟨b, t₁, hregister, hlength, h₁, hout₁⟩ := h₀.allocate hs.equipped n name
  obtain ⟨flags, t₂, hflag, hone, h₂, hout₂⟩ := h₁.allocate hs.equipped 1 name'
  obtain ⟨flag, rfl⟩ := List.length_eq_one_iff.1 hone
  rw [List.nil_append] at h₁ h₂
  have hnodup : (flag :: b).Nodup := (List.perm_append_singleton flag b).nodup_iff.1 h₂.nodup
  have hwork : ∀ q, q ∈ flag :: b ↔ q ∈ b ++ [flag] := fun q =>
    (List.perm_append_singleton flag b).mem_iff.symm
  have hnew : ∀ q ∈ flag :: b, q ∉ qs := by
    intro q hq hmem
    have hlive := hqs q hmem
    rw [h₂.fresh q ((hwork q).1 hq)] at hlive
    exact Bool.false_ne_true hlive
  have hlive : ∀ q ∈ qs ++ flag :: b, t₂.allocator.isLive q = true := fun q hq =>
    (h₂.live q).2 ((List.mem_append.1 hq).imp (hqs q) (hwork q).1)
  obtain ⟨A, ⟨es, hplaces, hsits, hmeans⟩, hket⟩ := hbody b flag hlength hnodup hnew
  -- the body sends its placements, and both declarations take the marks off
  obtain ⟨t₃, hsent, h₃, hout₃⟩ := h₂.sendAll hs.equipped hlive hsits
  obtain ⟨t₄, hexec, houtline⟩ := hplaces t₂ t₃ ⟨h₂.unpoisoned, h₂.allocator, hlive⟩ hsent
  have hcircuit := (outline_eq_iff.1 houtline).2.2.1
  obtain ⟨t₅, hrestored, h₅, hout₅, htouched⟩ := (h₃.of_outline houtline).assertRestored b
  obtain ⟨t₆, hrestored', h₆, hout₆, htouched'⟩ := h₅.assertRestored [flag]
  have hclean : ∀ q ∈ b ++ [flag], t₆.frames.top.touched.contains q = false := by
    intro q hq
    refine Bool.eq_false_of_not_eq_true fun hmark => ?_
    rw [htouched', QubitSet.contains_eraseAll, htouched, QubitSet.contains_eraseAll] at hmark
    exact (List.mem_append.1 hq).elim hmark.1.2 hmark.2
  obtain ⟨s', hexit, hidle, hsame, hgrown, hhanded, hout⟩ := h₆.exit hs hclean
  have hlast : s'.emissions = t₄.emissions := by rw [hout, hout₆, hout₅]
  refine ⟨s', ⟨_, b, flag, _, t₁, t₂, t₄, t₅, t₆, henter, hregister, hflag, hexec, hrestored,
    hrestored', hexit, hlength, hlast⟩, es, ?_, ?_⟩
  · have hall := h₆.handed.trans hhanded
    rw [List.append_nil] at hall
    refine ⟨hidle, hsame, h₆.grown.trans hgrown, hall, ?_, h₂.fresh,
      fun q hq => hgrown.wireList (h₆.wired q hq), fun e he => (hsits e he).mono fun q hq => ?_⟩
    · have hout₄ : t₄.emissions = t₃.emissions := by rw [emissions, hcircuit, emissions]
      rw [hlast, hout₄, hout₃, hout₂, hout₁]
      rfl
    · exact List.mem_append.2 ((List.mem_append.1 hq).imp_right (hwork q).1)
  · intro read bindings y hy hzero
    rw [(hmeans read bindings).whole]
    refine hket y hy ?_ (hzero flag (List.mem_append_right _ List.mem_cons_self))
    have hbits : ∀ q ∈ b, y.testBit q = (0 : ℕ).testBit q := fun q hq => by
      rw [hzero q (List.mem_append_left _ hq), Nat.zero_testBit]
    rw [reading_congr hbits, reading_zero]

theorem computes_scope (label name name' : String) (n : ℕ)
    {body : List QubitId → QubitId → Build ℝ ε Unit}
    (hbody : ∀ b flag, b.length = n → (flag :: b).Nodup → (∀ q ∈ flag :: b, q ∉ qs) →
      ∃ A, (body b flag).Realizes (qs ++ flag :: b) A ∧
        ∀ y, P y → reading b y = 0 → y.testBit flag = false → A (ket y) = ket (f y)) :
    Computes (scope label (borrowing n name name' body)) qs P f := by
  intro s hs hqs
  obtain ⟨s', r, es, happended, hact⟩ := scope_run hbody label name name' hs hqs
  exact ⟨s', r.register ++ [r.flag], es, r.whole, happended, hact⟩

end Scope

end Build

end Ancilla
