import Ancilla.Allocator
import Ancilla.Proofs.Sets
import Mathlib.Data.List.Nodup

/-!
The qubits in use, as each operation of the allocator changes them. A request gives out distinct
qubits that were not in use; a return takes out exactly the qubits it names, and is refused
exactly if one of them is not in use or is named twice.
-/

namespace Ancilla.Allocator

/-- The returned qubits are kept in ascending order, and each is in the state `reclaimed`. -/
structure Sound (a : Allocator) : Prop where
  ascending : a.reclaimed.Pairwise (· < ·)
  state_of_mem : ∀ q ∈ a.reclaimed, a.state q = .reclaimed

theorem sound_new (capacity : Option Nat) : (new capacity).Sound :=
  ⟨List.Pairwise.nil, fun _ h => absurd h List.not_mem_nil⟩

theorem isLive_new (capacity : Option Nat) (q : QubitId) : (new capacity).isLive q = false := by
  simp [new, isLive, state, QubitState.isLive]

theorem getD_set (xs : Array QubitState) {q : QubitId} (h : q < xs.size) (x : QubitState)
    (p : QubitId) : (xs.setIfInBounds q x).getD p .free = if p = q then x else xs.getD p .free := by
  simp only [Array.getD_eq_getD_getElem?, Array.getElem?_setIfInBounds]
  by_cases hp : p = q
  · subst hp
    simp [h]
  · simp [hp, Ne.symm hp]

theorem getD_push (xs : Array QubitState) (x : QubitState) (p : QubitId) :
    (xs.push x).getD p .free = if p = xs.size then x else xs.getD p .free := by
  simp only [Array.getD_eq_getD_getElem?, Array.getElem?_push]
  split <;> rfl

theorem lt_size_of_state {a : Allocator} {q : QubitId} (h : a.state q ≠ .free) :
    q < a.states.size := by
  by_contra hq
  apply h
  simp [state, hq]

theorem lt_size_of_isLive {a : Allocator} {q : QubitId} (h : a.isLive q = true) :
    q < a.states.size := by
  apply lt_size_of_state
  intro hs
  simp [isLive, hs, QubitState.isLive] at h

theorem isLive_of_reclaimed {a : Allocator} {q : QubitId} (h : a.state q = .reclaimed) :
    a.isLive q = false := by
  rw [isLive, h, QubitState.isLive]

theorem take_spec {a : Allocator} (ha : a.Sound) :
    a.isLive a.take.1 = false ∧ a.take.2.Sound ∧
      ∀ p, a.take.2.isLive p = (a.isLive p || decide (p = a.take.1)) := by
  unfold take
  cases hr : a.reclaimed with
  | nil =>
    refine ⟨by simp [isLive, state, QubitState.isLive], ⟨?_, ?_⟩, ?_⟩
    · simp
    · simp
    · intro p
      simp only [isLive, state, getD_push]
      by_cases hp : p = a.states.size <;> simp [hp, QubitState.isLive]
  | cons q rest =>
    have hq : a.state q = .reclaimed := ha.state_of_mem q (by simp [hr])
    have hlt : q < a.states.size := lt_size_of_state (by simp [hq])
    have hasc := ha.ascending
    rw [hr] at hasc
    obtain ⟨hbelow, hrest⟩ := List.pairwise_cons.1 hasc
    refine ⟨isLive_of_reclaimed hq, ⟨hrest, ?_⟩, ?_⟩
    · intro p hp
      have hne : p ≠ q := Nat.ne_of_gt (hbelow p hp)
      have hold : a.state p = .reclaimed := ha.state_of_mem p (by simp [hr, hp])
      simp only [state] at hold ⊢
      rw [getD_set _ hlt, if_neg hne, hold]
    · intro p
      simp only [isLive, state, getD_set _ hlt]
      by_cases hp : p = q <;> simp [hp, QubitState.isLive]

theorem takeMany_spec (n : Nat) {a : Allocator} (ha : a.Sound) :
    (takeMany n a).1.Nodup ∧ (∀ q ∈ (takeMany n a).1, a.isLive q = false) ∧
      (takeMany n a).2.Sound ∧
      ∀ p, (takeMany n a).2.isLive p = true ↔ a.isLive p = true ∨ p ∈ (takeMany n a).1 := by
  induction n generalizing a with
  | zero => simp [takeMany, ha]
  | succ n ih =>
    obtain ⟨hdead, hsound, hlive⟩ := take_spec ha
    obtain ⟨hnodup, hfresh, hsound', hlive'⟩ := ih hsound
    have hfirst : a.take.1 ∉ (takeMany n a.take.2).1 := by
      intro h
      have := hfresh _ h
      simp [hlive] at this
    simp only [takeMany]
    refine ⟨List.nodup_cons.2 ⟨hfirst, hnodup⟩, ?_, hsound', ?_⟩
    · intro q hq
      rcases List.mem_cons.1 hq with rfl | hq
      · exact hdead
      · have := hfresh q hq
        rw [hlive, Bool.or_eq_false_iff] at this
        exact this.1
    · intro p
      rw [hlive', hlive, List.mem_cons, Bool.or_eq_true, decide_eq_true_eq, or_assoc]

theorem length_takeMany (n : Nat) (a : Allocator) : (takeMany n a).1.length = n := by
  induction n generalizing a with
  | zero => rfl
  | succ n ih => exact congrArg (· + 1) (ih a.take.2)

theorem allocate_eq {a a' : Allocator} {n : Nat} {qs : List QubitId}
    (h : a.allocate n = (.ok qs, a')) : qs = (takeMany n a).1 ∧ a' = { (takeMany n a).2 with
      live := (takeMany n a).2.live + n
      peak := max (takeMany n a).2.peak ((takeMany n a).2.live + n) } := by
  unfold allocate at h
  split at h
  · exact nomatch (Prod.mk.inj h).1
  · obtain ⟨hqs, ha'⟩ := Prod.mk.inj h
    exact ⟨(Except.ok.inj hqs).symm, ha'.symm⟩

theorem length_allocate {a a' : Allocator} {n : Nat} {qs : List QubitId}
    (h : a.allocate n = (.ok qs, a')) : qs.length = n := by
  rw [(allocate_eq h).1]
  exact length_takeMany n a

theorem takeMany_keeps (n : Nat) (a : Allocator) :
    (takeMany n a).2.capacity = a.capacity ∧ (takeMany n a).2.live = a.live ∧
      (takeMany n a).2.peak = a.peak := by
  induction n generalizing a with
  | zero => exact ⟨rfl, rfl, rfl⟩
  | succ n ih =>
    obtain ⟨hcapacity, hlive, hpeak⟩ := ih a.take.2
    have htake : a.take.2.capacity = a.capacity ∧ a.take.2.live = a.live ∧
        a.take.2.peak = a.peak := by
      unfold take
      split <;> exact ⟨rfl, rfl, rfl⟩
    exact ⟨hcapacity.trans htake.1, hlive.trans htake.2.1, hpeak.trans htake.2.2⟩

theorem allocate_spec {a a' : Allocator} {n : Nat} {qs : List QubitId} (ha : a.Sound)
    (h : a.allocate n = (.ok qs, a')) :
    qs.Nodup ∧ (∀ q ∈ qs, a.isLive q = false) ∧ a'.Sound ∧
      ∀ p, a'.isLive p = true ↔ a.isLive p = true ∨ p ∈ qs := by
  obtain ⟨rfl, rfl⟩ := allocate_eq h
  obtain ⟨hnodup, hfresh, hsound, hlive⟩ := takeMany_spec n ha
  exact ⟨hnodup, hfresh, ⟨hsound.ascending, hsound.state_of_mem⟩, hlive⟩

theorem allocate_error {a a' : Allocator} {n : Nat} {e : ResourceError}
    (h : a.allocate n = (.error e, a')) : a' = a := by
  unfold allocate at h
  cases hf : a.capacityFault? n with
  | some e => simp_all
  | none => simp [hf] at h

theorem releaseFault?_eq_none_iff (a : Allocator) (seen qs : List QubitId) :
    a.releaseFault? seen qs = none ↔
      (∀ q ∈ qs, a.isLive q = true) ∧ qs.Nodup ∧ ∀ q ∈ qs, q ∉ seen := by
  induction qs generalizing seen with
  | nil => simp [releaseFault?]
  | cons q qs ih =>
    unfold releaseFault?
    cases hlive : a.isLive q with
    | false => simp [hlive]
    | true =>
      by_cases hseen : q ∈ seen
      · simp [hseen]
      · simp only [Bool.not_true, Bool.false_eq_true, if_false, List.contains_eq_mem, hseen,
          decide_false, ih, List.mem_cons, List.nodup_cons, hlive, forall_eq_or_imp, true_and,
          not_or]
        constructor
        · rintro ⟨h, hnodup, hnot⟩
          exact ⟨h, ⟨fun hq => (hnot q hq).1 rfl, hnodup⟩, not_false, fun p hp => (hnot p hp).2⟩
        · rintro ⟨h, ⟨hq, hnodup⟩, -, hnot⟩
          exact ⟨h, hnodup, fun p hp => ⟨fun hpq => hq (hpq ▸ hp), hnot p hp⟩⟩

theorem reclaim_spec {a : Allocator} (ha : a.Sound) {q : QubitId} (hq : a.isLive q = true) :
    (a.reclaim q).Sound ∧ ∀ p, (a.reclaim q).isLive p = true ↔ a.isLive p = true ∧ p ≠ q := by
  have hlt := lt_size_of_isLive hq
  refine ⟨⟨Ordered.pairwise_insert q ha.ascending, ?_⟩, ?_⟩
  · intro p hp
    simp only [reclaim, state, getD_set _ hlt]
    rcases (Ordered.mem_insert q p _).1 hp with rfl | hp
    · simp
    · split
      · rfl
      · exact ha.state_of_mem p hp
  · intro p
    simp only [reclaim, isLive, state, getD_set _ hlt]
    by_cases hp : p = q <;> simp [hp, QubitState.isLive]

theorem foldl_reclaim_spec {a : Allocator} (ha : a.Sound) {qs : List QubitId} (hnodup : qs.Nodup)
    (hlive : ∀ q ∈ qs, a.isLive q = true) :
    (qs.foldl reclaim a).Sound ∧
      ∀ p, (qs.foldl reclaim a).isLive p = true ↔ a.isLive p = true ∧ p ∉ qs := by
  induction qs generalizing a with
  | nil => simp [ha]
  | cons q qs ih =>
    obtain ⟨hq, hqs⟩ := List.nodup_cons.1 hnodup
    obtain ⟨hsound, hstep⟩ := reclaim_spec ha (hlive q List.mem_cons_self)
    have hrest : ∀ p ∈ qs, (a.reclaim q).isLive p = true := fun p hp =>
      (hstep p).2 ⟨hlive p (List.mem_cons_of_mem _ hp), fun h => hq (h ▸ hp)⟩
    obtain ⟨hsound', hrun⟩ := ih hsound hqs hrest
    refine ⟨hsound', fun p => ?_⟩
    rw [List.foldl_cons, hrun, hstep, List.mem_cons, not_or, and_assoc]

theorem foldl_reclaim_keeps (qs : List QubitId) (a : Allocator) :
    (qs.foldl reclaim a).capacity = a.capacity ∧ (qs.foldl reclaim a).live = a.live ∧
      (qs.foldl reclaim a).peak = a.peak ∧ (qs.foldl reclaim a).poolSize = a.poolSize := by
  induction qs generalizing a with
  | nil => exact ⟨rfl, rfl, rfl, rfl⟩
  | cons q qs ih =>
    obtain ⟨hcapacity, hlive, hpeak, hpool⟩ := ih (a.reclaim q)
    exact ⟨hcapacity, hlive, hpeak, hpool.trans (by simp [reclaim, poolSize])⟩

theorem mem_reclaimed_foldl_reclaim (qs : List QubitId) (a : Allocator) (p : QubitId) :
    p ∈ (qs.foldl reclaim a).reclaimed ↔ p ∈ qs ∨ p ∈ a.reclaimed := by
  induction qs generalizing a with
  | nil => exact (or_iff_right List.not_mem_nil).symm
  | cons q qs ih =>
    have hfirst : p ∈ (a.reclaim q).reclaimed ↔ p = q ∨ p ∈ a.reclaimed := Ordered.mem_insert q p _
    rw [List.foldl_cons, ih, hfirst, List.mem_cons]
    exact or_left_comm.trans or_assoc.symm

theorem deallocate_eq {a a' : Allocator} {qs : List QubitId} (h : a.deallocate qs = (.ok (), a')) :
    a' = { qs.foldl reclaim a with live := (qs.foldl reclaim a).live - qs.length } := by
  unfold deallocate at h
  split at h
  · exact absurd (Prod.mk.inj h).1 (by simp)
  · exact (Prod.mk.inj h).2.symm

theorem deallocate_ok_iff (a : Allocator) (qs : List QubitId) :
    (a.deallocate qs).1 = .ok () ↔ (∀ q ∈ qs, a.isLive q = true) ∧ qs.Nodup := by
  have hnone := releaseFault?_eq_none_iff a [] qs
  simp only [List.not_mem_nil, not_false_eq_true, implies_true, and_true] at hnone
  rw [← hnone]
  unfold deallocate
  cases hf : a.releaseFault? [] qs <;> simp

theorem deallocate_spec {a a' : Allocator} {qs : List QubitId} (ha : a.Sound)
    (h : a.deallocate qs = (.ok (), a')) :
    a'.Sound ∧ ∀ p, a'.isLive p = true ↔ a.isLive p = true ∧ p ∉ qs := by
  obtain ⟨hlive, hnodup⟩ := (deallocate_ok_iff a qs).1 (by rw [h])
  obtain ⟨hsound, hrun⟩ := foldl_reclaim_spec ha hnodup hlive
  obtain rfl := deallocate_eq h
  exact ⟨⟨hsound.ascending, hsound.state_of_mem⟩, hrun⟩

theorem mem_reclaimed_of_deallocate {a a' : Allocator} {qs : List QubitId}
    (h : a.deallocate qs = (.ok (), a')) : ∀ q ∈ qs, q ∈ a'.reclaimed := by
  obtain rfl := deallocate_eq h
  exact fun q hq => (mem_reclaimed_foldl_reclaim qs a q).2 (.inl hq)

theorem deallocate_error {a a' : Allocator} {qs : List QubitId} {e : ResourceError}
    (h : a.deallocate qs = (.error e, a')) : a' = a := by
  unfold deallocate at h
  cases hf : a.releaseFault? [] qs with
  | some e => simp_all
  | none => simp [hf] at h

theorem markEntangled_spec {a : Allocator} (ha : a.Sound) (q : QubitId) :
    (a.markEntangled q).Sound ∧ ∀ p, (a.markEntangled q).isLive p = a.isLive p := by
  unfold markEntangled
  split
  · next hq =>
    have hlt : q < a.states.size := lt_size_of_state (by simp [hq])
    refine ⟨⟨ha.ascending, ?_⟩, ?_⟩
    · intro p hp
      have hold := ha.state_of_mem p hp
      have hne : p ≠ q := fun h => by simp [h, hq] at hold
      simp only [state] at hold ⊢
      rw [getD_set _ hlt, if_neg hne, hold]
    · intro p
      simp only [isLive, state, getD_set _ hlt]
      split
      · next hp =>
        subst hp
        simp only [state] at hq
        rw [hq]
        rfl
      · rfl
  · exact ⟨ha, fun _ => rfl⟩

theorem foldl_markEntangled_spec {a : Allocator} (ha : a.Sound) (qs : List QubitId) :
    (qs.foldl markEntangled a).Sound ∧ ∀ p, (qs.foldl markEntangled a).isLive p = a.isLive p := by
  induction qs generalizing a with
  | nil => exact ⟨ha, fun _ => rfl⟩
  | cons q qs ih =>
    obtain ⟨hsound, hlive⟩ := markEntangled_spec ha q
    obtain ⟨hsound', hlive'⟩ := ih hsound
    exact ⟨hsound', fun p => (hlive' p).trans (hlive p)⟩

theorem foldl_markEntangled_eq (a : Allocator) (qs : List QubitId) :
    qs.foldl markEntangled a = { a with states := (qs.foldl markEntangled a).states } := by
  induction qs generalizing a with
  | nil => rfl
  | cons q qs ih =>
    have hstep : a.markEntangled q = { a with states := (a.markEntangled q).states } := by
      unfold markEntangled
      split <;> rfl
    rw [List.foldl_cons, ih, hstep]

end Ancilla.Allocator
