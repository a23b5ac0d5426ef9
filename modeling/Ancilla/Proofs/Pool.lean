import Ancilla.Proofs.Allocator
import Mathlib.Data.Nat.Nth
import Mathlib.Data.Set.Card

/-!
The pool of qubits over any sequence of requests. No qubit of the pool is free: each is in use or
returned, and the list of returned qubits holds exactly the latter. So a request takes the smallest
numbers that are not in use, and the pool is never larger than the most qubits that were in use at
one time.
-/

namespace Ancilla.Allocator

/-- Every qubit of the pool is in use or among the returned ones. -/
structure Settled (a : Allocator) : Prop where
  sound : a.Sound
  mem_of_state : ∀ q, a.state q = .reclaimed → q ∈ a.reclaimed
  not_free : ∀ q < a.poolSize, a.state q ≠ .free

theorem settled_new (capacity : Option ℕ) : (new capacity).Settled :=
  ⟨sound_new capacity, fun _ h => by simp [new, state] at h,
    fun _ h => by simp [new, poolSize] at h⟩

namespace Settled

variable {a : Allocator}

theorem isLive_of_not_mem (h : a.Settled) {q : QubitId} (hq : q < a.poolSize)
    (hmem : q ∉ a.reclaimed) : a.isLive q = true := by
  have hfree := h.not_free q hq
  have hback : a.state q ≠ .reclaimed := fun hs => hmem (h.mem_of_state q hs)
  unfold isLive
  cases hs : a.state q with
  | free => exact absurd hs hfree
  | reclaimed => exact absurd hs hback
  | allocated => rfl
  | entangled => rfl

theorem update (h : a.Settled) {b : Allocator} (hb : b.Sound) {q : QubitId} {x : QubitState}
    (hstate : ∀ p, b.state p = if p = q then x else a.state p) (hx : x ≠ .free)
    (hpool : ∀ p < b.poolSize, p ≠ q → p < a.poolSize)
    (hq : x = .reclaimed → q ∈ b.reclaimed)
    (hkept : ∀ p ∈ a.reclaimed, p ≠ q → p ∈ b.reclaimed) : b.Settled := by
  refine ⟨hb, ?_, ?_⟩
  · intro p hp
    rw [hstate] at hp
    split at hp
    · next hpq => exact hpq ▸ hq hp
    · next hpq => exact hkept p (h.mem_of_state p hp) hpq
  · intro p hp
    rw [hstate]
    split
    · exact hx
    · next hpq => exact h.not_free p (hpool p hp hpq)

/-! ## Requests -/

theorem take (h : a.Settled) : a.take.2.Settled := by
  have hsound := (take_spec h.sound).2.1
  unfold Allocator.take at hsound ⊢
  cases hr : a.reclaimed with
  | nil =>
    simp only [hr] at hsound
    refine h.update hsound (fun p => getD_push a.states .allocated p) (by simp) ?_ (by simp) ?_
    · intro p hp hne
      simp only [poolSize, Array.size_push] at hp ⊢
      omega
    · simp [hr]
  | cons q rest =>
    simp only [hr] at hsound
    have hq : a.state q = .reclaimed := h.sound.state_of_mem q (by simp [hr])
    have hlt : q < a.states.size := lt_size_of_state (by simp [hq])
    refine h.update hsound (fun p => getD_set a.states hlt .allocated p) (by simp) ?_ (by simp) ?_
    · intro p hp _
      simpa [poolSize] using hp
    · intro p hp hne
      rw [hr] at hp
      exact (List.mem_cons.1 hp).resolve_left hne

theorem isLive_of_lt_take (h : a.Settled) {p : QubitId} (hp : p < a.take.1) :
    a.isLive p = true := by
  unfold Allocator.take at hp
  cases hr : a.reclaimed with
  | nil =>
    simp only [hr] at hp
    exact h.isLive_of_not_mem hp (by simp [hr])
  | cons q rest =>
    simp only [hr] at hp
    have hq : a.state q = .reclaimed := h.sound.state_of_mem q (by simp [hr])
    have hlt : q < a.poolSize := lt_size_of_state (by simp [hq])
    have hasc := h.sound.ascending
    rw [hr] at hasc
    refine h.isLive_of_not_mem (hp.trans hlt) ?_
    intro hmem
    rw [hr] at hmem
    rcases List.mem_cons.1 hmem with rfl | hmem
    · exact lt_irrefl _ hp
    · exact lt_asymm hp (List.rel_of_pairwise_cons hasc hmem)

theorem takeMany (h : a.Settled) (n : ℕ) :
    (takeMany n a).2.Settled ∧ (takeMany n a).1.Pairwise (· < ·) ∧
      ∀ q ∈ (takeMany n a).1, ∀ p < q, a.isLive p = false → p ∈ (takeMany n a).1 := by
  induction n generalizing a with
  | zero => simp [Allocator.takeMany, h]
  | succ n ih =>
    obtain ⟨-, -, hlive⟩ := take_spec h.sound
    obtain ⟨-, hfresh, -, -⟩ := takeMany_spec n h.take.sound
    obtain ⟨hsettled, hasc, hlow⟩ := ih h.take
    simp only [Allocator.takeMany]
    refine ⟨hsettled, List.pairwise_cons.2 ⟨?_, hasc⟩, ?_⟩
    · intro q hq
      have hdead := hfresh q hq
      rw [hlive, Bool.or_eq_false_iff, decide_eq_false_iff_not] at hdead
      refine lt_of_le_of_ne (le_of_not_gt fun hlt => ?_) (Ne.symm hdead.2)
      rw [h.isLive_of_lt_take hlt] at hdead
      exact absurd hdead.1 (by simp)
    · intro q hq p hp hdead
      by_cases hpt : p = a.take.1
      · exact List.mem_cons.2 (.inl hpt)
      · rcases List.mem_cons.1 hq with rfl | hq
        · rw [h.isLive_of_lt_take hp] at hdead
          exact absurd hdead (by simp)
        · exact List.mem_cons_of_mem _ (hlow q hq p hp (by simp [hlive, hdead, hpt]))

theorem reclaim (h : a.Settled) {q : QubitId} (hq : a.isLive q = true) : (a.reclaim q).Settled := by
  have hlt := lt_size_of_isLive hq
  refine h.update (reclaim_spec h.sound hq).1 (fun p => getD_set a.states hlt .reclaimed p)
    (by simp) ?_ ?_ ?_
  · intro p hp _
    simpa [Allocator.reclaim, poolSize] using hp
  · exact fun _ => (Ordered.mem_insert q q _).2 (.inl rfl)
  · exact fun p hp _ => (Ordered.mem_insert q p _).2 (.inr hp)

theorem foldl_reclaim (h : a.Settled) {qs : List QubitId} (hnodup : qs.Nodup)
    (hlive : ∀ q ∈ qs, a.isLive q = true) : (qs.foldl Allocator.reclaim a).Settled := by
  induction qs generalizing a with
  | nil => exact h
  | cons q qs ih =>
    obtain ⟨hq, hqs⟩ := List.nodup_cons.1 hnodup
    have hfirst := hlive q List.mem_cons_self
    refine ih (h.reclaim hfirst) hqs fun p hp => ?_
    refine ((reclaim_spec h.sound hfirst).2 p).2 ⟨hlive p (List.mem_cons_of_mem _ hp), ?_⟩
    rintro rfl
    exact hq hp

theorem markEntangled (h : a.Settled) (q : QubitId) : (a.markEntangled q).Settled := by
  have hsound := (markEntangled_spec h.sound q).1
  unfold Allocator.markEntangled at hsound ⊢
  split
  · next hq =>
    rw [if_pos hq] at hsound
    have hlt : q < a.states.size := lt_size_of_state (by simp [hq])
    refine h.update hsound (fun p => getD_set a.states hlt .entangled p) (by simp) ?_ (by simp)
      fun p hp _ => hp
    intro p hp _
    simpa [poolSize] using hp
  · exact h

/-! ## Counts -/

theorem lt_poolSize (h : a.Settled) {q : QubitId} (hq : q ∈ a.reclaimed) : q < a.poolSize :=
  lt_size_of_state (by simp [h.sound.state_of_mem q hq])

theorem ncard_add_numFree (h : a.Settled) :
    {q | a.isLive q = true}.ncard + a.numFree = a.poolSize := by
  have hnodup : a.reclaimed.Nodup := h.sound.ascending.imp fun hlt => hlt.ne
  have hfree : (a.reclaimed.toFinset : Finset QubitId).card = a.numFree :=
    List.toFinset_card_of_nodup hnodup
  have hlive : {q | a.isLive q = true} =
      ((Finset.range a.poolSize \ a.reclaimed.toFinset : Finset QubitId) : Set QubitId) := by
    ext q
    simp only [Set.mem_ofPred_eq, Finset.coe_sdiff, Set.mem_sdiff, Finset.mem_coe, Finset.mem_range,
      List.mem_toFinset]
    constructor
    · intro hq
      refine ⟨lt_size_of_isLive hq, fun hmem => ?_⟩
      have hdead := isLive_of_reclaimed (h.sound.state_of_mem q hmem)
      rw [hq] at hdead
      exact absurd hdead (by simp)
    · exact fun hq => h.isLive_of_not_mem hq.1 hq.2
  have hsub : a.reclaimed.toFinset ⊆ Finset.range a.poolSize := by
    intro q hq
    exact Finset.mem_range.2 (h.lt_poolSize (List.mem_toFinset.1 hq))
  have hle := Finset.card_le_card hsub
  rw [hlive, Set.ncard_coe_finset, Finset.card_sdiff_of_subset hsub, Finset.card_range, hfree]
  rw [Finset.card_range, hfree] at hle
  omega

end Settled

theorem takeMany_counts (n : ℕ) (a : Allocator) :
    a.poolSize ≤ (takeMany n a).2.poolSize ∧
      (takeMany n a).2.poolSize + a.numFree = a.poolSize + (takeMany n a).2.numFree + n ∧
      ((takeMany n a).2.poolSize = a.poolSize ∨ (takeMany n a).2.numFree = 0) := by
  induction n generalizing a with
  | zero => simp [takeMany]
  | succ n ih =>
    obtain ⟨hle, hcount, hgrown⟩ := ih a.take.2
    have hstep : (a.take.2.poolSize = a.poolSize ∧ a.take.2.numFree + 1 = a.numFree) ∨
        (a.take.2.poolSize = a.poolSize + 1 ∧ a.numFree = 0 ∧ a.take.2.numFree = 0) := by
      unfold take
      cases hr : a.reclaimed <;> simp [poolSize, numFree, hr]
    simp only [takeMany]
    omega

theorem finite_live (a : Allocator) : {q | a.isLive q = true}.Finite :=
  (Set.finite_lt_nat a.poolSize).subset fun _ hq => lt_size_of_isLive hq

theorem numFree_foldl_reclaim {a : Allocator} (h : a.Settled) {qs : List QubitId}
    (hnodup : qs.Nodup) (hlive : ∀ q ∈ qs, a.isLive q = true) :
    (qs.foldl reclaim a).numFree = a.numFree + qs.length := by
  obtain ⟨-, -, -, hpool⟩ := foldl_reclaim_keeps qs a
  have hset : {q | (qs.foldl reclaim a).isLive q = true} =
      {q | a.isLive q = true} \ ((qs.toFinset : Finset QubitId) : Set QubitId) := by
    ext q
    simpa using (foldl_reclaim_spec h.sound hnodup hlive).2 q
  have hsub : ((qs.toFinset : Finset QubitId) : Set QubitId) ⊆ {q | a.isLive q = true} := by
    intro q hq
    exact hlive q (by simpa using hq)
  have hbefore := h.ncard_add_numFree
  have hafter := (h.foldl_reclaim hnodup hlive).ncard_add_numFree
  have hsplit := Set.ncard_sdiff_add_ncard_of_subset hsub (finite_live a)
  rw [hset, hpool] at hafter
  rw [Set.ncard_coe_finset, List.toFinset_card_of_nodup hnodup] at hsplit
  omega

/-! ## Runs -/

inductive Request
  | allocate (count : ℕ)
  | deallocate (qs : List QubitId)
  | markEntangled (q : QubitId)

def serve (a : Allocator) : Request → Allocator
  | .allocate count => (a.allocate count).2
  | .deallocate qs => (a.deallocate qs).2
  | .markEntangled q => a.markEntangled q

inductive Reachable (capacity : Option ℕ) : Allocator → Prop
  | new : Reachable capacity (new capacity)
  | serve {a : Allocator} (h : Reachable capacity a) (r : Request) :
    Reachable capacity (a.serve r)

/-- The counts agree with the pool. -/
structure Tallied (capacity : Option ℕ) (a : Allocator) : Prop where
  settled : a.Settled
  capacity_eq : a.capacity = capacity
  live_add : a.live + a.numFree = a.poolSize
  peak_eq : a.peak = a.poolSize
  within : ∀ c, capacity = some c → a.live ≤ c

theorem capacityFault?_eq_none_iff {a : Allocator} {n : ℕ} :
    a.capacityFault? n = none ↔ ∀ c, a.capacity = some c → a.live + n ≤ c := by
  unfold capacityFault?
  cases a.capacity with
  | none => simp
  | some c => simp

namespace Tallied

variable {capacity : Option ℕ} {a : Allocator}

theorem allocate (h : Tallied capacity a) (n : ℕ) : Tallied capacity (a.allocate n).2 := by
  unfold Allocator.allocate
  cases hf : a.capacityFault? n with
  | some e => exact h
  | none =>
    obtain ⟨hsettled, -, -⟩ := h.settled.takeMany n
    obtain ⟨hcapacity, hlive, hpeak⟩ := takeMany_keeps n a
    obtain ⟨hle, hcount, hgrown⟩ := takeMany_counts n a
    have hadd := h.live_add
    have hmost := h.peak_eq
    refine ⟨⟨⟨hsettled.sound.ascending, hsettled.sound.state_of_mem⟩, hsettled.mem_of_state,
      hsettled.not_free⟩, hcapacity.trans h.capacity_eq, ?_, ?_, ?_⟩
    · show (Allocator.takeMany n a).2.live + n + (Allocator.takeMany n a).2.numFree =
        (Allocator.takeMany n a).2.poolSize
      omega
    · -- either the pool is as before, or all of it is in use
      show max (Allocator.takeMany n a).2.peak ((Allocator.takeMany n a).2.live + n) =
        (Allocator.takeMany n a).2.poolSize
      rw [hpeak, hlive]
      rcases hgrown with hsame | hused
      · rw [max_eq_left (by omega)]
        omega
      · rw [max_eq_right (by omega)]
        omega
    · intro c hc
      show (Allocator.takeMany n a).2.live + n ≤ c
      rw [hlive]
      exact capacityFault?_eq_none_iff.1 hf c (h.capacity_eq.trans hc)

theorem deallocate (h : Tallied capacity a) (qs : List QubitId) :
    Tallied capacity (a.deallocate qs).2 := by
  unfold Allocator.deallocate
  cases hf : a.releaseFault? [] qs with
  | some e => exact h
  | none =>
    obtain ⟨hall, hnodup, -⟩ := (releaseFault?_eq_none_iff a [] qs).1 hf
    have hsettled := h.settled.foldl_reclaim hnodup hall
    have hfree := numFree_foldl_reclaim h.settled hnodup hall
    obtain ⟨hcapacity, hlive, hpeak, hpool⟩ := foldl_reclaim_keeps qs a
    have hadd := h.live_add
    have hmost := h.peak_eq
    have hfits := hsettled.ncard_add_numFree
    refine ⟨⟨⟨hsettled.sound.ascending, hsettled.sound.state_of_mem⟩, hsettled.mem_of_state,
      hsettled.not_free⟩, hcapacity.trans h.capacity_eq, ?_, ?_, ?_⟩
    · show (qs.foldl reclaim a).live - qs.length + (qs.foldl reclaim a).numFree =
        (qs.foldl reclaim a).poolSize
      omega
    · show (qs.foldl reclaim a).peak = (qs.foldl reclaim a).poolSize
      omega
    · intro c hc
      have hold := h.within c hc
      show (qs.foldl reclaim a).live - qs.length ≤ c
      omega

theorem markEntangled (h : Tallied capacity a) (q : QubitId) :
    Tallied capacity (a.markEntangled q) := by
  have hsettled := h.settled.markEntangled q
  unfold Allocator.markEntangled at hsettled ⊢
  split
  · next hq =>
    rw [if_pos hq] at hsettled
    have hpool : (a.states.setIfInBounds q .entangled).size = a.states.size :=
      Array.size_setIfInBounds
    exact ⟨hsettled, h.capacity_eq, h.live_add.trans hpool.symm, h.peak_eq.trans hpool.symm,
      h.within⟩
  · exact h

end Tallied

theorem Reachable.tallied {capacity : Option ℕ} {a : Allocator} (h : Reachable capacity a) :
    Tallied capacity a := by
  induction h with
  | new => exact ⟨settled_new capacity, rfl, rfl, rfl, fun c _ => Nat.zero_le c⟩
  | serve _ r ih =>
    cases r with
    | allocate n => exact ih.allocate n
    | deallocate qs => exact ih.deallocate qs
    | markEntangled q => exact ih.markEntangled q

theorem eq_map_nth {p : ℕ → Prop} [DecidablePred p] {qs : List ℕ} (hasc : qs.Pairwise (· < ·))
    (hmem : ∀ q ∈ qs, p q) (hlow : ∀ q ∈ qs, ∀ x < q, p x → x ∈ qs) :
    qs = (List.range qs.length).map (Nat.nth p) := by
  induction qs using List.reverseRecOn with
  | nil => rfl
  | append_singleton qs q ih =>
    obtain ⟨hqs, -, hlast⟩ := List.pairwise_append.1 hasc
    have hbelow : ∀ x ∈ qs, x < q := fun x hx => hlast x hx q (List.mem_singleton.2 rfl)
    have hlow' : ∀ x ∈ qs, ∀ y < x, p y → y ∈ qs := by
      intro x hx y hy hpy
      have hy' := hlow x (List.mem_append_left _ hx) y hy hpy
      rcases List.mem_append.1 hy' with h | h
      · exact h
      · have hxq := hbelow x hx
        rw [List.mem_singleton.1 h] at hy
        exact absurd hxq (lt_asymm hy)
    -- the numbers with the property below the last entry are the other entries
    have hcount : Nat.count p q = qs.length := by
      rw [Nat.count_eq_card_filter_range,
        ← List.toFinset_card_of_nodup (hqs.imp fun hlt => hlt.ne)]
      congr 1
      ext x
      rw [Finset.mem_filter, Finset.mem_range, List.mem_toFinset]
      constructor
      · rintro ⟨hx, hpx⟩
        have hx' := hlow q (by simp) x hx hpx
        rcases List.mem_append.1 hx' with h | h
        · exact h
        · exact absurd (List.mem_singleton.1 h) hx.ne
      · exact fun hx => ⟨hbelow x hx, hmem x (List.mem_append_left _ hx)⟩
    have hq : Nat.nth p qs.length = q := by
      rw [← hcount]
      exact Nat.nth_count (hmem q (by simp))
    have hrest := ih hqs (fun x hx => hmem x (List.mem_append_left _ hx)) hlow'
    rw [List.length_append, List.length_singleton, List.range_succ, List.map_append, ← hrest,
      List.map_singleton, hq]

theorem Settled.allocate_ok {a a' : Allocator} (h : a.Settled) {n : ℕ} {qs : List QubitId}
    (hok : a.allocate n = (.ok qs, a')) :
    qs.Pairwise (· < ·) ∧ qs = (List.range n).map (Nat.nth fun q => a.isLive q = false) := by
  obtain ⟨-, hfresh, -, -⟩ := takeMany_spec n h.sound
  obtain ⟨-, hasc, hlow⟩ := h.takeMany n
  have hfirst := eq_map_nth hasc hfresh hlow
  rw [length_takeMany n a] at hfirst
  rw [(allocate_eq hok).1]
  exact ⟨hasc, hfirst⟩

theorem allocate_error_iff {a : Allocator} {n : ℕ} :
    (∃ e, (a.allocate n).1 = .error e) ↔ ∃ c, a.capacity = some c ∧ c < a.live + n := by
  have hnone := capacityFault?_eq_none_iff (a := a) (n := n)
  have hfault : (∃ e, (a.allocate n).1 = .error e) ↔ ¬ a.capacityFault? n = none := by
    unfold allocate
    cases a.capacityFault? n <;> simp
  rw [hfault, hnone]
  push Not
  rfl

theorem deallocate_error_iff {a : Allocator} {qs : List QubitId} :
    (∃ e, (a.deallocate qs).1 = .error e) ↔ (∃ q ∈ qs, a.isLive q = false) ∨ ¬ qs.Nodup := by
  have hok := deallocate_ok_iff a qs
  have herror : (∃ e, (a.deallocate qs).1 = .error e) ↔ ¬ (a.deallocate qs).1 = .ok () := by
    rcases (a.deallocate qs).1 with e | u
    · simp
    · simp
  rw [herror, hok, not_and_or]
  push Not
  simp

/-- After any requests, granted or refused: what is granted are the smallest numbers that were not
in use, ascending; the counts are those of the qubits in use, returned and ever made; the returned
qubits are those of the pool in the state of returned ones, and none is free; the peak is the size
of the pool; and a request is refused exactly if it passes the capacity or returns what is not in
use or is named twice, and then changes nothing. -/
theorem Reachable.pool_contract {capacity : Option ℕ} {a : Allocator} (h : Reachable capacity a) :
    (∀ n qs a', a.allocate n = (.ok qs, a') →
      qs.Pairwise (· < ·) ∧ qs = (List.range n).map (Nat.nth fun q => a.isLive q = false)) ∧
    {q | a.isLive q = true}.Finite ∧ a.live = {q | a.isLive q = true}.ncard ∧
    a.live + a.numFree = a.poolSize ∧ a.reclaimed.Pairwise (· < ·) ∧
    (∀ q, q ∈ a.reclaimed ↔ q < a.poolSize ∧ a.state q = .reclaimed) ∧
    (∀ q < a.poolSize, a.state q ≠ .free) ∧ a.peak = a.poolSize ∧
    (∀ c, capacity = some c → a.live ≤ c) ∧
    (∀ n, (∃ e, (a.allocate n).1 = .error e) ↔ ∃ c, capacity = some c ∧ c < a.live + n) ∧
    (∀ qs, (∃ e, (a.deallocate qs).1 = .error e) ↔
      (∃ q ∈ qs, a.isLive q = false) ∨ ¬ qs.Nodup) ∧
    (∀ n e a', a.allocate n = (.error e, a') → a' = a) ∧
    ∀ qs e a', a.deallocate qs = (.error e, a') → a' = a := by
  have ht := h.tallied
  have hs := ht.settled
  have hcount := hs.ncard_add_numFree
  have hadd := ht.live_add
  refine ⟨fun n qs a' => hs.allocate_ok, finite_live a, by omega, hadd, hs.sound.ascending,
    fun q => ?_, hs.not_free, ht.peak_eq, ht.within, fun n => ?_, fun qs => deallocate_error_iff,
    fun n e a' => allocate_error, fun qs e a' => deallocate_error⟩
  · exact ⟨fun hq => ⟨hs.lt_poolSize hq, hs.sound.state_of_mem q hq⟩,
      fun hq => hs.mem_of_state q hq.2⟩
  · rw [allocate_error_iff, ht.capacity_eq]

theorem Reachable.pool_contract_after_returns :
    ∃ a : Allocator, a = (((Allocator.new (some 6)).serve (.allocate 5)).serve
        (.deallocate [3, 1])).serve (.markEntangled 2) ∧
      (a.allocate 3).1 = .ok [1, 3, 5] ∧
      [1, 3, 5] = (List.range 3).map (Nat.nth fun q => a.isLive q = false) ∧
      a.live = 3 ∧ a.peak = a.poolSize ∧ (∃ e, (a.allocate 4).1 = .error e) ∧
      ∃ e, (a.deallocate [0, 0]).1 = .error e := by
  refine ⟨_, rfl, by decide, ?_⟩
  have hnew : Reachable (some 6) (Allocator.new (some 6)) := .new
  obtain ⟨hgranted, -, -, -, -, -, -, hpeak, -, hrefused, hreturned, -⟩ :=
    Reachable.pool_contract (((hnew.serve (.allocate 5)).serve (.deallocate [3, 1])).serve
      (.markEntangled 2))
  exact ⟨(hgranted 3 [1, 3, 5] _ (Prod.ext (by decide) rfl)).2, by decide, hpeak,
    (hrefused 4).2 ⟨6, rfl, by decide⟩, (hreturned [0, 0]).2 (.inr (by decide))⟩

end Ancilla.Allocator
