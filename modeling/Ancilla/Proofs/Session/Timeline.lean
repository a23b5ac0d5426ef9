import Ancilla.Circuit.Resources
import Ancilla.Proofs.Circuit.Wires
import Ancilla.Proofs.Pool
import Ancilla.Proofs.Session.Ledger

/-!
The timeline of a circuit and the allocator. Both record which qubits are in use, and every entry in
the books records the same in both: the timeline, replayed from its beginning, gives the qubits that
the allocator has in use, and its highest count is the size of the pool, which is the number of
qubits registered with the circuit.
-/

namespace Ancilla

variable {R : Type}

namespace AllocationEvent

def position : AllocationEvent → Nat
  | allocate _ n => n
  | release _ n => n

/-- The qubits in use after some events. A qubit that is in use is not allocated again, and one
that is not in use is not released. -/
def replay? (live : Finset QubitId) : List AllocationEvent → Option (Finset QubitId)
  | [] => some live
  | allocate q _ :: l => if q ∈ live then none else replay? (insert q live) l
  | release q _ :: l => if q ∈ live then replay? (live.erase q) l else none

theorem replay?_append (live : Finset QubitId) (l l' : List AllocationEvent) :
    replay? live (l ++ l') = (replay? live l).bind fun live => replay? live l' := by
  induction l generalizing live with
  | nil => rfl
  | cons e l ih =>
    cases e with
    | allocate q n =>
      simp only [List.cons_append, replay?]
      split
      · rfl
      · exact ih _
    | release q n =>
      simp only [List.cons_append, replay?]
      split
      · exact ih _
      · rfl

theorem replay?_allocate {qs : List QubitId} (hnodup : qs.Nodup) {live : Finset QubitId}
    (hfresh : ∀ q ∈ qs, q ∉ live) (n : Nat) :
    replay? live (qs.map fun q => allocate q n) = some (live ∪ qs.toFinset) := by
  induction qs generalizing live with
  | nil => simp [replay?]
  | cons q qs ih =>
    obtain ⟨hq, hnodup⟩ := List.nodup_cons.1 hnodup
    have hrest : ∀ p ∈ qs, p ∉ insert q live := by
      intro p hp hmem
      rcases Finset.mem_insert.1 hmem with rfl | hmem
      · exact hq hp
      · exact hfresh p (List.mem_cons_of_mem _ hp) hmem
    simp only [List.map_cons, replay?, if_neg (hfresh q List.mem_cons_self)]
    rw [ih hnodup hrest, List.toFinset_cons, Finset.insert_union, Finset.union_insert]

theorem replay?_release {qs : List QubitId} (hnodup : qs.Nodup) {live : Finset QubitId}
    (hlive : ∀ q ∈ qs, q ∈ live) (n : Nat) :
    replay? live (qs.map fun q => release q n) = some (live \ qs.toFinset) := by
  induction qs generalizing live with
  | nil => simp [replay?]
  | cons q qs ih =>
    obtain ⟨hq, hnodup⟩ := List.nodup_cons.1 hnodup
    have hrest : ∀ p ∈ qs, p ∈ live.erase q := by
      intro p hp
      have hne : p ≠ q := fun heq => hq (heq ▸ hp)
      exact Finset.mem_erase.2 ⟨hne, hlive p (List.mem_cons_of_mem _ hp)⟩
    simp only [List.map_cons, replay?, if_pos (hlive q List.mem_cons_self)]
    rw [ih hnodup hrest, List.toFinset_cons, Finset.sdiff_insert, Finset.erase_sdiff_comm]

def tally (start : Nat × Nat) (l : List AllocationEvent) : Nat × Nat :=
  l.foldl
    (fun (live, peak) event => match event with
      | allocate .. => (live + 1, max peak (live + 1))
      | release .. => (live - 1, peak))
    start

theorem tally_append (start : Nat × Nat) (l l' : List AllocationEvent) :
    tally start (l ++ l') = tally (tally start l) l' := List.foldl_append

theorem tally_allocate (qs : List QubitId) {live peak : Nat} (h : live ≤ peak) (n : Nat) :
    tally (live, peak) (qs.map fun q => allocate q n) =
      (live + qs.length, max peak (live + qs.length)) := by
  induction qs generalizing live peak with
  | nil => simp [tally, h]
  | cons q qs ih =>
    have hle : live + 1 ≤ max peak (live + 1) := Nat.le_max_right _ _
    have hrest := ih hle
    have hfirst : tally (live, peak) ((q :: qs).map fun q => allocate q n) =
        tally (live + 1, max peak (live + 1)) (qs.map fun q => allocate q n) := rfl
    rw [hfirst, hrest, List.length_cons, Nat.max_assoc]
    refine Prod.ext ?_ ?_
    · show live + 1 + qs.length = live + (qs.length + 1)
      omega
    · show max peak (max (live + 1) (live + 1 + qs.length)) = max peak (live + (qs.length + 1))
      omega

theorem tally_release (qs : List QubitId) (live peak n : Nat) :
    tally (live, peak) (qs.map fun q => release q n) = (live - qs.length, peak) := by
  induction qs generalizing live with
  | nil => rfl
  | cons q qs ih =>
    have hfirst : tally (live, peak) ((q :: qs).map fun q => release q n) =
        tally (live - 1, peak) (qs.map fun q => release q n) := rfl
    rw [hfirst, ih, List.length_cons, Nat.sub_sub, Nat.add_comm 1]

end AllocationEvent

namespace Circuit

theorem registerQubit_stamps (c : Circuit R) (q : Qubit) :
    (c.registerQubit q).timeline.toList =
        c.timeline.toList ++ [.allocate q.id c.instructions.size] ∧
      (c.registerQubit q).instructions = c.instructions := by
  obtain ⟨-, hq⟩ | ⟨-, hq⟩ := c.registerQubit_cases q <;> simp [hq]

theorem registerAll_stamps (c : Circuit R) (name : String) (qs : List (QubitId × Nat)) :
    (c.registerAll name qs).timeline.toList =
        c.timeline.toList ++ (qs.map Prod.fst).map (.allocate · c.instructions.size) ∧
      (c.registerAll name qs).instructions = c.instructions := by
  induction qs generalizing c with
  | nil => simp [registerAll]
  | cons p qs ih =>
    obtain ⟨htimeline, hsame⟩ := c.registerQubit_stamps ⟨p.1, some name, some p.2⟩
    obtain ⟨hrest, hsame'⟩ := ih (c.registerQubit ⟨p.1, some name, some p.2⟩)
    rw [htimeline, hsame, List.append_assoc] at hrest
    exact ⟨hrest, hsame'.trans hsame⟩

theorem recordRelease_stamps (c : Circuit R) (qs : List QubitId) :
    (c.recordRelease qs).timeline.toList =
      c.timeline.toList ++ qs.map (.release · c.instructions.size) := by
  simp [recordRelease]

def Counts (c : Circuit R) (n : Nat) : Prop := c.qubits.toList.map Qubit.id = List.range n

theorem Counts.registerQubit {c : Circuit R} {n : Nat} (h : c.Counts n) {q : Qubit}
    (hq : q.id ≤ n) : (c.registerQubit q).Counts (if q.id = n then n + 1 else n) := by
  have hmem : (∃ p ∈ c.qubits, p.id = q.id) ↔ q.id < n := by
    have hlist := List.mem_range (m := q.id) (n := n)
    rw [← h, List.mem_map] at hlist
    simpa using hlist
  obtain ⟨hknown, hsame⟩ | ⟨hfresh, hnew⟩ := c.registerQubit_cases q
  · rw [hsame, if_neg (Nat.ne_of_lt (hmem.1 hknown))]
    exact h
  · have hid : q.id = n := by
      by_contra hne
      obtain ⟨p, hp, heq⟩ := hmem.2 (Nat.lt_of_le_of_ne hq hne)
      exact hfresh p hp heq
    rw [hnew, if_pos hid]
    show (c.qubits.push q).toList.map Qubit.id = List.range (n + 1)
    rw [Array.toList_push, List.map_append, h, List.range_succ, List.map_singleton, hid]

theorem Counts.width {c : Circuit R} {n : Nat} (h : c.Counts n) : c.width = n := by
  have hfold : ∀ n : Nat, (List.range n).foldl (fun w i => max w (i + 1)) 0 = n := by
    intro n
    induction n with
    | zero => rfl
    | succ n ih => simp [List.range_succ, ih]
  unfold Circuit.width
  rw [← Array.foldl_toList, ← List.foldl_map (f := Qubit.id) (g := fun w i => max w (i + 1)), h]
  exact hfold n

theorem Counts.numQubits {c : Circuit R} {n : Nat} (h : c.Counts n) : c.numQubits = n := by
  have hlength := congrArg List.length h
  simpa [Circuit.numQubits] using hlength

theorem Counts.registerAll {a : Allocator} (ha : a.Settled) {c : Circuit R}
    (h : c.Counts a.poolSize) (name : String) (n k : Nat) :
    (c.registerAll name ((Allocator.takeMany n a).1.zipIdx k)).Counts
      (Allocator.takeMany n a).2.poolSize := by
  induction n generalizing a c k with
  | zero => exact h
  | succ n ih =>
    have hfirst : a.take.1 ≤ a.poolSize ∧
        a.take.2.poolSize = if a.take.1 = a.poolSize then a.poolSize + 1 else a.poolSize := by
      unfold Allocator.take
      cases hr : a.reclaimed with
      | nil => simp [Allocator.poolSize]
      | cons q rest =>
        have hlt : q < a.states.size := ha.lt_poolSize (by simp [hr])
        simp [Allocator.poolSize, Nat.ne_of_lt hlt, Nat.le_of_lt hlt]
    have hnext := h.registerQubit (q := ⟨a.take.1, some name, some k⟩) hfirst.1
    rw [← hfirst.2] at hnext
    exact ih ha.take hnext (k + 1)

theorem push_stamps (c : Circuit R) (i : Instruction R) :
    (c.push i).2.timeline = c.timeline ∧ (c.push i).2.qubits = c.qubits ∧
      c.instructions.size ≤ (c.push i).2.instructions.size := by
  obtain ⟨g, -, hpush⟩ := c.push_shape i
  rw [hpush]
  refine ⟨rfl, rfl, ?_⟩
  cases (c.push i).1.isOk <;> simp

end Circuit

/-- Positions never decrease, and none is beyond the end of the instructions. -/
structure Dated (l : List AllocationEvent) (n : Nat) : Prop where
  ordered : (l.map AllocationEvent.position).Pairwise (· ≤ ·)
  bounded : ∀ e ∈ l, e.position ≤ n

theorem Dated.mono {l : List AllocationEvent} {n m : Nat} (h : Dated l n) (hnm : n ≤ m) :
    Dated l m := ⟨h.ordered, fun e he => (h.bounded e he).trans hnm⟩

theorem Dated.append {l l' : List AllocationEvent} {n : Nat} (h : Dated l n)
    (hl' : ∀ e ∈ l', e.position = n) : Dated (l ++ l') n := by
  constructor
  · rw [List.map_append, List.pairwise_append]
    refine ⟨h.ordered, ?_, fun i hi j hj => ?_⟩
    · refine List.pairwise_map.2 (List.pairwise_of_forall_mem_list fun e he e' he' => ?_)
      rw [hl' e he, hl' e' he']
    · obtain ⟨e, he, rfl⟩ := List.mem_map.1 hi
      obtain ⟨e', he', rfl⟩ := List.mem_map.1 hj
      rw [hl' e' he']
      exact h.bounded e he
  · intro e he
    rcases List.mem_append.1 he with he | he
    · exact h.bounded e he
    · exact (hl' e he).le

namespace Allocator

theorem mem_liveQubits (a : Allocator) (q : QubitId) : q ∈ a.liveQubits ↔ a.isLive q = true := by
  simp only [liveQubits, List.mem_filter, List.mem_range, and_iff_right_iff_imp]
  exact fun hq => lt_size_of_isLive hq

theorem allocate_counts {a a' : Allocator} {n : Nat} {qs : List QubitId}
    (h : a.allocate n = (.ok qs, a')) :
    qs = (takeMany n a).1 ∧ a'.poolSize = (takeMany n a).2.poolSize ∧
      a'.live = a.live + qs.length ∧ a'.peak = max a.peak (a.live + qs.length) := by
  obtain ⟨-, hkept, hpeak⟩ := takeMany_keeps n a
  have hlength := length_takeMany n a
  obtain ⟨rfl, rfl⟩ := allocate_eq h
  exact ⟨rfl, rfl, by rw [hlength, ← hkept], by rw [hlength, ← hkept, ← hpeak]⟩

theorem deallocate_counts {a a' : Allocator} {qs : List QubitId}
    (h : a.deallocate qs = (.ok (), a')) :
    a'.poolSize = a.poolSize ∧ a'.live = a.live - qs.length ∧ a'.peak = a.peak := by
  obtain ⟨-, hkept, hpeak, hpool⟩ := foldl_reclaim_keeps qs a
  obtain rfl := deallocate_eq h
  exact ⟨hpool, by rw [← hkept], hpeak⟩

theorem Tallied.foldl_markEntangled {capacity : Option ℕ} {a : Allocator}
    (h : Tallied capacity a) (qs : List QubitId) :
    Tallied capacity (qs.foldl Allocator.markEntangled a) := by
  induction qs generalizing a with
  | nil => exact h
  | cons q qs ih => exact ih (h.markEntangled q)

end Allocator

structure Books.Agreeing (b : Books R) : Prop where
  tallied : ∃ capacity, b.allocator.Tallied capacity
  counts : b.circuit.Counts b.allocator.poolSize
  replayed : AllocationEvent.replay? ∅ b.circuit.timeline.toList =
    some b.allocator.liveQubits.toFinset
  tally : AllocationEvent.tally (0, 0) b.circuit.timeline.toList =
    (b.allocator.live, b.allocator.peak)
  dated : Dated b.circuit.timeline.toList b.circuit.instructions.size

namespace Books.Agreeing

variable {b : Books R}

theorem new (config : SessionConfig) : (Books.new config : Books R).Agreeing :=
  ⟨⟨config.maxQubits, Allocator.Reachable.new.tallied⟩, rfl, rfl, rfl, by simp [Books.new, Circuit.new],
    by simp [Books.new, Circuit.new]⟩

theorem request (h : b.Agreeing) (count : Nat) (name : String) :
    (b.enter (.request count name)).Agreeing := by
  obtain ⟨⟨capacity, htallied⟩, hcounts, hreplayed, htally, hdated⟩ := h
  rcases hgrant : b.allocator.allocate count with ⟨e | qs, a⟩
  · have hsame := Allocator.allocate_error hgrant
    subst hsame
    simp only [enter, hgrant]
    exact ⟨⟨capacity, htallied⟩, hcounts, hreplayed, htally, hdated⟩
  · -- the events of the request follow all others, so each part is taken on by them
    have hnext := htallied.allocate count
    obtain ⟨hnodup, hfresh, -, hlive⟩ := Allocator.allocate_spec htallied.settled.sound hgrant
    rw [hgrant] at hnext
    obtain ⟨htimeline, hinstructions⟩ := b.circuit.registerAll_stamps name qs.zipIdx
    rw [List.zipIdx_map_fst] at htimeline
    obtain ⟨htaken, hpool, hcount, hmost⟩ := Allocator.allocate_counts hgrant
    simp only [enter, hgrant]
    refine ⟨⟨capacity, hnext⟩, ?_, ?_, ?_, ?_⟩
    · show (b.circuit.registerAll name qs.zipIdx).Counts a.poolSize
      rw [hpool, htaken]
      exact hcounts.registerAll htallied.settled name count 0
    · show AllocationEvent.replay? ∅ (b.circuit.registerAll name qs.zipIdx).timeline.toList = _
      have hunused : ∀ q ∈ qs, q ∉ b.allocator.liveQubits.toFinset := by
        intro q hq
        rw [List.mem_toFinset, Allocator.mem_liveQubits, hfresh q hq]
        exact Bool.false_ne_true
      have hgranted := AllocationEvent.replay?_allocate hnodup hunused b.circuit.instructions.size
      rw [htimeline, AllocationEvent.replay?_append, hreplayed, Option.bind_some, hgranted]
      congr 1
      ext q
      simp [Allocator.mem_liveQubits, hlive]
    · show AllocationEvent.tally (0, 0)
        (b.circuit.registerAll name qs.zipIdx).timeline.toList = (a.live, a.peak)
      have hle : b.allocator.live ≤ b.allocator.peak := by
        have hadd := htallied.live_add
        have hpeak := htallied.peak_eq
        omega
      rw [htimeline, AllocationEvent.tally_append, htally,
        AllocationEvent.tally_allocate qs hle, hcount, hmost]
    · show Dated (b.circuit.registerAll name qs.zipIdx).timeline.toList
        (b.circuit.registerAll name qs.zipIdx).instructions.size
      rw [htimeline, hinstructions]
      refine hdated.append fun e he => ?_
      obtain ⟨q, -, rfl⟩ := List.mem_map.1 he
      rfl

theorem returned (h : b.Agreeing) (qs : List QubitId) : (b.enter (.returned qs)).Agreeing := by
  obtain ⟨⟨capacity, htallied⟩, hcounts, hreplayed, htally, hdated⟩ := h
  have hnext := htallied.deallocate qs
  rcases hback : b.allocator.deallocate qs with ⟨e | _, a⟩
  · have hsame := Allocator.deallocate_error hback
    subst hsame
    simp only [enter, hback]
    exact ⟨⟨capacity, htallied⟩, hcounts, hreplayed, htally, hdated⟩
  · rw [hback] at hnext
    obtain ⟨hall, hnodup⟩ := (Allocator.deallocate_ok_iff b.allocator qs).1 (by rw [hback])
    obtain ⟨-, hlive⟩ := Allocator.deallocate_spec htallied.settled.sound hback
    obtain ⟨hpool, hcount, hmost⟩ := Allocator.deallocate_counts hback
    have htimeline := b.circuit.recordRelease_stamps qs
    simp only [enter, hback]
    refine ⟨⟨capacity, hnext⟩, ?_, ?_, ?_, ?_⟩
    · show b.circuit.Counts a.poolSize
      rw [hpool]
      exact hcounts
    · show AllocationEvent.replay? ∅ (b.circuit.recordRelease qs).timeline.toList = _
      have hused : ∀ q ∈ qs, q ∈ b.allocator.liveQubits.toFinset := by
        intro q hq
        rw [List.mem_toFinset, Allocator.mem_liveQubits]
        exact hall q hq
      have hreleased := AllocationEvent.replay?_release hnodup hused b.circuit.instructions.size
      rw [htimeline, AllocationEvent.replay?_append, hreplayed, Option.bind_some, hreleased]
      congr 1
      ext q
      simp [Allocator.mem_liveQubits, hlive]
    · show AllocationEvent.tally (0, 0) (b.circuit.recordRelease qs).timeline.toList =
        (a.live, a.peak)
      rw [htimeline, AllocationEvent.tally_append, htally, AllocationEvent.tally_release, hcount,
        hmost]
    · show Dated (b.circuit.recordRelease qs).timeline.toList b.circuit.instructions.size
      rw [htimeline]
      refine hdated.append fun e he => ?_
      obtain ⟨q, -, rfl⟩ := List.mem_map.1 he
      rfl

theorem delivered (h : b.Agreeing) (i : Instruction R) : (b.enter (.delivered i)).Agreeing := by
  obtain ⟨⟨capacity, htallied⟩, hcounts, hreplayed, htally, hdated⟩ := h
  obtain ⟨htimeline, hqubits, hsize⟩ := b.circuit.push_stamps i
  obtain ⟨-, hlive⟩ := Allocator.foldl_markEntangled_spec htallied.settled.sound i.qubits
  have hnext := htallied.foldl_markEntangled i.qubits
  have hsame : (i.qubits.foldl Allocator.markEntangled b.allocator).live = b.allocator.live ∧
      (i.qubits.foldl Allocator.markEntangled b.allocator).peak = b.allocator.peak := by
    rw [Allocator.foldl_markEntangled_eq]
    exact ⟨rfl, rfl⟩
  have hpool : (i.qubits.foldl Allocator.markEntangled b.allocator).poolSize =
      b.allocator.poolSize := by
    rw [← hnext.peak_eq, ← htallied.peak_eq, hsame.2]
  refine ⟨⟨capacity, hnext⟩, ?_, ?_, ?_, ?_⟩
  · show (b.circuit.push i).2.qubits.toList.map Qubit.id = List.range _
    rw [hqubits]
    exact hcounts.trans (congrArg List.range hpool.symm)
  · show AllocationEvent.replay? ∅ (b.circuit.push i).2.timeline.toList = some _
    rw [htimeline, hreplayed]
    congr 1
    ext q
    simp only [List.mem_toFinset, Allocator.mem_liveQubits]
    show _ ↔ (i.qubits.foldl Allocator.markEntangled b.allocator).isLive q = true
    rw [hlive]
  · show AllocationEvent.tally (0, 0) (b.circuit.push i).2.timeline.toList = (_, _)
    rw [htimeline, htally]
    exact Prod.ext hsame.1.symm hsame.2.symm
  · show Dated (b.circuit.push i).2.timeline.toList (b.circuit.push i).2.instructions.size
    rw [htimeline]
    exact hdated.mono hsize

theorem enter (h : b.Agreeing) (e : Entry R) : (b.enter e).Agreeing := by
  cases e with
  | request count name => exact h.request count name
  | returned qs => exact h.returned qs
  | bit source => exact ⟨h.tallied, h.counts, h.replayed, h.tally, h.dated⟩
  | delivered i => exact h.delivered i

end Books.Agreeing

theorem ResourceCounts.ofCircuit_width (c : Circuit R) : (ofCircuit c).width =
    if c.timeline.isEmpty then c.numQubits else (AllocationEvent.tally (0, 0) c.timeline.toList).2 := by
  have hadd : ∀ (l : List (Instruction R)) (r : ResourceCounts), (l.foldl add r).width = r.width := by
    intro l
    induction l with
    | nil => exact fun r => rfl
    | cons i l ih =>
      intro r
      have hfirst : (r.add i).width = r.width := by
        unfold add
        split <;> rfl
      rw [List.foldl_cons, ih, hfirst]
  unfold ofCircuit
  rw [← Array.foldl_toList, hadd]
  rfl

namespace Session

variable [Scalar R]

/-- After any calls, with whatever success: replaying the timeline gives the qubits in use, and no
event allocates one in use or releases another; positions never decrease nor pass the end of the
instructions; and the reported width is the peak of the allocator, the size of its pool, and the
number of qubits of the circuit and its width. -/
theorem Reachable.timeline_agrees {s : Session R} (h : s.Reachable) :
    AllocationEvent.replay? ∅ s.circuit.timeline.toList = some s.allocator.liveQubits.toFinset ∧
    (s.circuit.timeline.toList.map AllocationEvent.position).Pairwise (· ≤ ·) ∧
    (∀ e ∈ s.circuit.timeline, e.position ≤ s.circuit.numOps) ∧
    (ResourceCounts.ofCircuit s.circuit).width = s.allocator.peak ∧
    s.allocator.peak = s.allocator.poolSize ∧ s.allocator.poolSize = s.circuit.numQubits ∧
    s.circuit.numQubits = s.circuit.width := by
  have hbooks : s.books.Agreeing :=
    h.books_invariant Books.Agreeing.new fun b e hb => hb.enter e
  obtain ⟨⟨capacity, htallied⟩, hcounts, hreplayed, htally, hdated⟩ := hbooks
  have hpeak : s.allocator.peak = s.allocator.poolSize := htallied.peak_eq
  have hnum : s.circuit.numQubits = s.allocator.poolSize := hcounts.numQubits
  refine ⟨hreplayed, hdated.ordered, fun e he => hdated.bounded e (Array.mem_toList_iff.2 he), ?_,
    hpeak, hnum.symm, hnum.trans hcounts.width.symm⟩
  rw [ResourceCounts.ofCircuit_width]
  split
  · exact hnum.trans hpeak.symm
  · exact congrArg Prod.snd htally

theorem Reachable.timeline_agrees_after_leak :
    ∃ s : Session Float, s = (Session.new {}).after [.allocate 2 "a", .enter .scope "l",
      .allocate 1 "b", .apply (.ofStandard .x) [2], .exit 1, .apply (.ofStandard .cx) [0, 0],
      .release [1], .enter .conjugation "c", .allocate 1 "d", .abort 2] ∧
      s.circuit.timeline = #[.allocate 0 0, .allocate 1 0, .allocate 2 0, .release 2 1,
        .release 1 1, .allocate 1 1, .release 1 1] ∧
      AllocationEvent.replay? ∅ s.circuit.timeline.toList = some {0} ∧
      (ResourceCounts.ofCircuit s.circuit).width = 3 := by
  have hreach := (Reachable.new (R := Float) {}).after [.allocate 2 "a", .enter .scope "l",
      .allocate 1 "b", .apply (.ofStandard .x) [2], .exit 1, .apply (.ofStandard .cx) [0, 0],
      .release [1], .enter .conjugation "c", .allocate 1 "d", .abort 2]
  obtain ⟨hreplay, -, -, hwidth, -⟩ := Reachable.timeline_agrees hreach
  refine ⟨_, rfl, by decide +kernel, hreplay.trans ?_, hwidth.trans ?_⟩
  · decide +kernel
  · decide +kernel

end Session

end Ancilla
