import Ancilla.Proofs.Session.Timeline

/-!
The states of the qubits in use, and the instructions that led to them. A qubit is allocated when it
is handed out, and becomes entangled by the first instruction naming it that is delivered to the
circuit. That may also be a barrier, or an instruction that the circuit then refuses; other than
these, the instructions delivered since are those appended to the circuit since its latest
allocation.
-/

namespace Ancilla

variable {R : Type}

namespace Allocator

theorem state_takeMany (n : Nat) {a : Allocator} (ha : a.Sound) (p : QubitId) :
    (takeMany n a).2.state p = if p ∈ (takeMany n a).1 then .allocated else a.state p := by
  induction n generalizing a with
  | zero => rfl
  | succ n ih =>
    have hrest := ih (take_spec ha).2.1
    have hfirst : a.take.2.state p = if p = a.take.1 then .allocated else a.state p := by
      unfold take
      cases hr : a.reclaimed with
      | nil => exact getD_push a.states .allocated p
      | cons q rest =>
        have hq : a.state q = .reclaimed := ha.state_of_mem q (by simp [hr])
        exact getD_set a.states (lt_size_of_state (by simp [hq])) .allocated p
    simp only [takeMany, List.mem_cons]
    rw [hrest, hfirst]
    by_cases h₁ : p ∈ (takeMany n a.take.2).1
    · simp [h₁]
    · simp [h₁]

theorem state_allocate {a a' : Allocator} {n : Nat} {qs : List QubitId} (ha : a.Sound)
    (h : a.allocate n = (.ok qs, a')) (p : QubitId) :
    a'.state p = if p ∈ qs then .allocated else a.state p := by
  obtain ⟨rfl, rfl⟩ := allocate_eq h
  exact state_takeMany n ha p

theorem state_deallocate {a a' : Allocator} {qs : List QubitId} {r : Except ResourceError Unit}
    (h : a.deallocate qs = (r, a')) {p : QubitId} (hp : p ∉ qs) : a'.state p = a.state p := by
  have hfold : ∀ (qs : List QubitId) (a : Allocator), p ∉ qs →
      (qs.foldl reclaim a).state p = a.state p := by
    intro qs
    induction qs with
    | nil => exact fun a _ => rfl
    | cons q qs ih =>
      intro a hp
      obtain ⟨hne, hp⟩ := not_or.1 (mt List.mem_cons.2 hp)
      have hfirst : (a.reclaim q).state p = a.state p := by
        simp [reclaim, state, Array.getD_eq_getD_getElem?, Ne.symm hne]
      rw [List.foldl_cons, ih _ hp, hfirst]
  unfold deallocate at h
  split at h
  · rw [← (Prod.mk.inj h).2]
  · rw [← (Prod.mk.inj h).2]
    exact hfold qs a hp

theorem state_foldl_markEntangled (qs : List QubitId) (a : Allocator) (p : QubitId) :
    (qs.foldl markEntangled a).state p =
      if p ∈ qs ∧ a.state p = .allocated then .entangled else a.state p := by
  induction qs generalizing a with
  | nil => simp
  | cons q qs ih =>
    have hfirst : (a.markEntangled q).state p =
        if p = q ∧ a.state p = .allocated then .entangled else a.state p := by
      unfold markEntangled
      by_cases hq : a.state q = .allocated
      · have hlt : q < a.states.size := lt_size_of_state (by simp [hq])
        have hset := getD_set a.states hlt .entangled p
        rw [if_pos hq]
        refine hset.trans ?_
        by_cases hp : p = q
        · simp [hp, hq]
        · simp [hp, state]
      · rw [if_neg hq]
        by_cases hp : p = q
        · simp [hp, hq]
        · simp [hp]
    rw [List.foldl_cons, ih, hfirst]
    by_cases hs : a.state p = .allocated
    · by_cases hp : p = q
      · subst hp
        simp [hs]
      · simp [hp, hs]
    · simp [hs]

end Allocator

/-! ## What reaches a qubit -/

def AllocationEvent.latest (q : QubitId) (start : Nat) (l : List AllocationEvent) : Nat :=
  l.foldl
    (fun n event => match event with
      | allocate p m => if p = q then m else n
      | release _ _ => n)
    start

namespace AllocationEvent

theorem latest_append (q : QubitId) (start : Nat) (l l' : List AllocationEvent) :
    latest q start (l ++ l') = latest q (latest q start l) l' := List.foldl_append

theorem latest_allocate (q : QubitId) (start n : Nat) (qs : List QubitId) :
    latest q start (qs.map (allocate · n)) = if q ∈ qs then n else start := by
  induction qs generalizing start with
  | nil => rfl
  | cons p qs ih =>
    have hfirst : latest q start ((p :: qs).map (allocate · n)) =
        latest q (if p = q then n else start) (qs.map (allocate · n)) := rfl
    rw [hfirst, ih]
    by_cases hq : q ∈ qs
    · simp [hq]
    · simp [hq, eq_comm]

theorem latest_release (q : QubitId) (start n : Nat) (qs : List QubitId) :
    latest q start (qs.map (release · n)) = start := by
  induction qs with
  | nil => rfl
  | cons p qs ih => exact ih

theorem latest_le {l : List AllocationEvent} {n : Nat} (h : Dated l n) (q : QubitId) {start : Nat}
    (hstart : start ≤ n) : latest q start l ≤ n := by
  induction l generalizing start with
  | nil => exact hstart
  | cons e l ih =>
    have hrest : Dated l n := ⟨(List.pairwise_cons.1 h.ordered).2,
      fun e he => h.bounded e (List.mem_cons_of_mem _ he)⟩
    have he := h.bounded e List.mem_cons_self
    cases e with
    | allocate p m =>
      refine ih hrest ?_
      show (if p = q then m else start) ≤ n
      split
      · exact he
      · exact hstart
    | release p m => exact ih hrest hstart

end AllocationEvent

namespace Circuit

def since (c : Circuit R) (q : QubitId) : List (Instruction R) :=
  c.instructions.toList.drop (AllocationEvent.latest q 0 c.timeline.toList)

end Circuit

namespace Books

/-- The instructions delivered since a qubit was last handed out, after one more entry. Each has the
mark whether the circuit took it. -/
def recount (b : Books R) (q : QubitId) (l : List (Instruction R × Bool)) :
    Entry R → List (Instruction R × Bool)
  | .request count _ => match (b.allocator.allocate count).1 with
    | .ok qs => if q ∈ qs then [] else l
    | .error _ => l
  | .delivered i => l ++ [(i, (b.circuit.push i).1.isOk)]
  | .returned _ | .bit _ => l

def reached (q : QubitId) : Books R → List (Instruction R × Bool) → List (Entry R) →
    List (Instruction R × Bool)
  | _, l, [] => l
  | b, l, e :: es => reached q (b.enter e) (b.recount q l e) es

/-- What has been delivered since a qubit was handed out tells its state and the instructions that
were appended. -/
structure Traces (b : Books R) (q : QubitId) (l : List (Instruction R × Bool)) : Prop where
  agreeing : b.Agreeing
  appended : b.allocator.isLive q = true → (l.filter Prod.snd).map Prod.fst = b.circuit.since q
  state : b.allocator.isLive q = true →
    b.allocator.state q = if ∃ d ∈ l, q ∈ d.1.qubits then .entangled else .allocated

namespace Traces

variable {b : Books R} {q : QubitId} {l : List (Instruction R × Bool)}

theorem new (config : SessionConfig) (q : QubitId) : (Books.new config : Books R).Traces q [] := by
  have hdead : ¬ (Books.new config : Books R).allocator.isLive q = true := by
    rw [show (Books.new config : Books R).allocator.isLive q = false from
      Allocator.isLive_new config.maxQubits q]
    exact Bool.false_ne_true
  exact ⟨Agreeing.new config, fun h => absurd h hdead, fun h => absurd h hdead⟩

theorem request (h : b.Traces q l) (count : Nat) (name : String) :
    (b.enter (.request count name)).Traces q (b.recount q l (.request count name)) := by
  have hnext := h.agreeing.request count name
  obtain ⟨capacity, htallied⟩ := h.agreeing.tallied
  have hsound := htallied.settled.sound
  rcases hgrant : b.allocator.allocate count with ⟨e | qs, a⟩
  · have hsame := Allocator.allocate_error hgrant
    subst hsame
    simp only [enter, recount, hgrant]
    exact ⟨h.agreeing, h.appended, h.state⟩
  · obtain ⟨-, -, -, hlive⟩ := Allocator.allocate_spec hsound hgrant
    have hstate := Allocator.state_allocate hsound hgrant q
    obtain ⟨htimeline, hinstructions⟩ := b.circuit.registerAll_stamps name qs.zipIdx
    rw [List.zipIdx_map_fst] at htimeline
    have hsince : (b.circuit.registerAll name qs.zipIdx).since q =
        if q ∈ qs then [] else b.circuit.since q := by
      unfold Circuit.since
      rw [htimeline, hinstructions, AllocationEvent.latest_append, AllocationEvent.latest_allocate]
      split
      · simp
      · rfl
    simp only [enter, hgrant] at hnext
    simp only [enter, recount, hgrant]
    by_cases hq : q ∈ qs
    · rw [if_pos hq] at hsince hstate ⊢
      exact ⟨hnext, fun _ => hsince.symm, fun _ => hstate.trans (by simp)⟩
    · rw [if_neg hq] at hsince hstate ⊢
      have hbefore : a.isLive q = true → b.allocator.isLive q = true := fun hlive' =>
        ((hlive q).1 hlive').resolve_right hq
      exact ⟨hnext, fun hlive' => (h.appended (hbefore hlive')).trans hsince.symm,
        fun hlive' => hstate.trans (h.state (hbefore hlive'))⟩

theorem returned (h : b.Traces q l) (qs : List QubitId) : (b.enter (.returned qs)).Traces q l := by
  have hnext := h.agreeing.returned qs
  obtain ⟨capacity, htallied⟩ := h.agreeing.tallied
  rcases hback : b.allocator.deallocate qs with ⟨e | _, a⟩
  · have hsame := Allocator.deallocate_error hback
    subst hsame
    simp only [enter, hback]
    exact ⟨h.agreeing, h.appended, h.state⟩
  · obtain ⟨-, hlive⟩ := Allocator.deallocate_spec htallied.settled.sound hback
    have hsince : (b.circuit.recordRelease qs).since q = b.circuit.since q := by
      unfold Circuit.since
      rw [b.circuit.recordRelease_stamps, AllocationEvent.latest_append,
        AllocationEvent.latest_release]
      rfl
    simp only [enter, hback] at hnext ⊢
    refine ⟨hnext, fun hlive' => ?_, fun hlive' => ?_⟩
    · exact (h.appended ((hlive q).1 hlive').1).trans hsince.symm
    · obtain ⟨hbefore, hq⟩ := (hlive q).1 hlive'
      exact (Allocator.state_deallocate hback hq).trans (h.state hbefore)

theorem delivered (h : b.Traces q l) (i : Instruction R) :
    (b.enter (.delivered i)).Traces q (b.recount q l (.delivered i)) := by
  obtain ⟨capacity, htallied⟩ := h.agreeing.tallied
  have hlive := (Allocator.foldl_markEntangled_spec htallied.settled.sound i.qubits).2 q
  obtain ⟨htimeline, -, -⟩ := b.circuit.push_stamps i
  have hborn : AllocationEvent.latest q 0 b.circuit.timeline.toList ≤
      b.circuit.instructions.toList.length := by
    rw [Array.length_toList]
    exact AllocationEvent.latest_le h.agreeing.dated q (Nat.zero_le _)
  refine ⟨h.agreeing.delivered i, fun hlive' => ?_, fun hlive' => ?_⟩
  · have hold := h.appended (hlive.symm.trans hlive')
    show ((l ++ [(i, (b.circuit.push i).1.isOk)]).filter Prod.snd).map Prod.fst =
      (b.circuit.push i).2.since q
    unfold Circuit.since at hold ⊢
    rw [htimeline, b.circuit.push_appends, List.drop_append_of_le_length hborn, ← hold,
      List.filter_append, List.map_append]
    congr 1
    cases (b.circuit.push i).1.isOk <;> rfl
  · have hold := h.state (hlive.symm.trans hlive')
    show (i.qubits.foldl Allocator.markEntangled b.allocator).state q =
      if ∃ d ∈ l ++ [(i, (b.circuit.push i).1.isOk)], q ∈ d.1.qubits then .entangled else .allocated
    rw [Allocator.state_foldl_markEntangled, hold]
    have hsplit : (∃ d ∈ l ++ [(i, (b.circuit.push i).1.isOk)], q ∈ d.1.qubits) ↔
        (∃ d ∈ l, q ∈ d.1.qubits) ∨ q ∈ i.qubits := by
      simp only [List.mem_append, List.mem_singleton, or_and_right, exists_or, exists_eq_left]
    simp only [hsplit]
    by_cases hl : ∃ d ∈ l, q ∈ d.1.qubits
    · simp only [hl, true_or, if_true, ite_self]
    · simp only [hl, false_or, if_false, and_true]

theorem enter (h : b.Traces q l) (e : Entry R) : (b.enter e).Traces q (b.recount q l e) := by
  cases e with
  | request count name => exact h.request count name
  | returned qs => exact h.returned qs
  | bit source => exact ⟨h.agreeing.enter (.bit source), h.appended, h.state⟩
  | delivered i => exact h.delivered i

theorem enterAll (h : b.Traces q l) (es : List (Entry R)) :
    (b.enterAll es).Traces q (b.reached q l es) := by
  induction es generalizing b l with
  | nil => exact h
  | cons e es ih => exact ih (h.enter e)

end Traces

end Books

namespace Session

variable [Scalar R]

def ledger (s : Session R) : List (Call R) → List (Entry R)
  | [] => []
  | c :: cs => c.entries s ++ ledger (c.perform s).2 cs

theorem after_books (s : Session R) (cs : List (Call R)) :
    (s.after cs).books = s.books.enterAll (s.ledger cs) := by
  induction cs generalizing s with
  | nil => rfl
  | cons c cs ih => rw [after_cons, ih, perform_books, ledger, Books.enterAll_append]

/-- The instructions that calls on a new session have delivered to the circuit since a qubit was
last handed out, each with the mark whether the circuit took it. -/
def deliveredSince (config : SessionConfig) (cs : List (Call R)) (q : QubitId) :
    List (Instruction R × Bool) :=
  (Books.new config).reached q [] ((new config).ledger cs)

/-- A qubit in use is entangled exactly if an instruction naming it has been delivered since it was
handed out, and allocated otherwise; what the circuit took of these is what has been appended since
its latest allocation. So it is entangled if an appended instruction names it, and only then unless
a barrier or a refused instruction names it. -/
theorem state_iff_delivered (config : SessionConfig) (cs : List (Call R)) {q : QubitId}
    (hq : ((new config).after cs).allocator.isLive q = true) :
    let s := (new config).after cs
    let delivered := deliveredSince config cs q
    (delivered.filter Prod.snd).map Prod.fst = s.circuit.since q ∧
    (s.allocator.state q = .entangled ↔ ∃ d ∈ delivered, q ∈ d.1.qubits) ∧
    (s.allocator.state q = .allocated ↔ ¬ ∃ d ∈ delivered, q ∈ d.1.qubits) ∧
    ((∃ i ∈ s.circuit.since q, i.isBarrier = false ∧ q ∈ i.qubits) →
      s.allocator.state q = .entangled) ∧
    ((∀ d ∈ delivered, q ∈ d.1.qubits → d.2 = true ∧ d.1.isBarrier = false) →
      (s.allocator.state q = .entangled ↔
        ∃ i ∈ s.circuit.since q, i.isBarrier = false ∧ q ∈ i.qubits)) := by
  intro s delivered
  have htraces : s.books.Traces q delivered := by
    have hall := (Books.Traces.new (R := R) config q).enterAll ((new config).ledger cs)
    rw [show s.books = (Books.new config).enterAll _ from after_books (new config) cs]
    exact hall
  have happended : (delivered.filter Prod.snd).map Prod.fst = s.circuit.since q :=
    htraces.appended hq
  have hstate : s.allocator.state q =
      if ∃ d ∈ delivered, q ∈ d.1.qubits then .entangled else .allocated := htraces.state hq
  have hmem : ∀ i, i ∈ s.circuit.since q ↔ (i, true) ∈ delivered := by
    intro i
    rw [← happended]
    simp [List.mem_filter]
  have hentangled : s.allocator.state q = .entangled ↔ ∃ d ∈ delivered, q ∈ d.1.qubits := by
    rw [hstate]
    split <;> simp_all
  have hallocated : s.allocator.state q = .allocated ↔ ¬ ∃ d ∈ delivered, q ∈ d.1.qubits := by
    rw [hstate]
    split <;> simp_all
  have honly : (∃ i ∈ s.circuit.since q, i.isBarrier = false ∧ q ∈ i.qubits) →
      s.allocator.state q = .entangled := by
    rintro ⟨i, hi, -, hqi⟩
    exact hentangled.2 ⟨(i, true), (hmem i).1 hi, hqi⟩
  refine ⟨happended, hentangled, hallocated, honly, fun hgood => ⟨fun hs => ?_, honly⟩⟩
  obtain ⟨⟨i, taken⟩, hd, hqi⟩ := hentangled.1 hs
  obtain ⟨rfl, hbarrier⟩ := hgood _ hd hqi
  exact ⟨i, (hmem i).2 hd, hbarrier, hqi⟩

theorem state_iff_delivered_after_reuse :
    ∃ cs : List (Call Float), cs = [.allocate 2 "a", .apply (.ofStandard .cx) [0, 1],
      .assertRestored [0, 1], .release [1], .allocate 1 "b", .barrier [0]] ∧
      deliveredSince {} cs 1 = [(.barrier [0], true)] ∧
      ((new {}).after cs).circuit.since 1 = [.barrier [0]] ∧
      ((new {}).after cs).allocator.state 1 = .allocated := by
  refine ⟨_, rfl, by decide +kernel, ?_⟩
  obtain ⟨happended, -, hallocated, -⟩ := state_iff_delivered (R := Float) {}
    [.allocate 2 "a", .apply (.ofStandard .cx) [0, 1], .assertRestored [0, 1], .release [1],
      .allocate 1 "b", .barrier [0]] (q := 1) (by decide +kernel)
  exact ⟨happended.symm.trans (by decide +kernel), hallocated.2 (by decide +kernel)⟩

theorem entangled_without_operation :
    (∃ s : Session Float, s = (new {}).after [.allocate 1 "a", .barrier [0]] ∧
      s.allocator.isLive 0 = true ∧ s.allocator.state 0 = .entangled ∧
      ¬ ∃ i ∈ s.circuit.since 0, i.isBarrier = false ∧ 0 ∈ i.qubits) ∧
    ∃ s : Session Float, s = (new {}).after [.allocate 2 "a", .apply (.ofStandard .cx) [0, 0]] ∧
      s.allocator.isLive 0 = true ∧ s.allocator.state 0 = .entangled ∧ s.circuit.since 0 = [] := by
  refine ⟨⟨_, rfl, by decide +kernel, by decide +kernel, by decide +kernel⟩,
    ⟨_, rfl, by decide +kernel, by decide +kernel, by decide +kernel⟩⟩

end Session

end Ancilla
