import Ancilla.Proofs.Session.Closing

/-!
What calls do to the allocator and the circuit, told as entries in two books that are kept side by
side. A call requests qubits, returns some, adds a classical bit or delivers instructions to the
circuit; whichever of these it does, in whatever order and with whatever success, the books it
leaves are those with its entries made one after another.
-/

namespace Ancilla

variable {R : Type}

structure Books (R : Type) where
  allocator : Allocator
  circuit : Circuit R

inductive Entry (R : Type)
  | request (count : Nat) (name : String)
  | returned (qs : List QubitId)
  | bit (source : Option QubitId)
  | delivered (i : Instruction R)

def Circuit.registerAll (c : Circuit R) (name : String) (qs : List (QubitId × Nat)) : Circuit R :=
  qs.foldl (fun c (q, i) => c.registerQubit ⟨q, some name, some i⟩) c

namespace Books

def new (config : SessionConfig) : Books R := ⟨Allocator.new config.maxQubits, .new config.name⟩

def enter (b : Books R) : Entry R → Books R
  | .request count name => match b.allocator.allocate count with
    | (.ok qs, a) => ⟨a, b.circuit.registerAll name qs.zipIdx⟩
    | (.error _, a) => ⟨a, b.circuit⟩
  | .returned qs => match b.allocator.deallocate qs with
    | (.ok (), a) => ⟨a, b.circuit.recordRelease qs⟩
    | (.error _, a) => ⟨a, b.circuit⟩
  | .bit source => ⟨b.allocator, (b.circuit.addClbit source).2⟩
  | .delivered i => ⟨i.qubits.foldl Allocator.markEntangled b.allocator, (b.circuit.push i).2⟩

def enterAll (b : Books R) (l : List (Entry R)) : Books R := l.foldl enter b

theorem enterAll_append (b : Books R) (l l' : List (Entry R)) :
    b.enterAll (l ++ l') = (b.enterAll l).enterAll l' := List.foldl_append

theorem enterAll_invariant {P : Books R → Prop} (hstep : ∀ b e, P b → P (b.enter e))
    {b : Books R} (hb : P b) (l : List (Entry R)) : P (b.enterAll l) := by
  induction l generalizing b with
  | nil => exact hb
  | cons e l ih => exact ih (hstep b e hb)

end Books

namespace Session

def books (s : Session R) : Books R := ⟨s.allocator, s.circuit⟩

/-! ## The entries of a call -/

def sendEntries (s : Session R) (i : Instruction R) (balanced : Bool) : List (Entry R) :=
  match (s.frames.route i balanced).1 with
  | .ok (some j) => [.delivered j]
  | _ => []

def emitEntries (s : Session R) (i : Instruction R) : List (Entry R) :=
  if s.isPoisoned || i.qubits.any fun q => !s.allocator.isLive q then [] else s.sendEntries i false

def measureEntries (s : Session R) (q : QubitId) : List (Entry R) :=
  if s.isPoisoned || s.measureFault?.isSome || !s.allocator.isLive q then []
  else .bit (some q) :: s.emitEntries (.measure q s.circuit.clbits.size)

def releaseEntries (s : Session R) (qs : List QubitId) : List (Entry R) :=
  if s.isPoisoned || qs.any fun q => s.frames.any (·.references q) || !s.isClean q then []
  else [.returned qs]

def dropEntries : Session R → List (Frame R) → List (Entry R)
  | _, [] => []
  | s, f :: fs => .returned (f.owned.filter s.allocator.isLive) :: dropEntries (s.forceReclaim f) fs

variable [Scalar R]

def undoEntries : Session R → List (Instruction R × Bool) → List (Entry R)
  | _, [] => []
  | s, (i, balanced) :: rest =>
    match i.adjoint? with
    | none => []
    | some j => s.sendEntries j balanced ++ match s.send j balanced with
      | (.ok (), s) => undoEntries s rest
      | (.error _, _) => []

def replayEntries (s : Session R) (f : Frame R) : List (Entry R) :=
  match f.environment with
  | .conjugation => s.undoEntries (f.log.map fun (i, _) => (i, true))
  | .inversion => s.undoEntries f.log
  | _ => []

def exitEntries (s : Session R) (id : FrameId) : List (Entry R) :=
  match s.frames.below with
  | [] => []
  | parent :: rest =>
    let frame := s.frames.top
    if s.isPoisoned || frame.id ≠ id then []
    else
      let popped := s.popped parent rest
      popped.replayEntries frame ++ match popped.replay frame with
        | (.error _, s) => s.dropEntries [frame]
        | (.ok (), s) =>
          if frame.leaked.isEmpty then [.returned frame.toReclaim] else s.dropEntries [frame]

def abortEntries (s : Session R) (id : FrameId) : List (Entry R) :=
  match FrameStack.cut? id s.frames.top s.frames.below with
  | none => []
  | some (dropped, frames) => { s with frames }.dropEntries dropped

end Session

def Call.entries [Scalar R] (s : Session R) : Call R → List (Entry R)
  | allocate count name =>
    if s.isPoisoned || s.frames.any fun f => f.environment = .inversion then []
    else [.request count name]
  | release qs => s.releaseEntries qs
  | apply g qs => s.emitEntries (.ofGate g qs)
  | barrier qs => s.emitEntries (.barrier qs)
  | measure q => s.measureEntries q
  | exit id => s.exitEntries id
  | abort id => s.abortEntries id
  | exportQubits _ | assertRestored _ | enter _ _ | beginAction => []

namespace Session

/-! ## The books after a call -/

theorem reclaim_books (s : Session R) (qs : List QubitId) :
    (s.reclaim qs).2.books = s.books.enter (.returned qs) := by
  simp only [Books.enter, books]
  obtain ⟨_, ha, hback⟩ | ⟨a, ha, hback⟩ := s.reclaim_cases qs
  · rw [hback, ha]
  · rw [hback, ha]
    rfl

theorem dropEntries_books (fs : List (Frame R)) (s : Session R) :
    (fs.foldl forceReclaim s).books = s.books.enterAll (s.dropEntries fs) := by
  induction fs generalizing s with
  | nil => rfl
  | cons f fs ih =>
    have hfirst := reclaim_books s (f.owned.filter s.allocator.isLive)
    rw [List.foldl_cons, ih]
    show Books.enterAll (s.reclaim _).2.books _ = _
    rw [hfirst]
    rfl

theorem send_books (s : Session R) (i : Instruction R) (b : Bool) :
    (s.send i b).2.books = s.books.enterAll (s.sendEntries i b) := by
  unfold Session.send sendEntries
  rcases s.frames.route i b with ⟨e | _ | j, frames⟩
  · rfl
  · rfl
  · simp only [deliver_eq]
    rfl

theorem emit_books (s : Session R) (i : Instruction R) :
    (s.emit i).2.books = s.books.enterAll (s.emitEntries i) := by
  unfold Session.emit emitEntries
  cases hp : s.isPoisoned with
  | true => rfl
  | false =>
    cases hdead : i.qubits.find? fun q => !s.allocator.isLive q with
    | none =>
      have hnone : (i.qubits.any fun q => !s.allocator.isLive q) = false := by
        simpa using List.find?_eq_none.1 hdead
      simp only [hnone, Bool.or_self, Bool.false_eq_true, if_false]
      exact send_books s i false
    | some q =>
      have hq := List.find?_some hdead
      have hsome : (i.qubits.any fun q => !s.allocator.isLive q) = true :=
        List.any_eq_true.2 ⟨q, List.mem_of_find?_eq_some hdead, hq⟩
      simp only [hsome, Bool.false_or, if_true]
      rfl

theorem measure_books (s : Session R) (q : QubitId) :
    (s.measure q).2.books = s.books.enterAll (s.measureEntries q) := by
  unfold Session.measure measureEntries
  cases hp : s.isPoisoned with
  | true => rfl
  | false =>
    cases hfault : s.measureFault? with
    | some e => rfl
    | none =>
      cases hlive : s.allocator.isLive q with
      | false => rfl
      | true =>
        -- the bit is added first, and what is emitted then does not depend on it
        have hemit := emit_books { s with circuit := (s.circuit.addClbit (some q)).2 }
          (.measure q (s.circuit.addClbit (some q)).1)
        simp only [onCircuit_eq, Bool.not_true, Bool.false_eq_true, if_false, Option.isSome_none,
          Bool.or_self]
        rcases hr : Session.emit { s with circuit := (s.circuit.addClbit (some q)).2 }
          (.measure q (s.circuit.addClbit (some q)).1) with ⟨e | _, s'⟩
        · rw [hr] at hemit
          exact hemit
        · rw [hr] at hemit
          exact hemit

theorem release_books (s : Session R) (qs : List QubitId) :
    (s.release qs).2.books = s.books.enterAll (s.releaseEntries qs) := by
  unfold Session.release releaseEntries
  cases hp : s.isPoisoned with
  | true => rfl
  | false =>
    -- both look for a frame that needs the qubit, one of them from the root inwards
    have hneeded : ∀ q, ((s.frames.toList.reverse.find? fun f => f.references q).map
        fun f => (q, f.environment.name)) = none ↔ (s.frames.any (·.references q)) = false := by
      intro q
      simp [FrameStack.any]
    simp only [Bool.false_eq_true, if_false, Bool.false_or]
    split
    · next q name hpending =>
      obtain ⟨p, hp, hsome⟩ := List.exists_of_findSome?_eq_some hpending
      have hany : (s.frames.any (·.references p)) = true := by
        by_contra hnone
        rw [Bool.not_eq_true, ← hneeded] at hnone
        rw [hnone] at hsome
        exact absurd hsome (by simp)
      have hall : (qs.any fun q => s.frames.any (·.references q) || !s.isClean q) = true :=
        List.any_eq_true.2 ⟨p, hp, by rw [hany, Bool.true_or]⟩
      simp only [hall, if_true]
      rfl
    · next hpending =>
      have hfree : ∀ q ∈ qs, (s.frames.any (·.references q)) = false := fun q hq =>
        (hneeded q).1 (List.findSome?_eq_none_iff.1 hpending q hq)
      split
      · next hclean =>
        have hall : (qs.any fun q => s.frames.any (·.references q) || !s.isClean q) = false := by
          rw [List.any_eq_false]
          intro q hq
          have hq' := List.filter_eq_nil_iff.1 hclean q hq
          rw [hfree q hq, Bool.false_or]
          exact hq'
        simp only [hall, Bool.false_eq_true, if_false]
        exact reclaim_books s qs
      · next dirty hdirty =>
        obtain ⟨q, hq⟩ := List.exists_mem_of_ne_nil _ hdirty
        obtain ⟨hmem, hmark⟩ := List.mem_filter.1 hq
        have hall : (qs.any fun q => s.frames.any (·.references q) || !s.isClean q) = true :=
          List.any_eq_true.2 ⟨q, hmem, by rw [hmark, Bool.or_true]⟩
        simp only [hall, if_true]
        rfl

theorem abort_books (s : Session R) (id : FrameId) :
    (s.abort id).books = s.books.enterAll (s.abortEntries id) := by
  unfold Session.abort abortEntries
  cases FrameStack.cut? id s.frames.top s.frames.below with
  | none => rfl
  | some cut => exact dropEntries_books cut.1 { s with frames := cut.2 }

variable [Scalar R]

theorem undo_books (l : List (Instruction R × Bool)) (s : Session R) :
    (s.undo l).2.books = s.books.enterAll (s.undoEntries l) := by
  induction l generalizing s with
  | nil => rfl
  | cons e l ih =>
    obtain ⟨i, b⟩ := e
    unfold Session.undo undoEntries
    cases i.adjoint? with
    | none => rfl
    | some j =>
      have hsend := send_books s j b
      simp only [Books.enterAll_append]
      rw [← hsend]
      rcases s.send j b with ⟨e | _, s'⟩
      · rfl
      · exact ih s'

theorem replay_books (s : Session R) (f : Frame R) :
    (s.replay f).2.books = s.books.enterAll (s.replayEntries f) := by
  have hentries : s.replayEntries f = s.undoEntries f.due := by
    unfold replayEntries Frame.due
    cases f.environment with
    | conjugation | inversion => rfl
    | iteration | controlled | classical | scope => rfl
  rw [replay_eq, hentries]
  exact undo_books f.due s

theorem exit_books (s : Session R) (id : FrameId) :
    (s.exit id).2.books = s.books.enterAll (s.exitEntries id) := by
  unfold exitEntries
  cases hb : s.frames.below with
  | nil =>
    cases hp : s.isPoisoned with
    | true =>
      rw [exit_of_poisoned hp]
      rfl
    | false =>
      rw [exit_of_root hp hb]
      rfl
  | cons parent rest =>
    cases hp : s.isPoisoned with
    | true =>
      rw [exit_of_poisoned hp]
      rfl
    | false =>
      by_cases hid : s.frames.top.id = id
      · have hreplay := replay_books (s.popped parent rest) s.frames.top
        have hpopped : (s.popped parent rest).books = s.books := rfl
        rw [hpopped] at hreplay
        subst hid
        rw [exit_of_top hp hb]
        simp only [ne_eq, not_true_eq_false, decide_false, Bool.or_self, Bool.false_eq_true,
          if_false, Books.enterAll_append]
        rw [← hreplay]
        rcases (s.popped parent rest).replay s.frames.top with ⟨e | _, s₁⟩
        · exact dropEntries_books [s.frames.top] s₁
        · cases hleaked : s.frames.top.leaked with
          | nil =>
            have hback := reclaim_books s₁ s.frames.top.toReclaim
            simp only [List.isEmpty_nil, if_true]
            rcases hr : s₁.reclaim s.frames.top.toReclaim with ⟨e | _, s₂⟩
            · rw [hr] at hback
              exact hback
            · rw [hr] at hback
              exact hback
          | cons q qs => exact dropEntries_books [s.frames.top] s₁
      · rw [exit_of_ne hp hb hid]
        simp only [ne_eq, hid, not_false_eq_true, decide_true, Bool.or_true, if_true]
        rfl

theorem allocate_books (s : Session R) (count : Nat) (name : String) :
    (s.allocate count name).2.books =
      s.books.enterAll ((Call.allocate count name).entries s) := by
  unfold Session.allocate Call.entries
  cases hp : s.isPoisoned with
  | true => rfl
  | false =>
    cases hi : s.frames.any fun f => f.environment = .inversion with
    | true => rfl
    | false =>
      simp only [Bool.or_self, Bool.false_eq_true, if_false]
      show _ = s.books.enter (.request count name)
      simp only [Books.enter, books]
      rcases s.allocator.allocate count with ⟨e | qs, a⟩ <;> rfl

theorem perform_books (s : Session R) (c : Call R) :
    (c.perform s).2.books = s.books.enterAll (c.entries s) := by
  have hframing : c.IsFraming → _ := fun hc => hc.keeps s
  cases c with
  | allocate count name => exact allocate_books s count name
  | exportQubits | assertRestored | enter | beginAction =>
    obtain ⟨hallocator, hcircuit⟩ := hframing trivial
    exact congrArg₂ Books.mk hallocator hcircuit
  | release qs => exact release_books s qs
  | apply g qs => exact emit_books s _
  | barrier qs => exact emit_books s _
  | measure q => exact measure_books s q
  | exit id => exact exit_books s id
  | abort id => exact abort_books s id

theorem Reachable.books_invariant {P : Books R → Prop} (hnew : ∀ config, P (Books.new config))
    (hstep : ∀ b e, P b → P (b.enter e)) {s : Session R} (hs : s.Reachable) : P s.books := by
  refine hs.invariant (P := fun s => P s.books) hnew fun s c hs => ?_
  rw [perform_books]
  exact Books.enterAll_invariant hstep hs _

end Session

end Ancilla
