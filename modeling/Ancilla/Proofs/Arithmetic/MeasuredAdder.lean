import Ancilla.Proofs.Arithmetic.Conjunction
import Ancilla.Proofs.Arithmetic.Rejection
import Ancilla.Proofs.Session.Lending

/-!
In-place addition with measured carries. One link of the chain takes the carry into both operands,
computes the carry out of them, adds the bits above, erases the carry and adds its own bit; all that
is left of it is the bit of the sum. The addition of the bits above goes by induction, and the carry
and the qubit for the further conjunctions read 0 before and after it.
-/

namespace Ancilla.MeasuredAdder

open Build

/-! ## The control -/

def Control.qubits : Option Control → List QubitId
  | some c => [c.control, c.scratch]
  | none => []

def Quiet (controlled : Option Control) (y : ℕ) : Prop :=
  ∀ c ∈ controlled, y.testBit c.scratch = false

def enabled (controlled : Option Control) (y : ℕ) : Bool :=
  match controlled with
  | some c => y.testBit c.control
  | none => true

variable {controlled : Option Control} {qs : List QubitId}

theorem Quiet.congr {x y : ℕ} (h : Quiet controlled y)
    (hxy : ∀ q ∈ Control.qubits controlled, x.testBit q = y.testBit q) : Quiet controlled x := by
  rintro c rfl
  rw [hxy c.scratch (by simp [Control.qubits])]
  exact h c rfl

theorem enabled_congr {x y : ℕ}
    (hxy : ∀ q ∈ Control.qubits controlled, x.testBit q = y.testBit q) :
    enabled controlled x = enabled controlled y := by
  cases controlled with
  | none => rfl
  | some c => exact hxy c.control (by simp [Control.qubits])

theorem testBit_setBit_control {p : QubitId} (hp : p ∉ Control.qubits controlled) (y : ℕ) (v : Bool) :
    ∀ q ∈ Control.qubits controlled, (setBit y p v).testBit q = y.testBit q := by
  intro q hq
  refine testBit_setBit_of_ne y ?_ v
  rintro rfl
  exact hp hq

/-! ## One bit -/

theorem flipUnder_one (c q y : ℕ) : flipUnder [c] q y = setBit y q (y.testBit q ^^ y.testBit c) := by
  refine Nat.eq_of_testBit_eq fun p => ?_
  rw [testBit_flipUnder, testBit_setBit]
  by_cases hp : p = q
  · subst hp
    simp [AllRead]
  · rw [if_neg hp, if_neg hp]

theorem cx_performs {c t : QubitId} (hne : c ≠ t) (hc : c ∈ qs) (ht : t ∈ qs) :
    Performs (cx c t : Synthesis ℝ Unit) qs (fun _ => True)
      fun y => setBit y t (y.testBit t ^^ y.testBit c) :=
  (realizes_cx hne hc ht).performs fun y _ => by
    rw [Operator.controlled_flip_ket, flipUnder_one]

theorem addBit_performs {a b : QubitId} (h : (a :: b :: Control.qubits controlled).Nodup)
    (hqs : ∀ q ∈ a :: b :: Control.qubits controlled, q ∈ qs) :
    Performs (addBit controlled a b : Synthesis ℝ Unit) qs (Quiet controlled)
      fun y => setBit y b (y.testBit b ^^ (y.testBit a && enabled controlled y)) := by
  have ha : a ∈ qs := hqs a (by simp)
  have hb : b ∈ qs := hqs b (by simp)
  cases controlled with
  | none =>
    have hab : a ≠ b := by simpa [Control.qubits] using h
    refine (cx_performs hab ha hb).mono (fun _ hq => hq) (fun _ _ => trivial) fun y _ => ?_
    rw [enabled, Bool.and_true]
  | some c =>
    have hc : c.control ∈ qs := hqs _ (by simp [Control.qubits])
    have ht : c.scratch ∈ qs := hqs _ (by simp [Control.qubits])
    simp only [Control.qubits, List.nodup_cons, List.mem_cons, List.not_mem_nil] at h
    have hthree : [c.control, a, c.scratch].Nodup := by
      simp only [List.nodup_cons, List.mem_cons, List.not_mem_nil]
      grind
    have hgates := (computeAnd_performs hthree hc ha ht).bind
      ((cx_performs (show c.scratch ≠ b by grind) ht hb).bind (eraseAnd_performs hthree hc ha ht))
    refine hgates.mono (fun _ hq => hq) (fun y hy => ⟨hy c rfl, trivial, ?_⟩) fun y hy => ?_
    · simp only [testBit_setBit]
      grind
    · have hquiet := hy c rfl
      refine Nat.eq_of_testBit_eq fun p => ?_
      simp only [Function.comp_apply, testBit_setBit, enabled]
      grind

/-! ## A chain of bits -/

/-- The basis state with a register and a carry added to another register, as far as this one holds
the sum, if the control reads 1. -/
def summed (controlled : Option Control) (as bs : List QubitId) (carry : Bool) (y : ℕ) : ℕ :=
  write bs (reading bs y + if enabled controlled y then reading as y + carry.toNat else 0) y

theorem testBit_summed {as bs : List QubitId} {p : QubitId} (hp : p ∉ bs) (carry : Bool) (y : ℕ) :
    (summed controlled as bs carry y).testBit p = y.testBit p := testBit_write_of_not_mem hp _ y

theorem reading_summed {as bs : List QubitId} (h : bs.Nodup) (carry : Bool) (y : ℕ) :
    reading bs (summed controlled as bs carry y) =
      (reading bs y + if enabled controlled y then reading as y + carry.toNat else 0) %
        2 ^ bs.length := reading_write h _ y

def majority (a b c : Bool) : Bool := ((a ^^ c) && (b ^^ c)) ^^ c

theorem fullAdd (a b carry enabled : Bool) (m n : ℕ) :
    (b.toNat + 2 * n + if enabled then a.toNat + 2 * m + carry.toNat else 0) % 2 =
        (b ^^ ((a ^^ carry) && enabled)).toNat ∧
      (b.toNat + 2 * n + if enabled then a.toNat + 2 * m + carry.toNat else 0) / 2 =
        n + if enabled then m + (majority a b carry).toNat else 0 := by
  cases a <;> cases b <;> cases carry <;> cases enabled <;> simp [majority] <;> omega

theorem eq_summed_cons {a b : QubitId} {as bs : List QubitId} (h : (b :: bs).Nodup) {carry : Bool}
    {y z : ℕ} (hbit : z.testBit b = (y.testBit b ^^ ((y.testBit a ^^ carry) && enabled controlled y)))
    (hrest : reading bs z = (reading bs y + if enabled controlled y then
      reading as y + (majority (y.testBit a) (y.testBit b) carry).toNat else 0) % 2 ^ bs.length)
    (hoff : ∀ p, p ∉ b :: bs → z.testBit p = y.testBit p) :
    z = summed controlled (a :: as) (b :: bs) carry y := by
  refine eq_of_reading (?_ : reading (b :: bs) z = _) fun p hp => ?_
  · obtain ⟨hlow, hhigh⟩ := fullAdd (y.testBit a) (y.testBit b) carry (enabled controlled y)
      (reading as y) (reading bs y)
    rw [summed, reading_write h, List.length_cons, Nat.pow_succ', Nat.mod_mul, reading, hbit, hrest,
      reading, reading, hlow, hhigh]
  · rw [hoff p hp, summed, testBit_write_of_not_mem hp]

/-! ## Links -/

def climb {R : Type} [Scalar R] (previous a b carry : QubitId) : Synthesis R Unit := do
  cx previous a
  cx previous b
  computeAnd a b carry
  cx previous carry

def descend {R : Type} [Scalar R] (controlled : Option Control) (previous a b carry : QubitId) :
    Synthesis R Unit := do
  cx previous carry
  eraseAnd a b carry
  addBit controlled a b
  cx previous a
  cx previous b

theorem chain_link (previous a b carry : QubitId) {rest : List (QubitId × QubitId)}
    (hrest : rest ≠ []) (carries : List QubitId) :
    (chain controlled previous ((a, b) :: rest) (carry :: carries) : Synthesis ℝ Unit) = (do
      climb previous a b carry
      chain controlled carry rest carries
      descend controlled previous a b carry) := by
  obtain ⟨pair, rest, rfl⟩ := List.exists_cons_of_ne_nil hrest
  simp only [chain, climb, descend, bind_assoc]

def climbed (previous a b carry : QubitId) (y : ℕ) : ℕ :=
  setBit (setBit (setBit y a (y.testBit a ^^ y.testBit previous)) b
    (y.testBit b ^^ y.testBit previous)) carry
    (majority (y.testBit a) (y.testBit b) (y.testBit previous))

def descended (controlled : Option Control) (previous a b carry : QubitId) (y : ℕ) : ℕ :=
  setBit (setBit (setBit y carry false) a (y.testBit a ^^ y.testBit previous)) b
    (y.testBit b ^^ (y.testBit a && enabled controlled y) ^^ y.testBit previous)

variable {previous a b carry : QubitId}

theorem climb_performs (h : [previous, a, b, carry].Nodup)
    (hqs : ∀ q ∈ [previous, a, b, carry], q ∈ qs) :
    Performs (climb previous a b carry : Synthesis ℝ Unit) qs (fun y => y.testBit carry = false)
      (climbed previous a b carry) := by
  have hp := hqs previous (by simp)
  have ha := hqs a (by simp)
  have hb := hqs b (by simp)
  have hc := hqs carry (by simp)
  obtain ⟨⟨hpa, hpb, hpc⟩, ⟨hab, hac⟩, hbc⟩ : (previous ≠ a ∧ previous ≠ b ∧ previous ≠ carry) ∧
      (a ≠ b ∧ a ≠ carry) ∧ b ≠ carry := by simpa using h
  have hgates := (cx_performs hpa hp ha).bind ((cx_performs hpb hp hb).bind
    ((computeAnd_performs (List.nodup_cons.1 h).2 ha hb hc).bind (cx_performs hpc hp hc)))
  refine hgates.mono (fun _ hq => hq) (fun y hy => ⟨trivial, trivial, ?_, trivial⟩) fun y hy => ?_
  · simp only [testBit_setBit]
    grind
  · refine Nat.eq_of_testBit_eq fun p => ?_
    simp only [Function.comp_apply, climbed, testBit_setBit, majority]
    grind

theorem descend_performs (h : (previous :: a :: b :: carry :: Control.qubits controlled).Nodup)
    (hqs : ∀ q ∈ previous :: a :: b :: carry :: Control.qubits controlled, q ∈ qs) :
    Performs (descend controlled previous a b carry : Synthesis ℝ Unit) qs
      (fun y => Quiet controlled y ∧
        y.testBit carry = ((y.testBit a && y.testBit b) ^^ y.testBit previous))
      (descended controlled previous a b carry) := by
  have hp := hqs previous (by simp)
  have ha := hqs a (by simp)
  have hb := hqs b (by simp)
  have hc := hqs carry (by simp)
  obtain ⟨hprevious, hcarry, hbit⟩ : previous ∉ carry :: a :: b :: Control.qubits controlled ∧
      carry ∉ a :: b :: Control.qubits controlled ∧ (a :: b :: Control.qubits controlled).Nodup := by
    simp only [List.nodup_cons, List.mem_cons] at h ⊢
    grind
  have hab : a ≠ b := fun heq => (List.nodup_cons.1 hbit).1 (by simp [heq])
  have hpa : previous ≠ a := fun heq => hprevious (by simp [heq])
  have hpb : previous ≠ b := fun heq => hprevious (by simp [heq])
  have hpc : previous ≠ carry := fun heq => hprevious (by simp [heq])
  have hca : carry ≠ a := fun heq => hcarry (by simp [heq])
  have hcb : carry ≠ b := fun heq => hcarry (by simp [heq])
  have hthree : [a, b, carry].Nodup := by simp [hab, hca.symm, hcb.symm]
  -- in the order of the definition; what each gate needs is checked at the end
  have hgates := (cx_performs hpc hp hc).bind ((eraseAnd_performs hthree ha hb hc).bind
    ((addBit_performs hbit fun q hq => hqs q (by simp at hq ⊢; tauto)).bind
      ((cx_performs hpa hp ha).bind (cx_performs hpb hp hb))))
  have hsame := testBit_setBit_control fun hmem : carry ∈ Control.qubits controlled =>
    hcarry (by simp [hmem])
  refine hgates.mono (fun _ hq => hq)
    (fun y hy => ⟨trivial, ?_, (hy.1.congr (hsame y _)).congr (hsame _ _), trivial, trivial⟩)
    fun y hy => ?_
  · simp only [testBit_setBit]
    grind
  · refine Nat.eq_of_testBit_eq fun p => ?_
    simp only [Function.comp_apply, descended, enabled_congr (hsame _ _), testBit_setBit, hpa, hpb,
      hpc, hab, hab.symm, hca.symm, hcb.symm, if_true, if_false]
    grind

/-- The qubits of a link are apart from the operands of the bits above and from the control. -/
structure Linked (controlled : Option Control) (ps as bs : List QubitId) : Prop where
  link : ps.Nodup
  above : ∀ q ∈ ps, q ∉ as ∧ q ∉ bs ∧ q ∉ Control.qubits controlled
  targets : bs.Nodup
  control : ∀ q ∈ Control.qubits controlled, q ∉ bs

variable {as bs : List QubitId}

theorem testBit_climbed {q : QubitId} (hq : q ∉ [previous, a, b, carry]) (y : ℕ) :
    (climbed previous a b carry y).testBit q = y.testBit q := by
  simp only [List.mem_cons, List.not_mem_nil, or_false, not_or] at hq
  rw [climbed, testBit_setBit_of_ne _ hq.2.2.2, testBit_setBit_of_ne _ hq.2.2.1,
    testBit_setBit_of_ne _ hq.2.1]

theorem Linked.testBit_climbed (h : Linked controlled [previous, a, b, carry] as bs) (y : ℕ) {q : QubitId}
    (hq : q ∈ as ∨ q ∈ bs ∨ q ∈ Control.qubits controlled) :
    (climbed previous a b carry y).testBit q = y.testBit q :=
  MeasuredAdder.testBit_climbed (fun hmem => by
    have hout := h.above q hmem
    tauto) y

theorem Linked.testBit_summed {ps : List QubitId} (h : Linked controlled ps as bs) {q : QubitId}
    (hq : q ∈ ps) (c : Bool) (y : ℕ) :
    (summed controlled as bs c y).testBit q = y.testBit q :=
  MeasuredAdder.testBit_summed (h.above q hq).2.1 c y

theorem Linked.testBit_summed_control {ps : List QubitId} (h : Linked controlled ps as bs) (c : Bool)
    (y : ℕ) : ∀ q ∈ Control.qubits controlled, (summed controlled as bs c y).testBit q = y.testBit q :=
  fun q hq => MeasuredAdder.testBit_summed (h.control q hq) c y

theorem Linked.descended_summed_climbed (h : Linked controlled [previous, a, b, carry] as bs) {y : ℕ}
    (hy : y.testBit carry = false) :
    descended controlled previous a b carry (summed controlled as bs
        ((climbed previous a b carry y).testBit carry) (climbed previous a b carry y)) =
      summed controlled (a :: as) (b :: bs) (y.testBit previous) y := by
  obtain ⟨⟨hpa, hpb, hpc⟩, ⟨hab, hac⟩, hbc⟩ : (previous ≠ a ∧ previous ≠ b ∧ previous ≠ carry) ∧
      (a ≠ b ∧ a ≠ carry) ∧ b ≠ carry := by simpa using h.link
  have henabled : ∀ c x, enabled controlled (summed controlled as bs c x) = enabled controlled x :=
    fun c x => enabled_congr (h.testBit_summed_control c x)
  have hclimbed : enabled controlled (climbed previous a b carry y) = enabled controlled y :=
    enabled_congr fun q hq => h.testBit_climbed y (.inr (.inr hq))
  have hprevious := h.testBit_summed (q := previous) (by simp)
  have ha := h.testBit_summed (q := a) (by simp)
  have hb := h.testBit_summed (q := b) (by simp)
  refine eq_summed_cons (List.nodup_cons.2 ⟨(h.above b (by simp)).2.1, h.targets⟩) ?_ ?_ fun q hq => ?_
  · rw [descended, testBit_setBit_self, hprevious, ha, hb, henabled, hclimbed]
    simp only [climbed, testBit_setBit, hpa, hpb, hpc, hab, hac, hbc, if_true, if_false]
    grind
  · have hrest : ∀ x, reading bs (descended controlled previous a b carry x) = reading bs x :=
      fun x => by
        rw [descended, reading_setBit (h.above b (by simp)).2.1,
          reading_setBit (h.above a (by simp)).2.1, reading_setBit (h.above carry (by simp)).2.1]
    have hcarry : (climbed previous a b carry y).testBit carry =
        majority (y.testBit a) (y.testBit b) (y.testBit previous) := testBit_setBit_self _ _ _
    rw [hrest, reading_summed h.targets, hclimbed, hcarry,
      reading_congr fun q hq => h.testBit_climbed y (.inr (.inl hq)),
      reading_congr fun q hq => h.testBit_climbed y (.inl hq)]
  · obtain ⟨hqb, hqbs⟩ := List.ne_and_not_mem_of_not_mem_cons hq
    simp only [descended, testBit_setBit, hqb, if_false, hprevious, ha]
    rw [MeasuredAdder.testBit_summed hqbs]
    simp only [climbed, testBit_setBit, hpa, hpb, hpc, hab, hac, hqb, if_true, if_false]
    grind

def computed (a b carry : QubitId) (y : ℕ) : ℕ := setBit y carry (y.testBit a && y.testBit b)

def lowered (controlled : Option Control) (a b carry : QubitId) (y : ℕ) : ℕ :=
  setBit (setBit y carry false) b ((setBit y carry false).testBit b ^^
    ((setBit y carry false).testBit a && enabled controlled (setBit y carry false)))

theorem Linked.lowered_summed_computed (h : Linked controlled [a, b, carry] as bs) {y : ℕ}
    (hy : y.testBit carry = false) :
    lowered controlled a b carry (summed controlled as bs ((computed a b carry y).testBit carry)
        (computed a b carry y)) = summed controlled (a :: as) (b :: bs) false y := by
  obtain ⟨⟨hab, hac⟩, hbc⟩ : (a ≠ b ∧ a ≠ carry) ∧ b ≠ carry := by simpa using h.link
  have ha := h.testBit_summed (q := a) (by simp)
  have hb := h.testBit_summed (q := b) (by simp)
  have hsame := testBit_setBit_control (h.above carry (by simp)).2.2
  have henabled : ∀ x v c,
      enabled controlled (setBit (summed controlled as bs c x) carry v) = enabled controlled x :=
    fun x v c => (enabled_congr (hsame _ v)).trans (enabled_congr (h.testBit_summed_control c x))
  refine eq_summed_cons (List.nodup_cons.2 ⟨(h.above b (by simp)).2.1, h.targets⟩) ?_ ?_ fun q hq => ?_
  · simp only [lowered, computed, henabled, enabled_congr (hsame y _), testBit_setBit, ha, hb, hac, hbc,
      if_true, if_false]
    grind
  · have hcarry : (computed a b carry y).testBit carry = majority (y.testBit a) (y.testBit b) false := by
      simp [computed, testBit_setBit_self, majority]
    rw [lowered, reading_setBit (h.above b (by simp)).2.1, reading_setBit (h.above carry (by simp)).2.1,
      reading_summed h.targets, hcarry, computed, reading_setBit (h.above carry (by simp)).2.1,
      reading_setBit (h.above carry (by simp)).1, enabled_congr (hsame y _)]
  · obtain ⟨hqb, hqbs⟩ := List.ne_and_not_mem_of_not_mem_cons hq
    rw [lowered, testBit_setBit_of_ne _ hqb, testBit_setBit, MeasuredAdder.testBit_summed hqbs, computed,
      testBit_setBit]
    grind

/-! ## A chain of bits -/

def chainQubits (controlled : Option Control) (pairs : List (QubitId × QubitId))
    (carries : List QubitId) : List QubitId :=
  pairs.map Prod.fst ++ pairs.map Prod.snd ++ carries ++ Control.qubits controlled

theorem perm_chainQubits (controlled : Option Control) (a b carry : QubitId) (pairs : List (QubitId × QubitId))
    (carries : List QubitId) : (chainQubits controlled ((a, b) :: pairs) (carry :: carries)).Perm
      (a :: b :: carry :: chainQubits controlled pairs carries) := by
  rw [List.perm_iff_count]
  intro q
  simp only [chainQubits, List.map_cons, List.count_append, List.count_cons]
  omega

theorem linked_of_nodup (ps : List QubitId) {pairs : List (QubitId × QubitId)}
    {carries : List QubitId} (h : (ps ++ chainQubits controlled pairs carries).Nodup) :
    Linked controlled ps (pairs.map Prod.fst) (pairs.map Prod.snd) := by
  obtain ⟨hlink, hchain, hapart⟩ := List.nodup_append'.1 h
  obtain ⟨hregisters, -, hcontrol⟩ := List.nodup_append'.1 hchain
  obtain ⟨hoperands, -, -⟩ := List.nodup_append'.1 hregisters
  obtain ⟨-, htargets, -⟩ := List.nodup_append'.1 hoperands
  refine ⟨hlink, fun q hq => ?_, htargets, fun q hq hmem => ?_⟩
  · have hout : q ∉ chainQubits controlled pairs carries := fun hmem => hapart hq hmem
    simp only [chainQubits, List.mem_append, not_or] at hout
    exact ⟨hout.1.1.1, hout.1.1.2, hout.2⟩
  · exact hcontrol (List.mem_append_left _ (List.mem_append_right _ hmem)) hq

theorem last_performs (h : (previous :: a :: b :: Control.qubits controlled).Nodup)
    (hqs : ∀ q ∈ previous :: a :: b :: Control.qubits controlled, q ∈ qs) :
    Performs (chain controlled previous [(a, b)] [] : Synthesis ℝ Unit) qs (Quiet controlled)
      fun y => summed controlled [a] [b] (y.testBit previous) y := by
  obtain ⟨hprevious, hbit⟩ := List.nodup_cons.1 h
  have hpa : previous ≠ a := fun heq => hprevious (by simp [heq])
  have hpb : previous ≠ b := fun heq => hprevious (by simp [heq])
  have hab : a ≠ b := fun heq => (List.nodup_cons.1 hbit).1 (by simp [heq])
  have hp := hqs previous List.mem_cons_self
  have ha := hqs a (by simp)
  have hgates := (cx_performs hpa hp ha).bind
    ((addBit_performs hbit fun q hq => hqs q (List.mem_cons_of_mem _ hq)).bind (cx_performs hpa hp ha))
  -- the lower operand is no control, so what is written there leaves the control enabled
  have hsame := testBit_setBit_control fun hmem : a ∈ Control.qubits controlled =>
    (List.nodup_cons.1 hbit).1 (List.mem_cons_of_mem _ hmem)
  refine hgates.mono (fun _ hq => hq) (fun y hy => ⟨trivial, hy.congr (hsame y _), trivial⟩)
    fun y _ => ?_
  refine eq_summed_cons (List.nodup_singleton b) ?_ ?_ fun p hp => ?_
  · simp only [Function.comp_apply, testBit_setBit, enabled_congr (hsame y _)]
    grind
  · simp [reading, Nat.mod_one]
  · simp only [Function.comp_apply, testBit_setBit]
    grind

theorem chain_performs (previous : QubitId) (pairs : List (QubitId × QubitId))
    (carries : List QubitId) (hlength : pairs.length = carries.length + 1)
    (h : (previous :: chainQubits controlled pairs carries).Nodup)
    (hqs : ∀ q ∈ previous :: chainQubits controlled pairs carries, q ∈ qs) :
    Performs (chain controlled previous pairs carries : Synthesis ℝ Unit) qs
      (fun y => Quiet controlled y ∧ ∀ c ∈ carries, y.testBit c = false)
      fun y => summed controlled (pairs.map Prod.fst) (pairs.map Prod.snd) (y.testBit previous) y := by
  -- over the bits from the lowest up; the carry of one link is the carry into the next
  induction pairs generalizing previous carries with
  | nil => simp at hlength
  | cons pair rest ih =>
    obtain ⟨a, b⟩ := pair
    rcases carries with _ | ⟨carry, carries⟩
    · obtain rfl : rest = [] := by simpa using hlength
      exact (last_performs h hqs).mono (fun _ hq => hq) (fun y hy => hy.1) fun _ _ => rfl
    · have hperm := (perm_chainQubits controlled a b carry rest carries).cons previous
      rw [hperm.nodup_iff] at h
      simp only [hperm.mem_iff] at hqs
      have hlinked := linked_of_nodup [previous, a, b, carry] h
      have hrest : rest ≠ [] := by
        rintro rfl
        simp at hlength
      have hown : List.Sublist (Control.qubits controlled) (chainQubits controlled rest carries) :=
        List.sublist_append_right _ _
      have hsub := ((((hown.cons_cons carry).cons_cons b).cons_cons a).cons_cons previous)
      have hclimb : Performs (climb previous a b carry : Synthesis ℝ Unit) qs _ _ :=
        climb_performs hlinked.link fun q hq => hqs q (by simp at hq ⊢; tauto)
      obtain ⟨-, -, -, habove⟩ : _ ∧ _ ∧ _ ∧ (carry :: chainQubits controlled rest carries).Nodup := by
        simpa only [List.nodup_cons] using h
      have hchain := ih carry carries (by simpa using hlength) habove
        fun q hq => hqs q (by simp at hq ⊢; tauto)
      have hdescend : Performs (descend controlled previous a b carry : Synthesis ℝ Unit) qs _ _ :=
        descend_performs (h.sublist hsub) fun q hq => hqs q (hsub.subset hq)
      -- up through this link, through the bits above it, and down again
      rw [chain_link previous a b carry hrest]
      refine (hclimb.bind (hchain.bind hdescend)).mono (fun _ hq => hq) (fun y hy => ?_)
        fun y hy => hlinked.descended_summed_climbed (hy.2 carry List.mem_cons_self)
      have hquiet : Quiet controlled (climbed previous a b carry y) :=
        hy.1.congr fun q hq => hlinked.testBit_climbed y (.inr (.inr hq))
      refine ⟨hy.2 carry List.mem_cons_self, ⟨hquiet, fun c hc => ?_⟩,
        hquiet.congr (hlinked.testBit_summed_control _ _), ?_⟩
      · rw [testBit_climbed]
        · exact hy.2 c (List.mem_cons_of_mem _ hc)
        · have happart := List.disjoint_of_nodup_append
            (show ([previous, a, b, carry] ++ chainQubits controlled rest carries).Nodup from h)
          exact fun hmem => happart hmem (List.mem_append_left _ (List.mem_append_right _ hc))
      · rw [hlinked.testBit_summed (by simp), hlinked.testBit_summed (by simp),
          hlinked.testBit_summed (by simp), hlinked.testBit_summed (by simp)]
        have hlink := hlinked.link
        simp only [List.nodup_cons, List.mem_cons, List.not_mem_nil] at hlink
        simp only [climbed, testBit_setBit, majority]
        grind

theorem lowest_performs {a b carry : QubitId} {rest : List (QubitId × QubitId)}
    {others : List QubitId} (hlength : rest.length = others.length + 1)
    (h : (a :: b :: carry :: chainQubits controlled rest others).Nodup)
    (hqs : ∀ q ∈ a :: b :: carry :: chainQubits controlled rest others, q ∈ qs) :
    Performs (do
        computeAnd a b carry
        chain controlled carry rest others
        eraseAnd a b carry
        addBit controlled a b
        assertRestored (carry :: others) : Synthesis ℝ Unit) qs
      (fun y => Quiet controlled y ∧ ∀ c ∈ carry :: others, y.testBit c = false)
      (summed controlled (a :: rest.map Prod.fst) (b :: rest.map Prod.snd) false) := by
  have hlinked := linked_of_nodup [a, b, carry] h
  obtain ⟨⟨hab, hac⟩, hbc⟩ : (a ≠ b ∧ a ≠ carry) ∧ b ≠ carry := by simpa using hlinked.link
  obtain ⟨-, -, habove⟩ : _ ∧ _ ∧ (carry :: chainQubits controlled rest others).Nodup := by
    simpa only [List.nodup_cons] using h
  have ha := hqs a (by simp)
  have hb := hqs b (by simp)
  have hc := hqs carry (by simp)
  have hown : List.Sublist (Control.qubits controlled) (chainQubits controlled rest others) :=
    List.sublist_append_right _ _
  have hsub := (((hown.cons carry).cons_cons b).cons_cons a)
  -- no carry comes in, so the carry out is the conjunction of the two bits alone
  have hgates := (computeAnd_performs hlinked.link ha hb hc).bind
    ((chain_performs carry rest others hlength habove fun q hq => hqs q (by simp at hq ⊢; tauto)).bind
    ((eraseAnd_performs hlinked.link ha hb hc).bind
    ((addBit_performs (h.sublist hsub) fun q hq => hqs q (hsub.subset hq)).bind
    ((realizes_assertRestored (carry :: others) qs).performs (P := fun _ => True) (f := id)
      fun _ _ => rfl))))
  have hsame := testBit_setBit_control (hlinked.above carry (by simp)).2.2
  refine hgates.mono (fun _ hq => hq) (fun y hy => ?_) fun y hy =>
    hlinked.lowered_summed_computed (hy.2 carry List.mem_cons_self)
  have hquiet := hy.1.congr (hsame y (y.testBit a && y.testBit b))
  refine ⟨hy.2 carry List.mem_cons_self, ⟨hquiet, fun p hp => ?_⟩, ?_, ?_, trivial⟩
  · have hne : p ≠ carry := by
      rintro rfl
      refine (List.nodup_cons.1 habove).1 ?_
      exact List.mem_append_left _ (List.mem_append_right _ hp)
    rw [testBit_setBit_of_ne _ hne]
    exact hy.2 p (List.mem_cons_of_mem _ hp)
  · rw [hlinked.testBit_summed (by simp), hlinked.testBit_summed (by simp),
      hlinked.testBit_summed (by simp)]
    simp only [testBit_setBit, hac, hbc, if_true, if_false]
  · exact (hquiet.congr (hlinked.testBit_summed_control _ _)).congr (hsame _ _)

/-! ## Whole registers -/

open Session

theorem addBits_run {s t t' : Session ℝ} {id : FrameId} {work : List QubitId}
    {l : List (Instruction ℝ)} (ht : s.Scoped id work l t) {pairs : List (QubitId × QubitId)}
    (hpairs : pairs ≠ []) (h : (chainQubits controlled pairs []).Nodup)
    (hlive : ∀ q ∈ chainQubits controlled pairs [], t.allocator.isLive q = true)
    (hexec : exec (addBits controlled pairs : Synthesis ℝ Unit) t = (.ok (), t')) :
    ∃ carries m κ, s.Scoped id (work ++ carries) (l ++ m) t' ∧ κ ≠ 0 ∧
      (∀ i ∈ m, ∀ q ∈ i.qubits, q ∈ chainQubits controlled pairs carries) ∧
      Decides m t'.circuit.width t'.circuit.numClbits κ
        (fun y => Quiet controlled y ∧ ∀ c ∈ carries, y.testBit c = false)
        (summed controlled (pairs.map Prod.fst) (pairs.map Prod.snd) false) := by
  rcases pairs with _ | ⟨⟨a, b⟩, _ | ⟨pair, rest⟩⟩
  · exact absurd rfl hpairs
  · have hbit : (a :: b :: Control.qubits controlled).Nodup := h
    obtain ⟨κ, m, hκ, hsent, hamong, hacts⟩ :=
      (addBit_performs hbit fun q hq => hq).run ht.steady hlive hexec
    refine ⟨[], m, κ, ?_, hκ, hamong, hacts.mono le_rfl le_rfl (fun y hy => hy.1) fun y _ => ?_⟩
    · rw [List.append_nil]
      exact ht.sent hsent
    · refine eq_summed_cons (List.nodup_singleton b) ?_ ?_ fun p hp => ?_
      · rw [testBit_setBit_self, Bool.xor_false]
      · simp [reading, Nat.mod_one]
      · exact testBit_setBit_of_ne y (fun heq => hp (by simp [heq])) _
  · obtain ⟨carries, t₁, hallocate, hbody⟩ := exec_bind_ok hexec
    have hgrant := exec_step_ok hallocate
    obtain ⟨hdistinct, hfresh, hlive₁⟩ := allocate_fresh ht.steady.allocator hgrant
    have hlength : carries.length = (pair :: rest).length := length_allocate hgrant
    obtain ⟨carry, others, rfl⟩ := List.exists_cons_of_length_eq_add_one hlength
    -- the carries are handed out here, the operands and the control were in use before
    have hspread : (chainQubits controlled ((a, b) :: pair :: rest) (carry :: others)).Perm
        ((carry :: others) ++ chainQubits controlled ((a, b) :: pair :: rest) []) := by
      rw [List.perm_iff_count]
      intro q
      simp only [chainQubits, List.count_append, List.count_nil]
      omega
    have hnodup : (chainQubits controlled ((a, b) :: pair :: rest) (carry :: others)).Nodup := by
      rw [hspread.nodup_iff]
      refine List.nodup_append'.2 ⟨hdistinct, h, fun q hq hmem => ?_⟩
      have hdead := hfresh q hq
      rw [hlive q hmem] at hdead
      exact Bool.noConfusion hdead
    have hin : ∀ q ∈ chainQubits controlled ((a, b) :: pair :: rest) (carry :: others),
        t₁.allocator.isLive q = true := by
      intro q hq
      rw [hlive₁]
      exact (List.mem_append.1 (hspread.mem_iff.1 hq)).symm.imp_left (hlive q)
    have hperm := perm_chainQubits controlled a b carry (pair :: rest) others
    have hlowest := lowest_performs (by simpa using hlength.symm) (hperm.nodup_iff.1 hnodup)
      fun q hq => hperm.mem_iff.2 hq
    obtain ⟨κ, m, hκ, hsent, hamong, hacts⟩ := hlowest.run (ht.allocate hgrant).steady hin hbody
    exact ⟨carry :: others, m, κ, (ht.allocate hgrant).sent hsent, hκ, hamong, hacts⟩

def lendScratch {R : Type} (control : Option QubitId) : Synthesis R (Option Control) :=
  match control with
  | some c => do
    let scratch ← allocateOne "and"
    pure (some ⟨c, scratch⟩)
  | none => pure none

def scopedAdd {R : Type} [Scalar R] (target source : List QubitId) (control : Option QubitId) :
    Synthesis R Unit := do
  let controlled ← lendScratch control
  addBits controlled (source.zip target)
  if let some c := controlled then assertRestored [c.scratch]

theorem lendScratch_run {s t t' : Session ℝ} {id : FrameId} (ht : s.Scoped id [] [] t)
    {control : Option QubitId} {controlled : Option Control}
    (hexec : exec (lendScratch control : Synthesis ℝ (Option Control)) t = (.ok controlled, t')) :
    ∃ scratch, s.Scoped id scratch [] t' ∧
      Control.qubits controlled = control.toList ++ scratch ∧
      scratch.Nodup ∧ (∀ q ∈ scratch, t.allocator.isLive q = false) ∧
      (∀ q, t'.allocator.isLive q = true ↔ t.allocator.isLive q = true ∨ q ∈ scratch) ∧
      (∀ y, (∀ q ∈ scratch, y.testBit q = false) → Quiet controlled y) ∧
      ∀ y, enabled controlled y = decide (AllRead control.toList y) := by
  rcases control with _ | c
  · obtain ⟨hnone, rfl⟩ := Prod.mk.inj (show (Except.ok none, t) = (.ok controlled, t') from hexec)
    obtain rfl := Except.ok.inj hnone
    refine ⟨[], ht, rfl, List.nodup_nil, fun q hq => absurd hq List.not_mem_nil, fun q => ?_,
      fun y _ c hc => absurd hc (by simp), fun y => ?_⟩
    · exact (or_iff_left List.not_mem_nil).symm
    · simp [enabled, AllRead]
  · obtain ⟨scratch, t₁, hallocate, hpure⟩ := exec_bind_ok hexec
    obtain ⟨hsome, rfl⟩ :=
      Prod.mk.inj (show (Except.ok (some ⟨c, scratch⟩), t₁) = (.ok controlled, t') from hpure)
    obtain rfl := Except.ok.inj hsome
    have hgrant := allocateOne_ok hallocate
    obtain ⟨hdistinct, hfresh, hlive⟩ := allocate_fresh ht.steady.allocator hgrant
    refine ⟨[scratch], ht.allocate hgrant, rfl, hdistinct, hfresh, hlive, ?_, fun y => ?_⟩
    · intro y hy d hd
      obtain rfl := Option.mem_some_iff.1 hd
      exact hy scratch List.mem_cons_self
    · simp [enabled, AllRead]

def added (target source : List QubitId) (control : Option QubitId) (y : ℕ) : ℕ :=
  write target ((reading target y + if AllRead control.toList y then reading source y else 0) %
    2 ^ target.length) y

theorem write_mod (qs : List QubitId) (v y : ℕ) : write qs (v % 2 ^ qs.length) y = write qs v y := by
  induction qs generalizing v with
  | nil => rfl
  | cons q qs ih =>
    have hhalf : v % 2 ^ (q :: qs).length / 2 = v / 2 % 2 ^ qs.length := by
      rw [List.length_cons, Nat.pow_succ', Nat.mod_mul_right_div_self]
    have hlow : (v % 2 ^ (q :: qs).length).testBit 0 = v.testBit 0 := by
      rw [Nat.testBit_mod_two_pow]
      simp
    rw [write, write, hhalf, hlow, ih]

theorem summed_eq_added {target source : List QubitId} {control : Option QubitId} {y : ℕ}
    (hcontrol : enabled controlled y = decide (AllRead control.toList y)) :
    summed controlled source target false y = added target source control y := by
  rw [summed, added, write_mod, hcontrol]
  by_cases hread : AllRead control.toList y <;> simp [hread]

theorem added_injective {target source : List QubitId} {control : Option QubitId}
    (h : (target ++ source ++ control.toList).Nodup) :
    Function.Injective (added target source control) := by
  intro x y hxy
  obtain ⟨hoperands, -, hcontrol⟩ := List.nodup_append'.1 h
  obtain ⟨htarget, -, hsource⟩ := List.nodup_append'.1 hoperands
  have hoff : ∀ p, p ∉ target → x.testBit p = y.testBit p := fun p hp => by
    rw [← testBit_write_of_not_mem hp _ x, ← testBit_write_of_not_mem hp _ y]
    exact congrArg (·.testBit p) hxy
  have haddend : reading source x = reading source y :=
    reading_congr fun q hq => hoff q fun hmem => hsource hmem hq
  have hread : AllRead control.toList x ↔ AllRead control.toList y := by
    refine forall₂_congr fun q hq => ?_
    rw [hoff q fun hmem => hcontrol (List.mem_append_left _ hmem) hq]
  -- equal sums of equal addends have equal terms, modulo the size of the target
  have hsum := congrArg (reading target) hxy
  rw [added, added, write_mod, write_mod, reading_write htarget, reading_write htarget, haddend,
    if_congr hread rfl rfl] at hsum
  refine eq_of_reading ?_ hoff
  have hmod := Nat.ModEq.add_right_cancel' _ hsum
  rwa [Nat.ModEq, Nat.mod_eq_of_lt (reading_lt target x), Nat.mod_eq_of_lt (reading_lt target y)]
    at hmod

theorem scopedAdd_run {s t t' : Session ℝ} {id : FrameId} (ht : s.Scoped id [] [] t)
    {target source : List QubitId} {control : Option QubitId} (hpos : target ≠ [])
    (hlength : target.length = source.length) (h : (target ++ source ++ control.toList).Nodup)
    (hlive : ∀ q ∈ target ++ source ++ control.toList, t.allocator.isLive q = true)
    (hexec : exec (scopedAdd target source control : Synthesis ℝ Unit) t = (.ok (), t')) :
    ∃ work m κ, s.Scoped id work m t' ∧ κ ≠ 0 ∧
      (∀ i ∈ m, ∀ q ∈ i.qubits, q ∈ target ++ source ++ control.toList ∨ q ∈ work) ∧
      Decides m t'.circuit.width t'.circuit.numClbits κ (fun y => ∀ q ∈ work, y.testBit q = false)
        (added target source control) := by
  have hsource : (source.zip target).map Prod.fst = source := List.map_fst_zip hlength.ge
  have htarget : (source.zip target).map Prod.snd = target := List.map_snd_zip hlength.le
  have hpairs : source.zip target ≠ [] := by
    intro hnil
    rw [hnil] at htarget
    exact hpos htarget.symm
  obtain ⟨controlled, t₁, hlend, hbody⟩ := exec_bind_ok hexec
  obtain ⟨_, t₂, hadd, hrestore⟩ := exec_bind_ok hbody
  obtain ⟨scratch, ht₁, hqubits, hdistinct, hfresh, hlive₁, hquiet, henabled⟩ := lendScratch_run ht hlend
  have hperm : (chainQubits controlled (source.zip target) []).Perm
      (target ++ source ++ control.toList ++ scratch) := by
    rw [List.perm_iff_count]
    intro q
    simp only [chainQubits, hsource, htarget, hqubits, List.count_append, List.count_nil]
    omega
  have hnodup : (chainQubits controlled (source.zip target) []).Nodup := by
    rw [hperm.nodup_iff]
    refine List.nodup_append'.2 ⟨h, hdistinct, fun q hq hmem => ?_⟩
    have hdead := hfresh q hmem
    rw [hlive q hq] at hdead
    exact Bool.noConfusion hdead
  obtain ⟨carries, m, κ, ht₂, hκ, hamong, hacts⟩ := addBits_run ht₁ hpairs hnodup
    (fun q hq => (hlive₁ q).2 ((List.mem_append.1 (hperm.mem_iff.1 hq)).imp_left (hlive q))) hadd
  -- the declaration that the scratch qubit is restored changes marks only
  have houtline : t'.outline = t₂.outline := by
    rcases controlled with _ | c
    · rw [(Prod.mk.inj hrestore).2]
    · exact assertRestored_outline (exec_step_ok hrestore)
  have hcircuit : t'.circuit = t₂.circuit := (outline_eq_iff.1 houtline).2.2.1
  refine ⟨scratch ++ carries, m, κ, ht₂.of_outline houtline, hκ, fun i hi q hq => ?_, ?_⟩
  · have hmem := hamong i hi q hq
    simp only [chainQubits, hsource, htarget, hqubits, List.mem_append] at hmem ⊢
    tauto
  · rw [hcircuit]
    refine hacts.mono le_rfl le_rfl (fun y hy => ?_) fun y _ => ?_
    · exact ⟨hquiet y fun q hq => hy q (List.mem_append_left _ hq),
        fun q hq => hy q (List.mem_append_right _ hq)⟩
    · rw [hsource, htarget]
      exact summed_eq_added (henabled y)

def addInto {R : Type} [Scalar R] (target source : Variable) : Option QubitId → Synthesis R Unit
  | some c => addControlled target source c
  | none => add target source

theorem addWith_eq {R : Type} [Scalar R] (operation : String) (target source : Variable)
    (control : Option QubitId) :
    (addWith operation target source control : Synthesis R Unit) = (do
      Build.ofExcept (Synthesis.checkWidth operation target.width)
      Build.ofExcept (Synthesis.checkSameWidth operation target.width source.width)
      let session ← session
      scope operation (scopedAdd target.qubits source.qubits control)
      assertRestored ((source.qubits ++ control.toList).filter session.isClean)) := by
  unfold addWith scopedAdd lendScratch
  cases control with
  | none => rfl
  | some c =>
    simp only [bind_assoc, pure_bind]

theorem addInto_ok {s s' : Session ℝ} {target source : Variable} {control : Option QubitId}
    (h : exec (addInto target source control : Synthesis ℝ Unit) s = (.ok (), s')) :
    0 < target.width ∧ target.width = source.width ∧ ∃ operation t,
      exec (scope operation (scopedAdd target.qubits source.qubits control) : Synthesis ℝ Unit) s =
        (.ok (), t) ∧ s'.outline = t.outline := by
  have hwith : ∃ operation,
      exec (addWith operation target source control : Synthesis ℝ Unit) s = (.ok (), s') := by
    rcases control with _ | c
    · exact ⟨"gidney_add", h⟩
    · have hcontrolled : exec (addControlled target source c : Synthesis ℝ Unit) s = (.ok (), s') := h
      unfold addControlled at hcontrolled
      split at hcontrolled
      · exact nomatch (Prod.mk.inj (show (Except.error _, s) = (.ok (), s') from hcontrolled)).1
      · exact ⟨"gidney_add_controlled", hcontrolled⟩
  obtain ⟨operation, hwith⟩ := hwith
  rw [addWith_eq] at hwith
  obtain ⟨_, s₁, hwidth', hwith⟩ := exec_bind_ok hwith
  obtain ⟨_, s₂, hsame', hwith⟩ := exec_bind_ok hwith
  obtain ⟨session, s₃, hsession, hwith⟩ := exec_bind_ok hwith
  obtain ⟨_, t, hscope, hrestored⟩ := exec_bind_ok hwith
  obtain ⟨hwidth, rfl⟩ := Prod.mk.inj
    (show (Synthesis.checkWidth operation target.width, s) = (.ok _, s₁) from hwidth')
  obtain ⟨hsame, rfl⟩ := Prod.mk.inj
    (show (Synthesis.checkSameWidth operation target.width source.width, s) = (.ok _, s₂) from hsame')
  obtain ⟨-, rfl⟩ := Prod.mk.inj (show (Except.ok s, s) = (.ok session, s₃) from hsession)
  exact ⟨((Synthesis.checks_width _ _).of_ok hwidth).1, (Synthesis.checks_sameWidth _ _ _).of_ok hsame,
    operation, t, hscope, assertRestored_outline (exec_step_ok hrestored)⟩

/-- Between two sessions without open environments a dynamic circuit for the addition is appended. It
acts on the operands and on qubits handed out for it, which were not in use before and are not in use
afterwards. Whatever the outcomes of its measurements, it acts on all superpositions of the basis
states in which the qubits handed out read 0 as one nonzero factor times the permutation that adds
the source to the target, and in what it leads to these qubits read 0 again. -/
def Accumulates (s s' : Session ℝ) (target source : List QubitId) (control : Option QubitId) : Prop :=
  ∃ (l : List (Instruction ℝ)) (work : List QubitId) (κ : ℂ), κ ≠ 0 ∧
    s'.isPoisoned = false ∧ s'.numOpen = 0 ∧
    (∀ q, s'.allocator.isLive q = s.allocator.isLive q) ∧ s'.emissions = s.emissions ++ l ∧
    s.circuit.HandsOut s'.circuit work ∧ (∀ q ∈ work, s.allocator.isLive q = false) ∧
    (∀ i ∈ l, ∀ q ∈ i.qubits, q ∈ target ++ source ++ control.toList ∨ q ∈ work) ∧
    ∀ (σ : Type) [DrawSource σ ℝ] (b : Bindings ℝ), ∃ steps : List (Step ℂ),
      Step.ofInstructions b true l = .ok steps ∧
      ∀ (outcomes : ℕ → Bool) (t : Trajectory ℂ σ),
        t.Holds s'.circuit.width s'.circuit.numClbits →
        (∀ y, (∃ q ∈ work, y.testBit q = true) → amplitudes t.state.amplitudes y = 0) →
        (∀ y, (∀ q ∈ work, y.testBit q = false) →
          amplitudes (t.runDecided outcomes steps).state.amplitudes (added target source control y) =
            κ * amplitudes t.state.amplitudes y) ∧
        ∀ y, (∃ q ∈ work, y.testBit q = true) →
          amplitudes (t.runDecided outcomes steps).state.amplitudes y = 0

/-- In-place addition with measured carries. Called with success and with no open environment, on
distinct qubits in use, the addition adds the source to the target modulo its size, where the control
reads 1 if there is one, for all outcomes of the measurements that erase its carries. -/
theorem addInto_accumulates {s s' : Session ℝ} (hs : s.Reachable) (hopen : s.numOpen = 0)
    {target source : Variable} {control : Option QubitId}
    (hnodup : (target.qubits ++ source.qubits ++ control.toList).Nodup)
    (hlive : ∀ q ∈ target.qubits ++ source.qubits ++ control.toList, s.allocator.isLive q = true)
    (hexec : (addInto target source control : Synthesis ℝ Unit).exec s = (.ok (), s')) :
    Accumulates s s' target.qubits source.qubits control := by
  obtain ⟨hpos, hwidth, operation, u, hscope, houtline⟩ := addInto_ok hexec
  obtain ⟨id, s₁, s₂, henter, hbody, hexit⟩ := exec_within_ok hscope
  have hp : s.isPoisoned = false := by
    unfold Session.enter at henter
    split at henter
    · simp [refuse] at henter
    · next hp => simpa using hp
  have hentered := (hs.steady hp hopen).enter hopen henter
  have hlive₁ : ∀ q ∈ target.qubits ++ source.qubits ++ control.toList,
      s₁.allocator.isLive q = true := fun q hq => (hentered.lent.live q).2 (.inl (hlive q hq))
  have htarget : target.qubits ≠ [] := List.ne_nil_of_length_pos hpos
  obtain ⟨work, m, κ, hscoped, hκ, hamong, hacts⟩ :=
    scopedAdd_run hentered htarget hwidth hnodup hlive₁ hbody
  obtain ⟨hsteady, hclosed, hback, hgrown, hhanded, hemissions⟩ := hscoped.exit hexit
  obtain ⟨-, hallocator, hcircuit, -, -⟩ := outline_eq_iff.1 houtline
  have hsent := hsteady.sent.of_outline houtline
  refine ⟨m, work, κ, hκ, hsent.steady.unpoisoned, hsent.numOpen.trans hclosed, ?_, ?_, ?_,
    hscoped.lent.fresh, hamong, ?_⟩
  · rw [hallocator]
    exact hback
  · rw [hsent.emissions, List.append_nil, hemissions]
  · rw [hcircuit]
    exact hhanded
  · intro σ _ b
    obtain ⟨steps, hsteps, hrun⟩ := hacts σ b
    refine ⟨steps, hsteps, fun outcomes t ht hzero => ?_⟩
    rw [hcircuit] at ht
    obtain ⟨A, hA, hket⟩ := hrun outcomes t (ht.mono hgrown.width_le hgrown.numClbits_le)
    obtain ⟨hvalue, hnone⟩ := Operator.apply_of_kets hket
      (fun x y _ _ heq => added_injective hnodup heq) fun y hy => hzero y (by simpa using hy)
    rw [← hA.amplitudes] at hvalue hnone
    refine ⟨hvalue, fun z hz => hnone z fun y hy heq => ?_⟩
    obtain ⟨q, hq, hone⟩ := hz
    -- the addition does not touch the qubits that were lent to it
    have hapart : q ∉ target.qubits := fun hmem => by
      have hdead := hscoped.lent.fresh q hq
      rw [hlive q (List.mem_append_left _ (List.mem_append_left _ hmem))] at hdead
      exact Bool.noConfusion hdead
    rw [← heq, added, testBit_write_of_not_mem hapart, hy q hq] at hone
    exact Bool.noConfusion hone

theorem addInto_accumulates_two_bits :
    ∃ s s' : Session ℝ, s = (Session.new {}).after
        [.allocate 2 "target", .allocate 2 "source", .allocate 1 "control"] ∧
      (addInto ⟨"target", [0, 1], .integer false⟩ ⟨"source", [2, 3], .integer false⟩ (some 4) :
        Synthesis ℝ Unit).exec s = (.ok (), s') ∧
      Accumulates s s' [0, 1] [2, 3] (some 4) := by
  have hok : ((addInto ⟨"target", [0, 1], .integer false⟩ ⟨"source", [2, 3], .integer false⟩
      (some 4) : Synthesis ℝ Unit).exec ((Session.new {}).after
        [.allocate 2 "target", .allocate 2 "source", .allocate 1 "control"])).1.isOk = true := by
    decide +kernel
  rcases hexec : (addInto ⟨"target", [0, 1], .integer false⟩ ⟨"source", [2, 3], .integer false⟩
      (some 4) : Synthesis ℝ Unit).exec ((Session.new {}).after
        [.allocate 2 "target", .allocate 2 "source", .allocate 1 "control"]) with ⟨e | _, s'⟩
  · rw [hexec] at hok
    exact absurd hok Bool.false_ne_true
  · exact ⟨_, s', rfl, hexec, addInto_accumulates ((Session.Reachable.new {}).after _)
      (by decide +kernel) (by decide) (by decide +kernel) hexec⟩

end Ancilla.MeasuredAdder
