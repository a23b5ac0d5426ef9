import Ancilla.Arithmetic.Adder
import Ancilla.Proofs.Arithmetic.Carries
import Ancilla.Proofs.Arithmetic.Rejection
import Ancilla.Proofs.Session.Conjugating

/-!
Addition into a new register. Whatever finds the carries of two registers in the compute phase of a
conjugation, the action puts the sum together from the two operands and the carries, and the
computation is undone. Main statements: such a construction sums, and with a chain of carries the sum
is all that is left, every carry being returned.
-/

namespace Ancilla.Adder

open Build Session

/-! ## The sum from its carries -/

def inputs : Option QubitId → List (List QubitId × QubitId) → List (List QubitId)
  | previous, [] => [previous.toList]
  | previous, (addends, carry) :: rest => (addends ++ previous.toList) :: inputs (some carry) rest

theorem length_inputs (previous : Option QubitId) (pairs : List (List QubitId × QubitId)) :
    (inputs previous pairs).length = pairs.length + 1 := by
  induction pairs generalizing previous with
  | nil => rfl
  | cons pair rest ih => rw [inputs, List.length_cons, ih, List.length_cons]

theorem mem_inputs {previous : Option QubitId} {pairs : List (List QubitId × QubitId)}
    {qs : List QubitId} (hqs : qs ∈ inputs previous pairs) {q : QubitId} (hq : q ∈ qs) :
    q ∈ previous ∨ ∃ pair ∈ pairs, q ∈ pair.1 ∨ q = pair.2 := by
  induction pairs generalizing previous with
  | nil =>
    obtain rfl := List.mem_singleton.1 hqs
    exact .inl (Option.mem_toList.1 hq)
  | cons pair rest ih =>
    rcases List.mem_cons.1 hqs with rfl | hqs
    · rcases List.mem_append.1 hq with hq | hq
      · exact .inr ⟨pair, List.mem_cons_self, .inl hq⟩
      · exact .inl (Option.mem_toList.1 hq)
    · rcases ih hqs with hcarry | ⟨pair', hpair', hmem⟩
      · exact .inr ⟨pair, List.mem_cons_self, .inr (Option.mem_some.1 hcarry).symm⟩
      · exact .inr ⟨pair', List.mem_cons_of_mem _ hpair', hmem⟩

theorem parity_inputs {previous : Option QubitId} {pairs : List (List QubitId × QubitId)} {x : ℕ}
    {c : ℕ → Bool} (hprevious : parity previous.toList x = c 0)
    (hcarry : ∀ i pair, pairs[i]? = some pair → x.testBit pair.2 = c (i + 1)) {i : ℕ}
    {qs : List QubitId} (hqs : (inputs previous pairs)[i]? = some qs) :
    parity qs x = (parity ((pairs[i]?.map Prod.fst).getD []) x ^^ c i) := by
  induction pairs generalizing previous c i with
  | nil =>
    cases i with
    | zero =>
      obtain rfl := Option.some.inj hqs
      rw [hprevious]
      exact (Bool.false_xor _).symm
    | succ i => exact nomatch hqs
  | cons pair rest ih =>
    cases i with
    | zero =>
      obtain rfl := Option.some.inj hqs
      rw [parity_append, hprevious]
      rfl
    | succ i =>
      have hnext : parity (some pair.2).toList x = c 1 := by
        rw [← hcarry 0 pair rfl]
        exact Bool.xor_false _
      exact ih (c := fun i => c (i + 1)) hnext (fun i pair' h => hcarry (i + 1) pair' h) hqs

def sumFlips (previous : Option QubitId) (pairs : List (List QubitId × QubitId))
    (sum : List QubitId) : List Flip := gather ((inputs previous pairs).zip sum)

theorem sumBits_eq (previous : Option QubitId) (pairs : List (List QubitId × QubitId))
    (sum : List QubitId) : (sumBits previous pairs sum : Synthesis ℝ Unit) =
      Build.flips (sumFlips previous pairs sum) := by
  induction pairs generalizing previous sum with
  | nil =>
    rcases previous with _ | c <;> rcases sum with _ | ⟨t, sum⟩
    · rfl
    · rfl
    · rfl
    · have hone : (Build.cx c t >>= fun _ => pure ()) = (Build.cx c t : Synthesis ℝ Unit) :=
        bind_pure_unit
      exact hone.symm
  | cons pair rest ih =>
    rcases sum with _ | ⟨t, sum⟩
    · rcases previous with _ | c <;> rfl
    · have hfirst : sumFlips previous (pair :: rest) (t :: sum) =
          pair.1.map (Flip.single · t) ++ (previous.toList.map (Flip.single · t) ++
            sumFlips (some pair.2) rest sum) := by
        rw [← List.append_assoc, ← List.map_append]
        rfl
      rw [hfirst, Build.flips_append, Build.flips_append, Build.flips_map, Build.flips_map, ← ih]
      rcases previous with _ | c
      · rfl
      · have hone : ([c].forM fun q => (Flip.single q t).build : Synthesis ℝ Unit) = Build.cx c t :=
          bind_pure_unit
        rw [Option.toList_some, hone]
        rfl

section Sum

variable {x y z : ℕ} {addends : List (List QubitId)} {carry sum : List QubitId}
  (hcarries : carry.length = addends.length)
  (hx : x < 2 ^ carry.length) (hy : y < 2 ^ carry.length)
  (hparity : ∀ i (h : i < addends.length), parity addends[i] z = (x.testBit i ^^ y.testBit i))
  (hfound : ∀ i (h : i < carry.length), z.testBit carry[i] = generates x y 0 (i + 1))
include hcarries hx hy hparity hfound

theorem parity_inputs_sum {i : ℕ} {qs : List QubitId}
    (hqs : (inputs none (addends.zip carry))[i]? = some qs) : parity qs z = (x + y).testBit i := by
  have hcarry : ∀ j pair, (addends.zip carry)[j]? = some pair →
      z.testBit pair.2 = generates x y 0 (j + 1) := by
    intro j pair hj
    obtain ⟨hlt, heq⟩ := List.getElem?_eq_some_iff.1 (List.getElem?_zip_eq_some.1 hj).2
    rw [← heq]
    exact hfound j hlt
  have hnone : parity (none : Option QubitId).toList z = generates x y 0 0 :=
    (generates_zero x y 0).symm
  have hoperands : parity (((addends.zip carry)[i]?.map Prod.fst).getD []) z =
      (x.testBit i ^^ y.testBit i) := by
    rcases Nat.lt_or_ge i addends.length with hlt | hge
    · have hpair : (addends.zip carry)[i]? = some (addends[i], carry[i]) :=
        List.getElem?_zip_eq_some.2 ⟨List.getElem?_eq_getElem hlt, List.getElem?_eq_getElem _⟩
      rw [hpair]
      exact hparity i hlt
    · -- above the operands there is only the last carry
      have hsize := Nat.pow_le_pow_right Nat.two_pos (hcarries ▸ hge)
      have hlength : (addends.zip carry).length ≤ i := by
        rw [List.length_zip]
        omega
      rw [List.getElem?_eq_none hlength, Nat.testBit_lt_two_pow (hx.trans_le hsize),
        Nat.testBit_lt_two_pow (hy.trans_le hsize)]
      rfl
  rw [parity_inputs hnone hcarry hqs, hoperands, testBit_sum]

variable (hlength : sum.length = carry.length + 1) (hnodup : sum.Nodup)
  (haddends : ∀ qs ∈ addends, ∀ q ∈ qs, q ∉ sum) (hcarry : ∀ q ∈ carry, q ∉ sum)
include hlength hnodup haddends hcarry

theorem flipAll_sumFlips (hzero : ∀ q ∈ sum, z.testBit q = false) :
    flipAll (sumFlips none (addends.zip carry) sum) z = write sum (x + y) z := by
  have hinputs : (inputs none (addends.zip carry)).length = sum.length := by
    rw [length_inputs, List.length_zip, hcarries, min_self, hlength, hcarries]
  have htargets : ((inputs none (addends.zip carry)).zip sum).map Prod.snd = sum :=
    List.map_snd_zip hinputs.ge
  have hsum : x + y < 2 ^ sum.length := by
    rw [hlength, Nat.pow_succ]
    omega
  have hapart : ∀ w ∈ (inputs none (addends.zip carry)).zip sum, ∀ q ∈ w.1,
      q ∉ ((inputs none (addends.zip carry)).zip sum).map Prod.snd := by
    intro w hw q hq
    rw [htargets]
    rcases mem_inputs (List.of_mem_zip hw).1 hq with hnone | ⟨pair, hpair, hq | rfl⟩
    · exact absurd hnone (by simp)
    · exact haddends _ (List.of_mem_zip hpair).1 q hq
    · exact hcarry _ (List.of_mem_zip hpair).2
  refine (eq_write_iff hnodup hsum).2 ⟨reading_eq_of_testBit hsum fun i hi => ?_, fun p hp => ?_⟩
  · have hinput := List.getElem?_eq_getElem (hinputs ▸ hi : i < (inputs none (addends.zip carry)).length)
    have hmem : ((inputs none (addends.zip carry))[i], sum[i]) ∈
        (inputs none (addends.zip carry)).zip sum :=
      List.mem_of_getElem? (List.getElem?_zip_eq_some.2 ⟨hinput, List.getElem?_eq_getElem hi⟩)
    refine (testBit_flipAll_gather (htargets.symm ▸ hnodup) hapart hmem z).trans ?_
    rw [hzero _ (List.getElem_mem hi), Bool.false_xor,
      parity_inputs_sum hcarries hx hy hparity hfound hinput]
  · refine testBit_flipAll_of_not_target (fun f hf heq => ?_) z
    obtain ⟨w, hw, q, -, rfl⟩ := target_of_mem_gather hf
    exact hp (heq ▸ (List.of_mem_zip hw).2)

theorem flipAll_sumFlips_computed {fs : List Flip} {w : ℕ} (hz : z = flipAll fs w)
    (hapart : ∀ g ∈ fs, ∀ q ∈ g.qubits, q ∉ sum) (hzero : ∀ q ∈ sum, w.testBit q = false) :
    flipAll (sumFlips none (addends.zip carry) sum) z = flipAll fs (write sum (x + y) w) := by
  have hsum : x + y < 2 ^ sum.length := by
    rw [hlength, Nat.pow_succ]
    omega
  rw [flipAll_write hnodup hsum hapart, ← hz]
  refine flipAll_sumFlips hcarries hx hy hparity hfound hlength hnodup haddends hcarry fun q hq => ?_
  rw [hz, testBit_flipAll_of_not_target fun g hg heq => hapart g hg _ g.target_mem_qubits (heq ▸ hq)]
  exact hzero q hq

end Sum

/-! ## Sums in a new register -/

/-- A session after a construction that left the sum of two registers in a third one. This is one bit
wider, and its qubits alone are in use that were not in use before; the `ancillae` handed out besides
are at hand again. No environment is open. The instructions `l` were appended, which act on the
operands and on the qubits handed out. Their run takes every basis state in which the qubits handed
out read 0 to a basis state in which the third register holds the sum; the operands read what they
read before, the ancillae 0, and so do all other qubits. -/
structure Summed (s s' : Session ℝ) (a b ancillae sum : List QubitId) (l : List (Instruction ℝ)) :
    Prop where
  unpoisoned : s'.isPoisoned = false
  closed : s'.numOpen = 0
  length : sum.length = a.length + 1
  live : ∀ q, s'.allocator.isLive q = true ↔ s.allocator.isLive q = true ∨ q ∈ sum
  returned : ∀ q ∈ ancillae, q ∈ s'.allocator.reclaimed
  nodup : (ancillae ++ sum).Nodup
  fresh : ∀ q ∈ ancillae ++ sum, s.allocator.isLive q = false
  handed : s.circuit.HandsOut s'.circuit (ancillae ++ sum)
  emissions : s'.emissions = s.emissions ++ l
  operands : ∀ i ∈ l, ∀ q ∈ i.qubits, q ∈ a ++ b ∨ q ∈ ancillae ++ sum
  run : ∀ (σ : Type) [DrawSource σ ℝ] (t : Trajectory ℂ σ) (bindings : Bindings ℝ) (collapse : Bool)
    (y : ℕ), s'.circuit.width ≤ t.state.numQubits →
    t.state.amplitudes.size = 2 ^ t.state.numQubits → amplitudes t.state.amplitudes = ket y →
    (∀ q ∈ ancillae ++ sum, y.testBit q = false) →
    ∃ steps w z, Step.ofInstructions bindings collapse l = .ok steps ∧
      t.run steps = t.withAmplitudes w ∧ w.size = t.state.amplitudes.size ∧ amplitudes w = ket z ∧
      reading sum z = reading a y + reading b y ∧ reading a z = reading a y ∧
      reading b z = reading b y ∧ (∀ q ∈ ancillae, z.testBit q = false) ∧
      ∀ p, p ∉ sum → z.testBit p = y.testBit p

def Sums (c : Synthesis ℝ Variable) (s : Session ℝ) (a b : List QubitId) : Prop :=
  ∃ (v : Variable) (s' : Session ℝ) (ancillae : List QubitId) (l : List (Instruction ℝ)),
    c.exec s = (.ok v, s') ∧ s'.isPoisoned = false ∧ s'.numOpen = 0 ∧ v.width = a.length + 1 ∧
    (∀ q, s'.allocator.isLive q = true ↔ s.allocator.isLive q = true ∨ q ∈ v.qubits) ∧
    (ancillae ++ v.qubits).Nodup ∧ (∀ q ∈ ancillae ++ v.qubits, s.allocator.isLive q = false) ∧
    s.circuit.HandsOut s'.circuit (ancillae ++ v.qubits) ∧ s'.emissions = s.emissions ++ l ∧
    (∀ i ∈ l, ∀ q ∈ i.qubits, q ∈ a ++ b ∨ q ∈ ancillae ++ v.qubits) ∧
    ∀ (σ : Type) [DrawSource σ ℝ] (t : Trajectory ℂ σ) (bindings : Bindings ℝ) (collapse : Bool)
      (y : ℕ), s'.circuit.width ≤ t.state.numQubits →
      t.state.amplitudes.size = 2 ^ t.state.numQubits → amplitudes t.state.amplitudes = ket y →
      (∀ q ∈ ancillae ++ v.qubits, y.testBit q = false) →
      ∃ steps w z, Step.ofInstructions bindings collapse l = .ok steps ∧
        t.run steps = t.withAmplitudes w ∧ w.size = t.state.amplitudes.size ∧ amplitudes w = ket z ∧
        reading v.qubits z = reading a y + reading b y ∧
        ∀ p, p ∉ v.qubits → z.testBit p = y.testBit p

/-- In the compute phase of a conjugation a construction finds the carries of two registers, and
leaves their parities to be read from `addends`. -/
def FindsCarries (compute : Synthesis ℝ (List QubitId)) (a b : List QubitId)
    (addends : List (List QubitId)) : Prop :=
  ∀ (s t : Session ℝ) (id : FrameId), (∀ q ∈ a ++ b, s.allocator.isLive q = true) →
    s.Computing (a ++ b) id [] [] t →
    ∃ carry t' ancillae fs, compute.exec t = (.ok carry, t') ∧
      s.Computing (a ++ b) id ancillae fs t' ∧ carry.length = a.length ∧ (∀ q ∈ carry, q ∈ ancillae) ∧
      ∀ y, (∀ q ∈ ancillae, y.testBit q = false) →
        (∀ i (h : i < carry.length), (flipAll fs y).testBit carry[i] =
          generates (reading a y) (reading b y) 0 (i + 1)) ∧
        ∀ i (h : i < addends.length), parity addends[i] (flipAll fs y) =
          ((reading a y).testBit i ^^ (reading b y).testBit i)

theorem exec_exportSum {sum : List QubitId} {s t : Session ℝ} (hsum : 0 < sum.length)
    (hsum' : sum.length ≤ Decoder.maxNumericWidth) (h : s.exportQubits sum = (.ok (), t)) :
    (exportSum sum : Synthesis ℝ Variable).exec s = (.ok ⟨"sum", sum, .integer false⟩, t) := by
  have hvariable : Variable.ofQubits "sum" sum (.integer false) =
      .ok ⟨"sum", sum, .integer false⟩ := by
    have hcheck : (Decoder.integer false).checkWidth sum.length = .ok () :=
      if_pos (by simp [Decoder.accepts, Nat.one_le_iff_ne_zero, hsum.ne', hsum'])
    unfold Variable.ofQubits
    rw [hcheck]
    rfl
  have hexport : exec (Build.exportQubits sum : Synthesis ℝ Unit) s = (.ok (), t) := exec_of_step h
  unfold exportSum
  rw [exec_bind_of hexport, hvariable]
  rfl

variable {compute : Synthesis ℝ (List QubitId)} {a b : List QubitId} {addends : List (List QubitId)}
  {s : Session ℝ}

theorem sits_sumFlips {carry sum ancillae : List QubitId}
    (hamong : ∀ qs ∈ addends, ∀ q ∈ qs, q ∈ a ++ b) (hknown : ∀ q ∈ carry, q ∈ ancillae)
    (hnew : ∀ q ∈ sum, q ∉ a ++ b ++ ancillae) :
    ∀ g ∈ sumFlips none (addends.zip carry) sum,
      g.placement.Sits (a ++ b ++ (ancillae ++ sum)) ∧ g.target ∈ sum := by
  intro g hg
  obtain ⟨w, hw, q, hq, rfl⟩ := target_of_mem_gather hg
  obtain ⟨hinput, hsum⟩ := List.of_mem_zip hw
  have hold : q ∈ a ++ b ++ ancillae := by
    rcases mem_inputs hinput hq with hnone | ⟨pair, hpair, hq | rfl⟩
    · exact absurd hnone (by simp)
    · exact List.mem_append_left _ (hamong _ (List.of_mem_zip hpair).1 q hq)
    · exact List.mem_append_right _ (hknown _ (List.of_mem_zip hpair).2)
  have hne : q ≠ w.2 := fun heq => hnew _ hsum (heq ▸ hold)
  refine ⟨Flip.sits (by simpa [Flip.qubits, Flip.controls, Flip.target] using hne) fun p hp => ?_,
    hsum⟩
  rw [← List.append_assoc]
  rcases List.mem_cons.1 hp with rfl | hp
  · exact List.mem_append_left _ hold
  · rw [List.mem_singleton.1 hp]
    exact List.mem_append_right _ hsum

theorem Sums.of_summed {c : Synthesis ℝ Variable} {v : Variable} {s' : Session ℝ}
    {ancillae : List QubitId} {l : List (Instruction ℝ)} (hexec : c.exec s = (.ok v, s'))
    (h : Summed s s' a b ancillae v.qubits l) : Sums c s a b := by
  refine ⟨v, s', ancillae, l, hexec, h.unpoisoned, h.closed, h.length, h.live, h.nodup, h.fresh,
    h.handed, h.emissions, h.operands, fun σ _ t bindings collapse y hwidth hsize hstart hzero => ?_⟩
  obtain ⟨steps, w, z, hsteps, hrun, hw, hz, hsum, -, -, -, hkeep⟩ :=
    h.run σ t bindings collapse y hwidth hsize hstart hzero
  exact ⟨steps, w, z, hsteps, hrun, hw, hz, hsum, hkeep⟩

theorem reads_sum {ancillae sum : List QubitId} (hsame : b.length = a.length)
    (hlength : sum.length = a.length + 1) (hnodup : sum.Nodup)
    (hnew : ∀ q ∈ sum, q ∉ a ++ b ++ ancillae) {y z : ℕ}
    (hzero : ∀ q ∈ ancillae, y.testBit q = false)
    (hz : z = write sum (reading a y + reading b y) y) :
    reading sum z = reading a y + reading b y ∧ reading a z = reading a y ∧
      reading b z = reading b y ∧ (∀ q ∈ ancillae, z.testBit q = false) ∧
      ∀ p, p ∉ sum → z.testBit p = y.testBit p := by
  have hsum : reading a y + reading b y < 2 ^ sum.length := by
    have ha := reading_lt a y
    have hb := reading_lt b y
    rw [hsame] at hb
    rw [hlength, Nat.pow_succ]
    omega
  have hkeep : ∀ p, p ∉ sum → z.testBit p = y.testBit p := fun p hp =>
    hz ▸ testBit_write_of_not_mem hp _ y
  have hold : ∀ q ∈ a ++ b, q ∉ sum := fun q hq hmem => hnew q hmem (List.mem_append_left _ hq)
  refine ⟨hz ▸ reading_write_of_lt hnodup hsum y,
    reading_congr fun q hq => hkeep q (hold q (List.mem_append_left _ hq)),
    reading_congr fun q hq => hkeep q (hold q (List.mem_append_right _ hq)), fun q hq => ?_, hkeep⟩
  rw [hkeep q fun hmem => hnew q hmem (List.mem_append_right _ hq)]
  exact hzero q hq

theorem exec_conjugate_sum {label : String} {carry ancillae : List QubitId} {fs : List Flip}
    {t₁ : Session ℝ} (hs : s.Idle) (hlive : ∀ q ∈ a ++ b, s.allocator.isLive q = true)
    (hwidth : a.length < Decoder.maxNumericWidth) (hsame : b.length = a.length)
    (haddends : addends.length = a.length) (hamong : ∀ qs ∈ addends, ∀ q ∈ qs, q ∈ a ++ b)
    (hcompute : compute.exec (s.entered .conjugation label) = (.ok carry, t₁))
    (h₁ : s.Computing (a ++ b) s.nextFrame ancillae fs t₁) (hcarries : carry.length = a.length)
    (hknown : ∀ q ∈ carry, q ∈ ancillae)
    (hfound : ∀ y, (∀ q ∈ ancillae, y.testBit q = false) →
      (∀ i (h : i < carry.length), (flipAll fs y).testBit carry[i] =
        generates (reading a y) (reading b y) 0 (i + 1)) ∧
      ∀ i (h : i < addends.length), parity addends[i] (flipAll fs y) =
        ((reading a y).testBit i ^^ (reading b y).testBit i)) :
    ∃ sum s', exec (conjugate label compute fun carry => do
        let sum ← Build.allocate (a.length + 1) "sum"
        sumBits none (addends.zip carry) sum
        exportSum sum) s = (.ok ⟨"sum", sum, .integer false⟩, s') ∧
      Summed s s' a b ancillae sum
        ((conjugated fs (sumFlips none (addends.zip carry) sum)).map Placement.instruction) := by
  obtain ⟨henter, -⟩ := hs.enter_conjugation (a ++ b) label
  obtain ⟨t₂, hbegin, h₂⟩ := h₁.beginAction
  obtain ⟨sum, t₃, hallocate, hlength, hnodup, hnew, h₃⟩ := h₂.allocate hlive (a.length + 1) "sum"
  have hgs := sits_sumFlips hamong hknown hnew
  obtain ⟨t₄, hflips, h₄⟩ := h₃.flips (ε := SynthesisError) hlive hgs
  obtain ⟨t₅, s', hexport, hexit, hdelivered⟩ := h₄.exit hlive
  rw [List.nil_append] at hdelivered
  have hbody : exec (do
      let carry ← compute
      Build.beginAction
      let sum ← Build.allocate (a.length + 1) "sum"
      sumBits none (addends.zip carry) sum
      exportSum sum) (s.entered .conjugation label) =
        (.ok ⟨"sum", sum, .integer false⟩, t₅) := by
    have hbegin' : exec (Build.beginAction : Synthesis ℝ Unit) t₁ = (.ok (), t₂) :=
      exec_of_step hbegin
    have hallocate' : exec (Build.allocate (a.length + 1) "sum" :
        Synthesis ℝ (List QubitId)) t₂ = (.ok sum, t₃) :=
      exec_of_step hallocate
    rw [exec_bind_of hcompute, exec_bind_of hbegin', exec_bind_of hallocate', sumBits_eq,
      exec_bind_of hflips]
    exact exec_exportSum (by omega) (by omega) hexport
  refine ⟨sum, s', exec_within_of henter hbody hexit, hdelivered.idle.unpoisoned,
    hdelivered.idle.numOpen, hlength, hdelivered.live, hdelivered.returned, hdelivered.nodup,
    hdelivered.fresh, hdelivered.handed, hdelivered.emissions, fun i hi q hq => ?_, ?_⟩
  · obtain ⟨e, he, rfl⟩ := List.mem_map.1 hi
    exact List.mem_append.1 ((hdelivered.sits e he).among q hq)
  · intro σ _ t bindings collapse y hstate hsize hstart hzero
    -- the sum does not touch what the computation reads, so undoing it gives back all the rest
    obtain ⟨hcarry, hparity⟩ := hfound y fun q hq => hzero q (List.mem_append_left _ hq)
    have hapart : ∀ g ∈ fs, ∀ q ∈ g.qubits, q ∉ sum := fun g hg q hq hmem =>
      hnew q hmem ((h₁.sits g hg).among q hq)
    have hact : flipAll (sumFlips none (addends.zip carry) sum) (flipAll fs y) =
        flipAll fs (write sum (reading a y + reading b y) y) :=
      flipAll_sumFlips_computed (hcarries.trans haddends.symm) (hcarries ▸ reading_lt a y)
        (hcarries ▸ hsame ▸ reading_lt b y) hparity hcarry (by rw [hlength, hcarries]) hnodup
        (fun qs hqs q hq hmem => hnew q hmem (List.mem_append_left _ (hamong qs hqs q hq)))
        (fun q hq hmem => hnew q hmem (List.mem_append_right _ (hknown q hq))) rfl hapart
        fun q hq => hzero q (List.mem_append_right _ hq)
    obtain ⟨steps, w, hsteps, hrun, hw, hamplitudes⟩ := Placement.runs_ket hdelivered.sits σ t
      bindings collapse (fun q hq => (hdelivered.below q hq).trans_le hstate) hsize hstart
      (compose_conjugated h₁.sits t.read bindings hact)
    exact ⟨steps, w, _, hsteps, hrun, hw, hamplitudes, reads_sum hsame hlength hnodup hnew
      (fun q hq => hzero q (List.mem_append_left _ hq)) rfl⟩

theorem FindsCarries.sums (h : FindsCarries compute a b addends)
    (hwidth : a.length < Decoder.maxNumericWidth) (hsame : b.length = a.length)
    (haddends : addends.length = a.length) (hamong : ∀ qs ∈ addends, ∀ q ∈ qs, q ∈ a ++ b)
    (hs : s.Idle) (hlive : ∀ q ∈ a ++ b, s.allocator.isLive q = true) (label : String) :
    Sums (conjugate label compute fun carry => do
      let sum ← Build.allocate (a.length + 1) "sum"
      sumBits none (addends.zip carry) sum
      exportSum sum) s a b := by
  obtain ⟨-, h₀⟩ := hs.enter_conjugation (a ++ b) label
  obtain ⟨carry, t₁, ancillae, fs, hcompute, h₁, hcarries, hknown, hfound⟩ := h s _ _ hlive h₀
  obtain ⟨sum, s', hexec, hsummed⟩ :=
    exec_conjugate_sum hs hlive hwidth hsame haddends hamong hcompute h₁ hcarries hknown hfound
  exact Sums.of_summed hexec hsummed

/-! ## The chain of carries -/

theorem Sums.after {r : Except SynthesisError Unit} (hr : r = .ok ()) {c : Synthesis ℝ Variable}
    (h : Sums c s a b) : Sums (Build.ofExcept r >>= fun _ => c) s a b := by
  rw [hr]
  exact h

theorem getElem?_zip_zip {as bs cs : List QubitId} {i p q t : ℕ} :
    (as.zip (bs.zip cs))[i]? = some (p, q, t) ↔
      as[i]? = some p ∧ bs[i]? = some q ∧ cs[i]? = some t := by
  rw [List.getElem?_zip_eq_some, List.getElem?_zip_eq_some]

theorem map_zip_zip {as bs cs : List QubitId} (has : cs.length ≤ as.length)
    (hbs : cs.length ≤ bs.length) : ((as.zip (bs.zip cs)).map fun w => w.2.2) = cs := by
  have hinner : (bs.zip cs).map Prod.snd = cs := List.map_snd_zip hbs
  have houter : (as.zip (bs.zip cs)).map Prod.snd = bs.zip cs :=
    List.map_snd_zip (by rw [List.length_zip]; omega)
  calc ((as.zip (bs.zip cs)).map fun w => w.2.2)
      = ((as.zip (bs.zip cs)).map Prod.snd).map Prod.snd := List.map_map.symm
    _ = cs := by rw [houter, hinner]

theorem getElem?_carryBits {a b carry : List QubitId} {i : ℕ} {bit : CarryBit} :
    (carryBits a b carry)[i]? = some bit ↔
      a[i]? = some bit.a ∧ b[i]? = some bit.b ∧ carry[i]? = some bit.carry := by
  rw [carryBits, List.getElem?_map, Option.map_eq_some_iff]
  constructor
  · rintro ⟨⟨p, q, t⟩, hzip, rfl⟩
    exact getElem?_zip_zip.1 hzip
  · exact fun h => ⟨(bit.a, bit.b, bit.carry), getElem?_zip_zip.2 h, rfl⟩

theorem map_carry_carryBits {a b carry : List QubitId} (ha : a.length = carry.length)
    (hb : b.length = carry.length) : (carryBits a b carry).map CarryBit.carry = carry := by
  rw [carryBits, List.map_map]
  exact map_zip_zip ha.ge hb.ge

def carryFlips (previous : Option QubitId) (bit : CarryBit) : List Flip :=
  .double bit.a bit.b bit.carry ::
    previous.toList.flatMap fun c => [.double bit.a c bit.carry, .double bit.b c bit.carry]

def rippleFlips : Option QubitId → List CarryBit → List Flip
  | _, [] => []
  | previous, bit :: rest => carryFlips previous bit ++ rippleFlips (some bit.carry) rest

theorem rippleCarries_eq (previous : Option QubitId) (bits : List CarryBit) :
    (rippleCarries previous bits : Synthesis ℝ Unit) = Build.flips (rippleFlips previous bits) := by
  induction bits generalizing previous with
  | nil => rfl
  | cons bit rest ih =>
    cases previous with
    | none =>
      have hflips : rippleFlips none (bit :: rest) =
          .double bit.a bit.b bit.carry :: rippleFlips (some bit.carry) rest := rfl
      rw [hflips, Build.flips_cons, ← ih]
      rfl
    | some c =>
      have hflips : rippleFlips (some c) (bit :: rest) = .double bit.a bit.b bit.carry ::
          .double bit.a c bit.carry :: .double bit.b c bit.carry ::
            rippleFlips (some bit.carry) rest := rfl
      rw [hflips, Build.flips_cons, Build.flips_cons, Build.flips_cons, ← ih]
      rfl

structure Chained (qs : List QubitId) (previous : Option QubitId) (bits : List CarryBit) : Prop where
  nodup : (previous.toList ++ bits.map CarryBit.carry).Nodup
  apart : ∀ q ∈ previous.toList ++ bits.map CarryBit.carry, q ∉ qs
  operands : ∀ bit ∈ bits, bit.a ∈ qs ∧ bit.b ∈ qs ∧ bit.a ≠ bit.b

namespace Chained

variable {qs : List QubitId} {previous : Option QubitId} {bit : CarryBit} {bits : List CarryBit}

theorem tail (h : Chained qs previous (bit :: bits)) : Chained qs (some bit.carry) bits :=
  ⟨(List.nodup_append.1 h.nodup).2.1, fun q hq => h.apart q (List.mem_append_right _ hq),
    fun bit' hbit' => h.operands bit' (List.mem_cons_of_mem _ hbit')⟩

theorem previous_ne (h : Chained qs previous (bit :: bits)) {c : QubitId} (hc : c ∈ previous) :
    c ≠ bit.carry :=
  (List.nodup_append.1 h.nodup).2.2 c (Option.mem_toList.2 hc) bit.carry List.mem_cons_self

theorem ne_carry (h : Chained qs previous (bit :: bits)) {q : QubitId} (hq : q ∈ qs) :
    q ≠ bit.carry := fun heq =>
  h.apart bit.carry (List.mem_append_right _ List.mem_cons_self) (heq ▸ hq)

theorem mem_carryFlips {f : Flip} (hf : f ∈ carryFlips previous bit) :
    f.target = bit.carry ∧ ∃ q ∈ [bit.a, bit.b], ∃ r, (q = bit.a ∧ r = bit.b ∨ r ∈ previous) ∧
      f = .double q r bit.carry := by
  rcases List.mem_cons.1 hf with rfl | hf
  · exact ⟨rfl, bit.a, by simp, bit.b, .inl ⟨rfl, rfl⟩, rfl⟩
  · obtain ⟨c, hc, hf⟩ := List.mem_flatMap.1 hf
    have hc' : c ∈ previous := Option.mem_toList.1 hc
    rcases List.mem_pair.1 hf with rfl | rfl
    · exact ⟨rfl, bit.a, by simp, c, .inr hc', rfl⟩
    · exact ⟨rfl, bit.b, by simp, c, .inr hc', rfl⟩

theorem sits (h : Chained qs previous bits) {ps : List QubitId} (hqs : ∀ q ∈ qs, q ∈ ps)
    (hcarries : ∀ q ∈ previous.toList ++ bits.map CarryBit.carry, q ∈ ps) :
    ∀ f ∈ rippleFlips previous bits,
      f.placement.Sits ps ∧ f.target ∈ bits.map CarryBit.carry := by
  induction bits generalizing previous with
  | nil => exact fun f hf => absurd hf List.not_mem_nil
  | cons bit rest ih =>
    intro f hf
    rcases List.mem_append.1 hf with hf | hf
    · obtain ⟨-, q, hq, r, hr, rfl⟩ := mem_carryFlips hf
      obtain ⟨ha, hb, hne⟩ := h.operands bit List.mem_cons_self
      have hmem : q ∈ qs := by
        rcases List.mem_pair.1 hq with rfl | rfl
        · exact ha
        · exact hb
      have hcarry : bit.carry ∈ ps := hcarries _ (List.mem_append_right _ List.mem_cons_self)
      have hsecond : q ≠ r ∧ r ≠ bit.carry ∧ r ∈ ps := by
        rcases hr with ⟨rfl, rfl⟩ | hr
        · exact ⟨hne, h.ne_carry hb, hqs _ hb⟩
        · have hold := List.mem_append_left (bit :: rest |>.map CarryBit.carry)
            (Option.mem_toList.2 hr)
          exact ⟨fun heq => h.apart r hold (heq ▸ hmem), h.previous_ne hr, hcarries r hold⟩
      refine ⟨Flip.sits ?_ fun p hp => ?_, List.mem_cons_self⟩
      · simp [Flip.qubits, Flip.controls, Flip.target, hsecond.1, hsecond.2.1, h.ne_carry hmem]
      · rcases List.mem_cons.1 hp with rfl | hp
        · exact hqs _ hmem
        · rcases List.mem_pair.1 hp with rfl | rfl
          · exact hsecond.2.2
          · exact hcarry
    · obtain ⟨hsits, htarget⟩ := ih h.tail (fun q hq => hcarries q (List.mem_append_right _ hq)) f hf
      exact ⟨hsits, List.mem_cons_of_mem _ htarget⟩

theorem testBit_carryFlips (h : Chained qs previous (bit :: bits)) (z : ℕ) :
    (flipAll (carryFlips previous bit) z).testBit bit.carry = (z.testBit bit.carry ^^
      (z.testBit bit.a && z.testBit bit.b ^^ z.testBit bit.a && parity previous.toList z ^^
        z.testBit bit.b && parity previous.toList z)) := by
  obtain ⟨ha, hb, -⟩ := h.operands bit List.mem_cons_self
  have hstep : ∀ (q r : QubitId) (z : ℕ), (flipUnder [q, r] bit.carry z).testBit bit.carry =
      (z.testBit bit.carry ^^ (z.testBit q && z.testBit r)) := fun q r z =>
    testBit_flipUnder_target (.double q r bit.carry) z
  have hkeep : ∀ {p : QubitId} (_ : p ≠ bit.carry) (cs : List QubitId) (z : ℕ),
      (flipUnder cs bit.carry z).testBit p = z.testBit p := fun hp cs z =>
    testBit_flipUnder_of_ne hp z
  cases previous with
  | none =>
    have hone : flipAll (carryFlips none bit) z = flipUnder [bit.a, bit.b] bit.carry z := rfl
    rw [hone, hstep]
    simp [parity]
  | some c =>
    have hc := h.previous_ne (Option.mem_some.2 rfl)
    have hall : flipAll (carryFlips (some c) bit) z = flipUnder [bit.b, c] bit.carry
        (flipUnder [bit.a, c] bit.carry (flipUnder [bit.a, bit.b] bit.carry z)) := rfl
    rw [hall, hstep, hstep, hstep, hkeep (h.ne_carry ha), hkeep (h.ne_carry hb),
      hkeep (h.ne_carry hb), hkeep hc, hkeep hc, hkeep hc]
    simp [parity]

theorem testBit_rippleFlips (h : Chained qs previous bits) {x y k z : ℕ}
    (hbits : ∀ i bit, bits[i]? = some bit → z.testBit bit.a = x.testBit (k + i) ∧
      z.testBit bit.b = y.testBit (k + i) ∧ z.testBit bit.carry = false)
    (hprevious : parity previous.toList z = generates x y 0 k) {i : ℕ} {bit : CarryBit}
    (hi : bits[i]? = some bit) :
    (flipAll (rippleFlips previous bits) z).testBit bit.carry = generates x y 0 (k + i + 1) := by
  -- over the chain; behind each bit its carry is the carry into the rest, one place further up
  induction bits generalizing previous k z i with
  | nil => exact nomatch hi
  | cons first rest ih =>
    obtain ⟨ha, hb, hzero⟩ := hbits 0 first rfl
    have hcarry : (flipAll (carryFlips previous first) z).testBit first.carry =
        generates x y 0 (k + 1) := by
      rw [h.testBit_carryFlips, ha, hb, hzero, hprevious, generates_succ, Bool.false_xor]
      rfl
    have hkeep : ∀ p, p ≠ first.carry →
        (flipAll (carryFlips previous first) z).testBit p = z.testBit p := fun p hp =>
      testBit_flipAll_of_not_target (fun f hf heq => hp (heq.symm.trans (mem_carryFlips hf).1)) z
    rw [rippleFlips, flipAll_append]
    cases i with
    | zero =>
      obtain rfl := Option.some.inj hi
      have hlater : ∀ f ∈ rippleFlips (some first.carry) rest, f.target ≠ first.carry := by
        intro f hf heq
        obtain ⟨-, htarget⟩ := h.tail.sits (fun q hq => List.mem_append_left _ hq)
          (fun q hq => List.mem_append_right qs hq) f hf
        exact (List.nodup_cons.1 h.tail.nodup).1 (heq ▸ htarget)
      exact (testBit_flipAll_of_not_target hlater _).trans hcarry
    | succ i =>
      have hnext : parity (some first.carry).toList (flipAll (carryFlips previous first) z) =
          generates x y 0 (k + 1) := by
        rw [← hcarry]
        exact Bool.xor_false _
      have hrest := ih h.tail (k := k + 1) (fun j bit' hj => ?_) hnext hi
      · rw [hrest]
        congr 1
        omega
      · have hmem : bit' ∈ first :: rest := List.mem_cons_of_mem _ (List.mem_of_getElem? hj)
        obtain ⟨ha', hb', -⟩ := h.operands bit' hmem
        have hne : bit'.carry ≠ first.carry := fun heq =>
          (List.nodup_cons.1 h.tail.nodup).1 (heq ▸ List.mem_map_of_mem (List.mem_of_getElem? hj))
        have hread := hbits (j + 1) bit' hj
        rw [hkeep _ (h.ne_carry ha'), hkeep _ (h.ne_carry hb'), hkeep _ hne]
        rwa [show k + 1 + j = k + (j + 1) by omega]

end Chained

theorem chained_carryBits {carry : List QubitId} (ha : a.length = carry.length)
    (hb : b.length = carry.length) (hdistinct : (a ++ b).Nodup) (hnodup : carry.Nodup)
    (hnew : ∀ q ∈ carry, q ∉ a ++ b) : Chained (a ++ b) none (carryBits a b carry) := by
  obtain ⟨-, -, hapart⟩ := List.nodup_append.1 hdistinct
  have hmap := map_carry_carryBits ha hb
  refine ⟨?_, ?_, fun bit hbit => ?_⟩
  · rw [hmap]
    exact hnodup
  · rw [hmap]
    exact hnew
  · obtain ⟨i, hi⟩ := List.mem_iff_getElem?.1 hbit
    obtain ⟨hai, hbi, -⟩ := getElem?_carryBits.1 hi
    have hmema := List.mem_of_getElem? hai
    have hmemb := List.mem_of_getElem? hbi
    exact ⟨List.mem_append_left _ hmema, List.mem_append_right _ hmemb, hapart _ hmema _ hmemb⟩

theorem sits_rippleFlips {carry : List QubitId} (ha : a.length = carry.length)
    (hb : b.length = carry.length) (hdistinct : (a ++ b).Nodup) (hnodup : carry.Nodup)
    (hnew : ∀ q ∈ carry, q ∉ a ++ b) : ∀ f ∈ rippleFlips none (carryBits a b carry),
      f.placement.Sits (a ++ b ++ carry) ∧ f.target ∈ carry := by
  have hmap := map_carry_carryBits ha hb
  have hall : ∀ f ∈ rippleFlips none (carryBits a b carry), f.placement.Sits (a ++ b ++ carry) ∧
      f.target ∈ (carryBits a b carry).map CarryBit.carry :=
    (chained_carryBits ha hb hdistinct hnodup hnew).sits (fun q hq => List.mem_append_left _ hq)
      fun q hq => List.mem_append_right _ (hmap ▸ hq)
  rwa [hmap] at hall

theorem exec_rippleCarries {t : Session ℝ} {id : FrameId} (hsame : b.length = a.length)
    (hdistinct : (a ++ b).Nodup) (hlive : ∀ q ∈ a ++ b, s.allocator.isLive q = true)
    (ht : s.Computing (a ++ b) id [] [] t) :
    ∃ carry t' fs, exec (do
        let carry ← Build.allocate a.length "carry"
        rippleCarries none (carryBits a b carry)
        return carry : Synthesis ℝ (List QubitId)) t = (.ok carry, t') ∧
      s.Computing (a ++ b) id carry fs t' ∧ carry.length = a.length ∧
      ∀ y, (∀ q ∈ carry, y.testBit q = false) →
        (∀ i (h : i < carry.length), (flipAll fs y).testBit carry[i] =
          generates (reading a y) (reading b y) 0 (i + 1)) ∧
        ∀ i (h : i < ((a.zip b).map fun (x, y) => [x, y]).length),
          parity ((a.zip b).map fun (x, y) => [x, y])[i] (flipAll fs y) =
            ((reading a y).testBit i ^^ (reading b y).testBit i) := by
  obtain ⟨carry, t', hexec, hlength, hnodup, hnew, ht'⟩ := ht.extend (ε := SynthesisError) hlive
    a.length "carry" (fun carry => rippleFlips none (carryBits a b carry)) (fun carry => carry)
    fun carry hlength hnodup hnew f hf =>
      (sits_rippleFlips hlength.symm (hsame.trans hlength.symm) hdistinct hnodup
        (fun q hq hmem => hnew q hq (List.mem_append_left _ hmem)) f hf).1
  have ha : a.length = carry.length := hlength.symm
  have hb : b.length = carry.length := hsame.trans ha
  have hnew' : ∀ q ∈ carry, q ∉ a ++ b := fun q hq hmem =>
    hnew q hq (List.mem_append_left _ hmem)
  -- what the flips find depends on which qubits they got only through their being new
  have hchained := chained_carryBits ha hb hdistinct hnodup hnew'
  refine ⟨carry, t', rippleFlips none (carryBits a b carry), ?_, ht', hlength, fun y hzero =>
    ⟨fun i hi => ?_, fun i hi => ?_⟩⟩
  · simpa only [rippleCarries_eq] using hexec
  · have hbits : ∀ j bit, (carryBits a b carry)[j]? = some bit →
        y.testBit bit.a = (reading a y).testBit (0 + j) ∧
          y.testBit bit.b = (reading b y).testBit (0 + j) ∧ y.testBit bit.carry = false := by
      intro j bit hj
      obtain ⟨haj, hbj, hcj⟩ := getElem?_carryBits.1 hj
      rw [Nat.zero_add]
      exact ⟨(testBit_reading_of_getElem? haj y).symm, (testBit_reading_of_getElem? hbj y).symm,
        hzero _ (List.mem_of_getElem? hcj)⟩
    have hbit : (carryBits a b carry)[i]? = some ⟨a[i], b[i], carry[i]⟩ :=
      getElem?_carryBits.2 ⟨List.getElem?_eq_getElem _, List.getElem?_eq_getElem _,
        List.getElem?_eq_getElem _⟩
    have hfound := hchained.testBit_rippleFlips hbits (generates_zero _ _ _).symm hbit
    rwa [Nat.zero_add] at hfound
  · have hlt : i < (a.zip b).length := by rwa [List.length_map] at hi
    rw [List.length_zip] at hlt
    have hkeep : ∀ q ∈ a ++ b,
        (flipAll (rippleFlips none (carryBits a b carry)) y).testBit q = y.testBit q :=
      fun q hq => testBit_flipAll_of_not_target (fun f hf heq => hnew' _
        (sits_rippleFlips ha hb hdistinct hnodup hnew' f hf).2 (heq ▸ hq)) y
    rw [List.getElem_map, List.getElem_zip, testBit_reading, testBit_reading]
    simp only [parity, Bool.xor_false]
    rw [hkeep _ (List.mem_append_left _ (List.getElem_mem _)),
      hkeep _ (List.mem_append_right _ (List.getElem_mem _))]

theorem exec_rippleAdd {a b : Variable} (hs : s.Idle) (hwidth : Synthesis.Supported a.width)
    (hsame : a.width = b.width) (hdistinct : (a.qubits ++ b.qubits).Nodup)
    (hlive : ∀ q ∈ a.qubits ++ b.qubits, s.allocator.isLive q = true) :
    ∃ sum s' carry l, (rippleAdd a b).exec s = (.ok sum, s') ∧ carry.length = a.width ∧
      Summed s s' a.qubits b.qubits carry sum.qubits l := by
  have hlength : b.qubits.length = a.qubits.length := hsame.symm
  obtain ⟨-, h₀⟩ := hs.enter_conjugation (a.qubits ++ b.qubits) "ripple_add"
  obtain ⟨carry, t₁, fs, hcompute, h₁, hcarries, hfound⟩ :=
    exec_rippleCarries hlength hdistinct hlive h₀
  have haddends : ((a.qubits.zip b.qubits).map fun (x, y) => [x, y]).length = a.qubits.length := by
    rw [List.length_map, List.length_zip, hlength, min_self]
  have hamong : ∀ qs ∈ (a.qubits.zip b.qubits).map fun (x, y) => [x, y], ∀ q ∈ qs,
      q ∈ a.qubits ++ b.qubits := by
    intro qs hqs q hq
    obtain ⟨pair, hpair, rfl⟩ := List.mem_map.1 hqs
    obtain ⟨hp, hr⟩ := List.of_mem_zip hpair
    rcases List.mem_pair.1 hq with rfl | rfl
    · exact List.mem_append_left _ hp
    · exact List.mem_append_right _ hr
  obtain ⟨sum, s', hexec, hsummed⟩ := exec_conjugate_sum hs hlive
    (hwidth.2.trans_lt (by decide)) hlength haddends hamong hcompute h₁ hcarries (fun q hq => hq)
    hfound
  refine ⟨⟨"sum", sum, .integer false⟩, s', carry, _, ?_, hcarries, hsummed⟩
  have hwidth' : Synthesis.checkWidth "ripple_add" a.width = .ok () :=
    (Synthesis.checks_width _ _).1 hwidth
  have hsame' : Synthesis.checkSameWidth "ripple_add" a.width b.width = .ok () :=
    (Synthesis.checks_sameWidth _ _ _).1 hsame
  unfold rippleAdd
  simp only [hwidth', hsame']
  exact hexec

theorem rippleAdd_sums_of_idle {a b : Variable} (hs : s.Idle) (hwidth : Synthesis.Supported a.width)
    (hsame : a.width = b.width) (hdistinct : (a.qubits ++ b.qubits).Nodup)
    (hlive : ∀ q ∈ a.qubits ++ b.qubits, s.allocator.isLive q = true) :
    Sums (rippleAdd a b) s a.qubits b.qubits := by
  obtain ⟨sum, s', carry, l, hexec, -, hsummed⟩ :=
    exec_rippleAdd hs hwidth hsame hdistinct hlive
  exact Sums.of_summed hexec hsummed

/-- Two registers of any supported width are summed through a chain of carries. The call succeeds; the
qubits of the sum, one more than each operand has, are all that is in use besides what was in use
before, and the carries, one for each bit, read 0 again and are back with the allocator. -/
theorem rippleAdd_returns_carries {a b : Variable} (hs : s.Reachable) (hp : s.isPoisoned = false)
    (hopen : s.numOpen = 0) (hunlimited : s.allocator.capacity = none)
    (hwidth : Synthesis.checkWidth "ripple_add" a.width = .ok ()) (hsame : a.width = b.width)
    (hdistinct : (a.qubits ++ b.qubits).Nodup)
    (hlive : ∀ q ∈ a.qubits ++ b.qubits, s.allocator.isLive q = true) :
    ∃ sum s' carry l, (rippleAdd a b).exec s = (.ok sum, s') ∧ carry.length = a.width ∧
      Summed s s' a.qubits b.qubits carry sum.qubits l :=
  exec_rippleAdd (hs.idle hp hopen hunlimited) ((Synthesis.checks_width _ _).of_ok hwidth) hsame
    hdistinct hlive

theorem rippleAdd_returns_carries_three_bits :
    ∃ (s : Session ℝ) (sum : Variable) (s' : Session ℝ) (carry : List QubitId)
      (l : List (Instruction ℝ)),
      s = (Session.new {}).after [.allocate 3 "spare", .allocate 6 "ab", .release [0, 1, 2]] ∧
      (rippleAdd ⟨"a", [3, 5, 7], .integer false⟩ ⟨"b", [4, 6, 8], .integer false⟩).exec s =
        (.ok sum, s') ∧ carry.length = 3 ∧ Summed s s' [3, 5, 7] [4, 6, 8] carry sum.qubits l := by
  obtain ⟨sum, s', carry, l, hexec, hcarries, hsummed⟩ := rippleAdd_returns_carries
    (s := (Session.new {}).after [.allocate 3 "spare", .allocate 6 "ab", .release [0, 1, 2]])
    (a := ⟨"a", [3, 5, 7], .integer false⟩) (b := ⟨"b", [4, 6, 8], .integer false⟩)
    ((Session.Reachable.new {}).after _) (by decide +kernel) (by decide +kernel) (by decide +kernel)
    rfl rfl (by decide) (by decide +kernel)
  exact ⟨_, sum, s', carry, l, rfl, hexec, hcarries, hsummed⟩

end Ancilla.Adder
