import Ancilla.Arithmetic.MeasuredAdder
import Ancilla.Proofs.Session.Feedback

/-!
Temporary conjunctions. Four eighth-turn phases between two changes of basis make the conjunction of
two qubits, exactly and without a factor. Its erasure by measurement leaves the same factor for both
outcomes: the sign that the measurement brings in for the outcome 1 is taken back by the controlled
phase.
-/

namespace Ancilla.MeasuredAdder

open Build Operator Exact

/-! ## Phases -/

theorem polar_quarter : (Amplitude.polar 1 (Scalar.quarterTurn : ℝ) : ℂ) = Complex.I := by
  have hcast : ((Scalar.quarterTurn : ℝ) : ℂ) = Real.pi / 2 := by
    rw [Scalar.quarterTurn, scalar_two, Complex.ofReal_div, Complex.ofReal_ofNat]
    rfl
  rw [polar_eq, Complex.ofReal_one, one_mul, hcast, Complex.exp_pi_div_two_mul_I]

theorem polar_half : (Amplitude.polar 1 (Scalar.pi : ℝ) : ℂ) = -1 := by
  rw [polar_eq, Complex.ofReal_one, one_mul]
  exact Complex.exp_pi_mul_I

theorem eighth_mul_eighth :
    (Amplitude.polar 1 (Scalar.eighthTurn : ℝ) : ℂ) * Amplitude.polar 1 (Scalar.eighthTurn : ℝ) =
      Complex.I := by
  have hfour : (Scalar.ofInt 4 : ℝ) = 4 := Int.cast_ofNat 4
  rw [polar_mul_polar, one_mul, ← polar_quarter]
  congr 1
  rw [Scalar.eighthTurn, Scalar.quarterTurn, scalar_two, hfour]
  ring

theorem eighth_mul_back :
    (Amplitude.polar 1 (Scalar.eighthTurn : ℝ) : ℂ) * Amplitude.polar 1 (Scalar.eighthTurnBack : ℝ) =
      1 := polar_mul_opposite (add_neg_cancel _)

theorem back_mul_eighth :
    (Amplitude.polar 1 (Scalar.eighthTurnBack : ℝ) : ℂ) * Amplitude.polar 1 (Scalar.eighthTurn : ℝ) =
      1 := polar_mul_opposite (neg_add_cancel _)

theorem back_mul_back :
    (Amplitude.polar 1 (Scalar.eighthTurnBack : ℝ) : ℂ) *
      Amplitude.polar 1 (Scalar.eighthTurnBack : ℝ) = -Complex.I := by
  have hinverse := eq_inv_of_mul_eq_one_left back_mul_eighth
  rw [hinverse, ← mul_inv, eighth_mul_eighth, Complex.inv_I]

/-! ## The change of basis -/

theorem setBit_setBit (y q : ℕ) (b c : Bool) : setBit (setBit y q b) q c = setBit y q c := by
  refine Nat.eq_of_testBit_eq fun p => ?_
  rw [testBit_setBit, testBit_setBit, testBit_setBit]
  split <;> rfl

theorem hadamard_pair (y q : ℕ) (u w : ℂ) :
    onQubit hadamard q (u • ket (setBit y q false) + w • ket (setBit y q true)) =
      ((u + w) * (Scalar.invSqrtTwo : ℝ) : ℂ) • (ket (setBit y q false) : ℕ → ℂ) +
        ((u - w) * (Scalar.invSqrtTwo : ℝ) : ℂ) • ket (setBit y q true) := by
  rw [map_add, map_smul, map_smul, onQubit_ket, onQubit_ket]
  simp only [testBit_setBit_self, setBit_setBit, hadamard, if_true, Bool.false_eq_true, if_false]
  module

theorem hadamard_ket {y q : ℕ} (h : y.testBit q = false) :
    onQubit hadamard q (ket y) =
      ((Scalar.invSqrtTwo : ℝ) : ℂ) • (ket (setBit y q false) : ℕ → ℂ) +
        ((Scalar.invSqrtTwo : ℝ) : ℂ) • ket (setBit y q true) := by
  have hsame : setBit y q false = y := if_pos h
  have hpair := hadamard_pair y q 1 0
  rw [zero_smul, add_zero, one_smul, add_zero, sub_zero, one_mul, hsame] at hpair
  rw [hpair, hsame]

/-! ## Computing a conjunction -/

variable {a b t : QubitId}

noncomputable def spread (a b t : QubitId) : Operator ℂ :=
  let flip (c q : QubitId) : Operator ℂ := controlled [c] (onQubit Kernel.flip q)
  let turn (q : QubitId) : Operator ℂ := onQubit (Kernel.phase (Scalar.eighthTurn : ℝ)) q
  let back (q : QubitId) : Operator ℂ := onQubit (Kernel.phase (Scalar.eighthTurnBack : ℝ)) q
  flip t b * flip t a * turn t * back b * back a * flip t b * flip t a * flip b t * flip a t * turn t

theorem spread_ket (h : [a, b, t].Nodup) (y : ℕ) : spread a b t (ket y) =
    (if y.testBit a && y.testBit b then if y.testBit t then Complex.I else -Complex.I else 1) •
      ket (setBit y t (y.testBit t ^^ y.testBit a ^^ y.testBit b)) := by
  obtain ⟨⟨hab, hat⟩, hbt⟩ : (a ≠ b ∧ a ≠ t) ∧ b ≠ t := by simpa using h
  simp only [spread, Module.End.mul_apply, phase_ket, controlled_flip_ket, map_smul, smul_smul]
  congr 1
  · simp only [testBit_flipUnder, AllRead, List.mem_singleton, forall_eq, hab, hat, hbt, hab.symm,
      hat.symm, hbt.symm, if_true, if_false]
    cases y.testBit a <;> cases y.testBit b <;> cases y.testBit t <;>
      simp [eighth_mul_eighth, eighth_mul_back, back_mul_eighth, back_mul_back]
  · refine congrArg ket (Nat.eq_of_testBit_eq fun p => ?_)
    simp only [testBit_flipUnder, testBit_setBit, AllRead, List.mem_singleton, forall_eq]
    grind

theorem computeAnd_realizes {qs : List QubitId} (h : [a, b, t].Nodup) (ha : a ∈ qs) (hb : b ∈ qs)
    (ht : t ∈ qs) : Realizes (computeAnd a b t : Synthesis ℝ Unit) qs
      (onQubit (Kernel.phase (Scalar.quarterTurn : ℝ)) t * onQubit hadamard t * spread a b t *
        onQubit hadamard t) := by
  obtain ⟨⟨hab, hat⟩, hbt⟩ : (a ≠ b ∧ a ≠ t) ∧ b ≠ t := by simpa using h
  have hgates := (realizes_h (ε := SynthesisError) ht).bind ((realizes_t ht).bind
    ((realizes_cx hat ha ht).bind ((realizes_cx hbt hb ht).bind
    ((realizes_cx hat.symm ht ha).bind ((realizes_cx hbt.symm ht hb).bind
    ((realizes_tdg ha).bind ((realizes_tdg hb).bind ((realizes_t ht).bind
    ((realizes_cx hat.symm ht ha).bind ((realizes_cx hbt.symm ht hb).bind
    ((realizes_h ht).bind (realizes_s ht))))))))))))
  simp only [mul_assoc, spread] at hgates ⊢
  exact hgates

theorem computeAnd_ket (h : [a, b, t].Nodup) {y : ℕ} (hy : y.testBit t = false) :
    (onQubit (Kernel.phase (Scalar.quarterTurn : ℝ)) t * onQubit hadamard t * spread a b t *
        onQubit hadamard t : Operator ℂ) (ket y) =
      ket (setBit y t (y.testBit a && y.testBit b)) := by
  obtain ⟨⟨hab, hat⟩, hbt⟩ : (a ≠ b ∧ a ≠ t) ∧ b ≠ t := by simpa using h
  obtain ⟨r, hr⟩ : ∃ r : ℂ, ((Scalar.invSqrtTwo : ℝ) : ℂ) = r := ⟨_, rfl⟩
  have hhalf : r * r = 1 / 2 := by
    rw [← hr, invSqrtTwo_mul_self]
  have hphase : ∀ x : Bool, spread a b t (ket (setBit y t x)) =
      (if y.testBit a && y.testBit b then if x then Complex.I else -Complex.I else 1) •
        (ket (setBit y t (x ^^ y.testBit a ^^ y.testBit b)) : ℕ → ℂ) := by
    intro x
    rw [spread_ket h, testBit_setBit_of_ne y hat, testBit_setBit_of_ne y hbt, testBit_setBit_self,
      setBit_setBit]
  -- where just one of the two qubits reads 1, the readings of the target change places
  have hmiddle : spread a b t (r • ket (setBit y t false) + r • ket (setBit y t true)) =
      (if y.testBit a && y.testBit b then r * -Complex.I else r) •
          (ket (setBit y t false) : ℕ → ℂ) +
        (if y.testBit a && y.testBit b then r * Complex.I else r) • ket (setBit y t true) := by
    rw [map_add, map_smul, map_smul, hphase, hphase, smul_smul, smul_smul]
    cases y.testBit a <;> cases y.testBit b <;> simp [add_comm]
  rw [Module.End.mul_apply, Module.End.mul_apply, Module.End.mul_apply, hadamard_ket hy, hr, hmiddle,
    hadamard_pair, hr, map_add, map_smul, map_smul, phase_ket, phase_ket, testBit_setBit_self,
    testBit_setBit_self, polar_quarter]
  cases y.testBit a && y.testBit b with
  | false =>
    have hone : (r + r) * r = 1 := by linear_combination 2 * hhalf
    simp [hone]
  | true =>
    have hone : (r * -Complex.I - r * Complex.I) * r * Complex.I = 1 := by
      linear_combination 2 * hhalf - 2 * r * r * Complex.I_sq
    simp only [if_true, smul_smul, hone]
    simp

theorem computeAnd_performs {qs : List QubitId} (h : [a, b, t].Nodup) (ha : a ∈ qs) (hb : b ∈ qs)
    (ht : t ∈ qs) : Performs (computeAnd a b t : Synthesis ℝ Unit) qs (fun y => y.testBit t = false)
      fun y => setBit y t (y.testBit a && y.testBit b) :=
  (computeAnd_realizes h ha hb ht).performs fun _ hy => computeAnd_ket h hy

/-! ## Erasing a conjunction -/

theorem toggle_setBit (y q : ℕ) (b : Bool) : toggle (setBit y q b) q = setBit y q !b := by
  refine Nat.eq_of_testBit_eq fun p => ?_
  by_cases hp : p = q
  · subst hp
    rw [testBit_toggle_self, testBit_setBit_self, testBit_setBit_self]
  · rw [testBit_toggle_of_ne _ hp, testBit_setBit_of_ne _ hp, testBit_setBit_of_ne _ hp]

theorem erased_ket (hat : a ≠ t) (hbt : b ≠ t) {y : ℕ}
    (hy : y.testBit t = (y.testBit a && y.testBit b)) (outcome : Bool) :
    (if outcome then onQubit Kernel.flip t * controlled [a] (onQubit (Kernel.phase Scalar.pi) b)
      else 1 : Operator ℂ) (reads t outcome (onQubit hadamard t (ket y))) =
      ((Scalar.invSqrtTwo : ℝ) : ℂ) • (ket (setBit y t false) : ℕ → ℂ) := by
  rw [onQubit_ket, map_add, map_smul, map_smul, reads_ket, reads_ket, testBit_setBit_self,
    testBit_setBit_self]
  cases outcome with
  | false => simp [hadamard]
  | true =>
    have hsign : controlled [a] (onQubit (Kernel.phase Scalar.pi) b) (ket (setBit y t true)) =
        (if y.testBit a && y.testBit b then -1 else 1 : ℂ) • (ket (setBit y t true) : ℕ → ℂ) := by
      rw [controlled_ket, phase_ket, polar_half, testBit_setBit_of_ne y hbt]
      simp only [AllRead, List.mem_singleton, forall_eq, testBit_setBit_of_ne y hat]
      cases y.testBit a <;> cases y.testBit b <;> simp
    have hflip : onQubit Kernel.flip t (ket (setBit y t true)) =
        (ket (setBit y t false) : ℕ → ℂ) := by
      rw [flip_ket, toggle_setBit]
      rfl
    rw [if_pos rfl, if_neg Bool.false_ne_true, if_pos rfl, smul_zero, zero_add, map_smul,
      Module.End.mul_apply, hsign, map_smul, hflip, smul_smul, hy, hadamard]
    cases y.testBit a && y.testBit b <;> simp

theorem eraseAnd_performs {qs : List QubitId} (h : [a, b, t].Nodup) (ha : a ∈ qs) (hb : b ∈ qs)
    (ht : t ∈ qs) : Performs (eraseAnd a b t : Synthesis ℝ Unit) qs
      (fun y => y.testBit t = (y.testBit a && y.testBit b)) fun y => setBit y t false := by
  obtain ⟨⟨hab, hat⟩, hbt⟩ : (a ≠ b ∧ a ≠ t) ∧ b ≠ t := by simpa using h
  have hfactor : ((Scalar.invSqrtTwo : ℝ) : ℂ) ≠ 0 := by
    intro hzero
    have hhalf := invSqrtTwo_mul_self
    rw [hzero, zero_mul] at hhalf
    norm_num at hhalf
  exact performs_feedback (realizes_h ht) ((realizes_cz hab ha hb).bind (realizes_x ht)) ht hfactor
    fun outcome y hy => erased_ket hat hbt hy outcome

end Ancilla.MeasuredAdder
