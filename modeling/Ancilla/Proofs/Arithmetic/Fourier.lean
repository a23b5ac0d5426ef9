import Mathlib
import Ancilla.Arithmetic.Fourier
import Ancilla.Proofs.Session.Realizing

/-!
The Fourier basis. The transform of a register that holds `b` is the product state in which the
qubit at position `t` carries the phase of `b / 2 ^ (t + 1)` turns on its 1 component, and the phases
of a constant take it to the transform of the register that holds the sum.
-/

namespace Ancilla.Fourier

open Build Operator

/-! ## Turns -/

noncomputable def turn (t : ℝ) : ℂ := Complex.exp ((Real.pi * (t + t) : ℝ) * Complex.I)

theorem turn_add (s t : ℝ) : turn (s + t) = turn s * turn t := by
  rw [turn, turn, turn, ← Complex.exp_add]
  congr 1
  push_cast
  ring

theorem turn_intCast (n : ℤ) : turn n = 1 := by
  rw [turn, ← Complex.exp_int_mul_two_pi_mul_I n]
  congr 1
  push_cast
  ring

theorem turn_zero : turn 0 = 1 := by simpa using turn_intCast 0

theorem turn_eq_of_sub {s t : ℝ} {n : ℤ} (h : s - t = n) : turn s = turn t := by
  rw [← sub_add_cancel s t, turn_add, h, turn_intCast, one_mul]

theorem phase_eq {θ t : ℝ} (h : θ = 2 * Real.pi * t) :
    (Kernel.phase θ : Matrix2 ℂ) = ⟨1, 0, 0, turn t⟩ := by
  rw [Kernel.phase, Exact.polar_eq, h, turn, ← two_mul, mul_left_comm, mul_assoc]
  simp

/-! ## Phases of a register -/

/-- The turns that the qubits of a register from position `t` on carry for each unit it holds. -/
noncomputable def fraction : ℕ → List ℕ → ℕ → ℝ
  | _, [], _ => 0
  | t, q :: qs, x => (x.testBit q).toNat / (bitWeight (t + 1) : ℕ) + fraction (t + 1) qs x

theorem cast_bitWeight (n : ℕ) : ((bitWeight n : ℕ) : ℝ) = 2 ^ n := by
  rw [bitWeight, Nat.pow_eq, Nat.cast_pow, Nat.cast_ofNat]

theorem fraction_cons (t q : ℕ) (qs : List ℕ) (x : ℕ) :
    fraction t (q :: qs) x = (x.testBit q).toNat / 2 ^ (t + 1) + fraction (t + 1) qs x := by
  rw [fraction, cast_bitWeight]

theorem fraction_append (t : ℕ) (ps qs : List ℕ) (x : ℕ) :
    fraction t (ps ++ qs) x = fraction t ps x + fraction (t + ps.length) qs x := by
  induction ps generalizing t with
  | nil => rw [List.nil_append, fraction, zero_add, List.length_nil, Nat.add_zero]
  | cons p ps ih =>
    have hexp : t + 1 + ps.length = t + (p :: ps).length := by
      rw [List.length_cons]
      omega
    rw [List.cons_append, fraction_cons, fraction_cons, ih, hexp, add_assoc]

theorem exists_fraction_eq (t : ℕ) (qs : List ℕ) (x : ℕ) :
    ∃ n : ℤ, 2 ^ (t + qs.length) * fraction t qs x = n := by
  induction qs generalizing t with
  | nil => exact ⟨0, by simp [fraction]⟩
  | cons q qs ih =>
    obtain ⟨n, hn⟩ := ih (t + 1)
    refine ⟨2 ^ qs.length * (x.testBit q).toNat + n, ?_⟩
    have hexp : t + (q :: qs).length = t + 1 + qs.length := by
      rw [List.length_cons]
      omega
    rw [fraction_cons, hexp, mul_add, hn]
    push_cast
    rw [pow_add]
    field_simp

theorem turnFraction_eq (r : ℤ) (n : ℕ) :
    (turnFraction r (bitWeight n) : ℝ) = 2 * Real.pi * (r / 2 ^ n) := by
  have htwo : (Scalar.two : ℝ) = 2 := Exact.scalar_two
  have hpi : (Scalar.pi : ℝ) = Real.pi := rfl
  have hr : (Scalar.ofInt r : ℝ) = r := rfl
  have hn : (Scalar.ofInt (bitWeight n) : ℝ) = 2 ^ n := by
    show (((bitWeight n : ℕ) : ℤ) : ℝ) = 2 ^ n
    rw [Int.cast_natCast, cast_bitWeight]
  rw [turnFraction, htwo, hpi, hr, hn, mul_div_assoc]

theorem onQubit_turnFraction (c : ℤ) (n q : ℕ) :
    (onQubit (Kernel.phase (turnFraction (c % bitWeight n) (bitWeight n) : ℝ)) q : Operator ℂ) =
      diagonal fun x => turn (c * ((x.testBit q).toNat / 2 ^ n)) := by
  have hturn : turn ((c % bitWeight n : ℤ) / 2 ^ n) = turn (c / 2 ^ n) := by
    refine (turn_eq_of_sub (n := c / bitWeight n) ?_).symm
    have hsplit : (c : ℝ) = (c % bitWeight n : ℤ) + (2 : ℝ) ^ n * (c / bitWeight n : ℤ) := by
      rw [← cast_bitWeight]
      exact_mod_cast (Int.emod_add_mul_ediv c (bitWeight n)).symm
    rw [← sub_div, sub_eq_of_eq_add' hsplit, mul_div_cancel_left₀ _ (by positivity)]
  rw [phase_eq (turnFraction_eq _ n), hturn, onQubit_diagonal]
  congr 1
  funext x
  cases x.testBit q with
  | true => simp [div_eq_mul_inv]
  | false => simp [turn_zero]

theorem addPhases_realizes (c : ℤ) (t : ℕ) {ps qs : List QubitId} (h : ∀ q ∈ ps, q ∈ qs) :
    Realizes (addPhases c t ps : Synthesis ℝ Unit) qs
      (diagonal fun x => turn (c * fraction t ps x)) := by
  induction ps generalizing t with
  | nil =>
    have hone : (diagonal fun x => turn (c * fraction t [] x)) = (1 : Operator ℂ) := by
      simp only [fraction, mul_zero, turn_zero]
      exact diagonal_one
    rw [hone]
    exact realizes_pure qs
  | cons p ps ih =>
    have hrest := ih (t + 1) fun q hq => h q (List.mem_cons_of_mem _ hq)
    have hsplit : (diagonal fun x => turn (c * fraction t (p :: ps) x)) =
        (diagonal fun x => turn (c * fraction (t + 1) ps x)) *
          diagonal fun x => turn (c * ((x.testBit p).toNat / 2 ^ (t + 1))) := by
      rw [diagonal_mul_diagonal]
      congr 1
      funext x
      rw [← turn_add, fraction_cons, mul_add, add_comm]
    rw [hsplit, ← onQubit_turnFraction]
    unfold addPhases
    simp only []
    split
    · exact (realizes_p _ (h p List.mem_cons_self)).bind hrest
    · next hr =>
      -- a constant of whole turns leaves the qubit as it is
      have hphase : (onQubit (Kernel.phase (turnFraction (c % bitWeight (t + 1))
          (bitWeight (t + 1)) : ℝ)) p : Operator ℂ) = 1 := by
        rw [not_not.1 hr, phase_eq (turnFraction_eq 0 (t + 1)), Int.cast_zero, zero_div, turn_zero]
        exact onQubit_one p
      rw [hphase, mul_one]
      exact hrest

theorem dyadicAngle_eq (k : ℕ) : (dyadicAngle k : ℝ) = 2 * Real.pi * (1 / 2 ^ (k + 1)) := by
  have hpi : (Scalar.pi : ℝ) = Real.pi := rfl
  have hk : (Scalar.ofInt (bitWeight k) : ℝ) = 2 ^ k := by
    show (((bitWeight k : ℕ) : ℤ) : ℝ) = 2 ^ k
    rw [Int.cast_natCast, cast_bitWeight]
  rw [dyadicAngle, hpi, hk, pow_succ]
  field_simp

noncomputable def cascadeFactor (target k : ℕ) (controls : List ℕ) (x : ℕ) : ℂ :=
  if x.testBit target then turn (reading controls.reverse x / (bitWeight (k + controls.length) : ℕ))
  else 1

theorem cascadeFactor_cons (target k c : ℕ) (controls : List ℕ) (x : ℕ) :
    cascadeFactor target k (c :: controls) x = cascadeFactor target (k + 1) controls x *
      if AllRead [c] x then (if x.testBit target then turn (1 / 2 ^ (k + 1)) else 1) else 1 := by
  have hexp : k + (c :: controls).length = k + 1 + controls.length := by
    rw [List.length_cons]
    omega
  unfold cascadeFactor
  rw [List.reverse_cons, reading_append, hexp, List.length_reverse, cast_bitWeight]
  cases x.testBit target with
  | false => simp
  | true =>
    simp only [AllRead, List.mem_singleton, forall_eq, reading, if_true]
    cases x.testBit c with
    | false => simp
    | true =>
      rw [if_pos rfl, ← turn_add]
      congr 1
      push_cast
      rw [pow_add]
      field_simp
      simp

theorem cascade_realizes {target : QubitId} (k : ℕ) {controls qs : List QubitId}
    (htarget : target ∈ qs) (hcontrols : ∀ q ∈ controls, q ∈ qs ∧ q ≠ target) :
    Realizes (cascade target k controls : Synthesis ℝ Unit) qs
      (diagonal (cascadeFactor target k controls)) := by
  induction controls generalizing k with
  | nil =>
    have hone : cascadeFactor target k [] = fun _ => 1 := by
      funext x
      simp [cascadeFactor, reading, turn_zero]
    rw [hone, diagonal_one]
    exact realizes_pure qs
  | cons c controls ih =>
    obtain ⟨hc, hne⟩ := hcontrols c List.mem_cons_self
    have hrest := ih (k + 1) fun q hq => hcontrols q (List.mem_cons_of_mem _ hq)
    have hboth := (realizes_cp (ε := SynthesisError) (dyadicAngle k) hne hc htarget).bind hrest
    rw [phase_eq (dyadicAngle_eq k), onQubit_diagonal, controlled_diagonal,
      diagonal_mul_diagonal] at hboth
    simp only [← cascadeFactor_cons] at hboth
    exact hboth

/-! ## The transform -/

noncomputable def descent : List ℕ → Operator ℂ
  | [] => 1
  | q :: lower => descent lower * (diagonal (cascadeFactor q 1 lower) * onQubit hadamard q)

theorem transformDown_realizes {ps qs : List QubitId} (hps : ps.Nodup) (h : ∀ q ∈ ps, q ∈ qs) :
    Realizes (transformDown ps : Synthesis ℝ Unit) qs (descent ps) := by
  induction ps with
  | nil => exact realizes_pure qs
  | cons p ps ih =>
    obtain ⟨hp, hnodup⟩ := List.nodup_cons.1 hps
    have hrest := ih hnodup fun q hq => h q (List.mem_cons_of_mem _ hq)
    have hcascade : Realizes (cascade p 1 ps : Synthesis ℝ Unit) qs
        (diagonal (cascadeFactor p 1 ps)) := by
      refine cascade_realizes 1 (h p List.mem_cons_self) fun q hq => ?_
      exact ⟨h q (List.mem_cons_of_mem _ hq), fun heq => hp (heq ▸ hq)⟩
    rw [descent, ← mul_assoc]
    exact (realizes_h (h p List.mem_cons_self)).bind (hcascade.bind hrest)

theorem turn_half : turn (1 / 2) = -1 := by
  rw [turn, ← Complex.exp_pi_mul_I]
  congr 1
  push_cast
  ring

theorem stage_ket {q : ℕ} {lower : List ℕ} (hq : q ∉ lower) (y : ℕ) :
    (diagonal (cascadeFactor q 1 lower) * onQubit hadamard q) (ket y) =
      ((Scalar.invSqrtTwo : ℝ) : ℂ) • ket (setBit y q false) +
        (((Scalar.invSqrtTwo : ℝ) : ℂ) *
          turn (reading (q :: lower).reverse y / 2 ^ (lower.length + 1))) • ket (setBit y q true) := by
  have hfalse : cascadeFactor q 1 lower (setBit y q false) = 1 := by
    simp [cascadeFactor, testBit_setBit_self]
  have htrue : cascadeFactor q 1 lower (setBit y q true) =
      turn (reading lower.reverse y / 2 ^ (lower.length + 1)) := by
    have hlow := reading_setBit (fun hmem => hq (List.mem_reverse.1 hmem)) y true
    rw [cascadeFactor, testBit_setBit_self, if_pos rfl, hlow, Nat.add_comm 1, cast_bitWeight]
  have hsum : turn (reading (q :: lower).reverse y / 2 ^ (lower.length + 1)) =
      (if y.testBit q then -1 else 1) * turn (reading lower.reverse y / 2 ^ (lower.length + 1)) := by
    rw [List.reverse_cons, reading_append, List.length_reverse, reading, reading]
    cases y.testBit q with
    | false => simp
    | true =>
      rw [if_pos rfl, ← turn_half, ← turn_add]
      congr 1
      push_cast
      rw [pow_succ]
      field_simp
      simp
      ring
  rw [Module.End.mul_apply, onQubit_ket, map_add, map_smul, map_smul, diagonal_ket, diagonal_ket,
    hfalse, htrue, hsum]
  cases y.testBit q <;> simp [hadamard, smul_smul]

theorem turn_reading_concat (qs : List ℕ) (q y x : ℕ) :
    turn (reading (qs ++ [q]) y * fraction 0 qs x) = turn (reading qs y * fraction 0 qs x) := by
  obtain ⟨n, hn⟩ := exists_fraction_eq 0 qs x
  refine turn_eq_of_sub (n := reading [q] y * n) ?_
  rw [Nat.zero_add] at hn
  rw [reading_append]
  push_cast
  rw [← hn]
  ring

open Classical in
/-- The transform of a basis state: every qubit of the register is in an even superposition, and
carries its part of the number that was held as a phase. -/
theorem descent_ket {qs : List ℕ} (h : qs.Nodup) (y x : ℕ) :
    descent qs (ket y) x = if AgreeOff qs x y then ((Scalar.invSqrtTwo : ℝ) : ℂ) ^ qs.length *
      turn (reading qs.reverse y * fraction 0 qs.reverse x) else 0 := by
  induction qs generalizing y with
  | nil =>
    have hagree : AgreeOff [] x y ↔ x = y := by
      refine ⟨fun h => Nat.eq_of_testBit_eq fun p => h p List.not_mem_nil, ?_⟩
      rintro rfl p -
      rfl
    simp [descent, hagree, ket_apply, reading, turn_zero]
  | cons q lower ih =>
    obtain ⟨hq, hlower⟩ := List.nodup_cons.1 h
    have hlow : ∀ b, reading lower.reverse (setBit y q b) = reading lower.reverse y := fun b =>
      reading_setBit (fun hmem => hq (List.mem_reverse.1 hmem)) y b
    have hbelow := turn_reading_concat lower.reverse q y x
    rw [descent, Module.End.mul_apply, stage_ket hq, map_add, map_smul, map_smul, Pi.add_apply,
      Pi.smul_apply, Pi.smul_apply, ih hlower, ih hlower, hlow, hlow]
    simp only [agreeOff_setBit_iff hq, smul_eq_mul]
    rw [← hbelow, List.reverse_cons, fraction_append, List.length_reverse, Nat.zero_add, mul_add,
      turn_add, List.length_cons, pow_succ' (Complex.ofReal _), fraction_cons, fraction, add_zero]
    by_cases hagree : AgreeOff (q :: lower) x y
    · cases hx : x.testBit q with
      | false =>
        simp [hagree, turn_zero]
        ring
      | true =>
        simp [hagree, div_eq_mul_inv]
        ring
    · simp [hagree]

noncomputable def operator (reg : List ℕ) : Operator ℂ := descent reg.reverse

theorem checkRegister_ok {reg : List QubitId} (h : 0 < reg.length) (h' : reg.length ≤ maxWidth)
    (name : String) : checkRegister name reg = .ok () := by
  unfold checkRegister
  exact if_neg (by omega)

theorem transform_realizes {reg : List QubitId} (hreg : reg.Nodup) (h : 0 < reg.length)
    (h' : reg.length ≤ maxWidth) :
    Realizes (transform reg : Synthesis ℝ Unit) reg (operator reg) := by
  have hdown : Realizes (transformDown reg.reverse : Synthesis ℝ Unit) reg (operator reg) :=
    transformDown_realizes (List.nodup_reverse.2 hreg) fun q hq => List.mem_reverse.1 hq
  rw [← mul_one (operator reg)]
  exact (realizes_ofExcept (checkRegister_ok h h' "fourier") reg).bind hdown

theorem phaseAddConstant_realizes (reg : List QubitId) (h : 0 < reg.length)
    (h' : reg.length ≤ maxWidth) (c : ℤ) :
    Realizes (phaseAddConstant reg c : Synthesis ℝ Unit) reg
      (diagonal fun x => turn (c * fraction 0 reg x)) := by
  rw [← mul_one (diagonal _)]
  exact (realizes_ofExcept (checkRegister_ok h h' "phase_add") reg).bind
    (addPhases_realizes c 0 fun q hq => hq)

theorem toNat_emod_lt (v : ℤ) (n : ℕ) : (v % 2 ^ n).toNat < 2 ^ n := by
  have hpos : (0 : ℤ) < 2 ^ n := by positivity
  have hnonneg := Int.emod_nonneg v hpos.ne'
  have hlt := Int.emod_lt_of_pos v hpos
  zify
  rwa [Int.toNat_of_nonneg hnonneg]

def addTo (reg : List ℕ) (c : ℤ) (y : ℕ) : ℕ :=
  write reg ((reading reg y + c) % 2 ^ reg.length).toNat y

theorem reading_addTo {reg : List ℕ} (h : reg.Nodup) (c : ℤ) (y : ℕ) :
    (reading reg (addTo reg c y) : ℤ) = (reading reg y + c) % 2 ^ reg.length := by
  rw [addTo, reading_write_of_lt h (toNat_emod_lt _ _),
    Int.toNat_of_nonneg (Int.emod_nonneg _ (by positivity))]

theorem carries_addTo {reg : List ℕ} (h : reg.Nodup) (c : ℤ) (y : ℕ) :
    Carries (operator reg) (diagonal fun x => turn (c * fraction 0 reg x)) y (addTo reg c y) := by
  have hnodup : reg.reverse.Nodup := List.nodup_reverse.2 h
  unfold Carries
  funext x
  have hagree : AgreeOff reg.reverse x (addTo reg c y) ↔ AgreeOff reg.reverse x y := by
    refine forall₂_congr fun p hp => ?_
    rw [addTo, testBit_write_of_not_mem fun hmem => hp (List.mem_reverse.2 hmem)]
  -- the sum and the number written differ by a multiple of the size, which makes whole turns
  have hturn : turn (c * fraction 0 reg x) * turn (reading reg y * fraction 0 reg x) =
      turn (reading reg (addTo reg c y) * fraction 0 reg x) := by
    obtain ⟨n, hn⟩ := exists_fraction_eq 0 reg x
    have hsum : (c + reading reg y : ℝ) = (reading reg (addTo reg c y) : ℝ) +
        2 ^ reg.length * ((reading reg y + c) / 2 ^ reg.length : ℤ) := by
      have hdiv := Int.emod_add_mul_ediv (reading reg y + c) (2 ^ reg.length)
      rw [← reading_addTo h] at hdiv
      rw [add_comm (c : ℝ)]
      exact_mod_cast hdiv.symm
    rw [Nat.zero_add] at hn
    rw [← turn_add, ← add_mul]
    refine turn_eq_of_sub (n := (reading reg y + c) / 2 ^ reg.length * n) ?_
    rw [hsum, Int.cast_mul, ← hn]
    ring
  rw [diagonal_apply, operator, descent_ket hnodup, descent_ket hnodup, List.reverse_reverse]
  by_cases hoff : AgreeOff reg.reverse x y
  · rw [if_pos hoff, if_pos (hagree.2 hoff), ← hturn]
    ring
  · rw [if_neg hoff, if_neg fun hmem => hoff (hagree.1 hmem), mul_zero]

end Ancilla.Fourier
