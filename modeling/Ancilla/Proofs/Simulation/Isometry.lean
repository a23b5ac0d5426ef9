import Mathlib.Analysis.SpecialFunctions.Trigonometric.Basic
import Ancilla.Proofs.Simulation.Lowering

/-!
Lengths under kernels, in exact arithmetic. The matrix of every root keeps the squared length of a
pair of amplitudes, whatever its angles. The pairs of a kernel are disjoint and the controls select
whole pairs, so a kernel keeps the squared length of the array under any mask of controls.
-/

namespace Ancilla

open Finset

/-! ## Matrices -/

def Matrix2.IsIsometry (m : Matrix2 ℂ) : Prop :=
  ∀ a b : ℂ, Complex.normSq (m.m00 * a + m.m01 * b) + Complex.normSq (m.m10 * a + m.m11 * b) =
    Complex.normSq a + Complex.normSq b

theorem Matrix2.isIsometry_of_columns {m : Matrix2 ℂ}
    (hfirst : Complex.normSq m.m00 + Complex.normSq m.m10 = 1)
    (hsecond : Complex.normSq m.m01 + Complex.normSq m.m11 = 1)
    (horthogonal : m.m00 * starRingEnd ℂ m.m01 + m.m10 * starRingEnd ℂ m.m11 = 0) :
    m.IsIsometry := by
  intro a b
  have hcross : m.m00 * a * starRingEnd ℂ (m.m01 * b) + m.m10 * a * starRingEnd ℂ (m.m11 * b) =
      0 := by
    rw [map_mul, map_mul]
    linear_combination a * starRingEnd ℂ b * horthogonal
  have hreal := congrArg Complex.re hcross
  rw [Complex.add_re, Complex.zero_re] at hreal
  rw [Complex.normSq_add, Complex.normSq_add, Complex.normSq_mul, Complex.normSq_mul,
    Complex.normSq_mul, Complex.normSq_mul]
  linear_combination Complex.normSq a * hfirst + Complex.normSq b * hsecond + 2 * hreal

namespace Exact

open Kernel

theorem normSq_polar (r t : ℝ) : Complex.normSq (Amplitude.polar r t) = r ^ 2 := by
  have hparts : Complex.normSq (Amplitude.polar r t) =
      r * Real.cos t * (r * Real.cos t) + r * Real.sin t * (r * Real.sin t) :=
    Complex.normSq_mk _ _
  rw [hparts]
  linear_combination r ^ 2 * Real.cos_sq_add_sin_sq t

theorem conj_polar (r t : ℝ) :
    starRingEnd ℂ (Amplitude.polar r t) = Amplitude.polar r (-t) := by
  rw [polar_eq, polar_eq, map_mul, ← Complex.exp_conj, map_mul, Complex.conj_I, Complex.conj_ofReal,
    Complex.conj_ofReal, Complex.ofReal_neg]
  ring_nf

theorem normSq_ofParts (a b : ℝ) : Complex.normSq (Amplitude.ofParts a b) = a ^ 2 + b ^ 2 := by
  have hparts : Complex.normSq (Amplitude.ofParts a b) = a * a + b * b := Complex.normSq_mk _ _
  rw [hparts]
  ring

theorem conj_ofParts (a b : ℝ) :
    starRingEnd ℂ (Amplitude.ofParts a b) = Amplitude.ofParts a (-b) := rfl

theorem isIsometry_phase (t : ℝ) : (phase t : Matrix2 ℂ).IsIsometry := by
  apply Matrix2.isIsometry_of_columns <;> simp [phase, normSq_polar]

theorem isIsometry_flip : (Kernel.flip : Matrix2 ℂ).IsIsometry := by
  apply Matrix2.isIsometry_of_columns <;> simp [Kernel.flip]

theorem isIsometry_y : (⟨0, -Amplitude.i, Amplitude.i, 0⟩ : Matrix2 ℂ).IsIsometry := by
  apply Matrix2.isIsometry_of_columns <;> simp

theorem isIsometry_h :
    (⟨Amplitude.ofReal Scalar.invSqrtTwo, Amplitude.ofReal Scalar.invSqrtTwo,
      Amplitude.ofReal Scalar.invSqrtTwo, -Amplitude.ofReal Scalar.invSqrtTwo⟩ :
        Matrix2 ℂ).IsIsometry := by
  have hsquare := invSqrtTwo_mul_self
  have hcolumn : (Scalar.invSqrtTwo : ℝ) * Scalar.invSqrtTwo +
      Scalar.invSqrtTwo * Scalar.invSqrtTwo = 1 := by
    apply Complex.ofReal_injective
    push_cast
    linear_combination 2 * hsquare
  apply Matrix2.isIsometry_of_columns
  · simpa using hcolumn
  · simpa using hcolumn
  · simp

theorem isIsometry_root {a b : ℂ} (ha : Complex.normSq a = 1 / 2) (hb : Complex.normSq b = 1 / 2)
    (hab : a * starRingEnd ℂ b + b * starRingEnd ℂ a = 0) :
    (⟨a, b, b, a⟩ : Matrix2 ℂ).IsIsometry := by
  apply Matrix2.isIsometry_of_columns
  · linear_combination ha + hb
  · linear_combination hb + ha
  · exact hab

theorem normSq_half (s : ℝ) (hs : s ^ 2 = 1 / 4) :
    Complex.normSq (Amplitude.ofParts (Scalar.one / Scalar.two) s) = 1 / 2 := by
  rw [normSq_ofParts, hs, scalar_one, scalar_two]
  norm_num

theorem halves_orthogonal (r : ℝ) :
    (Amplitude.ofParts r r : ℂ) * starRingEnd ℂ (Amplitude.ofParts r (-r)) +
      Amplitude.ofParts r (-r) * starRingEnd ℂ (Amplitude.ofParts r r) = 0 := by
  rw [conj_ofParts, conj_ofParts, neg_neg, amplitude_ofParts, amplitude_ofParts, Complex.ofReal_neg]
  linear_combination 2 * (r : ℂ) ^ 2 * Complex.I_sq

theorem isIsometry_rx (t : ℝ) :
    (⟨Amplitude.ofReal (Real.cos t), Amplitude.scale (Real.sin t) (-Amplitude.i),
      Amplitude.scale (Real.sin t) (-Amplitude.i), Amplitude.ofReal (Real.cos t)⟩ :
        Matrix2 ℂ).IsIsometry := by
  have hcircle := Real.cos_sq_add_sin_sq t
  apply Matrix2.isIsometry_of_columns
  · simp only [amplitude_ofReal, amplitude_scale, amplitude_i, Complex.normSq_mul,
      Complex.normSq_neg, Complex.normSq_I, Complex.normSq_ofReal]
    linear_combination hcircle
  · simp only [amplitude_ofReal, amplitude_scale, amplitude_i, Complex.normSq_mul,
      Complex.normSq_neg, Complex.normSq_I, Complex.normSq_ofReal]
    linear_combination hcircle
  · simp only [amplitude_ofReal, amplitude_scale, amplitude_i, map_mul, map_neg, Complex.conj_I,
      Complex.conj_ofReal]
    ring

theorem isIsometry_ry (t : ℝ) :
    (⟨Amplitude.ofReal (Real.cos t), Amplitude.ofReal (-Real.sin t),
      Amplitude.ofReal (Real.sin t), Amplitude.ofReal (Real.cos t)⟩ : Matrix2 ℂ).IsIsometry := by
  have hcircle := Real.cos_sq_add_sin_sq t
  apply Matrix2.isIsometry_of_columns
  · simp only [amplitude_ofReal, Complex.normSq_ofReal]
    linear_combination hcircle
  · simp only [amplitude_ofReal, Complex.normSq_ofReal]
    linear_combination hcircle
  · simp only [amplitude_ofReal, Complex.ofReal_neg, map_neg, Complex.conj_ofReal]
    ring

theorem isIsometry_rz (t u : ℝ) :
    (⟨Amplitude.polar Scalar.one t, 0, 0, Amplitude.polar Scalar.one u⟩ :
      Matrix2 ℂ).IsIsometry := by
  apply Matrix2.isIsometry_of_columns <;> simp [normSq_polar]

theorem isIsometry_u (t u w : ℝ) :
    (⟨Amplitude.ofReal (Real.cos t), -Amplitude.polar (Real.sin t) w,
      Amplitude.polar (Real.sin t) u, Amplitude.polar (Real.cos t) (u + w)⟩ :
        Matrix2 ℂ).IsIsometry := by
  have hcircle := Real.cos_sq_add_sin_sq t
  apply Matrix2.isIsometry_of_columns
  · simp only [amplitude_ofReal, Complex.normSq_ofReal, normSq_polar]
    linear_combination hcircle
  · simp only [Complex.normSq_neg, normSq_polar]
    linear_combination hcircle
  · have hangle : u + -(u + w) = -w := by ring
    simp only [map_neg, conj_polar, polar_mul_polar, hangle]
    rw [polar_eq, polar_eq, amplitude_ofReal, Complex.ofReal_mul]
    ring

theorem isIsometry_of_rootMatrix {g : Standard ℝ} {as : List ℝ} {m : Matrix2 ℂ}
    (h : rootMatrix? g as = some m) : m.IsIsometry := by
  have hplus : (Scalar.one / Scalar.two : ℝ) ^ 2 = 1 / 4 := by
    rw [scalar_one, scalar_two]
    norm_num
  have hminus : (-(Scalar.one / Scalar.two) : ℝ) ^ 2 = 1 / 4 := by rw [neg_sq, hplus]
  have hroots := halves_orthogonal (Scalar.one / Scalar.two)
  cases g with
  | swap | cx | cy | cz | ch | ccx | cswap | crx | cry | crz | cp => cases h
  | id =>
    obtain rfl := Option.some.inj h
    simp [Matrix2.IsIsometry]
  | x =>
    obtain rfl := Option.some.inj h
    exact isIsometry_flip
  | y =>
    obtain rfl := Option.some.inj h
    exact isIsometry_y
  | h =>
    obtain rfl := Option.some.inj h
    exact isIsometry_h
  | z | s | sdg | t | tdg | p =>
    obtain rfl := Option.some.inj h
    exact isIsometry_phase _
  | sx =>
    obtain rfl := Option.some.inj h
    exact isIsometry_root (normSq_half _ hplus) (normSq_half _ hminus) hroots
  | sxdg =>
    obtain rfl := Option.some.inj h
    exact isIsometry_root (normSq_half _ hminus) (normSq_half _ hplus)
      ((add_comm _ _).trans hroots)
  | rx e =>
    obtain rfl := Option.some.inj h
    exact isIsometry_rx _
  | ry e =>
    obtain rfl := Option.some.inj h
    exact isIsometry_ry _
  | rz e =>
    obtain rfl := Option.some.inj h
    exact isIsometry_rz _ _
  | u e f g =>
    obtain rfl := Option.some.inj h
    exact isIsometry_u _ _ _

end Exact

/-! ## Kernels -/

theorem sum_eq_of_pairs {n q : ℕ} (hq : q < n) {f g : ℕ → ℝ}
    (h : ∀ x < 2 ^ n, f x + f (toggle x q) = g x + g (toggle x q)) :
    ∑ x ∈ range (2 ^ n), f x = ∑ x ∈ range (2 ^ n), g x := by
  have hmem : ∀ x ∈ range (2 ^ n), toggle x q ∈ range (2 ^ n) := by
    intro x hx
    rw [mem_range] at hx ⊢
    exact (toggle_lt hq).2 hx
  have hflip : ∀ k : ℕ → ℝ, ∑ x ∈ range (2 ^ n), k (toggle x q) = ∑ x ∈ range (2 ^ n), k x :=
    fun k => sum_nbij' (fun x => toggle x q) (fun x => toggle x q) hmem hmem
      (fun x _ => toggle_toggle x q) (fun x _ => toggle_toggle x q) (fun _ _ => rfl)
  have hdouble : ∑ x ∈ range (2 ^ n), (f x + f (toggle x q)) =
      ∑ x ∈ range (2 ^ n), (g x + g (toggle x q)) := sum_congr rfl fun x hx => h x (mem_range.1 hx)
  rw [sum_add_distrib, sum_add_distrib, hflip, hflip] at hdouble
  linarith

noncomputable def squaredLength (N : ℕ) (ψ : ℕ → ℂ) : ℝ := ∑ x ∈ range N, Complex.normSq (ψ x)

namespace Kernel

theorem pair_onQubit {m : Matrix2 ℂ} (hm : m.IsIsometry) (q : ℕ) (ψ : ℕ → ℂ) (x : ℕ) :
    Complex.normSq (Operator.onQubit m q ψ x) +
        Complex.normSq (Operator.onQubit m q ψ (toggle x q)) =
      Complex.normSq (ψ x) + Complex.normSq (ψ (toggle x q)) := by
  rw [Operator.onQubit_apply, Operator.onQubit_apply, testBit_toggle_self, toggle_toggle]
  cases x.testBit q with
  | false => exact hm (ψ x) (ψ (toggle x q))
  | true =>
    have hpair := hm (ψ (toggle x q)) (ψ x)
    simp only [if_true, Bool.not_true, Bool.false_eq_true, if_false]
    rw [add_comm, hpair, add_comm]

theorem squaredLength_apply {κ : Kernel ℂ} (hκ : κ.matrix.IsIsometry) {n : ℕ} {v : Array ℂ}
    (hv : v.size = 2 ^ n) (hn : κ.target < n) :
    squaredLength (2 ^ n) (amplitudes (κ.apply v)) = squaredLength (2 ^ n) (amplitudes v) := by
  refine sum_eq_of_pairs hn fun x hx => ?_
  have hflip : toggle x κ.target < v.size := by
    rw [hv]
    exact (toggle_lt hn).2 hx
  rw [← hv] at hx
  rw [κ.amplitudes_apply_of_lt hv hn hx, κ.amplitudes_apply_of_lt hv hn hflip, lowOf_toggle]
  -- the mask selects both entries of a pair or none
  split
  · exact pair_onQubit hκ κ.target (amplitudes v) x
  · rfl

theorem isIsometry_of_lower {k : GateKind ℝ} {qs : List QubitId} {as : List ℝ}
    {ks : List (Kernel ℂ)} (hks : lower k qs as = .ok ks) : ∀ κ ∈ ks, κ.matrix.IsIsometry := by
  rcases lower_ok_iff.1 hks with ⟨-, rfl⟩ | ⟨-, m, hm, rfl⟩
  · simp [exchange, Exact.isIsometry_flip]
  · simp [Exact.isIsometry_of_rootMatrix hm]

end Kernel

end Ancilla
