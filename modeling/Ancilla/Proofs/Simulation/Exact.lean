import Ancilla.Proofs.Gate.Controls
import Ancilla.Proofs.Simulation.Kernel
import Ancilla.Simulation.Trajectory
import Mathlib.Analysis.SpecialFunctions.Trigonometric.Basic

/-!
Exact arithmetic: real numbers as scalars and complex numbers as amplitudes. In it the matrix of the
adjoint of a root is the inverse of the matrix of the root, for all angles.
-/

namespace Ancilla

noncomputable instance : Scalar ℝ where
  ofInt n := n
  pi := Real.pi
  invSqrtTwo := Real.sqrt (1 / 2)
  cos := Real.cos
  sin := Real.sin
  sqrt := Real.sqrt
  below x y := decide (x < y)
  isFinite _ := true
  text _ := ""

noncomputable instance : Amplitude ℝ ℂ where
  ofParts re im := ⟨re, im⟩
  scale r a := a * r
  conj a := starRingEnd ℂ a
  normSq := Complex.normSq

instance : DrawSource (ℕ → ℝ) ℝ := ⟨fun draws => (draws 0, fun k => draws (k + 1))⟩

namespace Exact

@[simp]
theorem scalar_zero : (Scalar.zero : ℝ) = 0 := Int.cast_zero

@[simp]
theorem scalar_one : (Scalar.one : ℝ) = 1 := Int.cast_one

@[simp]
theorem scalar_two : (Scalar.two : ℝ) = 2 := Int.cast_ofNat 2

@[simp]
theorem scalar_cos (x : ℝ) : Scalar.cos x = Real.cos x := rfl

@[simp]
theorem scalar_sin (x : ℝ) : Scalar.sin x = Real.sin x := rfl

@[simp]
theorem amplitude_i : (Amplitude.i : ℂ) = Complex.I := by
  apply Complex.ext <;> simp [Amplitude.i, Amplitude.ofParts]

@[simp]
theorem amplitude_ofReal (r : ℝ) : (Amplitude.ofReal r : ℂ) = r := by
  apply Complex.ext <;> simp [Amplitude.ofReal, Amplitude.ofParts]

@[simp]
theorem amplitude_scale (r : ℝ) (a : ℂ) : Amplitude.scale r a = a * r := rfl

theorem amplitude_ofParts (a b : ℝ) : (Amplitude.ofParts a b : ℂ) = a + b * Complex.I := by
  apply Complex.ext <;> simp [Amplitude.ofParts]

theorem polar_eq (r t : ℝ) : (Amplitude.polar r t : ℂ) = r * Complex.exp (t * Complex.I) := by
  apply Complex.ext
  · simp [Amplitude.polar, Amplitude.ofParts, Complex.exp_re]
  · simp [Amplitude.polar, Amplitude.ofParts, Complex.exp_im]

theorem polar_mul_polar (r s t u : ℝ) :
    (Amplitude.polar r t : ℂ) * Amplitude.polar s u = Amplitude.polar (r * s) (t + u) := by
  rw [polar_eq, polar_eq, polar_eq, Complex.ofReal_add, Complex.ofReal_mul, add_mul,
    Complex.exp_add]
  ring

theorem polar_mul_opposite {t u : ℝ} (h : t + u = 0) :
    (Amplitude.polar 1 t : ℂ) * Amplitude.polar 1 u = 1 := by
  rw [polar_mul_polar, h, polar_eq]
  simp

/-! ## Angles -/

theorem evaluate_neg_iff {b : Bindings ℝ} {e : Expr ℝ} {v : ℝ} :
    e.neg.evaluate b = .ok v ↔ e.evaluate b = .ok (-v) := by
  unfold Expr.evaluate
  simp only [Expr.symbols, Expr.collectSymbols, Expr.eval?]
  split
  · simp
  · cases e.eval? b with
    | none => simp
    | some w => simp [Scalar.isFinite, neg_eq_iff_eq_neg]

theorem evaluate_opposite {b : Bindings ℝ} {e : Expr ℝ} {v : ℝ} (h : e.evaluate b = .ok v) :
    e.opposite.evaluate b = .ok (-v) := by
  have hneg : e.neg.evaluate b = .ok (-v) := by
    rw [evaluate_neg_iff, neg_neg]
    exact h
  cases e with
  | constant w =>
    have hw : w = v := by simpa [Expr.evaluate, Expr.symbols, Expr.collectSymbols, Expr.eval?,
      Scalar.isFinite] using h
    rw [← hw]
    rfl
  | neg e => exact evaluate_neg_iff.1 h
  | symbol name => exact hneg
  | pi => exact hneg
  | binary op x y => exact hneg

theorem angles_ok_iff {b : Bindings ℝ} {es : List (Expr ℝ)} {as : List ℝ} :
    Step.angles b es = .ok as ↔ List.Forall₂ (fun e a => e.evaluate b = .ok a) es as := by
  induction es generalizing as with
  | nil =>
    rw [List.forall₂_nil_left_iff]
    constructor
    · intro h
      exact (Except.ok.inj h).symm
    · rintro rfl
      rfl
  | cons e es ih =>
    have hcons : Step.angles b (e :: es) = match e.evaluate b with
        | .ok v => (Step.angles b es).map fun rest => v :: rest
        | .error err => .error (.circuit (.parameter err)) := by
      unfold Step.angles
      rw [List.mapM_cons]
      cases e.evaluate b <;> rfl
    rw [List.forall₂_cons_left_iff, hcons]
    simp only [← ih]
    cases e.evaluate b with
    | error err => simp
    | ok a =>
      cases Step.angles b es with
      | error err => simp [Except.map]
      | ok rest => simp [Except.map, eq_comm]

theorem exists_angles {b : Bindings ℝ} {es : List (Expr ℝ)}
    (h : ∀ e ∈ es, ∃ v, e.evaluate b = .ok v) : ∃ as, Step.angles b es = .ok as := by
  simp only [angles_ok_iff]
  induction es with
  | nil => exact ⟨[], .nil⟩
  | cons e es ih =>
    obtain ⟨⟨v, hv⟩, hes⟩ := List.forall_mem_cons.1 h
    obtain ⟨as, has⟩ := ih hes
    exact ⟨v :: as, .cons hv has⟩

/-! ## Roots -/

open Kernel

theorem phase_mul_phase {t u : ℝ} (h : t + u = 0) :
    (phase t : Matrix2 ℂ).mul (phase u) = ⟨1, 0, 0, 1⟩ := by
  simp [phase, Matrix2.mul, polar_mul_opposite h]

theorem invSqrtTwo_mul_self :
    ((Scalar.invSqrtTwo : ℝ) : ℂ) * ((Scalar.invSqrtTwo : ℝ) : ℂ) = 1 / 2 := by
  have hsquare : (Scalar.invSqrtTwo : ℝ) * Scalar.invSqrtTwo = 1 / 2 :=
    Real.mul_self_sqrt one_half_pos.le
  rw [← Complex.ofReal_mul, hsquare, Complex.ofReal_div, Complex.ofReal_one, Complex.ofReal_ofNat]

def Undoes (w m : Option (Matrix2 ℂ)) : Prop :=
  ∃ w' m', w = some w' ∧ m = some m' ∧ w'.mul m' = ⟨1, 0, 0, 1⟩

theorem undoes_z : Undoes (rootMatrix? .z []) (rootMatrix? .z []) := by
  refine ⟨_, _, rfl, rfl, ?_⟩
  have hz : (Amplitude.polar 1 Scalar.pi : ℂ) = -1 := by
    rw [polar_eq, Complex.ofReal_one, one_mul]
    exact Complex.exp_pi_mul_I
  simp [Matrix2.mul, phase, hz]

theorem undoes_y : Undoes (rootMatrix? .y []) (rootMatrix? .y []) := by
  refine ⟨_, _, rfl, rfl, ?_⟩
  simp [Matrix2.mul]

theorem undoes_h : Undoes (rootMatrix? .h []) (rootMatrix? .h []) := by
  refine ⟨_, _, rfl, rfl, ?_⟩
  simp only [Matrix2.mul, amplitude_ofReal, mul_neg, neg_mul, neg_neg, invSqrtTwo_mul_self]
  norm_num

theorem undoes_sx : Undoes (rootMatrix? .sxdg []) (rootMatrix? .sx []) := by
  refine ⟨_, _, rfl, rfl, ?_⟩
  simp only [Matrix2.mul, amplitude_ofParts, scalar_one, scalar_two, Matrix2.mk.injEq]
  push_cast
  refine ⟨?_, ?_, ?_, ?_⟩
  · linear_combination (-1 / 2 : ℂ) * Complex.I_sq
  · linear_combination (1 / 2 : ℂ) * Complex.I_sq
  · linear_combination (1 / 2 : ℂ) * Complex.I_sq
  · linear_combination (-1 / 2 : ℂ) * Complex.I_sq

theorem undoes_sxdg : Undoes (rootMatrix? .sx []) (rootMatrix? .sxdg []) := by
  refine ⟨_, _, rfl, rfl, ?_⟩
  simp only [Matrix2.mul, amplitude_ofParts, scalar_one, scalar_two, Matrix2.mk.injEq]
  push_cast
  refine ⟨?_, ?_, ?_, ?_⟩
  · linear_combination (-1 / 2 : ℂ) * Complex.I_sq
  · linear_combination (1 / 2 : ℂ) * Complex.I_sq
  · linear_combination (1 / 2 : ℂ) * Complex.I_sq
  · linear_combination (-1 / 2 : ℂ) * Complex.I_sq

theorem undoes_rx (a : ℝ) {e e' : Expr ℝ} :
    Undoes (rootMatrix? (.rx e') [-a]) (rootMatrix? (.rx e) [a]) := by
  refine ⟨_, _, rfl, rfl, ?_⟩
  have h := Complex.cos_sq_add_sin_sq (a / 2)
  simp only [Matrix2.mul, List.getD_cons_zero, neg_div, scalar_cos, scalar_sin, Real.cos_neg,
    Real.sin_neg, amplitude_ofReal, amplitude_scale, amplitude_i, scalar_two, Matrix2.mk.injEq]
  push_cast
  refine ⟨?_, ?_, ?_, ?_⟩
  · linear_combination h - Complex.sin (a / 2) ^ 2 * Complex.I_sq
  · ring
  · ring
  · linear_combination h - Complex.sin (a / 2) ^ 2 * Complex.I_sq

theorem undoes_ry (a : ℝ) {e e' : Expr ℝ} :
    Undoes (rootMatrix? (.ry e') [-a]) (rootMatrix? (.ry e) [a]) := by
  refine ⟨_, _, rfl, rfl, ?_⟩
  have h := Complex.cos_sq_add_sin_sq (a / 2)
  simp only [Matrix2.mul, List.getD_cons_zero, neg_div, scalar_cos, scalar_sin, Real.cos_neg,
    Real.sin_neg, amplitude_ofReal, scalar_two, Matrix2.mk.injEq]
  push_cast
  refine ⟨?_, ?_, ?_, ?_⟩
  · linear_combination h
  · ring
  · ring
  · linear_combination h

theorem undoes_rz (a : ℝ) {e e' : Expr ℝ} :
    Undoes (rootMatrix? (.rz e') [-a]) (rootMatrix? (.rz e) [a]) := by
  refine ⟨_, _, rfl, rfl, ?_⟩
  have hsum : a / 2 + -a / 2 = 0 := by ring
  simp [Matrix2.mul, polar_mul_opposite hsum, polar_mul_opposite ((add_comm _ _).trans hsum)]

theorem undoes_u (a b c : ℝ) {e f g e' f' g' : Expr ℝ} :
    Undoes (rootMatrix? (.u e' f' g') [-a, -c, -b]) (rootMatrix? (.u e f g) [a, b, c]) := by
  refine ⟨_, _, rfl, rfl, ?_⟩
  have h := Complex.cos_sq_add_sin_sq (a / 2)
  have hb : Complex.exp (b * Complex.I) * Complex.exp (-(b * Complex.I)) = 1 := by
    rw [← Complex.exp_add, add_neg_cancel, Complex.exp_zero]
  have hc : Complex.exp (c * Complex.I) * Complex.exp (-(c * Complex.I)) = 1 := by
    rw [← Complex.exp_add, add_neg_cancel, Complex.exp_zero]
  simp only [Matrix2.mul, List.getD_cons_zero, List.getD_cons_succ, neg_div, scalar_cos,
    scalar_sin, Real.cos_neg, Real.sin_neg, amplitude_ofReal, scalar_two, polar_eq,
    Matrix2.mk.injEq]
  push_cast
  simp only [add_mul, neg_mul, Complex.exp_add]
  generalize Complex.exp (b * Complex.I) = x at *
  generalize Complex.exp (-(b * Complex.I)) = x' at *
  generalize Complex.exp (c * Complex.I) = y at *
  generalize Complex.exp (-(c * Complex.I)) = y' at *
  refine ⟨?_, ?_, ?_, ?_⟩
  · linear_combination h + Complex.sin (a / 2) ^ 2 * hb
  · linear_combination Complex.sin (a / 2) * Complex.cos (a / 2) * y * hb
  · linear_combination Complex.sin (a / 2) * Complex.cos (a / 2) * y' * hb
  · linear_combination h + Complex.sin (a / 2) ^ 2 * hc + Complex.cos (a / 2) ^ 2 * (x * x' * hc + hb)

theorem undoes_plain {g : Standard ℝ} (hg : g.IsRoot) (hswap : g ≠ .swap)
    (hplain : g.parameters = []) : Undoes (rootMatrix? g.adjoint []) (rootMatrix? g []) := by
  cases g with
  | id => exact ⟨_, _, rfl, rfl, by simp [Matrix2.mul]⟩
  | x => exact ⟨_, _, rfl, rfl, by simp [Matrix2.mul, Kernel.flip]⟩
  | y => exact undoes_y
  | z => exact undoes_z
  | h => exact undoes_h
  | s => exact ⟨_, _, rfl, rfl, phase_mul_phase (neg_add_cancel _)⟩
  | sdg => exact ⟨_, _, rfl, rfl, phase_mul_phase (add_neg_cancel _)⟩
  | t => exact ⟨_, _, rfl, rfl, phase_mul_phase (neg_add_cancel _)⟩
  | tdg => exact ⟨_, _, rfl, rfl, phase_mul_phase (add_neg_cancel _)⟩
  | sx => exact undoes_sx
  | sxdg => exact undoes_sxdg
  | swap => exact absurd rfl hswap
  | rx | ry | rz | p | u | crx | cry | crz | cp => exact absurd hplain (by simp [Standard.parameters])
  | cx | cy | cz | ch | ccx | cswap =>
    exact absurd hg (by simp [Standard.IsRoot, Standard.splitControls])

theorem undoes_adjoint {g : Standard ℝ} (hg : g.IsRoot) (hswap : g ≠ .swap) {b : Bindings ℝ}
    {as : List ℝ} (has : Step.angles b g.parameters = .ok as) :
    ∃ as', Step.angles b g.adjoint.parameters = .ok as' ∧
      Undoes (rootMatrix? g.adjoint as') (rootMatrix? g as) := by
  rw [angles_ok_iff] at has
  simp only [angles_ok_iff]
  -- a rotation and its adjoint have opposite angles
  have hone : ∀ e : Expr ℝ, List.Forall₂ (fun e a => e.evaluate b = .ok a) [e] as →
      ∃ a, as = [a] ∧ List.Forall₂ (fun e a => e.evaluate b = .ok a) [e.opposite] [-a] := by
    intro e h
    obtain ⟨a, rest, ha, hrest, rfl⟩ := List.forall₂_cons_left_iff.1 h
    obtain rfl := List.forall₂_nil_left_iff.1 hrest
    exact ⟨a, rfl, .cons (evaluate_opposite ha) .nil⟩
  cases g with
  | rx e =>
    obtain ⟨a, rfl, ha⟩ := hone e has
    exact ⟨[-a], ha, undoes_rx a⟩
  | ry e =>
    obtain ⟨a, rfl, ha⟩ := hone e has
    exact ⟨[-a], ha, undoes_ry a⟩
  | rz e =>
    obtain ⟨a, rfl, ha⟩ := hone e has
    exact ⟨[-a], ha, undoes_rz a⟩
  | p e =>
    obtain ⟨a, rfl, ha⟩ := hone e has
    exact ⟨[-a], ha, _, _, rfl, rfl, phase_mul_phase (neg_add_cancel a)⟩
  | u e f g =>
    obtain ⟨x, as₁, hx, has₁, rfl⟩ := List.forall₂_cons_left_iff.1 has
    obtain ⟨y, as₂, hy, has₂, rfl⟩ := List.forall₂_cons_left_iff.1 has₁
    obtain ⟨z, as₃, hz, has₃, rfl⟩ := List.forall₂_cons_left_iff.1 has₂
    obtain rfl := List.forall₂_nil_left_iff.1 has₃
    exact ⟨[-x, -z, -y], .cons (evaluate_opposite hx) (.cons (evaluate_opposite hz)
      (.cons (evaluate_opposite hy) .nil)), undoes_u x y z⟩
  | id | x | y | z | h | s | sdg | t | tdg | sx | sxdg | swap | cx | cy | cz | ch | ccx | cswap =>
    obtain rfl := List.forall₂_nil_left_iff.1 has
    exact ⟨[], .nil, undoes_plain hg hswap rfl⟩
  | crx | cry | crz | cp =>
    exact absurd hg (by simp [Standard.IsRoot, Standard.splitControls])

end Exact

namespace StateVector

theorem size_zero (n : ℕ) : (zero n : StateVector ℂ).amplitudes.size = 2 ^ n := by
  simp [zero, bitWeight]

theorem amplitudes_zero (n x : ℕ) :
    Ancilla.amplitudes (zero n : StateVector ℂ).amplitudes x = if x = 0 then 1 else 0 := by
  have hblank : Ancilla.amplitudes (Array.replicate (bitWeight n) (0 : ℂ)) x = 0 := by
    rw [Ancilla.amplitudes, Array.getD_eq_getD_getElem?, Array.getElem?_replicate]
    split <;> rfl
  rw [zero, amplitudes_setIfInBounds _ (by simp [bitWeight]), hblank]

end StateVector

end Ancilla
