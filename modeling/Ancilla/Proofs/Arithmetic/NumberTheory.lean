import Mathlib.Data.Int.ModEq
import Mathlib.Tactic.Zify
import Ancilla.Arithmetic.NumberTheory

/-!
Residues. Repeated division computes the greatest common divisor, repeated squaring a power, and
extended division keeps its coefficients congruent to its remainders, so that the coefficient of
the remainder 1 is an inverse.
-/

namespace Ancilla.NumberTheory

theorem gcd_eq (a b : ℕ) : gcd a b = Nat.gcd a b := by
  fun_induction gcd a b with
  | case1 a => rw [Nat.gcd_zero_right]
  | case2 a b hb ih => rw [ih, Nat.gcd_comm, ← Nat.gcd_rec, Nat.gcd_comm]

theorem gcd_mod_self (a m : ℕ) : Nat.gcd (a % m) m = Nat.gcd a m := by
  rw [← Nat.gcd_rec, Nat.gcd_comm]

theorem squarePower_eq (a m j : ℕ) : squarePower a m j = a ^ 2 ^ j % m := by
  induction j with
  | zero => rw [squarePower, Nat.pow_zero, Nat.pow_one]
  | succ j ih =>
    simp only [squarePower, mulMod, ih]
    rw [← Nat.mul_mod, ← Nat.pow_add, ← Nat.two_mul, ← Nat.pow_succ']

theorem gcd_squarePower (a m j : ℕ) : Nat.gcd (squarePower a m j) m = 1 ↔ Nat.gcd a m = 1 := by
  rw [squarePower_eq, gcd_mod_self]
  exact Nat.coprime_pow_left_iff (Nat.two_pow_pos j) a m

theorem bezout_fst (r₀ r₁ : ℕ) (s₀ s₁ : ℤ) : (bezout r₀ r₁ s₀ s₁).1 = Nat.gcd r₀ r₁ := by
  fun_induction bezout r₀ r₁ s₀ s₁ with
  | case1 r₀ s₀ s₁ => rw [Nat.gcd_zero_right]
  | case2 r₀ r₁ s₀ s₁ h ih => rw [ih, Nat.gcd_comm, ← Nat.gcd_rec, Nat.gcd_comm]

theorem bezout_modEq {a m : ℤ} {r₀ r₁ : ℕ} {s₀ s₁ : ℤ} (h₀ : a * s₀ ≡ r₀ [ZMOD m])
    (h₁ : a * s₁ ≡ r₁ [ZMOD m]) :
    a * (bezout r₀ r₁ s₀ s₁).2 ≡ (bezout r₀ r₁ s₀ s₁).1 [ZMOD m] := by
  fun_induction bezout r₀ r₁ s₀ s₁ with
  | case1 => exact h₀
  | case2 r₀ r₁ s₀ s₁ h ih =>
    have hmod : ((r₀ % r₁ : ℕ) : ℤ) = r₀ - (r₀ / r₁ : ℕ) * r₁ := by
      have hdiv := Nat.mod_add_div r₀ r₁
      rw [eq_sub_iff_add_eq, mul_comm]
      exact_mod_cast hdiv
    have hnext : a * (s₀ - (r₀ / r₁ : ℕ) * s₁) ≡ (r₀ % r₁ : ℕ) [ZMOD m] := by
      have hstep := h₀.sub (h₁.mul_left (r₀ / r₁ : ℕ))
      rwa [mul_left_comm, ← mul_sub, ← hmod] at hstep
    exact ih h₁ hnext

theorem bezout_mod_fst (a m : ℕ) : (bezout (a % m) m 1 0).1 = Nat.gcd a m := by
  rw [bezout_fst, gcd_mod_self]

theorem modInverse_eq_none {a m : ℕ} (h : ¬ Nat.gcd a m = 1) : modInverse? a m = none :=
  if_neg (bezout_mod_fst a m ▸ h)

theorem exists_modInverse {a m : ℕ} (hm : 0 < m) (h : Nat.gcd a m = 1) :
    ∃ x, modInverse? a m = some x ∧ a * x % m = 1 % m := by
  have hgcd : (bezout (a % m) m 1 0).1 = 1 := (bezout_mod_fst a m).trans h
  have hpos : (0 : ℤ) < m := by exact_mod_cast hm
  have hcoefficient : (a : ℤ) * (bezout (a % m) m 1 0).2 ≡ 1 [ZMOD m] := by
    have hfirst : (a : ℤ) * 1 ≡ (a % m : ℕ) [ZMOD m] := by
      rw [mul_one, Int.natCast_mod]
      exact (Int.mod_modEq a m).symm
    have hsecond : (a : ℤ) * 0 ≡ (m : ℕ) [ZMOD m] := by
      rw [mul_zero]
      exact (Int.modEq_zero_iff_dvd.2 dvd_rfl).symm
    have hlast := bezout_modEq hfirst hsecond
    rwa [hgcd] at hlast
  refine ⟨_, if_pos hgcd, ?_⟩
  zify
  rw [Int.toNat_of_nonneg (Int.emod_nonneg _ hpos.ne')]
  exact ((Int.mod_modEq _ m).mul_left a).trans hcoefficient

end Ancilla.NumberTheory
