import Ancilla.Proofs.Arithmetic.NumberTheory
import Ancilla.Word
import Mathlib.Algebra.Order.Ring.Abs
import Mathlib.Data.Int.GCD
import Mathlib.Tactic.Linarith
import Mathlib.Tactic.Ring

/-!
Inverses of residues, worked out in words. Extended division never makes a remainder negative, gives
two coefficients in succession opposite signs, and keeps the sum of the products of each remainder
with the size of the other coefficient, which is the modulus from the start. So no number of a round
is larger than the modulus, and for a modulus of 64 bits the rounds come to their end in words of
128 bits with a sign. The inverse is the coefficient they end with, brought below the modulus.
-/

namespace Ancilla

namespace Word

def half128 : ℤ := bitWeight 127

def signed128? (z : ℤ) : Option ℤ := signed? half128 z

theorem signed128?_of_abs_le {z : ℤ} {m : ℕ} (hm : m < bound64) (hz : |z| ≤ m) :
    signed128? z = some z := by
  have hwide : (bound64 : ℤ) < half128 := by decide
  have hword : (m : ℤ) < bound64 := by exact_mod_cast hm
  obtain ⟨hlow, hhigh⟩ := abs_le.1 hz
  exact if_pos ⟨by omega, by omega⟩

end Word

namespace NumberTheory

/-! ## The rounds in words -/

structure Remainders where
  r₀ : ℤ
  r₁ : ℤ
  s₀ : ℤ
  s₁ : ℤ
  deriving DecidableEq, Repr

namespace Remainders

def start (a m : ℕ) : Remainders := ⟨(a % m : ℕ), m, 1, 0⟩

/-- A round of extended division in words of 128 bits with a sign: none if one of its five numbers
overflows. The quotient is rounded toward zero. -/
def round? (d : Remainders) : Option Remainders := do
  let q ← Word.signed128? (d.r₀.tdiv d.r₁)
  let multiple ← Word.signed128? (q * d.r₁)
  let r ← Word.signed128? (d.r₀ - multiple)
  let change ← Word.signed128? (q * d.s₁)
  let s ← Word.signed128? (d.s₀ - change)
  return ⟨d.r₁, r, d.s₁, s⟩

inductive Ends : Remainders → Remainders → Prop
  | done {d : Remainders} (h : d.r₁ = 0) : Ends d d
  | round {d e f : Remainders} (h : d.r₁ ≠ 0) (hround : d.round? = some e) (hrest : Ends e f) :
    Ends d f

def next (d : Remainders) : Remainders := ⟨d.r₁, d.r₀ % d.r₁, d.s₁, d.s₀ - d.r₀ / d.r₁ * d.s₁⟩

/-! ## What every round keeps -/

/-- The remainders lie between 0 and the modulus, the coefficients have opposite signs, and the
products of each remainder with the size of the other coefficient add up to the modulus. -/
structure Bounded (m : ℕ) (d : Remainders) : Prop where
  nonneg₀ : 0 ≤ d.r₀
  nonneg₁ : 0 ≤ d.r₁
  le₀ : d.r₀ ≤ m
  le₁ : d.r₁ ≤ m
  opposed : d.s₀ * d.s₁ ≤ 0
  balance : d.r₀ * |d.s₁| + d.r₁ * |d.s₀| = m

variable {m : ℕ} {d : Remainders}

theorem bounded_start (a : ℕ) (hm : 0 < m) : (start a m).Bounded m where
  nonneg₀ := Int.natCast_nonneg _
  nonneg₁ := Int.natCast_nonneg _
  le₀ := Int.ofNat_le.2 (Nat.mod_lt a hm).le
  le₁ := le_rfl
  opposed := by simp [start]
  balance := by simp [start]

theorem abs_sub_of_opposed {a b : ℤ} (h : a * b ≤ 0) : |a - b| = |a| + |b| := by
  rw [sub_eq_add_neg, ← abs_neg b, abs_add_eq_add_abs_iff]
  obtain ⟨ha, hb⟩ | ⟨ha, hb⟩ := mul_nonpos_iff.1 h
  · exact .inl ⟨ha, neg_nonneg.2 hb⟩
  · exact .inr ⟨ha, neg_nonpos.2 hb⟩

namespace Bounded

theorem quotient_nonneg (h : d.Bounded m) : 0 ≤ d.r₀ / d.r₁ := Int.ediv_nonneg h.nonneg₀ h.nonneg₁

theorem abs_coefficient (h : d.Bounded m) :
    |d.next.s₁| = |d.s₀| + |d.r₀ / d.r₁ * d.s₁| := by
  apply abs_sub_of_opposed
  rw [mul_left_comm]
  exact mul_nonpos_of_nonneg_of_nonpos h.quotient_nonneg h.opposed

theorem next (h : d.Bounded m) (hr : d.r₁ ≠ 0) : d.next.Bounded m where
  nonneg₀ := h.nonneg₁
  nonneg₁ := Int.emod_nonneg _ hr
  le₀ := h.le₁
  le₁ := (Int.emod_lt_of_pos _ (h.nonneg₁.lt_of_ne' hr)).le.trans h.le₁
  opposed := by
    have hsquare := mul_nonneg h.quotient_nonneg (mul_self_nonneg d.s₁)
    calc d.s₁ * (d.s₀ - d.r₀ / d.r₁ * d.s₁)
        = d.s₀ * d.s₁ - d.r₀ / d.r₁ * (d.s₁ * d.s₁) := by ring
      _ ≤ 0 := by linarith [h.opposed]
  balance := by
    have hdivision := Int.emod_add_mul_ediv d.r₀ d.r₁
    calc d.r₁ * |d.next.s₁| + d.r₀ % d.r₁ * |d.s₁|
        = (d.r₀ % d.r₁ + d.r₁ * (d.r₀ / d.r₁)) * |d.s₁| + d.r₁ * |d.s₀| := by
          rw [h.abs_coefficient, abs_mul, abs_of_nonneg h.quotient_nonneg]
          ring
      _ = m := by rw [hdivision, h.balance]

theorem abs_s₁_le (h : d.Bounded m) (hr : d.r₀ ≠ 0) : |d.s₁| ≤ m := by
  have hpos : 1 ≤ d.r₀ := h.nonneg₀.lt_of_ne' hr
  calc |d.s₁| ≤ d.r₀ * |d.s₁| := le_mul_of_one_le_left (abs_nonneg _) hpos
    _ ≤ d.r₀ * |d.s₁| + d.r₁ * |d.s₀| := le_add_of_nonneg_right (mul_nonneg h.nonneg₁ (abs_nonneg _))
    _ = m := h.balance

theorem round?_eq (h : d.Bounded m) (hm : m < Word.bound64) (hr : d.r₁ ≠ 0) :
    d.round? = some d.next := by
  have hnext := h.next hr
  have hdiv : d.r₀.tdiv d.r₁ = d.r₀ / d.r₁ := Int.tdiv_eq_ediv_of_nonneg h.nonneg₀
  have hrest : d.r₀ - d.r₀ / d.r₁ * d.r₁ = d.r₀ % d.r₁ := by
    rw [Int.emod_def, mul_comm]
  have hquotient : |d.r₀ / d.r₁| ≤ m := by
    rw [abs_of_nonneg h.quotient_nonneg]
    exact (Int.ediv_le_self _ h.nonneg₀).trans h.le₀
  have hmultiple : |d.r₀ / d.r₁ * d.r₁| ≤ m := by
    rw [abs_of_nonneg (mul_nonneg h.quotient_nonneg h.nonneg₁)]
    exact (Int.ediv_mul_le _ hr).trans h.le₀
  have hremainder : |d.r₀ % d.r₁| ≤ m := (abs_of_nonneg hnext.nonneg₁).trans_le hnext.le₁
  have hcoefficient : |d.s₀ - d.r₀ / d.r₁ * d.s₁| ≤ m := hnext.abs_s₁_le hr
  -- the balance bounds only the new coefficient, but its parts have the same sign
  have hchange : |d.r₀ / d.r₁ * d.s₁| ≤ m := by
    have hsum := h.abs_coefficient
    exact (le_add_of_nonneg_left (abs_nonneg d.s₀)).trans (hsum.symm.trans_le hcoefficient)
  simp only [round?, hdiv, hrest, Word.signed128?_of_abs_le hm hquotient,
    Word.signed128?_of_abs_le hm hmultiple, Word.signed128?_of_abs_le hm hremainder,
    Word.signed128?_of_abs_le hm hchange, Word.signed128?_of_abs_le hm hcoefficient,
    Option.bind_eq_bind, Option.bind_some, Option.pure_def]
  rfl

end Bounded

example : round? ⟨2, 1, 0, Word.half128 - 1⟩ = none := by decide

theorem ends_bezout (hm : m < Word.bound64) {r₀ r₁ : ℕ} {s₀ s₁ : ℤ}
    (h : Bounded m ⟨r₀, r₁, s₀, s₁⟩) :
    ∃ s, Ends ⟨r₀, r₁, s₀, s₁⟩ ⟨(bezout r₀ r₁ s₀ s₁).1, 0, (bezout r₀ r₁ s₀ s₁).2, s⟩ := by
  fun_induction bezout r₀ r₁ s₀ s₁ with
  | case1 r₀ s₀ s₁ => exact ⟨s₁, .done rfl⟩
  | case2 r₀ r₁ s₀ s₁ hr ih =>
    have hr' : (r₁ : ℤ) ≠ 0 := Int.natCast_ne_zero.2 hr
    obtain ⟨s, hs⟩ := ih (h.next hr')
    exact ⟨s, .round hr' (h.round?_eq hm hr') hs⟩

end Remainders

/-! ## The inverse -/

theorem modInverse_lt {a m x : ℕ} (hm : 0 < m) (hx : modInverse? a m = some x) : x < m := by
  have hpos : (0 : ℤ) < m := Int.natCast_pos.2 hm
  simp only [modInverse?, Option.ite_none_right_eq_some, Option.some.injEq] at hx
  obtain ⟨-, rfl⟩ := hx
  exact (Int.toNat_lt (Int.emod_nonneg _ hpos.ne')).2 (Int.emod_lt_of_pos _ hpos)

theorem modInverse_eq_some_iff {a m x : ℕ} (hm : 0 < m) :
    modInverse? a m = some x ↔ x < m ∧ a * x ≡ 1 [MOD m] := by
  constructor
  · intro hx
    have hgcd : Nat.gcd a m = 1 := by
      by_contra hgcd
      rw [modInverse_eq_none hgcd] at hx
      cases hx
    obtain ⟨y, hy, hinverse⟩ := exists_modInverse hm hgcd
    obtain rfl : y = x := Option.some.inj (hy.symm.trans hx)
    exact ⟨modInverse_lt hm hx, hinverse⟩
  · rintro ⟨hlt, hx⟩
    have hgcd : Nat.gcd a m = 1 := Nat.coprime_of_mul_modEq_one x hx
    obtain ⟨y, hy, hinverse⟩ := exists_modInverse hm hgcd
    have hsame : y ≡ x [MOD m] :=
      Nat.ModEq.cancel_left_of_coprime (Nat.gcd_comm m a ▸ hgcd) (hinverse.trans hx.symm)
    rw [hy, hsame.eq_of_lt_of_lt (modInverse_lt hm hy) hlt]

/-- For every positive modulus of 64 bits the rounds of extended division end without overflow in
words of 128 bits, and the answer is read off their end. A number has an inverse exactly if it has no
common divisor with the modulus, and the answer is then the one inverse below the modulus. -/
theorem inversion_in_words {a m : ℕ} (hm : 0 < m) (hword : m < Word.bound64) :
    (∃ e, (Remainders.start a m).Ends e ∧
      modInverse? a m = if e.r₀ = 1 then some (e.s₀ % m).toNat else none) ∧
    (gcd a m = 1 → ∃ x, modInverse? a m = some x) ∧
    (gcd a m ≠ 1 → modInverse? a m = none) ∧
    ∀ x, modInverse? a m = some x ↔ x < m ∧ a * x ≡ 1 [MOD m] := by
  obtain ⟨s, hs⟩ := Remainders.ends_bezout hword (Remainders.bounded_start a hm)
  refine ⟨⟨_, hs, ?_⟩, fun h => ?_, fun h => ?_, fun x => modInverse_eq_some_iff hm⟩
  · simp only [modInverse?, Nat.cast_eq_one]
  · obtain ⟨x, hx, -⟩ := exists_modInverse hm (gcd_eq a m ▸ h)
    exact ⟨x, hx⟩
  · exact modInverse_eq_none (gcd_eq a m ▸ h)

theorem inversion_in_words_near_bound :
    0 < 18446744073709551557 ∧ 18446744073709551557 < Word.bound64 ∧
    ∃ e, (Remainders.start 18446744073709551613 18446744073709551557).Ends e ∧ e.r₀ = 1 ∧
      (e.s₀ % 18446744073709551557).toNat = 14164464199455548517 ∧
      modInverse? 18446744073709551613 18446744073709551557 = some 14164464199455548517 := by
  have hpos : 0 < 18446744073709551557 := by decide
  have hword : 18446744073709551557 < Word.bound64 := by decide
  obtain ⟨⟨e, he, hread⟩, -, -, hiff⟩ :=
    inversion_in_words (a := 18446744073709551613) hpos hword
  have hinverse := (hiff 14164464199455548517).2 ⟨by decide, by decide⟩
  rw [hinverse, eq_comm, Option.ite_none_right_eq_some] at hread
  exact ⟨hpos, hword, e, he, hread.1, Option.some.inj hread.2, hinverse⟩

end NumberTheory

end Ancilla
