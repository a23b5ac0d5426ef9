import Ancilla.Proofs.Simulation.BasisStates

/-!
Carries of an addition. Two groups of bits at the same place generate a carry if their sum does not
fit the group, and propagate one if it is the greatest that fits. Main statements: the carries of a
group from those of its two parts, and the bits of a sum from the carries into them.
-/

namespace Ancilla.Adder

def group (x low size : ℕ) : ℕ := x / 2 ^ low % 2 ^ size

def generates (x y low size : ℕ) : Bool := decide (2 ^ size ≤ group x low size + group y low size)

def propagates (x y low size : ℕ) : Bool :=
  decide (group x low size + group y low size + 1 = 2 ^ size)

theorem group_lt (x low size : ℕ) : group x low size < 2 ^ size :=
  Nat.mod_lt _ (Nat.two_pow_pos size)

theorem group_add (x low m k : ℕ) :
    group x low (m + k) = group x low m + 2 ^ m * group x (low + m) k := by
  rw [group, Nat.pow_add, Nat.mod_mul, Nat.div_div_eq_div_mul, ← Nat.pow_add]
  rfl

theorem group_one (x i : ℕ) : group x i 1 = (x.testBit i).toNat := by
  rw [group, Nat.pow_one, Nat.testBit_eq_decide_div_mod_eq]
  rcases Nat.mod_two_eq_zero_or_one (x / 2 ^ i) with h | h <;> simp [h]

theorem generates_zero (x y low : ℕ) : generates x y low 0 = false := by
  simp [generates, group, Nat.mod_one]

theorem generates_one (x y i : ℕ) : generates x y i 1 = (x.testBit i && y.testBit i) := by
  rw [generates, group_one, group_one]
  cases x.testBit i <;> cases y.testBit i <;> rfl

theorem propagates_one (x y i : ℕ) : propagates x y i 1 = (x.testBit i ^^ y.testBit i) := by
  rw [propagates, group_one, group_one]
  cases x.testBit i <;> cases y.testBit i <;> rfl

theorem not_generates_of_propagates {x y low size : ℕ} (h : propagates x y low size = true) :
    generates x y low size = false := by
  rw [propagates, decide_eq_true_eq] at h
  rw [generates, decide_eq_false_iff_not]
  omega

theorem overflow_parts {a c M K : ℕ} (ha : a + 1 < 2 * M) :
    (M * K ≤ a + M * c ↔ K ≤ c ∨ c + 1 = K ∧ M ≤ a) ∧
      (a + M * c + 1 = M * K ↔ c + 1 = K ∧ a + 1 = M) := by
  rcases Nat.lt_trichotomy (c + 1) K with hlt | rfl | hgt
  · -- the upper part leaves room for any carry
    have hroom := Nat.mul_le_mul_left M (Nat.succ_le_of_lt hlt)
    rw [Nat.succ_eq_add_one, Nat.mul_add_one, Nat.mul_add_one] at hroom
    omega
  · rw [Nat.mul_add_one]
    omega
  · have hover := Nat.mul_le_mul_left M (Nat.le_of_lt_succ hgt)
    omega

theorem group_sum_add (x y low m k : ℕ) : group x low (m + k) + group y low (m + k) =
    group x low m + group y low m + 2 ^ m * (group x (low + m) k + group y (low + m) k) := by
  rw [group_add, group_add]
  ring

theorem group_sum_lt (x y low m : ℕ) : group x low m + group y low m + 1 < 2 * 2 ^ m := by
  have hx := group_lt x low m
  have hy := group_lt y low m
  omega

theorem generates_add (x y low m k : ℕ) : generates x y low (m + k) =
    (generates x y (low + m) k || propagates x y (low + m) k && generates x y low m) := by
  rw [Bool.eq_iff_iff]
  simp only [generates, propagates, group_sum_add, Nat.pow_add, decide_eq_true_eq, Bool.or_eq_true,
    Bool.and_eq_true]
  exact (overflow_parts (group_sum_lt x y low m)).1

theorem propagates_add (x y low m k : ℕ) :
    propagates x y low (m + k) = (propagates x y (low + m) k && propagates x y low m) := by
  rw [Bool.eq_iff_iff]
  simp only [propagates, group_sum_add, Nat.pow_add, decide_eq_true_eq, Bool.and_eq_true]
  exact (overflow_parts (group_sum_lt x y low m)).2

theorem generates_succ (x y i : ℕ) : generates x y 0 (i + 1) =
    (x.testBit i && y.testBit i ^^ x.testBit i && generates x y 0 i ^^
      y.testBit i && generates x y 0 i) := by
  rw [generates_add, Nat.zero_add, generates_one, propagates_one]
  cases x.testBit i <;> cases y.testBit i <;> cases generates x y 0 i <;> rfl

theorem testBit_sum (x y i : ℕ) :
    (x + y).testBit i = (x.testBit i ^^ y.testBit i ^^ generates x y 0 i) := by
  simp only [Nat.testBit_eq_decide_div_mod_eq, Nat.add_div (Nat.two_pow_pos i), generates, group,
    Nat.pow_zero, Nat.div_one]
  rcases Nat.mod_two_eq_zero_or_one (x / 2 ^ i) with hx | hx <;>
    rcases Nat.mod_two_eq_zero_or_one (y / 2 ^ i) with hy | hy <;>
    split <;> simp [Nat.add_mod, *]

end Ancilla.Adder
