/-! Greatest common divisors, powers and inverses of residues. -/

namespace Ancilla.NumberTheory

def gcd (a b : Nat) : Nat :=
  if _h : b = 0 then a else gcd b (a % b)
termination_by b
decreasing_by exact Nat.mod_lt a (Nat.pos_of_ne_zero _h)

def mulMod (a b m : Nat) : Nat := a * b % m

def squarePower (a m : Nat) : Nat → Nat
  | 0 => a % m
  | j + 1 =>
    let r := squarePower a m j
    mulMod r r m

/-- Extended division: from remainders `r₀`, `r₁` with coefficients `s₀`, `s₁`, the last nonzero
remainder and its coefficient. -/
def bezout (r₀ r₁ : Nat) (s₀ s₁ : Int) : Nat × Int :=
  if _h : r₁ = 0 then (r₀, s₀)
  else bezout r₁ (r₀ % r₁) s₁ (s₀ - (r₀ / r₁ : Nat) * s₁)
termination_by r₁
decreasing_by exact Nat.mod_lt r₀ (Nat.pos_of_ne_zero _h)

def modInverse? (a m : Nat) : Option Nat :=
  let (g, s) := bezout (a % m) m 1 0
  if g = 1 then some (s % (m : Int)).toNat else none

end Ancilla.NumberTheory
