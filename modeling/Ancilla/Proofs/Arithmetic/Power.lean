import Ancilla.Proofs.Arithmetic.Modular
import Ancilla.Proofs.Session.Borrowing

/-!
Multiplication in place and exponentiation. A multiplication borrows a register and a flag, and an
exponentiation multiplies by the squarings of its base under the qubits of the exponent in turn.
-/

namespace Ancilla.Modular

open Build Operator Ancilla.Fourier
open Ancilla.NumberTheory (squarePower)

variable {x : Variable} {a modulus : ℕ}

def scaled (x controls : List ℕ) (a modulus y : ℕ) : ℕ :=
  write x (if AllRead controls y then a * reading x y % modulus else reading x y) y

/-- A register and a number that is invertible modulo `modulus`. -/
structure Factor (x : Variable) (a modulus : ℕ) : Prop where
  pos : 0 < x.width
  narrow : x.width ≤ Synthesis.maxWidth
  two_le : 2 ≤ modulus
  fits : modulus ≤ 2 ^ x.width
  coprime : Nat.gcd a modulus = 1

theorem Factor.check (h : Factor x a modulus) (name : String) :
    checkModulus name modulus x.width = .ok () :=
  checkModulus_ok h.pos h.narrow h.two_le h.fits name

theorem Factor.multiply_eq (h : Factor x a modulus) (controls : List QubitId) :
    ∃ inverse, a % modulus * inverse % modulus = 1 % modulus ∧
      (multiply x a modulus controls : Synthesis ℝ Unit) = scope "mod_multiply"
        (borrowing (x.width + 1) "work" "flag" fun b flag =>
          productInPlace x.qubits b (a % modulus) inverse modulus flag controls) := by
  have hcoprime : Nat.gcd (a % modulus) modulus = 1 :=
    (NumberTheory.gcd_mod_self a modulus).trans h.coprime
  obtain ⟨inverse, hsome, hinverse⟩ :=
    NumberTheory.exists_modInverse (Nat.zero_lt_of_lt h.two_le) hcoprime
  refine ⟨inverse, hinverse, ?_⟩
  unfold multiply
  simp only [h.check, hsome, borrowing, productInPlace, bind_assoc]
  rfl

theorem Factor.body_realizes (h : Factor x a modulus) {controls : List QubitId}
    (hnodup : (controls ++ x.qubits).Nodup) {inverse : ℕ}
    (hinverse : a % modulus * inverse % modulus = 1 % modulus) (b : List QubitId) (flag : QubitId)
    (hlength : b.length = x.width + 1) (hwork : (flag :: b).Nodup)
    (hdis : ∀ q ∈ flag :: b, q ∉ controls ++ x.qubits) :
    ∃ A, Realizes (productInPlace x.qubits b (a % modulus) inverse modulus flag controls)
        (controls ++ x.qubits ++ flag :: b) A ∧
      ∀ y, reading x.qubits y < modulus → reading b y = 0 → y.testBit flag = false →
        A (ket y) = ket (scaled x.qubits controls a modulus y) := by
  have hspace : Workspace b flag modulus := by
    refine ⟨?_, ?_, hwork, h.two_le, ?_⟩
    · rw [hlength]
      exact Nat.succ_lt_succ h.pos
    · rw [hlength]
      exact Nat.succ_le_succ h.narrow
    · rw [hlength, Nat.add_sub_cancel]
      exact h.fits
  obtain ⟨A, hA, hket⟩ := hspace.product_realizes hlength.symm hnodup hdis hinverse
  refine ⟨A, hA, fun y hy hzero hflag => ?_⟩
  rw [hket y hy hzero hflag, scaled, Nat.mod_mul_mod]

theorem multiply_computes (h : Factor x a modulus) {controls : List QubitId}
    (hnodup : (controls ++ x.qubits).Nodup) :
    Computes (multiply x a modulus controls : Synthesis ℝ Unit) (controls ++ x.qubits)
      (fun y => reading x.qubits y < modulus) (scaled x.qubits controls a modulus) := by
  obtain ⟨inverse, hinverse, heq⟩ := h.multiply_eq controls
  rw [heq]
  exact computes_scope "mod_multiply" "work" "flag" (x.width + 1) (h.body_realizes hnodup hinverse)

def raised (x : List ℕ) (a modulus k y : ℕ) : ℕ := write x (a ^ k * reading x y % modulus) y

theorem Factor.lt_size (h : Factor x a modulus) (v : ℕ) : v % modulus < 2 ^ x.qubits.length :=
  (Nat.mod_lt v (Nat.zero_lt_of_lt h.two_le)).trans_le h.fits

theorem raised_zero (hx : x.qubits.Nodup) {y : ℕ} (hy : reading x.qubits y < modulus) :
    raised x.qubits a modulus 0 y = y := by
  rw [raised, Nat.pow_zero, Nat.one_mul, Nat.mod_eq_of_lt hy, write_reading hx]

theorem Factor.raised_raised (h : Factor x a modulus) (hx : x.qubits.Nodup) (j k y : ℕ) :
    raised x.qubits a modulus k (raised x.qubits a modulus j y) =
      raised x.qubits a modulus (j + k) y := by
  have hread : reading x.qubits (raised x.qubits a modulus j y) =
      a ^ j * reading x.qubits y % modulus := reading_write_of_lt hx (h.lt_size _) y
  rw [raised, hread, Nat.mul_mod_mod, ← Nat.mul_assoc, ← Nat.pow_add, Nat.add_comm k, raised,
    write_write hx (h.lt_size _), raised]

theorem scaled_squarePower {y : ℕ} (hy : reading x.qubits y < modulus) (e j : ℕ) :
    scaled x.qubits [e] (squarePower a modulus j) modulus y =
      raised x.qubits a modulus (2 ^ j * (y.testBit e).toNat) y := by
  have hread : AllRead [e] y ↔ y.testBit e = true := by rw [AllRead, List.forall_mem_singleton]
  rw [scaled, raised]
  simp only [hread, NumberTheory.squarePower_eq]
  cases y.testBit e with
  | false => simp [Nat.mod_eq_of_lt hy]
  | true => simp [Nat.mod_mul_mod]

theorem Factor.squarePower (h : Factor x a modulus) (j : ℕ) :
    Factor x (squarePower a modulus j) modulus :=
  ⟨h.pos, h.narrow, h.two_le, h.fits, (NumberTheory.gcd_squarePower a modulus j).2 h.coprime⟩

theorem powerStep_computes (h : Factor x a modulus) {e : QubitId}
    (hnodup : ([e] ++ x.qubits).Nodup) (j : ℕ) :
    Computes (powerStep x e a j modulus : Synthesis ℝ Unit) ([e] ++ x.qubits)
      (fun y => reading x.qubits y < modulus)
      fun y => raised x.qubits a modulus (2 ^ j * (y.testBit e).toNat) y :=
  (Computes.after (h.check "mod_exp_step") (multiply_computes (h.squarePower j) hnodup)).congr
    fun _ hy => scaled_squarePower hy e j

theorem powerSteps_computes (h : Factor x a modulus) (hx : x.qubits.Nodup) {es : List QubitId}
    (hdis : ∀ q ∈ es, q ∉ x.qubits) (j : ℕ) :
    Computes (powerSteps x a modulus j es : Synthesis ℝ Unit) (es ++ x.qubits)
      (fun y => reading x.qubits y < modulus)
      fun y => raised x.qubits a modulus (2 ^ j * reading es y) y := by
  induction es generalizing j with
  | nil =>
    refine (computes_pure _ _).congr fun y hy => ?_
    rw [reading, Nat.mul_zero, raised_zero hx hy]
    rfl
  | cons e rest ih =>
    have hstep := powerStep_computes h (List.nodup_cons.2 ⟨hdis e List.mem_cons_self, hx⟩) j
    have hrest := ih (fun q hq => hdis q (List.mem_cons_of_mem _ hq)) (j + 1)
    have hin : ∀ q ∈ [e] ++ x.qubits, q ∈ e :: rest ++ x.qubits := by
      intro q hq
      simp only [List.mem_append, List.mem_cons, List.not_mem_nil] at hq ⊢
      tauto
    have hin' : ∀ q ∈ rest ++ x.qubits, q ∈ e :: rest ++ x.qubits := fun q hq =>
      List.mem_cons_of_mem _ hq
    -- each step keeps the register below the modulus and the exponent as it is, so the powers add up
    refine ((hstep.mono hin).bind (hrest.mono hin') (fun y hy => ?_) fun y p hp => ?_).congr
      fun y hy => ?_
    · rw [raised, reading_write_of_lt hx (h.lt_size _)]
      exact Nat.mod_lt _ (Nat.zero_lt_of_lt h.two_le)
    · exact testBit_write_of_not_mem (fun hmem => hp (List.mem_append_right _ hmem)) _ y
    · have habove : reading rest (raised x.qubits a modulus (2 ^ j * (y.testBit e).toNat) y) =
          reading rest y :=
        reading_write_of_disjoint (fun q hq => hdis q (List.mem_cons_of_mem _ hq)) _ y
      show raised x.qubits a modulus (2 ^ (j + 1) * reading rest _) _ = _
      rw [habove, h.raised_raised hx, reading, Nat.mul_add, ← Nat.mul_assoc (2 ^ j), ← Nat.pow_succ]

theorem power_computes {exponent : Variable} (h : Factor x a modulus) (hx : x.qubits.Nodup)
    (hdis : ∀ q ∈ exponent.qubits, q ∉ x.qubits) :
    Computes (power exponent x a modulus : Synthesis ℝ Unit) (exponent.qubits ++ x.qubits)
      (fun y => reading x.qubits y < modulus)
      fun y => raised x.qubits a modulus (reading exponent.qubits y) y := by
  have hgcd : NumberTheory.gcd (a % modulus) modulus = 1 := by
    rw [NumberTheory.gcd_eq, NumberTheory.gcd_mod_self, h.coprime]
  have hsteps := powerSteps_computes h hx hdis 0
  simp only [Nat.pow_zero, Nat.one_mul] at hsteps
  unfold power
  refine Computes.after (h.check "mod_exp") ?_
  simp only [hgcd, ne_eq, not_true_eq_false, if_false]
  exact hsteps

/-- Exponentiation. Between environments, with registers in use, the call succeeds, and what it emits
multiplies a register by the power of another modulo `modulus` and leaves all other qubits as they
are; the qubits of its own are returned reading 0. -/
theorem power_maps {s : Session ℝ} (hs : s.Reachable) (hp : s.isPoisoned = false)
    (hopen : s.numOpen = 0) (hunlimited : s.allocator.capacity = none) {exponent x : Variable}
    (hlive : ∀ q ∈ exponent.qubits ++ x.qubits, s.allocator.isLive q = true)
    (hx : x.qubits.Nodup) (hdis : ∀ q ∈ exponent.qubits, q ∉ x.qubits) {a modulus : ℕ}
    (hwidth : 1 ≤ x.width ∧ x.width ≤ 32) (hmodulus : 2 ≤ modulus ∧ modulus ≤ 2 ^ x.width)
    (hcoprime : Nat.gcd (a % modulus) modulus = 1) :
    Maps (power exponent x a modulus : Synthesis ℝ Unit) s (exponent.qubits ++ x.qubits)
      (fun y => reading x.qubits y < modulus)
      fun y z => reading x.qubits z = a ^ reading exponent.qubits y * reading x.qubits y % modulus ∧
        ∀ q, q ∉ x.qubits → z.testBit q = y.testBit q := by
  have h : Factor x a modulus := by
    refine ⟨hwidth.1, hwidth.2, hmodulus.1, hmodulus.2, ?_⟩
    rw [Nat.gcd_comm, Nat.gcd_rec, hcoprime]
  refine (power_computes h hx hdis).maps hs hp hopen hunlimited hlive fun y hy => ⟨?_, fun q hq => ?_⟩
  · exact reading_write_of_lt hx (h.lt_size _) y
  · exact testBit_write_of_not_mem hq _ y

theorem power_maps_full_modulus :
    ∃ s : Session ℝ, s = (Session.new {}).after [.allocate 2 "e", .allocate 2 "x"] ∧
      Maps (power ⟨"e", [0, 1], .integer false⟩ ⟨"x", [2, 3], .integer false⟩ 7 4 : Synthesis ℝ Unit)
        s [0, 1, 2, 3] (fun y => reading [2, 3] y < 4) fun y z =>
          reading [2, 3] z = 7 ^ reading [0, 1] y * reading [2, 3] y % 4 ∧
            ∀ q, q ∉ [2, 3] → z.testBit q = y.testBit q := by
  refine ⟨_, rfl, power_maps ((Session.Reachable.new {}).after _) (by decide +kernel)
    (by decide +kernel) (by decide +kernel) (by decide +kernel) (by decide) (by decide) (by decide)
    (by decide) (by decide)⟩

end Ancilla.Modular
