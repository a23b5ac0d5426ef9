import Ancilla.Proofs.Simulation.Operator

/-!
Basis states and registers. A register is a list of qubits, the least significant first; a basis
state reads a number from it, and another number can be written to it. On basis states the operators
of flips, exchanges and controls move the bits they name.
-/

namespace Ancilla

/-! ## Registers -/

def reading : List ℕ → ℕ → ℕ
  | [], _ => 0
  | q :: qs, y => (y.testBit q).toNat + 2 * reading qs y

def setBit (y q : ℕ) (b : Bool) : ℕ := if y.testBit q = b then y else toggle y q

def write : List ℕ → ℕ → ℕ → ℕ
  | [], _, y => y
  | q :: qs, v, y => setBit (write qs (v / 2) y) q (v.testBit 0)

theorem testBit_setBit_self (y q : ℕ) (b : Bool) : (setBit y q b).testBit q = b := by
  unfold setBit
  split
  · assumption
  · next h =>
    rw [testBit_toggle_self]
    cases b <;> simp_all

theorem testBit_setBit_of_ne (y : ℕ) {q p : ℕ} (h : p ≠ q) (b : Bool) :
    (setBit y q b).testBit p = y.testBit p := by
  unfold setBit
  split
  · rfl
  · exact testBit_toggle_of_ne y h

theorem testBit_setBit (y q : ℕ) (b : Bool) (p : ℕ) :
    (setBit y q b).testBit p = if p = q then b else y.testBit p := by
  split
  · next h => rw [h, testBit_setBit_self]
  · next h => exact testBit_setBit_of_ne y h b

def flipUnder (cs : List ℕ) (q y : ℕ) : ℕ := if AllRead cs y then toggle y q else y

theorem testBit_flipUnder (cs : List ℕ) (q y p : ℕ) : (flipUnder cs q y).testBit p =
    if p = q then y.testBit p ^^ decide (AllRead cs y) else y.testBit p := by
  unfold flipUnder
  by_cases hcs : AllRead cs y <;> by_cases hp : p = q <;> simp [hcs, hp, testBit_toggle_of_ne]

theorem reading_congr {qs : List ℕ} {y z : ℕ} (h : ∀ q ∈ qs, y.testBit q = z.testBit q) :
    reading qs y = reading qs z := by
  induction qs with
  | nil => rfl
  | cons q qs ih =>
    rw [reading, reading, h q List.mem_cons_self, ih fun p hp => h p (List.mem_cons_of_mem _ hp)]

theorem reading_zero (qs : List ℕ) : reading qs 0 = 0 := by
  induction qs with
  | nil => rfl
  | cons q qs ih => rw [reading, ih, Nat.zero_testBit, Bool.toNat_false]

theorem reading_setBit {qs : List ℕ} {q : ℕ} (hq : q ∉ qs) (y : ℕ) (b : Bool) :
    reading qs (setBit y q b) = reading qs y := by
  refine reading_congr fun p hp => testBit_setBit_of_ne y ?_ b
  rintro rfl
  exact hq hp

theorem reading_lt (qs : List ℕ) (y : ℕ) : reading qs y < 2 ^ qs.length := by
  induction qs with
  | nil => exact Nat.one_pos
  | cons q qs ih =>
    have hbit := Bool.toNat_lt (y.testBit q)
    rw [reading, List.length_cons, Nat.pow_succ]
    omega

theorem reading_append (ps qs : List ℕ) (y : ℕ) :
    reading (ps ++ qs) y = reading ps y + 2 ^ ps.length * reading qs y := by
  induction ps with
  | nil => simp [reading]
  | cons p ps ih =>
    rw [List.cons_append, reading, reading, ih, List.length_cons, Nat.pow_succ]
    ring

theorem testBit_last_iff (qs : List ℕ) (q y : ℕ) :
    y.testBit q = true ↔ 2 ^ qs.length ≤ reading (qs ++ [q]) y := by
  have hlow := reading_lt qs y
  rw [reading_append]
  cases hq : y.testBit q with
  | false => simp [reading, hq, hlow]
  | true => simp [reading, hq]

theorem testBit_of_reading {qs : List ℕ} {y z : ℕ} (h : reading qs y = reading qs z) :
    ∀ q ∈ qs, y.testBit q = z.testBit q := by
  induction qs with
  | nil => exact fun q hq => absurd hq List.not_mem_nil
  | cons q qs ih =>
    have hy := Bool.toNat_lt (y.testBit q)
    have hz := Bool.toNat_lt (z.testBit q)
    rw [reading, reading] at h
    have hfirst : (y.testBit q).toNat = (z.testBit q).toNat := by omega
    have hrest : reading qs y = reading qs z := by omega
    intro p hp
    rcases List.mem_cons.1 hp with rfl | hp
    · cases hp : y.testBit p <;> cases hp' : z.testBit p <;> simp_all
    · exact ih hrest p hp

theorem testBit_reading {qs : List ℕ} {i : ℕ} (h : i < qs.length) (y : ℕ) :
    (reading qs y).testBit i = y.testBit qs[i] := by
  induction qs generalizing i with
  | nil => exact absurd h (Nat.not_lt_zero i)
  | cons q qs ih =>
    have hbit := Bool.toNat_lt (y.testBit q)
    cases i with
    | zero =>
      rw [reading, Nat.testBit_zero]
      cases hq : y.testBit q <;> simp [hq]
    | succ i =>
      have hhalf : ((y.testBit q).toNat + 2 * reading qs y) / 2 = reading qs y := by omega
      rw [reading, Nat.testBit_succ, hhalf]
      exact ih (Nat.lt_of_succ_lt_succ h)

theorem testBit_reading_of_getElem? {qs : List ℕ} {i q : ℕ} (h : qs[i]? = some q) (y : ℕ) :
    (reading qs y).testBit i = y.testBit q := by
  obtain ⟨hi, rfl⟩ := List.getElem?_eq_some_iff.1 h
  exact testBit_reading hi y

theorem reading_eq_of_testBit {qs : List ℕ} {v y : ℕ} (hv : v < 2 ^ qs.length)
    (h : ∀ i (hi : i < qs.length), y.testBit qs[i] = v.testBit i) : reading qs y = v := by
  refine Nat.eq_of_testBit_eq fun i => ?_
  rcases Nat.lt_or_ge i qs.length with hi | hi
  · rw [testBit_reading hi, h i hi]
  · have hsize := Nat.pow_le_pow_right Nat.two_pos hi
    rw [Nat.testBit_lt_two_pow ((reading_lt qs y).trans_le hsize),
      Nat.testBit_lt_two_pow (hv.trans_le hsize)]

theorem eq_of_reading {qs : List ℕ} {y z : ℕ} (hin : reading qs y = reading qs z)
    (hout : ∀ p, p ∉ qs → y.testBit p = z.testBit p) : y = z := by
  refine Nat.eq_of_testBit_eq fun p => ?_
  by_cases hp : p ∈ qs
  · exact testBit_of_reading hin p hp
  · exact hout p hp

theorem testBit_write_of_not_mem {qs : List ℕ} {p : ℕ} (h : p ∉ qs) (v y : ℕ) :
    (write qs v y).testBit p = y.testBit p := by
  induction qs generalizing v with
  | nil => rfl
  | cons q qs ih =>
    obtain ⟨hne, hrest⟩ := List.ne_and_not_mem_of_not_mem_cons h
    rw [write, testBit_setBit_of_ne _ hne, ih hrest]

theorem reading_write {qs : List ℕ} (h : qs.Nodup) (v y : ℕ) :
    reading qs (write qs v y) = v % 2 ^ qs.length := by
  induction qs generalizing v with
  | nil => rw [reading, List.length_nil, Nat.pow_zero, Nat.mod_one]
  | cons q qs ih =>
    obtain ⟨hq, hqs⟩ := List.nodup_cons.1 h
    have hbit : (v.testBit 0).toNat = v % 2 := by
      rw [Nat.testBit_zero]
      rcases Nat.mod_two_eq_zero_or_one v with h | h <;> simp [h]
    rw [write, reading, testBit_setBit_self, reading_setBit hq, ih hqs, hbit, List.length_cons, Nat.pow_succ,
      Nat.mul_comm (2 ^ _), Nat.mod_mul]

theorem reading_write_of_lt {qs : List ℕ} (h : qs.Nodup) {v : ℕ} (hv : v < 2 ^ qs.length) (y : ℕ) :
    reading qs (write qs v y) = v := by
  rw [reading_write h, Nat.mod_eq_of_lt hv]

theorem reading_write_of_disjoint {ps qs : List ℕ} (h : ∀ p ∈ ps, p ∉ qs) (v y : ℕ) :
    reading ps (write qs v y) = reading ps y :=
  reading_congr fun p hp => testBit_write_of_not_mem (h p hp) v y

theorem allRead_write {cs qs : List ℕ} (h : ∀ c ∈ cs, c ∉ qs) (v y : ℕ) :
    AllRead cs (write qs v y) ↔ AllRead cs y := by
  constructor
  · intro hall c hc
    rw [← testBit_write_of_not_mem (h c hc) v y]
    exact hall c hc
  · intro hall c hc
    rw [testBit_write_of_not_mem (h c hc) v y]
    exact hall c hc

theorem eq_write_iff {qs : List ℕ} (h : qs.Nodup) {v y z : ℕ} (hv : v < 2 ^ qs.length) :
    z = write qs v y ↔ reading qs z = v ∧ ∀ p, p ∉ qs → z.testBit p = y.testBit p := by
  constructor
  · rintro rfl
    exact ⟨reading_write_of_lt h hv y, fun p hp => testBit_write_of_not_mem hp v y⟩
  · rintro ⟨hin, hout⟩
    refine eq_of_reading (hin.trans (reading_write_of_lt h hv y).symm) fun p hp => ?_
    rw [hout p hp, testBit_write_of_not_mem hp]

theorem write_reading {qs : List ℕ} (h : qs.Nodup) (y : ℕ) : write qs (reading qs y) y = y :=
  ((eq_write_iff h (reading_lt qs y)).2 ⟨rfl, fun _ _ => rfl⟩).symm

theorem write_write {qs : List ℕ} (h : qs.Nodup) {u v : ℕ} (hv : v < 2 ^ qs.length) (y : ℕ) :
    write qs v (write qs u y) = write qs v y := by
  refine (eq_write_iff h hv).2 ⟨reading_write_of_lt h hv _, fun p hp => ?_⟩
  rw [testBit_write_of_not_mem hp, testBit_write_of_not_mem hp]

theorem setBit_comm {p q : ℕ} (h : p ≠ q) (y : ℕ) (a b : Bool) :
    setBit (setBit y p a) q b = setBit (setBit y q b) p a := by
  refine Nat.eq_of_testBit_eq fun r => ?_
  by_cases hq : r = q
  · rw [hq, testBit_setBit_self, testBit_setBit_of_ne _ h.symm, testBit_setBit_self]
  · by_cases hp : r = p
    · rw [hp, testBit_setBit_self, testBit_setBit_of_ne _ h, testBit_setBit_self]
    · rw [testBit_setBit_of_ne _ hq, testBit_setBit_of_ne _ hp, testBit_setBit_of_ne _ hp,
        testBit_setBit_of_ne _ hq]

theorem write_setBit {qs : List ℕ} {p : ℕ} (h : p ∉ qs) (v y : ℕ) (b : Bool) :
    write qs v (setBit y p b) = setBit (write qs v y) p b := by
  induction qs generalizing v with
  | nil => rfl
  | cons q qs ih =>
    obtain ⟨hne, hrest⟩ := List.ne_and_not_mem_of_not_mem_cons h
    rw [write, ih hrest, setBit_comm hne, write]

theorem write_comm {ps qs : List ℕ} (h : ∀ p ∈ ps, p ∉ qs) (u v y : ℕ) :
    write ps u (write qs v y) = write qs v (write ps u y) := by
  induction ps generalizing u with
  | nil => rfl
  | cons p ps ih =>
    rw [write, ih (fun q hq => h q (List.mem_cons_of_mem _ hq)), write,
      write_setBit (h p List.mem_cons_self)]

theorem write_append (ps qs : List ℕ) (v y : ℕ) :
    write (ps ++ qs) v y = write ps v (write qs (v / 2 ^ ps.length) y) := by
  induction ps generalizing v with
  | nil => rw [List.nil_append, List.length_nil, Nat.pow_zero, Nat.div_one, write]
  | cons p ps ih =>
    rw [List.cons_append, write, ih, Nat.div_div_eq_div_mul, ← Nat.pow_succ', List.length_cons, write]

theorem write_cons_reading (p q : ℕ) (ps qs : List ℕ) (x y : ℕ) :
    write (p :: ps) (reading (q :: qs) x) y =
      setBit (write ps (reading qs x) y) p (x.testBit q) := by
  have hbit := Bool.toNat_lt (x.testBit q)
  have hhalf : ((x.testBit q).toNat + 2 * reading qs x) / 2 = reading qs x := by omega
  have hodd : ((x.testBit q).toNat + 2 * reading qs x).testBit 0 = x.testBit q := by
    rw [Nat.testBit_zero]
    cases x.testBit q <;> simp
  rw [write, reading, hhalf, hodd]

theorem exchangeBits_eq {p q : ℕ} (h : p ≠ q) (y : ℕ) :
    exchangeBits p q y = setBit (setBit y q (y.testBit p)) p (y.testBit q) := by
  refine Nat.eq_of_testBit_eq fun r => ?_
  by_cases hp : r = p
  · subst hp
    rw [testBit_setBit_self, exchangeBits]
    split
    · assumption
    · next hne =>
      rw [testBit_toggle_of_ne _ h, testBit_toggle_self]
      cases hr : y.testBit r <;> cases hq : y.testBit q <;> simp_all
  · rw [testBit_setBit_of_ne _ hp]
    by_cases hq : r = q
    · subst hq
      rw [testBit_setBit_self, exchangeBits]
      split
      · exact (by assumption : _ = _).symm
      · next hne =>
        rw [testBit_toggle_self, testBit_toggle_of_ne _ hp]
        cases hr : y.testBit r <;> cases hq : y.testBit p <;> simp_all
    · rw [testBit_setBit_of_ne _ hq, exchangeBits]
      split
      · rfl
      · rw [testBit_toggle_of_ne _ hq, testBit_toggle_of_ne _ hp]

def AgreeOff (qs : List ℕ) (x y : ℕ) : Prop := ∀ p, p ∉ qs → x.testBit p = y.testBit p

theorem agreeOff_setBit_iff {qs : List ℕ} {q : ℕ} (hq : q ∉ qs) {b : Bool} {x y : ℕ} :
    AgreeOff qs x (setBit y q b) ↔ x.testBit q = b ∧ AgreeOff (q :: qs) x y := by
  constructor
  · intro h
    refine ⟨(h q hq).trans (testBit_setBit_self y q b), fun p hp => ?_⟩
    obtain ⟨hne, hrest⟩ := List.ne_and_not_mem_of_not_mem_cons hp
    rw [h p hrest, testBit_setBit_of_ne y hne]
  · rintro ⟨hb, h⟩ p hp
    by_cases hpq : p = q
    · rw [hpq, hb, testBit_setBit_self]
    · rw [testBit_setBit_of_ne y hpq]
      exact h p fun hmem => (List.mem_cons.1 hmem).elim hpq hp

/-! ## Operators on basis states -/

variable {α : Type} [CommRing α]

def ket (y : ℕ) : ℕ → α := Pi.single y 1

theorem ket_apply (y x : ℕ) : (ket y : ℕ → α) x = if x = y then 1 else 0 := Pi.single_apply y 1 x

namespace Operator

theorem allRead_ket (cs : List ℕ) (y : ℕ) :
    (allRead cs (ket y) : ℕ → α) = if AllRead cs y then ket y else 0 := by
  funext x
  rw [allRead_apply, ket_apply]
  by_cases hxy : x = y
  · subst hxy
    by_cases hx : AllRead cs x <;> simp [hx, ket_apply]
  · by_cases hy : AllRead cs y <;> simp [hxy, hy, ket_apply]

theorem controlled_ket (cs : List ℕ) (A : Operator α) (y : ℕ) :
    controlled cs A (ket y) = if AllRead cs y then A (ket y) else ket y := by
  rw [controlled, select, one_mul, LinearMap.add_apply, LinearMap.sub_apply, Module.End.mul_apply,
    Module.End.one_apply, allRead_ket]
  split
  · rw [sub_self, add_zero]
  · rw [map_zero, sub_zero, zero_add]

theorem exchange_ket (a b y : ℕ) : (exchange a b (ket y) : ℕ → α) = ket (exchangeBits a b y) := by
  funext x
  rw [exchange_apply, ket_apply, ket_apply]
  have hiff : exchangeBits a b x = y ↔ x = exchangeBits a b y := by
    constructor
    · rintro rfl
      exact (exchangeBits_exchangeBits a b x).symm
    · rintro rfl
      exact exchangeBits_exchangeBits a b y
  simp only [hiff]

theorem toggle_eq_iff {x y q : ℕ} : toggle x q = y ↔ x = toggle y q := by
  constructor
  · rintro rfl
    exact (toggle_toggle x q).symm
  · rintro rfl
    exact toggle_toggle y q

theorem onQubit_ket (m : Matrix2 α) (q y : ℕ) :
    onQubit m q (ket y) = (if y.testBit q then m.m01 else m.m00) • ket (setBit y q false) +
      (if y.testBit q then m.m11 else m.m10) • ket (setBit y q true) := by
  have hne : y ≠ toggle y q := by
    intro h
    have hbit := congrArg (fun z => z.testBit q) h
    simp at hbit
  funext x
  simp only [onQubit_apply, Pi.add_apply, Pi.smul_apply, smul_eq_mul, ket_apply, toggle_eq_iff,
    setBit]
  by_cases hx : x = y
  · subst hx
    cases hy : x.testBit q <;> simp [hne]
  · by_cases hx' : x = toggle y q
    · subst hx'
      cases hy : y.testBit q <;> simp [hy, hx]
    · cases hy : y.testBit q <;> simp [hx, hx']

def diagonal (d : ℕ → α) : Operator α where
  toFun ψ x := d x * ψ x
  map_add' ψ φ := by
    funext x
    exact mul_add _ _ _
  map_smul' c ψ := by
    funext x
    exact mul_left_comm _ _ _

theorem diagonal_apply (d : ℕ → α) (ψ : ℕ → α) (x : ℕ) : diagonal d ψ x = d x * ψ x := rfl

theorem diagonal_ket (d : ℕ → α) (y : ℕ) : diagonal d (ket y) = d y • ket y := by
  funext x
  rw [diagonal_apply, Pi.smul_apply, ket_apply, smul_eq_mul]
  split
  · next h => rw [h]
  · rw [mul_zero, mul_zero]

theorem diagonal_one : diagonal (fun _ => 1 : ℕ → α) = 1 := by
  ext1 ψ
  funext x
  exact one_mul _

theorem diagonal_mul_diagonal (d e : ℕ → α) :
    diagonal d * diagonal e = diagonal fun x => d x * e x := by
  ext1 ψ
  funext x
  exact (mul_assoc _ _ _).symm

theorem diagonal_commute (d : ℕ → α) (cs : List ℕ) : Commute (diagonal d) (allRead cs) := by
  ext1 ψ
  funext x
  rw [Module.End.mul_apply, Module.End.mul_apply, diagonal_apply, allRead_apply, allRead_apply,
    diagonal_apply]
  split
  · rfl
  · rw [mul_zero]

theorem controlled_diagonal (cs : List ℕ) (d : ℕ → α) :
    controlled cs (diagonal d) = diagonal fun x => if AllRead cs x then d x else 1 := by
  ext1 ψ
  funext x
  rw [controlled_apply (diagonal_commute d cs), diagonal_apply, diagonal_apply]
  split
  · rfl
  · rw [one_mul]

theorem onQubit_diagonal (a : α) (q : ℕ) :
    onQubit ⟨1, 0, 0, a⟩ q = diagonal fun x => if x.testBit q then a else 1 := by
  ext1 ψ
  funext x
  rw [onQubit_apply, diagonal_apply]
  split <;> simp

/-! ## Basis states in a frame of reference -/

/-- An operator takes one basis state to another, both seen through a frame of reference. -/
def Carries (F A : Operator α) (y z : ℕ) : Prop := A (F (ket y)) = F (ket z)

variable {F A B : Operator α} {x y z : ℕ}

theorem carries_one (F : Operator α) (y : ℕ) : Carries F 1 y y := rfl

theorem Carries.mul (h : Carries F A x y) (h' : Carries F B y z) : Carries F (B * A) x z := by
  unfold Carries at *
  rw [Module.End.mul_apply, h, h']

theorem Carries.controlled {cs : List ℕ} (hF : Commute F (allRead cs))
    (h : AllRead cs y → Carries F A y z) (h' : ¬ AllRead cs y → z = y) :
    Carries F (controlled cs A) y z := by
  have hread : allRead cs (F (ket y)) = F (allRead cs (ket y)) :=
    (LinearMap.congr_fun hF.eq (ket y)).symm
  unfold Carries
  rw [Operator.controlled, select, one_mul, LinearMap.add_apply, LinearMap.sub_apply,
    Module.End.mul_apply, Module.End.one_apply, hread, allRead_ket]
  by_cases hy : AllRead cs y
  · rw [if_pos hy, sub_self, add_zero]
    exact h hy
  · rw [if_neg hy, map_zero, map_zero, sub_zero, zero_add, h' hy]

theorem inverse_apply (hA : IsUnit A) {ψ φ : ℕ → α} (h : A ψ = φ) : Ring.inverse A φ = ψ := by
  rw [← h, ← Module.End.mul_apply, Ring.inverse_mul_cancel A hA, Module.End.one_apply]

theorem conjugate_apply (hA : IsUnit A) {ψ χ : ℕ → α} (h : B (A ψ) = A χ) :
    (Ring.inverse A * B * A) ψ = χ := by
  rw [Module.End.mul_apply, Module.End.mul_apply, h]
  exact inverse_apply hA rfl

theorem Carries.framed (hF : IsUnit F) (h : Carries 1 A y z) :
    Carries F (Ring.inverse (Ring.inverse F) * A * Ring.inverse F) y z := by
  refine conjugate_apply hF.ringInverse ?_
  rw [inverse_apply hF rfl, inverse_apply hF rfl]
  exact h

end Operator

end Ancilla
