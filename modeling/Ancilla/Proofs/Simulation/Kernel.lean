import Ancilla.Proofs.Simulation.Operator

/-!
What a kernel does to an array of amplitudes. The pairs of entries that a kernel mixes are disjoint,
so the changes made in place are those of the operator of the kernel: its matrix on the target
qubit, in the basis states in which all control qubits read 1.
-/

namespace Ancilla

/-! ## Masks -/

theorem testBit_bitMask (qs : List ℕ) (p : ℕ) : (bitMask qs).testBit p = decide (p ∈ qs) := by
  have hfold : ∀ (qs : List ℕ) (m : ℕ), (qs.foldl (fun m q => m ||| bitWeight q) m).testBit p =
      (m.testBit p || decide (p ∈ qs)) := by
    intro qs
    induction qs with
    | nil => simp
    | cons q qs ih =>
      intro m
      rw [List.foldl_cons, ih, Nat.testBit_or, testBit_bitWeight, Bool.or_assoc]
      congr 1
      by_cases hp : q = p
      · simp [hp]
      · simp [hp, Ne.symm hp]
  rw [bitMask, hfold, Nat.zero_testBit, Bool.false_or]

theorem and_eq_right_iff (x m : ℕ) : x &&& m = m ↔ ∀ p, m.testBit p = true → x.testBit p = true := by
  constructor
  · intro h p hp
    have hbit := congrArg (fun y => y.testBit p) h
    simp only [Nat.testBit_and, hp, Bool.and_true] at hbit
    exact hbit
  · intro h
    apply Nat.eq_of_testBit_eq
    intro p
    rw [Nat.testBit_and]
    cases hp : m.testBit p with
    | false => simp
    | true => simp [h p hp]

theorem and_bitMask_iff (x : ℕ) (qs : List ℕ) : x &&& bitMask qs = bitMask qs ↔ AllRead qs x := by
  rw [and_eq_right_iff]
  simp only [testBit_bitMask, decide_eq_true_eq]
  exact Iff.rfl

theorem add_bitWeight {x q : ℕ} (h : x.testBit q = false) : x + bitWeight q = toggle x q := by
  unfold toggle bitWeight
  simp only [Nat.pow_eq]
  induction q generalizing x with
  | zero =>
    rw [Nat.testBit_zero, decide_eq_false_iff_not] at h
    have hhalf : (x ^^^ 2 ^ 0) / 2 = x / 2 := by rw [Nat.xor_div_two]; simp
    have hrest := Nat.xor_mod_two_eq (m := x) (n := 2 ^ 0)
    omega
  | succ q ih =>
    rw [Nat.testBit_succ] at h
    have hhalf : (x ^^^ 2 ^ (q + 1)) / 2 = x / 2 + 2 ^ q := by
      rw [Nat.xor_div_two, ih h, Nat.pow_succ, Nat.mul_div_cancel _ (by omega)]
    have hrest := Nat.xor_mod_two_eq (m := x) (n := 2 ^ (q + 1))
    omega

theorem toggle_lt {x q n : ℕ} (hq : q < n) : toggle x q < 2 ^ n ↔ x < 2 ^ n := by
  have hw : bitWeight q < 2 ^ n := Nat.pow_lt_pow_right (by omega) hq
  constructor
  · intro hx
    rw [← toggle_toggle x q]
    exact Nat.xor_lt_two_pow hx hw
  · intro hx
    exact Nat.xor_lt_two_pow hx hw

/-! ## One kernel -/

def amplitudes {α : Type} [Zero α] (v : Array α) (x : ℕ) : α := v.getD x 0

section Arrays

variable {α : Type} [Zero α]

theorem amplitudes_of_size_le {v : Array α} {x : ℕ} (h : v.size ≤ x) : amplitudes v x = 0 := by
  rw [amplitudes, Array.getD_eq_getD_getElem?, Array.getElem?_eq_none h]
  rfl

theorem amplitudes_setIfInBounds (v : Array α) {i : ℕ} (hi : i < v.size) (a : α) (x : ℕ) :
    amplitudes (v.setIfInBounds i a) x = if x = i then a else amplitudes v x := by
  unfold amplitudes
  rw [Array.getD_eq_getD_getElem?, Array.getD_eq_getD_getElem?, Array.getElem?_setIfInBounds]
  by_cases hx : i = x
  · subst hx
    simp [hi]
  · simp [hx, Ne.symm hx]

theorem eq_of_amplitudes {v w : Array α} (hsize : v.size = w.size)
    (h : amplitudes v = amplitudes w) : v = w := by
  refine Array.ext hsize fun x hx hx' => ?_
  have hat := congrFun h x
  rw [amplitudes, amplitudes, Array.getD_eq_getD_getElem?, Array.getD_eq_getD_getElem?,
    Array.getElem?_eq_getElem hx, Array.getElem?_eq_getElem hx'] at hat
  exact hat

end Arrays

namespace Kernel

variable {α : Type} [CommRing α]

def lowOf (q x : ℕ) : ℕ := if x.testBit q then toggle x q else x

theorem lowOf_eq_iff {q j : ℕ} (hj : j.testBit q = false) (x : ℕ) :
    lowOf q x = j ↔ x = j ∨ x = toggle j q := by
  unfold lowOf
  split
  · next hx =>
    constructor
    · rintro rfl
      exact .inr (toggle_toggle x q).symm
    · rintro (rfl | rfl)
      · rw [hj] at hx
        exact absurd hx Bool.false_ne_true
      · exact toggle_toggle j q
  · next hx =>
    constructor
    · exact .inl
    · rintro (rfl | rfl)
      · rfl
      · rw [testBit_toggle_self, hj] at hx
        exact absurd rfl hx

theorem mix_spec (m : Matrix2 α) {n q j : ℕ} {v : Array α} (hv : v.size = 2 ^ n) (hq : q < n)
    (hj : j < v.size) (hbit : j.testBit q = false) :
    (mix m (bitWeight q) v j).size = v.size ∧ ∀ x, amplitudes (mix m (bitWeight q) v j) x =
      if lowOf q x = j then Operator.onQubit m q (amplitudes v) x else amplitudes v x := by
  have hhigh : toggle j q < v.size := by
    rw [hv] at hj ⊢
    exact (toggle_lt hq).2 hj
  have hmix : mix m (bitWeight q) v j =
      (v.setIfInBounds j (m.m00 * amplitudes v j + m.m01 * amplitudes v (toggle j q))).setIfInBounds
        (toggle j q) (m.m10 * amplitudes v j + m.m11 * amplitudes v (toggle j q)) := by
    rw [mix, add_bitWeight hbit]
    rfl
  rw [hmix]
  refine ⟨by simp, ?_⟩
  intro x
  rw [amplitudes_setIfInBounds _ (by simpa using hhigh), amplitudes_setIfInBounds _ hj]
  simp only [lowOf_eq_iff hbit]
  by_cases hxh : x = toggle j q
  · subst hxh
    simp [Operator.onQubit_apply, hbit]
  · by_cases hxj : x = j
    · subst hxj
      simp [Operator.onQubit_apply, hbit, hxh]
    · simp [hxh, hxj]

theorem lowOf_toggle (q x : ℕ) : lowOf q (toggle x q) = lowOf q x := by
  unfold lowOf
  rw [testBit_toggle_self, toggle_toggle]
  cases x.testBit q <;> rfl

def mixAll (k : Kernel α) (v : Array α) (lows : List ℕ) : Array α :=
  lows.foldl (mix k.matrix (bitWeight k.target)) v

/-- If no pair is mixed twice, the order makes no difference: in each pair the matrix has acted on
what was there at first. -/
theorem mixAll_spec (k : Kernel α) {n : ℕ} {v : Array α} (hv : v.size = 2 ^ n) (hk : k.target < n)
    {lows : List ℕ} (hnodup : lows.Nodup)
    (hlows : ∀ j ∈ lows, j < v.size ∧ j.testBit k.target = false) :
    (k.mixAll v lows).size = v.size ∧ ∀ x, amplitudes (k.mixAll v lows) x =
      if lowOf k.target x ∈ lows then Operator.onQubit k.matrix k.target (amplitudes v) x
      else amplitudes v x := by
  induction lows generalizing v with
  | nil => exact ⟨rfl, fun x => (if_neg List.not_mem_nil).symm⟩
  | cons j lows ih =>
    obtain ⟨hj, hrest⟩ := List.nodup_cons.1 hnodup
    obtain ⟨⟨hlt, hbit⟩, hlater⟩ := List.forall_mem_cons.1 hlows
    obtain ⟨hsize, hfirst⟩ := mix_spec k.matrix hv hk hlt hbit
    obtain ⟨hsize', hall⟩ := ih (hsize.trans hv) hrest (by rwa [hsize])
    refine ⟨hsize'.trans hsize, fun x => (hall x).trans ?_⟩
    by_cases hx : lowOf k.target x = j
    · -- the pair at `j` is not mixed again
      rw [if_neg (hx ▸ hj), hfirst, if_pos hx, if_pos (hx ▸ List.mem_cons_self)]
    · have hsame : (lowOf k.target x ∈ j :: lows) ↔ lowOf k.target x ∈ lows :=
        List.mem_cons.trans (or_iff_right hx)
      have hkept : ∀ y, lowOf k.target y = lowOf k.target x →
          amplitudes (mix k.matrix (bitWeight k.target) v j) y = amplitudes v y := fun y hy => by
        rw [hfirst, if_neg (hy ▸ hx)]
      simp only [hsame, Operator.onQubit_apply, hkept x rfl, hkept _ (lowOf_toggle k.target x)]

def sweep (k : Kernel α) (v : Array α) (j : ℕ) : Array α :=
  j.fold (fun low _ w => if k.selects low then mix k.matrix (bitWeight k.target) w low else w) v

theorem apply_eq_sweep (k : Kernel α) (v : Array α) : k.apply v = k.sweep v v.size := rfl

theorem sweep_succ (k : Kernel α) (v : Array α) (j : ℕ) : k.sweep v (j + 1) =
    if k.selects j then mix k.matrix (bitWeight k.target) (k.sweep v j) j else k.sweep v j :=
  Nat.fold_succ ..

theorem sweep_eq_mixAll (k : Kernel α) (v : Array α) (j : ℕ) :
    k.sweep v j = k.mixAll v ((List.range j).filter k.selects) := by
  induction j with
  | zero => rfl
  | succ j ih =>
    rw [sweep_succ, ih, List.range_succ, List.filter_append, mixAll, mixAll, List.foldl_append]
    cases hsel : k.selects j <;> simp [hsel]

omit [CommRing α] in
theorem selects_clear {k : Kernel α} {j : ℕ} (h : k.selects j = true) :
    j.testBit k.target = false := by
  simp only [selects, Bool.and_eq_true, Bool.not_eq_true'] at h
  exact h.2

theorem sweep_spec (k : Kernel α) {n : ℕ} {v : Array α} (hv : v.size = 2 ^ n) (hk : k.target < n)
    {j : ℕ} (hj : j ≤ v.size) :
    (k.sweep v j).size = v.size ∧ ∀ x, amplitudes (k.sweep v j) x =
      if lowOf k.target x < j ∧ k.selects (lowOf k.target x) = true
      then Operator.onQubit k.matrix k.target (amplitudes v) x else amplitudes v x := by
  have hmem : ∀ low, low ∈ (List.range j).filter k.selects ↔ low < j ∧ k.selects low = true :=
    fun low => by rw [List.mem_filter, List.mem_range]
  have hspec := k.mixAll_spec hv hk (List.nodup_range.filter k.selects) fun low hlow =>
    ⟨((hmem low).1 hlow).1.trans_le hj, selects_clear ((hmem low).1 hlow).2⟩
  simp only [hmem] at hspec
  rw [sweep_eq_mixAll]
  exact hspec

theorem mixAll_eq_apply (k : Kernel α) {n : ℕ} {v : Array α} (hv : v.size = 2 ^ n)
    (hk : k.target < n) {lows : List ℕ} (hnodup : lows.Nodup)
    (hlows : ∀ j, j ∈ lows ↔ j < v.size ∧ k.selects j = true) : k.mixAll v lows = k.apply v := by
  obtain ⟨hsize, hall⟩ := k.mixAll_spec hv hk hnodup fun j hj =>
    ⟨((hlows j).1 hj).1, selects_clear ((hlows j).1 hj).2⟩
  obtain ⟨hsize', hall'⟩ := k.sweep_spec hv hk le_rfl
  refine eq_of_amplitudes (hsize.trans hsize'.symm) (funext fun x => ?_)
  rw [apply_eq_sweep, hall, hall']
  simp only [hlows]

def blockLows (k : Kernel α) (size : ℕ) : List ℕ :=
  let stride := bitWeight k.target
  (List.range (size / (2 * stride))).flatMap fun block =>
    ((List.range stride).map fun offset => block * (2 * stride) + offset).filter
      fun low => low &&& k.controls == k.controls

omit [CommRing α] in
theorem mem_blockLows {k : Kernel α} {n : ℕ} (hk : k.target < n) {j : ℕ} :
    j ∈ k.blockLows (2 ^ n) ↔ j < 2 ^ n ∧ k.selects j = true := by
  have hpos : 0 < bitWeight k.target := Nat.two_pow_pos _
  have hdvd : 2 * 2 ^ k.target ∣ 2 ^ n := by
    rw [← Nat.pow_succ']
    exact Nat.pow_dvd_pow 2 hk
  have hblocks : 2 ^ n / (2 * bitWeight k.target) * (2 * bitWeight k.target) = 2 ^ n :=
    Nat.div_mul_cancel hdvd
  have hclear : j.testBit k.target = false ↔ j / bitWeight k.target % 2 = 0 := by
    rw [Nat.testBit_eq_decide_div_mod_eq, decide_eq_false_iff_not]
    exact Nat.mod_two_ne_one
  simp only [blockLows, List.mem_flatMap, List.mem_range, List.mem_filter, List.mem_map, selects,
    Bool.and_eq_true, Bool.not_eq_true', hclear]
  constructor
  · rintro ⟨block, hblock, ⟨offset, hoffset, rfl⟩, hcontrols⟩
    refine ⟨?_, hcontrols, ?_⟩
    · have hnext := Nat.mul_le_mul_right (2 * bitWeight k.target) (Nat.succ_le_of_lt hblock)
      rw [hblocks, Nat.succ_mul] at hnext
      omega
    · have hhalf : block * (2 * bitWeight k.target) + offset =
          offset + bitWeight k.target * (2 * block) := by ring
      rw [hhalf, Nat.add_mul_div_left _ _ hpos, Nat.div_eq_of_lt hoffset, Nat.zero_add,
        Nat.mul_mod_right]
  · rintro ⟨hj, hcontrols, heven⟩
    refine ⟨j / (2 * bitWeight k.target), Nat.div_lt_of_lt_mul ?_,
      ⟨j % bitWeight k.target, Nat.mod_lt _ hpos, ?_⟩, hcontrols⟩
    · rwa [Nat.mul_comm, hblocks]
    · have hhalf : j / (2 * bitWeight k.target) = j / bitWeight k.target / 2 := by
        rw [Nat.div_div_eq_div_mul, Nat.mul_comm]
      have hsplit := Nat.div_add_mod j (bitWeight k.target)
      have hdouble : j / bitWeight k.target / 2 * 2 = j / bitWeight k.target := by omega
      rw [hhalf, ← Nat.mul_assoc, hdouble, Nat.mul_comm]
      exact hsplit

omit [CommRing α] in
theorem nodup_blockLows (k : Kernel α) (size : ℕ) : (k.blockLows size).Nodup := by
  have hpos : 0 < 2 * bitWeight k.target := Nat.mul_pos Nat.two_pos (Nat.two_pow_pos _)
  refine List.nodup_flatMap.2 ⟨fun block _ => ?_, List.nodup_range.imp fun hne => ?_⟩
  · exact (List.nodup_range.map fun _ _ heq => Nat.add_left_cancel heq).filter _
  · intro low hlow hlow'
    obtain ⟨⟨offset, hoffset, rfl⟩, -⟩ := (List.mem_filter.1 hlow).imp_left List.mem_map.1
    obtain ⟨⟨offset', hoffset', heq⟩, -⟩ := (List.mem_filter.1 hlow').imp_left List.mem_map.1
    -- the block of an index is found by division
    have hdiv := congrArg (· / (2 * bitWeight k.target)) heq
    have hlt := List.mem_range.1 hoffset
    have hlt' := List.mem_range.1 hoffset'
    simp only [Nat.mul_comm _ (2 * bitWeight k.target), Nat.mul_add_div hpos] at hdiv
    rw [Nat.div_eq_of_lt (by omega), Nat.div_eq_of_lt (by omega)] at hdiv
    exact hne hdiv.symm

/-- Blocks of an array that are updated apart, as in parallel, give what the sweep gives. -/
theorem mixAll_blockLows (k : Kernel α) {n : ℕ} {v : Array α} (hv : v.size = 2 ^ n)
    (hk : k.target < n) : k.mixAll v (k.blockLows v.size) = k.apply v :=
  k.mixAll_eq_apply hv hk (k.nodup_blockLows _) fun j => by rw [hv, mem_blockLows hk]

theorem size_apply (k : Kernel α) {n : ℕ} {v : Array α} (hv : v.size = 2 ^ n)
    (hk : k.target < n) : (k.apply v).size = v.size := (k.sweep_spec hv hk le_rfl).1

theorem lowOf_lt {q x n : ℕ} (hq : q < n) : lowOf q x < 2 ^ n ↔ x < 2 ^ n := by
  unfold lowOf
  split
  · exact toggle_lt hq
  · exact Iff.rfl

theorem testBit_lowOf (q x : ℕ) : (lowOf q x).testBit q = false := by
  unfold lowOf
  split
  · next hx => rw [testBit_toggle_self, hx, Bool.not_true]
  · next hx => simpa using hx

omit [CommRing α] in
theorem selects_lowOf {m : Matrix2 α} {q : ℕ} {qs : List ℕ} (h : q ∉ qs) (x : ℕ) :
    selects ⟨m, q, bitMask qs⟩ (lowOf q x) = true ↔ AllRead qs x := by
  have hlow : AllRead qs (lowOf q x) ↔ AllRead qs x := by
    unfold lowOf
    split
    · exact allRead_toggle h
    · exact Iff.rfl
  simp only [selects, testBit_lowOf, Bool.not_false, Bool.and_true, beq_iff_eq, and_bitMask_iff,
    hlow]

theorem amplitudes_apply_of_lt (k : Kernel α) {n : ℕ} {v : Array α} (hv : v.size = 2 ^ n)
    (hk : k.target < n) {x : ℕ} (hx : x < v.size) : amplitudes (k.apply v) x =
      if lowOf k.target x &&& k.controls = k.controls
      then Operator.onQubit k.matrix k.target (amplitudes v) x else amplitudes v x := by
  obtain ⟨-, hall⟩ := k.sweep_spec hv hk le_rfl
  have hlow : lowOf k.target x < v.size := by
    rw [hv] at hx ⊢
    exact (lowOf_lt hk).2 hx
  rw [apply_eq_sweep, hall x]
  simp only [hlow, true_and, selects, testBit_lowOf, Bool.not_false, Bool.and_true, beq_iff_eq]

theorem amplitudes_apply (m : Matrix2 α) {n q : ℕ} {qs : List ℕ} {v : Array α}
    (hv : v.size = 2 ^ n) (hq : q < n) (h : q ∉ qs) :
    amplitudes (apply ⟨m, q, bitMask qs⟩ v) =
      Operator.controlled qs (Operator.onQubit m q) (amplitudes v) := by
  funext x
  obtain ⟨-, hall⟩ := sweep_spec ⟨m, q, bitMask qs⟩ hv hq le_rfl
  rw [Operator.controlled_apply (Operator.onQubit_commute m h)]
  rw [apply_eq_sweep, hall x]
  simp only [selects_lowOf h, hv, lowOf_lt hq]
  by_cases hx : x < 2 ^ n
  · simp only [hx, true_and]
  · -- outside of the array there are only zeros
    have hzero : ∀ y, ¬ y < 2 ^ n → amplitudes v y = 0 := by
      intro y hy
      apply amplitudes_of_size_le
      omega
    have hflip : ¬ toggle x q < 2 ^ n := fun hlt => hx ((toggle_lt hq).1 hlt)
    simp [hx, Operator.onQubit_apply, hzero x hx, hzero _ hflip]

end Kernel

end Ancilla
