import Ancilla.Proofs.Simulation.Normalization

/-!
The two ways to sample a state, in exact arithmetic. A basis state owns the draws between the
weight of the states before it and that weight with its own, so one of weight zero owns none. The
scan over the amplitudes and the search in the table of running totals both find the owner, also
where totals repeat and where the state is not normalized.
-/

namespace Ancilla

open Finset Exact

noncomputable def weightBefore (v : Array ℂ) (k : ℕ) : ℝ := squaredLength k (amplitudes v)

section

variable (v : Array ℂ)

@[simp]
theorem weightBefore_zero : weightBefore v 0 = 0 := by simp [weightBefore, squaredLength]

theorem weightBefore_succ (k : ℕ) :
    weightBefore v (k + 1) = weightBefore v k + Complex.normSq (amplitudes v k) :=
  sum_range_succ (fun x => Complex.normSq (amplitudes v x)) k

theorem weightBefore_mono : Monotone (weightBefore v) :=
  monotone_nat_of_le_succ fun k => by
    rw [weightBefore_succ]
    exact le_add_of_nonneg_right (Complex.normSq_nonneg _)

end

theorem getElem?_toList_of_lt {v : Array ℂ} {k : ℕ} (hk : k < v.size) :
    v.toList[k]? = some (amplitudes v k) := by
  simp [amplitudes, hk]

namespace Simulator

theorem cumulative_eq (v : Array ℂ) : (cumulative v : Array ℝ) =
    ((List.range v.size).map fun i => weightBefore v (i + 1)).toArray := by
  have hprefix : ∀ k ≤ v.size, (v.toList.take k).foldl (fun (acc : ℝ × Array ℝ) a =>
        (acc.1 + Complex.normSq a, acc.2.push (acc.1 + Complex.normSq a))) (0, #[]) =
      (weightBefore v k, ((List.range k).map fun i => weightBefore v (i + 1)).toArray) := by
    intro k hk
    induction k with
    | zero => simp
    | succ k ih =>
      rw [List.take_add_one, getElem?_toList_of_lt hk, List.foldl_append,
        ih (Nat.le_of_succ_le hk), List.range_succ]
      simp [weightBefore_succ]
  have hall := hprefix v.size le_rfl
  rw [← Array.length_toList, List.take_length] at hall
  rw [cumulative, ← Array.foldl_toList, scalar_zero]
  exact congrArg Prod.snd hall

theorem size_cumulative (v : Array ℂ) : (cumulative v : Array ℝ).size = v.size := by
  simp [cumulative_eq]

theorem getD_cumulative {v : Array ℂ} {i : ℕ} (hi : i < v.size) :
    (cumulative v : Array ℝ).getD i 0 = weightBefore v (i + 1) := by
  simp [cumulative_eq, hi]

theorem firstAbove_eq {table : Array ℝ} {level : ℝ} {low high r : ℕ} (hlow : low ≤ r)
    (hhigh : r ≤ high) (h : ∀ i < high, level < table.getD i 0 ↔ r ≤ i) :
    firstAbove table level low high = r := by
  fun_induction firstAbove table level low high with
  | case1 low high hlt mid habove ih =>
    have hr := (h mid (by omega)).1 (by simpa [Scalar.below] using habove)
    exact ih hlow hr fun i hi => h i (by omega)
  | case2 low high hlt mid habove ih =>
    have hr := mt (h mid (by omega)).2 (by simpa [Scalar.below] using habove)
    exact ih (by omega) hhigh h
  | case3 low high hlt => omega

end Simulator

namespace StateVector

theorem scan_cases (v : Array ℂ) (level : ℝ) {k : ℕ} (hk : k ≤ v.size) :
    (scan level (weightBefore v k) k (v.toList.drop k) = none ∧
      ∀ i, k ≤ i → i < v.size → weightBefore v (i + 1) ≤ level) ∨
    ∃ r, scan level (weightBefore v k) k (v.toList.drop k) = some r ∧ k ≤ r ∧ r < v.size ∧
      level < weightBefore v (r + 1) ∧ ∀ i, k ≤ i → i < r → weightBefore v (i + 1) ≤ level := by
  induction hk using Nat.decreasingInduction with
  | self =>
    rw [List.drop_of_length_le (by rw [Array.length_toList])]
    exact .inl ⟨rfl, fun i hi hlt => absurd hlt (by omega)⟩
  | of_succ k hk ih =>
    have hscan : scan level (weightBefore v k) k (v.toList.drop k) =
        if level < weightBefore v (k + 1) then some k
        else scan level (weightBefore v (k + 1)) (k + 1) (v.toList.drop (k + 1)) := by
      obtain ⟨hlt, hentry⟩ := List.getElem?_eq_some_iff.1 (getElem?_toList_of_lt hk)
      rw [List.drop_eq_getElem_cons hlt, hentry, weightBefore_succ]
      exact if_congr decide_eq_true_iff rfl rfl
    rw [hscan]
    by_cases habove : level < weightBefore v (k + 1)
    · rw [if_pos habove]
      exact .inr ⟨k, rfl, le_rfl, hk, habove, fun i hi hlt => absurd hlt (by omega)⟩
    · rw [if_neg habove]
      have hextend : ∀ {b}, (∀ i, k + 1 ≤ i → i < b → weightBefore v (i + 1) ≤ level) →
          ∀ i, k ≤ i → i < b → weightBefore v (i + 1) ≤ level := by
        intro b hpassed i hi hlt
        rcases hi.eq_or_lt with rfl | hi
        · exact not_lt.1 habove
        · exact hpassed i hi hlt
      rcases ih with ⟨hnone, hpassed⟩ | ⟨r, hsome, hle, hr, hlevel, hpassed⟩
      · exact .inl ⟨hnone, hextend hpassed⟩
      · exact .inr ⟨r, hsome, by omega, hr, hlevel, hextend hpassed⟩

variable {s : StateVector ℂ} {draw : ℝ}

theorem normSq_eq_weightBefore : s.normSq = weightBefore s.amplitudes s.amplitudes.size :=
  s.normSq_eq

theorem sample_cases (hne : s.amplitudes.size ≠ 0) (hdraw : draw < 1) :
    (s.normSq = 0 ∧ s.sample draw = s.amplitudes.size - 1) ∨
    (0 < s.normSq ∧ s.sample draw < s.amplitudes.size ∧
      draw * s.normSq < weightBefore s.amplitudes (s.sample draw + 1) ∧
      ∀ i < s.sample draw, weightBefore s.amplitudes (i + 1) ≤ draw * s.normSq) := by
  have htotal := s.normSq_eq_weightBefore
  have hnonneg : 0 ≤ s.normSq := by
    rw [htotal, ← weightBefore_zero s.amplitudes]
    exact weightBefore_mono _ (Nat.zero_le _)
  have hstart := scan_cases s.amplitudes (draw * s.normSq) (Nat.zero_le _)
  rw [weightBefore_zero, List.drop_zero, ← scalar_zero] at hstart
  rcases hstart with ⟨hnone, hpassed⟩ | ⟨r, hsome, -, hr, hlevel, hpassed⟩
  · refine .inl ⟨le_antisymm ?_ hnonneg, by rw [sample, hnone, Option.getD_none]⟩
    have hlast := hpassed (s.amplitudes.size - 1) (Nat.zero_le _) (by omega)
    rw [Nat.sub_add_cancel (Nat.one_le_iff_ne_zero.2 hne), ← htotal] at hlast
    by_contra hpos
    exact absurd (mul_lt_of_lt_one_left (not_le.1 hpos) hdraw) (not_lt.2 hlast)
  · have hsample : s.sample draw = r := by rw [sample, hsome, Option.getD_some]
    refine .inr ⟨lt_of_le_of_ne hnonneg fun hzero => ?_, ?_⟩
    · have hle := weightBefore_mono s.amplitudes (Nat.succ_le_of_lt hr)
      rw [← hzero, mul_zero] at hlevel
      rw [← htotal, ← hzero] at hle
      exact absurd hlevel (not_lt.2 hle)
    · rw [hsample]
      exact ⟨hr, hlevel, fun i => hpassed i (Nat.zero_le i)⟩

theorem sample_lt_size (hne : s.amplitudes.size ≠ 0) (hdraw : draw < 1) :
    s.sample draw < s.amplitudes.size := by
  rcases sample_cases hne hdraw with ⟨-, hlast⟩ | ⟨-, hlt, -, -⟩
  · omega
  · exact hlt

theorem amplitude_sample_ne_zero (hne : s.amplitudes.size ≠ 0) (hnonneg : 0 ≤ draw)
    (hdraw : draw < 1) (hweight : 0 < s.normSq) :
    Ancilla.amplitudes s.amplitudes (s.sample draw) ≠ 0 := by
  rcases sample_cases hne hdraw with ⟨hzero, -⟩ | ⟨-, -, hlevel, hpassed⟩
  · exact absurd hzero hweight.ne'
  · have hbefore : weightBefore s.amplitudes (s.sample draw) ≤ draw * s.normSq := by
      cases hr : s.sample draw with
      | zero =>
        rw [weightBefore_zero]
        exact mul_nonneg hnonneg hweight.le
      | succ i => exact hpassed i (by omega)
    intro hamplitude
    rw [weightBefore_succ, hamplitude, Complex.normSq_zero, add_zero] at hlevel
    exact absurd hlevel (not_lt.2 hbefore)

/-- Of a state with amplitudes, the table of running totals and the scan choose the same basis state
with the same draw, and while there is weight it is one with an amplitude other than 0. -/
theorem choose_cumulative_eq_sample (hne : s.amplitudes.size ≠ 0) (hnonneg : 0 ≤ draw)
    (hdraw : draw < 1) :
    Simulator.choose (Simulator.cumulative s.amplitudes) draw = s.sample draw ∧
    s.sample draw < s.amplitudes.size ∧
    (0 < s.normSq → Ancilla.amplitudes s.amplitudes (s.sample draw) ≠ 0) := by
  refine ⟨?_, sample_lt_size hne hdraw, amplitude_sample_ne_zero hne hnonneg hdraw⟩
  have hlast : s.amplitudes.size - 1 < s.amplitudes.size := by omega
  rw [Simulator.choose, Simulator.size_cumulative, scalar_zero, Simulator.getD_cumulative hlast,
    Nat.sub_add_cancel (Nat.one_le_iff_ne_zero.2 hne), ← normSq_eq_weightBefore]
  rcases sample_cases hne hdraw with ⟨hzero, hsample⟩ | ⟨-, hlt, hlevel, hpassed⟩
  · -- all running totals are 0, so the search runs off the end of the table
    have hend : Simulator.firstAbove (Simulator.cumulative s.amplitudes) (draw * s.normSq) 0
        s.amplitudes.size = s.amplitudes.size := by
      refine Simulator.firstAbove_eq (Nat.zero_le _) le_rfl fun i hi => ?_
      have hle := weightBefore_mono s.amplitudes (Nat.succ_le_of_lt hi)
      rw [← normSq_eq_weightBefore, hzero] at hle
      rw [Simulator.getD_cumulative hi, hzero, mul_zero]
      exact ⟨fun hpos => absurd hpos (not_lt.2 hle), fun hge => absurd hge (by omega)⟩
    rw [hend, hsample]
    omega
  · have hfound : Simulator.firstAbove (Simulator.cumulative s.amplitudes) (draw * s.normSq) 0
        s.amplitudes.size = s.sample draw := by
      refine Simulator.firstAbove_eq (Nat.zero_le _) hlt.le fun i hi => ?_
      rw [Simulator.getD_cumulative hi]
      refine ⟨fun habove => ?_, fun hge => ?_⟩
      · by_contra hbelow
        exact absurd habove (not_lt.2 (hpassed i (not_le.1 hbelow)))
      · exact hlevel.trans_le (weightBefore_mono _ (Nat.succ_le_succ hge))
    rw [hfound]
    omega

noncomputable def gapped : StateVector ℂ := ⟨2, #[1, 0, 1, 0]⟩

theorem choose_cumulative_eq_sample_gapped :
    Simulator.choose (Simulator.cumulative gapped.amplitudes) (1 / 2 : ℝ) = gapped.sample (1 / 2) ∧
    gapped.sample (1 / 2 : ℝ) = 2 ∧ Ancilla.amplitudes gapped.amplitudes 2 ≠ 0 := by
  have hdraw : (0 : ℝ) ≤ 1 / 2 ∧ (1 / 2 : ℝ) < 1 := by norm_num
  have htotal : gapped.normSq = 2 := by
    norm_num [normSq_eq, squaredLength, gapped, Ancilla.amplitudes, sum_range_succ]
  have hchosen : gapped.sample (1 / 2 : ℝ) = 2 := by
    rw [sample, htotal]
    norm_num [gapped, scan, Scalar.below, Amplitude.normSq]
  obtain ⟨hsame, -, hamplitude⟩ :=
    choose_cumulative_eq_sample (s := gapped) (by simp [gapped]) hdraw.1 hdraw.2
  rw [hchosen] at hamplitude
  exact ⟨hsame, hchosen, hamplitude (by rw [htotal]; norm_num)⟩

end StateVector

end Ancilla
