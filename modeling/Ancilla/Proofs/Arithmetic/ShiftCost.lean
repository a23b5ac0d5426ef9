import Ancilla.Proofs.Arithmetic.Shift

/-!
The operations of cyclic shifts. All of them are exchanges of two qubits under a bit of the offset.
A rotation by reversals exchanges half of the cells and half of each of its two parts, so never more
qubits than there are, while single places take an exchange of all cells but one for each place.
-/

namespace Ancilla.Shift

open Build Session

variable {R : Type} {as bs cells : List Variable} {a b : Variable} {w k l : ℕ}

/-! ## Exchanges -/

def exchange (p : QubitId × QubitId) : Placement R := ⟨.ofStandard .swap, [p.1, p.2], false⟩

/-- A construction does a number of exchanges of distinct qubits of cells, and nothing else. -/
def Exchanges (c : Synthesis R Unit) (cells : List Variable) (k : ℕ) : Prop :=
  ∃ ps : List (QubitId × QubitId), ps.length = k ∧
    (∀ p ∈ ps, p.1 ∈ qubits cells ∧ p.2 ∈ qubits cells ∧ p.1 ≠ p.2) ∧
    ∀ qs, (∀ q ∈ qubits cells, q ∈ qs) → c.Places qs (ps.map exchange)

variable {c d : Synthesis R Unit}

theorem exchanges_pure (cells : List Variable) : Exchanges (pure () : Synthesis R Unit) cells 0 :=
  ⟨[], rfl, by simp, fun qs _ => places_pure qs⟩

theorem exchanges_swap {p q : QubitId} (hp : p ∈ qubits cells) (hq : q ∈ qubits cells)
    (hne : p ≠ q) : Exchanges (Build.swap p q : Synthesis R Unit) cells 1 :=
  ⟨[(p, q)], rfl, by simp [hp, hq, hne], fun qs hqs =>
    places_apply _ (by simpa using ⟨hqs p hp, hqs q hq⟩)⟩

theorem Exchanges.bind (hc : Exchanges c cells k) (hd : Exchanges d cells l) :
    Exchanges (c >>= fun _ => d) cells (k + l) := by
  obtain ⟨ps, rfl, hps, hplaces⟩ := hc
  obtain ⟨qs, rfl, hqs, hplaces'⟩ := hd
  refine ⟨ps ++ qs, List.length_append, fun p hp => ?_, fun rs hrs => ?_⟩
  · exact (List.mem_append.1 hp).elim (hps p) (hqs p)
  · rw [List.map_append]
    exact (hplaces rs hrs).bind (hplaces' rs hrs)

theorem Exchanges.mono (hc : Exchanges c as k) (h : ∀ q ∈ qubits as, q ∈ qubits bs) :
    Exchanges c bs k := by
  obtain ⟨ps, hlength, hps, hplaces⟩ := hc
  refine ⟨ps, hlength, fun p hp => ?_, fun qs hqs => hplaces qs fun q hq => hqs q (h q hq)⟩
  obtain ⟨hleft, hright, hne⟩ := hps p hp
  exact ⟨h _ hleft, h _ hright, hne⟩

theorem exchanges_forM {α : Type} {xs : List α} {f : α → Synthesis R Unit}
    (h : ∀ x ∈ xs, Exchanges (f x) cells k) : Exchanges (xs.forM f) cells (xs.length * k) := by
  induction xs with
  | nil => simpa using exchanges_pure cells
  | cons x xs ih =>
    obtain ⟨hx, hxs⟩ := List.forall_mem_cons.1 h
    rw [List.length_cons, Nat.succ_mul, Nat.add_comm]
    exact hx.bind (ih hxs)

theorem swapCells_exchanges (h : Row [a, b] w) :
    Exchanges (swapCells a b : Synthesis R Unit) [a, b] w := by
  have hqubits : qubits [a, b] = a.qubits ++ b.qubits := by simp [qubits]
  have hnodup := h.nodup
  rw [hqubits] at hnodup
  obtain ⟨-, -, hdis⟩ := List.nodup_append'.1 hnodup
  have hlength : (a.qubits.zip b.qubits).length = w := by
    have ha : a.qubits.length = w := h.width a (by simp)
    have hb : b.qubits.length = w := h.width b (by simp)
    simp [ha, hb]
  have hall : Exchanges ((a.qubits.zip b.qubits).forM fun p => Build.swap p.1 p.2 : Synthesis R Unit)
      [a, b] ((a.qubits.zip b.qubits).length * 1) := by
    refine exchanges_forM fun p hp => ?_
    obtain ⟨hp₁, hp₂⟩ := List.of_mem_zip hp
    refine exchanges_swap ?_ ?_ fun heq => hdis hp₁ (heq ▸ hp₂)
    · exact hqubits ▸ List.mem_append_left _ hp₁
    · exact hqubits ▸ List.mem_append_right _ hp₂
  rwa [hlength, Nat.mul_one] at hall

/-! ## Rotations -/

theorem reverse_exchanges (h : Row cells w) :
    Exchanges (reverse cells : Synthesis R Unit) cells (w * (cells.length / 2)) := by
  -- from the ends inwards
  induction cells using List.bidirectionalRec with
  | nil => exact exchanges_pure []
  | singleton a =>
    have hnone : reverse [a] = (pure () : Synthesis R Unit) := by
      unfold reverse
      rw [List.length_singleton]
      rfl
    rw [hnone, List.length_singleton, Nat.mul_zero]
    exact exchanges_pure [a]
  | cons_append a as b ih =>
    have hends : Row ([a, b] ++ as) w := h.perm ((List.perm_append_singleton b as).symm.cons a)
    obtain ⟨houter, hinner, -⟩ := hends.append
    have hhalf : (a :: (as ++ [b])).length / 2 = as.length / 2 + 1 := by
      rw [List.length_cons, List.length_append, List.length_singleton]
      omega
    unfold reverse
    rw [reverse_pairs, hhalf, Nat.mul_succ, Nat.add_comm]
    refine ((swapCells_exchanges houter).mono fun q hq => ?_).bind ((ih hinner).mono fun q hq => ?_)
    all_goals
      rw [mem_qubits] at hq ⊢
      obtain ⟨c, hc, hq⟩ := hq
      exact ⟨c, by simp at hc ⊢; tauto, hq⟩

theorem rotateByReversals_exchanges (h : Row cells w) {r : ℕ} (hr : r ≤ cells.length) :
    Exchanges (rotateByReversals cells r : Synthesis R Unit) cells
      (w * (cells.length / 2) + (w * (r / 2) + w * ((cells.length - r) / 2))) := by
  have hsplit : Row (cells.take r ++ cells.drop r) w := by rwa [List.take_append_drop]
  obtain ⟨hfirst, hlast, -⟩ := hsplit.append
  have hin : ∀ q, q ∈ qubits (cells.take r) ∨ q ∈ qubits (cells.drop r) → q ∈ qubits cells := by
    intro q hq
    rw [← List.take_append_drop r cells, qubits_append]
    exact List.mem_append.2 hq
  have hparts := ((reverse_exchanges (R := R) hfirst).mono fun q hq => hin q (.inl hq)).bind
    ((reverse_exchanges hlast).mono fun q hq => hin q (.inr hq))
  rw [List.length_take_of_le hr, List.length_drop] at hparts
  exact (reverse_exchanges h).bind hparts

theorem neighbours_exchange (h : Row cells w) :
    Exchanges ((cells.zip cells.tail).forM fun (a, b) => swapCells a b : Synthesis R Unit) cells
      (w * (cells.length - 1)) := by
  induction cells with
  | nil => exact exchanges_pure []
  | cons a rest ih =>
    cases rest with
    | nil => exact exchanges_pure [a]
    | cons b rest =>
      have htwo : Row ([a, b] ++ rest) w := h
      have hone : Row ([a] ++ b :: rest) w := h
      have hswap : Exchanges (swapCells a b : Synthesis R Unit) (a :: b :: rest) w :=
        (swapCells_exchanges htwo.append.1).mono fun q hq =>
          (qubits_append [a, b] rest) ▸ List.mem_append_left _ hq
      have hrest := (ih hone.append.2.1).mono fun q hq =>
        show q ∈ qubits (a :: b :: rest) from
          (qubits_append [a] (b :: rest)) ▸ List.mem_append_right _ hq
      have hcount : w * ((a :: b :: rest).length - 1) = w + w * ((b :: rest).length - 1) := by
        simp only [List.length_cons, Nat.add_sub_cancel]
        rw [Nat.mul_succ, Nat.add_comm]
      rw [hcount]
      exact hswap.bind hrest

theorem rotateByOne_exchanges (h : Row cells w) :
    Exchanges (rotateByOne cells : Synthesis R Unit) cells (w * (cells.length - 1)) := by
  have hall := neighbours_exchange (R := R) (h.perm (List.reverse_perm cells))
  rw [List.length_reverse] at hall
  refine hall.mono fun q hq => ?_
  simpa [mem_qubits] using hq

theorem rotateByPlaces_exchanges (h : Row cells w) (r : ℕ) :
    Exchanges (rotateByPlaces cells r : Synthesis R Unit) cells (r * (w * (cells.length - 1))) := by
  induction r with
  | zero =>
    rw [Nat.zero_mul]
    exact exchanges_pure cells
  | succ r ih =>
    rw [Nat.succ_mul, Nat.add_comm (r * _)]
    exact (rotateByOne_exchanges h).bind ih

def rotationCost (w n r : ℕ) : ShiftStrategy → ℕ
  | .doubling => w * (n / 2) + (w * (r / 2) + w * ((n - r) / 2))
  | .naive => r * (w * (n - 1))

theorem rotate_exchanges (h : Row cells w) {r : ℕ} (hr : r ≤ cells.length)
    (strategy : ShiftStrategy) :
    Exchanges (rotate cells r strategy : Synthesis R Unit) cells
      (rotationCost w cells.length r strategy) := by
  cases strategy with
  | doubling => exact rotateByReversals_exchanges h hr
  | naive => exact rotateByPlaces_exchanges h r

theorem rotationCost_doubling_le {n r : ℕ} (hr : r ≤ n) : rotationCost w n r .doubling ≤ w * n := by
  rw [rotationCost, ← Nat.mul_add, ← Nat.mul_add]
  exact Nat.mul_le_mul_left w (by omega)

theorem rotationCost_doubling_le_naive {n r : ℕ} (hpos : r ≠ 0) (hr : r < n) :
    rotationCost w n r .doubling ≤ rotationCost w n r .naive := by
  rw [rotationCost, rotationCost, ← Nat.mul_add, ← Nat.mul_add, Nat.mul_left_comm]
  refine Nat.mul_le_mul_left w ?_
  rcases Nat.lt_or_ge r 2 with hone | htwo
  · obtain rfl : r = 1 := by omega
    omega
  · have hmany : 2 * (n - 1) ≤ r * (n - 1) := Nat.mul_le_mul_right _ htwo
    omega

/-! ## Stages -/

def ControlledSwap (cells : List Variable) (control : QubitId) (i : Instruction R) : Prop :=
  ∃ p ∈ qubits cells, ∃ q ∈ qubits cells, p ≠ q ∧
    i = .ofGate (.ofStandard .cswap) [control, p, q]

theorem ControlledSwap.suits {s : Session R} {control : QubitId} {e : Placement R}
    (h : ControlledSwap cells control e.instruction) (hcontrol : control ∉ qubits cells)
    (hlive : ∀ q ∈ control :: qubits cells, s.allocator.isLive q = true) : e.Suits s := by
  obtain ⟨p, hp, q, hq, hne, heq⟩ := h
  obtain ⟨gate, operands, balanced⟩ := e
  obtain ⟨hgate, rfl, -⟩ := Instruction.mk.inj heq
  obtain rfl := Operation.gate.inj hgate
  have hoperands : ∀ r ∈ [control, p, q], r ∈ control :: qubits cells := by simp [hp, hq]
  refine ⟨rfl, ?_, fun r hr => hlive r (hoperands r hr), fun c hc => absurd hc List.not_mem_nil⟩
  have hcp : control ≠ p := fun heq => hcontrol (heq ▸ hp)
  have hcq : control ≠ q := fun heq => hcontrol (heq ▸ hq)
  simp [hcp, hcq, hne]

variable [Scalar R]

def stageCost (w n : ℕ) (strategy : ShiftStrategy) (j : ℕ) : ℕ :=
  if bitWeight j % n = 0 then 0 else rotationCost w n (bitWeight j % n) strategy

theorem stageCost_doubling_le {n : ℕ} (hn : 0 < n) (j : ℕ) : stageCost w n .doubling j ≤ w * n := by
  unfold stageCost
  split
  · exact Nat.zero_le _
  · exact rotationCost_doubling_le (Nat.mod_lt _ hn).le

theorem stageCost_doubling_le_naive {n : ℕ} (hn : 0 < n) (j : ℕ) :
    stageCost w n .doubling j ≤ stageCost w n .naive j := by
  unfold stageCost
  split
  · exact Nat.le_refl 0
  · next hr => exact rotationCost_doubling_le_naive hr (Nat.mod_lt _ hn)

theorem Exchanges.control (hc : Exchanges c cells k) {control : QubitId} {qs : List QubitId}
    (hcontrol : control ∈ qs) (hqs : ∀ q ∈ qubits cells, q ∈ qs) :
    ∃ es : List (Placement R), es.length = k ∧
      (∀ e ∈ es, ControlledSwap cells control e.instruction) ∧
      Places (Build.control [control] c) qs es := by
  obtain ⟨ps, rfl, hps, hplaces⟩ := hc
  refine ⟨(ps.map exchange).map (.under [control]), by simp, fun e he => ?_,
    (hplaces qs hqs).control fun q hq => List.mem_singleton.1 hq ▸ hcontrol⟩
  obtain ⟨_, he', rfl⟩ := List.mem_map.1 he
  obtain ⟨p, hp, rfl⟩ := List.mem_map.1 he'
  obtain ⟨hleft, hright, hne⟩ := hps p hp
  exact ⟨p.1, hleft, p.2, hright, hne, rfl⟩

theorem stages_exchange (h : Row cells w) (hpos : 0 < cells.length) (strategy : ShiftStrategy)
    {qs : List QubitId} (hqs : ∀ q ∈ qubits cells, q ∈ qs) (j : ℕ) {offset : List QubitId}
    (hoffset : ∀ q ∈ offset, q ∈ qs) : ∃ blocks : List (List (Placement R)),
      List.Forall₂ (fun q es => ∀ e ∈ es, ControlledSwap cells q e.instruction) offset blocks ∧
      blocks.map List.length =
        (List.range' j offset.length).map (stageCost w cells.length strategy) ∧
      Places (stages cells strategy j offset : Synthesis R Unit) qs blocks.flatten := by
  induction offset generalizing j with
  | nil => exact ⟨[], .nil, rfl, places_pure qs⟩
  | cons control rest ih =>
    obtain ⟨hcontrol, hrest⟩ := List.forall_mem_cons.1 hoffset
    obtain ⟨blocks, hswaps, hlengths, hplaces⟩ := ih (j + 1) hrest
    have hfirst : ∃ es : List (Placement R), es.length = stageCost w cells.length strategy j ∧
        (∀ e ∈ es, ControlledSwap cells control e.instruction) ∧
        Places (if bitWeight j % cells.length ≠ 0 then
          Build.control [control] (rotate cells (bitWeight j % cells.length) strategy)
        else pure () : Synthesis R Unit) qs es := by
      by_cases hr : bitWeight j % cells.length = 0
      · refine ⟨[], by rw [stageCost, if_pos hr]; rfl, by simp, ?_⟩
        rw [if_neg (not_not.2 hr)]
        exact places_pure qs
      · rw [stageCost, if_neg hr, if_pos hr]
        exact (rotate_exchanges h (Nat.mod_lt _ hpos).le strategy).control hcontrol hqs
    obtain ⟨es, hlength, hes, hplaced⟩ := hfirst
    refine ⟨es :: blocks, .cons hes hswaps, ?_, ?_⟩
    · rw [List.map_cons, hlength, hlengths, List.length_cons, List.range'_succ, List.map_cons]
    · rw [List.flatten_cons, stages_cons]
      exact hplaced.bind hplaces

variable {s : Session R} {offset : Variable}

theorem cyclic_blocks (h : Row cells w) (hpos : 0 < cells.length) (hw : 1 ≤ w ∧ w ≤ 32)
    (hoffset : 1 ≤ offset.width ∧ offset.width ≤ 32)
    (hdis : ∀ q ∈ offset.qubits, q ∉ qubits cells) (strategy : ShiftStrategy) (hs : s.Steady)
    (hlive : ∀ q ∈ offset.qubits ++ qubits cells, s.allocator.isLive q = true) :
    ∃ (t : Session R) (blocks : List (List (Instruction R))),
      (cyclic cells offset strategy).exec s = (.ok (), t) ∧
      t.emissions = s.emissions ++ blocks.flatten ∧
      List.Forall₂ (fun q block => ∀ i ∈ block, ControlledSwap cells q i) offset.qubits blocks ∧
      blocks.map List.length =
        (List.range offset.width).map (stageCost w cells.length strategy) := by
  obtain ⟨blocks, hswaps, hlengths, hplaces⟩ := stages_exchange (R := R) h hpos strategy
    (fun q hq => List.mem_append_right offset.qubits hq) 0
    (fun q hq => List.mem_append_left (qubits cells) hq)
  have hcells := (checks_cells "cyclic_shift" cells).1 (h.uniform hpos hw)
  have hwidth := (Synthesis.checks_width "cyclic_shift" offset.width).1 hoffset
  have hplaced : Places (cyclic cells offset strategy : Synthesis R Unit)
      (offset.qubits ++ qubits cells) blocks.flatten := by
    unfold cyclic
    rw [hcells, hwidth]
    exact hplaces
  have hsuits : ∀ e ∈ blocks.flatten, e.Suits s := by
    intro e he
    obtain ⟨block, hblock, he⟩ := List.mem_flatten.1 he
    obtain ⟨k, hk, rfl⟩ := List.getElem_of_mem hblock
    have hk' : k < offset.qubits.length := hswaps.length_eq ▸ hk
    have hmem := List.getElem_mem hk'
    refine (hswaps.get hk' hk e he).suits (hdis _ hmem) fun q hq => hlive q ?_
    rcases List.mem_cons.1 hq with rfl | hq
    · exact List.mem_append_left _ hmem
    · exact List.mem_append_right _ hq
  obtain ⟨t, hexec, hsent⟩ := hplaced.sent hs hlive hsuits
  refine ⟨t, blocks.map (List.map Placement.instruction), hexec, ?_, ?_, ?_⟩
  · rw [hsent.emissions, List.map_flatten]
  · refine List.forall₂_map_right_iff.2 (hswaps.imp fun q block hblock i hi => ?_)
    obtain ⟨e, he, rfl⟩ := List.mem_map.1 hi
    exact hblock e he
  · rw [List.map_map, List.range_eq_range', ← show offset.qubits.length = offset.width from rfl,
      ← hlengths]
    exact List.map_congr_left fun block _ => List.length_map _

theorem stages_poisoned (hp : s.isPoisoned = true) (strategy : ShiftStrategy) (j : ℕ)
    (offset : List QubitId) :
    ((stages cells strategy j offset : Synthesis R Unit).exec s).2 = s := by
  induction offset generalizing j with
  | nil => rfl
  | cons control rest ih =>
    rw [stages_cons]
    split
    · have hstop := stops_within (ε := SynthesisError) hp (.controlled [control]) "control"
        (rotate cells (bitWeight j % cells.length) strategy)
      exact congrArg Prod.snd (hstop.bind fun _ => stages cells strategy (j + 1) rest)
    · exact ih (j + 1)

theorem cyclic_poisoned (hp : s.isPoisoned = true) (strategy : ShiftStrategy) :
    ((cyclic cells offset strategy : Synthesis R Unit).exec s).2 = s := by
  unfold cyclic
  rcases checkCells "cyclic_shift" cells with e | _
  · rfl
  · rcases Synthesis.checkWidth "cyclic_shift" offset.width with e | _
    · rfl
    · exact stages_poisoned hp strategy 0 offset.qubits

/-- The cost of cyclic shifts. With no open environment, on distinct qubits in use, a shift by
reversals emits nothing but swaps of qubits of the cells under bits of the offset: for each bit no
more than the cells have qubits, and altogether no more than a shift by single places emits. -/
theorem cyclic_cost (hs : s.Reachable) (hopen : s.numOpen = 0) (hpos : 0 < cells.length)
    (hwidth : ∀ c ∈ cells, c.width = w) (hw : 1 ≤ w ∧ w ≤ 32)
    (hoffset : 1 ≤ offset.width ∧ offset.width ≤ 32)
    (hnodup : (offset.qubits ++ qubits cells).Nodup)
    (hlive : ∀ q ∈ offset.qubits ++ qubits cells, s.allocator.isLive q = true) :
    (s.isPoisoned = false → ∃ (t u : Session R) (blocks : List (List (Instruction R)))
        (l : List (Instruction R)),
      (cyclic cells offset .doubling).exec s = (.ok (), t) ∧
      t.emissions = s.emissions ++ blocks.flatten ∧
      List.Forall₂ (fun q block => (∀ i ∈ block, ControlledSwap cells q i) ∧
        block.length ≤ w * cells.length) offset.qubits blocks ∧
      blocks.flatten.length ≤ w * cells.length * offset.width ∧
      (offset.width = Nat.clog 2 cells.length →
        blocks.flatten.length ≤ w * cells.length * Nat.clog 2 cells.length) ∧
      (cyclic cells offset .naive).exec s = (.ok (), u) ∧ u.emissions = s.emissions ++ l ∧
      blocks.flatten.length ≤ l.length) ∧
    (s.isPoisoned = true → ∀ strategy : ShiftStrategy,
      ((cyclic cells offset strategy : Synthesis R Unit).exec s).2 = s) := by
  obtain ⟨-, hcells, hdis⟩ := List.nodup_append'.1 hnodup
  refine ⟨fun hp => ?_, fun hp strategy => cyclic_poisoned hp strategy⟩
  have hblocks := fun strategy => cyclic_blocks ⟨hwidth, hcells⟩ hpos hw hoffset
    (fun q hq hq' => hdis hq hq') strategy (hs.steady hp hopen) hlive
  obtain ⟨t, blocks, hexec, hemissions, hswaps, hlengths⟩ := hblocks .doubling
  obtain ⟨u, others, hexec', hemissions', -, hlengths'⟩ := hblocks .naive
  -- each block is bounded on its own, and there is one for each bit
  have htotal : blocks.flatten.length ≤ w * cells.length * offset.width := by
    rw [List.length_flatten, hlengths, Nat.mul_comm _ offset.width]
    refine (List.sum_le_card_nsmul _ (w * cells.length) fun k hk => ?_).trans (by simp)
    obtain ⟨j, -, rfl⟩ := List.mem_map.1 hk
    exact stageCost_doubling_le hpos j
  refine ⟨t, u, blocks, others.flatten, hexec, hemissions, ?_, htotal, fun hbits => hbits ▸ htotal,
    hexec', hemissions', ?_⟩
  · refine List.forall₂_iff_get.2 ⟨hswaps.length_eq, fun k hk hk' => ⟨hswaps.get hk hk', ?_⟩⟩
    have hlength : blocks[k].length ∈ blocks.map List.length :=
      List.mem_map_of_mem (List.getElem_mem hk')
    rw [hlengths] at hlength
    obtain ⟨j, -, hj⟩ := List.mem_map.1 hlength
    exact hj ▸ stageCost_doubling_le hpos j
  · rw [List.length_flatten, List.length_flatten, hlengths, hlengths']
    exact List.sum_le_sum fun j _ => stageCost_doubling_le_naive hpos j

def quintet : List Variable := [0, 1, 2, 3, 4].map fun q => ⟨"cell", [q], .integer false⟩

theorem cyclic_cost_quintet : ∃ (s t : Session ℝ) (l : List (Instruction ℝ)),
    s = (Session.new {}).after [.allocate 5 "cells", .allocate 3 "offset"] ∧
      (cyclic quintet ⟨"offset", [5, 6, 7], .integer false⟩ .doubling).exec s = (.ok (), t) ∧
      t.emissions = s.emissions ++ l ∧ l.length ≤ 1 * 5 * 3 := by
  obtain ⟨hcost, -⟩ := @cyclic_cost ℝ quintet 1 _ _ ⟨"offset", [5, 6, 7], .integer false⟩
    ((Session.Reachable.new {}).after [.allocate 5 "cells", .allocate 3 "offset"])
    (by decide +kernel) (by decide) (by decide) (by decide) (by decide) (by decide)
    (by decide +kernel)
  obtain ⟨t, -, blocks, -, hexec, hemissions, -, -, htotal, -⟩ := hcost (by decide +kernel)
  exact ⟨_, t, blocks.flatten, rfl, hexec, hemissions, htotal (by decide +kernel)⟩

end Ancilla.Shift
