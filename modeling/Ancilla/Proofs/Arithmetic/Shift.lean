import Ancilla.Proofs.Arithmetic.Rejection
import Mathlib.Data.List.Induction
import Mathlib.Data.List.Rotate

/-!
Cyclic shifts on basis states. What a row of cells holds is a list of numbers. An exchange of two
cells reverses their list, exchanges from the ends inwards reverse the whole list, and both ways to
rotate cells rotate it. The rotations under the bits of an offset add up to one by the offset, modulo
the number of cells.
-/

namespace Ancilla.Shift

open Build Operator

/-! ## Rows of cells -/

def qubits (cells : List Variable) : List QubitId := cells.flatMap Variable.qubits

def contents (cells : List Variable) (y : ℕ) : List ℕ := cells.map fun c => reading c.qubits y

/-- Cells of one width on distinct qubits. -/
structure Row (cells : List Variable) (w : ℕ) : Prop where
  width : ∀ c ∈ cells, c.width = w
  nodup : (qubits cells).Nodup

variable {as bs cells : List Variable} {a b : Variable} {w y z : ℕ}

@[simp]
theorem length_contents (cells : List Variable) (y : ℕ) : (contents cells y).length = cells.length :=
  List.length_map _

theorem mem_qubits {q : QubitId} : q ∈ qubits cells ↔ ∃ c ∈ cells, q ∈ c.qubits := List.mem_flatMap

theorem qubits_append (as bs : List Variable) : qubits (as ++ bs) = qubits as ++ qubits bs :=
  List.flatMap_append

theorem contents_append (as bs : List Variable) (y : ℕ) :
    contents (as ++ bs) y = contents as y ++ contents bs y := List.map_append

theorem contents_cons (a : Variable) (as : List Variable) (y : ℕ) :
    contents (a :: as) y = reading a.qubits y :: contents as y := rfl

theorem take_contents (as bs : List Variable) (y : ℕ) :
    (contents (as ++ bs) y).take as.length = contents as y := by
  rw [contents_append]
  exact List.take_left' (length_contents as y)

theorem drop_contents (as bs : List Variable) (y : ℕ) :
    (contents (as ++ bs) y).drop as.length = contents bs y := by
  rw [contents_append]
  exact List.drop_left' (length_contents as y)

theorem contents_of_agree (h : ∀ q, q ∉ qubits as → z.testBit q = y.testBit q)
    (hdis : ∀ q ∈ qubits bs, q ∉ qubits as) : contents bs z = contents bs y :=
  List.map_congr_left fun c hc =>
    reading_congr fun q hq => h q (hdis q (mem_qubits.2 ⟨c, hc, hq⟩))

theorem Row.append (h : Row (as ++ bs) w) :
    Row as w ∧ Row bs w ∧ ∀ q ∈ qubits as, q ∉ qubits bs := by
  have hnodup := h.nodup
  rw [qubits_append] at hnodup
  obtain ⟨has, hbs, hdis⟩ := List.nodup_append'.1 hnodup
  exact ⟨⟨fun c hc => h.width c (List.mem_append_left _ hc), has⟩,
    ⟨fun c hc => h.width c (List.mem_append_right _ hc), hbs⟩, fun q hq hq' => hdis hq hq'⟩

theorem Row.perm (h : Row as w) (hperm : bs.Perm as) : Row bs w :=
  ⟨fun c hc => h.width c (hperm.mem_iff.1 hc), (hperm.flatMap_right _).nodup_iff.2 h.nodup⟩

def Rearranges (c : Synthesis ℝ Unit) (cells : List Variable) (f : List ℕ → List ℕ) : Prop :=
  ∃ A, c.Realizes (qubits cells) A ∧ ∀ y, ∃ z, A (ket y) = ket z ∧
    contents cells z = f (contents cells y) ∧ ∀ q, q ∉ qubits cells → z.testBit q = y.testBit q

variable {c k : Synthesis ℝ Unit} {f g : List ℕ → List ℕ}

theorem rearranges_pure (cells : List Variable) : Rearranges (pure ()) cells id :=
  ⟨1, realizes_pure _, fun y => ⟨y, rfl, rfl, fun _ _ => rfl⟩⟩

theorem Rearranges.bind (hc : Rearranges c cells f) (hk : Rearranges k cells g) :
    Rearranges (c >>= fun _ => k) cells (g ∘ f) := by
  obtain ⟨A, hA, hact⟩ := hc
  obtain ⟨B, hB, hact'⟩ := hk
  refine ⟨B * A, hA.bind hB, fun y => ?_⟩
  obtain ⟨z, hz, hcontents, hout⟩ := hact y
  obtain ⟨x, hx, hcontents', hout'⟩ := hact' z
  refine ⟨x, ?_, ?_, fun q hq => (hout' q hq).trans (hout q hq)⟩
  · rw [Module.End.mul_apply, hz, hx]
  · rw [hcontents', hcontents]
    rfl

theorem Rearranges.congr (hc : Rearranges c cells f) (hfg : ∀ l, l.length = cells.length → f l = g l) :
    Rearranges c cells g := by
  obtain ⟨A, hA, hact⟩ := hc
  refine ⟨A, hA, fun y => ?_⟩
  obtain ⟨z, hz, hcontents, hout⟩ := hact y
  exact ⟨z, hz, hcontents.trans (hfg _ (length_contents cells y)), hout⟩

theorem Rearranges.first (hc : Rearranges c as f) (hdis : ∀ q ∈ qubits as, q ∉ qubits bs) :
    Rearranges c (as ++ bs) fun l => f (l.take as.length) ++ l.drop as.length := by
  obtain ⟨A, hA, hact⟩ := hc
  refine ⟨A, hA.mono fun q hq => ?_, fun y => ?_⟩
  · rw [qubits_append]
    exact List.mem_append_left _ hq
  · obtain ⟨z, hz, hcontents, hout⟩ := hact y
    have hkept := contents_of_agree hout fun q hq hq' => hdis q hq' hq
    refine ⟨z, hz, ?_, fun q hq => hout q fun hmem => hq ?_⟩
    · simp only [take_contents, drop_contents]
      rw [contents_append, hcontents, hkept]
    · rw [qubits_append]
      exact List.mem_append_left _ hmem

theorem Rearranges.last (hc : Rearranges c bs f) (hdis : ∀ q ∈ qubits as, q ∉ qubits bs) :
    Rearranges c (as ++ bs) fun l => l.take as.length ++ f (l.drop as.length) := by
  obtain ⟨A, hA, hact⟩ := hc
  refine ⟨A, hA.mono fun q hq => ?_, fun y => ?_⟩
  · rw [qubits_append]
    exact List.mem_append_right _ hq
  · obtain ⟨z, hz, hcontents, hout⟩ := hact y
    have hkept := contents_of_agree hout hdis
    refine ⟨z, hz, ?_, fun q hq => hout q fun hmem => hq ?_⟩
    · simp only [take_contents, drop_contents]
      rw [contents_append, hcontents, hkept]
    · rw [qubits_append]
      exact List.mem_append_right _ hmem

theorem Rearranges.backwards (hc : Rearranges c cells.reverse f) :
    Rearranges c cells fun l => (f l.reverse).reverse := by
  have hqubits : ∀ q, q ∈ qubits cells.reverse ↔ q ∈ qubits cells := fun q => by
    rw [mem_qubits, mem_qubits]
    simp only [List.mem_reverse]
  have hcontents : ∀ x, contents cells x = (contents cells.reverse x).reverse := fun x => by
    rw [contents, contents, List.map_reverse, List.reverse_reverse]
  obtain ⟨A, hA, hact⟩ := hc
  refine ⟨A, hA.mono fun q hq => (hqubits q).1 hq, fun y => ?_⟩
  obtain ⟨z, hz, hlist, hout⟩ := hact y
  refine ⟨z, hz, ?_, fun q hq => hout q fun hmem => hq ((hqubits q).1 hmem)⟩
  simp only []
  rw [hcontents z, hcontents y, hlist, List.reverse_reverse]

/-! ## Reversals -/

theorem swapCells_rearranges (h : Row [a, b] w) : Rearranges (swapCells a b) [a, b] List.reverse := by
  have hqubits : qubits [a, b] = a.qubits ++ b.qubits := by simp [qubits]
  have hnodup := h.nodup
  rw [hqubits] at hnodup
  have hlength : a.qubits.length = b.qubits.length :=
    (h.width a (by simp)).trans (h.width b (by simp)).symm
  obtain ⟨ha, hb, hdis⟩ := List.nodup_append'.1 hnodup
  obtain ⟨A, hA, hact⟩ := Modular.exchanges_realize hlength hnodup
  refine ⟨A, hqubits ▸ hA, fun y => ⟨_, hact y, ?_, fun q hq => ?_⟩⟩
  · have hlt : reading b.qubits y < 2 ^ a.qubits.length := hlength ▸ reading_lt b.qubits y
    have hlt' : reading a.qubits y < 2 ^ b.qubits.length := hlength ▸ reading_lt a.qubits y
    show [reading a.qubits _, reading b.qubits _] = [reading b.qubits y, reading a.qubits y]
    rw [reading_write_of_lt ha hlt, reading_write_of_disjoint fun q hq hq' => hdis hq' hq,
      reading_write_of_lt hb hlt']
  · rw [hqubits, List.mem_append, not_or] at hq
    rw [testBit_write_of_not_mem hq.1, testBit_write_of_not_mem hq.2]

theorem reverse_pairs (a b : Variable) (as : List Variable) :
    ((a :: (as ++ [b])).take ((a :: (as ++ [b])).length / 2)).zip (a :: (as ++ [b])).reverse =
      (a, b) :: (as.take (as.length / 2)).zip as.reverse := by
  have hhalf : (a :: (as ++ [b])).length / 2 = as.length / 2 + 1 := by
    rw [List.length_cons, List.length_append, List.length_singleton]
    omega
  have hreverse : (a :: (as ++ [b])).reverse = b :: (as.reverse ++ [a]) := by simp
  have hshort : (as.take (as.length / 2)).length ≤ as.reverse.length := by
    rw [List.length_take, List.length_reverse]
    exact Nat.min_le_right _ _
  rw [hhalf, hreverse, List.take_succ_cons, List.zip_cons_cons,
    List.take_append_of_le_length (Nat.div_le_self _ 2)]
  generalize as.take (as.length / 2) = l at hshort
  congr 1
  generalize as.reverse = r at hshort
  induction l generalizing r with
  | nil => rfl
  | cons x l ih =>
    cases r with
    | nil => exact absurd hshort (Nat.not_succ_le_zero _)
    | cons x' r =>
      rw [List.cons_append, List.zip_cons_cons, List.zip_cons_cons, ih r (Nat.le_of_succ_le_succ hshort)]

theorem reverse_rearranges (h : Row cells w) : Rearranges (reverse cells) cells List.reverse := by
  -- from the ends inwards
  induction cells using List.bidirectionalRec with
  | nil => exact (rearranges_pure []).congr fun l hl => by rw [List.length_eq_zero_iff.1 hl]; rfl
  | singleton a =>
    have hnone : reverse [a] = (pure () : Synthesis ℝ Unit) := by
      unfold reverse
      rw [List.length_singleton]
      rfl
    rw [hnone]
    refine (rearranges_pure [a]).congr fun l hl => ?_
    obtain ⟨x, rfl⟩ := List.length_eq_one_iff.1 hl
    rfl
  | cons_append a as b ih =>
    have hends : Row ([a, b] ++ as) w := h.perm ((List.perm_append_singleton b as).symm.cons a)
    obtain ⟨houter, hinner, hdis⟩ := hends.append
    obtain ⟨A, hA, hact⟩ := swapCells_rearranges houter
    obtain ⟨B, hB, hact'⟩ := ih hinner
    have hin : ∀ q, q ∈ qubits (a :: (as ++ [b])) ↔ q ∈ qubits [a, b] ∨ q ∈ qubits as := by
      intro q
      simp only [mem_qubits, List.mem_cons, List.mem_append, List.not_mem_nil]
      grind
    refine ⟨B * A, ?_, fun y => ?_⟩
    · unfold reverse
      rw [reverse_pairs]
      exact (hA.mono fun q hq => (hin q).2 (.inl hq)).bind (hB.mono fun q hq => (hin q).2 (.inr hq))
    · obtain ⟨x, hx, hcontents, hout⟩ := hact y
      obtain ⟨z, hz, hcontents', hout'⟩ := hact' x
      have hinside := contents_of_agree hout fun q hq hq' => hdis q hq' hq
      have houtside := contents_of_agree hout' hdis
      obtain ⟨hfirst, hlast⟩ : reading a.qubits z = reading b.qubits y ∧
          reading b.qubits z = reading a.qubits y := by
        have hboth := houtside.trans hcontents
        simpa [contents] using hboth
      refine ⟨z, ?_, ?_, fun q hq => ?_⟩
      · rw [Module.End.mul_apply, hx, hz]
      · rw [contents_cons, contents_append, contents_cons, hfirst, hlast, hcontents', hinside,
          contents_cons, contents_append, List.reverse_cons, List.reverse_append]
        rfl
      · rw [hin, not_or] at hq
        exact (hout' q hq.2).trans (hout q hq.1)

/-! ## Rotations -/

def turned (k : ℕ) (l : List ℕ) : List ℕ := l.rotate (k * (l.length - 1))

theorem length_turned (k : ℕ) (l : List ℕ) : (turned k l).length = l.length := List.length_rotate ..

theorem turned_zero (l : List ℕ) : turned 0 l = l := by rw [turned, Nat.zero_mul, List.rotate_zero]

theorem turned_turned (j k : ℕ) (l : List ℕ) : turned k (turned j l) = turned (j + k) l := by
  rw [turned, length_turned, turned, List.rotate_rotate, ← Nat.add_mul, turned]

theorem turned_congr {j k : ℕ} {l : List ℕ} (h : j ≡ k [MOD l.length]) : turned j l = turned k l := by
  have hplaces : j * (l.length - 1) % l.length = k * (l.length - 1) % l.length := h.mul_right _
  rw [turned, ← List.rotate_mod, hplaces, List.rotate_mod, turned]

theorem turned_eq_rotate {k : ℕ} {l : List ℕ} (hk : k ≤ l.length) :
    turned k l = l.rotate (l.length - k) := by
  have hback : k * (l.length - 1) + k ≡ l.length - k + k [MOD l.length] := by
    rw [Nat.sub_add_cancel hk]
    cases hl : l.length with
    | zero =>
      obtain rfl : k = 0 := by omega
      rfl
    | succ n =>
      rw [Nat.add_sub_cancel, ← Nat.mul_succ]
      exact (Nat.modEq_zero_iff_dvd.2 ⟨k, Nat.mul_comm ..⟩).trans
        (Nat.modEq_zero_iff_dvd.2 (dvd_refl _)).symm
  have hsame : k * (l.length - 1) % l.length = (l.length - k) % l.length :=
    Nat.ModEq.add_right_cancel' k hback
  rw [turned, ← List.rotate_mod, hsame, List.rotate_mod]

theorem getElem_turned {k i j : ℕ} {l : List ℕ} (hi : i < l.length) (hj : j < (turned k l).length)
    (hij : j = (i + k) % l.length) : (turned k l)[j] = l[i] := by
  have hplace : (j + k * (l.length - 1)) % l.length = i := by
    obtain ⟨n, hn⟩ : ∃ n, l.length = n + 1 := Nat.exists_eq_succ_of_ne_zero (by omega)
    rw [hij, Nat.mod_add_mod, hn, Nat.add_sub_cancel, Nat.add_assoc, Nat.add_comm k, ← Nat.mul_succ,
      Nat.add_mul_mod_self_right, Nat.mod_eq_of_lt (by omega)]
  simp only [turned, List.getElem_rotate, hplace]

theorem rotateByReversals_rearranges (h : Row cells w) {r : ℕ} (hr : r ≤ cells.length) :
    Rearranges (rotateByReversals cells r) cells (turned r) := by
  have hsplit := List.take_append_drop r cells
  have hlength : (cells.take r).length = r := List.length_take_of_le hr
  obtain ⟨hlow, hhigh, hdis⟩ := (hsplit.symm ▸ h : Row (cells.take r ++ cells.drop r) w).append
  have hfirst := (reverse_rearranges hlow).first hdis
  have hlast := (reverse_rearranges hhigh).last hdis
  rw [hsplit, hlength] at hfirst hlast
  refine ((reverse_rearranges h).bind (hfirst.bind hlast)).congr fun l hl => ?_
  have htake : ((l.reverse.take r).reverse).length = r := by
    rw [List.length_reverse, List.length_take, List.length_reverse, hl, Nat.min_eq_left hr]
  show (((l.reverse.take r).reverse ++ l.reverse.drop r).take r ++
    (((l.reverse.take r).reverse ++ l.reverse.drop r).drop r).reverse) = turned r l
  rw [List.take_left' htake, List.drop_left' htake, List.take_reverse, List.drop_reverse,
    List.reverse_reverse, List.reverse_reverse, turned_eq_rotate (hl ▸ hr),
    List.rotate_eq_drop_append_take (Nat.sub_le _ _)]

theorem exchanges_rearrange (h : Row cells w) :
    Rearranges ((cells.zip cells.tail).forM fun (a, b) => swapCells a b) cells (List.rotate · 1) := by
  induction cells with
  | nil => exact (rearranges_pure []).congr fun l hl => by rw [List.length_eq_zero_iff.1 hl]; rfl
  | cons a rest ih =>
    cases rest with
    | nil =>
      refine (rearranges_pure [a]).congr fun l hl => ?_
      obtain ⟨x, rfl⟩ := List.length_eq_one_iff.1 hl
      exact (List.rotate_singleton x 1).symm
    | cons b rest =>
      have htwo : Row ([a, b] ++ rest) w := h
      have hone : Row ([a] ++ b :: rest) w := h
      obtain ⟨hpair, -, hdis⟩ := htwo.append
      obtain ⟨-, hrest, hdis'⟩ := hone.append
      have hswap := (swapCells_rearranges hpair).first hdis
      refine (hswap.bind ((ih hrest).last hdis')).congr fun l hl => ?_
      obtain ⟨x, l, rfl⟩ := List.exists_cons_of_length_eq_add_one hl
      obtain ⟨x', l, rfl⟩ := List.exists_cons_of_length_eq_add_one (Nat.succ.inj hl)
      simp

theorem rotateByOne_rearranges (h : Row cells w) :
    Rearranges (rotateByOne cells) cells (turned 1) := by
  refine (exchanges_rearrange (h.perm (List.reverse_perm cells))).backwards.congr fun l hl => ?_
  rw [List.rotate_reverse, List.reverse_reverse]
  rcases Nat.lt_or_ge 1 l.length with hlong | hshort
  · rw [Nat.mod_eq_of_lt hlong, turned_eq_rotate hlong.le]
  · have hsame : ∀ n, l.rotate n = l := by
      intro n
      match l, hshort with
      | [], _ => exact List.rotate_nil n
      | [x], _ => exact List.rotate_singleton x n
    rw [hsame, turned, hsame]

theorem rotateByPlaces_rearranges (h : Row cells w) (r : ℕ) :
    Rearranges (rotateByPlaces cells r) cells (turned r) := by
  induction r with
  | zero => exact (rearranges_pure cells).congr fun l _ => (turned_zero l).symm
  | succ r ih =>
    refine ((rotateByOne_rearranges h).bind ih).congr fun l _ => ?_
    rw [Function.comp_apply, turned_turned, Nat.add_comm]

theorem rotate_rearranges (h : Row cells w) {r : ℕ} (hr : r ≤ cells.length) (strategy : ShiftStrategy) :
    Rearranges (rotate cells r strategy) cells (turned r) := by
  cases strategy with
  | doubling => exact rotateByReversals_rearranges h hr
  | naive => exact rotateByPlaces_rearranges h r

/-! ## Offsets -/

theorem stages_cons {R : Type} [Scalar R] (cells : List Variable) (strategy : ShiftStrategy) (j : ℕ)
    (control : QubitId) (rest : List QubitId) :
    (stages cells strategy j (control :: rest) : Synthesis R Unit) =
      (if bitWeight j % cells.length ≠ 0 then
          Build.control [control] (rotate cells (bitWeight j % cells.length) strategy)
        else pure ()) >>= fun _ => stages cells strategy (j + 1) rest := by
  rw [stages]
  split <;> rfl

theorem stage_realizes (h : Row cells w) (hpos : 0 < cells.length) (strategy : ShiftStrategy) (j : ℕ)
    {control : QubitId} (hcontrol : control ∉ qubits cells) :
    ∃ A, Realizes (if bitWeight j % cells.length ≠ 0 then
          Build.control [control] (rotate cells (bitWeight j % cells.length) strategy)
        else pure () : Synthesis ℝ Unit) (control :: qubits cells) A ∧
      ∀ y, ∃ z, A (ket y) = ket z ∧
        contents cells z = turned (2 ^ j * (y.testBit control).toNat) (contents cells y) ∧
        ∀ q, q ∉ qubits cells → z.testBit q = y.testBit q := by
  have hplaces : bitWeight j % cells.length ≡ 2 ^ j [MOD cells.length] := Nat.mod_modEq _ _
  have hbound : bitWeight j % cells.length ≤ cells.length := (Nat.mod_lt _ hpos).le
  -- whole rounds are left out, and only the remainder matters
  generalize bitWeight j % cells.length = r at hplaces hbound
  by_cases hr : r = 0
  · rw [if_neg (by simpa using hr)]
    refine ⟨1, realizes_pure _, fun y => ⟨y, rfl, ?_, fun _ _ => rfl⟩⟩
    have hwhole : 2 ^ j * (y.testBit control).toNat ≡ 0 [MOD (contents cells y).length] := by
      rw [length_contents]
      have hnone := (hr ▸ hplaces).symm.mul_right (y.testBit control).toNat
      rwa [Nat.zero_mul] at hnone
    rw [turned_congr hwhole, turned_zero]
  · rw [if_pos hr]
    obtain ⟨A, hA, hact⟩ := rotate_rearranges h hbound strategy
    have hcontrols : ∀ q ∈ qubits cells, q ∉ [control] := fun q hq hmem =>
      hcontrol (List.mem_singleton.1 hmem ▸ hq)
    refine ⟨controlled [control] A, hA.control (List.nodup_singleton control) hcontrols,
      fun y => ?_⟩
    rw [controlled_ket]
    cases hbit : y.testBit control with
    | false =>
      have hread : ¬AllRead [control] y := by simp [AllRead, hbit]
      refine ⟨y, if_neg hread, ?_, fun _ _ => rfl⟩
      rw [Bool.toNat_false, Nat.mul_zero, turned_zero]
    | true =>
      have hread : AllRead [control] y := by simp [AllRead, hbit]
      obtain ⟨z, hz, hcontents, hout⟩ := hact y
      refine ⟨z, (if_pos hread).trans hz, ?_, hout⟩
      rw [hcontents, Bool.toNat_true, Nat.mul_one]
      refine turned_congr ?_
      rw [length_contents]
      exact hplaces

theorem stages_realizes (h : Row cells w) (hpos : 0 < cells.length) (strategy : ShiftStrategy) (j : ℕ)
    {offset : List QubitId} (hdis : ∀ q ∈ offset, q ∉ qubits cells) :
    ∃ A, Realizes (stages cells strategy j offset : Synthesis ℝ Unit) (offset ++ qubits cells) A ∧
      ∀ y, ∃ z, A (ket y) = ket z ∧
        contents cells z = turned (2 ^ j * reading offset y) (contents cells y) ∧
        ∀ q, q ∉ qubits cells → z.testBit q = y.testBit q := by
  -- over the bits from the lowest up, each of twice the places of the one below
  induction offset generalizing j with
  | nil =>
    refine ⟨1, realizes_pure _, fun y => ⟨y, rfl, ?_, fun _ _ => rfl⟩⟩
    rw [reading, Nat.mul_zero, turned_zero]
  | cons q rest ih =>
    obtain ⟨A, hA, hact⟩ := stage_realizes h hpos strategy j (hdis q List.mem_cons_self)
    obtain ⟨B, hB, hact'⟩ := ih (j + 1) fun p hp => hdis p (List.mem_cons_of_mem _ hp)
    refine ⟨B * A, ?_, fun y => ?_⟩
    · have hin : ∀ p ∈ q :: qubits cells, p ∈ q :: rest ++ qubits cells := by
        intro p hp
        rcases List.mem_cons.1 hp with rfl | hp
        · exact List.mem_append_left _ List.mem_cons_self
        · exact List.mem_append_right _ hp
      rw [stages_cons]
      exact (hA.mono hin).bind (hB.mono fun p hp => List.mem_cons_of_mem _ hp)
    · obtain ⟨x, hx, hcontents, hout⟩ := hact y
      obtain ⟨z, hz, hcontents', hout'⟩ := hact' x
      have hread : reading rest x = reading rest y :=
        reading_congr fun p hp => hout p (hdis p (List.mem_cons_of_mem _ hp))
      refine ⟨z, ?_, ?_, fun p hp => (hout' p hp).trans (hout p hp)⟩
      · rw [Module.End.mul_apply, hx, hz]
      · rw [hcontents', hcontents, turned_turned, hread, reading, Nat.mul_add, ← Nat.mul_assoc (2 ^ j),
          ← Nat.pow_succ]

theorem Row.uniform (h : Row cells w) (hpos : 0 < cells.length) (hw : 1 ≤ w ∧ w ≤ 32) :
    Uniform cells := by
  cases cells with
  | nil => exact absurd hpos (Nat.lt_irrefl 0)
  | cons first rest =>
    have hfirst := h.width first List.mem_cons_self
    refine ⟨?_, fun c hc => hfirst.trans (h.width c (List.mem_cons_of_mem _ hc)).symm⟩
    rw [hfirst]
    exact hw

theorem cyclic_realizes (h : Row cells w) (hpos : 0 < cells.length) (hw : 1 ≤ w ∧ w ≤ 32)
    {offset : Variable} (hoffset : 1 ≤ offset.width ∧ offset.width ≤ 32)
    (hdis : ∀ q ∈ offset.qubits, q ∉ qubits cells) (strategy : ShiftStrategy) :
    ∃ A, Realizes (cyclic cells offset strategy : Synthesis ℝ Unit) (offset.qubits ++ qubits cells) A ∧
      ∀ y, ∃ z, A (ket y) = ket z ∧
        contents cells z = turned (reading offset.qubits y) (contents cells y) ∧
        ∀ q, q ∉ qubits cells → z.testBit q = y.testBit q := by
  obtain ⟨A, hA, hact⟩ := stages_realizes h hpos strategy 0 hdis
  simp only [Nat.pow_zero, Nat.one_mul] at hact
  refine ⟨A, ?_, hact⟩
  have hcells := (checks_cells "cyclic_shift" cells).1 (h.uniform hpos hw)
  have hwidth := (Synthesis.checks_width "cyclic_shift" offset.width).1 hoffset
  have hall := (realizes_ofExcept hcells _).bind ((realizes_ofExcept hwidth _).bind hA)
  rwa [mul_one, mul_one] at hall

theorem cyclicBy_rearranges (h : Row cells w) (hpos : 0 < cells.length) (hw : 1 ≤ w ∧ w ≤ 32) (k : ℤ) :
    Rearranges (cyclicBy cells k) cells (turned (k % cells.length).toNat) := by
  have hcells := (checks_cells "cyclic_shift" cells).1 (h.uniform hpos hw)
  have hbound : (k % cells.length).toNat ≤ cells.length := by
    have hlt := Int.emod_lt_of_pos k (b := cells.length) (by exact_mod_cast hpos)
    omega
  unfold cyclicBy
  rw [hcells]
  generalize (k % (cells.length : ℤ)).toNat = r at hbound
  show Rearranges (if r ≠ 0 then rotateByReversals cells r else pure ()) cells _
  split
  · exact rotateByReversals_rearranges h hbound
  · next hr =>
    obtain rfl := not_not.1 hr
    exact (rearranges_pure cells).congr fun l _ => (turned_zero l).symm

/-! ## Shifts -/

/-- Every cell `(i + k) mod n` holds what cell `i` held, and all other qubits read as before. -/
def Shifted (cells : List Variable) (k : ℤ) (y z : ℕ) : Prop :=
  (∀ i j (_ : i < cells.length) (_ : j < cells.length), (j : ℤ) = (i + k) % cells.length →
    reading cells[j].qubits z = reading cells[i].qubits y) ∧
  ∀ q, (∀ c ∈ cells, q ∉ c.qubits) → z.testBit q = y.testBit q

theorem shifted_of_turned {k : ℤ} {r : ℕ} (hr : r ≡ k [ZMOD cells.length])
    (hcontents : contents cells z = turned r (contents cells y))
    (hout : ∀ q, q ∉ qubits cells → z.testBit q = y.testBit q) : Shifted cells k y z := by
  refine ⟨fun i j hi hj hij => ?_, fun q hq => hout q fun hmem => ?_⟩
  · have hplace : j = (i + r) % (contents cells y).length := by
      rw [length_contents]
      zify
      rw [hij]
      exact (hr.add_left i).symm
    have hj' : j < (turned r (contents cells y)).length := by
      rw [length_turned, length_contents]
      exact hj
    have hmoved := getElem_turned ((length_contents cells y).symm ▸ hi) hj' hplace
    simp only [← hcontents] at hmoved
    simpa [contents] using hmoved
  · obtain ⟨c, hc, hq'⟩ := mem_qubits.1 hmem
    exact hq c hc hq'

theorem Shifted.unique (hpos : 0 < cells.length) {k : ℤ} {x : ℕ} (h : Shifted cells k y z)
    (h' : Shifted cells k y x) : z = x := by
  refine Nat.eq_of_testBit_eq fun q => ?_
  by_cases hq : ∃ c ∈ cells, q ∈ c.qubits
  · obtain ⟨c, hc, hmem⟩ := hq
    obtain ⟨j, hj, rfl⟩ := List.getElem_of_mem hc
    have hn : (0 : ℤ) < cells.length := by exact_mod_cast hpos
    -- the cell from which the content comes
    obtain ⟨i, hi⟩ := Int.eq_ofNat_of_zero_le (Int.emod_nonneg (j - k : ℤ) hn.ne')
    have hbound : i < cells.length := by
      have hlt := Int.emod_lt_of_pos (j - k : ℤ) hn
      omega
    have hplace : (j : ℤ) = (i + k) % cells.length := by
      rw [← hi, Int.emod_add_emod, sub_add_cancel, Int.emod_eq_of_lt (by omega) (by omega)]
    have hsame := (h.1 i j hbound hj hplace).trans (h'.1 i j hbound hj hplace).symm
    exact testBit_of_reading hsame q hmem
  · have hnone : ∀ c ∈ cells, q ∉ c.qubits := fun c hc hmem => hq ⟨c, hc, hmem⟩
    rw [h.2 q hnone, h'.2 q hnone]

/-! ## Poisoned sessions -/

variable {s : Session ℝ}

theorem swapCells_stops (ha : 0 < a.width) (hb : 0 < b.width) (hp : s.isPoisoned = true) :
    Stops (swapCells a b : Synthesis ℝ Unit) s := by
  obtain ⟨p, ps, hps⟩ := List.exists_cons_of_length_pos ha
  obtain ⟨q, qs, hqs⟩ := List.exists_cons_of_length_pos hb
  unfold swapCells
  rw [hps, hqs]
  exact (stops_apply hp _ _).bind _

theorem rotateByReversals_stops (h : Row cells w) (hw : 1 ≤ w) (hlong : 1 < cells.length)
    (hp : s.isPoisoned = true) (r : ℕ) :
    Stops (rotateByReversals cells r : Synthesis ℝ Unit) s := by
  obtain ⟨a, rest, rfl⟩ := List.exists_cons_of_length_pos (Nat.zero_lt_of_lt hlong)
  obtain rfl | ⟨as, b, rfl⟩ := List.eq_nil_or_concat' rest
  · exact absurd hlong (Nat.lt_irrefl 1)
  · have hwide : ∀ c ∈ a :: (as ++ [b]), 0 < c.width := fun c hc => h.width c hc ▸ hw
    have hreverse : Stops (reverse (a :: (as ++ [b])) : Synthesis ℝ Unit) s := by
      unfold reverse
      rw [reverse_pairs]
      exact (swapCells_stops (hwide a (by simp)) (hwide b (by simp)) hp).bind _
    exact hreverse.bind _

theorem cyclic_stops (h : Row cells w) (hw : 1 ≤ w ∧ w ≤ 32) (hlong : 1 < cells.length)
    {offset : Variable} (hoffset : 1 ≤ offset.width ∧ offset.width ≤ 32) (strategy : ShiftStrategy)
    (hp : s.isPoisoned = true) : Stops (cyclic cells offset strategy : Synthesis ℝ Unit) s := by
  have hcells := (checks_cells "cyclic_shift" cells).1 (h.uniform (Nat.zero_lt_of_lt hlong) hw)
  have hwidth := (Synthesis.checks_width "cyclic_shift" offset.width).1 hoffset
  obtain ⟨q, rest, hq⟩ := List.exists_cons_of_length_pos (show 0 < offset.qubits.length from hoffset.1)
  have hone : bitWeight 0 % cells.length ≠ 0 := by
    rw [show bitWeight 0 = 1 from rfl, Nat.mod_eq_of_lt hlong]
    exact Nat.one_ne_zero
  have hstages : Stops (stages cells strategy 0 offset.qubits : Synthesis ℝ Unit) s := by
    rw [hq, stages_cons, if_pos hone]
    exact (stops_within hp _ _ _).bind _
  exact .after hcells (.after hwidth hstages)

theorem cyclicBy_stops (h : Row cells w) (hw : 1 ≤ w ∧ w ≤ 32) (hlong : 1 < cells.length) {k : ℤ}
    (hk : k % cells.length ≠ 0) (hp : s.isPoisoned = true) :
    Stops (cyclicBy cells k : Synthesis ℝ Unit) s := by
  have hcells := (checks_cells "cyclic_shift" cells).1 (h.uniform (Nat.zero_lt_of_lt hlong) hw)
  have hplaces : (k % (cells.length : ℤ)).toNat ≠ 0 := by
    have hnonneg := Int.emod_nonneg k (b := cells.length) (by omega)
    omega
  refine .after hcells ?_
  show Stops (if (k % (cells.length : ℤ)).toNat ≠ 0 then
    rotateByReversals cells (k % (cells.length : ℤ)).toNat else pure () : Synthesis ℝ Unit) s
  rw [if_pos hplaces]
  exact rotateByReversals_stops h hw.1 hlong hp _

/-- Cyclic shifts. With no open environment, on distinct qubits in use, a shift by an offset register
takes every basis state to the one in which all cells are shifted by the value of the offset, by
either strategy, and a shift by a known number of places, which may be negative, to the one in which
they are shifted by this number. All other qubits stay as they are, so that the basis state is the
same for both strategies. Only a poisoned session refuses a shift that exchanges anything. -/
theorem cyclic_moves (hs : s.Reachable) (hopen : s.numOpen = 0) (hpos : 0 < cells.length)
    (hwidth : ∀ c ∈ cells, c.width = w) (hw : 1 ≤ w ∧ w ≤ 32) (hnodup : (qubits cells).Nodup)
    (hlive : ∀ q ∈ qubits cells, s.allocator.isLive q = true) :
    (∀ offset : Variable, 1 ≤ offset.width ∧ offset.width ≤ 32 →
      (offset.qubits ++ qubits cells).Nodup →
      (∀ q ∈ offset.qubits, s.allocator.isLive q = true) → ∀ strategy : ShiftStrategy,
        (s.isPoisoned = false → Moves (cyclic cells offset strategy : Synthesis ℝ Unit) s
          (offset.qubits ++ qubits cells) (fun _ => True) fun y z =>
            Shifted cells (reading offset.qubits y) y z) ∧
        (s.isPoisoned = true → 1 < cells.length →
          Stops (cyclic cells offset strategy : Synthesis ℝ Unit) s)) ∧
    (∀ k : ℤ,
      (s.isPoisoned = false → Moves (cyclicBy cells k : Synthesis ℝ Unit) s (qubits cells)
        (fun _ => True) fun y z => Shifted cells k y z) ∧
      (s.isPoisoned = true → 1 < cells.length → k % cells.length ≠ 0 →
        Stops (cyclicBy cells k : Synthesis ℝ Unit) s)) ∧
    ∀ (k : ℤ) (y z x : ℕ), Shifted cells k y z → Shifted cells k y x → z = x := by
  have h : Row cells w := ⟨hwidth, hnodup⟩
  refine ⟨fun offset hoffset hall hlive' strategy => ⟨fun hp => ?_, fun hp hlong => ?_⟩,
    fun k => ⟨fun hp => ?_, fun hp hlong hk => cyclicBy_stops h hw hlong hk hp⟩,
    fun k y z x => Shifted.unique hpos⟩
  · obtain ⟨-, -, hdis⟩ := List.nodup_append'.1 hall
    obtain ⟨A, hA, hact⟩ :=
      cyclic_realizes h hpos hw hoffset (fun q hq hq' => hdis hq hq') strategy
    have hused : ∀ q ∈ offset.qubits ++ qubits cells, s.allocator.isLive q = true := fun q hq =>
      (List.mem_append.1 hq).elim (hlive' q) (hlive q)
    refine hA.moves hs hp hopen hused fun y _ => ?_
    obtain ⟨z, hz, hcontents, hout⟩ := hact y
    exact ⟨z, hz, shifted_of_turned (Int.ModEq.refl _) hcontents hout⟩
  · exact cyclic_stops h hw hlong hoffset strategy hp
  · obtain ⟨A, hA, hact⟩ := cyclicBy_rearranges h hpos hw k
    refine hA.moves hs hp hopen hlive fun y _ => ?_
    obtain ⟨z, hz, hcontents, hout⟩ := hact y
    have hn : (cells.length : ℤ) ≠ 0 := by exact_mod_cast hpos.ne'
    refine ⟨z, hz, shifted_of_turned ?_ hcontents hout⟩
    rw [Int.toNat_of_nonneg (Int.emod_nonneg k hn)]
    exact Int.mod_modEq k _

def trio : List Variable := [0, 1, 2].map fun q => ⟨"cell", [q], .integer false⟩

theorem cyclic_moves_trio :
    ∃ s : Session ℝ, s = (Session.new {}).after [.allocate 3 "cells", .allocate 3 "offset"] ∧
      (∀ strategy : ShiftStrategy,
        Moves (cyclic trio ⟨"offset", [3, 4, 5], .integer false⟩ strategy : Synthesis ℝ Unit) s
          [3, 4, 5, 0, 1, 2] (fun _ => True) fun y z => Shifted trio (reading [3, 4, 5] y) y z) ∧
      Moves (cyclicBy trio (-1) : Synthesis ℝ Unit) s [0, 1, 2] (fun _ => True) fun y z =>
        Shifted trio (-1) y z := by
  have hmoves := @cyclic_moves trio 1 _
    ((Session.Reachable.new (R := ℝ) {}).after [.allocate 3 "cells", .allocate 3 "offset"])
    (by decide +kernel) (by decide) (by decide) (by decide) (by decide) (by decide +kernel)
  have hp : ((Session.new {} : Session ℝ).after
      [.allocate 3 "cells", .allocate 3 "offset"]).isPoisoned = false := by decide +kernel
  refine ⟨_, rfl, fun strategy => ?_, (hmoves.2.1 (-1)).1 hp⟩
  exact (hmoves.1 ⟨"offset", [3, 4, 5], .integer false⟩ (by decide) (by decide) (by decide +kernel)
    strategy).1 hp

end Ancilla.Shift
