import Ancilla.Arithmetic.Lookahead
import Ancilla.Proofs.Arithmetic.Adder
import Ancilla.Proofs.Circuit.Layering

/-!
The carry-lookahead adder. A round with span `d` takes the generate and propagate bits of groups of
`d` bits to those of groups of `2 d`; a bit whose group reaches down to the lowest place is final, and
only bits that a later round extends are kept up. Main statement: the adder sums, as the one with a
chain of carries does.
-/

namespace Ancilla.Adder

open Build Session

/-! ## Spans -/

def spanGenerates (d x y i : ℕ) : Bool := generates x y (i + 1 - d) (min d (i + 1))

def spanPropagates (d x y i : ℕ) : Bool := propagates x y (i + 1 - d) d

variable {d i : ℕ}

theorem spanGenerates_one (x y i : ℕ) :
    spanGenerates 1 x y i = (x.testBit i && y.testBit i) := by
  rw [spanGenerates, Nat.add_sub_cancel, Nat.min_eq_left (Nat.le_add_left 1 i), generates_one]

theorem spanPropagates_one (x y i : ℕ) :
    spanPropagates 1 x y i = (x.testBit i ^^ y.testBit i) := by
  rw [spanPropagates, Nat.add_sub_cancel, propagates_one]

theorem spanGenerates_of_lt (h : i < d) (x y : ℕ) :
    spanGenerates d x y i = generates x y 0 (i + 1) := by
  rw [spanGenerates, Nat.sub_eq_zero_of_le h, Nat.min_eq_right h]

theorem spanGenerates_double (d x y j : ℕ) : spanGenerates (2 * d) x y (d + j) =
    (spanGenerates d x y (d + j) ^^ (spanPropagates d x y (d + j) && spanGenerates d x y j)) := by
  have hsize : min (2 * d) (d + j + 1) = min d (j + 1) + d := by omega
  have hlow : d + j + 1 - 2 * d = j + 1 - d := by omega
  have hupper : j + 1 - d + min d (j + 1) = j + 1 := by omega
  have hgroup : spanGenerates d x y (d + j) = generates x y (j + 1) d := by
    rw [spanGenerates, show d + j + 1 - d = j + 1 by omega, Nat.min_eq_left (by omega)]
  have hpass : spanPropagates d x y (d + j) = propagates x y (j + 1) d := by
    rw [spanPropagates, show d + j + 1 - d = j + 1 by omega]
  rw [spanGenerates, hsize, hlow, generates_add, hupper, hgroup, hpass, spanGenerates]
  cases hp : propagates x y (j + 1) d with
  | false => rw [Bool.false_and, Bool.or_false, Bool.xor_false]
  | true => rw [not_generates_of_propagates hp, Bool.false_or, Bool.false_xor]

theorem spanPropagates_double (d x y j : ℕ) : spanPropagates (2 * d) x y (2 * d + j) =
    (spanPropagates d x y (2 * d + j) && spanPropagates d x y (d + j)) := by
  have hlow : 2 * d + j + 1 - 2 * d = j + 1 := by omega
  have hupper : 2 * d + j + 1 - d = j + 1 + d := by omega
  have hlower : d + j + 1 - d = j + 1 := by omega
  rw [spanPropagates, spanPropagates, spanPropagates, hlow, hupper, hlower, Nat.two_mul,
    propagates_add]

theorem spans_eq (n : ℕ) : spans n = (List.range (Nat.clog 2 n)).map bitWeight := by
  obtain ⟨k, hk⟩ : ∃ k, k = ((List.range n).map bitWeight).findIdx fun x => !decide (x < n) :=
    ⟨_, rfl⟩
  have htake : spans n = ((List.range n).map bitWeight).take k := by
    rw [hk]
    exact List.takeWhile_eq_take_findIdx_not
  rw [← List.map_take, List.take_range] at htake
  have hreach : n ≤ 2 ^ min k n := by
    rcases Nat.lt_or_ge k n with hlt | hge
    · have hfound : k < ((List.range n).map bitWeight).length := by simpa using hlt
      have hpast := List.findIdx_getElem (w := hk ▸ hfound)
      simp only [← hk, List.getElem_map, List.getElem_range, Bool.not_eq_true',
        decide_eq_false_iff_not, Nat.not_lt] at hpast
      rw [Nat.min_eq_left hlt.le]
      exact hpast
    · rw [Nat.min_eq_right hge]
      exact Nat.lt_two_pow_self.le
  have hbelow : ∀ i < min k n, 2 ^ i < n := fun i hi => by
    have hmem : bitWeight i ∈ spans n := htake ▸ List.mem_map_of_mem (List.mem_range.2 hi)
    exact of_decide_eq_true (List.mem_takeWhile_imp (p := fun x => decide (x < n)) hmem)
  have hfirst : Nat.clog 2 n = min k n := by
    refine le_antisymm (Nat.clog_le_of_le_pow hreach) (Nat.le_of_not_lt fun hlt => ?_)
    exact (hbelow _ hlt).not_ge (Nat.le_pow_clog Nat.one_lt_two n)
  rw [htake, hfirst]

/-! ## The flips of a round -/

def startFlips (bits : List CarryBit) : List Flip :=
  bits.flatMap fun bit => [.double bit.a bit.b bit.carry, .single bit.a bit.b]

def doubles (gates : List (QubitId × QubitId × QubitId)) : List Flip :=
  gates.map fun w => .double w.1 w.2.1 w.2.2

def copyFlips (d : ℕ) (generate fresh : List QubitId) : List Flip :=
  ((generate.drop d).zip fresh).map fun w => .single w.1 w.2

def generateGates (d : ℕ) (p : Prefixes) (fresh : List QubitId) :
    List (QubitId × QubitId × QubitId) := (p.propagate.drop d).zip (p.generate.zip fresh)

def propagateGates (d : ℕ) (propagate fresh : List QubitId) : List (QubitId × QubitId × QubitId) :=
  (propagate.drop (2 * d)).zip ((propagate.drop d).zip fresh)

def blockGates (d parity : ℕ) (gates : List (QubitId × QubitId × QubitId)) :
    List (QubitId × QubitId × QubitId) :=
  ((gates.zipIdx (2 * d)).filter fun w => w.2 / d % 2 = parity).map Prod.fst

def generateFlips (d : ℕ) (p : Prefixes) (fresh : List QubitId) : List Flip :=
  copyFlips d p.generate fresh ++ doubles (generateGates d p fresh)

def propagateFlips (d : ℕ) (propagate fresh : List QubitId) : List Flip :=
  doubles (blockGates d 0 (propagateGates d propagate fresh) ++
    blockGates d 1 (propagateGates d propagate fresh))

theorem start_eq (bits : List CarryBit) : (bits.forM fun bit => do
      Build.ccx bit.a bit.b bit.carry
      Build.cx bit.a bit.b : Synthesis ℝ Unit) = Build.flips (startFlips bits) := by
  induction bits with
  | nil => rfl
  | cons bit bits ih =>
    have hflips : startFlips (bit :: bits) = .double bit.a bit.b bit.carry ::
        .single bit.a bit.b :: startFlips bits := rfl
    rw [hflips, Build.flips_cons, Build.flips_cons, ← ih]
    exact bind_assoc _ _ _

theorem widenGenerate_eq (n d : ℕ) (p : Prefixes) :
    (widenGenerate n d p : Synthesis ℝ (List QubitId)) = (do
      let fresh ← Build.allocate (n - d) "generate"
      Build.flips (generateFlips d p fresh)
      return p.generate.take d ++ fresh) := by
  unfold widenGenerate generateFlips copyFlips doubles
  simp only [Build.flips_append, Build.flips_map, bind_assoc]
  rfl

theorem blocks_eq (d parity : ℕ) (gates : List (QubitId × QubitId × QubitId)) :
    ((gates.zipIdx (2 * d)).forM fun ((q, r, f), i) => do
      if i / d % 2 = parity then Build.ccx q r f : Synthesis ℝ Unit) =
      Build.flips (doubles (blockGates d parity gates)) := by
  unfold blockGates
  generalize gates.zipIdx (2 * d) = ws
  induction ws with
  | nil => rfl
  | cons w ws ih =>
    by_cases h : w.2 / d % 2 = parity
    · have hflips : doubles (((w :: ws).filter fun w => w.2 / d % 2 = parity).map Prod.fst) =
          .double w.1.1 w.1.2.1 w.1.2.2 ::
            doubles ((ws.filter fun w => w.2 / d % 2 = parity).map Prod.fst) := by
        rw [List.filter_cons_of_pos (by simpa using h)]
        rfl
      rw [hflips, Build.flips_cons, ← ih]
      show (ite (w.2 / d % 2 = parity) (Build.ccx _ _ _) (pure ()) >>= fun _ => _) = _
      rw [if_pos h]
      rfl
    · rw [List.filter_cons_of_neg (by simpa using h), ← ih]
      show (ite (w.2 / d % 2 = parity) (Build.ccx _ _ _) (pure ()) >>= fun _ => _) = _
      rw [if_neg h]
      exact pure_bind _ _

theorem widenPropagate_eq {n d : ℕ} (h : 2 * d < n) (p : Prefixes) :
    (widenPropagate n d p : Synthesis ℝ (List QubitId)) = (do
      let fresh ← Build.allocate (n - 2 * d) "propagate"
      Build.flips (propagateFlips d p.propagate fresh)
      return p.propagate.take (2 * d) ++ fresh) := by
  have hblocks : ∀ gates, ([0, 1].forM fun parity =>
      (gates.zipIdx (2 * d)).forM fun ((q, r, f), i) => do
        if i / d % 2 = parity then Build.ccx q r f : Synthesis ℝ Unit) =
      Build.flips (doubles (blockGates d 0 gates ++ blockGates d 1 gates)) := by
    intro gates
    have hsplit : doubles (blockGates d 0 gates ++ blockGates d 1 gates) =
        doubles (blockGates d 0 gates) ++ doubles (blockGates d 1 gates) := List.map_append
    rw [hsplit, Build.flips_append, ← blocks_eq, ← blocks_eq]
    exact congrArg _ (funext fun _ => bind_pure_unit)
  unfold widenPropagate
  rw [if_pos h]
  simp only [hblocks]
  rfl

theorem perm_blockGates (d : ℕ) (gates : List (QubitId × QubitId × QubitId)) :
    (blockGates d 0 gates ++ blockGates d 1 gates).Perm gates := by
  have hodd : ((gates.zipIdx (2 * d)).filter fun w => w.2 / d % 2 = 1) =
      (gates.zipIdx (2 * d)).filter fun w => !decide (w.2 / d % 2 = 0) := by
    refine List.filter_congr fun w _ => ?_
    rcases Nat.mod_two_eq_zero_or_one (w.2 / d) with h | h <;> simp [h]
  have hall := (List.filter_append_perm (fun w => decide (w.2 / d % 2 = 0))
    (gates.zipIdx (2 * d))).map Prod.fst
  rw [List.map_append, List.zipIdx_map_fst] at hall
  unfold blockGates
  rw [hodd]
  exact hall

theorem testBit_doubles {gates : List (QubitId × QubitId × QubitId)} {fresh : List QubitId}
    (htargets : (gates.map fun w => w.2.2).Perm fresh) (hnodup : fresh.Nodup)
    (hcontrols : ∀ w ∈ gates, w.1 ∉ fresh ∧ w.2.1 ∉ fresh) {q r f : QubitId}
    (hmem : (q, r, f) ∈ gates) (z : ℕ) : (flipAll (doubles gates) z).testBit f =
      (z.testBit f ^^ (z.testBit q && z.testBit r)) := by
  have hmap : (doubles gates).map Flip.target = gates.map fun w => w.2.2 := List.map_map
  refine testBit_layer (hmap ▸ htargets) hnodup (fun g hg c hc => ?_)
    (List.mem_map_of_mem hmem) z
  obtain ⟨w, hw, rfl⟩ := List.mem_map.1 hg
  obtain ⟨hfirst, hsecond⟩ := hcontrols w hw
  rcases List.mem_pair.1 hc with rfl | rfl
  · exact hfirst
  · exact hsecond

theorem testBit_copyFlips {generate fresh : List QubitId}
    (hlength : fresh.length = generate.length - d) (hnodup : fresh.Nodup)
    (hnew : ∀ q ∈ fresh, q ∉ generate) {j : ℕ} {g f : QubitId}
    (hg : generate[d + j]? = some g) (hf : fresh[j]? = some f) (z : ℕ) :
    (flipAll (copyFlips d generate fresh) z).testBit f = (z.testBit f ^^ z.testBit g) := by
  have htargets : (copyFlips d generate fresh).map Flip.target = fresh := by
    rw [copyFlips, List.map_map]
    exact List.map_snd_zip (by rw [List.length_drop, hlength])
  refine testBit_layer (.of_eq htargets) hnodup (fun e he c hc hmem => ?_)
    (List.mem_map_of_mem (a := (g, f)) (List.mem_of_getElem? (i := j) ?_)) z
  · obtain ⟨w, hw, rfl⟩ := List.mem_map.1 he
    rw [List.mem_singleton.1 hc] at hmem
    exact hnew _ hmem (List.mem_of_mem_drop (List.of_mem_zip hw).1)
  · exact List.getElem?_zip_eq_some.2 ⟨by rwa [List.getElem?_drop], hf⟩

theorem mem_copyFlips {generate fresh : List QubitId} {e : Flip}
    (he : e ∈ copyFlips d generate fresh) :
    ∃ g ∈ generate, e.controls = [g] ∧ e.target ∈ fresh := by
  obtain ⟨w, hw, rfl⟩ := List.mem_map.1 he
  obtain ⟨hg, hf⟩ := List.of_mem_zip hw
  exact ⟨w.1, List.mem_of_mem_drop hg, rfl, hf⟩

theorem mem_generateGates {p : Prefixes} {fresh : List QubitId} {w : QubitId × QubitId × QubitId}
    (hw : w ∈ generateGates d p fresh) : w.1 ∈ p.propagate ∧ w.2.1 ∈ p.generate ∧ w.2.2 ∈ fresh := by
  obtain ⟨hq, hrest⟩ := List.of_mem_zip hw
  obtain ⟨hg, hf⟩ := List.of_mem_zip hrest
  exact ⟨List.mem_of_mem_drop hq, hg, hf⟩

theorem testBit_generateFlips {p : Prefixes} {fresh : List QubitId}
    (hlength : fresh.length = p.generate.length - d) (hsame : p.propagate.length = p.generate.length)
    (hnodup : fresh.Nodup) (hnew : ∀ q ∈ fresh, q ∉ p.generate ++ p.propagate) {j : ℕ} {f : QubitId}
    (hf : fresh[j]? = some f) (z : ℕ) :
    ∃ g q r, p.generate[d + j]? = some g ∧ p.propagate[d + j]? = some q ∧
      p.generate[j]? = some r ∧ (flipAll (generateFlips d p fresh) z).testBit f =
        (z.testBit f ^^ z.testBit g ^^ (z.testBit q && z.testBit r)) := by
  have hj : j < fresh.length := (List.getElem?_eq_some_iff.1 hf).1
  have hg : p.generate[d + j]? = some p.generate[d + j] := List.getElem?_eq_getElem (by omega)
  have hq : p.propagate[d + j]? = some p.propagate[d + j] := List.getElem?_eq_getElem (by omega)
  have hr : p.generate[j]? = some p.generate[j] := List.getElem?_eq_getElem (by omega)
  refine ⟨_, _, _, hg, hq, hr, ?_⟩
  have hcopied := testBit_copyFlips hlength hnodup
    (fun q hq hmem => hnew q hq (List.mem_append_left _ hmem)) hg hf z
  -- the copies leave the bits of the round before alone
  have hkeep : ∀ q ∈ p.generate ++ p.propagate,
      (flipAll (copyFlips d p.generate fresh) z).testBit q = z.testBit q := by
    refine fun q hq => testBit_flipAll_of_not_target (fun e he heq => ?_) z
    obtain ⟨_, _, _, htarget⟩ := mem_copyFlips he
    exact hnew _ htarget (heq ▸ hq)
  have hmem : (p.propagate[d + j], p.generate[j], f) ∈ generateGates d p fresh :=
    List.mem_of_getElem? (getElem?_zip_zip.2 ⟨by rwa [List.getElem?_drop], hr, hf⟩)
  have htargets : (generateGates d p fresh).map (fun w => w.2.2) = fresh :=
    map_zip_zip (by rw [List.length_drop]; omega) (by omega)
  rw [generateFlips, flipAll_append, testBit_doubles (.of_eq htargets) hnodup
    (fun w hw => ?_) hmem, hcopied, hkeep _ (List.mem_append_right _ (List.getElem_mem _)),
    hkeep _ (List.mem_append_left _ (List.getElem_mem _))]
  obtain ⟨hw₁, hw₂, -⟩ := mem_generateGates hw
  exact ⟨fun hmem => hnew _ hmem (List.mem_append_right _ hw₁),
    fun hmem => hnew _ hmem (List.mem_append_left _ hw₂)⟩

theorem mem_blockGates {ps fresh : List QubitId} {parity : ℕ} {w : QubitId × QubitId × QubitId}
    (hw : w ∈ blockGates d parity (propagateGates d ps fresh)) :
    ∃ j, ps[2 * d + j]? = some w.1 ∧ ps[d + j]? = some w.2.1 ∧ fresh[j]? = some w.2.2 ∧
      (2 * d + j) / d % 2 = parity := by
  obtain ⟨⟨w', i⟩, hmem, rfl⟩ := List.mem_map.1 hw
  obtain ⟨hzip, hparity⟩ := List.mem_filter.1 hmem
  obtain ⟨hi, hat⟩ := List.mk_mem_zipIdx_iff_le_and_getElem?_sub.1 hzip
  obtain ⟨j, rfl⟩ := Nat.exists_eq_add_of_le hi
  rw [Nat.add_sub_cancel_left] at hat
  obtain ⟨hq, hr, hf⟩ := getElem?_zip_zip.1 hat
  rw [List.getElem?_drop] at hq hr
  exact ⟨j, hq, hr, hf, of_decide_eq_true hparity⟩

theorem mem_propagateGates {ps fresh : List QubitId} {w : QubitId × QubitId × QubitId}
    (hw : w ∈ blockGates d 0 (propagateGates d ps fresh) ++
      blockGates d 1 (propagateGates d ps fresh)) :
    ∃ j, ps[2 * d + j]? = some w.1 ∧ ps[d + j]? = some w.2.1 ∧ fresh[j]? = some w.2.2 := by
  obtain ⟨j, hq, hr, hf, -⟩ | ⟨j, hq, hr, hf, -⟩ :=
    (List.mem_append.1 hw).imp mem_blockGates mem_blockGates
  · exact ⟨j, hq, hr, hf⟩
  · exact ⟨j, hq, hr, hf⟩

theorem testBit_propagateFlips {ps fresh : List QubitId} (hlength : fresh.length = ps.length - 2 * d)
    (hnodup : fresh.Nodup) (hnew : ∀ q ∈ fresh, q ∉ ps) {j : ℕ} {f : QubitId}
    (hf : fresh[j]? = some f) (z : ℕ) :
    ∃ q r, ps[2 * d + j]? = some q ∧ ps[d + j]? = some r ∧
      (flipAll (propagateFlips d ps fresh) z).testBit f =
        (z.testBit f ^^ (z.testBit q && z.testBit r)) := by
  have hj : j < fresh.length := (List.getElem?_eq_some_iff.1 hf).1
  have hq : ps[2 * d + j]? = some ps[2 * d + j] := List.getElem?_eq_getElem (by omega)
  have hr : ps[d + j]? = some ps[d + j] := List.getElem?_eq_getElem (by omega)
  have hperm := perm_blockGates d (propagateGates d ps fresh)
  have htargets : (propagateGates d ps fresh).map (fun w => w.2.2) = fresh :=
    map_zip_zip (by rw [List.length_drop]; omega) (by rw [List.length_drop]; omega)
  have hmem : (ps[2 * d + j], ps[d + j], f) ∈ propagateGates d ps fresh :=
    List.mem_of_getElem? (getElem?_zip_zip.2
      ⟨by rwa [List.getElem?_drop], by rwa [List.getElem?_drop], hf⟩)
  have hall := hperm.map fun w => w.2.2
  rw [htargets] at hall
  refine ⟨_, _, hq, hr, testBit_doubles hall hnodup (fun w hw => ?_) (hperm.mem_iff.2 hmem) z⟩
  obtain ⟨_, hw₁, hw₂, -⟩ := mem_propagateGates hw
  exact ⟨fun hmem => hnew _ hmem (List.mem_of_getElem? hw₁),
    fun hmem => hnew _ hmem (List.mem_of_getElem? hw₂)⟩

/-! ## The levels of a round -/

section Levels

variable {p : Prefixes} {fresh ps : List QubitId}

theorem sublist_map_fst_zip {α β : Type} (as : List α) (bs : List β) :
    ((as.zip bs).map Prod.fst).Sublist as := by
  induction as generalizing bs with
  | nil => exact List.Sublist.refl []
  | cons a as ih =>
    cases bs with
    | nil => exact List.nil_sublist _
    | cons b bs => exact (ih bs).cons_cons a

theorem sublist_map_snd_zip {α β : Type} (as : List α) (bs : List β) :
    ((as.zip bs).map Prod.snd).Sublist bs := by
  rw [← List.zip_swap, List.map_map]
  exact sublist_map_fst_zip bs as

theorem perm_pairs {ι : Type} (ws : List ι) (f g : ι → QubitId) :
    (ws.flatMap fun w => [f w, g w]).Perm (ws.map f ++ ws.map g) := by
  have hperm := List.map_append_flatMap_perm ws f fun w => [g w]
  rw [← List.map_eq_flatMap] at hperm
  exact hperm.symm

theorem perm_triples (ws : List (QubitId × QubitId × QubitId)) :
    (ws.flatMap fun w => [w.1, w.2.1, w.2.2]).Perm (ws.map (fun w => w.1) ++
      (ws.map (fun w => w.2.1) ++ ws.map fun w => w.2.2)) :=
  (List.map_append_flatMap_perm ws (fun w => w.1) fun w => [w.2.1, w.2.2]).symm.trans
    ((perm_pairs ws (fun w => w.2.1) fun w => w.2.2).append_left _)

theorem sublist_zip_zip (as bs cs : List QubitId) :
    ((as.zip (bs.zip cs)).map fun w => w.1).Sublist as ∧
      ((as.zip (bs.zip cs)).map fun w => w.2.1).Sublist bs ∧
      ((as.zip (bs.zip cs)).map fun w => w.2.2).Sublist cs := by
  have hsub := sublist_map_snd_zip as (bs.zip cs)
  have hsecond := (hsub.map Prod.fst).trans (sublist_map_fst_zip bs cs)
  have hthird := (hsub.map Prod.snd).trans (sublist_map_snd_zip bs cs)
  rw [List.map_map] at hsecond hthird
  exact ⟨sublist_map_fst_zip as _, hsecond, hthird⟩

theorem layered_doubles {gates : List (QubitId × QubitId × QubitId)}
    (h : (gates.map (fun w => w.1) ++
      (gates.map (fun w => w.2.1) ++ gates.map fun w => w.2.2)).Nodup) :
    Layered 1 ((doubles gates).map Flip.qubits) := by
  refine Layered.of_nodup ?_
  rw [doubles, List.map_map, ← List.flatMap_def]
  exact (perm_triples gates).nodup_iff.2 h

theorem layered_copyFlips {generate : List QubitId} (h : (generate ++ fresh).Nodup) :
    Layered 1 ((copyFlips d generate fresh).map Flip.qubits) := by
  refine Layered.of_nodup ?_
  rw [copyFlips, List.map_map, ← List.flatMap_def]
  refine (perm_pairs ((generate.drop d).zip fresh) Prod.fst Prod.snd).nodup_iff.2 ?_
  exact ((sublist_map_fst_zip _ fresh).append (sublist_map_snd_zip _ fresh)).nodup
    (((List.drop_sublist d generate).append_right fresh).nodup h)

theorem layered_generateFlips (h : (p.generate ++ p.propagate).Nodup) (hnodup : fresh.Nodup)
    (hnew : ∀ q ∈ fresh, q ∉ p.generate ++ p.propagate) :
    Layered 2 ((generateFlips d p fresh).map Flip.qubits) := by
  have hall : (p.propagate ++ (p.generate ++ fresh)).Nodup := by
    rw [← List.append_assoc]
    exact List.nodup_append'.2 ⟨List.perm_append_comm.nodup h, hnodup,
      fun q hq hf => hnew q hf (List.perm_append_comm.mem_iff.1 hq)⟩
  rw [generateFlips, List.map_append]
  obtain ⟨hfirst, hsecond, hthird⟩ := sublist_zip_zip (p.propagate.drop d) p.generate fresh
  have hsub := (hfirst.trans (List.drop_sublist d _)).append (hsecond.append hthird)
  exact (layered_copyFlips (List.nodup_append.1 hall).2.1).append (layered_doubles (hsub.nodup hall))

theorem layered_blockGates (hd : 0 < d) (h : (ps ++ fresh).Nodup) (parity : ℕ) :
    Layered 1 ((doubles (blockGates d parity (propagateGates d ps fresh))).map Flip.qubits) := by
  have hsub : (blockGates d parity (propagateGates d ps fresh)).Sublist (propagateGates d ps fresh) := by
    have hfilter := (List.filter_sublist (l := (propagateGates d ps fresh).zipIdx (2 * d))
      (p := fun w => w.2 / d % 2 = parity)).map Prod.fst
    rwa [List.zipIdx_map_fst] at hfilter
  obtain ⟨hfirst, hsecond, hthird⟩ := sublist_zip_zip (ps.drop (2 * d)) (ps.drop d) fresh
  have hlower := ((hsub.map _).trans hsecond).trans (List.drop_sublist d ps)
  obtain ⟨hps, -, hapart⟩ := List.nodup_append'.1 h
  refine layered_doubles (List.nodup_append'.2 ⟨?_, ?_, fun q hq hmem => ?_⟩)
  · exact (((hsub.map _).trans hfirst).trans (List.drop_sublist _ ps)).nodup hps
  · exact (hlower.append ((hsub.map _).trans hthird)).nodup h
  · obtain ⟨w, hw, rfl⟩ := List.mem_map.1 hq
    obtain ⟨i, hi, -, -, hparity⟩ := mem_blockGates hw
    rcases List.mem_append.1 hmem with hmem | hmem
    · -- the lower bit of a block is in the block before
      obtain ⟨w', hw', heq⟩ := List.mem_map.1 hmem
      obtain ⟨j, -, hj, -, hparity'⟩ := mem_blockGates hw'
      rw [heq] at hj
      have hindex := (List.getElem?_inj (List.getElem?_eq_some_iff.1 hi).1 hps).1 (hi.trans hj.symm)
      have hblock : (2 * d + j) / d = (2 * d + i) / d + 1 := by
        rw [show 2 * d + j = 2 * d + i + d by omega, Nat.add_div_right _ hd]
      omega
    · exact hapart (List.mem_of_getElem? hi) (((hsub.map _).trans hthird).subset hmem)

theorem layered_propagateFlips (hd : 0 < d) (h : (ps ++ fresh).Nodup) :
    Layered 2 ((propagateFlips d ps fresh).map Flip.qubits) := by
  have hsplit : propagateFlips d ps fresh = doubles (blockGates d 0 (propagateGates d ps fresh)) ++
      doubles (blockGates d 1 (propagateGates d ps fresh)) := List.map_append
  rw [hsplit, List.map_append]
  exact (layered_blockGates hd h 0).append (layered_blockGates hd h 1)

theorem layered_startFlips {a b generate : List QubitId} (h : (a ++ (b ++ generate)).Nodup) :
    Layered 2 ((startFlips (carryBits a b generate)).map Flip.qubits) := by
  obtain ⟨hfirst, hsecond, hthird⟩ := sublist_zip_zip a b generate
  have hqubits : ((a.zip (b.zip generate)).flatMap fun w => [w.1, w.2.1, w.2.2]).Nodup :=
    (perm_triples _).nodup_iff.2 ((hfirst.append (hsecond.append hthird)).nodup h)
  rw [startFlips, carryBits, List.flatMap_map, List.map_flatMap]
  refine Layered.flatMap (fun w _ => Layered.of_length _) (fun w _ u hu => ?_) hqubits
  rcases List.mem_pair.1 hu with rfl | rfl
  · exact fun q hq => hq
  · exact List.subset_append_left [w.1, w.2.1] [w.2.2]

end Levels

/-! ## What the rounds find -/

variable {a b ancillae fresh qs : List QubitId} {fs gs : List Flip} {low : ℕ}
  {c : ℕ → ℕ → ℕ → Bool} {p : Prefixes}

/-- A computation leaves a function of the operands and of a place in the qubits of a list, from the
place `low` on. -/
def Reads (a b ancillae : List QubitId) (fs : List Flip) (low : ℕ) (qs : List QubitId)
    (c : ℕ → ℕ → ℕ → Bool) : Prop :=
  ∀ y, (∀ q ∈ ancillae, y.testBit q = false) → ∀ i q, low ≤ i → qs[i]? = some q →
    (flipAll fs y).testBit q = c (reading a y) (reading b y) i

theorem Reads.extend (h : Reads a b ancillae fs low qs c) (hgs : ∀ g ∈ gs, g.target ∉ qs)
    (fresh : List QubitId) : Reads a b (ancillae ++ fresh) (fs ++ gs) low qs c := by
  intro y hzero i q hi hq
  have hkeep : ∀ g ∈ gs, g.target ≠ q := fun g hg heq =>
    hgs g hg (heq ▸ List.mem_of_getElem? hq)
  rw [flipAll_append, testBit_flipAll_of_not_target hkeep]
  exact h y (fun q hq => hzero q (List.mem_append_left _ hq)) i q hi hq

theorem getElem?_widened {k i q : ℕ} (hlength : fresh.length = qs.length - k)
    (h : (qs.take k ++ fresh)[i]? = some q) :
    i < k ∧ qs[i]? = some q ∨ ∃ j, i = k + j ∧ fresh[j]? = some q := by
  rcases Nat.lt_or_ge i (qs.take k).length with hlt | hge
  · rw [List.getElem?_append_left hlt] at h
    rw [List.length_take] at hlt
    rw [List.getElem?_take_of_lt (by omega)] at h
    exact .inl ⟨by omega, h⟩
  · rw [List.getElem?_append_right hge] at h
    have hnew := (List.getElem?_eq_some_iff.1 h).1
    have hk : (qs.take k).length = k := by
      rw [List.length_take] at hnew ⊢
      omega
    rw [hk] at h hge
    exact .inr ⟨i - k, by omega, h⟩

theorem nodup_widened {ps f₁ f₂ : List QubitId} {k m : ℕ} (h : (qs ++ ps).Nodup) (h₁ : f₁.Nodup)
    (h₂ : f₂.Nodup) (hold₁ : ∀ q ∈ f₁, q ∉ qs ++ ps) (hold₂ : ∀ q ∈ f₂, q ∉ qs ++ ps)
    (happart : ∀ q ∈ f₂, q ∉ f₁) : ((qs.take k ++ f₁) ++ (ps.take m ++ f₂)).Nodup := by
  have hperm : ((qs.take k ++ f₁) ++ (ps.take m ++ f₂)).Perm
      ((qs.take k ++ ps.take m) ++ (f₁ ++ f₂)) := by
    simp only [List.append_assoc]
    refine List.Perm.append_left _ ?_
    rw [← List.append_assoc, ← List.append_assoc]
    exact List.perm_append_comm.append_right _
  have hsub : (qs.take k ++ ps.take m).Sublist (qs ++ ps) :=
    (List.take_sublist k qs).append (List.take_sublist m ps)
  refine hperm.nodup_iff.2 (List.nodup_append.2 ⟨hsub.nodup h, List.nodup_append.2 ⟨h₁, h₂, ?_⟩, ?_⟩)
  · exact fun q hq r hr heq => happart r hr (heq ▸ hq)
  · intro q hq r hr heq
    rcases List.mem_append.1 hr with hr | hr
    · exact hold₁ r hr (heq ▸ hsub.subset hq)
    · exact hold₂ r hr (heq ▸ hsub.subset hq)

/-- The generate and propagate bits behind the rounds up to a span. All bits have qubits of their own,
and the second operand holds the parities of the operands. -/
structure Spanned (a b ancillae : List QubitId) (fs : List Flip) (d : ℕ) (p : Prefixes) : Prop where
  generate_length : p.generate.length = a.length
  propagate_length : p.propagate.length = a.length
  nodup : (p.generate ++ p.propagate).Nodup
  generate_known : ∀ q ∈ p.generate, q ∈ ancillae
  propagate_known : ∀ q ∈ p.propagate, q ∈ a ++ b ++ ancillae
  generates : Reads a b ancillae fs 0 p.generate (spanGenerates d)
  propagates : Reads a b ancillae fs d p.propagate (spanPropagates d)
  parities : Reads a b ancillae fs 0 b (spanPropagates 1)

variable {s t : Session ℝ} {id : FrameId}

theorem Spanned.known (h : Spanned a b ancillae fs d p) {q : QubitId}
    (hq : q ∈ p.generate ++ p.propagate) : q ∈ a ++ b ++ ancillae := by
  rcases List.mem_append.1 hq with hq | hq
  · exact List.mem_append_right _ (h.generate_known q hq)
  · exact h.propagate_known q hq

theorem Spanned.sits_generateFlips (h : Spanned a b ancillae fs d p)
    (hnew : ∀ q ∈ fresh, q ∉ a ++ b ++ ancillae) : ∀ g ∈ generateFlips d p fresh,
      g.placement.Sits (a ++ b ++ (ancillae ++ fresh)) ∧ g.target ∈ fresh := by
  intro g hg
  rcases List.mem_append.1 hg with hg | hg
  · obtain ⟨q, hq, hcontrols, htarget⟩ := mem_copyFlips hg
    refine ⟨Flip.sits_fresh (hcontrols ▸ List.nodup_singleton q) (fun r hr => ?_) htarget hnew,
      htarget⟩
    rw [hcontrols] at hr
    exact h.known (List.mem_append_left _ (List.mem_singleton.1 hr ▸ hq))
  · obtain ⟨w, hw, rfl⟩ := List.mem_map.1 hg
    obtain ⟨hq, hr, hf⟩ := mem_generateGates hw
    have hne : w.1 ≠ w.2.1 := ((List.nodup_append.1 h.nodup).2.2 _ hr _ hq).symm
    refine ⟨Flip.sits_fresh (List.nodup_cons.2 ⟨?_, List.nodup_singleton _⟩) (fun r hmem => ?_) hf
      hnew, hf⟩
    · exact fun hmem => hne (List.mem_singleton.1 hmem)
    · rcases List.mem_pair.1 hmem with rfl | rfl
      · exact h.known (List.mem_append_right _ hq)
      · exact h.known (List.mem_append_left _ hr)

theorem Spanned.widenGenerate (h : Spanned a b ancillae fs d p)
    (ht : s.Computing (a ++ b) id ancillae fs t)
    (hlive : ∀ q ∈ a ++ b, s.allocator.isLive q = true) :
    ∃ fresh t', exec (widenGenerate a.length d p : Synthesis ℝ (List QubitId)) t =
        (.ok (p.generate.take d ++ fresh), t') ∧ fresh.length = a.length - d ∧ fresh.Nodup ∧
      (∀ q ∈ fresh, q ∉ a ++ b ++ ancillae) ∧
      s.Computing (a ++ b) id (ancillae ++ fresh) (fs ++ generateFlips d p fresh) t' ∧
      Reads a b (ancillae ++ fresh) (fs ++ generateFlips d p fresh) 0 (p.generate.take d ++ fresh)
        (spanGenerates (2 * d)) := by
  obtain ⟨fresh, t', hexec, hlength, hnodup, hnew, ht'⟩ := ht.extend (ε := SynthesisError) hlive
    (a.length - d) "generate" (generateFlips d p) (p.generate.take d ++ ·)
    fun fresh _ _ hnew g hg => (h.sits_generateFlips hnew g hg).1
  rw [← widenGenerate_eq] at hexec
  have hlength' : fresh.length = p.generate.length - d := by rw [hlength, h.generate_length]
  refine ⟨fresh, t', hexec, hlength, hnodup, hnew, ht', fun y hzero i q _ hi => ?_⟩
  have hzero' : ∀ q ∈ ancillae, y.testBit q = false := fun q hq => hzero q (List.mem_append_left _ hq)
  rcases getElem?_widened hlength' hi with ⟨hlow, hold⟩ | ⟨j, rfl, hj⟩
  · have hsame : spanGenerates (2 * d) (reading a y) (reading b y) i =
        spanGenerates d (reading a y) (reading b y) i := by
      rw [spanGenerates_of_lt hlow, spanGenerates_of_lt (by omega)]
    have hkeep : ∀ g ∈ generateFlips d p fresh, g.target ∉ p.generate := fun g hg hmem =>
      hnew _ (h.sits_generateFlips hnew g hg).2 (h.known (List.mem_append_left _ hmem))
    rw [hsame]
    exact h.generates.extend hkeep fresh y hzero i q (Nat.zero_le i) hold
  · have hq : q ∈ fresh := List.mem_of_getElem? hj
    obtain ⟨g, r, l, hg, hr, hl, hbit⟩ := testBit_generateFlips hlength'
      (h.propagate_length.trans h.generate_length.symm) hnodup
      (fun q hq hmem => hnew q hq (h.known hmem)) hj (flipAll fs y)
    rw [flipAll_append, hbit, ht.testBit_of_not_mem (hnew q hq), hzero q (List.mem_append_right _ hq),
      Bool.false_xor, h.generates y hzero' _ g (Nat.zero_le _) hg,
      h.propagates y hzero' _ r (Nat.le_add_right d j) hr,
      h.generates y hzero' _ l (Nat.zero_le _) hl, spanGenerates_double]

theorem sits_propagateFlips {ps : List QubitId} (hd : 0 < d) (hnodup : ps.Nodup)
    (hknown : ∀ q ∈ ps, q ∈ a ++ b ++ ancillae) (hnew : ∀ q ∈ fresh, q ∉ a ++ b ++ ancillae) :
    ∀ g ∈ propagateFlips d ps fresh,
      g.placement.Sits (a ++ b ++ (ancillae ++ fresh)) ∧ g.target ∈ fresh := by
  intro g hg
  obtain ⟨w, hw, rfl⟩ := List.mem_map.1 hg
  obtain ⟨j, hq, hr, hf⟩ := mem_propagateGates hw
  have hne : w.1 ≠ w.2.1 := fun heq => by
    have hindex := (List.getElem?_inj (List.getElem?_eq_some_iff.1 hq).1 hnodup).1
      (hq.trans (heq ▸ hr.symm))
    omega
  have htarget : w.2.2 ∈ fresh := List.mem_of_getElem? hf
  refine ⟨Flip.sits_fresh (List.nodup_cons.2 ⟨?_, List.nodup_singleton _⟩) (fun r hmem => ?_) htarget
    hnew, htarget⟩
  · exact fun hmem => hne (List.mem_singleton.1 hmem)
  · rcases List.mem_pair.1 hmem with rfl | rfl
    · exact hknown _ (List.mem_of_getElem? hq)
    · exact hknown _ (List.mem_of_getElem? hr)

theorem Reads.widenPropagate {ps : List QubitId} (h : Reads a b ancillae fs d ps (spanPropagates d))
    (hd : 0 < d) (hlength : ps.length = a.length) (hnodup : ps.Nodup)
    (hknown : ∀ q ∈ ps, q ∈ a ++ b ++ ancillae) (ht : s.Computing (a ++ b) id ancillae fs t)
    (hlive : ∀ q ∈ a ++ b, s.allocator.isLive q = true) (generate : List QubitId) :
    ∃ fresh gs t', exec (widenPropagate a.length d ⟨generate, ps⟩ : Synthesis ℝ (List QubitId)) t =
        (.ok (ps.take (2 * d) ++ fresh), t') ∧ fresh.length = a.length - 2 * d ∧ fresh.Nodup ∧
      (∀ q ∈ fresh, q ∉ a ++ b ++ ancillae) ∧ (∀ g ∈ gs, g.target ∈ fresh) ∧
      s.Computing (a ++ b) id (ancillae ++ fresh) (fs ++ gs) t' ∧
      Reads a b (ancillae ++ fresh) (fs ++ gs) (2 * d) (ps.take (2 * d) ++ fresh)
        (spanPropagates (2 * d)) ∧ Layered 2 (gs.map Flip.qubits) := by
  rcases Nat.lt_or_ge (2 * d) a.length with hwide | hnarrow
  · obtain ⟨fresh, t', hexec, hlength', hnodup', hnew, ht'⟩ := ht.extend (ε := SynthesisError) hlive
      (a.length - 2 * d) "propagate" (propagateFlips d ps) (ps.take (2 * d) ++ ·)
      fun fresh _ _ hnew g hg => (sits_propagateFlips hd hnodup hknown hnew g hg).1
    have hcount : fresh.length = ps.length - 2 * d := by rw [hlength', hlength]
    refine ⟨fresh, _, t', (widenPropagate_eq hwide _).symm ▸ hexec, hlength', hnodup', hnew,
      fun g hg => (sits_propagateFlips hd hnodup hknown hnew g hg).2, ht',
      fun y hzero i q hi hq => ?_, layered_propagateFlips hd (List.nodup_append'.2
        ⟨hnodup, hnodup', fun q hq hf => hnew q hf (hknown q hq)⟩)⟩
    have hzero' : ∀ q ∈ ancillae, y.testBit q = false := fun q hq =>
      hzero q (List.mem_append_left _ hq)
    obtain ⟨hlow, -⟩ | ⟨j, rfl, hj⟩ := getElem?_widened hcount hq
    · exact absurd hi (by omega)
    · have hmem : q ∈ fresh := List.mem_of_getElem? hj
      obtain ⟨r, l, hr, hl, hbit⟩ := testBit_propagateFlips hcount hnodup'
        (fun q hq hmem => hnew q hq (hknown q hmem)) hj (flipAll fs y)
      rw [flipAll_append, hbit, ht.testBit_of_not_mem (hnew q hmem),
        hzero q (List.mem_append_right _ hmem), Bool.false_xor,
        h y hzero' _ r (by omega) hr, h y hzero' _ l (Nat.le_add_right d j) hl, spanPropagates_double]
  · -- no later round extends a group
    have hall : ps.take (2 * d) ++ [] = ps := by
      rw [List.append_nil, List.take_of_length_le (by omega)]
    refine ⟨[], [], t, ?_, (Nat.sub_eq_zero_of_le hnarrow).symm, List.nodup_nil, by simp, by simp, ?_,
      fun y _ i q hi hq => ?_, Layered.nil⟩
    · unfold Adder.widenPropagate
      rw [if_neg (by omega), hall]
      rfl
    · rwa [List.append_nil, List.append_nil]
    · rw [hall] at hq
      exact absurd (List.getElem?_eq_some_iff.1 hq).1 (by omega)

theorem Spanned.widened {f₁ f₂ : List QubitId} {es gs : List Flip} (h : Spanned a b ancillae fs d p)
    (hlength₁ : f₁.length = a.length - d) (hlength₂ : f₂.length = a.length - 2 * d)
    (hnodup₁ : f₁.Nodup) (hnodup₂ : f₂.Nodup) (hnew₁ : ∀ q ∈ f₁, q ∉ a ++ b ++ ancillae)
    (hnew₂ : ∀ q ∈ f₂, q ∉ a ++ b ++ (ancillae ++ f₁)) (hes : ∀ g ∈ es, g.target ∈ f₁)
    (hgs : ∀ g ∈ gs, g.target ∈ f₂)
    (hgenerates : Reads a b (ancillae ++ f₁) (fs ++ es) 0 (p.generate.take d ++ f₁)
      (spanGenerates (2 * d)))
    (hpropagates : Reads a b (ancillae ++ f₁ ++ f₂) (fs ++ es ++ gs) (2 * d)
      (p.propagate.take (2 * d) ++ f₂) (spanPropagates (2 * d))) :
    Spanned a b (ancillae ++ f₁ ++ f₂) (fs ++ es ++ gs) (2 * d)
      ⟨p.generate.take d ++ f₁, p.propagate.take (2 * d) ++ f₂⟩ := by
  have hwider : ∀ q ∈ a ++ b ++ ancillae, q ∈ a ++ b ++ (ancillae ++ f₁) := fun q hq => by
    rw [← List.append_assoc]
    exact List.mem_append_left _ hq
  have hgenerates_known : ∀ q ∈ p.generate.take d ++ f₁, q ∈ ancillae ++ f₁ := fun q hq =>
    List.mem_append.2 ((List.mem_append.1 hq).imp_left fun hq =>
      h.generate_known q (List.mem_of_mem_take hq))
  have hb : ∀ q ∈ b, q ∈ a ++ b ++ ancillae := fun q hq =>
    List.mem_append_left _ (List.mem_append_right _ hq)
  have hgenerate_length := h.generate_length
  have hpropagate_length := h.propagate_length
  refine ⟨?_, ?_, ?_, ?_, ?_, ?_, hpropagates, ?_⟩
  · rw [List.length_append, List.length_take]
    omega
  · rw [List.length_append, List.length_take]
    omega
  · exact nodup_widened h.nodup hnodup₁ hnodup₂ (fun q hq hmem => hnew₁ q hq (h.known hmem))
      (fun q hq hmem => hnew₂ q hq (hwider q (h.known hmem)))
      fun q hq hmem => hnew₂ q hq (List.mem_append_right _ (List.mem_append_right _ hmem))
  · exact fun q hq => List.mem_append_left _ (hgenerates_known q hq)
  · intro q hq
    rw [← List.append_assoc]
    exact List.mem_append.2 ((List.mem_append.1 hq).imp_left fun hq =>
      hwider q (h.propagate_known q (List.mem_of_mem_take hq)))
  · exact hgenerates.extend (fun g hg hmem =>
      hnew₂ _ (hgs g hg) (List.mem_append_right _ (hgenerates_known _ hmem))) f₂
  · have hfirst := h.parities.extend (fun g hg hmem => hnew₁ _ (hes g hg) (hb _ hmem)) f₁
    exact hfirst.extend (fun g hg hmem => hnew₂ _ (hgs g hg) (hwider _ (hb _ hmem))) f₂

theorem Spanned.round (h : Spanned a b ancillae fs d p) (hd : 0 < d)
    (ht : s.Computing (a ++ b) id ancillae fs t)
    (hlive : ∀ q ∈ a ++ b, s.allocator.isLive q = true) :
    ∃ p' t' ancillae' gs,
      exec (lookaheadRound a.length p d : Synthesis ℝ Prefixes) t = (.ok p', t') ∧
      s.Computing (a ++ b) id ancillae' (fs ++ gs) t' ∧
      Spanned a b ancillae' (fs ++ gs) (2 * d) p' ∧ Layered 4 (gs.map Flip.qubits) := by
  obtain ⟨f₁, t₁, hgenerate, hlength₁, hnodup₁, hnew₁, ht₁, hreads₁⟩ := h.widenGenerate ht hlive
  have htargets₁ : ∀ g ∈ generateFlips d p f₁, g.target ∈ f₁ := fun g hg =>
    (h.sits_generateFlips hnew₁ g hg).2
  have hpropagates := h.propagates.extend
    (fun g hg hmem => hnew₁ _ (htargets₁ g hg) (h.propagate_known _ hmem)) f₁
  have hknown : ∀ q ∈ p.propagate, q ∈ a ++ b ++ (ancillae ++ f₁) := fun q hq => by
    rw [← List.append_assoc]
    exact List.mem_append_left _ (h.propagate_known q hq)
  obtain ⟨f₂, gs, t₂, hpropagate, hlength₂, hnodup₂, hnew₂, htargets₂, ht₂, hreads₂, hlevels₂⟩ :=
    hpropagates.widenPropagate hd h.propagate_length (List.nodup_append.1 h.nodup).2.1 hknown ht₁
      hlive p.generate
  have hspanned := h.widened hlength₁ hlength₂ hnodup₁ hnodup₂ hnew₁ hnew₂ htargets₁ htargets₂
    hreads₁ hreads₂
  have hlevels₁ := layered_generateFlips (d := d) h.nodup hnodup₁
    fun q hq hmem => hnew₁ q hq (h.known hmem)
  rw [List.append_assoc fs] at hspanned ht₂
  refine ⟨_, t₂, _, _, ?_, ht₂, hspanned, ?_⟩
  · unfold lookaheadRound
    rw [exec_bind_of hgenerate, exec_bind_of hpropagate]
    rfl
  · rw [List.map_append]
    exact hlevels₁.append hlevels₂

theorem Spanned.rounds (h : Spanned a b ancillae fs 1 p) (ht : s.Computing (a ++ b) id ancillae fs t)
    (hlive : ∀ q ∈ a ++ b, s.allocator.isLive q = true) (j : ℕ) :
    ∃ p' t' ancillae' gs, exec (((List.range j).map bitWeight).foldlM (lookaheadRound a.length) p :
        Synthesis ℝ Prefixes) t = (.ok p', t') ∧
      s.Computing (a ++ b) id ancillae' (fs ++ gs) t' ∧
      Spanned a b ancillae' (fs ++ gs) (2 ^ j) p' ∧ Layered (4 * j) (gs.map Flip.qubits) := by
  induction j with
  | zero =>
    rw [← List.append_nil fs] at h ht
    exact ⟨p, t, ancillae, [], rfl, ht, h, Layered.nil⟩
  | succ j ih =>
    obtain ⟨p₁, t₁, ancillae₁, gs₁, hbefore, ht₁, h₁, hlevels₁⟩ := ih
    obtain ⟨p₂, t₂, ancillae₂, gs₂, hround, ht₂, h₂, hlevels₂⟩ :=
      h₁.round (Nat.two_pow_pos j) ht₁ hlive
    have hlast : exec ([bitWeight j].foldlM (lookaheadRound a.length) p₁ : Synthesis ℝ Prefixes) t₁ =
        (.ok p₂, t₂) := (exec_bind_of hround).trans rfl
    rw [List.append_assoc, ← Nat.pow_succ'] at h₂
    refine ⟨p₂, t₂, ancillae₂, gs₁ ++ gs₂, ?_, List.append_assoc fs gs₁ gs₂ ▸ ht₂, h₂, ?_⟩
    · rw [List.range_succ, List.map_append, List.foldlM_append, exec_bind_of hbefore]
      exact hlast
    · rw [List.map_append]
      exact hlevels₁.append hlevels₂

theorem carries_of_spanned (h : Spanned a b ancillae fs d p) (hd : a.length ≤ d) {y : ℕ}
    (hzero : ∀ q ∈ ancillae, y.testBit q = false) :
    (∀ i (hi : i < p.generate.length), (flipAll fs y).testBit p.generate[i] =
      generates (reading a y) (reading b y) 0 (i + 1)) ∧
    ∀ i (hi : i < (b.map ([·])).length), parity (b.map ([·]))[i] (flipAll fs y) =
      ((reading a y).testBit i ^^ (reading b y).testBit i) := by
  refine ⟨fun i hi => ?_, fun i hi => ?_⟩
  · rw [h.generates y hzero i _ (Nat.zero_le i) (List.getElem?_eq_getElem hi),
      spanGenerates_of_lt ((h.generate_length ▸ hi).trans_le hd)]
  · have hi' : i < b.length := by rwa [List.length_map] at hi
    rw [List.getElem_map, ← spanPropagates_one,
      ← h.parities y hzero i _ (Nat.zero_le i) (List.getElem?_eq_getElem hi')]
    exact Bool.xor_false _

/-! ## The start -/

theorem mem_startFlips {bits : List CarryBit} {f : Flip} (hf : f ∈ startFlips bits) :
    ∃ bit ∈ bits, f = .double bit.a bit.b bit.carry ∨ f = .single bit.a bit.b := by
  obtain ⟨bit, hbit, hf⟩ := List.mem_flatMap.1 hf
  exact ⟨bit, hbit, List.mem_pair.1 hf⟩

theorem independent_startFlips {bits : List CarryBit} (hb : (bits.map CarryBit.b).Nodup)
    (hcarry : (bits.map CarryBit.carry).Nodup)
    (hapart : ∀ bit ∈ bits, bit.a ∉ bits.map CarryBit.b ∧ bit.a ∉ bits.map CarryBit.carry ∧
      bit.b ∉ bits.map CarryBit.carry) : Independent (startFlips bits) := by
  have hmemb : ∀ {bit}, bit ∈ bits → bit.b ∈ bits.map CarryBit.b := List.mem_map_of_mem
  have hmemc : ∀ {bit}, bit ∈ bits → bit.carry ∈ bits.map CarryBit.carry := List.mem_map_of_mem
  refine List.pairwise_flatMap.2 ⟨fun bit hbit => List.pairwise_pair.2 fun hmem => ?_, ?_⟩
  · obtain ⟨-, ha, hb'⟩ := hapart bit hbit
    have hoperand : bit.carry ∈ [bit.a, bit.b] := hmem
    rcases List.mem_pair.1 hoperand with heq | heq
    · exact ha (heq ▸ hmemc hbit)
    · exact hb' (heq ▸ hmemc hbit)
  · have hpairs := (List.pairwise_map.1 hb).and (List.pairwise_map.1 hcarry)
    refine hpairs.imp_of_mem fun {bit bit'} hbit hbit' hne e he f hf => ?_
    obtain ⟨hneb, hnec⟩ := hne
    obtain ⟨hab, hac, hbc⟩ := hapart bit' hbit'
    obtain ⟨-, -, hbc'⟩ := hapart bit hbit
    have hfirst : bit.carry ∉ [bit'.a, bit'.b, bit'.carry] := by
      simp only [List.mem_cons, List.not_mem_nil, or_false, not_or]
      exact ⟨fun h => hac (h ▸ hmemc hbit), fun h => hbc (h ▸ hmemc hbit), hnec⟩
    have hsecond : bit.b ∉ [bit'.a, bit'.b, bit'.carry] := by
      simp only [List.mem_cons, List.not_mem_nil, or_false, not_or]
      exact ⟨fun h => hab (h ▸ hmemb hbit), hneb, fun h => hbc' (h ▸ hmemc hbit')⟩
    have hqubits : ∀ q ∈ f.qubits, q ∈ [bit'.a, bit'.b, bit'.carry] := by
      rcases List.mem_pair.1 hf with rfl | rfl
      · exact fun q hq => hq
      · exact fun q hq => List.mem_append_left [bit'.carry] hq
    rcases List.mem_pair.1 he with rfl | rfl
    · exact fun hmem => hfirst (hqubits _ hmem)
    · exact fun hmem => hsecond (hqubits _ hmem)

section Start

variable {generate : List QubitId} (hsame : b.length = a.length) (hdistinct : (a ++ b).Nodup)
  (hlength : generate.length = a.length) (hnodup : generate.Nodup)
  (hnew : ∀ q ∈ generate, q ∉ a ++ b)
include hsame hdistinct hlength hnodup hnew

theorem sits_startFlips : ∀ f ∈ startFlips (carryBits a b generate),
    f.placement.Sits (a ++ b ++ generate) := by
  have hchained := chained_carryBits hlength.symm (hsame.trans hlength.symm) hdistinct hnodup hnew
  intro f hf
  obtain ⟨bit, hbit, hform⟩ := mem_startFlips hf
  obtain ⟨ha, hb, hne⟩ := hchained.operands bit hbit
  obtain ⟨i, hi⟩ := List.mem_iff_getElem?.1 hbit
  have hcarry : bit.carry ∈ generate := List.mem_of_getElem? (getElem?_carryBits.1 hi).2.2
  have hall : [bit.a, bit.b, bit.carry].Nodup := by
    have hac : bit.a ≠ bit.carry := fun heq => hnew _ hcarry (heq ▸ ha)
    have hbc : bit.b ≠ bit.carry := fun heq => hnew _ hcarry (heq ▸ hb)
    simp [hne, hac, hbc]
  have hmem : ∀ q ∈ [bit.a, bit.b, bit.carry], q ∈ a ++ b ++ generate := by
    simp only [List.forall_mem_cons]
    exact ⟨List.mem_append_left _ ha, List.mem_append_left _ hb, List.mem_append_right _ hcarry,
      fun q hq => absurd hq List.not_mem_nil⟩
  rcases hform with rfl | rfl
  · exact Flip.sits hall hmem
  · exact Flip.sits (hall.sublist (List.sublist_append_left [bit.a, bit.b] [bit.carry]))
      fun q hq => hmem q (List.mem_append_left [bit.carry] hq)

theorem independent_start : Independent (startFlips (carryBits a b generate)) := by
  have ha : generate.length ≤ a.length := hlength.le
  have hb : generate.length ≤ b.length := (hlength.trans hsame.symm).le
  obtain ⟨-, hbnodup, hapart⟩ := List.nodup_append.1 hdistinct
  have hmapb : (carryBits a b generate).map CarryBit.b = b := by
    have hinner : (b.zip generate).map Prod.fst = b := List.map_fst_zip (hsame.trans hlength.symm).le
    have houter : (a.zip (b.zip generate)).map Prod.snd = b.zip generate :=
      List.map_snd_zip (by rw [List.length_zip]; omega)
    calc (carryBits a b generate).map CarryBit.b
        = ((a.zip (b.zip generate)).map Prod.snd).map Prod.fst := by
          rw [carryBits, List.map_map, List.map_map]
          rfl
      _ = b := by rw [houter, hinner]
  have hmapc : (carryBits a b generate).map CarryBit.carry = generate :=
    map_carry_carryBits hlength.symm (hsame.trans hlength.symm)
  refine independent_startFlips (by rwa [hmapb]) (by rwa [hmapc]) fun bit hbit => ?_
  rw [hmapb, hmapc]
  obtain ⟨i, hi⟩ := List.mem_iff_getElem?.1 hbit
  obtain ⟨hai, hbi, -⟩ := getElem?_carryBits.1 hi
  have hmema := List.mem_of_getElem? hai
  exact ⟨fun hmem => hapart _ hmema _ hmem rfl,
    fun hmem => hnew _ hmem (List.mem_append_left _ hmema),
    fun hmem => hnew _ hmem (List.mem_append_right _ (List.mem_of_getElem? hbi))⟩

theorem spanned_start :
    Spanned a b generate (startFlips (carryBits a b generate)) 1 ⟨generate, b⟩ := by
  have hindependent := independent_start hsame hdistinct hlength hnodup hnew
  have hbit : ∀ i (h : i < a.length), ⟨a[i], b[i], generate[i]⟩ ∈ carryBits a b generate := fun i h =>
    List.mem_of_getElem? (getElem?_carryBits.2 ⟨List.getElem?_eq_getElem h,
      List.getElem?_eq_getElem _, List.getElem?_eq_getElem _⟩)
  have hparities : Reads a b generate (startFlips (carryBits a b generate)) 0 b
      (spanPropagates 1) := by
    intro y _ i q _ hq
    obtain ⟨hi, rfl⟩ := List.getElem?_eq_some_iff.1 hq
    have hmem : Flip.single a[i] b[i] ∈ startFlips (carryBits a b generate) :=
      List.mem_flatMap.2 ⟨_, hbit i (hsame ▸ hi), by simp⟩
    have hflip := hindependent.testBit_flipAll hmem y
    rw [spanPropagates_one, testBit_reading (hsame ▸ hi), testBit_reading hi, Bool.xor_comm]
    exact hflip
  have hgenerates : Reads a b generate (startFlips (carryBits a b generate)) 0 generate
      (spanGenerates 1) := by
    intro y hzero i q _ hq
    obtain ⟨hi, rfl⟩ := List.getElem?_eq_some_iff.1 hq
    have hmem : Flip.double a[i] b[i] generate[i] ∈ startFlips (carryBits a b generate) :=
      List.mem_flatMap.2 ⟨_, hbit i (hlength ▸ hi), by simp⟩
    have hflip : (flipAll (startFlips (carryBits a b generate)) y).testBit generate[i] =
        (y.testBit generate[i] ^^ (y.testBit a[i] && y.testBit b[i])) :=
      hindependent.testBit_flipAll hmem y
    rw [hflip, hzero _ (List.getElem_mem hi), Bool.false_xor, spanGenerates_one, testBit_reading,
      testBit_reading]
  refine ⟨hlength, hsame, ?_, fun q hq => hq, fun q hq => ?_, hgenerates, ?_, hparities⟩
  · refine List.nodup_append.2 ⟨hnodup, (List.nodup_append.1 hdistinct).2.1, fun q hq r hr heq => ?_⟩
    exact hnew q hq (heq ▸ List.mem_append_right _ hr)
  · exact List.mem_append_left _ (List.mem_append_right _ hq)
  · exact fun y hzero i q _ hq => hparities y hzero i q (Nat.zero_le i) hq

end Start

/-! ## The adder -/

theorem exec_lookaheadCarries (hsame : b.length = a.length) (hdistinct : (a ++ b).Nodup)
    (hlive : ∀ q ∈ a ++ b, s.allocator.isLive q = true) (ht : s.Computing (a ++ b) id [] [] t) :
    ∃ p t' ancillae fs, exec (do
        let generate ← Build.allocate a.length "generate"
        (carryBits a b generate).forM fun bit => do
          Build.ccx bit.a bit.b bit.carry
          Build.cx bit.a bit.b
        let last ← (spans a.length).foldlM (lookaheadRound a.length) ⟨generate, b⟩
        return last.generate : Synthesis ℝ (List QubitId)) t = (.ok p.generate, t') ∧
      s.Computing (a ++ b) id ancillae fs t' ∧
      Spanned a b ancillae fs (2 ^ Nat.clog 2 a.length) p ∧
      Layered (2 + 4 * Nat.clog 2 a.length) (fs.map Flip.qubits) := by
  obtain ⟨generate, t₁, hstart, hlength, hnodup, hnew, ht₁⟩ := ht.extend (ε := SynthesisError) hlive
    a.length "generate" (fun generate => startFlips (carryBits a b generate))
    (fun generate => generate) fun generate hlength hnodup hnew =>
      sits_startFlips hsame hdistinct hlength hnodup
        fun q hq hmem => hnew q hq (List.mem_append_left _ hmem)
  rw [List.append_nil] at hnew
  -- the first flips give every bit a group of its own, and each round doubles the groups
  have hspanned := spanned_start hsame hdistinct hlength hnodup hnew
  have hlevels : Layered 2 ((startFlips (carryBits a b generate)).map Flip.qubits) := by
    refine layered_startFlips ?_
    rw [← List.append_assoc]
    exact List.nodup_append'.2 ⟨hdistinct, hnodup, fun q hq hg => hnew q hg hq⟩
  obtain ⟨p, t₂, ancillae, gs, hrounds, ht₂, hp, hlevels₂⟩ :=
    hspanned.rounds ht₁ hlive (Nat.clog 2 a.length)
  refine ⟨p, t₂, ancillae, _, ?_, ht₂, hp, ?_⟩
  · have hcalls : (do
        let generate ← Build.allocate a.length "generate"
        (carryBits a b generate).forM fun bit => do
          Build.ccx bit.a bit.b bit.carry
          Build.cx bit.a bit.b
        let last ← (spans a.length).foldlM (lookaheadRound a.length) ⟨generate, b⟩
        return last.generate : Synthesis ℝ (List QubitId)) =
        (do
          let generate ← Build.allocate a.length "generate"
          Build.flips (startFlips (carryBits a b generate))
          return generate : Synthesis ℝ (List QubitId)) >>= fun generate =>
          (spans a.length).foldlM (lookaheadRound a.length) ⟨generate, b⟩ >>= fun last =>
            pure last.generate := by
      simp only [start_eq, bind_assoc, pure_bind]
    rw [hcalls, exec_bind_of hstart, spans_eq, exec_bind_of hrounds]
    rfl
  · rw [List.map_append]
    exact hlevels.append hlevels₂

theorem findsCarries_lookahead (hsame : b.length = a.length) (hdistinct : (a ++ b).Nodup) :
    FindsCarries (do
      let generate ← Build.allocate a.length "generate"
      (carryBits a b generate).forM fun bit => do
        Build.ccx bit.a bit.b bit.carry
        Build.cx bit.a bit.b
      let last ← (spans a.length).foldlM (lookaheadRound a.length) ⟨generate, b⟩
      return last.generate) a b (b.map ([·])) := by
  intro s t id hlive ht
  obtain ⟨p, t', ancillae, fs, hexec, ht', hp, -⟩ := exec_lookaheadCarries hsame hdistinct hlive ht
  exact ⟨p.generate, t', ancillae, fs, hexec, ht', hp.generate_length, hp.generate_known,
    fun y hzero => carries_of_spanned hp (Nat.le_pow_clog Nat.one_lt_two _) hzero⟩

theorem lookaheadAdd_sums_of_idle {a b : Variable} (hs : s.Idle)
    (hwidth : Synthesis.Supported a.width) (hsame : a.width = b.width)
    (hdistinct : (a.qubits ++ b.qubits).Nodup)
    (hlive : ∀ q ∈ a.qubits ++ b.qubits, s.allocator.isLive q = true) :
    Sums (lookaheadAdd a b) s a.qubits b.qubits := by
  have hlength : b.qubits.length = a.qubits.length := hsame.symm
  refine Sums.after ((Synthesis.checks_width _ _).1 hwidth)
    (Sums.after ((Synthesis.checks_sameWidth _ _ _).1 hsame) ?_)
  refine (findsCarries_lookahead hlength hdistinct).sums (hwidth.2.trans_lt (by decide)) hlength
    (by rw [List.length_map, hlength]) (fun qs hqs q hq => ?_) hs hlive "lookahead_add"
  obtain ⟨r, hr, rfl⟩ := List.mem_map.1 hqs
  exact List.mem_append_right _ (List.mem_singleton.1 hq ▸ hr)

/-- With carries computed in parallel or in a chain, registers of any supported width are summed, so
the two adders agree on all operands. Neither leaves a trace of its computation: all qubits but those
of the sum are returned and read what they read before. -/
theorem adders_sum {s : Session ℝ} {a b : Variable} (hs : s.Reachable) (hp : s.isPoisoned = false)
    (hopen : s.numOpen = 0) (hunlimited : s.allocator.capacity = none)
    (hwidth : Synthesis.checkWidth "lookahead_add" a.width = .ok ()) (hsame : a.width = b.width)
    (hdistinct : (a.qubits ++ b.qubits).Nodup)
    (hlive : ∀ q ∈ a.qubits ++ b.qubits, s.allocator.isLive q = true) :
    Sums (lookaheadAdd a b) s a.qubits b.qubits ∧ Sums (rippleAdd a b) s a.qubits b.qubits := by
  have hidle := hs.idle hp hopen hunlimited
  have hsupported := (Synthesis.checks_width _ _).of_ok hwidth
  exact ⟨lookaheadAdd_sums_of_idle hidle hsupported hsame hdistinct hlive,
    rippleAdd_sums_of_idle hidle hsupported hsame hdistinct hlive⟩

theorem adders_sum_three_bits :
    ∃ s : Session ℝ, s = (Session.new {}).after [.allocate 3 "a", .allocate 3 "b"] ∧
      Sums (lookaheadAdd ⟨"a", [0, 1, 2], .integer false⟩ ⟨"b", [3, 4, 5], .integer false⟩) s
        [0, 1, 2] [3, 4, 5] ∧
      Sums (rippleAdd ⟨"a", [0, 1, 2], .integer false⟩ ⟨"b", [3, 4, 5], .integer false⟩) s
        [0, 1, 2] [3, 4, 5] :=
  ⟨_, rfl, adders_sum ((Session.Reachable.new {}).after _) (by decide +kernel) (by decide +kernel)
    (by decide +kernel) rfl (by decide) (by decide) (by decide +kernel)⟩

end Ancilla.Adder
