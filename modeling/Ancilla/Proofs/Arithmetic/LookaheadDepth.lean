import Ancilla.Proofs.Arithmetic.Lookahead
import Ancilla.Proofs.Circuit.Threads
import Ancilla.Proofs.Session.Limits

/-!
The depth of the carry-lookahead adder. The computation takes two levels for the start and four for
each round, as many as there are doublings up to the width; its undoing takes the same levels
backwards, and the sum between them two. Main statement: whenever the adder succeeds, a circuit of
the instructions that it appends is no deeper than the sum of these.
-/

namespace Ancilla

open Session

theorem Session.Reachable.built {R : Type} [Scalar R] {s : Session R} (h : s.Reachable) :
    s.circuit.Built :=
  h.invariant (P := fun s => s.circuit.Built) (fun config => .new config.name)
    fun s c hs => hs.grown (perform_grown s c)

/-! ## The levels of a conjugation -/

theorem Flip.wires_shielded (f : Flip) :
    WireGraph.wires f.placement.shielded.instruction = f.qubits.map .qubit := by
  cases f <;> rfl

theorem Flip.wires_placement (f : Flip) :
    WireGraph.wires f.placement.instruction = f.qubits.map .qubit := by
  cases f <;> rfl

theorem Flip.wires_undone (f : Flip) :
    WireGraph.wires f.placement.shielded.undone.instruction = f.qubits.map .qubit := by
  cases f <;> rfl

theorem Session.layered_conjugated {fs gs : List Flip} {j k : ℕ}
    (hfs : Layered j (fs.map Flip.qubits)) (hgs : Layered k (gs.map Flip.qubits)) :
    Layered (j + k + j)
      (((conjugated fs gs).map Placement.instruction).map WireGraph.wires) := by
  have hwires : ((conjugated fs gs).map Placement.instruction).map WireGraph.wires =
      (fs.map Flip.qubits ++ gs.map Flip.qubits ++ (fs.map Flip.qubits).reverse).map
        (List.map Wire.qubit) := by
    simp only [conjugated, List.map_append, List.map_map, List.map_reverse, Function.comp_def,
      Flip.wires_shielded, Flip.wires_placement, Flip.wires_undone]
  rw [hwires]
  exact ((hfs.append hgs).append hfs.reverse).map fun _ _ h => Wire.qubit.inj h

namespace Adder

open Build

/-! ## The levels of the sum -/

theorem perm_flatten_inputs (previous : Option QubitId) (pairs : List (List QubitId × QubitId)) :
    (inputs previous pairs).flatten.Perm
      (previous.toList ++ (pairs.flatMap Prod.fst ++ pairs.map Prod.snd)) := by
  induction pairs generalizing previous with
  | nil => simp [inputs]
  | cons pair rest ih =>
    rw [List.perm_iff_count]
    intro q
    have hrest := List.perm_iff_count.1 (ih (some pair.2)) q
    simp only [inputs, List.flatten_cons, List.flatMap_cons, List.map_cons, List.count_append,
      Option.toList_some, List.count_cons, List.count_nil] at hrest ⊢
    omega

theorem length_le_of_mem_inputs {previous : Option QubitId} {pairs : List (List QubitId × QubitId)}
    {k : ℕ} (h : ∀ pair ∈ pairs, pair.1.length ≤ k) {qs : List QubitId}
    (hqs : qs ∈ inputs previous pairs) : qs.length ≤ k + 1 := by
  induction pairs generalizing previous with
  | nil =>
    obtain rfl := List.mem_singleton.1 hqs
    cases previous <;> simp
  | cons pair rest ih =>
    obtain ⟨hpair, hrest⟩ := List.forall_mem_cons.1 h
    rcases List.mem_cons.1 hqs with rfl | hqs
    · rw [List.length_append]
      cases previous <;> simp <;> omega
    · exact ih hrest hqs

theorem layered_sumFlips {previous : Option QubitId} {pairs : List (List QubitId × QubitId)}
    {sum : List QubitId} {k : ℕ} (hk : ∀ pair ∈ pairs, pair.1.length ≤ k)
    (h : (previous.toList ++ (pairs.flatMap Prod.fst ++ pairs.map Prod.snd) ++ sum).Nodup) :
    Layered (k + 1) ((sumFlips previous pairs sum).map Flip.qubits) := by
  obtain ⟨zs, hzs⟩ : ∃ zs, zs = (inputs previous pairs).zip sum := ⟨_, rfl⟩
  have hfst : (zs.map Prod.fst).Sublist (inputs previous pairs) := hzs ▸ sublist_map_fst_zip _ _
  have hsnd : (zs.map Prod.snd).Sublist sum := hzs ▸ sublist_map_snd_zip _ _
  have hqubits : (zs.flatMap fun z => z.1 ++ [z.2]).Nodup := by
    have hperm := List.flatMap_append_perm zs Prod.fst fun z => [z.2]
    rw [← List.map_eq_flatMap, List.flatMap_def] at hperm
    refine hperm.nodup_iff.1 ((hfst.flatten.append hsnd).nodup ?_)
    exact ((perm_flatten_inputs previous pairs).append_right sum).nodup_iff.2 h
  rw [sumFlips, gather, ← hzs, List.map_flatMap]
  refine Layered.flatMap (fun z hz => ?_) (fun z _ u hu => ?_) hqubits
  · refine (Layered.of_length _).mono ?_
    rw [List.length_map, List.length_map]
    exact length_le_of_mem_inputs hk (hfst.subset (List.mem_map_of_mem hz))
  · obtain ⟨f, hf, rfl⟩ := List.mem_map.1 hu
    obtain ⟨q, hq, rfl⟩ := List.mem_map.1 hf
    exact List.cons_subset.2 ⟨List.mem_append_left _ hq, List.subset_append_right z.1 [z.2]⟩

theorem layered_parts {b carry ancillae sum : List QubitId} (hb : b.Nodup) (hcarry : carry.Nodup)
    (hknown : ∀ q ∈ carry, q ∈ ancillae) (hnodup : (ancillae ++ sum).Nodup)
    (hfresh : ∀ q ∈ b, q ∉ ancillae ++ sum) :
    Layered 2 ((sumFlips none ((b.map ([·])).zip carry) sum).map Flip.qubits) := by
  obtain ⟨-, hsum, hapart⟩ := List.nodup_append'.1 hnodup
  have hall : (b ++ carry ++ sum).Nodup := by
    refine List.nodup_append'.2 ⟨List.nodup_append'.2 ⟨hb, hcarry, fun q hq hc => ?_⟩, hsum,
      fun q hq hs => ?_⟩
    · exact hfresh q hq (List.mem_append_left _ (hknown q hc))
    · rcases List.mem_append.1 hq with hq | hc
      · exact hfresh q hq (List.mem_append_right _ hs)
      · exact hapart (hknown q hc) hs
  have haddends : (((b.map ([·])).zip carry).flatMap Prod.fst).Sublist b := by
    have hsub := (sublist_map_fst_zip (b.map ([·])) carry).flatten
    rwa [← List.flatMap_def, ← List.flatMap_def, List.flatMap_singleton'] at hsub
  refine layered_sumFlips (fun pair hpair => ?_)
    (((haddends.append (sublist_map_snd_zip _ carry)).append_right sum).nodup hall)
  obtain ⟨q, -, hq⟩ := List.mem_map.1 (List.of_mem_zip hpair).1
  rw [← hq]
  exact le_rfl

/-! ## The adder -/

variable {s : Session ℝ} {a b : Variable}

theorem exec_lookaheadAdd (hs : s.Idle) (hwidth : Synthesis.Supported a.width)
    (hsame : a.width = b.width) (hdistinct : (a.qubits ++ b.qubits).Nodup)
    (hlive : ∀ q ∈ a.qubits ++ b.qubits, s.allocator.isLive q = true) :
    ∃ sum s' l, (lookaheadAdd a b).exec s = (.ok sum, s') ∧ s'.emissions = s.emissions ++ l ∧
      Layered (8 * Nat.clog 2 a.width + 6) (l.map WireGraph.wires) := by
  have hlength : b.qubits.length = a.qubits.length := hsame.symm
  have hlengths : (b.qubits.map ([·])).length = a.qubits.length := by rw [List.length_map, hlength]
  have hamong : ∀ qs ∈ b.qubits.map ([·]), ∀ q ∈ qs, q ∈ a.qubits ++ b.qubits := by
    intro qs hqs q hq
    obtain ⟨r, hr, rfl⟩ := List.mem_map.1 hqs
    exact List.mem_append_right _ (List.mem_singleton.1 hq ▸ hr)
  obtain ⟨-, h₀⟩ := hs.enter_conjugation (a.qubits ++ b.qubits) "lookahead_add"
  obtain ⟨p, t₁, ancillae, fs, hcompute, h₁, hp, hlevels⟩ :=
    exec_lookaheadCarries hlength hdistinct hlive h₀
  obtain ⟨sum, s', hexec, hsummed⟩ := exec_conjugate_sum hs hlive (hwidth.2.trans_lt (by decide))
    hlength hlengths hamong hcompute h₁ hp.generate_length hp.generate_known fun y hzero =>
      carries_of_spanned hp (Nat.le_pow_clog Nat.one_lt_two _) hzero
  have hfresh : ∀ q ∈ b.qubits, q ∉ ancillae ++ sum := fun q hq hmem => by
    have hold := hlive q (List.mem_append_right _ hq)
    rw [hsummed.fresh q hmem] at hold
    exact Bool.noConfusion hold
  -- the levels: those of the computation there and back, and two for the sum
  have hsum := layered_parts (List.nodup_append.1 hdistinct).2.1 (List.nodup_append.1 hp.nodup).1
    hp.generate_known hsummed.nodup hfresh
  refine ⟨⟨"sum", sum, .integer false⟩, s', _, ?_, hsummed.emissions,
    (layered_conjugated hlevels hsum).mono ?_⟩
  · have hwidth' : Synthesis.checkWidth "lookahead_add" a.width = .ok () :=
      (Synthesis.checks_width _ _).1 hwidth
    have hsame' : Synthesis.checkSameWidth "lookahead_add" a.width b.width = .ok () :=
      (Synthesis.checks_sameWidth _ _ _).1 hsame
    unfold lookaheadAdd
    simp only [hwidth', hsame']
    exact hexec
  · show 2 + 4 * Nat.clog 2 a.width + 2 + (2 + 4 * Nat.clog 2 a.width) ≤ _
    omega

theorem flips_plain (fs : List Flip) : Plain (Build.flips fs : Synthesis ℝ Unit) :=
  .forM fun _ => .standard _ _

theorem lookaheadRound_plain (n : ℕ) (p : Prefixes) (d : ℕ) :
    Plain (lookaheadRound n p d : Synthesis ℝ Prefixes) := by
  have hgenerate : Plain (widenGenerate n d p : Synthesis ℝ (List QubitId)) := by
    rw [widenGenerate_eq]
    exact .bind (.allocate _ _) fun _ => .bind (flips_plain _) fun _ => .pure _
  have hpropagate : Plain (widenPropagate n d p : Synthesis ℝ (List QubitId)) := by
    by_cases h : 2 * d < n
    · rw [widenPropagate_eq h]
      exact .bind (.allocate _ _) fun _ => .bind (flips_plain _) fun _ => .pure _
    · unfold widenPropagate
      rw [if_neg h]
      exact .pure _
  exact .bind hgenerate fun _ => .bind hpropagate fun _ => .pure _

theorem lookaheadAdd_plain (a b : Variable) : Plain (lookaheadAdd a b : Synthesis ℝ Variable) := by
  refine .bind (.ofExcept _) fun _ => .bind (.ofExcept _) fun _ => .conjugate _ ?_ fun carry => ?_
  · simp only [start_eq]
    exact .bind (.allocate _ _) fun _ => .bind (flips_plain _) fun _ =>
      .bind (.foldlM (fun p d => lookaheadRound_plain _ p d) _) fun _ => .pure _
  · simp only [sumBits_eq]
    exact .bind (.allocate _ _) fun _ => .bind (flips_plain _) fun _ =>
      .bind (.exportQubits _) fun _ => .ofExcept _

/-- The depth of the lookahead adder grows with the logarithm of the width. Without a limit on the
qubits the call succeeds; whenever it succeeds, a circuit that consists of the instructions which it
appends, those of the computation, of the sum and of the undoing, is no deeper than eight for each
doubling up to the width and six; so is the circuit of the session, if this was empty before. -/
theorem lookaheadAdd_depth (hs : s.Reachable) (hp : s.isPoisoned = false) (hopen : s.numOpen = 0)
    (hwidth : Synthesis.checkWidth "lookahead_add" a.width = .ok ()) (hsame : a.width = b.width)
    (hdistinct : (a.qubits ++ b.qubits).Nodup)
    (hlive : ∀ q ∈ a.qubits ++ b.qubits, s.allocator.isLive q = true) :
    (s.allocator.capacity = none → ∃ sum s', (lookaheadAdd a b).exec s = (.ok sum, s')) ∧
    ∀ sum s', (lookaheadAdd a b).exec s = (.ok sum, s') → ∃ l, s'.emissions = s.emissions ++ l ∧
      (∀ c : Circuit ℝ, c.Built → c.instructions.toList = l →
        c.depth ≤ 8 * Nat.clog 2 a.width + 6) ∧
      (s.emissions = [] → s'.circuit.depth ≤ 8 * Nat.clog 2 a.width + 6) := by
  have hsupported := (Synthesis.checks_width _ _).of_ok hwidth
  refine ⟨fun hunlimited => ?_, fun sum s' hexec => ?_⟩
  · obtain ⟨sum, s', -, hexec, -⟩ :=
      exec_lookaheadAdd (hs.idle hp hopen hunlimited) hsupported hsame hdistinct hlive
    exact ⟨sum, s', hexec⟩
  · obtain ⟨sum', t, l, hexec', hemissions, hlevels⟩ :=
      exec_lookaheadAdd (hs.idle_unlimited hp hopen) hsupported hsame hdistinct hlive
    have hunlimited := (lookaheadAdd_plain a b).exec_unlimited hexec
    obtain ⟨-, rfl⟩ := Prod.mk.inj (hexec'.symm.trans hunlimited)
    have hdepth : ∀ c : Circuit ℝ, c.Built → c.instructions.toList = l →
        c.depth ≤ 8 * Nat.clog 2 a.width + 6 := fun c hc hl => hc.depth_le (hl ▸ hlevels)
    refine ⟨l, hemissions, hdepth, fun hempty => hdepth _ ?_ ?_⟩
    · exact ((lookaheadAdd_plain a b).isPublic.reachable hs hexec).built
    · have happended : s'.emissions = s.emissions ++ l := hemissions
      rwa [hempty] at happended

theorem lookaheadAdd_depth_five_bits :
    ∃ (s : Session ℝ) (sum : Variable) (s' : Session ℝ),
      s = (Session.new {}).after [.allocate 5 "a", .allocate 5 "b"] ∧
      (lookaheadAdd ⟨"a", [0, 1, 2, 3, 4], .integer false⟩
        ⟨"b", [5, 6, 7, 8, 9], .integer false⟩).exec s = (.ok sum, s') ∧ s'.circuit.depth ≤ 30 := by
  obtain ⟨hsucceeds, hdepth⟩ := lookaheadAdd_depth
    (s := (Session.new {}).after [.allocate 5 "a", .allocate 5 "b"])
    (a := ⟨"a", [0, 1, 2, 3, 4], .integer false⟩) (b := ⟨"b", [5, 6, 7, 8, 9], .integer false⟩)
    ((Session.Reachable.new {}).after _) (by decide +kernel) (by decide +kernel) rfl rfl (by decide)
    (by decide +kernel)
  obtain ⟨sum, s', hexec⟩ := hsucceeds (by decide +kernel)
  obtain ⟨l, -, -, hempty⟩ := hdepth sum s' hexec
  have hlog : Nat.clog 2 5 = 3 := by decide
  have hbound : s'.circuit.depth ≤ 8 * Nat.clog 2 5 + 6 := hempty (by decide +kernel)
  rw [hlog] at hbound
  exact ⟨_, sum, s', rfl, hexec, hbound⟩

end Adder

end Ancilla
