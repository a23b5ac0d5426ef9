import Ancilla.Proofs.Circuit.Paths
import Mathlib.Data.Finset.Lattice.Fold
import Mathlib.Data.List.Sort
import Mathlib.Order.Lattice.Nat

/-!
The layers of a circuit as levels: an operation stands one above the highest of the earlier
operations that it shares a wire with. The wires of the dependency graph run through the operations
in the order of the instructions, so of all that lead to an operation the last on each of its wires
decides. A pass in any topological order finds the same layers.
-/

namespace Ancilla

variable {R : Type}

theorem foldl_max_le_iff {l : List Nat} {a b : Nat} :
    l.foldl max a ≤ b ↔ a ≤ b ∧ ∀ x ∈ l, x ≤ b := by
  induction l generalizing a with
  | nil => simp
  | cons x l ih => simp [ih, and_assoc]

theorem foldl_max_eq_sup (l : List Nat) :
    l.foldl max 0 = (Finset.range l.length).sup fun i => l.getD i 0 := by
  refine eq_of_forall_ge_iff fun b => ?_
  rw [foldl_max_le_iff, Finset.sup_le_iff, List.forall_mem_iff_forall_getElem]
  simp +contextual [List.getD]

def Instruction.Meets (i j : Instruction R) : Prop :=
  ∃ w ∈ WireGraph.wires i, w ∈ WireGraph.wires j

instance (i j : Instruction R) : Decidable (i.Meets j) :=
  inferInstanceAs (Decidable (∃ w ∈ WireGraph.wires i, w ∈ WireGraph.wires j))

namespace WireGraph

/-! ## Graphs with all their operations -/

/-- The operations of a graph are its operation vertices in the order of their making. -/
structure Enumerated (g : WireGraph) (ops : List (Applied R)) : Prop where
  knit : g.Knit ops
  ascending : (ops.map Applied.vertex).Pairwise (· < ·)
  complete : ∀ v index, nodeAt g.vertices v = some (.op index) → ∃ a ∈ ops, a.vertex = v
  count : g.numOps = ops.length

theorem nodeAt_push_eq_some {vs : Array Vertex} {x : Vertex} {v : Nat} {n : Node}
    (h : nodeAt (vs.push x) v = some n) : nodeAt vs v = some n ∨ v = vs.size ∧ x.node = n := by
  unfold nodeAt at h
  rw [Array.getElem?_push] at h
  split at h
  · next hv => exact .inr ⟨hv, by simpa using h⟩
  · exact .inl h

theorem splice_numOps (g : WireGraph) (op : Nat) (w : Wire) :
    (g.splice op w).2.numOps = g.numOps := by
  unfold splice
  split
  · rfl
  · simp only []
    split <;> split <;> rfl

theorem spliceAll_numOps (op : Nat) (ws : List Wire) (g : WireGraph) :
    (spliceAll op g ws).2.numOps = g.numOps :=
  spliceAll_invariant (P := fun g' => g'.numOps = g.numOps) rfl
    fun g' w hg' => (splice_numOps g' op w).trans hg'

namespace Enumerated

variable {g : WireGraph} {ops : List (Applied R)}

theorem empty : WireGraph.empty.Enumerated ([] : List (Applied R)) :=
  ⟨.empty, .nil, fun v _ h => by simp [nodeAt, WireGraph.empty] at h, rfl⟩

theorem vertex_inj (h : g.Enumerated ops) {a b : Applied R} (ha : a ∈ ops) (hb : b ∈ ops)
    (hab : a.vertex = b.vertex) : a = b :=
  List.inj_on_of_nodup_map (h.ascending.imp fun hlt => hlt.ne) ha hb hab

theorem complete_addWire (h : g.Enumerated ops) (w : Wire) {v index : Nat}
    (hv : nodeAt (g.addWire w).vertices v = some (.op index)) : ∃ a ∈ ops, a.vertex = v := by
  rcases nodeAt_push_eq_some hv with hv | ⟨-, hnode⟩
  · rcases nodeAt_push_eq_some hv with hv | ⟨-, hnode⟩
    · exact h.complete v index hv
    · exact absurd hnode (by simp)
  · exact absurd hnode (by simp)

theorem addsWire (h : g.Enumerated ops) {w : Wire} {g' : WireGraph} (hadds : g.AddsWire w g') :
    g'.Enumerated ops := by
  have hknit := h.knit.addsWire hadds
  cases hadds with
  | present => exact h
  | added => exact ⟨hknit, h.ascending, fun _ _ hv => h.complete_addWire _ hv, h.count⟩

theorem apply (h : g.Enumerated ops) {g' : WireGraph} {index : Nat} {i : Instruction R}
    (hok : g.apply index i = (.ok (), g')) :
    g'.Enumerated (ops ++ [⟨g.vertices.size, index, i⟩]) := by
  obtain ⟨hfault, g₁, hsplice, rfl⟩ := apply_ok hok
  obtain ⟨-, hnodup, -⟩ := fault?_eq_none_iff.1 hfault
  have hpushed : Runs { g with vertices := g.vertices.push ⟨.op index, []⟩ } (threadOf ops) :=
    ⟨h.knit.laid.runs.nodup, fun p hp => (h.knit.laid.runs.threads p hp).push _⟩
  have hnodes := (hpushed.spliceAll (nodup_wires hnodup)
    (nodeAt_size g.vertices ⟨.op index, []⟩) hsplice).2
  refine ⟨h.knit.apply hok, ?_, fun v index' hv => ?_, ?_⟩
  · rw [List.map_append, List.pairwise_append]
    refine ⟨h.ascending, List.pairwise_singleton _ _, fun u hu v hv => ?_⟩
    obtain ⟨a, ha, rfl⟩ := List.mem_map.1 hu
    obtain rfl : v = g.vertices.size := by simpa using hv
    exact lt_size_of_nodeAt (h.knit.laid.vertex a ha)
  · rcases nodeAt_push_eq_some ((hnodes v).symm.trans hv) with hv | ⟨rfl, -⟩
    · obtain ⟨a, ha, rfl⟩ := h.complete v index' hv
      exact ⟨a, List.mem_append_left _ ha, rfl⟩
    · exact ⟨_, List.mem_append_right _ (List.mem_singleton.2 rfl), rfl⟩
  · have hnum := spliceAll_numOps g.vertices.size (wires i)
      { g with vertices := g.vertices.push ⟨.op index, []⟩ }
    rw [hsplice] at hnum
    rw [List.length_append, List.length_singleton, ← h.count]
    exact congrArg (· + 1) hnum

end Enumerated

/-! ## Levels of vertices -/

def deepen (g : WireGraph) (level : Nat → Nat) (v : Nat) : Nat :=
  let above := ((g.incoming v).map fun e => level e.source).foldl max 0
  match nodeAt g.vertices v with
  | some (.op _) => above + 1
  | _ => above

/-- The inputs are at the ground, and each operation is where those that lead to it place it. -/
structure Leveled (g : WireGraph) (level : Nat → Nat) : Prop where
  input : ∀ {v w}, nodeAt g.vertices v = some (.input w) → level v = 0
  op : ∀ {v index}, nodeAt g.vertices v = some (.op index) → level v = g.deepen level v

section Leveled

variable {g : WireGraph} {ops : List (Applied R)} {level : Nat → Nat}

theorem deepen_congr {level' : Nat → Nat} {v : Nat} (h : ∀ u, g.Leads u v → level u = level' u) :
    g.deepen level v = g.deepen level' v := by
  have hmap : (g.incoming v).map (fun e => level e.source) =
      (g.incoming v).map fun e => level' e.source :=
    List.map_congr_left fun e he => h _ ⟨e, he, rfl⟩
  unfold deepen
  rw [hmap]

theorem deepen_le_iff {v index : Nat} (hv : nodeAt g.vertices v = some (.op index)) (n : Nat) :
    g.deepen level v ≤ n + 1 ↔ ∀ u, g.Leads u v → level u ≤ n := by
  simp only [deepen, hv, Nat.add_le_add_iff_right, foldl_max_le_iff, Nat.zero_le, true_and,
    List.forall_mem_map]
  exact ⟨fun h u ⟨e, he, heu⟩ => heu ▸ h e he, fun h e he => h _ ⟨e, he, rfl⟩⟩

theorem Leveled.lt_of_leads (h : g.Leveled level) {u v index : Nat}
    (hv : nodeAt g.vertices v = some (.op index)) (huv : g.Leads u v) : level u < level v := by
  obtain ⟨n, hn⟩ : ∃ n, g.deepen level v = n + 1 :=
    Nat.exists_eq_add_of_le' (by simp [deepen, hv])
  rw [h.op hv, hn, Nat.lt_succ_iff]
  exact (deepen_le_iff hv n).1 hn.le u huv

namespace Enumerated

theorem not_leads_input (h : g.Enumerated ops) {v : Nat} {w : Wire}
    (hv : nodeAt g.vertices v = some (.input w)) (u : Nat) : ¬ g.Leads u v := by
  intro huv
  obtain ⟨p, hp, s, -, -, ⟨-, hmem⟩ | rfl⟩ := h.knit.woven.leads_cases huv
  · obtain ⟨index, hindex⟩ := (h.knit.laid.runs.threads p hp).ops v hmem
    simp [hv] at hindex
  · simp [(h.knit.laid.runs.threads p hp).output] at hv

theorem leads_op (h : g.Enumerated ops) {a : Applied R} (ha : a ∈ ops) {u : Nat}
    (hu : g.Leads u a.vertex) : (∃ w, nodeAt g.vertices u = some (.input w)) ∨
      ∃ b ∈ ops, b.vertex = u ∧ u < a.vertex ∧ b.instruction.Meets a.instruction := by
  have hnode := h.knit.laid.vertex a ha
  obtain ⟨p, hp, s, hs, hmem, ⟨hlt, hv⟩ | hout⟩ := h.knit.woven.leads_cases hu
  · rcases List.mem_cons.1 hmem with rfl | hmem
    · exact .inl ⟨_, hs.input⟩
    · obtain ⟨b, hb, rfl⟩ := List.mem_map.1 hmem
      obtain ⟨a', ha', heq⟩ := List.mem_map.1 hv
      obtain rfl : a' = a := h.vertex_inj (List.mem_of_mem_filter ha') ha heq
      refine .inr ⟨b, List.mem_of_mem_filter hb, rfl, hlt, p.1, ?_, ?_⟩
      · simpa using List.of_mem_filter hb
      · simpa using List.of_mem_filter ha'
  · rw [hout, (h.knit.laid.runs.threads p hp).output] at hnode
    exact absurd hnode (by simp)

theorem pairwise_level (h : g.Enumerated ops) (hlevel : g.Leveled level) :
    ops.Pairwise fun a b => a.instruction.Meets b.instruction →
      level a.vertex < level b.vertex := by
  have hwire : ∀ w, ops.Pairwise fun a b => w ∈ wires a.instruction → w ∈ wires b.instruction →
      level a.vertex < level b.vertex := by
    intro w
    by_cases hw : w ∈ g.wireList
    · obtain ⟨p, hp, rfl⟩ := List.mem_map.1 hw
      have hthread := h.knit.laid.runs.threads p hp
      obtain ⟨s, -, hchain, -⟩ := hthread.start
      have hrising : (threadOf ops p.1).IsChain fun u v => level u < level v := by
        refine hchain.tail.imp_of_mem_imp fun u v _ hv ⟨x, hx, he⟩ => ?_
        obtain ⟨index, hindex⟩ := hthread.ops v hv
        exact hlevel.lt_of_leads hindex ⟨_, by simpa [incoming, hx] using he, rfl⟩
      have hpairwise := List.pairwise_map.1 (List.isChain_iff_pairwise.1 hrising)
      simpa only [decide_eq_true_eq] using List.pairwise_filter.1 hpairwise
    · refine List.pairwise_of_forall_mem_list fun a ha b _ hwa _ => absurd ?_ hw
      exact (fault?_eq_none_iff.1 (h.knit.laid.accepted a ha)).2.2 w hwa
  rw [List.pairwise_iff_getElem]
  rintro i j hi hj hij ⟨w, hwa, hwb⟩
  exact List.pairwise_iff_getElem.1 (hwire w) i j hi hj hij hwa hwb

theorem level_le_iff (h : g.Enumerated ops) (hlevel : g.Leveled level) {i : Nat}
    (hi : i < ops.length) (n : Nat) : level ops[i].vertex ≤ n + 1 ↔
      ∀ j (hj : j < i), ops[j].instruction.Meets ops[i].instruction → level ops[j].vertex ≤ n := by
  have hnode := h.knit.laid.vertex ops[i] (List.getElem_mem hi)
  constructor
  · intro hle j hj hmeets
    have hlt := List.pairwise_iff_getElem.1 (h.pairwise_level hlevel) j i (hj.trans hi) hi hj hmeets
    omega
  · intro hall
    rw [hlevel.op hnode, deepen_le_iff hnode]
    intro u hu
    rcases h.leads_op (List.getElem_mem hi) hu with ⟨w, hw⟩ | ⟨b, hb, rfl, hlt, hmeets⟩
    · rw [hlevel.input hw]
      exact Nat.zero_le n
    · obtain ⟨j, hj, rfl⟩ := List.mem_iff_getElem.1 hb
      -- vertices are made in the order of the operations
      have hji : j < i := by
        by_contra hge
        have hle : ops[i].vertex ≤ ops[j].vertex := by
          have := (h.ascending.imp fun hlt => Nat.le_of_lt hlt).rel_get_of_le
            (a := ⟨i, by simpa using hi⟩) (b := ⟨j, by simpa using hj⟩) (by simpa using hge)
          simpa using this
        omega
      exact hall j hji hmeets

theorem level_unique (h : g.Enumerated ops) {level' : Nat → Nat} (hlevel : g.Leveled level)
    (hlevel' : g.Leveled level') {a : Applied R} (ha : a ∈ ops) :
    level a.vertex = level' a.vertex := by
  obtain ⟨i, hi, rfl⟩ := List.mem_iff_getElem.1 ha
  induction i using Nat.strong_induction_on with
  | _ i ih =>
    have hpos : ∀ {f}, g.Leveled f → 0 < f ops[i].vertex := fun hf => by
      have hnode := h.knit.laid.vertex ops[i] ha
      rw [hf.op hnode]
      simp [deepen, hnode]
    have hiff : ∀ n, level ops[i].vertex ≤ n + 1 ↔ level' ops[i].vertex ≤ n + 1 := by
      intro n
      rw [h.level_le_iff hlevel hi, h.level_le_iff hlevel' hi]
      refine forall₃_congr fun j hj _ => ?_
      rw [ih j hj _ (List.getElem_mem _)]
    have h₁ := (hiff (level ops[i].vertex - 1)).1 (by omega)
    have h₂ := (hiff (level' ops[i].vertex - 1)).2 (by omega)
    have hpos₁ := hpos hlevel
    have hpos₂ := hpos hlevel'
    omega

end Enumerated

end Leveled

/-! ## The pass in the order of making -/

theorem level_congr {acc acc' : Array Nat} {x : Vertex}
    (h : ∀ index, x.node = .op index →
      ∀ e ∈ x.incoming, acc.getD e.source 0 = acc'.getD e.source 0) :
    level acc x = level acc' x := by
  unfold level
  split
  · next index hnode => rw [List.map_congr_left (h index hnode)]
  · rfl

theorem foldl_level (l : List Vertex) :
    let levels := l.foldl (fun acc v => acc.push (level acc v)) #[]
    levels.size = l.length ∧ ((∀ (k : Nat) x, l[k]? = some x → ∀ index, x.node = .op index →
      ∀ e ∈ x.incoming, e.source < k) →
        ∀ (k : Nat) x, l[k]? = some x → levels[k]? = some (level levels x)) := by
  induction l using List.reverseRecOn with
  | nil => simp
  | append_singleton l y ih =>
    obtain ⟨hsize, ih⟩ := ih
    rw [List.foldl_append, List.foldl_cons, List.foldl_nil]
    generalize l.foldl (fun acc v => acc.push (level acc v)) #[] = levels at hsize ih ⊢
    refine ⟨by simp [hsize], fun hbelow k x hk => ?_⟩
    have hearlier : ∀ (k : Nat) x, l[k]? = some x → (l ++ [y])[k]? = some x := fun k x hk =>
      (List.getElem?_append_left (List.getElem?_eq_some_iff.1 hk).1).trans hk
    have hlt : k < l.length ∨ k = l.length := by
      have := (List.getElem?_eq_some_iff.1 hk).1
      simp only [List.length_append, List.length_singleton] at this
      omega
    -- a level that is pushed is not read by the vertices up to it
    have hpushed : level (levels.push (level levels y)) x = level levels x := by
      refine level_congr fun index hnode e he => ?_
      have := hbelow k x hk index hnode e he
      have hne : e.source < levels.size := by omega
      simp [Array.getD_eq_getD_getElem?, Array.getElem?_push, Nat.ne_of_lt hne]
    rw [hpushed]
    rcases hlt with hlt | rfl
    · have hold : l[k]? = some x := (List.getElem?_append_left hlt).symm.trans hk
      rw [Array.getElem?_push, if_neg (by omega)]
      exact ih (fun k x hk => hbelow k x (hearlier k x hk)) k x hold
    · obtain rfl : y = x := by simpa using hk
      rw [← hsize, Array.getElem?_push_size]

theorem size_levels (g : WireGraph) : g.levels.size = g.vertices.size := by
  rw [levels, ← Array.foldl_toList]
  exact (foldl_level g.vertices.toList).1

theorem Enumerated.leveled {g : WireGraph} {ops : List (Applied R)} (h : g.Enumerated ops) :
    g.Leveled fun v => g.levels.getD v 0 := by
  have hat : ∀ {v x}, g.vertices[v]? = some x → g.levels.getD v 0 = level g.levels x := by
    intro v x hx
    have hbelow : ∀ (k : Nat) y, g.vertices.toList[k]? = some y → ∀ index, y.node = .op index →
        ∀ e ∈ y.incoming, e.source < k := by
      intro k y hy index hnode e he
      rw [Array.getElem?_toList] at hy
      have hk : nodeAt g.vertices k = some (.op index) := by
        rw [nodeAt, hy, Option.map_some, hnode]
      obtain ⟨a, ha, rfl⟩ := h.complete k index hk
      have hleads : g.Leads e.source a.vertex := ⟨e, by simpa [incoming, hy] using he, rfl⟩
      obtain ⟨p, hp, s, -, -, ⟨hlt, -⟩ | hout⟩ := h.knit.woven.leads_cases hleads
      · exact hlt
      · rw [hout, (h.knit.laid.runs.threads p hp).output] at hk
        exact absurd hk (by simp)
    have hlevel := (foldl_level g.vertices.toList).2 hbelow v x (by simpa using hx)
    rw [Array.foldl_toList] at hlevel
    rw [Array.getD_eq_getD_getElem?]
    exact congrArg (Option.getD · 0) hlevel
  refine ⟨fun {v w} hv => ?_, fun {v index} hv => ?_⟩ <;>
    obtain ⟨x, hx, hnode⟩ := Option.map_eq_some_iff.1 hv
  · rw [hat hx, level, hnode]
  · rw [hat hx, level, hnode, deepen, hv]
    simp [incoming, hx, Nat.add_comm]

theorem Enumerated.op_inj {g : WireGraph} {ops : List (Applied R)} (h : g.Enumerated ops)
    (hindices : (ops.map Applied.index).Nodup) {u v index : Nat}
    (hu : nodeAt g.vertices u = some (.op index)) (hv : nodeAt g.vertices v = some (.op index)) :
    u = v := by
  obtain ⟨a, ha, rfl⟩ := h.complete u index hu
  obtain ⟨b, hb, rfl⟩ := h.complete v index hv
  have hia : a.index = index := by simpa [h.knit.laid.vertex a ha] using hu
  have hib : b.index = index := by simpa [h.knit.laid.vertex b hb] using hv
  rw [List.inj_on_of_nodup_map hindices ha hb (hia.trans hib.symm)]

section Slots

variable {l : List (Vertex × Nat × Nat)} {slots : Array Slot} {index : Nat}

theorem Slot.getElem?_fill (slots : Array Slot) (x : Vertex) (s : Slot) (index : Nat) :
    (Slot.fill slots x s)[index]? = if x.node = .op index
      then slots[index]?.map fun old => if old.rank ≤ s.rank then s else old
      else slots[index]? := by
  unfold Slot.fill
  split
  · next i hnode => simp [Array.getElem?_modify, hnode]
  · next hnode => rw [if_neg (hnode index)]

theorem foldl_fill_of_ne (h : ∀ p ∈ l, p.1.node ≠ .op index) :
    (l.foldl (fun acc p => Slot.fill acc p.1 ⟨p.2.1, p.2.2⟩) slots)[index]? = slots[index]? := by
  induction l generalizing slots with
  | nil => rfl
  | cons p l ih =>
    obtain ⟨hp, hl⟩ := List.forall_mem_cons.1 h
    rw [List.foldl_cons, ih hl, Slot.getElem?_fill, if_neg hp]

theorem foldl_fill (h : l.Pairwise fun p q => ∀ i, p.1.node = .op i → q.1.node ≠ .op i)
    (hslot : slots[index]? = some {}) {p : Vertex × Nat × Nat} (hp : p ∈ l)
    (hnode : p.1.node = .op index) :
    (l.foldl (fun acc p => Slot.fill acc p.1 ⟨p.2.1, p.2.2⟩) slots)[index]? =
      some ⟨p.2.1, p.2.2⟩ := by
  induction l generalizing slots with
  | nil => exact absurd hp List.not_mem_nil
  | cons q l ih =>
    obtain ⟨hq, hl⟩ := List.pairwise_cons.1 h
    rw [List.foldl_cons]
    rcases List.mem_cons.1 hp with rfl | hp
    · rw [foldl_fill_of_ne fun r hr => hq r hr index hnode, Slot.getElem?_fill, if_pos hnode, hslot]
      simp
    · refine ih hl ?_ hp
      rw [Slot.getElem?_fill, if_neg fun heq => hq p hp index heq hnode, hslot]

end Slots

theorem size_ranks (g : WireGraph) : g.ranks.size = g.vertices.size := by
  have hfold : ∀ (l : List (Nat × Nat)) (acc : Array Nat),
      (l.foldl (fun acc p => acc.setIfInBounds p.1 p.2) acc).size = acc.size := by
    intro l
    induction l with
    | nil => exact fun _ => rfl
    | cons p l ih => exact fun acc => (ih _).trans (Array.size_setIfInBounds ..)
  exact (hfold _ _).trans (Array.size_replicate ..)

theorem size_layers (g : WireGraph) : g.layers.size = g.numOps := by
  have hfill : ∀ (slots : Array Slot) (x : Vertex) (s : Slot),
      (Slot.fill slots x s).size = slots.size := by
    intro slots x s
    unfold Slot.fill
    split <;> simp
  have hfold : ∀ (l : List (Vertex × Nat × Nat)) (slots : Array Slot),
      (l.foldl (fun acc p => Slot.fill acc p.1 ⟨p.2.1, p.2.2⟩) slots).size = slots.size := by
    intro l
    induction l with
    | nil => exact fun _ => rfl
    | cons p l ih => exact fun slots => (ih _).trans (hfill ..)
  unfold layers
  rw [Array.size_map, ← Array.foldl_toList]
  exact (hfold _ _).trans (Array.size_replicate ..)

theorem getElem?_zip_levels (g : WireGraph) (v : Nat) :
    (g.vertices.zip (g.ranks.zip g.levels)).toList[v]? =
      g.vertices[v]?.map fun x => (x, g.ranks.getD v 0, g.levels.getD v 0) := by
  by_cases hv : v < g.vertices.size
  · have hr : v < g.ranks.size := g.size_ranks ▸ hv
    have hl : v < g.levels.size := g.size_levels ▸ hv
    simp [hv, hr, hl]
  · simp [hv, size_ranks, size_levels]

theorem Enumerated.layers_eq {g : WireGraph} {ops : List (Applied R)} (h : g.Enumerated ops)
    (hindices : ops.map Applied.index = List.range ops.length) :
    g.layers.toList = ops.map fun a => g.levels.getD a.vertex 0 := by
  -- no two vertices stand for one operation, so no slot is filled twice
  have hdistinct : (g.vertices.zip (g.ranks.zip g.levels)).toList.Pairwise
      fun p q => ∀ i, p.1.node = .op i → q.1.node ≠ .op i := by
    have hnode : ∀ {v p index}, (g.vertices.zip (g.ranks.zip g.levels)).toList[v]? = some p →
        p.1.node = .op index → nodeAt g.vertices v = some (.op index) := by
      intro v p index hp hop
      rw [getElem?_zip_levels] at hp
      obtain ⟨x, hx, rfl⟩ := Option.map_eq_some_iff.1 hp
      rw [nodeAt, hx, Option.map_some, hop]
    rw [List.pairwise_iff_getElem]
    intro u v hu hv huv i hpu hpv
    have := h.op_inj (hindices ▸ List.nodup_range)
      (hnode (List.getElem?_eq_getElem hu) hpu) (hnode (List.getElem?_eq_getElem hv) hpv)
    omega
  refine List.ext_getElem? fun i => ?_
  by_cases hi : i < ops.length
  · have hnode := h.knit.laid.vertex ops[i] (List.getElem_mem hi)
    have hindex : ops[i].index = i := by
      have := congrArg (·[i]?) hindices
      simpa [hi] using this
    rw [hindex] at hnode
    obtain ⟨x, hx, hop⟩ := Option.map_eq_some_iff.1 hnode
    have hmem := List.mem_of_getElem?
      ((g.getElem?_zip_levels ops[i].vertex).trans (by rw [hx]; rfl))
    have hslot : (Array.replicate g.numOps ({} : Slot))[i]? = some {} := by
      simp [h.count, hi]
    rw [Array.getElem?_toList, layers, Array.getElem?_map, ← Array.foldl_toList]
    rw [foldl_fill hdistinct hslot hmem hop]
    simp [hi]
  · rw [List.getElem?_eq_none, List.getElem?_eq_none]
    · simpa using hi
    · simpa [size_layers, h.count] using hi

/-! ## Passes in other orders -/

def Topological (g : WireGraph) (order : List Nat) : Prop :=
  order.Perm (List.range g.vertices.size) ∧ order.Pairwise fun u v => ¬ g.Leads v u

structure Survey where
  depths : Nat → Nat
  layers : Array Nat

def Survey.meet (g : WireGraph) (s : Survey) (v : Nat) : Survey :=
  let depth := g.deepen s.depths v
  { depths := Function.update s.depths v depth
    layers := match nodeAt g.vertices v with
      | some (.op i) => s.layers.setIfInBounds i depth
      | _ => s.layers }

def layersAlong (g : WireGraph) (order : List Nat) : Array Nat :=
  (order.foldl (Survey.meet g) ⟨fun _ => 0, Array.replicate g.numOps 0⟩).layers

/-- What a pass has found is settled: it rests on vertices that have been met. -/
structure Survey.Settled (g : WireGraph) (s : Survey) (met : List Nat) : Prop where
  size : s.layers.size = g.numOps
  closed : ∀ v ∈ met, ∀ u, g.Leads u v → u ∈ met
  depths : ∀ v ∈ met, s.depths v = g.deepen s.depths v
  layers : ∀ v ∈ met, ∀ i, nodeAt g.vertices v = some (.op i) → i < g.numOps →
    s.layers[i]? = some (s.depths v)

section Passes

variable {g : WireGraph} {ops : List (Applied R)}

theorem Survey.Settled.meet {s : Survey} {met : List Nat} (h : s.Settled g met)
    (hinj : ∀ {u v i}, nodeAt g.vertices u = some (.op i) → nodeAt g.vertices v = some (.op i) →
      u = v) {v : Nat} (hv : v ∉ met) (hbefore : ∀ u, g.Leads u v → u ∈ met) :
    (s.meet g v).Settled g (met ++ [v]) := by
  -- the depths of vertices that have been met stay, and those lead to none but met ones
  have hkept : ∀ u ∈ met, (s.meet g v).depths u = s.depths u := fun u hu =>
    Function.update_of_ne (fun heq => hv (by rw [← heq]; exact hu)) _ _
  have hself : (s.meet g v).depths v = g.deepen s.depths v := Function.update_self ..
  refine ⟨?_, fun x hx u hu => ?_, fun x hx => ?_, fun x hx i hnode hi => ?_⟩
  · unfold Survey.meet
    simp only []
    split <;> simp [h.size]
  · rcases List.mem_append.1 hx with hx | hx
    · exact List.mem_append_left _ (h.closed x hx u hu)
    · obtain rfl := List.mem_singleton.1 hx
      exact List.mem_append_left _ (hbefore u hu)
  · rcases List.mem_append.1 hx with hx | hx
    · rw [hkept x hx, h.depths x hx]
      exact deepen_congr fun u hu => (hkept u (h.closed x hx u hu)).symm
    · obtain rfl := List.mem_singleton.1 hx
      rw [hself]
      exact deepen_congr fun u hu => (hkept u (hbefore u hu)).symm
  · rcases List.mem_append.1 hx with hx | hx
    · rw [hkept x hx, ← h.layers x hx i hnode hi]
      have hne : nodeAt g.vertices v ≠ some (.op i) := fun heq => hv (hinj hnode heq ▸ hx)
      unfold Survey.meet
      simp only []
      split
      · next j hj =>
        exact Array.getElem?_setIfInBounds_ne fun heq : j = i => hne (by rw [← heq, hj])
      · rfl
    · obtain rfl := List.mem_singleton.1 hx
      rw [hself]
      unfold Survey.meet
      simp only [hnode]
      exact Array.getElem?_setIfInBounds_self_of_lt (h.size ▸ hi)

theorem Survey.Settled.meetAll {s : Survey} {met todo : List Nat} (h : s.Settled g met)
    (hinj : ∀ {u v i}, nodeAt g.vertices u = some (.op i) → nodeAt g.vertices v = some (.op i) →
      u = v) (hnodup : (met ++ todo).Nodup)
    (hall : ∀ u v, g.Leads u v → u ∈ met ++ todo) (hacyclic : ∀ v, ¬ g.Leads v v)
    (horder : todo.Pairwise fun u v => ¬ g.Leads v u) :
    (todo.foldl (Survey.meet g) s).Settled g (met ++ todo) := by
  induction todo generalizing s met with
  | nil => simpa using h
  | cons v todo ih =>
    obtain ⟨hv, horder⟩ := List.pairwise_cons.1 horder
    have hsplit : met ++ v :: todo = met ++ [v] ++ todo := by simp
    have hnew : v ∉ met := fun hmem =>
      (List.nodup_append'.1 hnodup).2.2 hmem List.mem_cons_self
    have hbefore : ∀ u, g.Leads u v → u ∈ met := by
      intro u hu
      rcases List.mem_append.1 (hall u v hu) with hmem | hmem
      · exact hmem
      · rcases List.mem_cons.1 hmem with rfl | hmem
        · exact absurd hu (hacyclic u)
        · exact absurd hu (hv u hmem)
    rw [hsplit] at hnodup hall ⊢
    exact ih (h.meet hinj hnew hbefore) hnodup hall horder

theorem Enumerated.lt_size_of_leads (h : g.Enumerated ops) {u v : Nat} (huv : g.Leads u v) :
    u < g.vertices.size := by
  obtain ⟨p, hp, s, hs, hu, -⟩ := h.knit.woven.leads_cases huv
  exact hs.lt_size (h.knit.laid.runs.threads p hp) (List.mem_append_left _ hu)

theorem Enumerated.layersAlong_eq (h : g.Enumerated ops)
    (hindices : ops.map Applied.index = List.range ops.length) {order : List Nat}
    (horder : g.Topological order) : g.layersAlong order = g.layers := by
  obtain ⟨hperm, hback⟩ := horder
  have hinit : Survey.Settled g ⟨fun _ => 0, Array.replicate g.numOps 0⟩ [] :=
    ⟨by simp, by simp, by simp, by simp⟩
  have hsettled := hinit.meetAll (h.op_inj (hindices ▸ List.nodup_range))
    (show ([] ++ order).Nodup from hperm.nodup_iff.2 List.nodup_range)
    (fun u v huv => hperm.mem_iff.2 (List.mem_range.2 (h.lt_size_of_leads huv)))
    (fun v hv => h.knit.woven.acyclic v (.single hv)) hback
  rw [List.nil_append] at hsettled
  have hmet : ∀ {v n}, nodeAt g.vertices v = some n → v ∈ order := fun hv =>
    hperm.mem_iff.2 (List.mem_range.2 (lt_size_of_nodeAt hv))
  -- the depths that the pass finds are levels, and there is only one way to level a graph
  have hleveled : g.Leveled
      (order.foldl (Survey.meet g) ⟨fun _ => 0, Array.replicate g.numOps 0⟩).depths := by
    refine ⟨fun {v w} hv => ?_, fun {v index} hv => hsettled.depths v (hmet hv)⟩
    rw [hsettled.depths v (hmet hv)]
    have hnone : g.incoming v = [] :=
      List.eq_nil_iff_forall_not_mem.2 fun e he => h.not_leads_input hv e.source ⟨e, he, rfl⟩
    simp [deepen, hv, hnone]
  refine Array.ext' (List.ext_getElem? fun i => ?_)
  rw [h.layers_eq hindices, Array.getElem?_toList, layersAlong]
  by_cases hi : i < ops.length
  · have hindex : ops[i].index = i := by
      have := congrArg (·[i]?) hindices
      simpa [hi] using this
    have hnode := h.knit.laid.vertex ops[i] (List.getElem_mem hi)
    rw [hindex] at hnode
    rw [hsettled.layers _ (hmet hnode) i hnode (h.count ▸ hi),
      h.level_unique hleveled h.leveled (List.getElem_mem hi)]
    simp [hi]
  · rw [Array.getElem?_eq_none, List.getElem?_eq_none]
    · simpa using hi
    · rw [hsettled.size, h.count]
      exact Nat.le_of_not_lt hi

theorem Woven.exists_topological {thread : Wire → List Nat} (h : g.Woven thread) :
    ∃ order, g.Topological order := by
  refine ⟨(List.range g.vertices.size).mergeSort fun u v => g.rank u ≤ g.rank v,
    List.mergeSort_perm _ _, ?_⟩
  refine (List.pairwise_mergeSort (fun u v w huv hvw => ?_) (fun u v => ?_) _).imp
    fun {u v} huv hvu => ?_
  · simp only [decide_eq_true_eq] at *
    exact huv.trans hvw
  · simpa using Nat.le_total _ _
  · have hlt := h.rank_lt hvu
    simp only [decide_eq_true_eq] at huv
    omega

end Passes

end WireGraph

/-! ## Circuits -/

namespace Circuit

open WireGraph (Applied)

def Drawn (c : Circuit R) (ops : List (Applied R)) : Prop :=
  c.graph.Enumerated ops ∧ ops.map Applied.instruction = c.instructions.toList ∧
    ops.map Applied.index = List.range ops.length

theorem Built.drawn {c : Circuit R} (h : c.Built) : ∃ ops, c.Drawn ops := by
  induction h with
  | new name => exact ⟨[], .empty, rfl, rfl⟩
  | @registerQubit c _ q ih =>
    obtain ⟨ops, henum, hinstructions, hindices⟩ := ih
    obtain ⟨-, hsame⟩ | ⟨-, hnew⟩ := c.registerQubit_cases q
    · rw [hsame]
      exact ⟨ops, henum, hinstructions, hindices⟩
    · rw [hnew]
      exact ⟨ops, henum.addsWire (WireGraph.addsWire_addQubit _ _), hinstructions, hindices⟩
  | recordRelease _ qs ih => exact ih
  | addClbit _ source ih =>
    obtain ⟨ops, henum, hinstructions, hindices⟩ := ih
    exact ⟨ops, henum.addsWire (WireGraph.addsWire_addClbit _ _), hinstructions, hindices⟩
  | @push c h i ih =>
    obtain ⟨ops, henum, hinstructions, hindices⟩ := ih
    rcases push_cases h.orderly.spliceable i with ⟨e, hpush⟩ | ⟨g, happly, hpush⟩
    · rw [hpush]
      exact ⟨ops, henum, hinstructions, hindices⟩
    · have hsize : c.instructions.size = ops.length := by
        simpa using (congrArg List.length hinstructions).symm
      rw [hpush]
      refine ⟨_, henum.apply happly, ?_, ?_⟩
      · simp [hinstructions]
      · simp [hindices, hsize, List.range_succ]
  | finish _ ih => exact ih

def Meet (c : Circuit R) (i j : Nat) : Prop :=
  ∃ x ∈ c.instructions[i]?, ∃ y ∈ c.instructions[j]?, x.Meets y

instance (c : Circuit R) (i j : Nat) : Decidable (c.Meet i j) :=
  inferInstanceAs (Decidable (∃ x ∈ c.instructions[i]?, ∃ y ∈ c.instructions[j]?, x.Meets y))

def layerAt (c : Circuit R) (i : Nat) : Nat := c.graph.layers.getD i 0

namespace Drawn

variable {c : Circuit R} {ops : List (Applied R)}

theorem length_eq (h : c.Drawn ops) : ops.length = c.instructions.size := by
  simpa using congrArg List.length h.2.1

theorem layerAt_eq (h : c.Drawn ops) {i : Nat} (hi : i < ops.length) :
    c.layerAt i = c.graph.levels.getD ops[i].vertex 0 := by
  have hlayers := congrArg (·[i]?) (h.1.layers_eq h.2.2)
  simp only [Array.getElem?_toList, List.getElem?_map, List.getElem?_eq_getElem hi] at hlayers
  rw [layerAt, Array.getD_eq_getD_getElem?, hlayers]
  rfl

theorem meet_iff (h : c.Drawn ops) {i j : Nat} (hi : i < ops.length) (hj : j < ops.length) :
    c.Meet i j ↔ ops[i].instruction.Meets ops[j].instruction := by
  have hat : ∀ {k} (hk : k < ops.length), c.instructions[k]? = some ops[k].instruction := by
    intro k hk
    rw [← Array.getElem?_toList, ← h.2.1, List.getElem?_map, List.getElem?_eq_getElem hk]
    rfl
  simp [Meet, hat hi, hat hj]

theorem layerAt_le_iff (h : c.Drawn ops) {i : Nat} (hi : i < c.instructions.size) (n : Nat) :
    c.layerAt i ≤ n + 1 ↔ ∀ j < i, c.Meet j i → c.layerAt j ≤ n := by
  rw [← h.length_eq] at hi
  rw [h.layerAt_eq hi, h.1.level_le_iff h.1.leveled hi]
  refine forall₂_congr fun j hj => ?_
  rw [h.meet_iff (hj.trans hi) hi, h.layerAt_eq (hj.trans hi)]

theorem layerAt_pos (h : c.Drawn ops) {i : Nat} (hi : i < c.instructions.size) :
    0 < c.layerAt i := by
  rw [← h.length_eq] at hi
  have hnode := h.1.knit.laid.vertex ops[i] (List.getElem_mem hi)
  rw [h.layerAt_eq hi, h.1.leveled.op hnode]
  simp [WireGraph.deepen, hnode]

theorem layerAt_eq_sup (h : c.Drawn ops) {i : Nat} (hi : i < c.instructions.size) :
    c.layerAt i = 1 + ((Finset.range i).filter (c.Meet · i)).sup c.layerAt := by
  have hiff : ∀ n, c.layerAt i ≤ n + 1 ↔
      1 + ((Finset.range i).filter (c.Meet · i)).sup c.layerAt ≤ n + 1 := by
    intro n
    rw [h.layerAt_le_iff hi, Nat.add_comm 1, Nat.add_le_add_iff_right, Finset.sup_le_iff]
    simp
  have hpos := h.layerAt_pos hi
  have hle := (hiff (c.layerAt i - 1)).1 (by omega)
  have hge := (hiff (((Finset.range i).filter (c.Meet · i)).sup c.layerAt)).2 (by omega)
  omega

theorem size_layers (h : c.Drawn ops) : c.graph.layers.size = c.instructions.size := by
  rw [WireGraph.size_layers, h.1.count, h.length_eq]

theorem depth_eq_sup (h : c.Drawn ops) :
    c.depth = (Finset.range c.instructions.size).sup c.layerAt := by
  rw [depth, WireGraph.depth, ← Array.foldl_toList, foldl_max_eq_sup, Array.length_toList,
    h.size_layers]
  refine congrArg _ (funext fun i => ?_)
  simp [layerAt, List.getD]

end Drawn

/-- Operations are laid out as early as can be: the dependency graph has no circles, so its vertices
have a topological order; each operation is one layer above the highest of the earlier ones that it
has a wire in common with, or in the first; the depth is the highest layer; and a pass over the
vertices in any topological order finds the same layers. -/
theorem Built.layers_asap {c : Circuit R} (h : c.Built) :
    c.graph.isCyclic = false ∧ (∃ order, c.graph.Topological order) ∧
    c.graph.layers.size = c.instructions.size ∧
    (∀ i < c.instructions.size, c.graph.layers[i]? =
      some (1 + ((Finset.range i).filter (c.Meet · i)).sup c.layerAt)) ∧
    c.depth = (Finset.range c.instructions.size).sup c.layerAt ∧
    ∀ order, c.graph.Topological order → c.graph.layersAlong order = c.graph.layers := by
  obtain ⟨ops, hdrawn⟩ := h.drawn
  refine ⟨?_, hdrawn.1.knit.woven.exists_topological, hdrawn.size_layers, fun i hi => ?_,
    hdrawn.depth_eq_sup, fun order => hdrawn.1.layersAlong_eq hdrawn.2.2⟩
  · rw [← Bool.not_eq_true, WireGraph.isCyclic_iff]
    exact fun ⟨v, hv⟩ => hdrawn.1.knit.woven.acyclic v hv
  · rw [← hdrawn.layerAt_eq_sup hi, layerAt, Array.getD_eq_getD_getElem?]
    have hlt : i < c.graph.layers.size := hdrawn.size_layers ▸ hi
    simp [hlt]

def awaiting : Circuit Float :=
  (withSize "awaiting" 3 1).pushAll [.measure 0 0, .ofGate (.ofStandard .h) [1],
    .ofGate ((Gate.ofStandard .x).withCondition (.ofValue [0] 1)) [1],
    .ofGate (.ofStandard .h) [2]]

theorem layers_asap_awaiting : awaiting.graph.layers = #[1, 1, 2, 1] ∧
    awaiting.graph.layers[2]? =
      some (1 + ((Finset.range 2).filter (awaiting.Meet · 2)).sup awaiting.layerAt) ∧
    awaiting.depth = 2 ∧
    ∃ order, awaiting.graph.Topological order ∧
      awaiting.graph.layersAlong order = #[1, 1, 2, 1] := by
  have hbuilt : awaiting.Built := (built_withSize "awaiting" 3 1).pushAll _
  obtain ⟨-, ⟨order, horder⟩, hsize, hlayers, -, hpass⟩ := hbuilt.layers_asap
  have hvalues : awaiting.graph.layers = #[1, 1, 2, 1] := by decide +kernel
  have hcount : awaiting.instructions.size = 4 := by rw [← hsize, hvalues]; rfl
  exact ⟨hvalues, hlayers 2 (by omega), by decide +kernel, order, horder,
    (hpass order horder).trans hvalues⟩

end Circuit

end Ancilla
