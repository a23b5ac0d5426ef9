import Ancilla.Proofs.Circuit.Splicing
import Ancilla.Proofs.Sets
import Mathlib.Data.List.Chain

/-!
The wires of a dependency graph as threads. Each wire runs from its input vertex through the
vertices of the operations on it, in the order in which they were applied: splicing lengthens the
threads of the wires of an operation by one vertex and leaves the edges of all others. Circuits are
made of the same steps, and every instruction that they hold is still accepted by their graph.
-/

namespace Ancilla

variable {R : Type}

namespace WireGraph

def nodeAt (vs : Array Vertex) (v : Nat) : Option Node := vs[v]?.map Vertex.node

theorem nodeAt_push {vs : Array Vertex} {v : Nat} {n : Node} (h : nodeAt vs v = some n)
    (x : Vertex) : nodeAt (vs.push x) v = some n := by
  unfold nodeAt at h ⊢
  obtain ⟨y, hy, rfl⟩ := Option.map_eq_some_iff.1 h
  obtain ⟨hlt, -⟩ := Array.getElem?_eq_some_iff.1 hy
  rw [Array.getElem?_push, if_neg (Nat.ne_of_lt hlt), hy]
  rfl

theorem nodeAt_size (vs : Array Vertex) (x : Vertex) :
    nodeAt (vs.push x) vs.size = some x.node := by
  rw [nodeAt, Array.getElem?_push_size]
  rfl

@[simp]
theorem nodeAt_setIncoming (f : List Edge → List Edge) (vs : Array Vertex) (i v : Nat) :
    nodeAt (setIncoming f vs i) v = nodeAt vs v := by
  unfold nodeAt setIncoming
  rw [Array.getElem?_modify]
  split <;> cases vs[v]? <;> rfl

/-- A wire runs from its input along a list of vertices to the vertex before its output. -/
structure Thread (vs : Array Vertex) (w : Wire) (e : Ends) (thread : List Nat) : Prop where
  ops : ∀ v ∈ thread, ∃ index, nodeAt vs v = some (.op index)
  output : nodeAt vs e.output = some (.output w)
  start : ∃ s, nodeAt vs s = some (.input w) ∧ (s :: thread).IsChain (Joins vs w) ∧
    (s :: thread).getLast? = some e.front

namespace Thread

variable {vs : Array Vertex} {w : Wire} {e : Ends} {thread : List Nat}

theorem mono (h : Thread vs w e thread) {vs' : Array Vertex}
    (hnodes : ∀ v n, nodeAt vs v = some n → nodeAt vs' v = some n)
    (hjoins : ∀ u v index, nodeAt vs v = some (.op index) → Joins vs w u v → Joins vs' w u v) :
    Thread vs' w e thread := by
  obtain ⟨s, hs, hchain, hlast⟩ := h.start
  refine ⟨fun v hv => ?_, hnodes _ _ h.output, s, hnodes _ _ hs, ?_, hlast⟩
  · obtain ⟨index, hindex⟩ := h.ops v hv
    exact ⟨index, hnodes _ _ hindex⟩
  · refine hchain.imp_of_mem_tail_imp fun u v _ hv huv => ?_
    obtain ⟨index, hindex⟩ := h.ops v hv
    exact hjoins u v index hindex huv

theorem push (h : Thread vs w e thread) (x : Vertex) : Thread (vs.push x) w e thread :=
  h.mono (fun _ _ hn => nodeAt_push hn x) fun _ _ _ _ hj => hj.push x

theorem extend (h : Thread vs w e thread) {op index : Nat} (hop : nodeAt vs op = some (.op index))
    (hjoin : Joins vs w e.front op) : Thread vs w { e with front := op } (thread ++ [op]) := by
  obtain ⟨s, hs, hchain, hlast⟩ := h.start
  refine ⟨fun v hv => ?_, h.output, s, hs, ?_, ?_⟩
  · rcases List.mem_append.1 hv with hv | hv
    · exact h.ops v hv
    · rw [List.mem_singleton.1 hv]
      exact ⟨index, hop⟩
  · rw [← List.cons_append]
    refine hchain.append (List.isChain_singleton op) ?_
    intro u hu v hv
    rw [hlast] at hu
    obtain rfl := Option.some.inj hu
    obtain rfl := Option.some.inj hv
    exact hjoin
  · rw [← List.cons_append, List.getLast?_concat]

end Thread

theorem splice_ok {g g' : WireGraph} {op : Nat} {w : Wire} (h : g.splice op w = (.ok (), g')) :
    ∃ place e, g.ends[place]? = some (w, e) ∧ g' = g.spliceAt op place w e := by
  unfold splice at h
  cases hfind : g.find? w with
  | none => simp [hfind] at h
  | some found =>
    obtain ⟨place, e⟩ := found
    have hboth : ∀ present : Bool, (if present then (.ok (), g.spliceAt op place w e)
        else (.error (.invalidGraph ("Missing edge from predecessor to output for wire " ++
          wireText w)), g) :
          Reply CircuitError WireGraph Unit) = (.ok (), g') → g' = g.spliceAt op place w e := by
      intro present hp
      cases present with
      | false => exact absurd (Prod.mk.inj hp).1 (by simp)
      | true => exact (Prod.mk.inj hp).2.symm
    simp only [hfind] at h
    exact ⟨place, e, find?_eq_some hfind, hboth _ h⟩

theorem lengthened_cons {thread : Wire → List Nat} {op : Nat} {w : Wire} {ws : List Wire}
    (hw : w ∉ ws) : (fun w' => if w' ∈ w :: ws then thread w' ++ [op] else thread w') =
      fun w' => if w' ∈ ws then Function.update thread w (thread w ++ [op]) w' ++ [op]
        else Function.update thread w (thread w ++ [op]) w' := by
  funext w'
  by_cases heq : w' = w
  · subst heq
    simp [hw]
  · simp [heq]

structure Runs (g : WireGraph) (thread : Wire → List Nat) : Prop where
  nodup : g.wireList.Nodup
  threads : ∀ p ∈ g.ends.toList, Thread g.vertices p.1 p.2 (thread p.1)

namespace Runs

variable {g : WireGraph} {thread : Wire → List Nat}

theorem addWire (h : g.Runs thread) {w : Wire} (hw : w ∉ g.wireList) (hnone : thread w = []) :
    (g.addWire w).Runs thread := by
  constructor
  · rw [wireList_addWire]
    exact List.nodup_append'.2 ⟨h.nodup, List.nodup_singleton w, by simpa using hw⟩
  · intro p hp
    simp only [WireGraph.addWire, Array.toList_push, List.mem_append, List.mem_singleton] at hp
    rcases hp with hp | rfl
    · exact ((h.threads p hp).push _).push _
    · have hin := nodeAt_push (nodeAt_size g.vertices ⟨.input w, []⟩)
        ⟨.output w, [⟨g.vertices.size, w⟩]⟩
      have hout := nodeAt_size (g.vertices.push ⟨.input w, []⟩)
        ⟨.output w, [⟨g.vertices.size, w⟩]⟩
      rw [Array.size_push] at hout
      refine ⟨?_, hout, g.vertices.size, hin, ?_, ?_⟩ <;> simp [hnone]

theorem spliceAt (h : g.Runs thread) {w : Wire} {place : Nat} {e : Ends}
    (he : g.ends[place]? = some (w, e)) {op index : Nat}
    (hop : nodeAt g.vertices op = some (.op index)) :
    (g.spliceAt op place w e).Runs (Function.update thread w (thread w ++ [op])) := by
  have hmem : (w, e) ∈ g.ends.toList := by simpa using Array.mem_of_getElem? he
  have hvertices : (g.spliceAt op place w e).vertices = setIncoming (⟨e.front, w⟩ :: ·)
      (setIncoming (fun l => ⟨op, w⟩ :: l.erase ⟨e.front, w⟩) g.vertices e.output) op := rfl
  have hnodes : ∀ v, nodeAt (g.spliceAt op place w e).vertices v = nodeAt g.vertices v := by
    intro v
    rw [hvertices, nodeAt_setIncoming, nodeAt_setIncoming]
  have houtput := (h.threads (w, e) hmem).output
  -- only the edges into the output of the wire are taken away
  have hkept : ∀ {w' : Wire} (u v index : Nat), nodeAt g.vertices v = some (.op index) →
      Joins g.vertices w' u v → Joins (g.spliceAt op place w e).vertices w' u v := by
    intro w' u v index hv hj
    rw [hvertices]
    refine (hj.setIncoming fun heq => ?_).setIncoming fun _ l hl => List.mem_cons_of_mem _ hl
    rw [← heq, houtput] at hv
    exact absurd hv (by simp)
  have hall : ∀ p ∈ g.ends.toList,
      Thread (g.spliceAt op place w e).vertices p.1 p.2 (thread p.1) := fun p hp =>
    (h.threads p hp).mono (fun v n hn => (hnodes v).trans hn) hkept
  constructor
  · rw [spliceAt_wireList he]
    exact h.nodup
  · intro p hp
    rcases mem_ends_spliceAt h.nodup he hp with rfl | ⟨hold, hne⟩
    · rw [Function.update_self]
      refine (hall (w, e) hmem).extend ((hnodes op).trans hop) ?_
      obtain ⟨x, hx, -⟩ := Option.map_eq_some_iff.1 ((nodeAt_setIncoming
        (fun l => ⟨op, w⟩ :: l.erase ⟨e.front, w⟩) g.vertices e.output op).trans hop)
      rw [hvertices, Joins, setIncoming, Array.getElem?_modify, if_pos rfl, hx]
      exact ⟨_, rfl, List.mem_cons_self⟩
    · rw [Function.update_of_ne hne]
      exact hall p hold

theorem splice (h : g.Runs thread) {w : Wire} {op index : Nat} {g' : WireGraph}
    (hop : nodeAt g.vertices op = some (.op index)) (hok : g.splice op w = (.ok (), g')) :
    g'.Runs (Function.update thread w (thread w ++ [op])) ∧
      ∀ v, nodeAt g'.vertices v = nodeAt g.vertices v := by
  obtain ⟨place, e, he, rfl⟩ := splice_ok hok
  refine ⟨h.spliceAt he hop, fun v => ?_⟩
  show nodeAt (setIncoming _ (setIncoming _ _ _) _) v = _
  rw [nodeAt_setIncoming, nodeAt_setIncoming]

theorem spliceAll {ws : List Wire} {op index : Nat} {g' : WireGraph} (h : g.Runs thread)
    (hws : ws.Nodup) (hop : nodeAt g.vertices op = some (.op index))
    (hok : spliceAll op g ws = (.ok (), g')) :
    g'.Runs (fun w => if w ∈ ws then thread w ++ [op] else thread w) ∧
      ∀ v, nodeAt g'.vertices v = nodeAt g.vertices v := by
  induction ws generalizing g thread with
  | nil =>
    obtain rfl := (Prod.mk.inj hok).2
    exact ⟨by simpa using h, fun _ => rfl⟩
  | cons w ws ih =>
    obtain ⟨hw, hws⟩ := List.nodup_cons.1 hws
    unfold WireGraph.spliceAll at hok
    split at hok
    · next g₁ hg₁ =>
      obtain ⟨hruns, hnodes⟩ := h.splice hop hg₁
      obtain ⟨hruns', hnodes'⟩ := ih hruns hws ((hnodes op).trans hop) hok
      refine ⟨?_, fun v => (hnodes' v).trans (hnodes v)⟩
      rw [lengthened_cons hw]
      exact hruns'
    · exact absurd (Prod.mk.inj hok).1 (by simp)

end Runs

theorem nodup_wires {i : Instruction R} (h : i.qubits.Nodup) : (wires i).Nodup := by
  have hclassical : i.classicalWires.Nodup :=
    (Ordered.pairwise_union List.Pairwise.nil _).imp fun hlt => hlt.ne
  refine List.nodup_append'.2 ⟨h.map fun _ _ => Wire.qubit.inj,
    hclassical.map fun _ _ => Wire.clbit.inj, ?_⟩
  intro w hq hc
  obtain ⟨q, -, rfl⟩ := List.mem_map.1 hq
  obtain ⟨c, -, hcq⟩ := List.mem_map.1 hc
  exact Wire.noConfusion hcq

/-! ## Graphs with their operations -/

structure Applied (R : Type) where
  vertex : Nat
  index : Nat
  instruction : Instruction R

def threadOf (ops : List (Applied R)) (w : Wire) : List Nat :=
  (ops.filter fun a => w ∈ wires a.instruction).map Applied.vertex

theorem apply_ok {g g' : WireGraph} {index : Nat} {i : Instruction R}
    (h : g.apply index i = (.ok (), g')) : g.fault? i = none ∧ ∃ g₁,
      spliceAll g.vertices.size { g with vertices := g.vertices.push ⟨.op index, []⟩ } (wires i) =
        (.ok (), g₁) ∧ g' = { g₁ with numOps := g₁.numOps + 1 } := by
  unfold apply at h
  split at h
  · exact absurd (Prod.mk.inj h).1 (by simp)
  · next hfault =>
    simp only [] at h
    split at h
    · next g₁ hg₁ => exact ⟨hfault, g₁, hg₁, (Prod.mk.inj h).2.symm⟩
    · exact absurd (Prod.mk.inj h).1 (by simp)

theorem threadOf_concat (ops : List (Applied R)) (a : Applied R) (w : Wire) :
    threadOf (ops ++ [a]) w =
      if w ∈ wires a.instruction then threadOf ops w ++ [a.vertex] else threadOf ops w := by
  unfold threadOf
  by_cases hw : w ∈ wires a.instruction <;> simp [List.filter_append, hw]

theorem fault?_mono {g g' : WireGraph} (h : ∀ w ∈ g.wireList, w ∈ g'.wireList)
    {i : Instruction R} (hi : g.fault? i = none) : g'.fault? i = none := by
  obtain ⟨hcount, hnodup, hwires⟩ := fault?_eq_none_iff.1 hi
  exact fault?_eq_none_iff.2 ⟨hcount, hnodup, fun w hw => h w (hwires w hw)⟩

/-- The wires run along the operations on them, which have their vertices and are still accepted. -/
structure Laid (g : WireGraph) (ops : List (Applied R)) : Prop where
  runs : g.Runs (threadOf ops)
  vertex : ∀ a ∈ ops, nodeAt g.vertices a.vertex = some (.op a.index)
  accepted : ∀ a ∈ ops, g.fault? a.instruction = none

namespace Laid

variable {g : WireGraph} {ops : List (Applied R)}

theorem threadOf_new (h : g.Laid ops) {w : Wire} (hnew : w ∉ g.wireList) :
    threadOf ops w = [] := by
  unfold threadOf
  rw [List.map_eq_nil_iff, List.filter_eq_nil_iff]
  intro a ha hwa
  exact hnew ((fault?_eq_none_iff.1 (h.accepted a ha)).2.2 w (of_decide_eq_true hwa))

theorem addWire (h : g.Laid ops) {w : Wire} (hnew : w ∉ g.wireList) : (g.addWire w).Laid ops := by
  refine ⟨h.runs.addWire hnew (h.threadOf_new hnew), fun a ha => ?_, fun a ha => ?_⟩
  · exact nodeAt_push (nodeAt_push (h.vertex a ha) _) _
  · refine fault?_mono (fun w' hw' => ?_) (h.accepted a ha)
    rw [wireList_addWire]
    exact List.mem_append_left _ hw'

theorem congr (h : g.Laid ops) {g' : WireGraph} (hvertices : g'.vertices = g.vertices)
    (hends : g'.ends = g.ends) : g'.Laid ops := by
  obtain ⟨⟨hnodup, hthreads⟩, hvertex, haccepted⟩ := h
  have hlist : g'.wireList = g.wireList := by
    rw [wireList, wireList, hends]
  refine ⟨⟨hlist ▸ hnodup, ?_⟩, ?_, fun a ha => ?_⟩
  · rw [hvertices, hends]
    exact hthreads
  · rw [hvertices]
    exact hvertex
  · exact fault?_mono (fun w hw => hlist ▸ hw) (haccepted a ha)

theorem addsWire (h : g.Laid ops) {w : Wire} {g' : WireGraph} (hadds : g.AddsWire w g') :
    g'.Laid ops := by
  cases hadds with
  | present => exact h
  | added hw => exact (h.addWire hw).congr rfl rfl

theorem apply (h : g.Laid ops) {g' : WireGraph} {index : Nat} {i : Instruction R}
    (hok : g.apply index i = (.ok (), g')) :
    g'.Laid (ops ++ [⟨g.vertices.size, index, i⟩]) := by
  obtain ⟨hfault, g₁, hsplice, rfl⟩ := apply_ok hok
  obtain ⟨-, hnodup, -⟩ := fault?_eq_none_iff.1 hfault
  have hpushed : Runs { g with vertices := g.vertices.push ⟨.op index, []⟩ } (threadOf ops) :=
    ⟨h.runs.nodup, fun p hp => (h.runs.threads p hp).push _⟩
  have hnew := nodeAt_size g.vertices ⟨.op index, []⟩
  obtain ⟨hruns, hnodes⟩ := hpushed.spliceAll (nodup_wires hnodup) hnew hsplice
  have hlist : g₁.wireList = g.wireList := by
    have hall := spliceAll_wireList g.vertices.size (wires i)
      { g with vertices := g.vertices.push ⟨.op index, []⟩ }
    rw [hsplice] at hall
    exact hall
  have hthreads : threadOf (ops ++ [⟨g.vertices.size, index, i⟩]) = fun w =>
      if w ∈ wires i then threadOf ops w ++ [g.vertices.size] else threadOf ops w :=
    funext fun w => threadOf_concat ops _ w
  refine ⟨?_, fun a ha => (hnodes a.vertex).trans ?_, fun a ha => ?_⟩
  · rw [hthreads]
    exact ⟨hruns.nodup, hruns.threads⟩
  · rcases List.mem_append.1 ha with ha | ha
    · exact nodeAt_push (h.vertex a ha) _
    · rw [List.mem_singleton.1 ha]
      exact hnew
  · refine fault?_mono (g := g) (fun w hw => hlist ▸ hw) ?_
    rcases List.mem_append.1 ha with ha | ha
    · exact h.accepted a ha
    · rw [List.mem_singleton.1 ha]
      exact hfault

end Laid

/-! ## Edges between operations -/

def feeds (g : WireGraph) : List (Nat × Nat) :=
  g.vertices.toList.flatMap fun x => match x.node with
    | .op j => x.incoming.filterMap fun e => match nodeAt g.vertices e.source with
      | some (.op i) => some (i, j)
      | _ => none
    | _ => []

theorem mem_feeds {g : WireGraph} {w : Wire} {u v i j : Nat} (h : Joins g.vertices w u v)
    (hu : nodeAt g.vertices u = some (.op i)) (hv : nodeAt g.vertices v = some (.op j)) :
    (i, j) ∈ g.feeds := by
  obtain ⟨x, hx, he⟩ := h
  have hnode : x.node = .op j := by
    rw [nodeAt, hx] at hv
    exact Option.some.inj hv
  refine List.mem_flatMap.2 ⟨x, by simpa using Array.mem_of_getElem? hx, ?_⟩
  rw [hnode]
  exact List.mem_filterMap.2 ⟨_, he, by simp [hu]⟩

theorem Laid.pairwise_wire {g : WireGraph} {ops : List (Applied R)} (h : g.Laid ops)
    {rank : Nat → Nat} (hrank : ∀ p ∈ g.feeds, rank p.1 < rank p.2) (w : Wire) :
    ops.Pairwise fun a b => w ∈ wires a.instruction → w ∈ wires b.instruction →
      rank a.index < rank b.index := by
  by_cases hw : w ∈ g.wireList
  · obtain ⟨p, hp, rfl⟩ := List.mem_map.1 hw
    obtain ⟨s, -, hchain, -⟩ := (h.runs.threads p hp).start
    have hjoined := List.isChain_map _ |>.1 hchain.tail
    have hranked : (ops.filter fun a => p.1 ∈ wires a.instruction).IsChain
        fun a b => rank a.index < rank b.index := by
      refine hjoined.imp_of_mem_imp fun a b ha hb hab => ?_
      have hua := h.vertex a (List.mem_of_mem_filter ha)
      have hub := h.vertex b (List.mem_of_mem_filter hb)
      exact hrank _ (mem_feeds hab hua hub)
    -- ranks grow along the whole thread, not only from one operation to the next
    have hpairwise := List.isChain_iff_pairwise.1 hranked
    simpa only [decide_eq_true_eq] using List.pairwise_filter.1 hpairwise
  · refine List.pairwise_of_forall_mem_list fun a ha b _ hwa _ => absurd ?_ hw
    exact (fault?_eq_none_iff.1 (h.accepted a ha)).2.2 w hwa

theorem Laid.pairwise {g : WireGraph} {ops : List (Applied R)} (h : g.Laid ops)
    (rank : Nat → Nat) (hrank : ∀ p ∈ g.feeds, rank p.1 < rank p.2) :
    ops.Pairwise fun a b => ∀ w ∈ wires a.instruction, w ∈ wires b.instruction →
      rank a.index < rank b.index := by
  rw [List.pairwise_iff_getElem]
  intro i j hi hj hij w
  exact List.pairwise_iff_getElem.1 (h.pairwise_wire hrank w) i j hi hj hij

end WireGraph

/-! ## Circuits -/

namespace Circuit

open WireGraph (Applied)

/-- The circuits that can be made: from an empty one by registering and releasing qubits, adding
classical bits and pushing instructions, with success or not, and by finishing. -/
inductive Built : Circuit R → Prop
  | new (name : String) : Built (new name)
  | registerQubit {c : Circuit R} (h : Built c) (q : Qubit) : Built (c.registerQubit q)
  | recordRelease {c : Circuit R} (h : Built c) (qs : List QubitId) : Built (c.recordRelease qs)
  | addClbit {c : Circuit R} (h : Built c) (source : Option QubitId) : Built (c.addClbit source).2
  | push {c : Circuit R} (h : Built c) (i : Instruction R) : Built (c.push i).2
  | finish {c : Circuit R} (h : Built c) : Built c.finish

theorem built_withSize (name : String) (numQubits numClbits : Nat) :
    (withSize name numQubits numClbits : Circuit R).Built := by
  have hregister : ∀ (qs : List QubitId) {c : Circuit R}, c.Built →
      (qs.foldl (fun c q => c.registerQubit ⟨q, none, none⟩) c).Built := by
    intro qs
    induction qs with
    | nil => exact fun h => h
    | cons q qs ih => exact fun h => ih (h.registerQubit _)
  have hadd : ∀ (cs : List ClbitId) {c : Circuit R}, c.Built →
      (cs.foldl (fun c _ => (c.addClbit none).2) c).Built := by
    intro cs
    induction cs with
    | nil => exact fun h => h
    | cons _ cs ih => exact fun h => ih (h.addClbit none)
  exact hadd _ (hregister _ (.new name))

def pushAll (c : Circuit R) (l : List (Instruction R)) : Circuit R :=
  l.foldl (fun c i => (c.push i).2) c

theorem Built.pushAll {c : Circuit R} (h : c.Built) (l : List (Instruction R)) :
    (c.pushAll l).Built := by
  induction l generalizing c with
  | nil => exact h
  | cons i l ih => exact ih (h.push i)

theorem Built.grown {c c' : Circuit R} (h : c.Built) (hg : Grown c c') : c'.Built := by
  induction hg with
  | refl => exact h
  | registerQubit _ q ih => exact ih.registerQubit q
  | recordRelease _ qs ih => exact ih.recordRelease qs
  | addClbit _ source ih => exact ih.addClbit source
  | push _ i ih => exact ih.push i

theorem push_cases {c : Circuit R} (h : c.graph.Spliceable) (i : Instruction R) :
    (∃ e, c.push i = (.error e, c)) ∨ ∃ g, c.graph.apply c.instructions.size i = (.ok (), g) ∧
      c.push i = (.ok (), { c with graph := g, instructions := c.instructions.push i }) := by
  unfold Circuit.push onGraph
  split
  · exact .inl ⟨_, rfl⟩
  · cases hfault : c.graph.fault? i with
    | some e =>
      simp only [WireGraph.apply_of_fault hfault]
      exact .inl ⟨e, rfl⟩
    | none =>
      have hok := (h.apply hfault c.instructions.size).1
      have happly : c.graph.apply c.instructions.size i =
        (.ok (), (c.graph.apply c.instructions.size i).2) := Prod.ext hok rfl
      refine .inr ⟨_, happly, ?_⟩
      simp only []
      rw [happly]

/-- The qubits with wires are registered, and the graph is laid out along the instructions, each
known by its position. -/
structure Orderly (c : Circuit R) : Prop where
  registers : c.Registers
  spliceable : c.graph.Spliceable
  laid : ∃ ops, c.graph.Laid ops ∧ ops.map Applied.instruction = c.instructions.toList ∧
    ops.map Applied.index = List.range c.instructions.size

theorem orderly_new (name : String) : (new name : Circuit R).Orderly :=
  ⟨registers_new name, WireGraph.spliceable_empty, [],
    ⟨⟨List.nodup_nil, by simp [new, WireGraph.empty]⟩, by simp, by simp⟩, rfl, rfl⟩

namespace Orderly

variable {c : Circuit R}

theorem registerQubit (h : c.Orderly) (q : Qubit) : (c.registerQubit q).Orderly := by
  have hregisters := h.registers.grown (.registerQubit .refl q)
  obtain ⟨ops, hlaid, hinstructions, hindices⟩ := h.laid
  obtain ⟨-, hsame⟩ | ⟨-, hnew⟩ := c.registerQubit_cases q
  · rw [hsame] at hregisters ⊢
    exact ⟨hregisters, h.spliceable, ops, hlaid, hinstructions, hindices⟩
  · rw [hnew] at hregisters ⊢
    exact ⟨hregisters, h.spliceable.addsWire (WireGraph.addsWire_addQubit _ _), ops,
      hlaid.addsWire (WireGraph.addsWire_addQubit _ _), hinstructions, hindices⟩

theorem addClbit (h : c.Orderly) (source : Option QubitId) : (c.addClbit source).2.Orderly := by
  obtain ⟨ops, hlaid, hinstructions, hindices⟩ := h.laid
  exact ⟨h.registers.grown (.addClbit .refl source),
    h.spliceable.addsWire (WireGraph.addsWire_addClbit _ _), ops,
    hlaid.addsWire (WireGraph.addsWire_addClbit _ _), hinstructions, hindices⟩

theorem push (h : c.Orderly) (i : Instruction R) : (c.push i).2.Orderly := by
  have hregisters := h.registers.grown (.push .refl i)
  obtain ⟨ops, hlaid, hinstructions, hindices⟩ := h.laid
  rcases push_cases h.spliceable i with ⟨e, hpush⟩ | ⟨g, happly, hpush⟩
  · rw [hpush]
    exact h
  · rw [hpush] at hregisters ⊢
    have hfault := (WireGraph.apply_ok happly).1
    have hnext := (h.spliceable.apply hfault c.instructions.size).2
    rw [happly] at hnext
    refine ⟨hregisters, hnext, _, hlaid.apply happly, ?_, ?_⟩
    · simp [hinstructions]
    · simp [hindices, List.range_succ]

end Orderly

theorem Built.orderly {c : Circuit R} (h : c.Built) : c.Orderly := by
  induction h with
  | new name => exact orderly_new name
  | registerQubit _ q ih => exact ih.registerQubit q
  | recordRelease _ qs ih => exact ⟨ih.registers, ih.spliceable, ih.laid⟩
  | addClbit _ source ih => exact ih.addClbit source
  | push _ i ih => exact ih.push i
  | finish _ ih => exact ⟨ih.registers, ih.spliceable, ih.laid⟩

theorem getElem?_index {c : Circuit R} {ops : List (Applied R)}
    (hinstructions : ops.map Applied.instruction = c.instructions.toList)
    (hindices : ops.map Applied.index = List.range c.instructions.size) {a : Applied R}
    (ha : a ∈ ops) : c.instructions[a.index]? = some a.instruction := by
  obtain ⟨k, hk⟩ := List.mem_iff_getElem?.1 ha
  have hindex : (List.range c.instructions.size)[k]? = some a.index := by
    rw [← hindices, List.getElem?_map, hk]
    rfl
  have hinstruction : c.instructions.toList[k]? = some a.instruction := by
    rw [← hinstructions, List.getElem?_map, hk]
    rfl
  obtain ⟨_, hat⟩ := List.getElem?_eq_some_iff.1 hindex
  rw [← hat, List.getElem_range, ← Array.getElem?_toList]
  exact hinstruction

theorem Orderly.accepted {c : Circuit R} (h : c.Orderly) {i : Instruction R}
    (hi : i ∈ c.instructions.toList) : c.graph.fault? i = none := by
  obtain ⟨ops, hlaid, hinstructions, -⟩ := h.laid
  rw [← hinstructions] at hi
  obtain ⟨a, ha, rfl⟩ := List.mem_map.1 hi
  exact hlaid.accepted a ha

theorem Orderly.fits {c : Circuit R} (h : c.Orderly) {i : Instruction R}
    (hi : i ∈ c.instructions.toList) {g : Gate R} (hg : i.operation = .gate g) :
    g.kind.Fits c.width i.qubits := by
  obtain ⟨hcount, hnodup, hwires⟩ := WireGraph.fault?_eq_none_iff.1 (h.accepted hi)
  refine ⟨?_, hnodup, fun q hq => ?_⟩
  · by_contra hne
    simp [WireGraph.countFault?, hg, Ne.symm hne] at hcount
  · obtain ⟨p, hp, rfl⟩ := h.registers q
      (hwires _ (List.mem_append_left _ (List.mem_map_of_mem hq)))
    exact lt_width hp

end Circuit

end Ancilla
