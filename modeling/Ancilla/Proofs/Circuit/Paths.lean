import Ancilla.Proofs.Circuit.Threads
import Mathlib.Data.Fintype.Card
import Mathlib.Data.Fintype.EquivFin
import Mathlib.Logic.Relation
import Mathlib.Order.WellFounded

/-!
The wires of a dependency graph as paths. The edges that carry a wire are the steps from its input
along its thread to its output, each of them once and no others. So no edges lead around in a
circle, and every wire is found in order when it is followed back. This holds of every graph,
whatever wires were added and whatever operations applied, with success or not.
-/

namespace Ancilla

variable {R : Type}

namespace WireGraph

/-! ## The steps of a path -/

def stepsInto (path : List Nat) (v : Nat) : List Nat :=
  ((path.zip path.tail).filter fun p => p.2 = v).map Prod.fst

theorem stepsInto_cons_cons (a b : Nat) (l : List Nat) (v : Nat) :
    stepsInto (a :: b :: l) v = (if b = v then [a] else []) ++ stepsInto (b :: l) v := by
  by_cases h : b = v <;> simp [stepsInto, h]

theorem stepsInto_concat {l : List Nat} {a : Nat} (h : l.getLast? = some a) (b v : Nat) :
    stepsInto (l ++ [b]) v = stepsInto l v ++ if b = v then [a] else [] := by
  induction l with
  | nil => exact absurd h (by simp)
  | cons x l ih =>
    cases l with
    | nil =>
      obtain rfl : x = a := by simpa using h
      exact (stepsInto_cons_cons x b [] v).trans (by simp [stepsInto])
    | cons y l =>
      have hrest := ih (by simpa using h)
      rw [List.cons_append, List.cons_append, stepsInto_cons_cons, stepsInto_cons_cons,
        ← List.cons_append, hrest, List.append_assoc]

theorem stepsInto_eq_nil {path : List Nat} {v : Nat} (h : v ∉ path.tail) :
    stepsInto path v = [] := by
  unfold stepsInto
  rw [List.map_eq_nil_iff, List.filter_eq_nil_iff]
  rintro ⟨a, b⟩ hab heq
  obtain rfl : b = v := by simpa using heq
  exact h (List.of_mem_zip hab).2

theorem lt_of_mem_stepsInto {path : List Nat} (h : path.Pairwise (· < ·)) {u v : Nat}
    (hu : u ∈ stepsInto path v) : u < v ∧ v ∈ path.tail := by
  induction path with
  | nil => exact absurd hu (by simp [stepsInto])
  | cons a path ih =>
    cases path with
    | nil => exact absurd hu (by simp [stepsInto])
    | cons b l =>
      rw [stepsInto_cons_cons, List.mem_append] at hu
      obtain ⟨hfirst, hrest⟩ := List.pairwise_cons.1 h
      rcases hu with hu | hu
      · split at hu
        · next hbv =>
          rw [List.mem_singleton.1 hu, ← hbv]
          exact ⟨hfirst b List.mem_cons_self, List.mem_cons_self⟩
        · exact absurd hu List.not_mem_nil
      · obtain ⟨hlt, hmem⟩ := ih hrest hu
        exact ⟨hlt, List.mem_cons_of_mem _ hmem⟩

theorem isChain_stepsInto {path : List Nat} (h : path.Nodup) :
    path.IsChain fun u v => stepsInto path v = [u] := by
  induction path with
  | nil => exact .nil
  | cons a path ih =>
    cases path with
    | nil => exact .singleton a
    | cons b l =>
      obtain ⟨-, hrest⟩ := List.nodup_cons.1 h
      have hb : b ∉ l := (List.nodup_cons.1 hrest).1
      refine List.isChain_cons_cons.2 ⟨?_, (ih hrest).imp_of_mem_tail_imp fun u v _ hv huv => ?_⟩
      · rw [stepsInto_cons_cons, if_pos rfl, stepsInto_eq_nil hb, List.append_nil]
      · have hne : b ≠ v := fun heq => hb (heq ▸ hv)
        rw [stepsInto_cons_cons, if_neg hne, huv, List.nil_append]

/-! ## The edges of a wire -/

def sources (vs : Array Vertex) (w : Wire) (v : Nat) : List Nat :=
  (((vs[v]?.map Vertex.incoming).getD []).filter fun e => e.wire = w).map Edge.source

theorem sources_of_size_le {vs : Array Vertex} {v : Nat} (h : vs.size ≤ v) (w : Wire) :
    sources vs w v = [] := by
  simp [sources, Array.getElem?_eq_none h]

theorem sources_push (vs : Array Vertex) (x : Vertex) (w : Wire) (v : Nat) :
    sources (vs.push x) w v = sources vs w v ++
      if v = vs.size then (x.incoming.filter fun e => e.wire = w).map Edge.source else [] := by
  unfold sources
  rw [Array.getElem?_push]
  by_cases h : v = vs.size <;> simp [h]

theorem sources_setIncoming_of_ne {i v : Nat} (h : i ≠ v) (f : List Edge → List Edge)
    (vs : Array Vertex) (w : Wire) : sources (setIncoming f vs i) w v = sources vs w v := by
  simp [sources, setIncoming, Array.getElem?_modify, h]

theorem sources_setIncoming_self {vs : Array Vertex} {v : Nat} {x : Vertex} (h : vs[v]? = some x)
    (f : List Edge → List Edge) (w : Wire) : sources (setIncoming f vs v) w v =
      ((f x.incoming).filter fun e => e.wire = w).map Edge.source := by
  simp [sources, setIncoming, Array.getElem?_modify, h]

theorem nodeAt_spliceAt (g : WireGraph) (op place : Nat) (w : Wire) (e : Ends) (v : Nat) :
    nodeAt (g.spliceAt op place w e).vertices v = nodeAt g.vertices v :=
  (nodeAt_setIncoming ..).trans (nodeAt_setIncoming ..)

theorem filter_cons_of_ne {w w' : Wire} (h : w ≠ w') (u : Nat) (l : List Edge) :
    (⟨u, w⟩ :: l : List Edge).filter (fun e => e.wire = w') = l.filter fun e => e.wire = w' :=
  List.filter_cons_of_neg (by simpa using h)

theorem sources_spliceAt_of_ne (g : WireGraph) (op place : Nat) {w w' : Wire} (h : w ≠ w')
    (e : Ends) (v : Nat) :
    sources (g.spliceAt op place w e).vertices w' v = sources g.vertices w' v := by
  have hset : ∀ {f : List Edge → List Edge} (vs : Array Vertex) (i : Nat),
      (∀ l, (f l).filter (fun e => e.wire = w') = l.filter fun e => e.wire = w') →
      sources (setIncoming f vs i) w' v = sources vs w' v := by
    intro f vs i hf
    by_cases hi : i = v
    · subst hi
      cases hx : vs[i]? with
      | none => simp [sources, setIncoming, Array.getElem?_modify, hx]
      | some x =>
        rw [sources_setIncoming_self hx, hf]
        simp [sources, hx]
    · exact sources_setIncoming_of_ne hi f vs w'
  show sources (setIncoming _ (setIncoming _ g.vertices e.output) op) w' v = _
  rw [hset _ _ fun l => filter_cons_of_ne h _ l, hset _ _ fun l => ?_]
  rw [filter_cons_of_ne h, ← List.erase_filter, List.erase_of_not_mem]
  simpa [List.mem_filter] using fun _ => h

theorem sources_spliceAt {g : WireGraph} {op place : Nat} {w : Wire} {e : Ends} {x : Vertex}
    (hx : g.vertices[op]? = some x) (hop : sources g.vertices w op = [])
    (hout : sources g.vertices w e.output = [e.front]) (v : Nat) :
    sources (g.spliceAt op place w e).vertices w v =
      if e.output = v then [op] else if op = v then [e.front] else sources g.vertices w v := by
  have hne : op ≠ e.output := by
    rintro rfl
    rw [hop] at hout
    exact absurd hout (by simp)
  show sources (setIncoming _ (setIncoming _ g.vertices e.output) op) w v = _
  by_cases hv : e.output = v
  · subst hv
    rw [if_pos rfl, sources_setIncoming_of_ne hne]
    cases hy : g.vertices[e.output]? with
    | none => exact absurd hout (by simp [sources, hy])
    | some y =>
      -- the output has one edge of the wire, the one that is replaced
      have hone : y.incoming.filter (fun e => e.wire = w) = [⟨e.front, w⟩] := by
        rw [sources, hy] at hout
        obtain ⟨⟨u, w'⟩, hedge, hu⟩ := List.map_eq_singleton_iff.1 hout
        obtain rfl : u = e.front := hu
        have hw : w' = w := by
          have hmem : (⟨e.front, w'⟩ : Edge) ∈ y.incoming.filter fun e => e.wire = w := by
            rw [show y.incoming.filter (fun e => e.wire = w) = [⟨e.front, w'⟩] from hedge]
            exact List.mem_singleton.2 rfl
          simpa using (List.mem_filter.1 hmem).2
        rw [← hw]
        rw [← hw] at hedge
        exact hedge
      rw [sources_setIncoming_self hy, List.filter_cons_of_pos (by simp), ← List.erase_filter, hone]
      simp
  · rw [if_neg hv]
    by_cases hopv : op = v
    · subst hopv
      have hmid : (setIncoming (fun l => ⟨op, w⟩ :: l.erase ⟨e.front, w⟩) g.vertices
          e.output)[op]? = some x := by
        rw [setIncoming, Array.getElem?_modify, if_neg hv, hx]
      have hnone : x.incoming.filter (fun e => e.wire = w) = [] := by
        simpa [sources, hx] using hop
      rw [if_pos rfl, sources_setIncoming_self hmid, List.filter_cons_of_pos (by simp), hnone]
      rfl
    · rw [if_neg hopv, sources_setIncoming_of_ne hopv, sources_setIncoming_of_ne hv]

/-! ## Woven graphs -/

/-- The edges of a wire are the steps from its input `s` along its thread to its output. -/
structure Strand (vs : Array Vertex) (w : Wire) (e : Ends) (thread : List Nat) (s : Nat) :
    Prop where
  input : nodeAt vs s = some (.input w)
  ascending : (s :: thread).Pairwise (· < ·)
  front : (s :: thread).getLast? = some e.front
  sources : ∀ v, sources vs w v = stepsInto (s :: thread ++ [e.output]) v

/-- The wires of a graph run along their threads and there are no other edges. -/
structure Woven (g : WireGraph) (thread : Wire → List Nat) : Prop where
  runs : g.Runs thread
  strands : ∀ p ∈ g.ends.toList, ∃ s, Strand g.vertices p.1 p.2 (thread p.1) s
  others : ∀ w ∉ g.wireList, ∀ v, sources g.vertices w v = []

theorem lt_size_of_nodeAt {vs : Array Vertex} {v : Nat} {n : Node} (h : nodeAt vs v = some n) :
    v < vs.size := by
  obtain ⟨x, hx, -⟩ := Option.map_eq_some_iff.1 h
  exact (Array.getElem?_eq_some_iff.1 hx).1

namespace Strand

variable {vs : Array Vertex} {w : Wire} {e : Ends} {thread : List Nat} {s : Nat}

theorem push (h : Strand vs w e thread s) {x : Vertex} (hx : ∀ d ∈ x.incoming, d.wire ≠ w) :
    Strand (vs.push x) w e thread s := by
  refine ⟨nodeAt_push h.input x, h.ascending, h.front, fun v => ?_⟩
  have hnone : x.incoming.filter (fun d => d.wire = w) = [] := by
    rw [List.filter_eq_nil_iff]
    simpa using hx
  rw [sources_push, hnone, h.sources v]
  simp

theorem nodup (h : Strand vs w e thread s) (hthread : Thread vs w e thread) :
    (s :: thread ++ [e.output]).Nodup := by
  refine List.nodup_append'.2 ⟨h.ascending.imp fun hlt => hlt.ne, List.nodup_singleton _, ?_⟩
  intro v hv hout
  rw [List.mem_singleton.1 hout] at hv
  have hnode := hthread.output
  rcases List.mem_cons.1 hv with heq | hv
  · rw [heq, h.input] at hnode
    exact absurd hnode (by simp)
  · obtain ⟨index, hindex⟩ := hthread.ops _ hv
    rw [hindex] at hnode
    exact absurd hnode (by simp)

theorem lt_size (h : Strand vs w e thread s) (hthread : Thread vs w e thread) {v : Nat}
    (hv : v ∈ s :: thread ++ [e.output]) : v < vs.size := by
  simp only [List.cons_append, List.mem_cons, List.mem_append, List.not_mem_nil, or_false] at hv
  rcases hv with rfl | hv | rfl
  · exact lt_size_of_nodeAt h.input
  · obtain ⟨index, hindex⟩ := hthread.ops v hv
    exact lt_size_of_nodeAt hindex
  · exact lt_size_of_nodeAt hthread.output

theorem sources_output (h : Strand vs w e thread s) (hthread : Thread vs w e thread) :
    WireGraph.sources vs w e.output = [e.front] := by
  have hnodup := h.nodup hthread
  have hnew : e.output ∉ s :: thread := by
    obtain ⟨-, -, hdisjoint⟩ := List.nodup_append'.1 hnodup
    exact fun hmem => hdisjoint hmem List.mem_cons_self
  have hbefore := stepsInto_eq_nil (fun hmem => hnew (List.mem_of_mem_tail hmem))
  rw [h.sources, stepsInto_concat h.front, hbefore, if_pos rfl, List.nil_append]

theorem spliceAt {g : WireGraph} (h : Strand g.vertices w e thread s)
    (hthread : Thread g.vertices w e thread) (place : Nat) {op index : Nat}
    (hop : nodeAt g.vertices op = some (.op index)) (hlast : op + 1 = g.vertices.size)
    (hfresh : ∀ v ∈ thread, v < op) :
    Strand (g.spliceAt op place w e).vertices w { e with front := op } (thread ++ [op]) s := by
  have hbelow : ∀ v ∈ s :: thread, v < op := by
    intro v hv
    rcases List.mem_cons.1 hv with rfl | hv
    · have hlt := lt_size_of_nodeAt h.input
      have hne : v ≠ op := fun heq => by simp [← heq, h.input] at hop
      omega
    · exact hfresh v hv
  have hout : op ≠ e.output := fun heq => by simp [heq, hthread.output] at hop
  have hfree : WireGraph.sources g.vertices w op = [] := by
    rw [h.sources]
    refine stepsInto_eq_nil fun hmem => ?_
    rcases List.mem_append.1 (show op ∈ thread ++ [e.output] from hmem) with hv | hv
    · exact absurd (hfresh op hv) (Nat.lt_irrefl op)
    · exact hout (List.mem_singleton.1 hv)
  -- the edges before: the steps along the thread, and the one into the output
  have hbase : ∀ v, WireGraph.sources g.vertices w v =
      stepsInto (s :: thread) v ++ if e.output = v then [e.front] else [] := fun v =>
    (h.sources v).trans (stepsInto_concat h.front _ v)
  have hnoneout : stepsInto (s :: thread) e.output = [] := by
    have hat := hbase e.output
    rw [h.sources_output hthread, if_pos rfl] at hat
    simpa using hat
  have hnoneop : stepsInto (s :: thread) op = [] := by
    have hat := hbase op
    rw [hfree] at hat
    exact (List.append_eq_nil_iff.1 hat.symm).1
  obtain ⟨x, hx, -⟩ := Option.map_eq_some_iff.1 hop
  refine ⟨(nodeAt_spliceAt ..).trans h.input, ?_, ?_, fun v => ?_⟩
  · rw [← List.cons_append]
    refine List.pairwise_append.2 ⟨h.ascending, List.pairwise_singleton _ _, ?_⟩
    intro u hu v hv
    rw [List.mem_singleton.1 hv]
    exact hbelow u hu
  · rw [← List.cons_append, List.getLast?_concat]
  · rw [sources_spliceAt hx hfree (h.sources_output hthread), ← List.cons_append,
      stepsInto_concat (List.getLast?_concat ..), stepsInto_concat h.front, hbase v]
    by_cases hv : e.output = v
    · subst hv
      simp [hout, hnoneout]
    · by_cases hopv : op = v
      · subst hopv
        simp [hv, hnoneop]
      · simp [hv, hopv]

end Strand

namespace Woven

variable {g : WireGraph} {thread : Wire → List Nat}

theorem addWire (h : g.Woven thread) {w : Wire} (hw : w ∉ g.wireList) (hnone : thread w = []) :
    (g.addWire w).Woven thread := by
  refine ⟨h.runs.addWire hw hnone, fun p hp => ?_, fun w' hw' v => ?_⟩
  · have hmem : p ∈ g.ends.toList ∨ p = (w, ⟨g.vertices.size + 1, g.vertices.size⟩) := by
      simpa [WireGraph.addWire] using hp
    rcases hmem with hold | rfl
    · obtain ⟨s, hs⟩ := h.strands p hold
      have hne : w ≠ p.1 := fun heq => hw (heq ▸ List.mem_map_of_mem hold)
      refine ⟨s, (hs.push ?_).push ?_⟩ <;> simp [hne]
    · refine ⟨g.vertices.size, ?_, ?_, ?_, fun v => ?_⟩
      · exact nodeAt_push (nodeAt_size g.vertices ⟨.input w, []⟩) _
      · simp [hnone]
      · simp [hnone]
      · have hold := h.others w hw v
        simp only [WireGraph.addWire, sources_push, hold, hnone, Array.size_push]
        by_cases hv : v = g.vertices.size + 1
        · simp [stepsInto, hv]
        · simp [stepsInto, hv, Ne.symm hv]
  · rw [wireList_addWire, List.mem_append, not_or, List.mem_singleton] at hw'
    have hold := h.others w' hw'.1 v
    simp [WireGraph.addWire, sources_push, hold, Ne.symm hw'.2]

theorem spliceAt (h : g.Woven thread) {w : Wire} {place : Nat} {e : Ends}
    (he : g.ends[place]? = some (w, e)) {op index : Nat}
    (hop : nodeAt g.vertices op = some (.op index)) (hlast : op + 1 = g.vertices.size)
    (hfresh : ∀ v ∈ thread w, v < op) :
    (g.spliceAt op place w e).Woven (Function.update thread w (thread w ++ [op])) := by
  have hmem : (w, e) ∈ g.ends.toList := by simpa using Array.mem_of_getElem? he
  refine ⟨h.runs.spliceAt he hop, fun p hp => ?_, fun w' hw' v => ?_⟩
  · rcases mem_ends_spliceAt h.runs.nodup he hp with rfl | ⟨hold, hne⟩
    · obtain ⟨s, hs⟩ := h.strands (w, e) hmem
      rw [Function.update_self]
      exact ⟨s, hs.spliceAt (h.runs.threads (w, e) hmem) place hop hlast hfresh⟩
    · obtain ⟨s, hs⟩ := h.strands p hold
      rw [Function.update_of_ne hne]
      refine ⟨s, ?_, hs.ascending, hs.front, fun v => ?_⟩
      · exact (nodeAt_spliceAt ..).trans hs.input
      · rw [sources_spliceAt_of_ne g op place (Ne.symm hne), hs.sources]
  · rw [spliceAt_wireList he] at hw'
    have hne : w ≠ w' := fun heq => hw' (heq ▸ List.mem_map_of_mem hmem)
    rw [sources_spliceAt_of_ne g op place hne, h.others w' hw']

theorem spliceAll {ws : List Wire} {op index : Nat} {g' : WireGraph} (h : g.Woven thread)
    (hws : ws.Nodup) (hop : nodeAt g.vertices op = some (.op index))
    (hlast : op + 1 = g.vertices.size) (hfresh : ∀ w ∈ ws, ∀ v ∈ thread w, v < op)
    (hok : WireGraph.spliceAll op g ws = (.ok (), g')) :
    g'.Woven fun w => if w ∈ ws then thread w ++ [op] else thread w := by
  induction ws generalizing g thread with
  | nil =>
    obtain rfl := (Prod.mk.inj hok).2
    simpa using h
  | cons w ws ih =>
    obtain ⟨hw, hws⟩ := List.nodup_cons.1 hws
    unfold WireGraph.spliceAll at hok
    split at hok
    · next g₁ hg₁ =>
      obtain ⟨place, e, he, rfl⟩ := splice_ok hg₁
      have hnext := h.spliceAt he hop hlast (hfresh w List.mem_cons_self)
      have hnode := (nodeAt_spliceAt g op place w e op).trans hop
      have hsize : op + 1 = (g.spliceAt op place w e).vertices.size := by
        simpa [WireGraph.spliceAt, setIncoming] using hlast
      have hrest := ih hnext hws hnode hsize (fun w' hw' v hv => ?_) hok
      · rw [lengthened_cons hw]
        exact hrest
      · have hne : w' ≠ w := fun heq => hw (heq ▸ hw')
        rw [Function.update_of_ne hne] at hv
        exact hfresh w' (List.mem_cons_of_mem _ hw') v hv
    · exact absurd (Prod.mk.inj hok).1 (by simp)

theorem congr (h : g.Woven thread) {g' : WireGraph} (hvertices : g'.vertices = g.vertices)
    (hends : g'.ends = g.ends) : g'.Woven thread := by
  obtain ⟨⟨hnodup, hthreads⟩, hstrands, hothers⟩ := h
  have hlist : g'.wireList = g.wireList := by
    rw [wireList, wireList, hends]
  refine ⟨⟨hlist ▸ hnodup, ?_⟩, ?_, ?_⟩
  · rw [hvertices, hends]
    exact hthreads
  · rw [hvertices, hends]
    exact hstrands
  · rw [hvertices, hlist]
    exact hothers

end Woven

structure Knit (g : WireGraph) (ops : List (Applied R)) : Prop where
  spliceable : g.Spliceable
  laid : g.Laid ops
  woven : g.Woven (threadOf ops)

namespace Knit

variable {g : WireGraph} {ops : List (Applied R)}

theorem empty : WireGraph.empty.Knit ([] : List (Applied R)) := by
  have hruns : WireGraph.empty.Runs (threadOf ([] : List (Applied R))) :=
    ⟨List.nodup_nil, fun p hp => absurd hp (by simp [WireGraph.empty])⟩
  refine ⟨spliceable_empty, ⟨hruns, by simp, by simp⟩, hruns, ?_, fun w _ v => ?_⟩
  · exact fun p hp => absurd hp (by simp [WireGraph.empty])
  · simp [sources, WireGraph.empty]

theorem addsWire (h : g.Knit ops) {w : Wire} {g' : WireGraph} (hadds : g.AddsWire w g') :
    g'.Knit ops := by
  refine ⟨h.spliceable.addsWire hadds, h.laid.addsWire hadds, ?_⟩
  cases hadds with
  | present => exact h.woven
  | added hw => exact (h.woven.addWire hw (h.laid.threadOf_new hw)).congr rfl rfl

theorem apply (h : g.Knit ops) {g' : WireGraph} {index : Nat} {i : Instruction R}
    (hok : g.apply index i = (.ok (), g')) :
    g'.Knit (ops ++ [⟨g.vertices.size, index, i⟩]) := by
  obtain ⟨hfault, g₁, hsplice, hg'⟩ := apply_ok hok
  have hspliceable := (h.spliceable.apply hfault index).2
  rw [hok] at hspliceable
  refine ⟨hspliceable, h.laid.apply hok, ?_⟩
  obtain ⟨-, hnodup, -⟩ := fault?_eq_none_iff.1 hfault
  have hpushed : Woven { g with vertices := g.vertices.push ⟨.op index, []⟩ } (threadOf ops) := by
    refine ⟨⟨h.woven.runs.nodup, fun p hp => (h.woven.runs.threads p hp).push _⟩, fun p hp => ?_,
      fun w hw v => ?_⟩
    · obtain ⟨s, hs⟩ := h.woven.strands p hp
      exact ⟨s, hs.push (by simp)⟩
    · have hnone := h.woven.others w hw v
      simp [sources_push, hnone]
  have hfresh : ∀ w ∈ wires i, ∀ v ∈ threadOf ops w, v < g.vertices.size := by
    intro w _ v hv
    obtain ⟨a, ha, rfl⟩ := List.mem_map.1 hv
    exact lt_size_of_nodeAt (h.laid.vertex a (List.mem_of_mem_filter ha))
  have hnext := hpushed.spliceAll (nodup_wires hnodup) (nodeAt_size g.vertices ⟨.op index, []⟩)
    (by simp) hfresh hsplice
  have hthreads : threadOf (ops ++ [⟨g.vertices.size, index, i⟩]) = fun w =>
      if w ∈ wires i then threadOf ops w ++ [g.vertices.size] else threadOf ops w :=
    funext fun w => threadOf_concat ops _ w
  rw [hthreads, hg']
  exact hnext.congr rfl rfl

end Knit

/-! ## Circles -/

def Leads (g : WireGraph) (u v : Nat) : Prop := ∃ e ∈ g.incoming v, e.source = u

theorem leads_iff {g : WireGraph} {u v : Nat} :
    g.Leads u v ↔ ∃ w, u ∈ sources g.vertices w v := by
  simp [Leads, incoming, sources, List.mem_filter, and_assoc]

theorem lt_size_of_leads {g : WireGraph} {u v : Nat} (h : g.Leads u v) : v < g.vertices.size := by
  obtain ⟨w, hw⟩ := leads_iff.1 h
  by_contra hge
  rw [sources_of_size_le (Nat.le_of_not_lt hge)] at hw
  exact absurd hw List.not_mem_nil

theorem mem_strip {g : WireGraph} {v : Nat} (hv : Relation.TransGen g.Leads v v) (n : Nat)
    {vs : List Nat} (hvs : ∀ u, Relation.TransGen g.Leads u u → u ∈ vs) : v ∈ g.strip n vs := by
  induction n generalizing vs with
  | zero => exact hvs v hv
  | succ n ih =>
    refine ih fun u hu => List.mem_filter.2 ⟨hvs u hu, ?_⟩
    -- the vertex before it lies on the same circle
    obtain ⟨t, hut, e, he, rfl⟩ := Relation.TransGen.tail'_iff.1 hu
    have hcircle : Relation.TransGen g.Leads e.source e.source :=
      Relation.TransGen.head' ⟨e, he, rfl⟩ hut
    rw [List.any_eq_true]
    exact ⟨e, he, by simpa using hvs _ hcircle⟩

theorem exists_unled {g : WireGraph} (h : ∀ v, ¬ Relation.TransGen g.Leads v v) {vs : List Nat}
    (hvs : vs ≠ []) (hlt : ∀ v ∈ vs, v < g.vertices.size) :
    ∃ v ∈ vs, ∀ u ∈ vs, ¬ g.Leads u v := by
  let before (u v : Fin g.vertices.size) : Prop := Relation.TransGen g.Leads u v
  have : IsTrans _ before := ⟨fun _ _ _ => Relation.TransGen.trans⟩
  have : Std.Irrefl before := ⟨fun v => h v⟩
  have hwf : WellFounded before := Finite.wellFounded_of_trans_of_irrefl before
  obtain ⟨v, hv⟩ := List.exists_mem_of_ne_nil vs hvs
  obtain ⟨m, hm, hmin⟩ := hwf.has_min {u | u.val ∈ vs} ⟨⟨v, hlt v hv⟩, hv⟩
  refine ⟨m, hm, fun u hu hum => ?_⟩
  exact hmin ⟨u, hlt u hu⟩ hu (.single hum)

theorem strip_eq_nil {g : WireGraph} (h : ∀ v, ¬ Relation.TransGen g.Leads v v) (n : Nat)
    {vs : List Nat} (hn : vs.length ≤ n) (hlt : ∀ v ∈ vs, v < g.vertices.size) :
    g.strip n vs = [] := by
  induction n generalizing vs with
  | zero => exact List.length_eq_zero_iff.1 (Nat.le_zero.1 hn)
  | succ n ih =>
    refine ih ?_ fun v hv => hlt v (List.mem_of_mem_filter hv)
    by_cases hvs : vs = []
    · simp [hvs]
    · obtain ⟨v, hv, hnone⟩ := exists_unled h hvs hlt
      have hless : (vs.filter fun v => (g.incoming v).any fun e => vs.contains e.source).length
          < vs.length := by
        refine List.length_filter_lt_length_iff_exists.2 ⟨v, hv, fun hany => ?_⟩
        obtain ⟨e, he, hsource⟩ := List.any_eq_true.1 hany
        exact hnone e.source (by simpa using hsource) ⟨e, he, rfl⟩
      omega

theorem isCyclic_iff (g : WireGraph) :
    g.isCyclic = true ↔ ∃ v, Relation.TransGen g.Leads v v := by
  have hall : ∀ u, Relation.TransGen g.Leads u u → u ∈ List.range g.vertices.size := by
    intro u hu
    obtain ⟨t, -, htu⟩ := Relation.TransGen.tail'_iff.1 hu
    exact List.mem_range.2 (lt_size_of_leads htu)
  constructor
  · intro hcyclic
    by_contra hnone
    have hempty : g.strip g.vertices.size (List.range g.vertices.size) = [] :=
      strip_eq_nil (not_exists.1 hnone) g.vertices.size (by simp) (by simp)
    simp [isCyclic, hempty] at hcyclic
  · rintro ⟨v, hv⟩
    have hleft := mem_strip hv g.vertices.size hall
    have hne := List.ne_nil_of_mem hleft
    simpa [isCyclic, List.isEmpty_iff] using hne

/-- A number that every edge raises: outputs come after all other vertices. -/
def rank (g : WireGraph) (v : Nat) : Nat :=
  match nodeAt g.vertices v with
  | some (.output _) => g.vertices.size + v
  | _ => v

theorem Woven.leads_cases {g : WireGraph} {thread : Wire → List Nat} (h : g.Woven thread)
    {u v : Nat} (huv : g.Leads u v) : ∃ p ∈ g.ends.toList, ∃ s,
      Strand g.vertices p.1 p.2 (thread p.1) s ∧ u ∈ s :: thread p.1 ∧
        (u < v ∧ v ∈ thread p.1 ∨ v = p.2.output) := by
  obtain ⟨w, hw⟩ := leads_iff.1 huv
  have hlisted : w ∈ g.wireList := by
    by_contra hnone
    rw [h.others w hnone] at hw
    exact absurd hw List.not_mem_nil
  obtain ⟨p, hp, rfl⟩ := List.mem_map.1 hlisted
  obtain ⟨s, hs⟩ := h.strands p hp
  refine ⟨p, hp, s, hs, ?_⟩
  rw [hs.sources, stepsInto_concat hs.front, List.mem_append] at hw
  rcases hw with hw | hw
  · have hu : u ∈ s :: thread p.1 := by
      obtain ⟨q, hq, rfl⟩ := List.mem_map.1 hw
      exact (List.of_mem_zip (List.mem_of_mem_filter hq)).1
    exact ⟨hu, .inl (lt_of_mem_stepsInto hs.ascending hw)⟩
  · split at hw
    · next hout =>
      obtain rfl := List.mem_singleton.1 hw
      exact ⟨List.mem_of_getLast? hs.front, .inr hout.symm⟩
    · exact absurd hw List.not_mem_nil

theorem Woven.rank_lt {g : WireGraph} {thread : Wire → List Nat} (h : g.Woven thread) {u v : Nat}
    (huv : g.Leads u v) : g.rank u < g.rank v := by
  obtain ⟨p, hp, s, hs, hu, hv⟩ := h.leads_cases huv
  have hthread := h.runs.threads p hp
  have hinner : ∀ t ∈ s :: thread p.1, g.rank t = t := by
    intro t ht
    rcases List.mem_cons.1 ht with rfl | ht
    · simp [rank, hs.input]
    · obtain ⟨index, hindex⟩ := hthread.ops t ht
      simp [rank, hindex]
  rcases hv with ⟨hlt, hv⟩ | rfl
  · rw [hinner u hu, hinner v (List.mem_cons_of_mem _ hv)]
    exact hlt
  · have hlt := hs.lt_size hthread (List.mem_append_left _ hu)
    have hrank : g.rank p.2.output = g.vertices.size + p.2.output := by
      simp [rank, hthread.output]
    rw [hinner u hu, hrank]
    omega

theorem Woven.acyclic {g : WireGraph} {thread : Wire → List Nat} (h : g.Woven thread) (v : Nat) :
    ¬ Relation.TransGen g.Leads v v := by
  intro hcircle
  have hrank : ∀ {u v}, Relation.TransGen g.Leads u v → g.rank u < g.rank v := by
    intro u v huv
    induction huv with
    | single huv => exact h.rank_lt huv
    | tail _ huv ih => exact ih.trans (h.rank_lt huv)
  exact absurd (hrank hcircle) (Nat.lt_irrefl _)

/-! ## Following wires back -/

theorem incoming_of_sources {g : WireGraph} {w : Wire} {v u : Nat}
    (h : sources g.vertices w v = [u]) :
    ∃ e, (g.incoming v).filter (fun e => e.wire = w) = [e] ∧ e.source = u :=
  List.map_eq_singleton_iff.1 h

theorem traceBack_chain (g : WireGraph) (w : Wire) (fuel : Nat) {s : Nat} {l : List Nat}
    (h : (s :: l).IsChain fun u v => sources g.vertices w v = [u]) :
    g.traceBack w (l.length + fuel) ((s :: l).getLast (List.cons_ne_nil s l)) =
      g.traceBack w fuel s := by
  induction l generalizing s fuel with
  | nil => simp
  | cons t l ih =>
    obtain ⟨hst, hrest⟩ := List.isChain_cons_cons.1 h
    obtain ⟨e, hedge, hsource⟩ := incoming_of_sources hst
    have hback := ih (fuel + 1) hrest
    have hstep : g.traceBack w (fuel + 1) t = g.traceBack w fuel s := by
      simp only [traceBack, hedge, hsource]
    rw [hstep] at hback
    rw [← hback, List.getLast_cons (List.cons_ne_nil t l), List.length_cons, Nat.add_right_comm]
    rfl

theorem Strand.verifyWire {g : WireGraph} {w : Wire} {e : Ends} {thread : List Nat} {s : Nat}
    (h : Strand g.vertices w e thread s) (hthread : Thread g.vertices w e thread) :
    g.verifyWire w e = .ok () := by
  have hnodup := h.nodup hthread
  have hsubset : s :: thread ++ [e.output] ⊆ List.range g.vertices.size := fun v hv =>
    List.mem_range.2 (h.lt_size hthread hv)
  have hlength := (hnodup.subperm hsubset).length_le
  have hchain : (s :: (thread ++ [e.output])).IsChain
      fun u v => WireGraph.sources g.vertices w v = [u] :=
    (isChain_stepsInto hnodup).imp fun u v huv => (h.sources v).trans huv
  have hs : s ∉ thread ++ [e.output] := (List.nodup_cons.1 hnodup).1
  have hfirst : WireGraph.sources g.vertices w s = [] := (h.sources s).trans (stepsInto_eq_nil hs)
  have hnone : (g.incoming s).filter (fun e => e.wire = w) = [] := List.map_eq_nil_iff.1 hfirst
  obtain ⟨fuel, hfuel⟩ : ∃ fuel, g.vertices.size + 1 =
      (thread ++ [e.output]).length + (fuel + 1) := by
    simp only [List.length_append, List.length_cons, List.length_nil, List.length_range]
      at hlength ⊢
    exact ⟨g.vertices.size - (thread.length + 1), by omega⟩
  have htrace : g.traceBack w (g.vertices.size + 1) e.output = .ok s := by
    have hback := traceBack_chain g w (fuel + 1) hchain
    have hlast : (s :: (thread ++ [e.output])).getLast (List.cons_ne_nil _ _) = e.output := by
      simp
    rw [hlast, ← hfuel] at hback
    rw [hback, traceBack, hnone]
  have hnode : g.vertices[s]?.map Vertex.node = some (.input w) := h.input
  simp only [WireGraph.verifyWire, htrace, hnode, if_true]

theorem Woven.verify {g : WireGraph} {thread : Wire → List Nat} (h : g.Woven thread) :
    g.verify = .ok () := by
  have hcyclic : g.isCyclic = false := by
    rw [← Bool.not_eq_true, isCyclic_iff]
    exact fun ⟨v, hv⟩ => h.acyclic v hv
  have hwires : ∀ p ∈ g.ends.toList, g.verifyWire p.1 p.2 = .ok () := by
    intro p hp
    obtain ⟨s, hs⟩ := h.strands p hp
    exact hs.verifyWire (h.runs.threads p hp)
  have hall : ∀ l : List (Wire × Ends), (∀ p ∈ l, g.verifyWire p.1 p.2 = .ok ()) →
      l.foldlM (fun _ p => g.verifyWire p.1 p.2) PUnit.unit = .ok () := by
    intro l
    induction l with
    | nil => exact fun _ => rfl
    | cons p l ih =>
      intro hl
      have hp := hl p List.mem_cons_self
      rw [List.foldlM_cons, hp]
      exact ih fun q hq => hl q (List.mem_cons_of_mem _ hq)
  unfold WireGraph.verify
  rw [if_neg (by simp [hcyclic])]
  exact Array.foldlM_toList.symm.trans (hall _ hwires)

/-! ## Calls on a graph -/

inductive Change (R : Type)
  | addQubit (q : QubitId)
  | addClbit (c : ClbitId)
  | apply (index : Nat) (i : Instruction R)

namespace Change

def wire? : Change R → Option Wire
  | addQubit q => some (.qubit q)
  | addClbit c => some (.clbit c)
  | apply _ _ => none

def perform (g : WireGraph) : Change R → WireGraph
  | addQubit q => g.addQubit q
  | addClbit c => g.addClbit c
  | apply index i => (g.apply index i).2

def applied (g : WireGraph) : Change R → List (Applied R)
  | apply index i => match (g.apply index i).1 with
    | .ok () => [⟨g.vertices.size, index, i⟩]
    | .error _ => []
  | _ => []

end Change

def performAll (g : WireGraph) (l : List (Change R)) : WireGraph := l.foldl Change.perform g

def appliedAll (g : WireGraph) : List (Change R) → List (Applied R)
  | [] => []
  | c :: l => c.applied g ++ appliedAll (c.perform g) l

theorem Spliceable.apply_validate {g : WireGraph} (h : g.Spliceable) (index : Nat)
    (i : Instruction R) : (g.apply index i).1 = g.validate i ∧
      ∀ e, (g.apply index i).1 = .error e → (g.apply index i).2 = g := by
  cases hfault : g.fault? i with
  | none =>
    have hok := (h.apply hfault index).1
    refine ⟨?_, fun e he => ?_⟩
    · rw [hok, validate, hfault]
    · rw [hok] at he
      exact absurd he (by simp)
  | some e =>
    rw [apply_of_fault hfault, validate, hfault]
    exact ⟨rfl, fun _ _ => rfl⟩

theorem Knit.perform {g : WireGraph} {ops : List (Applied R)} (h : g.Knit ops) (c : Change R) :
    (c.perform g).Knit (ops ++ c.applied g) := by
  cases c with
  | addQubit q => simpa [Change.perform, Change.applied] using h.addsWire (addsWire_addQubit g q)
  | addClbit c => simpa [Change.perform, Change.applied] using h.addsWire (addsWire_addClbit g c)
  | apply index i =>
    rcases happly : g.apply index i with ⟨e | _, g'⟩
    · have hsame := (h.spliceable.apply_validate index i).2 e (by rw [happly])
      rw [happly] at hsame
      obtain rfl : g' = g := hsame
      simpa [Change.perform, Change.applied, happly] using h
    · simpa [Change.perform, Change.applied, happly] using h.apply happly

theorem Knit.performAll {g : WireGraph} {ops : List (Applied R)} (h : g.Knit ops)
    (l : List (Change R)) : (g.performAll l).Knit (ops ++ g.appliedAll l) := by
  induction l generalizing g ops with
  | nil => simpa [WireGraph.performAll, appliedAll] using h
  | cons c l ih =>
    have hnext := ih (h.perform c)
    rw [List.append_assoc] at hnext
    exact hnext

theorem mem_wireList_perform (g : WireGraph) (c : Change R) (w : Wire) :
    w ∈ (c.perform g).wireList ↔ w ∈ g.wireList ∨ c.wire? = some w := by
  cases c with
  | addQubit q => simp [Change.perform, Change.wire?, wireList_addQubit, eq_comm]
  | addClbit c => simp [Change.perform, Change.wire?, wireList_addClbit, eq_comm]
  | apply index i => simp [Change.perform, Change.wire?, apply_wireList]

theorem mem_wireList_performAll (g : WireGraph) (l : List (Change R)) (w : Wire) :
    w ∈ (g.performAll l).wireList ↔ w ∈ g.wireList ∨ ∃ c ∈ l, c.wire? = some w := by
  induction l generalizing g with
  | nil => simp [WireGraph.performAll]
  | cons c l ih =>
    have hrest := ih (c.perform g)
    rw [mem_wireList_perform, or_assoc] at hrest
    refine hrest.trans (or_congr_right ?_)
    simp

def edgesOn (g : WireGraph) (w : Wire) : List (Nat × Nat) :=
  (List.range g.vertices.size).flatMap fun v => (sources g.vertices w v).map fun u => (u, v)

/-- The edges that carry a wire are the steps of one path: from an input through some vertices to
the output, just before which is the last of them. -/
structure Path (g : WireGraph) (w : Wire) (e : Ends) (s : Nat) (inner : List Nat) : Prop where
  input : nodeAt g.vertices s = some (.input w)
  output : nodeAt g.vertices e.output = some (.output w)
  nodup : (s :: inner ++ [e.output]).Nodup
  edges : (g.edgesOn w).Perm ((s :: inner ++ [e.output]).zip (inner ++ [e.output]))
  front : (s :: inner).getLast? = some e.front

theorem perm_flatMap_filter (n : Nat) (l : List (Nat × Nat)) :
    ((List.range n).flatMap fun v => l.filter fun p => p.2 = v).Perm
      (l.filter fun p => p.2 < n) := by
  induction n with
  | zero => simp
  | succ n ih =>
    have hsplit := List.filter_append_perm (fun p : Nat × Nat => p.2 < n)
      (l.filter fun p => p.2 < n + 1)
    have hlow : (l.filter fun p => p.2 < n + 1).filter (fun p => decide (p.2 < n)) =
        l.filter fun p => p.2 < n := by
      rw [List.filter_filter]
      refine List.filter_congr fun p _ => ?_
      simp only [← Bool.decide_and, decide_eq_decide]
      omega
    have hhigh : (l.filter fun p => p.2 < n + 1).filter (fun p => !decide (p.2 < n)) =
        l.filter fun p => p.2 = n := by
      rw [List.filter_filter]
      refine List.filter_congr fun p _ => ?_
      simp only [← decide_not, ← Bool.decide_and, decide_eq_decide]
      omega
    rw [hlow, hhigh] at hsplit
    rw [List.range_succ, List.flatMap_append, List.flatMap_singleton]
    exact (ih.append_right _).trans hsplit

theorem Knit.path {g : WireGraph} {ops : List (Applied R)} (h : g.Knit ops) {w : Wire} {e : Ends}
    (he : (w, e) ∈ g.ends.toList) : ∃ s, g.Path w e s (threadOf ops w) := by
  obtain ⟨s, hs⟩ := h.woven.strands _ he
  have hthread := h.woven.runs.threads _ he
  refine ⟨s, hs.input, hthread.output, hs.nodup hthread, ?_, hs.front⟩
  have hbelow : ∀ p ∈ (s :: threadOf ops w ++ [e.output]).zip (threadOf ops w ++ [e.output]),
      p.2 < g.vertices.size := by
    intro p hp
    exact hs.lt_size hthread (List.mem_cons_of_mem s (List.of_mem_zip hp).2)
  have hsorted : g.edgesOn w = (List.range g.vertices.size).flatMap fun v =>
      ((s :: threadOf ops w ++ [e.output]).zip (threadOf ops w ++ [e.output])).filter
        fun p => p.2 = v := by
    unfold edgesOn
    congr 1
    funext v
    rw [hs.sources, stepsInto, List.map_map]
    refine (List.map_congr_left fun p hp => ?_).trans (List.map_id _)
    obtain ⟨-, hv⟩ := List.mem_filter.1 hp
    exact Prod.ext rfl (of_decide_eq_true hv).symm
  have hall := List.filter_eq_self.2 fun p hp => decide_eq_true (hbelow p hp)
  have hperm := perm_flatMap_filter g.vertices.size
    ((s :: threadOf ops w ++ [e.output]).zip (threadOf ops w ++ [e.output]))
  rw [hall] at hperm
  rw [hsorted]
  exact hperm

/-- Whatever wires are added and operations applied to an empty graph, in any order and with
success or not: no edges lead around in a circle, the edges of each wire form one path along the
operations that were applied on it, and the graph passes its own check. It takes exactly the
instructions it validates, and a refused one leaves it as it was. -/
theorem performAll_intact (l : List (Change R)) :
    let g := empty.performAll l
    let ops := empty.appliedAll l
    (∀ v, ¬ Relation.TransGen g.Leads v v) ∧
    (∀ w, g.hasWire w = true ↔ ∃ c ∈ l, c.wire? = some w) ∧
    (∀ a ∈ ops, nodeAt g.vertices a.vertex = some (.op a.index)) ∧
    (∀ w, g.hasWire w = true → ∃ place e s, g.find? w = some (place, e) ∧
      g.Path w e s (threadOf ops w)) ∧
    g.verify = .ok () ∧
    ∀ index (i : Instruction R), (g.apply index i).1 = g.validate i ∧
      ∀ e, (g.apply index i).1 = .error e → (g.apply index i).2 = g := by
  intro g ops
  have hknit : g.Knit ops := Knit.empty.performAll l
  refine ⟨hknit.woven.acyclic, fun w => ?_, hknit.laid.vertex, fun w hw => ?_, hknit.woven.verify,
    hknit.spliceable.apply_validate⟩
  · rw [hasWire_iff, mem_wireList_performAll]
    simp [WireGraph.empty, wireList]
  · obtain ⟨place, e, hfind, he⟩ := find?_of_mem ((hasWire_iff ..).1 hw)
    obtain ⟨s, hs⟩ := hknit.path (Array.mem_toList_iff.2 (Array.mem_of_getElem? he))
    exact ⟨place, e, s, hfind, hs⟩

end WireGraph

end Ancilla
