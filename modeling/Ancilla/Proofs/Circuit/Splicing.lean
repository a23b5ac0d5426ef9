import Ancilla.Proofs.Circuit.Wires
import Mathlib.Data.List.Nodup

/-!
When a circuit takes an instruction. Each wire of a dependency graph is listed once, and the edge
into its output leaves its last vertex. So an instruction whose operands are in order is always
spliced in, and one that is refused leaves the circuit as it was.
-/

namespace Ancilla

variable {R : Type}

namespace WireGraph

def Joins (vs : Array Vertex) (w : Wire) (u v : Nat) : Prop :=
  ∃ x, vs[v]? = some x ∧ ⟨u, w⟩ ∈ x.incoming

theorem Joins.push {vs : Array Vertex} {w : Wire} {u v : Nat} (h : Joins vs w u v) (x : Vertex) :
    Joins (vs.push x) w u v := by
  obtain ⟨y, hy, hmem⟩ := h
  have hlt : v < vs.size := by
    by_contra hge
    rw [Array.getElem?_eq_none (Nat.le_of_not_lt hge)] at hy
    exact absurd hy (by simp)
  exact ⟨y, by rw [Array.getElem?_push_lt hlt, ← hy, Array.getElem?_eq_getElem hlt], hmem⟩

theorem Joins.setIncoming {vs : Array Vertex} {w : Wire} {u v : Nat} (h : Joins vs w u v)
    {f : List Edge → List Edge} {i : Nat} (hf : i = v → ∀ l, ⟨u, w⟩ ∈ l → ⟨u, w⟩ ∈ f l) :
    Joins (setIncoming f vs i) w u v := by
  obtain ⟨x, hx, hmem⟩ := h
  unfold Joins WireGraph.setIncoming
  rw [Array.getElem?_modify, hx]
  by_cases hi : i = v
  · exact ⟨{ x with incoming := f x.incoming }, by simp [hi], hf hi _ hmem⟩
  · exact ⟨x, by simp [hi], hmem⟩

def EndsIn (vs : Array Vertex) (w : Wire) (e : Ends) : Prop :=
  ∃ v, vs[e.output]? = some v ∧ ⟨e.front, w⟩ ∈ v.incoming

theorem EndsIn.joins {vs : Array Vertex} {w : Wire} {e : Ends} (h : EndsIn vs w e) :
    Joins vs w e.front e.output := h

/-- Every wire is listed once and has its last edge. -/
structure Spliceable (g : WireGraph) : Prop where
  nodup : g.wireList.Nodup
  ends : ∀ p ∈ g.ends.toList, EndsIn g.vertices p.1 p.2

theorem spliceable_empty : empty.Spliceable :=
  ⟨List.nodup_nil, fun _ hp => absurd hp (by simp [empty])⟩

theorem Spliceable.addWire {g : WireGraph} (h : g.Spliceable) {w : Wire} (hw : w ∉ g.wireList) :
    (g.addWire w).Spliceable := by
  constructor
  · rw [wireList_addWire]
    exact List.nodup_append'.2 ⟨h.nodup, List.nodup_singleton w, by simpa using hw⟩
  · intro p hp
    simp only [WireGraph.addWire, Array.toList_push, List.mem_append, List.mem_singleton] at hp
    rcases hp with hp | rfl
    · exact ((h.ends p hp).joins.push _).push _
    · refine ⟨⟨.output w, [⟨g.vertices.size, w⟩]⟩, ?_, List.mem_singleton.2 rfl⟩
      show ((g.vertices.push _).push _)[g.vertices.size + 1]? = _
      rw [← Array.size_push, Array.getElem?_push_size]

theorem Spliceable.addsWire {g g' : WireGraph} {w : Wire} (h : g.Spliceable)
    (hadds : g.AddsWire w g') : g'.Spliceable := by
  cases hadds with
  | present => exact h
  | added hw =>
    obtain ⟨hnodup, hends⟩ := h.addWire hw
    exact ⟨hnodup, hends⟩

/-! ## Splicing -/

theorem find?_of_mem {g : WireGraph} {w : Wire} (h : w ∈ g.wireList) :
    ∃ place e, g.find? w = some (place, e) ∧ g.ends[place]? = some (w, e) := by
  rw [← hasWire_iff, hasWire, Option.isSome_iff_exists] at h
  obtain ⟨place, hplace⟩ := h
  obtain ⟨e, he⟩ := place?_eq_some hplace
  exact ⟨place, e, by simp [find?, hplace, he], he⟩

theorem mem_ends_spliceAt {g : WireGraph} (h : g.wireList.Nodup) {w : Wire} {place : Nat} {e : Ends}
    (he : g.ends[place]? = some (w, e)) {op : Nat} {p : Wire × Ends}
    (hp : p ∈ (g.spliceAt op place w e).ends.toList) :
    p = (w, { e with front := op }) ∨ p ∈ g.ends.toList ∧ p.1 ≠ w := by
  have hends : (g.spliceAt op place w e).ends =
      g.ends.setIfInBounds place (w, { e with front := op }) := rfl
  rw [hends, Array.toList_setIfInBounds] at hp
  obtain ⟨k, hk⟩ := List.mem_iff_getElem?.1 hp
  rw [List.getElem?_set] at hk
  by_cases hkp : place = k
  · rw [if_pos hkp] at hk
    split at hk
    · exact .inl (Option.some.inj hk).symm
    · exact absurd hk (by simp)
  · rw [if_neg hkp] at hk
    refine .inr ⟨List.mem_of_getElem? hk, fun heq => ?_⟩
    have hi : g.wireList[place]? = some w := by simp [wireList, he]
    have hj : g.wireList[k]? = some w := by
      rw [wireList, List.getElem?_map, hk]
      exact congrArg some heq
    obtain ⟨hlt, -⟩ := List.getElem?_eq_some_iff.1 hi
    exact hkp ((List.getElem?_inj hlt h).1 (hi.trans hj.symm))

theorem Spliceable.spliceAt {g : WireGraph} (h : g.Spliceable) {w : Wire} {place : Nat} {e : Ends}
    (he : g.ends[place]? = some (w, e)) (op : Nat) : (g.spliceAt op place w e).Spliceable := by
  constructor
  · rw [spliceAt_wireList he]
    exact h.nodup
  · intro p hp
    show EndsIn (WireGraph.setIncoming (⟨e.front, w⟩ :: ·)
        (WireGraph.setIncoming (fun l => ⟨op, w⟩ :: l.erase ⟨e.front, w⟩) g.vertices e.output) op)
        p.1 p.2
    refine Joins.setIncoming ?_ fun _ l hl => List.mem_cons_of_mem _ hl
    rcases mem_ends_spliceAt h.nodup he hp with rfl | ⟨hold, hne⟩
    · -- the spliced wire now ends in the new vertex
      have hmem : (w, e) ∈ g.ends.toList := by simpa using Array.mem_of_getElem? he
      obtain ⟨v, hv, -⟩ := h.ends (w, e) hmem
      refine ⟨{ v with incoming := ⟨op, w⟩ :: v.incoming.erase ⟨e.front, w⟩ }, ?_,
        List.mem_cons_self⟩
      simp only [WireGraph.setIncoming]
      rw [Array.getElem?_modify, hv]
      simp
    · refine (h.ends p hold).joins.setIncoming ?_
      intro _ l hl
      refine List.mem_cons_of_mem _ ((List.mem_erase_of_ne ?_).2 hl)
      intro heq
      exact hne (congrArg Edge.wire heq)

theorem Spliceable.splice {g : WireGraph} (h : g.Spliceable) {w : Wire} (hw : w ∈ g.wireList)
    (op : Nat) : (g.splice op w).1 = .ok () ∧ (g.splice op w).2.Spliceable := by
  obtain ⟨place, e, hfind, he⟩ := find?_of_mem hw
  obtain ⟨v, hv, hmem⟩ := h.ends (w, e) (Array.mem_toList_iff.2 (Array.mem_of_getElem? he))
  have hsplice : g.splice op w = (.ok (), g.spliceAt op place w e) := by
    have hcontains : v.incoming.contains ⟨e.front, w⟩ = true := by simpa using hmem
    unfold WireGraph.splice
    simp only [hfind, hv, hcontains, if_true]
  rw [hsplice]
  exact ⟨rfl, h.spliceAt he op⟩

theorem Spliceable.spliceAll {ws : List Wire} {g : WireGraph} (h : g.Spliceable)
    (hws : ∀ w ∈ ws, w ∈ g.wireList) (op : Nat) :
    (spliceAll op g ws).1 = .ok () ∧ (spliceAll op g ws).2.Spliceable := by
  induction ws generalizing g with
  | nil => exact ⟨rfl, h⟩
  | cons w ws ih =>
    obtain ⟨hok, hnext⟩ := h.splice (hws w List.mem_cons_self) op
    have hsame := splice_wireList g op w
    unfold WireGraph.spliceAll
    rcases hs : g.splice op w with ⟨_ | _, g'⟩
    · rw [hs] at hok
      exact absurd hok (by simp)
    · rw [hs] at hnext hsame
      refine ih hnext fun w' hw' => ?_
      rw [hsame]
      exact hws w' (List.mem_cons_of_mem _ hw')

/-! ## Faults -/

theorem qubitFault?_of_nodup {g : WireGraph} {gate : Option String} {seen qs : List QubitId}
    (hnodup : qs.Nodup) (hqs : ∀ q ∈ qs, g.hasWire (.qubit q) = true ∧ q ∉ seen) :
    g.qubitFault? gate seen qs = none := by
  induction qs generalizing seen with
  | nil => rfl
  | cons q qs ih =>
    obtain ⟨hq, hnodup⟩ := List.nodup_cons.1 hnodup
    obtain ⟨hwire, hseen⟩ := hqs q List.mem_cons_self
    have hcontains : seen.contains q = false := by simpa using hseen
    unfold qubitFault?
    simp only [hwire, hcontains, Bool.not_true, Bool.false_eq_true, if_false]
    refine ih hnodup fun p hp => ?_
    obtain ⟨hwire, hseen⟩ := hqs p (List.mem_cons_of_mem _ hp)
    refine ⟨hwire, ?_⟩
    rw [List.mem_cons, not_or]
    exact ⟨fun heq => hq (heq ▸ hp), hseen⟩

theorem fault?_eq_none_iff {g : WireGraph} {i : Instruction R} :
    g.fault? i = none ↔ countFault? i = none ∧ i.qubits.Nodup ∧ ∀ w ∈ wires i, w ∈ g.wireList := by
  simp only [fault?, Option.orElse_eq_orElse, Option.orElse_eq_or, Option.or_eq_none_iff,
    Option.map_eq_none_iff, List.find?_eq_none, Bool.not_eq_eq_eq_not,
    Bool.not_true, wires, List.mem_append, List.mem_map]
  refine and_congr_right fun _ => ?_
  constructor
  · rintro ⟨hqubits, hclbits⟩
    obtain ⟨hnodup, hwires⟩ := qubitFault?_eq_none hqubits
    refine ⟨hnodup, ?_⟩
    rintro w (⟨q, hq, rfl⟩ | ⟨c, hc, rfl⟩)
    · exact (hasWire_iff _ _).1 (hwires q hq).1
    · exact (hasWire_iff _ _).1 (by simpa using hclbits c hc)
  · rintro ⟨hnodup, hwires⟩
    constructor
    · refine qubitFault?_of_nodup hnodup fun q hq => ⟨?_, List.not_mem_nil⟩
      exact (hasWire_iff _ _).2 (hwires _ (.inl ⟨q, hq, rfl⟩))
    · intro c hc
      have := (hasWire_iff _ _).2 (hwires _ (.inr ⟨c, hc, rfl⟩))
      simpa using this

theorem apply_of_fault {g : WireGraph} {i : Instruction R} {e : CircuitError}
    (h : g.fault? i = some e) (index : Nat) : g.apply index i = (.error e, g) := by
  simp only [WireGraph.apply, h]

theorem Spliceable.apply {g : WireGraph} (h : g.Spliceable) {i : Instruction R}
    (hi : g.fault? i = none) (index : Nat) :
    (g.apply index i).1 = .ok () ∧ (g.apply index i).2.Spliceable := by
  have hpushed : WireGraph.Spliceable { g with vertices := g.vertices.push ⟨.op index, []⟩ } :=
    ⟨h.nodup, fun p hp => (h.ends p hp).joins.push _⟩
  obtain ⟨hok, hnext⟩ := hpushed.spliceAll (fault?_eq_none_iff.1 hi).2.2 g.vertices.size
  unfold WireGraph.apply
  simp only [hi]
  split
  · next g' hg =>
    rw [hg] at hnext
    exact ⟨rfl, hnext.nodup, hnext.ends⟩
  · next e g' hg =>
    rw [hg] at hok
    exact absurd hok (by simp)

end WireGraph

namespace Circuit

/-- A circuit that takes instructions: it is not finished, its graph can be spliced, and its qubits
have their wires. -/
structure Accepting (c : Circuit R) : Prop where
  unfinished : c.isFinished = false
  spliceable : c.graph.Spliceable
  wired : ∀ p ∈ c.qubits, .qubit p.id ∈ c.graph.wireList

theorem accepting_new (name : String) : (new name : Circuit R).Accepting :=
  ⟨rfl, WireGraph.spliceable_empty, fun p hp => absurd hp (by simp [new])⟩

namespace Accepting

variable {c : Circuit R}

theorem push_of_fault (h : c.Accepting) {i : Instruction R} {e : CircuitError}
    (hi : c.graph.fault? i = some e) : c.push i = (.error e, c) := by
  unfold Circuit.push onGraph
  rw [if_neg (by simp [h.unfinished])]
  simp only [WireGraph.apply_of_fault hi]

theorem push_of_none (h : c.Accepting) {i : Instruction R} (hi : c.graph.fault? i = none) :
    (c.push i).1 = .ok () ∧ (c.push i).2.Accepting := by
  obtain ⟨hok, hnext⟩ := h.spliceable.apply hi c.instructions.size
  obtain ⟨hwires, hqubits⟩ := push_eq c i
  have hpush : c.push i = (.ok (), { c with
      graph := (c.graph.apply c.instructions.size i).2
      instructions := c.instructions.push i }) := by
    unfold Circuit.push onGraph
    simp only [h.unfinished, Bool.false_eq_true, if_false]
    rw [show c.graph.apply c.instructions.size i = (.ok (), _) from Prod.ext hok rfl]
  rw [hpush] at hwires ⊢
  refine ⟨rfl, h.unfinished, hnext, fun p hp => ?_⟩
  rw [hwires]
  exact h.wired p hp

theorem push_error (h : c.Accepting) {i : Instruction R} {e : CircuitError} {c' : Circuit R}
    (hpush : c.push i = (.error e, c')) : c.graph.fault? i = some e ∧ c' = c := by
  cases hi : c.graph.fault? i with
  | none =>
    have hok := (h.push_of_none hi).1
    rw [hpush] at hok
    exact absurd hok (by simp)
  | some e' =>
    rw [h.push_of_fault hi, Prod.mk.injEq, Except.error.injEq] at hpush
    obtain ⟨rfl, rfl⟩ := hpush
    exact ⟨rfl, rfl⟩

theorem push (h : c.Accepting) (i : Instruction R) : (c.push i).2.Accepting := by
  cases hi : c.graph.fault? i with
  | none => exact (h.push_of_none hi).2
  | some e =>
    rw [h.push_of_fault hi]
    exact h

theorem registerQubit (h : c.Accepting) (q : Qubit) : (c.registerQubit q).Accepting := by
  obtain ⟨-, hsame⟩ | ⟨-, hnew⟩ := c.registerQubit_cases q
  · rw [hsame]
    exact ⟨h.unfinished, h.spliceable, h.wired⟩
  · rw [hnew]
    refine ⟨h.unfinished, h.spliceable.addsWire (WireGraph.addsWire_addQubit _ _), fun p hp => ?_⟩
    show Wire.qubit p.id ∈ (c.graph.addQubit q.id).wireList
    rw [WireGraph.wireList_addQubit]
    rcases Array.mem_push.1 hp with hp | rfl
    · exact .inl (h.wired p hp)
    · exact .inr rfl

theorem addClbit (h : c.Accepting) (source : Option QubitId) : (c.addClbit source).2.Accepting := by
  refine ⟨h.unfinished, h.spliceable.addsWire (WireGraph.addsWire_addClbit _ _), fun p hp => ?_⟩
  show Wire.qubit p.id ∈ (c.graph.addClbit c.clbits.size).wireList
  rw [WireGraph.wireList_addClbit]
  exact .inl (h.wired p hp)

theorem grown {c' : Circuit R} (h : c.Accepting) (hg : Grown c c') : c'.Accepting := by
  induction hg with
  | refl => exact h
  | registerQubit _ q ih => exact ih.registerQubit q
  | recordRelease _ qs ih => exact ⟨ih.unfinished, ih.spliceable, ih.wired⟩
  | addClbit _ source ih => exact ih.addClbit source
  | push _ i ih => exact ih.push i

end Accepting

theorem Grown.wireList {c c' : Circuit R} (h : Grown c c') {w : Wire} (hw : w ∈ c.graph.wireList) :
    w ∈ c'.graph.wireList := by
  induction h with
  | refl => exact hw
  | @registerQubit c' _ q ih =>
    obtain ⟨-, hsame⟩ | ⟨-, hnew⟩ := c'.registerQubit_cases q
    · rw [hsame]
      exact ih
    · rw [hnew]
      exact (WireGraph.wireList_addQubit _ _ _).2 (.inl ih)
  | recordRelease _ qs ih => exact ih
  | addClbit _ source ih => exact (WireGraph.wireList_addClbit _ _ _).2 (.inl ih)
  | @push c' _ i ih =>
    rw [(push_eq c' i).1]
    exact ih

theorem registerQubit_wired {c : Circuit R} (h : c.Accepting) (q : Qubit) :
    .qubit q.id ∈ (c.registerQubit q).graph.wireList := by
  obtain ⟨⟨p, hp, heq⟩, hsame⟩ | ⟨-, hnew⟩ := c.registerQubit_cases q
  · rw [hsame, ← heq]
    exact h.wired p hp
  · rw [hnew]
    exact (WireGraph.wireList_addQubit _ _ _).2 (.inr rfl)

end Circuit

end Ancilla
