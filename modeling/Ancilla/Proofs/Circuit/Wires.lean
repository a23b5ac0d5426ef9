import Ancilla.Circuit.Basic
import Ancilla.Proofs.Gate.Controls
import Mathlib.Data.List.Basic

/-!
The wires of a circuit. Operations leave the wires of the dependency graph as they are, so an
accepted operation names different qubits, as many as it needs, all of them registered before and
hence below the width of the circuit.
-/

namespace Ancilla

variable {R : Type}

namespace WireGraph

def wireList (g : WireGraph) : List Wire := g.ends.toList.map Prod.fst

theorem place?_eq_some {g : WireGraph} {w : Wire} {place : Nat} (h : g.place? w = some place) :
    ∃ e, g.ends[place]? = some (w, e) := by
  unfold place? at h
  split at h
  · next hp =>
    obtain rfl := Option.some.inj h
    unfold isPlace at hp
    split at hp
    · next v e he =>
      simp only [decide_eq_true_eq] at hp
      exact ⟨e, by rw [he, hp]⟩
    · exact absurd hp Bool.false_ne_true
  · obtain ⟨hlt, hw, -⟩ := Array.findIdx?_eq_some_iff_getElem.1 h
    refine ⟨g.ends[place].2, ?_⟩
    rw [Array.getElem?_eq_getElem hlt]
    exact congrArg some (Prod.ext (by simpa using hw) rfl)

theorem hasWire_iff (g : WireGraph) (w : Wire) : g.hasWire w = true ↔ w ∈ g.wireList := by
  unfold hasWire
  rw [Option.isSome_iff_exists]
  constructor
  · rintro ⟨place, h⟩
    obtain ⟨e, he⟩ := place?_eq_some h
    exact List.mem_map.2 ⟨(w, e), by simpa using Array.mem_of_getElem? he, rfl⟩
  · intro h
    obtain ⟨e, he, rfl⟩ := List.mem_map.1 h
    unfold place?
    split
    · exact ⟨_, rfl⟩
    · rw [← Option.isSome_iff_exists, Array.findIdx?_isSome, Array.any_eq_true']
      exact ⟨e, by simpa using he, by simp⟩

/-! ## Adding wires -/

theorem wireList_addWire (g : WireGraph) (w : Wire) :
    (g.addWire w).wireList = g.wireList ++ [w] := by
  simp [addWire, wireList]

inductive AddsWire (g : WireGraph) (w : Wire) : WireGraph → Prop
  | present (hw : w ∈ g.wireList) : AddsWire g w g
  | added (hw : w ∉ g.wireList) (numQubits numClbits : Nat) :
    AddsWire g w { g.addWire w with numQubits, numClbits }

theorem addsWire_addQubit (g : WireGraph) (q : QubitId) : g.AddsWire (.qubit q) (g.addQubit q) := by
  unfold addQubit
  split
  · next hw => exact .present ((hasWire_iff ..).1 hw)
  · next hw => exact .added (mt (hasWire_iff ..).2 hw) _ _

theorem addsWire_addClbit (g : WireGraph) (c : ClbitId) : g.AddsWire (.clbit c) (g.addClbit c) := by
  unfold addClbit
  split
  · next hw => exact .present ((hasWire_iff ..).1 hw)
  · next hw => exact .added (mt (hasWire_iff ..).2 hw) _ _

theorem AddsWire.mem_wireList {g g' : WireGraph} {w : Wire} (h : g.AddsWire w g') (w' : Wire) :
    w' ∈ g'.wireList ↔ w' ∈ g.wireList ∨ w' = w := by
  cases h with
  | present hw => exact ⟨.inl, fun h => h.elim id fun h => h ▸ hw⟩
  | added hw numQubits numClbits =>
    show w' ∈ (g.addWire w).wireList ↔ _
    rw [wireList_addWire, List.mem_append, List.mem_singleton]

theorem wireList_addQubit (g : WireGraph) (q : QubitId) (w : Wire) :
    w ∈ (g.addQubit q).wireList ↔ w ∈ g.wireList ∨ w = .qubit q :=
  (g.addsWire_addQubit q).mem_wireList w

theorem wireList_addClbit (g : WireGraph) (c : ClbitId) (w : Wire) :
    w ∈ (g.addClbit c).wireList ↔ w ∈ g.wireList ∨ w = .clbit c :=
  (g.addsWire_addClbit c).mem_wireList w

/-! ## Operations -/

theorem find?_eq_some {g : WireGraph} {w : Wire} {place : Nat} {e : Ends}
    (h : g.find? w = some (place, e)) : g.ends[place]? = some (w, e) := by
  unfold find? at h
  rcases hplace : g.place? w with _ | p
  · simp [hplace] at h
  · obtain ⟨e', he'⟩ := place?_eq_some hplace
    simp only [hplace, he', Option.bind_eq_bind, Option.bind_some, Option.pure_def,
      Option.some.injEq, Prod.mk.injEq] at h
    obtain ⟨rfl, rfl⟩ := h
    exact he'

theorem spliceAt_wireList {g : WireGraph} {w : Wire} {place : Nat} {e : Ends}
    (h : g.ends[place]? = some (w, e)) (op : Nat) :
    (g.spliceAt op place w e).wireList = g.wireList := by
  show (g.ends.setIfInBounds place (w, { e with front := op })).toList.map Prod.fst = g.wireList
  obtain ⟨hlt, hw⟩ := List.getElem?_eq_some_iff.1
    (by simp [wireList, h] : g.wireList[place]? = some w)
  rw [Array.toList_setIfInBounds, List.map_set]
  show g.wireList.set place w = g.wireList
  rw [← hw, List.set_getElem_self]

theorem splice_wireList (g : WireGraph) (op : Nat) (w : Wire) :
    (g.splice op w).2.wireList = g.wireList := by
  unfold splice
  split
  · rfl
  · next place e hfind =>
    have hsame := spliceAt_wireList (find?_eq_some hfind) op
    have hboth : ∀ present : Bool, (if present then (.ok (), g.spliceAt op place w e)
        else (.error (.invalidGraph ("Missing edge from predecessor to output for wire " ++
          wireText w)), g) :
          Reply CircuitError WireGraph Unit).2.wireList = g.wireList := by
      intro present
      cases present with
      | false => rfl
      | true => exact hsame
    exact hboth _

theorem spliceAll_invariant {P : WireGraph → Prop} {op : Nat} {ws : List Wire} {g : WireGraph}
    (hg : P g) (hstep : ∀ g w, P g → P (g.splice op w).2) : P (spliceAll op g ws).2 := by
  induction ws generalizing g with
  | nil => exact hg
  | cons w ws ih =>
    have hfirst := hstep g w hg
    unfold spliceAll
    split
    · next g' hg' =>
      rw [hg'] at hfirst
      exact ih hfirst
    · next e g' hg' =>
      rw [hg'] at hfirst
      exact hfirst

theorem spliceAll_wireList (op : Nat) (ws : List Wire) (g : WireGraph) :
    (spliceAll op g ws).2.wireList = g.wireList :=
  spliceAll_invariant (P := fun g' => g'.wireList = g.wireList) rfl
    fun g' w hg' => (splice_wireList g' op w).trans hg'

theorem apply_wireList (g : WireGraph) (index : Nat) (i : Instruction R) :
    (g.apply index i).2.wireList = g.wireList := by
  unfold apply
  split
  · rfl
  · have hall := spliceAll_wireList g.vertices.size (wires i)
      { g with vertices := g.vertices.push ⟨.op index, []⟩ }
    simp only []
    split <;> next hg => rw [hg] at hall; exact hall

theorem qubitFault?_eq_none {g : WireGraph} {gate : Option String} {seen qs : List QubitId}
    (h : g.qubitFault? gate seen qs = none) :
    qs.Nodup ∧ ∀ q ∈ qs, g.hasWire (.qubit q) = true ∧ q ∉ seen := by
  induction qs generalizing seen with
  | nil => exact ⟨List.nodup_nil, fun q hq => absurd hq List.not_mem_nil⟩
  | cons q qs ih =>
    unfold qubitFault? at h
    split at h
    · exact absurd h (by simp)
    · next hwire =>
      split at h
      · exact absurd h (by simp)
      · next hseen =>
        obtain ⟨hnodup, hrest⟩ := ih h
        constructor
        · refine List.nodup_cons.2 ⟨?_, hnodup⟩
          intro hq
          exact (hrest q hq).2 List.mem_cons_self
        · intro p hp
          rcases List.mem_cons.1 hp with rfl | hp
          · exact ⟨by simpa using hwire, by simpa using hseen⟩
          · exact ⟨(hrest p hp).1, fun hs => (hrest p hp).2 (List.mem_cons_of_mem _ hs)⟩

theorem fault?_eq_none {g : WireGraph} {gate : Gate R} {qs : List QubitId}
    (h : g.fault? (.ofGate gate qs) = none) :
    qs.length = gate.kind.numQubits ∧ qs.Nodup ∧ ∀ q ∈ qs, g.hasWire (.qubit q) = true := by
  simp only [fault?, Instruction.ofGate, Option.orElse_eq_orElse, Option.orElse_eq_or,
    Option.or_eq_none_iff] at h
  obtain ⟨hcount, hqubits, -⟩ := h
  obtain ⟨hnodup, hwires⟩ := qubitFault?_eq_none hqubits
  refine ⟨?_, hnodup, fun q hq => (hwires q hq).1⟩
  by_contra hne
  simp [countFault?, Ne.symm hne] at hcount

end WireGraph

namespace Circuit

theorem lt_width {c : Circuit R} {q : Qubit} (h : q ∈ c.qubits) : q.id < c.width := by
  have hfold : ∀ (l : List Qubit) (w : Nat), w ≤ l.foldl (fun w q => max w (q.id + 1)) w ∧
      ∀ p ∈ l, p.id < l.foldl (fun w q => max w (q.id + 1)) w := by
    intro l
    induction l with
    | nil => exact fun w => ⟨Nat.le_refl w, fun p hp => absurd hp List.not_mem_nil⟩
    | cons p l ih =>
      intro w
      obtain ⟨hle, hmem⟩ := ih (max w (p.id + 1))
      refine ⟨Nat.le_trans (Nat.le_max_left _ _) hle, ?_⟩
      intro p' hp'
      rcases List.mem_cons.1 hp' with rfl | hp'
      · exact Nat.le_trans (Nat.le_max_right w _) hle
      · exact hmem p' hp'
  unfold width
  rw [← Array.foldl_toList]
  exact (hfold _ 0).2 q (by simpa using h)

theorem registerQubit_cases (c : Circuit R) (q : Qubit) :
    ((∃ p ∈ c.qubits, p.id = q.id) ∧ c.registerQubit q = { c with
      timeline := c.timeline.push (.allocate q.id c.instructions.size) }) ∨
    (∀ p ∈ c.qubits, p.id ≠ q.id) ∧ c.registerQubit q = { c with
      graph := c.graph.addQubit q.id
      qubits := c.qubits.push q
      timeline := c.timeline.push (.allocate q.id c.instructions.size) } := by
  unfold registerQubit
  cases hany : c.qubits.any fun p => p.id = q.id with
  | true =>
    obtain ⟨p, hp, heq⟩ := Array.any_eq_true'.1 hany
    exact .inl ⟨⟨p, hp, of_decide_eq_true heq⟩, rfl⟩
  | false =>
    refine .inr ⟨fun p hp heq => ?_, rfl⟩
    exact absurd (decide_eq_true heq) (Array.any_eq_false'.1 hany p hp)

/-- What becomes of a circuit when qubits are registered and released, classical bits added and
instructions pushed, with success or not. -/
inductive Grown (c : Circuit R) : Circuit R → Prop
  | refl : Grown c c
  | registerQubit {c' : Circuit R} (h : Grown c c') (q : Qubit) : Grown c (c'.registerQubit q)
  | recordRelease {c' : Circuit R} (h : Grown c c') (qs : List QubitId) :
    Grown c (c'.recordRelease qs)
  | addClbit {c' : Circuit R} (h : Grown c c') (source : Option QubitId) :
    Grown c (c'.addClbit source).2
  | push {c' : Circuit R} (h : Grown c c') (i : Instruction R) : Grown c (c'.push i).2

theorem Grown.trans {c c' c'' : Circuit R} (h : Grown c c') (h' : Grown c' c'') : Grown c c'' := by
  induction h' with
  | refl => exact h
  | registerQubit _ q ih => exact ih.registerQubit q
  | recordRelease _ qs ih => exact ih.recordRelease qs
  | addClbit _ source ih => exact ih.addClbit source
  | push _ i ih => exact ih.push i

theorem push_shape (c : Circuit R) (i : Instruction R) :
    ∃ g : WireGraph, g.wireList = c.graph.wireList ∧ (c.push i).2 = { c with
      graph := g
      instructions := if (c.push i).1.isOk then c.instructions.push i else c.instructions } := by
  unfold push onGraph
  split
  · exact ⟨c.graph, rfl, rfl⟩
  · refine ⟨_, c.graph.apply_wireList c.instructions.size i, ?_⟩
    rcases hstep : c.graph.apply c.instructions.size i with ⟨e | _, g⟩ <;>
      simp [hstep, Except.isOk, Except.toBool]

theorem push_eq (c : Circuit R) (i : Instruction R) :
    (c.push i).2.graph.wireList = c.graph.wireList ∧ (c.push i).2.qubits = c.qubits := by
  obtain ⟨g, hwires, hpush⟩ := c.push_shape i
  rw [hpush]
  exact ⟨hwires, rfl⟩

theorem push_appends (c : Circuit R) (i : Instruction R) : (c.push i).2.instructions.toList =
    c.instructions.toList ++ if (c.push i).1.isOk then [i] else [] := by
  obtain ⟨g, -, hpush⟩ := c.push_shape i
  rw [hpush]
  cases (c.push i).1.isOk <;> simp

theorem push_ok {c c' : Circuit R} {i : Instruction R} (h : c.push i = (.ok (), c')) :
    c'.instructions.toList = c.instructions.toList ++ [i] := by
  have happends := c.push_appends i
  rw [h] at happends
  exact happends

theorem Grown.width_le {c c' : Circuit R} (h : Grown c c') : c.width ≤ c'.width := by
  induction h with
  | refl => exact Nat.le_refl _
  | @registerQubit c' _ q ih =>
    refine Nat.le_trans ih ?_
    obtain ⟨-, hsame⟩ | ⟨-, hnew⟩ := c'.registerQubit_cases q
    · rw [hsame]
      exact Nat.le_refl _
    · rw [hnew, width, width, Array.foldl_push]
      exact Nat.le_max_left _ _
  | recordRelease _ qs ih => exact ih
  | addClbit _ source ih => exact ih
  | @push c' _ i ih =>
    rw [width, width, (push_eq c' i).2]
    exact ih

def Registers (c : Circuit R) : Prop :=
  ∀ q, .qubit q ∈ c.graph.wireList → ∃ p ∈ c.qubits, p.id = q

theorem registers_new (name : String) : (new name : Circuit R).Registers :=
  fun _ hq => absurd hq (by simp [new, WireGraph.empty, WireGraph.wireList])

theorem Registers.grown {c c' : Circuit R} (h : c.Registers) (hg : Grown c c') : c'.Registers := by
  induction hg with
  | refl => exact h
  | @registerQubit c' _ q ih =>
    obtain ⟨-, hsame⟩ | ⟨-, hnew⟩ := c'.registerQubit_cases q
    · rw [hsame]
      exact ih
    · rw [hnew]
      intro p hp
      simp only [Array.mem_push]
      rcases (WireGraph.wireList_addQubit ..).1 hp with hold | hnew
      · obtain ⟨r, hr, hrp⟩ := ih p hold
        exact ⟨r, .inl hr, hrp⟩
      · exact ⟨q, .inr rfl, (Wire.qubit.inj hnew).symm⟩
  | recordRelease _ qs ih => exact ih
  | @addClbit c' _ source ih =>
    intro p hp
    rcases (WireGraph.wireList_addClbit ..).1 hp with hold | hnew
    · exact ih p hold
    · exact absurd hnew (by simp)
  | @push c' _ i ih =>
    obtain ⟨hwires, hqubits⟩ := push_eq c' i
    intro p hp
    rw [hwires] at hp
    rw [hqubits]
    exact ih p hp

theorem Registers.push_gate {c c' : Circuit R} (hc : c.Registers) {g : Gate R} {qs : List QubitId}
    (h : c.push (.ofGate g qs) = (.ok (), c')) : g.kind.Fits c.width qs := by
  have hfault : c.graph.fault? (.ofGate g qs) = none := by
    by_contra hne
    obtain ⟨e, he⟩ := Option.ne_none_iff_exists'.1 hne
    unfold Circuit.push onGraph WireGraph.apply at h
    split at h
    · simp at h
    · simp [he] at h
  obtain ⟨hlength, hnodup, hwires⟩ := WireGraph.fault?_eq_none hfault
  refine ⟨hlength, hnodup, ?_⟩
  intro q hq
  obtain ⟨p, hp, rfl⟩ := hc q ((WireGraph.hasWire_iff _ _).1 (hwires q hq))
  exact lt_width hp

end Circuit

end Ancilla
