import Ancilla.Gate.Adjoint
import Mathlib.Data.List.Basic
import Mathlib.Tactic.Common

/-!
The controls of a gate and its operands. A kind whose base is a root, as every named gate is and
every kind built from one by adding controls, keeps its root under further controls and takes the
adjoint root under the same controls as its adjoint.
-/

namespace Ancilla

variable {R : Type}

namespace Standard

def IsRoot (g : Standard R) : Prop := g.splitControls = (g, 0)

theorem isRoot_splitControls (g : Standard R) : g.splitControls.1.IsRoot := by
  cases g <;> rfl

theorem action_splitControls (g : Standard R) : g.splitControls.1.action = g.action := by
  cases g <;> rfl

theorem splitControls_adjoint [Scalar R] (g : Standard R) :
    g.adjoint.splitControls = (g.splitControls.1.adjoint, g.splitControls.2) := by
  cases g <;> rfl

theorem IsRoot.adjoint [Scalar R] {g : Standard R} (h : g.IsRoot) : g.adjoint.IsRoot := by
  unfold IsRoot at h ⊢
  rw [splitControls_adjoint, h]

theorem adjoint_eq_swap_iff [Scalar R] {g : Standard R} : g.adjoint = .swap ↔ g = .swap := by
  cases g <;> simp [Standard.adjoint]

theorem rootWidth_of_ne_swap {g : Standard R} (hg : g ≠ .swap) : g.rootWidth = 1 := by
  cases g <;> first | rfl | exact absurd rfl hg

theorem rootWidth_adjoint [Scalar R] (g : Standard R) : g.adjoint.rootWidth = g.rootWidth := by
  cases g <;> rfl

end Standard

namespace GateKind

def root (k : GateKind R) : Standard R := k.splitControls.1

/-- Whether the base of a kind is a root, as in every kind that is built from a named gate. -/
def IsRooted (k : GateKind R) : Prop := k.root.IsRoot

theorem isRooted_standard (g : Standard R) : (standard g).IsRooted := g.isRoot_splitControls

theorem splitControls_eq (k : GateKind R) : k.splitControls = (k.root, k.numControls) := rfl

theorem action_root (k : GateKind R) : k.root.action = k.action := by
  cases k with
  | standard g => exact g.action_splitControls
  | controlled base n name => rfl

theorem numQubits_eq (k : GateKind R) : k.numQubits = k.numControls + k.root.rootWidth := by
  cases k <;> rfl

theorem parameters_root (k : GateKind R) : k.root.parameters = k.parameters := by
  cases k with
  | standard g => cases g <;> rfl
  | controlled base n name => rfl

theorem splitControls_canonical {g : Standard R} (h : g.IsRoot) (n : Nat) :
    (canonical g n).splitControls = (g, n) := by
  unfold canonical
  split
  · next g' hg' =>
    unfold named? at hg'
    split at hg' <;> simp_all [splitControls, Standard.splitControls, Standard.IsRoot] <;>
      (subst hg'; rfl)
  · rfl

theorem IsRooted.splitControls_withControls {k : GateKind R} (h : k.IsRooted) (n : Nat) :
    (k.withControls n).splitControls = (k.root, k.numControls + n) :=
  splitControls_canonical h _

theorem IsRooted.root_withControls {k : GateKind R} (h : k.IsRooted) (n : Nat) :
    (k.withControls n).root = k.root := by
  rw [root, h.splitControls_withControls]

theorem IsRooted.numControls_withControls {k : GateKind R} (h : k.IsRooted) (n : Nat) :
    (k.withControls n).numControls = k.numControls + n := by
  rw [numControls, h.splitControls_withControls]

theorem IsRooted.withControls {k : GateKind R} (h : k.IsRooted) (n : Nat) :
    (k.withControls n).IsRooted := by
  unfold IsRooted
  rw [h.root_withControls]
  exact h

theorem IsRooted.withControls_withControls {k : GateKind R} (h : k.IsRooted) (m n : Nat) :
    (k.withControls m).withControls n = k.withControls (m + n) := by
  rw [GateKind.withControls, h.splitControls_withControls, Nat.add_assoc]
  rfl

theorem IsRooted.numQubits_withControls {k : GateKind R} (h : k.IsRooted) (n : Nat) :
    (k.withControls n).numQubits = k.numQubits + n := by
  rw [numQubits_eq, numQubits_eq, h.numControls_withControls, h.root_withControls,
    Nat.add_right_comm]

theorem IsRooted.parameters_withControls {k : GateKind R} (h : k.IsRooted) (n : Nat) :
    (k.withControls n).parameters = k.parameters := by
  rw [← parameters_root, h.root_withControls, parameters_root]

theorem IsRooted.action_withControls {k : GateKind R} (h : k.IsRooted) (n : Nat) :
    (k.withControls n).action = k.action := by
  rw [← action_root, h.root_withControls, action_root]

theorem IsRooted.splitControls_adjoint [Scalar R] {k : GateKind R} (h : k.IsRooted) :
    k.adjoint.splitControls = (k.root.adjoint, k.numControls) := by
  cases k with
  | standard g => exact g.splitControls_adjoint
  | controlled base n name =>
    have hbase : base.adjoint.IsRoot := Standard.IsRoot.adjoint h
    have hsplit : (standard base.adjoint).splitControls = (base.adjoint, 0) := hbase
    simp only [GateKind.adjoint, GateKind.withControls, hsplit, Nat.zero_add]
    exact splitControls_canonical hbase n

theorem IsRooted.root_adjoint [Scalar R] {k : GateKind R} (h : k.IsRooted) :
    k.adjoint.root = k.root.adjoint := by
  rw [root, h.splitControls_adjoint]

theorem IsRooted.numControls_adjoint [Scalar R] {k : GateKind R} (h : k.IsRooted) :
    k.adjoint.numControls = k.numControls := by
  rw [numControls, h.splitControls_adjoint]

theorem IsRooted.adjoint [Scalar R] {k : GateKind R} (h : k.IsRooted) : k.adjoint.IsRooted := by
  unfold IsRooted
  rw [h.root_adjoint]
  exact Standard.IsRoot.adjoint h

/-- The kinds that can be made: from named gates by adding controls and by taking adjoints. -/
inductive Made [Scalar R] : GateKind R → Prop
  | standard (g : Standard R) : Made (standard g)
  | withControls {k : GateKind R} (h : Made k) (n : Nat) : Made (k.withControls n)
  | adjoint {k : GateKind R} (h : Made k) : Made k.adjoint

theorem Made.isRooted [Scalar R] {k : GateKind R} (h : k.Made) : k.IsRooted := by
  induction h with
  | standard g => exact isRooted_standard g
  | withControls _ n ih => exact ih.withControls n
  | adjoint _ ih => exact ih.adjoint

/-! ## Operands -/

/-- The operands of a gate: as many as it needs, all different, and among the first `n` qubits. -/
structure Fits (n : Nat) (k : GateKind R) (qs : List QubitId) : Prop where
  length : qs.length = k.numQubits
  nodup : qs.Nodup
  below : ∀ q ∈ qs, q < n

variable {n : Nat} {k : GateKind R} {qs : List QubitId}

theorem Fits.mono (h : k.Fits n qs) {m : Nat} (hm : n ≤ m) : k.Fits m qs :=
  ⟨h.length, h.nodup, fun q hq => Nat.lt_of_lt_of_le (h.below q hq) hm⟩

theorem Fits.length_targets (h : k.Fits n qs) :
    (qs.drop k.numControls).length = k.root.rootWidth := by
  rw [List.length_drop, h.length, numQubits_eq, Nat.add_sub_cancel_left]

theorem Fits.target_not_control (h : k.Fits n qs) {t : QubitId} (ht : t ∈ qs.drop k.numControls) :
    t ∉ qs.take k.numControls := by
  have hnodup := h.nodup
  rw [← List.take_append_drop k.numControls qs, List.nodup_append] at hnodup
  intro hc
  exact hnodup.2.2 t hc t ht rfl

theorem Fits.targets (h : k.Fits n qs) :
    (k.root ≠ .swap ∧ ∃ t, qs.drop k.numControls = [t]) ∨
    k.root = .swap ∧ ∃ a b, qs.drop k.numControls = [a, b] ∧ a ≠ b := by
  have hlength := h.length_targets
  by_cases hswap : k.root = .swap
  · right
    rw [hswap] at hlength
    obtain ⟨a, b, hab⟩ := List.length_eq_two.1 hlength
    have hnodup := h.nodup.sublist (List.drop_sublist k.numControls qs)
    rw [hab] at hnodup
    exact ⟨hswap, a, b, hab, by simpa using hnodup⟩
  · left
    rw [Standard.rootWidth_of_ne_swap hswap] at hlength
    exact ⟨hswap, List.length_eq_one_iff.1 hlength⟩

theorem IsRooted.drop_withControls (hk : k.IsRooted) (cs qs : List QubitId) :
    (cs ++ qs).drop (k.withControls cs.length).numControls = qs.drop k.numControls := by
  rw [hk.numControls_withControls, Nat.add_comm, List.drop_length_add_append]

theorem IsRooted.take_withControls (hk : k.IsRooted) (cs qs : List QubitId) :
    (cs ++ qs).take (k.withControls cs.length).numControls = cs ++ qs.take k.numControls := by
  rw [hk.numControls_withControls, Nat.add_comm, List.take_length_add_append]

theorem Fits.of_withControls {cs : List QubitId} (hk : k.IsRooted)
    (h : (k.withControls cs.length).Fits n (cs ++ qs)) : k.Fits n qs := by
  refine ⟨?_, (List.nodup_append.1 h.nodup).2.1, fun q hq => h.below q (List.mem_append_right _ hq)⟩
  have hlength := h.length
  rw [hk.numQubits_withControls, List.length_append] at hlength
  omega

theorem fits_adjoint_iff [Scalar R] (hk : k.IsRooted) : k.adjoint.Fits n qs ↔ k.Fits n qs := by
  have hcount : k.adjoint.numQubits = k.numQubits := by
    rw [numQubits_eq, numQubits_eq, hk.root_adjoint, hk.numControls_adjoint,
      Standard.rootWidth_adjoint]
  constructor
  · exact fun h => ⟨h.length.trans hcount, h.nodup, h.below⟩
  · exact fun h => ⟨h.length.trans hcount.symm, h.nodup, h.below⟩

end GateKind

namespace Gate

variable [Scalar R]

/-- The gates that can be made: from named gates by adding controls, labels and conditions, and by
taking adjoints. -/
inductive Made : Gate R → Prop
  | ofStandard (g : Standard R) : Made (ofStandard g)
  | controlled (g : Standard R) (n : Nat) : Made (controlled g n)
  | withControls {g : Gate R} (h : Made g) (n : Nat) : Made { g with kind := g.kind.withControls n }
  | withLabel {g : Gate R} (h : Made g) (label : String) : Made (g.withLabel label)
  | withCondition {g : Gate R} (h : Made g) (c : Condition) : Made (g.withCondition c)
  | adjoint {g : Gate R} (h : Made g) : Made g.adjoint

theorem Made.kind {g : Gate R} (h : g.Made) : g.kind.Made := by
  induction h with
  | ofStandard g => exact .standard g
  | controlled g n => exact (GateKind.Made.standard g).withControls n
  | withControls _ n ih => exact ih.withControls n
  | withLabel _ label ih => exact ih
  | withCondition _ c ih => exact ih
  | adjoint _ ih => exact ih.adjoint

theorem Made.isRooted {g : Gate R} (h : g.Made) : g.kind.IsRooted := h.kind.isRooted

end Gate

namespace Instruction

theorem gate?_eq_some {i : Instruction R} {g : Gate R} :
    i.gate? = some g ↔ i.operation = .gate g := by
  unfold gate?
  split <;> simp_all

theorem condition_of_not_isConditional {i : Instruction R} (h : i.isConditional = false)
    {g : Gate R} (hg : i.operation = .gate g) : g.condition = none := by
  simpa [isConditional, condition?, gate?_eq_some.2 hg] using h

end Instruction

end Ancilla
