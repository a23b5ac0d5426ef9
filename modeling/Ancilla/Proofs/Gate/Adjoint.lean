import Ancilla.Proofs.Expr
import Ancilla.Proofs.Simulation.Exact

/-!
Adjoints taken twice. A kind that can be made is the one for its root under its controls, so its
adjoint is the one for the adjoint root under them, and the adjoint of that has the root again, with
angles that were negated twice. Negating folds: a negated number becomes the opposite number and two
negations cancel, so an angle comes back as it was unless it is such a negation itself, and keeps its
value in any case. A label comes back unless it ends in two marks.
-/

namespace Ancilla

variable {R : Type}

/-! ## Angles -/

namespace Expr

/-- Whether an angle is no negation of a number or of a negation. -/
def IsReduced : Expr R → Prop
  | neg (constant _) => False
  | neg (neg _) => False
  | _ => True

variable [Scalar R]

theorem opposite_opposite_eq_iff (hneg : ∀ v : R, - -v = v) (e : Expr R) :
    e.opposite.opposite = e ↔ e.IsReduced := by
  cases e with
  | constant v => simp [opposite, IsReduced, hneg]
  | symbol name => simp [opposite, IsReduced]
  | pi => simp [opposite, IsReduced]
  | binary op a b => simp [opposite, IsReduced]
  | neg a =>
    cases a with
    | constant v => simp [opposite, IsReduced]
    | neg a =>
      have hlonger : a ≠ a.neg.neg := fun h => absurd (congrArg sizeOf h) (by simp; omega)
      simpa [opposite, IsReduced] using hlonger
    | symbol name => simp [opposite, IsReduced]
    | pi => simp [opposite, IsReduced]
    | binary op a b => simp [opposite, IsReduced]

theorem eval?_opposite (hneg : ∀ v : R, - -v = v) (e : Expr R) (b : Bindings R) :
    e.opposite.eval? b = (e.eval? b).map fun v => -v := by
  cases e with
  | neg a => simp [opposite, eval?, Function.comp_def, hneg]
  | _ => rfl

theorem eval?_opposite_opposite (hneg : ∀ v : R, - -v = v) (e : Expr R) (b : Bindings R) :
    e.opposite.opposite.eval? b = e.eval? b := by
  rw [eval?_opposite hneg, eval?_opposite hneg]
  simp [Function.comp_def, hneg]

def IsOrdinary : Expr R → Prop
  | constant v => (v == v) = true
  | symbol _ => True
  | pi => True
  | neg e => e.IsOrdinary
  | binary _ a b => a.IsOrdinary ∧ b.IsOrdinary

theorem IsOrdinary.beq_self {e : Expr R} (h : e.IsOrdinary) : (e == e) = true := by
  induction e with
  | constant v => exact h
  | symbol name => simp [BEq.beq, instBEqExpr.beq]
  | pi => rfl
  | neg e ih => exact ih h
  | binary op a b iha ihb =>
    have ha : instBEqExpr.beq a a = true := iha h.1
    have hb : instBEqExpr.beq b b = true := ihb h.2
    simp [BEq.beq, instBEqExpr.beq, ha, hb]

end Expr

/-! ## Kinds -/

namespace Standard

def mapAngles (f : Expr R → Expr R) : Standard R → Standard R
  | rx a => rx (f a)
  | ry a => ry (f a)
  | rz a => rz (f a)
  | p a => p (f a)
  | u a b c => u (f a) (f b) (f c)
  | crx a => crx (f a)
  | cry a => cry (f a)
  | crz a => crz (f a)
  | cp a => cp (f a)
  | g => g

theorem adjoint_adjoint [Scalar R] (g : Standard R) :
    g.adjoint.adjoint = g.mapAngles fun e => e.opposite.opposite := by
  cases g <;> rfl

theorem mapAngles_eq_iff (f : Expr R → Expr R) (g : Standard R) :
    g.mapAngles f = g ↔ ∀ e ∈ g.parameters, f e = e := by
  cases g <;> simp [mapAngles, parameters]

theorem beq_self [Scalar R] {g : Standard R} (h : ∀ e ∈ g.parameters, e.IsOrdinary) :
    (g == g) = true := by
  cases g with
  | rx a | ry a | rz a | p a | crx a | cry a | crz a | cp a =>
    exact (h a List.mem_cons_self).beq_self
  | u a b c =>
    have ha : instBEqExpr.beq a a = true := (h a (by simp [parameters])).beq_self
    have hb : instBEqExpr.beq b b = true := (h b (by simp [parameters])).beq_self
    have hc : instBEqExpr.beq c c = true := (h c (by simp [parameters])).beq_self
    show (instBEqExpr.beq a a && (instBEqExpr.beq b b && instBEqExpr.beq c c)) = true
    simp [ha, hb, hc]
  | _ => rfl

theorem name_mapAngles (f : Expr R → Expr R) (g : Standard R) : (g.mapAngles f).name = g.name := by
  cases g <;> rfl

end Standard

namespace GateKind

def mapAngles (f : Expr R → Expr R) : GateKind R → GateKind R
  | standard g => standard (g.mapAngles f)
  | controlled base n name => controlled (base.mapAngles f) n name

theorem mapAngles_eq_iff (f : Expr R → Expr R) (k : GateKind R) :
    k.mapAngles f = k ↔ ∀ e ∈ k.parameters, f e = e := by
  cases k with
  | standard g => simp [mapAngles, parameters, Standard.mapAngles_eq_iff]
  | controlled base n name => simp [mapAngles, parameters, Standard.mapAngles_eq_iff]

theorem beq_self [Scalar R] {k : GateKind R} (h : ∀ e ∈ k.parameters, e.IsOrdinary) :
    (k == k) = true := by
  cases k with
  | standard g => exact Standard.beq_self (g := g) h
  | controlled base n name =>
    have hbase : instBEqStandard.beq base base = true := Standard.beq_self (g := base) h
    simp [BEq.beq, instBEqGateKind.beq, hbase]

theorem canonical_mapAngles (f : Expr R → Expr R) (g : Standard R) (n : Nat) :
    canonical (g.mapAngles f) n = (canonical g n).mapAngles f := by
  have hnamed : named? (g.mapAngles f) n = (named? g n).map (Standard.mapAngles f) := by
    match n with
    | 0 => rfl
    | 1 => cases g <;> rfl
    | 2 => cases g <;> rfl
    | n + 3 => cases g <;> rfl
  unfold canonical
  rw [hnamed, Standard.name_mapAngles]
  cases named? g n <;> rfl

def IsCanonical (k : GateKind R) : Prop := canonical k.root k.numControls = k

theorem isCanonical_standard (g : Standard R) : (standard g).IsCanonical := by
  cases g <;> rfl

theorem isCanonical_canonical {g : Standard R} (h : g.IsRoot) (n : Nat) :
    (canonical g n).IsCanonical := by
  unfold IsCanonical root numControls
  rw [splitControls_canonical h]

variable [Scalar R]

variable {k : GateKind R}

theorem IsRooted.adjoint_eq (h : k.IsRooted) :
    k.adjoint = canonical k.root.adjoint k.numControls := by
  cases k with
  | standard g => cases g <;> rfl
  | controlled base n name =>
    have hsplit : (standard base.adjoint).splitControls = (base.adjoint, 0) :=
      Standard.IsRoot.adjoint h
    rw [GateKind.adjoint, GateKind.withControls, hsplit, Nat.zero_add]
    rfl

theorem IsRooted.isCanonical_adjoint (h : k.IsRooted) : k.adjoint.IsCanonical := by
  rw [h.adjoint_eq]
  exact isCanonical_canonical (Standard.IsRoot.adjoint h) _

theorem Made.isCanonical (h : k.Made) : k.IsCanonical := by
  cases h with
  | standard g => exact isCanonical_standard g
  | withControls hk n => exact isCanonical_canonical hk.isRooted _
  | adjoint hk => exact hk.isRooted.isCanonical_adjoint

theorem IsRooted.adjoint_adjoint (h : k.IsRooted) (hk : k.IsCanonical) :
    k.adjoint.adjoint = k.mapAngles fun e => e.opposite.opposite := by
  rw [h.adjoint.adjoint_eq, h.root_adjoint, h.numControls_adjoint, Standard.adjoint_adjoint,
    canonical_mapAngles, hk]

end GateKind

/-! ## Labels -/

theorem adjointLabel_append_mark (label : String) : adjointLabel (label ++ adjointMark) = label := by
  simp [adjointLabel]

theorem adjointLabel_of_unmarked {label : String} (h : ¬ adjointMark.toList <:+ label.toList) :
    adjointLabel label = label ++ adjointMark := by
  simp [adjointLabel, h]

theorem adjointLabel_adjointLabel {label : String}
    (h : ¬ (adjointMark ++ adjointMark).toList <:+ label.toList) :
    adjointLabel (adjointLabel label) = label := by
  by_cases hmarked : adjointMark.toList <:+ label.toList
  · obtain ⟨cs, hcs⟩ := hmarked
    obtain rfl : String.ofList cs ++ adjointMark = label := by
      apply String.toList_injective
      rw [String.toList_append, String.toList_ofList, hcs]
    have hplain : ¬ adjointMark.toList <:+ (String.ofList cs).toList := by
      rintro ⟨ds, hds⟩
      refine h ⟨ds, ?_⟩
      rw [String.toList_append, String.toList_append, ← hds, List.append_assoc]
    rw [adjointLabel_append_mark, adjointLabel_of_unmarked hplain]
  · rw [adjointLabel_of_unmarked hmarked, adjointLabel_append_mark]

/-! ## Gates and instructions -/

namespace Gate

variable [Scalar R]

theorem Made.isCanonical {g : Gate R} (h : g.Made) : g.kind.IsCanonical := h.kind.isCanonical

theorem beq_self {g : Gate R} (h : ∀ e ∈ g.kind.parameters, e.IsOrdinary) : (g == g) = true := by
  have hkind : instBEqGateKind.beq g.kind g.kind = true := GateKind.beq_self h
  have hlabel : (g.label == g.label) = true := beq_self_eq_true _
  have hcondition : (g.condition == g.condition) = true := beq_self_eq_true _
  simp only [BEq.beq] at hlabel hcondition
  simp [BEq.beq, instBEqGate.beq, hkind, hlabel, hcondition]

end Gate

namespace Instruction

def angles (i : Instruction R) : List (Expr R) :=
  match i.operation with
  | .gate g => g.kind.parameters
  | _ => []

def mapAngles (f : Expr R → Expr R) (i : Instruction R) : Instruction R :=
  match i.operation with
  | .gate g => { i with operation := .gate { g with kind := g.kind.mapAngles f } }
  | _ => i

theorem mapAngles_eq_iff (f : Expr R → Expr R) (i : Instruction R) :
    i.mapAngles f = i ↔ ∀ e ∈ i.angles, f e = e := by
  obtain ⟨operation, qubits, clbits⟩ := i
  cases operation with
  | gate g =>
    obtain ⟨kind, label, condition⟩ := g
    simp [mapAngles, angles, GateKind.mapAngles_eq_iff]
  | measure => simp [mapAngles, angles]
  | barrier => simp [mapAngles, angles]

variable [Scalar R]

theorem beq_self {i : Instruction R} (h : ∀ e ∈ i.angles, e.IsOrdinary) : (i == i) = true := by
  obtain ⟨operation, qubits, clbits⟩ := i
  have hoperation : instBEqOperation.beq operation operation = true := by
    cases operation with
    | gate g => exact Gate.beq_self h
    | measure => rfl
    | barrier => rfl
  have hqubits : (qubits == qubits) = true := beq_self_eq_true _
  have hclbits : (clbits == clbits) = true := beq_self_eq_true _
  simp only [BEq.beq] at hqubits hclbits
  simp [BEq.beq, instBEqInstruction.beq, hoperation, hqubits, hclbits]

/-- The adjoint of the adjoint of a gate that can be made, or of a barrier, has the same operands,
condition, label, root, controls and name, if the label does not end in two marks. Each angle has the
values it had; the instruction is the same, also for a comparison in which not every number equals
itself, exactly if no angle is a negated number or a negated negation. -/
theorem adjoint_twice (hneg : ∀ v : R, - -v = v) {i : Instruction R}
    (hm : i.isMeasure = false) (hmade : ∀ g, i.gate? = some g → g.Made)
    (hlabel : ∀ label, i.label? = some label →
      ¬ (adjointMark ++ adjointMark).toList <:+ label.toList) :
    ∃ j k, i.adjoint? = some j ∧ j.adjoint? = some k ∧
      k = i.mapAngles (fun e => e.opposite.opposite) ∧
      (∀ e ∈ i.angles, ∀ b v, e.opposite.opposite.evaluate b = .ok v ↔ e.evaluate b = .ok v) ∧
      (k = i ↔ ∀ e ∈ i.angles, e.IsReduced) ∧
      ((∀ e ∈ i.angles, e.IsReduced ∧ e.IsOrdinary) → (k == i) = true) := by
  have hsame : i.mapAngles (fun e => e.opposite.opposite) = i ↔ ∀ e ∈ i.angles, e.IsReduced := by
    simp only [mapAngles_eq_iff, Expr.opposite_opposite_eq_iff hneg]
  -- angles are reversed twice, the rest of a gate comes back as it was
  have htwice : ∃ j, i.adjoint? = some j ∧
      j.adjoint? = some (i.mapAngles fun e => e.opposite.opposite) := by
    cases hop : i.operation with
    | gate g =>
      have hg := hmade g (gate?_eq_some.2 hop)
      have hkind := hg.isRooted.adjoint_adjoint hg.isCanonical
      have hback : g.label.map (adjointLabel ∘ adjointLabel) = g.label := by
        cases hl : g.label with
        | none => rfl
        | some label =>
          have hmarks := hlabel label (by simp [label?, gate?, hop, hl])
          exact congrArg some (adjointLabel_adjointLabel hmarks)
      refine ⟨{ i with operation := .gate g.adjoint }, by simp only [adjoint?, hop], ?_⟩
      simp only [adjoint?, mapAngles, hop, Gate.adjoint, Option.map_map, hkind, hback]
    | measure => simp [isMeasure, hop] at hm
    | barrier =>
      have hunchanged : i.adjoint? = some i := by simp only [adjoint?, hop]
      refine ⟨i, hunchanged, hunchanged.trans ?_⟩
      simp only [mapAngles, hop]
  obtain ⟨j, hj, hk⟩ := htwice
  refine ⟨j, _, hj, hk, rfl, fun e _ b v => ?_, hsame, fun h => ?_⟩
  · rw [Expr.evaluate_ok_iff, Expr.evaluate_ok_iff, Expr.eval?_opposite_opposite hneg]
  · rw [hsame.2 fun e he => (h e he).1]
    exact beq_self fun e he => (h e he).2

theorem adjoint_twice_controlled :
    ∃ (i j k : Instruction ℝ),
      i = ofGate (((Gate.controlled (.rx (.neg (.symbol "theta"))) 3).withLabel "turn_dg").withCondition
        ⟨[(0, true)]⟩) [0, 1, 2, 3] ∧
      i.adjoint? = some j ∧ j.label? = some "turn" ∧ j.adjoint? = some k ∧ k = i ∧
      (k == i) = true := by
  let g : Gate ℝ := ((Gate.controlled (.rx (.neg (.symbol "theta"))) 3).withLabel
    "turn_dg").withCondition ⟨[(0, true)]⟩
  have hmade : ∀ g', (ofGate g [0, 1, 2, 3]).gate? = some g' → g'.Made := by
    intro g' hg'
    obtain rfl := Option.some.inj hg'
    exact ((Gate.Made.controlled _ 3).withLabel _).withCondition _
  have hlabel : ∀ label, (ofGate g [0, 1, 2, 3]).label? = some label →
      ¬ (adjointMark ++ adjointMark).toList <:+ label.toList := by
    intro label hl
    obtain rfl := Option.some.inj hl
    decide
  obtain ⟨j, k, hj, hk, -, -, hsame, hequal⟩ :=
    adjoint_twice (neg_neg : ∀ v : ℝ, - -v = v) (i := ofGate g [0, 1, 2, 3]) rfl hmade hlabel
  have hangles : ∀ e ∈ (ofGate g [0, 1, 2, 3]).angles, e.IsReduced ∧ e.IsOrdinary := by
    intro e he
    obtain rfl := List.mem_singleton.1 he
    exact ⟨trivial, trivial⟩
  have hfirst : j.label? = some "turn" := by
    obtain rfl := Option.some.inj hj
    decide
  exact ⟨_, j, k, rfl, hj, hfirst, hk, hsame.2 fun e he => (hangles e he).1, hequal hangles⟩

theorem adjoint_twice_differs :
    (∃ i j k : Instruction Float,
      i = ofGate (.ofStandard (.rx ((Expr.symbol "x").opposite.bind "x" 1))) [0] ∧
      i.adjoint? = some j ∧ j.adjoint? = some k ∧ k ≠ i ∧ (k == i) = false) ∧
    ∃ i j k : Instruction Float,
      i = ofGate ((Gate.ofStandard .t).withLabel "flag_dg_dg") [0] ∧
      i.adjoint? = some j ∧ j.adjoint? = some k ∧ k.label? = some "flag" ∧ k ≠ i := by
  refine ⟨⟨_, _, _, rfl, rfl, rfl, ?_, rfl⟩, _, _, _, rfl, rfl, rfl, ?_, ?_⟩
  · intro h
    cases h
  · decide
  · decide

end Instruction

end Ancilla
