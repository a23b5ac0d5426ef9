import Ancilla.Proofs.Session.Program
import Ancilla.Proofs.Simulation.Lowering

/-!
What compiled programs mean. The meaning of a program is an operator, given by recursion on the
program: a conjugation surrounds its action by its computation and the inverse of it, a control
restricts its body to the basis states in which its qubits read 1. The circuit of a compiled program
acts as this operator, although environments add controls and conditions only to instructions that
are not balanced: in every program the balanced instructions alone amount to the identity.
-/

namespace Ancilla

/-! ## Gates under a readout -/

namespace Gate

def acts {R : Type} (read : ClbitId → Bool) (g : Gate R) : Bool :=
  match g.condition with
  | some c => c.holds read
  | none => true

noncomputable def operator (read : ClbitId → Bool) (b : Bindings ℝ) (g : Gate ℝ)
    (qs : List QubitId) : Operator ℂ :=
  if g.acts read then g.kind.operator qs (g.angles b) else 1

theorem acts_withCondition {R : Type} (read : ClbitId → Bool) (g : Gate R) (c : Condition) :
    (g.withCondition c).acts read = (g.acts read && c.holds read) := by
  unfold acts Gate.withCondition
  cases g.condition with
  | none => rfl
  | some d => exact List.all_append

end Gate

/-! ## The reference meaning -/

/-- The operator a program stands for, under a readout of the classical bits and with values for
the symbols. -/
noncomputable def Program.meaning (read : ClbitId → Bool) (b : Bindings ℝ) : Program ℝ → Operator ℂ
  | skip => 1
  | seq p q => q.meaning read b * p.meaning read b
  | apply g qs => g.operator read b qs
  | conjugate _ compute act =>
    Ring.inverse (compute.meaning read b) * act.meaning read b * compute.meaning read b
  | control cs body => .controlled cs (body.meaning read b)
  | controlClassical clbits value body =>
    if (Condition.ofValue clbits value).holds read then body.meaning read b else 1
  | invert body => Ring.inverse (body.meaning read b)
  | scope _ body => body.meaning read b

/-! ## Placements -/

namespace Placement

variable {read : ClbitId → Bool} {b : Bindings ℝ} {n : ℕ} {e : Placement ℝ}

noncomputable def operator (read : ClbitId → Bool) (b : Bindings ℝ) (e : Placement ℝ) :
    Operator ℂ := e.gate.operator read b e.qubits

def targets {R : Type} (e : Placement R) : List QubitId := e.qubits.drop e.gate.kind.numControls

structure Ready (b : Bindings ℝ) (e : Placement ℝ) : Prop where
  rooted : e.gate.kind.IsRooted
  angles : ∃ as, Step.angles b e.gate.kind.parameters = .ok as

def Fits {R : Type} (n : ℕ) (e : Placement R) : Prop := e.gate.kind.Fits n e.qubits

theorem Ready.under (h : e.Ready b) (cs : List QubitId) : (e.under cs).Ready b := by
  unfold Placement.under
  split
  · exact h
  · refine ⟨h.rooted.withControls _, ?_⟩
    rw [h.rooted.parameters_withControls]
    exact h.angles

theorem Ready.targets_under (h : e.Ready b) (cs : List QubitId) :
    (e.under cs).targets = e.targets := by
  unfold Placement.under
  split
  · rfl
  · exact h.rooted.drop_withControls cs e.qubits

theorem Ready.fits_of_under (h : e.Ready b) {cs : List QubitId} (hf : (e.under cs).Fits n) :
    e.Fits n := by
  unfold Placement.under at hf
  split at hf
  · exact hf
  · exact GateKind.Fits.of_withControls h.rooted hf

theorem Ready.operator_under (h : e.Ready b) (cs : List QubitId) :
    (e.under cs).operator read b =
      Operator.select cs (e.operator read b) (if e.balanced then e.operator read b else 1) := by
  unfold Placement.under
  split
  · exact (Operator.select_self _ _).symm
  · have hangles : Gate.angles b { e.gate with kind := e.gate.kind.withControls cs.length } =
        e.gate.angles b := by
      unfold Gate.angles
      rw [h.rooted.parameters_withControls]
    unfold Placement.operator Gate.operator
    rw [hangles, h.rooted.operator_withControls]
    show (if e.gate.acts read = true then _ else _) = _
    split
    · rfl
    · exact (Operator.select_self _ _).symm

theorem Ready.provided (h : e.Ready b) (c : Condition) : (e.provided c).Ready b := by
  unfold Placement.provided
  split
  · exact h
  · exact ⟨h.rooted, h.angles⟩

theorem targets_provided (e : Placement ℝ) (c : Condition) : (e.provided c).targets = e.targets := by
  unfold Placement.provided
  split <;> rfl

theorem fits_of_provided {c : Condition} (hf : (e.provided c).Fits n) : e.Fits n := by
  unfold Placement.provided at hf
  split at hf
  · exact hf
  · exact hf

theorem operator_provided (e : Placement ℝ) (c : Condition) :
    (e.provided c).operator read b = if c.holds read || e.balanced then e.operator read b else 1 := by
  unfold Placement.provided
  split
  · next hb => simp [hb]
  · next hb =>
    have hacts := e.gate.acts_withCondition read c
    unfold Placement.operator Gate.operator
    simp only [hacts]
    cases e.gate.acts read <;> cases c.holds read <;> simp [hb]
    rfl

theorem eq_inverse {A B C : Operator ℂ} (hBA : B * A = 1) (hCB : C * B = 1) :
    IsUnit A ∧ B = Ring.inverse A := by
  have hC : C = A := left_inv_eq_right_inv hCB hBA
  rw [hC] at hCB
  exact ⟨⟨⟨A, B, hCB, hBA⟩, rfl⟩, (Ring.inverse_unit ⟨A, B, hCB, hBA⟩).symm⟩

theorem Ready.undone (h : e.Ready b) : e.undone.Ready b := by
  obtain ⟨as, has⟩ := h.angles
  refine ⟨h.rooted.adjoint, ?_⟩
  show ∃ as, Step.angles b e.gate.kind.adjoint.parameters = .ok as
  rw [← GateKind.parameters_root, h.rooted.root_adjoint]
  rw [← GateKind.parameters_root] at has
  by_cases hswap : e.gate.kind.root = .swap
  · rw [hswap]
    exact ⟨[], rfl⟩
  · obtain ⟨as', has', -⟩ := Exact.undoes_adjoint h.rooted hswap has
    exact ⟨as', has'⟩

theorem Ready.targets_undone (h : e.Ready b) : e.undone.targets = e.targets := by
  show e.qubits.drop e.gate.kind.adjoint.numControls = e.targets
  rw [h.rooted.numControls_adjoint, targets]

theorem Ready.fits_undone_iff (h : e.Ready b) : e.undone.Fits n ↔ e.Fits n :=
  GateKind.fits_adjoint_iff h.rooted

theorem Ready.undone_mul (h : e.Ready b) (hf : e.Fits n) :
    e.undone.operator read b * e.operator read b = 1 := by
  obtain ⟨as, has⟩ := h.angles
  obtain ⟨as', has', hmul⟩ := GateKind.Fits.operator_adjoint hf h.rooted has
  have hback : e.gate.adjoint.angles b = as' := Gate.angles_eq has'
  have hkind : e.gate.adjoint.kind = e.gate.kind.adjoint := rfl
  have hacts : e.gate.adjoint.acts read = e.gate.acts read := rfl
  unfold Placement.operator Gate.operator Placement.undone
  simp only [hacts, hkind, hback, Gate.angles_eq has]
  split
  · exact hmul
  · exact mul_one 1

theorem Ready.operator_undone (h : e.Ready b) (hf : e.Fits n) :
    IsUnit (e.operator read b) ∧ e.undone.operator read b = Ring.inverse (e.operator read b) :=
  eq_inverse (h.undone_mul hf) (h.undone.undone_mul (h.fits_undone_iff.2 hf))

theorem Ready.commute (h : e.Ready b) (hf : e.Fits n) {cs : List QubitId}
    (hcs : ∀ q ∈ e.targets, q ∉ cs) : Commute (e.operator read b) (Operator.allRead cs) := by
  unfold Placement.operator Gate.operator
  split
  · exact GateKind.Fits.operator_commute hf h.rooted hcs _
  · exact Commute.one_left _

/-! ## Lists of placements -/

noncomputable def compose (read : ClbitId → Bool) (b : Bindings ℝ) :
    List (Placement ℝ) → Operator ℂ
  | [] => 1
  | e :: es => compose read b es * e.operator read b

def balancedPart {R : Type} (es : List (Placement R)) : List (Placement R) :=
  es.filter Placement.balanced

theorem compose_append (es fs : List (Placement ℝ)) :
    compose read b (es ++ fs) = compose read b fs * compose read b es := by
  induction es with
  | nil => exact (mul_one _).symm
  | cons e es ih => rw [List.cons_append, compose, compose, ih, mul_assoc]

theorem compose_shielded (es : List (Placement ℝ)) :
    compose read b (es.map shielded) = compose read b es := by
  induction es with
  | nil => rfl
  | cons e es ih =>
    rw [List.map_cons, compose, compose, ih]
    rfl

theorem compose_undone {es : List (Placement ℝ)} (h : ∀ e ∈ es, e.Ready b)
    (hf : ∀ e ∈ es, e.Fits n) :
    IsUnit (compose read b es) ∧
      compose read b (es.reverse.map undone) = Ring.inverse (compose read b es) := by
  induction es with
  | nil => exact ⟨isUnit_one, (Ring.inverse_one _).symm⟩
  | cons e es ih =>
    obtain ⟨hunit, hundone⟩ := ih (fun e he => h e (List.mem_cons_of_mem _ he))
      fun e he => hf e (List.mem_cons_of_mem _ he)
    obtain ⟨hunit₁, hundone₁⟩ : IsUnit (e.operator read b) ∧
        e.undone.operator read b = Ring.inverse (e.operator read b) :=
      (h e List.mem_cons_self).operator_undone (hf e List.mem_cons_self)
    refine ⟨hunit.mul hunit₁, ?_⟩
    rw [List.reverse_cons, List.map_append, compose_append, hundone, compose,
      Ring.inverse_mul (.inl hunit), ← hundone₁]
    exact congrArg (· * _) (one_mul _)

theorem compose_under {es : List (Placement ℝ)} (h : ∀ e ∈ es, e.Ready b)
    (hf : ∀ e ∈ es, e.Fits n) {cs : List QubitId} (hcs : ∀ e ∈ es, ∀ q ∈ e.targets, q ∉ cs) :
    compose read b (es.map (under cs)) =
      Operator.select cs (compose read b es) (compose read b (balancedPart es)) := by
  induction es with
  | nil => exact (Operator.select_self _ _).symm
  | cons e es ih =>
    have hrest := ih (fun e he => h e (List.mem_cons_of_mem _ he))
      (fun e he => hf e (List.mem_cons_of_mem _ he))
      fun e he => hcs e (List.mem_cons_of_mem _ he)
    have hcommute : Commute (e.operator read b) (Operator.allRead cs) :=
      (h e List.mem_cons_self).commute (hf e List.mem_cons_self) (hcs e List.mem_cons_self)
    rw [List.map_cons, compose, hrest, (h e List.mem_cons_self).operator_under, compose]
    -- a balanced placement acts in both cases of the selection, another one only in the first
    cases hb : e.balanced with
    | true =>
      rw [if_pos rfl, Operator.select_mul_select hcommute hcommute, balancedPart, balancedPart,
        List.filter_cons_of_pos hb, compose]
    | false =>
      rw [if_neg Bool.false_ne_true, Operator.select_mul_select hcommute (Commute.one_left _),
        mul_one, balancedPart, balancedPart, List.filter_cons_of_neg (by simp [hb])]

theorem compose_provided (c : Condition) (es : List (Placement ℝ)) :
    compose read b (es.map (provided c)) =
      if c.holds read then compose read b es else compose read b (balancedPart es) := by
  induction es with
  | nil => exact (ite_self _).symm
  | cons e es ih =>
    rw [List.map_cons, compose, ih, operator_provided, compose]
    cases hc : c.holds read with
    | true => rfl
    | false =>
      cases hb : e.balanced with
      | true => simp [balancedPart, hb, compose]
      | false => simp [balancedPart, hb]

theorem balancedPart_append (es fs : List (Placement ℝ)) :
    balancedPart (es ++ fs) = balancedPart es ++ balancedPart fs := List.filter_append es fs

theorem balancedPart_undone (es : List (Placement ℝ)) :
    balancedPart (es.reverse.map undone) = (balancedPart es).reverse.map undone := by
  unfold balancedPart
  rw [List.filter_map, List.filter_reverse]
  rfl

theorem balancedPart_shielded (es : List (Placement ℝ)) :
    balancedPart (es.map shielded) = es.map shielded := by
  refine List.filter_eq_self.2 fun e he => ?_
  obtain ⟨e, -, rfl⟩ := List.mem_map.1 he
  rfl

theorem balancedPart_map_eq {es : List (Placement ℝ)} {g : Placement ℝ → Placement ℝ}
    (hg : ∀ e, (g e).balanced = e.balanced) (hid : ∀ e, e.balanced = true → g e = e) :
    balancedPart (es.map g) = balancedPart es := by
  have hsame : balancedPart (es.map g) = (balancedPart es).map g := by
    unfold balancedPart
    rw [List.filter_map]
    exact congrArg (fun p => List.map g (es.filter p)) (funext hg)
  rw [hsame]
  refine (List.map_congr_left fun e he => ?_).trans (List.map_id _)
  exact hid e (List.mem_filter.1 he).2

/-- Placements act as an operator, and the balanced ones among them act as the identity. -/
structure Means (read : ClbitId → Bool) (b : Bindings ℝ) (es : List (Placement ℝ))
    (A : Operator ℂ) : Prop where
  whole : compose read b es = A
  balanced : compose read b (balancedPart es) = 1

variable {es fs : List (Placement ℝ)} {A B : Operator ℂ}

theorem Means.append (h : Means read b es A) (h' : Means read b fs B) :
    Means read b (es ++ fs) (B * A) := by
  constructor
  · rw [compose_append, h.whole, h'.whole]
  · rw [balancedPart_append, compose_append, h.balanced, h'.balanced, mul_one]

theorem compose_uncompute (hready : ∀ e ∈ es, e.Ready b) (hfits : ∀ e ∈ es, e.Fits n) :
    IsUnit (compose read b es) ∧
      compose read b ((es.map shielded).reverse.map undone) = Ring.inverse (compose read b es) := by
  have hready' : ∀ e ∈ es.map shielded, e.Ready b := by
    intro e he
    obtain ⟨e', he', rfl⟩ := List.mem_map.1 he
    exact ⟨(hready e' he').rooted, (hready e' he').angles⟩
  have hfits' : ∀ e ∈ es.map shielded, e.Fits n := by
    intro e he
    obtain ⟨e', he', rfl⟩ := List.mem_map.1 he
    exact hfits e' he'
  rw [← compose_shielded es]
  exact compose_undone hready' hfits'

theorem compose_conjugate (hready : ∀ e ∈ es, e.Ready b) (hfits : ∀ e ∈ es, e.Fits n) :
    compose read b (es.map shielded ++ fs ++ (es.map shielded).reverse.map undone) =
      Ring.inverse (compose read b es) * compose read b fs * compose read b es := by
  obtain ⟨-, hundone⟩ : IsUnit (compose read b es) ∧ _ := compose_uncompute hready hfits
  rw [compose_append, compose_append, hundone, compose_shielded, mul_assoc]

theorem Means.conjugate (h : Means read b es A) (h' : Means read b fs B)
    (hready : ∀ e ∈ es, e.Ready b) (hfits : ∀ e ∈ es, e.Fits n) :
    Means read b (es.map shielded ++ fs ++ (es.map shielded).reverse.map undone)
      (Ring.inverse A * B * A) := by
  obtain ⟨hunit, hundone⟩ : IsUnit (compose read b es) ∧ _ := compose_uncompute hready hfits
  constructor
  · rw [compose_conjugate hready hfits, h.whole, h'.whole]
  · -- the computation and its undoing are balanced throughout
    rw [balancedPart_append, balancedPart_append, balancedPart_undone, balancedPart_shielded,
      compose_append, compose_append, hundone, compose_shielded, h'.balanced, one_mul,
      Ring.inverse_mul_cancel _ hunit]

theorem Means.under (h : Means read b es A) (hready : ∀ e ∈ es, e.Ready b)
    (hfits : ∀ e ∈ es, e.Fits n) {cs : List QubitId} (hcs : ∀ e ∈ es, ∀ q ∈ e.targets, q ∉ cs) :
    Means read b (es.map (under cs)) (Operator.controlled cs A) := by
  constructor
  · rw [compose_under hready hfits hcs, h.whole, h.balanced]
    rfl
  · rw [balancedPart_map_eq, h.balanced]
    · intro e
      unfold Placement.under
      split <;> rfl
    · intro e he
      exact if_pos he

theorem Means.provided (h : Means read b es A) (c : Condition) :
    Means read b (es.map (provided c)) (if c.holds read then A else 1) := by
  constructor
  · rw [compose_provided, h.whole, h.balanced]
  · rw [balancedPart_map_eq, h.balanced]
    · intro e
      unfold Placement.provided
      split <;> rfl
    · intro e he
      exact if_pos he

theorem Means.undone (h : Means read b es A) (hready : ∀ e ∈ es, e.Ready b)
    (hfits : ∀ e ∈ es, e.Fits n) : Means read b (es.reverse.map undone) (Ring.inverse A) := by
  constructor
  · rw [(compose_undone hready hfits).2, h.whole]
  · have hsub : ∀ e ∈ balancedPart es, e ∈ es := fun e he => (List.mem_filter.1 he).1
    obtain ⟨-, hundone⟩ : IsUnit (compose read b (balancedPart es)) ∧ _ :=
      compose_undone (fun e he => hready e (hsub e he)) fun e he => hfits e (hsub e he)
    rw [balancedPart_undone, hundone, h.balanced, Ring.inverse_one]

end Placement

/-! ## Programs -/

namespace Program

open Placement

variable {read : ClbitId → Bool} {b : Bindings ℝ} {n : ℕ}

def IsRooted (p : Program ℝ) : Prop := ∀ x ∈ p.gates, x.1.kind.IsRooted

def Evaluates (b : Bindings ℝ) (p : Program ℝ) : Prop :=
  ∀ x ∈ p.gates, ∃ as, Step.angles b x.1.kind.parameters = .ok as

def Ready (b : Bindings ℝ) (p : Program ℝ) : Prop :=
  ∀ x ∈ p.gates, Placement.Ready b ⟨x.1, x.2, false⟩

def Draws (b : Bindings ℝ) (xs : List (Gate ℝ × List QubitId)) (e : Placement ℝ) : Prop :=
  e.Ready b ∧ ∀ q ∈ e.targets, ∃ x ∈ xs, q ∈ x.2

theorem Draws.mono {xs ys : List (Gate ℝ × List QubitId)} {e : Placement ℝ} (h : Draws b xs e)
    (hxs : xs ⊆ ys) : Draws b ys e := by
  refine ⟨h.1, fun q hq => ?_⟩
  obtain ⟨x, hx, hq⟩ := h.2 q hq
  exact ⟨x, hxs hx, hq⟩

theorem Draws.undone {xs : List (Gate ℝ × List QubitId)} {e : Placement ℝ} (h : Draws b xs e) :
    Draws b xs e.undone := by
  refine ⟨h.1.undone, ?_⟩
  rw [h.1.targets_undone]
  exact h.2

theorem Ready.placements {p : Program ℝ} (h : p.Ready b) :
    ∀ e ∈ p.placements, Draws b p.gates e := by
  induction p with
  | skip => exact fun e he => absurd he List.not_mem_nil
  | seq p q ihp ihq =>
    intro e he
    rcases List.mem_append.1 he with he | he
    · exact (ihp (fun x hx => h x (List.mem_append_left _ hx)) e he).mono (List.subset_append_left _ _)
    · exact (ihq (fun x hx => h x (List.mem_append_right _ hx)) e he).mono
        (List.subset_append_right _ _)
  | apply g qs =>
    intro e he
    obtain rfl := List.mem_singleton.1 he
    have hmem : (g, qs) ∈ (apply g qs).gates := List.mem_singleton.2 rfl
    exact ⟨h (g, qs) hmem, fun q hq => ⟨(g, qs), hmem, List.mem_of_mem_drop hq⟩⟩
  | conjugate label compute act ihc iha =>
    -- the computation is sent shielded, and once more undone behind the action
    have hforward : ∀ e ∈ compute.placements.map shielded,
        Draws b (conjugate label compute act).gates e := by
      intro e he
      obtain ⟨e', he', rfl⟩ := List.mem_map.1 he
      have hdraws := ihc (fun x hx => h x (List.mem_append_left _ hx)) e' he'
      have hsame : Draws b compute.gates e'.shielded := ⟨⟨hdraws.1.rooted, hdraws.1.angles⟩, hdraws.2⟩
      exact hsame.mono (List.subset_append_left _ _)
    intro e he
    rcases List.mem_append.1 he with he | he
    · rcases List.mem_append.1 he with he | he
      · exact hforward e he
      · exact (iha (fun x hx => h x (List.mem_append_right _ hx)) e he).mono
          (List.subset_append_right _ _)
    · obtain ⟨e', he', rfl⟩ := List.mem_map.1 he
      exact (hforward e' (List.mem_reverse.1 he')).undone
  | control cs body ih =>
    intro e he
    obtain ⟨e', he', rfl⟩ := List.mem_map.1 he
    obtain ⟨hready, hnamed⟩ := ih h e' he'
    refine ⟨hready.under cs, ?_⟩
    rw [hready.targets_under]
    exact hnamed
  | controlClassical clbits value body ih =>
    intro e he
    obtain ⟨e', he', rfl⟩ := List.mem_map.1 he
    obtain ⟨hready, hnamed⟩ := ih h e' he'
    refine ⟨hready.provided _, ?_⟩
    rw [targets_provided]
    exact hnamed
  | invert body ih =>
    intro e he
    obtain ⟨e', he', rfl⟩ := List.mem_map.1 he
    exact (ih h e' (List.mem_reverse.1 he')).undone
  | scope label body ih => exact ih h

theorem means_placements {p : Program ℝ} (h : p.Ready b) (hsep : p.Separated)
    (hf : ∀ e ∈ p.placements, e.Fits n) : Means read b p.placements (p.meaning read b) := by
  induction p with
  | skip => exact ⟨rfl, rfl⟩
  | seq p q ihp ihq =>
    exact (ihp (fun x hx => h x (List.mem_append_left _ hx)) hsep.1
      fun e he => hf e (List.mem_append_left _ he)).append
        (ihq (fun x hx => h x (List.mem_append_right _ hx)) hsep.2
          fun e he => hf e (List.mem_append_right _ he))
  | apply g qs => exact ⟨one_mul _, rfl⟩
  | conjugate label compute act ihc iha =>
    have hready : compute.Ready b := fun x hx => h x (List.mem_append_left _ hx)
    have hfits : ∀ e ∈ compute.placements, e.Fits n := fun e he =>
      hf e.shielded (List.mem_append_left _ (List.mem_append_left _ (List.mem_map_of_mem he)))
    have hact := iha (fun x hx => h x (List.mem_append_right _ hx)) hsep.2
      fun e he => hf e (List.mem_append_left _ (List.mem_append_right _ he))
    exact (ihc hready hsep.1 hfits).conjugate hact (fun e he => (hready.placements e he).1) hfits
  | control cs body ih =>
    have hready := Ready.placements (p := body) h
    have hfits : ∀ e ∈ body.placements, e.Fits n := fun e he =>
      (hready e he).1.fits_of_under (hf _ (List.mem_map_of_mem he))
    -- a target of what the body sends is an operand of one of its gates, hence no control
    refine (ih h hsep.1 hfits).under (fun e he => (hready e he).1) hfits ?_
    intro e he q hq
    obtain ⟨x, hx, hqx⟩ := (hready e he).2 q hq
    exact hsep.2 x hx q hqx
  | controlClassical clbits value body ih =>
    exact (ih h hsep fun e he => fits_of_provided (hf _ (List.mem_map_of_mem he))).provided _
  | invert body ih =>
    have hready := Ready.placements (p := body) h
    have hfits : ∀ e ∈ body.placements, e.Fits n := fun e he =>
      (hready e he).1.fits_undone_iff.1 (hf _ (List.mem_map_of_mem (List.mem_reverse.2 he)))
    exact (ih h hsep hfits).undone (fun e he => (hready e he).1) hfits
  | scope label body ih => exact ih h hsep hf

end Program

/-! ## Running -/

namespace Placement

variable {b : Bindings ℝ} {n : ℕ} (σ : Type) [DrawSource σ ℝ]

theorem Ready.step {e : Placement ℝ} (h : e.Ready b) (hf : e.Fits n) (collapse : Bool) :
    ∃ st, Step.ofInstruction b collapse e.instruction = .ok [st] ∧
      ∀ t : Trajectory ℂ σ, t.state.amplitudes.size = 2 ^ n →
        ∃ v, v.size = 2 ^ n ∧ t.step st = t.withAmplitudes v ∧
          amplitudes v = e.operator t.read b (amplitudes t.state.amplitudes) := by
  obtain ⟨as, has⟩ := h.angles
  obtain ⟨ks, hks, himpl⟩ := GateKind.Fits.lower hf h.rooted as
  refine ⟨.gate ks e.gate.condition, ?_, ?_⟩
  · show (do
      let kernels ← Kernel.lower e.gate.kind e.qubits (← Step.angles b e.gate.kind.parameters)
      return [Step.gate kernels e.gate.condition]) = _
    rw [has]
    show (do
      let kernels ← Kernel.lower e.gate.kind e.qubits as
      return [Step.gate kernels e.gate.condition]) = _
    rw [hks]
    rfl
  · intro t ht
    have hstep : t.step (.gate ks e.gate.condition) =
        if e.gate.acts t.read then t.withAmplitudes (Kernel.applyAll ks t.state.amplitudes)
        else t := rfl
    rw [hstep, Placement.operator, Gate.operator, Gate.angles_eq has]
    cases e.gate.acts t.read with
    | true => exact ⟨_, (himpl _ ht).1, rfl, (himpl _ ht).2⟩
    | false => exact ⟨_, ht, rfl, rfl⟩

theorem run_steps {es : List (Placement ℝ)} (h : ∀ e ∈ es, e.Ready b) (hf : ∀ e ∈ es, e.Fits n)
    (collapse : Bool) :
    ∃ steps, Step.ofInstructions b collapse (es.map instruction) = .ok steps ∧
      ∀ t : Trajectory ℂ σ, t.state.amplitudes.size = 2 ^ n →
        ∃ v, v.size = 2 ^ n ∧ t.run steps = t.withAmplitudes v ∧
          amplitudes v = compose t.read b es (amplitudes t.state.amplitudes) := by
  induction es with
  | nil => exact ⟨[], rfl, fun t ht => ⟨_, ht, rfl, rfl⟩⟩
  | cons e es ih =>
    obtain ⟨st, hfirst, hact⟩ := (h e List.mem_cons_self).step σ (hf e List.mem_cons_self) collapse
    obtain ⟨steps, hrest, hacts⟩ := ih (fun e he => h e (List.mem_cons_of_mem _ he))
      fun e he => hf e (List.mem_cons_of_mem _ he)
    refine ⟨st :: steps, ?_, ?_⟩
    · rw [List.map_cons, Step.ofInstructions, hfirst, hrest]
      rfl
    · intro t ht
      obtain ⟨v, hv, hstep, hamp⟩ := hact t ht
      obtain ⟨w, hw, hrun, hamp'⟩ := hacts (t.withAmplitudes v) hv
      refine ⟨w, hw, ?_, ?_⟩
      · show (t.step st).run steps = _
        rw [hstep, hrun]
        rfl
      · rw [hamp', compose, Module.End.mul_apply, ← hamp]
        rfl

end Placement

/-- The circuit of a compiled program acts as the program means. The program is compiled without an
open environment, its gates are built from named ones, and no gate inside a control names a qubit of
the control; all its angles have values. Then it appends instructions that are lowered to steps, and
the run of these changes the amplitudes of every register that holds the qubits of the circuit by the
operator of the program, under the bits that are read. -/
theorem Program.compiled_meaning {s s' : Session ℝ} (hs : s.Reachable) (hopen : s.numOpen = 0)
    {p : Program ℝ} (hrooted : p.IsRooted) (hsep : p.Separated)
    (hcompiled : p.build.exec s = (.ok (), s')) {b : Bindings ℝ} (hb : p.Evaluates b)
    {σ : Type} [DrawSource σ ℝ] (t : Trajectory ℂ σ)
    (hwidth : s'.circuit.width ≤ t.state.numQubits)
    (hsize : t.state.amplitudes.size = 2 ^ t.state.numQubits) (collapse : Bool) :
    IsUnit (p.meaning t.read b) ∧ ∃ l steps v, s'.emissions = s.emissions ++ l ∧
      Step.ofInstructions b collapse l = .ok steps ∧ t.run steps = t.withAmplitudes v ∧
      v.size = t.state.amplitudes.size ∧
      amplitudes v = p.meaning t.read b (amplitudes t.state.amplitudes) := by
  obtain ⟨hout, hwidth', hfits⟩ := p.appends hs hopen hcompiled
  have hready : p.Ready b := fun x hx => ⟨hrooted x hx, hb x hx⟩
  have hf : ∀ e ∈ p.placements, e.Fits t.state.numQubits := fun e he =>
    GateKind.Fits.mono (hfits e he) (hwidth' ▸ hwidth)
  have hmeans : Placement.Means t.read b p.placements (p.meaning t.read b) :=
    means_placements hready hsep hf
  have hplaced : ∀ e ∈ p.placements, e.Ready b := fun e he => (hready.placements e he).1
  obtain ⟨steps, hsteps, hrun⟩ := Placement.run_steps σ hplaced hf collapse
  obtain ⟨v, hv, hlast, hamp⟩ := hrun t hsize
  rw [hmeans.whole] at hamp
  refine ⟨?_, _, steps, v, hout, hsteps, hlast, hv.trans hsize.symm, hamp⟩
  rw [← hmeans.whole]
  exact (Placement.compose_undone hplaced hf).1

def Program.nested : Program ℝ :=
  .conjugate "c" (.seq (.apply (.ofStandard .h) [0]) (.control [1] (.apply (.ofStandard .t) [0])))
    (.controlClassical [0] 1 (.invert (.control [2] (.apply (.ofStandard (.rx (.symbol "a"))) [0]))))

theorem Program.nested_compiled_meaning :
    ∃ s s' : Session ℝ, s = (Session.new {}).after [.allocate 4 "q", .measure 3] ∧
      nested.build.exec s = (.ok (), s') ∧
      ∃ t : Trajectory ℂ (ℕ → ℝ), t = ⟨StateVector.zero 4, #[true], fun _ => 0⟩ ∧
        IsUnit (nested.meaning t.read [("a", 1)]) ∧
        ∃ l steps v, s'.emissions = s.emissions ++ l ∧
          Step.ofInstructions [("a", 1)] true l = .ok steps ∧ t.run steps = t.withAmplitudes v ∧
          v.size = t.state.amplitudes.size ∧
          amplitudes v = nested.meaning t.read [("a", 1)] (amplitudes t.state.amplitudes) := by
  have hangle : Expr.evaluate [("a", (1 : ℝ))] (.symbol "a") = .ok 1 := by
    simp [Expr.evaluate, Expr.symbols, Expr.collectSymbols, Ordered.insert, Bindings.binds,
      Expr.eval?, Scalar.isFinite]
  have hb : nested.Evaluates [("a", 1)] := by
    intro x hx
    simp only [nested, gates, List.cons_append, List.nil_append, List.mem_cons, List.not_mem_nil,
      or_false] at hx
    obtain rfl | rfl | rfl := hx
    · exact ⟨[], rfl⟩
    · exact ⟨[], rfl⟩
    · exact ⟨[1], Exact.angles_ok_iff.2 (.cons hangle .nil)⟩
  have hrooted : nested.IsRooted := by
    intro x hx
    simp only [nested, gates, List.cons_append, List.nil_append, List.mem_cons, List.not_mem_nil,
      or_false] at hx
    obtain rfl | rfl | rfl := hx <;> exact GateKind.isRooted_standard _
  have hexec : nested.build.exec ((Session.new {} : Session ℝ).after [.allocate 4 "q", .measure 3]) =
      (.ok (), (nested.build.exec ((Session.new {}).after [.allocate 4 "q", .measure 3])).2) :=
    Prod.ext (by decide +kernel) rfl
  exact ⟨_, _, rfl, hexec, _, rfl, compiled_meaning ((Session.Reachable.new {}).after _)
    (by decide +kernel) hrooted (by simp [nested, Separated, gates]) hexec hb _ (by decide +kernel)
    (by simp [StateVector.zero, bitWeight]) true⟩

end Ancilla
