import Ancilla.Proofs.Gate.Controls
import Ancilla.Simulation.Trajectory

/-!
What a circuit is lowered to. Each instruction is lowered on its own, a gate to the kernels of its
root under one mask of controls, and the steps of a list of instructions follow one another.
-/

namespace Ancilla

theorem Except.bind_eq_ok_iff {ε α β : Type} {x : Except ε α} {f : α → Except ε β} {r : β} :
    (x >>= f) = .ok r ↔ ∃ a, x = .ok a ∧ f a = .ok r := by
  cases x with
  | error e =>
    constructor
    · intro h
      cases h
    · rintro ⟨a, ha, -⟩
      cases ha
  | ok a => exact ⟨fun h => ⟨a, rfl, h⟩, fun ⟨_, ha, h⟩ => Except.ok.inj ha ▸ h⟩

theorem Except.pure_eq_ok_iff {ε α : Type} {a r : α} :
    (pure a : Except ε α) = .ok r ↔ a = r := ⟨Except.ok.inj, congrArg _⟩

variable {R α : Type} [Scalar R] [Amplitude R α]

theorem Standard.IsRoot.exists_matrix {g : Standard R} (hg : g.IsRoot) (hswap : g ≠ .swap) (as : List R) :
    ∃ m : Matrix2 α, Kernel.rootMatrix? g as = some m := by
  cases g with
  | swap => exact absurd rfl hswap
  | cx | cy | cz | ch | ccx | cswap | crx | cry | crz | cp =>
    exact absurd hg (by simp [Standard.IsRoot, Standard.splitControls])
  | _ => exact ⟨_, rfl⟩

namespace Kernel

theorem lower_ok_iff {k : GateKind R} {qs : List QubitId} {as : List R} {ks : List (Kernel α)} :
    lower k qs as = .ok ks ↔
      (k.root = .swap ∧ ks = exchange (bitMask (qs.take k.numControls))
        ((qs.drop k.numControls).getD 0 0) ((qs.drop k.numControls).getD 1 0)) ∨
      k.root ≠ .swap ∧ ∃ m, rootMatrix? k.root as = some m ∧
        ks = [⟨m, (qs.drop k.numControls).getD 0 0, bitMask (qs.take k.numControls)⟩] := by
  unfold lower
  rw [GateKind.splitControls_eq]
  simp only []
  split
  · next hswap => simp [hswap, eq_comm]
  · next hroot =>
    have hswap : k.root ≠ .swap := hroot
    cases rootMatrix? (α := α) k.root as with
    | none => simp [hswap]
    | some m => simp [hswap, eq_comm]

theorem isRoot_of_matrix {g : Standard R} {as : List R} {m : Matrix2 α}
    (h : rootMatrix? g as = some m) : g.IsRoot := by
  cases g <;> first | rfl | cases h

theorem isRooted_of_lower {k : GateKind R} {qs : List QubitId} {as : List R}
    {ks : List (Kernel α)} (h : lower k qs as = .ok ks) : k.IsRooted := by
  rcases lower_ok_iff.1 h with ⟨hswap, -⟩ | ⟨-, m, hm, -⟩
  · rw [GateKind.IsRooted, hswap]
    rfl
  · exact isRoot_of_matrix hm

theorem target_mem_of_lower {k : GateKind R} {n : Nat} {qs : List QubitId} (h : k.Fits n qs)
    {as : List R} {ks : List (Kernel α)} (hks : lower k qs as = .ok ks) :
    ∀ κ ∈ ks, κ.target ∈ qs := by
  have hdrop : ∀ t ∈ qs.drop k.numControls, t ∈ qs := fun t ht => List.mem_of_mem_drop ht
  rcases h.targets with ⟨hswap, t, ht⟩ | ⟨hswap, a, b, hab, -⟩
  · rcases lower_ok_iff.1 hks with ⟨heq, -⟩ | ⟨-, m, -, rfl⟩
    · exact absurd heq hswap
    · simpa [ht] using hdrop
  · rcases lower_ok_iff.1 hks with ⟨-, rfl⟩ | ⟨hne, -⟩
    · simp only [hab, List.mem_cons, List.not_mem_nil, or_false, forall_eq_or_imp, forall_eq]
        at hdrop
      simp [exchange, hab, hdrop.1, hdrop.2]
    · exact absurd hswap hne

end Kernel

namespace Step

variable {b : Bindings R} {collapse : Bool}

theorem ofInstruction_gate_iff {i : Instruction R} {g : Gate R} (hg : i.operation = .gate g)
    {steps : List (Step α)} : ofInstruction b collapse i = .ok steps ↔
      ∃ as ks, angles b g.kind.parameters = .ok as ∧ Kernel.lower g.kind i.qubits as = .ok ks ∧
        steps = [.gate ks g.condition] := by
  unfold ofInstruction
  simp only [hg, Except.bind_eq_ok_iff, Except.pure_eq_ok_iff]
  grind

theorem ofInstruction_of_not_gate {i : Instruction R} (h : i.gate? = none) :
    (ofInstruction b false i : Except SimulationError (List (Step α))) = .ok [] := by
  unfold Instruction.gate? at h
  unfold ofInstruction
  cases hop : i.operation with
  | gate g => simp [hop] at h
  | measure => rfl
  | barrier => rfl

theorem exists_ofInstruction_collapse {i : Instruction R}
    (h : ∃ steps : List (Step α), ofInstruction b collapse i = .ok steps) (collapse' : Bool) :
    ∃ steps : List (Step α), ofInstruction b collapse' i = .ok steps := by
  unfold ofInstruction at h ⊢
  cases hop : i.operation with
  | gate g => simpa only [hop] using h
  | measure =>
    simp only []
    split <;> exact ⟨_, rfl⟩
  | barrier => exact ⟨[], rfl⟩

theorem ofInstructions_cons_iff {i : Instruction R} {l : List (Instruction R)}
    {steps : List (Step α)} : ofInstructions b collapse (i :: l) = .ok steps ↔
      ∃ first rest, ofInstruction b collapse i = .ok first ∧
        ofInstructions b collapse l = .ok rest ∧ first ++ rest = steps := by
  simp only [ofInstructions, Except.bind_eq_ok_iff, Except.pure_eq_ok_iff]
  grind

theorem ofInstructions_append {l m : List (Instruction R)} {first rest : List (Step α)}
    (hfirst : ofInstructions b collapse l = .ok first)
    (hrest : ofInstructions b collapse m = .ok rest) :
    ofInstructions b collapse (l ++ m) = .ok (first ++ rest) := by
  induction l generalizing first with
  | nil =>
    obtain rfl := Except.ok.inj hfirst
    exact hrest
  | cons i l ih =>
    obtain ⟨one, others, hone, hothers, rfl⟩ := ofInstructions_cons_iff.1 hfirst
    rw [List.cons_append, List.append_assoc]
    exact ofInstructions_cons_iff.2 ⟨one, _, hone, ih hothers, rfl⟩

theorem exists_ofInstructions_iff {l : List (Instruction R)} :
    (∃ steps : List (Step α), ofInstructions b collapse l = .ok steps) ↔
      ∀ i ∈ l, ∃ steps : List (Step α), ofInstruction b collapse i = .ok steps := by
  induction l with
  | nil => exact ⟨fun _ _ hi => absurd hi List.not_mem_nil, fun _ => ⟨[], rfl⟩⟩
  | cons i l ih =>
    rw [List.forall_mem_cons, ← ih]
    simp only [ofInstructions_cons_iff]
    grind

end Step

def Trajectory.withAmplitudes {α σ : Type} (t : Trajectory α σ) (v : Array α) : Trajectory α σ :=
  { t with state := { t.state with amplitudes := v } }

theorem Trajectory.run_append {σ : Type} [DrawSource σ R] (t : Trajectory α σ)
    (first rest : List (Step α)) : t.run (first ++ rest) = (t.run first).run rest :=
  List.foldl_append

/-! ## Circuits in which nothing depends on a measurement -/

namespace Circuit

omit [Scalar R] in
theorem dynamicFrom_cons {measured : List QubitId} {i : Instruction R} {l : List (Instruction R)} :
    dynamicFrom measured (i :: l) = false ↔ i.isConditional = false ∧
      ((i.isMeasure = true ∧ dynamicFrom (i.qubits ++ measured) l = false) ∨
        i.isMeasure = false ∧ (i.isGate = true → ∀ q ∈ i.qubits, q ∉ measured) ∧
          dynamicFrom measured l = false) := by
  rw [dynamicFrom]
  cases i.isConditional <;> cases i.isMeasure <;> cases i.isGate <;> simp

omit [Scalar R] in
theorem not_isConditional_of_static {measured : List QubitId} {l : List (Instruction R)}
    (h : dynamicFrom measured l = false) : ∀ i ∈ l, i.isConditional = false := by
  induction l generalizing measured with
  | nil => exact fun i hi => absurd hi List.not_mem_nil
  | cons i l ih =>
    obtain ⟨hi, ⟨-, hl⟩ | ⟨-, -, hl⟩⟩ := dynamicFrom_cons.1 h
    · exact List.forall_mem_cons.2 ⟨hi, ih hl⟩
    · exact List.forall_mem_cons.2 ⟨hi, ih hl⟩

end Circuit

end Ancilla
