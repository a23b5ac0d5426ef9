import Ancilla.Proofs.Gate.Adjoint

/-!
Further controls. The kinds that can be made from named gates by adding controls and taking adjoints
are a root under a number of controls, by the name it goes by; so they are known from the two, however
they were made. Adding controls adds to the number only, and the adjoint changes the root only.
-/

namespace Ancilla

namespace GateKind

variable {R : Type} {k : GateKind R}

theorem IsCanonical.withControls_zero (h : k.IsCanonical) : k.withControls 0 = k := h

variable [Scalar R]

theorem IsRooted.adjoint_withControls (h : k.IsRooted) (n : ℕ) :
    (k.withControls n).adjoint = k.adjoint.withControls n := by
  rw [(h.withControls n).adjoint_eq, h.root_withControls, h.numControls_withControls,
    GateKind.withControls, h.splitControls_adjoint]

theorem made_iff : k.Made ↔ k.IsRooted ∧ k.IsCanonical := by
  constructor
  · exact fun h => ⟨h.isRooted, h.isCanonical⟩
  · rintro ⟨hroot, hname⟩
    have hsplit : (GateKind.standard k.root).splitControls = (k.root, 0) := hroot
    have hmade := (Made.standard k.root).withControls k.numControls
    rwa [GateKind.withControls, hsplit, Nat.zero_add, hname] at hmade

/-- Controls act on the kinds that can be made: adding none changes nothing, adding some and then
others is adding all of them, and the adjoint may be taken before or after. The root, its angles and
what it does to its targets stay, and the operands grow by the controls. -/
theorem Made.controls_act (h : k.Made) (m n : ℕ) :
    (k.withControls m).withControls n = k.withControls (m + n) ∧
    k.withControls 0 = k ∧
    (k.withControls n).splitControls = (k.splitControls.1, k.splitControls.2 + n) ∧
    (k.withControls n).numQubits = k.numQubits + n ∧
    (k.withControls n).parameters = k.parameters ∧
    (k.withControls n).action = k.action ∧
    (k.withControls n).adjoint = k.adjoint.withControls n := by
  obtain ⟨hroot, hname⟩ := made_iff.1 h
  exact ⟨hroot.withControls_withControls m n, hname.withControls_zero,
    hroot.splitControls_withControls n, hroot.numQubits_withControls n,
    hroot.parameters_withControls n, hroot.action_withControls n, hroot.adjoint_withControls n⟩

theorem controls_act_phase :
    ∃ k : GateKind Float, k = (standard (.p (.symbol "t"))).adjoint ∧ k.Made ∧
      k.withControls 1 = standard (.cp (.neg (.symbol "t"))) ∧
      (k.withControls 1).withControls 2 = controlled (.p (.neg (.symbol "t"))) 3 "c3p" ∧
      (k.withControls 2).splitControls = (.p (.neg (.symbol "t")), 2) ∧
      (k.withControls 2).numQubits = 3 ∧
      (k.withControls 2).parameters = [.neg (.symbol "t")] ∧
      (k.withControls 2).action = .diagonal ∧
      (k.withControls 2).adjoint = (standard (.p (.symbol "t"))).withControls 2 := by
  have hmade : (standard (.p (.symbol "t")) : GateKind Float).adjoint.Made :=
    (Made.standard _).adjoint
  obtain ⟨hsum, -, hsplit, hqubits, hparameters, haction, hadjoint⟩ := hmade.controls_act 1 2
  exact ⟨_, rfl, hmade, rfl, hsum, hsplit, hqubits, hparameters, haction, hadjoint⟩

end GateKind

end Ancilla
