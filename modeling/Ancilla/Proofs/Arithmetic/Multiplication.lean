import Ancilla.Proofs.Arithmetic.Power
import Ancilla.Proofs.Session.Unwinding

/-!
Multiplication in place, with the qubits that it borrows. The work register and the flag are handed
out at the start, read 0 again when the multiplication declares them restored, and are returned: the
declarations are its last calls but for the one that closes its scope, and nothing is emitted behind
them.
-/

namespace Ancilla

variable {R : Type} [Scalar R]

open Build (Public Makes)

/-! ## The calls of a multiplication -/

namespace Fourier

theorem cascade_public (target : QubitId) (k : ℕ) (qs : List QubitId) :
    Public (cascade target k qs : Synthesis R Unit) := by
  induction qs generalizing k with
  | nil => exact .pure ()
  | cons q qs ih => exact .bind (.apply _ _) fun _ => ih (k + 1)

theorem transformDown_public (qs : List QubitId) :
    Public (transformDown qs : Synthesis R Unit) := by
  induction qs with
  | nil => exact .pure ()
  | cons q qs ih => exact .bind (.apply _ _) fun _ => .bind (cascade_public q 1 qs) fun _ => ih

theorem transform_public (reg : List QubitId) : Public (transform reg : Synthesis R Unit) :=
  .bind (.ofExcept _) fun _ => transformDown_public _

theorem addPhases_public (c : ℤ) (t : ℕ) (qs : List QubitId) :
    Public (addPhases c t qs : Synthesis R Unit) := by
  induction qs generalizing t with
  | nil => exact .pure ()
  | cons q qs ih =>
    unfold addPhases
    simp only []
    split
    · exact .bind (.apply _ _) fun _ => ih (t + 1)
    · exact ih (t + 1)

theorem phaseAddConstant_public (reg : List QubitId) (c : ℤ) :
    Public (phaseAddConstant reg c : Synthesis R Unit) :=
  .bind (.ofExcept _) fun _ => addPhases_public c 0 reg

end Fourier

namespace Modular

open Ancilla.Fourier

theorem addConstant_public (b : List QubitId) (a modulus : ℕ) (flag : QubitId)
    (controls : List QubitId) :
    Public (addConstant b a modulus flag controls : Synthesis R Unit) := by
  unfold addConstant
  split
  · exact .throw _
  · have hphase : ∀ c : ℤ, Public (phaseAddConstant b c : Synthesis R Unit) :=
      phaseAddConstant_public b
    have hinverse : Public (inverseTransform b : Synthesis R Unit) := (transform_public b).invert
    refine .bind (.ofExcept _) fun _ => .bind ((hphase _).underControls controls) fun _ => ?_
    refine .bind (hphase _) fun _ => .bind (.conjugate _ hinverse fun _ => .apply _ _) fun _ => ?_
    refine .bind ((hphase _).control _) fun _ => .bind ?_ fun _ => .assertRestored _
    refine .conjugate _ ((hphase _).underControls controls) fun _ => ?_
    exact .conjugate _ (.bind hinverse fun _ => .apply _ _) fun _ => .apply _ _

theorem multiplyAccumulate_public (x b : List QubitId) (a modulus : ℕ) (flag : QubitId)
    (controls : List QubitId) :
    Public (multiplyAccumulate x b a modulus flag controls : Synthesis R Unit) := by
  refine .conjugate _ (transform_public b) fun _ => ?_
  generalize a % modulus = term
  induction x generalizing term with
  | nil => exact .pure ()
  | cons q x ih => exact .bind (addConstant_public _ _ _ _ _) fun _ => ih _

theorem productInPlace_public (x b : List QubitId) (a inverse modulus : ℕ) (flag : QubitId)
    (controls : List QubitId) :
    Public (productInPlace x b a inverse modulus flag controls) :=
  .bind (multiplyAccumulate_public _ _ _ _ _ _) fun _ =>
    .bind (.underControls _ (.forM fun _ => .apply _ _)) fun _ =>
      (multiplyAccumulate_public _ _ _ _ _ _).invert

end Modular

theorem Build.ScopeRun.makes {ε : Type} [FromSession ε] {label name name' : String} {n : ℕ}
    {body : List QubitId → QubitId → Build ℝ ε Unit} {s s' : Session ℝ}
    (r : ScopeRun label name name' n body s s') (hbody : ∀ b flag, Public (body b flag)) :
    ∃ cs, Makes (fun _ => False) (scope label (borrowing n name name' body)) s
      (cs ++ [.assertRestored r.register, .assertRestored [r.flag], .exit r.id]) ∧
      s.after cs = r.done := by
  have hregister : Makes (fun _ => False) (allocate n name : Build ℝ ε (List QubitId)) r.opened
      [.allocate n name] := .allocate n name r.opened
  obtain ⟨fs, hflag⟩ := Public.makes (ε := ε) (.allocateOne name') r.lent
  obtain ⟨bs, hrun⟩ := (hbody r.register r.flag).makes r.ready
  have hdeclared : Makes (fun _ => False)
      (assertRestored r.register >>= fun _ => assertRestored [r.flag] : Build ℝ ε Unit) r.done
      ([.assertRestored r.register] ++ [.assertRestored [r.flag]]) :=
    .bind_ok (.assertRestored _ _) (exec_of_step r.clears) (.assertRestored _ _)
  have hinside : Makes (fun _ => False) (borrowing n name name' body) r.opened
      ([.allocate n name] ++ (fs ++ (bs ++
        ([.assertRestored r.register] ++ [.assertRestored [r.flag]])))) := by
    unfold borrowing
    refine .bind_ok hregister (exec_of_step r.lends) ?_
    refine .bind_ok hflag (exec_allocateOne r.flags) ?_
    exact .bind_ok hrun r.runs hdeclared
  refine ⟨.enter .scope label :: .allocate n name :: (fs ++ bs), ?_, ?_⟩
  · have hwhole := Makes.within_closed r.opens hinside r.inside
    simp only [List.cons_append, List.nil_append, List.append_assoc] at hwhole ⊢
    exact hwhole
  · have hopened : ((Call.enter .scope label).perform s).2 = r.opened := congrArg Prod.snd r.opens
    have hlent : ((Call.allocate n name).perform r.opened).2 = r.lent := congrArg Prod.snd r.lends
    have hready : r.lent.after fs = r.ready := by
      rw [← hflag.exec_eq, exec_allocateOne (ε := ε) r.flags]
    have hdone : r.ready.after bs = r.done := by rw [← hrun.exec_eq, r.runs]
    rw [Session.after_cons, hopened, Session.after_cons, hlent, Session.after_append, hready, hdone]

namespace Modular

open Build Operator

/-- Multiplication in place. Between environments, with the register and distinct controls in use,
the call succeeds and borrows a work register `b`, one qubit wider, and a flag. What it emits takes
every basis state whose register reads less than the modulus, and in which the borrowed qubits read
0, to the basis state with the register multiplied if all controls read 1, and with all other qubits
as they were; so the borrowed qubits read 0 when it declares them restored, with nothing emitted
behind that. -/
theorem multiply_restores {s : Session ℝ} (hs : s.Reachable) (hp : s.isPoisoned = false)
    (hopen : s.numOpen = 0) (hunlimited : s.allocator.capacity = none) {x : Variable}
    {controls : List QubitId} (hlive : ∀ q ∈ controls ++ x.qubits, s.allocator.isLive q = true)
    (hnodup : (controls ++ x.qubits).Nodup) {a modulus : ℕ} (hwidth : 1 ≤ x.width ∧ x.width ≤ 32)
    (hmodulus : 2 ≤ modulus ∧ modulus ≤ 2 ^ x.width) (hcoprime : Nat.gcd a modulus = 1) :
    ∃ (s' : Session ℝ) (l : List (Instruction ℝ)) (b : List QubitId) (flag : QubitId),
      (multiply x a modulus controls : Synthesis ℝ Unit).exec s = (.ok (), s') ∧
      s'.isPoisoned = false ∧ s'.numOpen = 0 ∧
      (∀ q, s'.allocator.isLive q = s.allocator.isLive q) ∧ s'.emissions = s.emissions ++ l ∧
      b.length = x.width + 1 ∧ s.circuit.HandsOut s'.circuit (b ++ [flag]) ∧
      (∀ q ∈ b ++ [flag], s.allocator.isLive q = false) ∧
      (∀ i ∈ l, ∀ q ∈ i.qubits, q ∈ controls ++ x.qubits ∨ q ∈ b ++ [flag]) ∧
      (∃ cs id, Makes (fun _ => False) (multiply x a modulus controls : Synthesis ℝ Unit) s
          (cs ++ [.assertRestored b, .assertRestored [flag], .exit id]) ∧
        (s.after cs).emissions = s'.emissions) ∧
      ∀ (σ : Type) [DrawSource σ ℝ] (t : Trajectory ℂ σ) (bindings : Bindings ℝ) (collapse : Bool)
        (y : ℕ), s'.circuit.width ≤ t.state.numQubits →
        t.state.amplitudes.size = 2 ^ t.state.numQubits →
        amplitudes t.state.amplitudes = ket y → reading x.qubits y < modulus →
        (∀ q ∈ b ++ [flag], y.testBit q = false) →
        ∃ steps v z, Step.ofInstructions bindings collapse l = .ok steps ∧
          t.run steps = t.withAmplitudes v ∧ v.size = t.state.amplitudes.size ∧
          amplitudes v = ket z ∧
          reading x.qubits z =
            (if AllRead controls y then a * reading x.qubits y % modulus
              else reading x.qubits y) ∧
          (∀ q, q ∉ x.qubits → z.testBit q = y.testBit q) ∧
          ∀ q ∈ b ++ [flag], z.testBit q = false := by
  have h : Factor x a modulus :=
    ⟨hwidth.1, hwidth.2, hmodulus.1, hmodulus.2, hcoprime⟩
  have hx : x.qubits.Nodup := (List.nodup_append'.1 hnodup).2.1
  have hidle := hs.idle hp hopen hunlimited
  obtain ⟨inverse, hinverse, heq⟩ := h.multiply_eq controls
  obtain ⟨s', r, es, happended, hact⟩ := scope_run (ε := SynthesisError)
    (h.body_realizes hnodup hinverse) "mod_multiply" "work" "flag" hidle hlive
  obtain ⟨cs, hmakes, hafter⟩ := r.makes fun b flag => productInPlace_public _ _ _ _ _ _ _
  refine ⟨s', es.map Placement.instruction, r.register, r.flag, ?_, happended.idle.unpoisoned,
    happended.idle.numOpen, happended.live, happended.emissions, r.length, happended.handed,
    happended.fresh, happended.among, ⟨cs, r.id, ?_, ?_⟩, ?_⟩
  · rw [heq, r.whole]
  · rw [heq]
    exact hmakes
  · rw [hafter, r.emissions]
  · intro σ _ t bindings collapse y hsize hpow hstart hy hzero
    obtain ⟨steps, v, hsteps, hrun, hv, hlast⟩ := happended.runs hidle hlive σ t bindings collapse
      (hact t.read bindings y hy hzero) hsize hpow hstart
    have hvalue : (if AllRead controls y then a * reading x.qubits y % modulus
        else reading x.qubits y) < 2 ^ x.qubits.length := by
      split
      · exact h.lt_size _
      · exact hy.trans_le h.fits
    have hout : ∀ q, q ∉ x.qubits →
        (scaled x.qubits controls a modulus y).testBit q = y.testBit q := fun q hq =>
      testBit_write_of_not_mem hq _ y
    refine ⟨steps, v, scaled x.qubits controls a modulus y, hsteps, hrun, hv, hlast,
      reading_write_of_lt hx hvalue y, hout, fun q hq => ?_⟩
    have hborrowed : q ∉ x.qubits := by
      intro hmem
      have hlive' := hlive q (List.mem_append_right _ hmem)
      rw [happended.fresh q hq] at hlive'
      exact Bool.false_ne_true hlive'
    rw [hout q hborrowed, hzero q hq]

def operand : Variable := ⟨"x", [1, 2], .integer false⟩

theorem multiply_restores_controlled :
    ∃ s : Session ℝ, s = (Session.new {}).after [.allocate 1 "control", .allocate 2 "x"] ∧
      ∃ (s' : Session ℝ) (b : List QubitId) (flag : QubitId),
        (multiply operand 7 4 [0] : Synthesis ℝ Unit).exec s = (.ok (), s') ∧ b.length = 3 ∧
        (∀ q ∈ b ++ [flag], s.allocator.isLive q = false) ∧
        ∃ cs id, Makes (fun _ => False) (multiply operand 7 4 [0] : Synthesis ℝ Unit) s
          (cs ++ [.assertRestored b, .assertRestored [flag], .exit id]) := by
  refine ⟨_, rfl, ?_⟩
  have hreach := (Session.Reachable.new (R := ℝ) {}).after
    [.allocate 1 "control", .allocate 2 "x"]
  have hlive : ∀ q ∈ [0] ++ operand.qubits, ((Session.new {} : Session ℝ).after
      [.allocate 1 "control", .allocate 2 "x"]).allocator.isLive q = true := by
    decide +kernel
  have hmodulus : 2 ≤ 4 ∧ 4 ≤ 2 ^ operand.width := by decide
  have hcoprime : Nat.gcd 7 4 = 1 := by decide
  obtain ⟨s', l, b, flag, hexec, -, -, -, -, hlength, -, hfresh, -, ⟨cs, id, hmakes, -⟩, -⟩ :=
    multiply_restores hreach (by decide +kernel) (by decide +kernel) (by decide +kernel) hlive
      (by decide) (by decide) hmodulus hcoprime
  exact ⟨s', b, flag, hexec, hlength, hfresh, cs, id, hmakes⟩

end Modular

end Ancilla
