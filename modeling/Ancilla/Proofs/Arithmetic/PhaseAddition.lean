import Ancilla.Arithmetic.Adder
import Ancilla.Proofs.Arithmetic.Fourier
import Ancilla.Proofs.Arithmetic.Rejection
import Ancilla.Proofs.Session.Steady

/-!
Addition in the Fourier basis. The phases of a source register give every qubit of a transformed
target the turns of the source below it; what lies above makes whole turns, so that together they
are the phases of the number that the source holds. Main statement: between the transform and its
inverse, a constant or a register is added modulo the size of the target.
-/

namespace Ancilla.Adder

open Build Operator Ancilla.Fourier

/-! ## The phases of a register -/

theorem cascadeFactor_eq (t s : ℕ) (below above : List ℕ) (x : ℕ) :
    cascadeFactor t 0 (s :: below) x =
      turn (reading (below.reverse ++ s :: above) x * fraction below.length [t] x) := by
  have hsplit : below.reverse ++ s :: above = (s :: below).reverse ++ above := by
    rw [List.reverse_cons, List.append_assoc, List.singleton_append]
  have hlast : fraction (below.length + 1) [] x = 0 := rfl
  rw [cascadeFactor, hsplit, reading_append, Nat.zero_add, cast_bitWeight, List.length_reverse,
    List.length_cons, fraction_cons, hlast, add_zero]
  cases x.testBit t with
  | false => simp [turn_zero]
  | true =>
    rw [if_pos rfl, Bool.toNat_true]
    refine (turn_eq_of_sub (n := reading above x) ?_).symm
    push_cast
    field_simp
    ring

theorem addRegister_realizes {below qs : List QubitId} {pairs : List (QubitId × QubitId)}
    (hpairs : ∀ p ∈ pairs, p.1 ∈ qs ∧ p.2 ∈ qs) (hbelow : ∀ q ∈ below, q ∈ qs)
    (hapart : ∀ p ∈ pairs, p.1 ∉ below ++ pairs.map Prod.snd) :
    Realizes (addRegister below pairs : Synthesis ℝ Unit) qs
      (diagonal fun x => turn (reading (below.reverse ++ pairs.map Prod.snd) x *
        fraction below.length (pairs.map Prod.fst) x)) := by
  induction pairs generalizing below with
  | nil =>
    simp only [List.map_nil, fraction, mul_zero, turn_zero, diagonal_one]
    exact realizes_pure qs
  | cons pair rest ih =>
    obtain ⟨t, s⟩ := pair
    obtain ⟨ht, hs⟩ := hpairs (t, s) List.mem_cons_self
    have hbelow' : ∀ q ∈ s :: below, q ∈ qs := List.forall_mem_cons.2 ⟨hs, hbelow⟩
    have hmem : ∀ q, q ∈ (s :: below) ++ rest.map Prod.snd →
        q ∈ below ++ ((t, s) :: rest).map Prod.snd := by
      intro q hq
      simp only [List.map_cons, List.cons_append, List.mem_cons, List.mem_append] at hq ⊢
      tauto
    have hcascade : Realizes (cascade t 0 (s :: below) : Synthesis ℝ Unit) qs
        (diagonal (cascadeFactor t 0 (s :: below))) := by
      refine cascade_realizes 0 ht fun q hq => ⟨hbelow' q hq, ?_⟩
      rintro rfl
      exact hapart (q, s) List.mem_cons_self (hmem q (List.mem_append_left _ hq))
    have hrest := ih (fun p hp => hpairs p (List.mem_cons_of_mem _ hp)) hbelow'
      fun p hp hq => hapart p (List.mem_cons_of_mem _ hp) (hmem _ hq)
    have hboth := hcascade.bind hrest
    rw [diagonal_mul_diagonal] at hboth
    have hfactor : ∀ x, turn (reading (below.reverse ++ ((t, s) :: rest).map Prod.snd) x *
          fraction below.length (((t, s) :: rest).map Prod.fst) x) =
        turn (reading ((s :: below).reverse ++ rest.map Prod.snd) x *
          fraction (s :: below).length (rest.map Prod.fst) x) * cascadeFactor t 0 (s :: below) x := by
      intro x
      have hfirst : fraction below.length (((t, s) :: rest).map Prod.fst) x =
          fraction below.length [t] x + fraction (below.length + 1) (rest.map Prod.fst) x :=
        fraction_append below.length [t] (rest.map Prod.fst) x
      rw [cascadeFactor_eq t s below (rest.map Prod.snd), hfirst, List.map_cons, mul_add, turn_add,
        mul_comm (turn _), List.reverse_cons, List.append_assoc, List.singleton_append,
        List.length_cons]
    simp only [hfactor]
    exact hboth

theorem diagonal_operator_congr {reg : List ℕ} (h : reg.Nodup) {d e : ℕ → ℂ} {y : ℕ}
    (hde : ∀ x, AgreeOff reg x y → d x = e x) :
    diagonal d (operator reg (ket y)) = diagonal e (operator reg (ket y)) := by
  funext x
  rw [diagonal_apply, diagonal_apply, operator, descent_ket (List.nodup_reverse.2 h)]
  split
  · next hoff => rw [hde x fun p hp => hoff p fun hmem => hp (List.mem_reverse.1 hmem)]
  · rw [mul_zero, mul_zero]

theorem carries_addTo_reading {target source : List ℕ} (h : target.Nodup)
    (hapart : ∀ q ∈ source, q ∉ target) (y : ℕ) :
    Carries (operator target) (diagonal fun x => turn (reading source x * fraction 0 target x)) y
      (addTo target (reading source y) y) := by
  have hconstant := carries_addTo h (reading source y) y
  unfold Carries at hconstant ⊢
  rw [← hconstant]
  refine diagonal_operator_congr h fun x hx => ?_
  rw [reading_congr fun q hq => hx q (hapart q hq), Int.cast_natCast]

/-! ## The adders -/

variable {target source : Variable}

theorem addConstant_realizes (hwidth : Synthesis.Supported target.width)
    (hnodup : target.qubits.Nodup) (c : ℤ) :
    ∃ A, Realizes (addConstant target c : Synthesis ℝ Unit) target.qubits A ∧
      ∀ y, A (ket y) = ket (addTo target.qubits c y) := by
  have hwide : target.qubits.length ≤ Fourier.maxWidth := hwidth.2.trans (by decide)
  have htransform := transform_realizes hnodup hwidth.1 hwide
  have hall := (realizes_ofExcept ((Synthesis.checks_width "add_constant" _).1 hwidth) _).bind
    (htransform.conjugate "add_constant" (phaseAddConstant_realizes _ hwidth.1 hwide c))
  rw [mul_one] at hall
  exact ⟨_, hall, fun y => conjugate_apply htransform.isUnit (carries_addTo hnodup c y)⟩

theorem add_realizes (hwidth : Synthesis.Supported target.width) (hsame : target.width = source.width)
    (hnodup : (target.qubits ++ source.qubits).Nodup) :
    ∃ A, Realizes (add target source : Synthesis ℝ Unit) (target.qubits ++ source.qubits) A ∧
      ∀ y, A (ket y) = ket (addTo target.qubits (reading source.qubits y) y) := by
  obtain ⟨htarget, -, hdis⟩ := List.nodup_append'.1 hnodup
  have hfst : (target.qubits.zip source.qubits).map Prod.fst = target.qubits :=
    List.map_fst_zip hsame.le
  have hsnd : (target.qubits.zip source.qubits).map Prod.snd = source.qubits :=
    List.map_snd_zip hsame.ge
  have htransform := (transform_realizes htarget hwidth.1 (hwidth.2.trans (by decide))).mono
    fun q hq => List.mem_append_left source.qubits hq
  have hpairs : ∀ p ∈ target.qubits.zip source.qubits,
      p.1 ∈ target.qubits ++ source.qubits ∧ p.2 ∈ target.qubits ++ source.qubits := fun p hp =>
    (List.of_mem_zip hp).imp (List.mem_append_left _) (List.mem_append_right _)
  have hapart : ∀ p ∈ target.qubits.zip source.qubits,
      p.1 ∉ [] ++ (target.qubits.zip source.qubits).map Prod.snd := by
    intro p hp hq
    rw [List.nil_append, hsnd] at hq
    exact hdis (List.of_mem_zip hp).1 hq
  have hphases := addRegister_realizes hpairs (fun q hq => absurd hq List.not_mem_nil) hapart
  rw [hfst, hsnd, List.reverse_nil, List.nil_append, List.length_nil] at hphases
  have hall := (realizes_ofExcept ((Synthesis.checks_width "add" _).1 hwidth) _).bind
    ((realizes_ofExcept ((Synthesis.checks_sameWidth "add" _ _).1 hsame) _).bind
      (htransform.conjugate "add" hphases))
  rw [mul_one, mul_one] at hall
  exact ⟨_, hall, fun y => conjugate_apply htransform.isUnit
    (carries_addTo_reading htarget (fun q hq hq' => hdis hq' hq) y)⟩

variable {s : Session ℝ}

theorem addConstant_stops (hwidth : Synthesis.Supported target.width) (c : ℤ)
    (hp : s.isPoisoned = true) : Stops (addConstant target c : Synthesis ℝ Unit) s :=
  .after ((Synthesis.checks_width _ _).1 hwidth) (stops_within hp _ _ _)

theorem add_stops (hwidth : Synthesis.Supported target.width) (hsame : target.width = source.width)
    (hp : s.isPoisoned = true) : Stops (add target source : Synthesis ℝ Unit) s :=
  .after ((Synthesis.checks_width _ _).1 hwidth)
    (.after ((Synthesis.checks_sameWidth _ _ _).1 hsame) (stops_within hp _ _ _))

/-- A register to which a number is added modulo its size, and nothing else. -/
def Gains (target : Variable) (v : ℤ) (y z : ℕ) : Prop :=
  (reading target.qubits z : ℤ) = (reading target.qubits y + v) % 2 ^ target.width ∧
    ∀ q, q ∉ target.qubits → z.testBit q = y.testBit q

theorem gains_addTo (h : target.qubits.Nodup) (v : ℤ) (y : ℕ) :
    Gains target v y (addTo target.qubits v y) :=
  ⟨reading_addTo h v y, fun _ hq => testBit_write_of_not_mem hq _ y⟩

/-- Addition by phases. With no open environment, on distinct qubits in use, a constant, which may be
negative, is added to a register modulo its size, and so is what another register of its width holds.
Every basis state goes to the one with the sum, with amplitude 1, and all other qubits, those of the
other register among them, are as they were. Only a poisoned session refuses. -/
theorem phaseAdders_move (hs : s.Reachable) (hopen : s.numOpen = 0)
    (hwidth : 1 ≤ target.width ∧ target.width ≤ 32) (hnodup : target.qubits.Nodup)
    (hlive : ∀ q ∈ target.qubits, s.allocator.isLive q = true) :
    (∀ c : ℤ,
      (s.isPoisoned = false → Moves (addConstant target c : Synthesis ℝ Unit) s target.qubits
        (fun _ => True) fun y z => Gains target c y z) ∧
      (s.isPoisoned = true → Stops (addConstant target c : Synthesis ℝ Unit) s)) ∧
    ∀ source : Variable, target.width = source.width →
      (target.qubits ++ source.qubits).Nodup →
      (∀ q ∈ source.qubits, s.allocator.isLive q = true) →
        (s.isPoisoned = false → Moves (add target source : Synthesis ℝ Unit) s
          (target.qubits ++ source.qubits) (fun _ => True) fun y z =>
            Gains target (reading source.qubits y) y z) ∧
        (s.isPoisoned = true → Stops (add target source : Synthesis ℝ Unit) s) := by
  refine ⟨fun c => ⟨fun hp => ?_, addConstant_stops hwidth c⟩,
    fun source hsame hall hlive' => ⟨fun hp => ?_, add_stops hwidth hsame⟩⟩
  · obtain ⟨A, hA, hket⟩ := addConstant_realizes hwidth hnodup c
    exact hA.moves hs hp hopen hlive fun y _ => ⟨_, hket y, gains_addTo hnodup c y⟩
  · obtain ⟨A, hA, hket⟩ := add_realizes hwidth hsame hall
    have hused : ∀ q ∈ target.qubits ++ source.qubits, s.allocator.isLive q = true := fun q hq =>
      (List.mem_append.1 hq).elim (hlive q) (hlive' q)
    exact hA.moves hs hp hopen hused fun y _ => ⟨_, hket y, gains_addTo hnodup _ y⟩

theorem phaseAdders_move_three_bits :
    ∃ s : Session ℝ, s = (Session.new {}).after [.allocate 3 "target", .allocate 3 "source"] ∧
      Moves (addConstant ⟨"target", [0, 1, 2], .integer false⟩ (-13) : Synthesis ℝ Unit) s
        [0, 1, 2] (fun _ => True)
        (fun y z => Gains ⟨"target", [0, 1, 2], .integer false⟩ (-13) y z) ∧
      Moves (add ⟨"target", [0, 1, 2], .integer false⟩ ⟨"source", [3, 4, 5], .integer false⟩ :
          Synthesis ℝ Unit) s [0, 1, 2, 3, 4, 5] (fun _ => True)
        (fun y z => Gains ⟨"target", [0, 1, 2], .integer false⟩ (reading [3, 4, 5] y) y z) := by
  let target : Variable := ⟨"target", [0, 1, 2], .integer false⟩
  have hnodup : target.qubits.Nodup := by decide
  have hmoves := phaseAdders_move
    ((Session.Reachable.new (R := ℝ) {}).after [.allocate 3 "target", .allocate 3 "source"])
    (by decide +kernel) (by decide) hnodup (by decide +kernel)
  have hp : ((Session.new {} : Session ℝ).after
      [.allocate 3 "target", .allocate 3 "source"]).isPoisoned = false := by decide +kernel
  refine ⟨_, rfl, (hmoves.1 (-13)).1 hp, ?_⟩
  exact (hmoves.2 ⟨"source", [3, 4, 5], .integer false⟩ rfl (by decide) (by decide +kernel)).1 hp

end Ancilla.Adder
