import Ancilla.Proofs.Session.Realizing
import Ancilla.Proofs.Session.Relaying
import Ancilla.Proofs.Session.Lending
import Ancilla.Proofs.Variable.Decoder
import Ancilla.Variable.Basic

/-!
Loading values. A value is loaded by a flip of each qubit at which its pattern has a 1. With no open
environment the variable is then read as the value; open environments let all of the flips pass or
none, since none of these qubits is among the controls that act on them.
-/

namespace Ancilla

def Placement.x {R : Type} (q : QubitId) : Placement R := ⟨.ofStandard .x, [q], false⟩

def toggleAll (qs : List ℕ) (y : ℕ) : ℕ := qs.foldl toggle y

theorem toggleAll_cons (q : ℕ) (qs : List ℕ) (y : ℕ) :
    toggleAll (q :: qs) y = toggleAll qs (toggle y q) := rfl

/-! ## Patterns -/

def ones (raw : ℕ) : ℕ → List QubitId → List QubitId
  | _, [] => []
  | i, q :: qs => if raw.testBit i then q :: ones raw (i + 1) qs else ones raw (i + 1) qs

theorem toggleAll_ones (raw i : ℕ) {qs : List QubitId} (hqs : qs.Nodup) {y : ℕ}
    (hzero : ∀ q ∈ qs, y.testBit q = false) :
    toggleAll (ones raw i qs) y = write qs (raw / 2 ^ i) y := by
  induction qs generalizing i y with
  | nil => rfl
  | cons q qs ih =>
    obtain ⟨hq, hqs⟩ := List.nodup_cons.1 hqs
    obtain ⟨hfirst, hrest⟩ := List.forall_mem_cons.1 hzero
    have hbit : (raw / 2 ^ i).testBit 0 = raw.testBit i := by
      rw [← Nat.shiftRight_eq_div_pow, Nat.testBit_shiftRight, Nat.add_zero]
    have hhalf : raw / 2 ^ i / 2 = raw / 2 ^ (i + 1) := by
      rw [Nat.pow_succ, Nat.div_div_eq_div_mul]
    rw [write, hbit, hhalf, ones]
    cases hone : raw.testBit i with
    | true =>
      have hset : toggle y q = setBit y q true := by simp [setBit, hfirst]
      rw [if_pos rfl, toggleAll_cons, hset, ih (i + 1) hqs ?_, write_setBit hq]
      intro p hp
      have hne : p ≠ q := ne_of_mem_of_not_mem hp hq
      rw [testBit_setBit_of_ne y hne, hrest p hp]
    | false =>
      have hsame : setBit y q false = y := if_pos hfirst
      rw [if_neg Bool.false_ne_true, ih (i + 1) hqs hrest, ← write_setBit hq, hsame]

theorem readBits_eq_reading (y : ℕ) (qs : List QubitId) :
    Simulator.readBits y qs = reading qs y := by
  induction qs with
  | nil => rfl
  | cons q qs ih =>
    rw [Simulator.readBits, reading, ih]
    cases y.testBit q <;> rfl

/-! ## Flips on their way through open environments -/

section Flips

variable {read : ClbitId → Bool} {b : Bindings ℝ} {fs : List (Frame ℝ)} {y : ℕ}

theorem Placement.ready_x (b : Bindings ℝ) (q : QubitId) : (Placement.x q : Placement ℝ).Ready b :=
  ⟨GateKind.isRooted_standard .x, [], rfl⟩

theorem Placement.operator_x (read : ClbitId → Bool) (b : Bindings ℝ) (q : QubitId) :
    (Placement.x q).operator read b = .onQubit Kernel.flip q := by
  have hplain : (Placement.x q).operator read b = .controlled [] (.onQubit Kernel.flip q) := rfl
  rw [hplain, Operator.controlled_nil]

theorem letsPass_toggle_iff {q : QubitId}
    (hq : q ∉ (exposed fs).reverse.flatMap fun f => f.environment.controls) :
    LetsPass fs read (toggle y q) ↔ LetsPass fs read y := by
  have hadmits : ∀ f ∈ exposed fs, f.Admits read (toggle y q) ↔ f.Admits read y := by
    intro f hf
    have hcontrols : q ∉ f.environment.controls := fun hmem =>
      hq (List.mem_flatMap.2 ⟨f, List.mem_reverse.2 hf, hmem⟩)
    unfold Frame.Admits
    rw [allRead_toggle hcontrols]
  constructor
  · exact fun h => ⟨h.upright, fun f hf => (hadmits f hf).1 (h.admits f hf)⟩
  · exact fun h => ⟨h.upright, fun f hf => (hadmits f hf).2 (h.admits f hf)⟩

def relayedFlips (fs : List (Frame ℝ)) (qs : List QubitId) : List (Placement ℝ) :=
  (qs.map Placement.x).filterMap (relayThrough fs)

theorem relayedFlips_of_inverted (h : Inverted fs) (qs : List QubitId) : relayedFlips fs qs = [] :=
  List.filterMap_eq_nil_iff.2 fun e _ => relayThrough_of_inverted h e

theorem relayedFlips_cons (read : ClbitId → Bool) (b : Bindings ℝ) (hopen : ¬ Inverted fs)
    (q : QubitId) (qs : List QubitId) :
    ∃ e, relayedFlips fs (q :: qs) = e :: relayedFlips fs qs ∧
      Placement.Guards read b ((exposed fs).reverse.flatMap fun f => f.environment.controls)
        (fun y => ∀ f ∈ exposed fs, f.Admits read y) (.x q) e := by
  obtain ⟨e, hrelay, hguards⟩ :=
    (Placement.ready_x b q).guards_relayThrough rfl read hopen
  refine ⟨e, ?_, hguards⟩
  rw [relayedFlips, List.map_cons, List.filterMap_cons, hrelay]
  rfl

theorem ready_relayedFlips (fs : List (Frame ℝ)) (b : Bindings ℝ) (qs : List QubitId) :
    ∀ e ∈ relayedFlips fs qs, e.Ready b := by
  by_cases hopen : Inverted fs
  · rw [relayedFlips_of_inverted hopen]
    exact fun e he => absurd he List.not_mem_nil
  · induction qs with
    | nil => exact fun e he => absurd he List.not_mem_nil
    | cons q qs ih =>
      obtain ⟨e, hsplit, hguards⟩ := relayedFlips_cons (fun _ => false) b hopen q qs
      rw [hsplit]
      exact List.forall_mem_cons.2 ⟨hguards.ready, ih⟩

theorem LetsPass.compose_relayedFlips (h : LetsPass fs read y) {n : ℕ} {qs : List QubitId}
    (hfits : ∀ e ∈ relayedFlips fs qs, e.Fits n) :
    Placement.compose read b (relayedFlips fs qs) (ket y) = ket (toggleAll qs y) := by
  induction qs generalizing y with
  | nil => rfl
  | cons q qs ih =>
    obtain ⟨e, hsplit, hguards⟩ := relayedFlips_cons read b h.upright q qs
    rw [hsplit] at hfits ⊢
    obtain ⟨hfirst, hrest⟩ := List.forall_mem_cons.1 hfits
    -- the operands of a gate are all different, so what is flipped is none of the controls
    have hnodup := hfirst.nodup
    rw [hguards.qubits] at hnodup
    have hq := (List.nodup_append'.1 hnodup).2.2
    have hflipped : LetsPass fs read (toggle y q) :=
      (letsPass_toggle_iff fun hmem => hq hmem List.mem_cons_self).2 h
    rw [Placement.compose, Module.End.mul_apply, hguards.acts y h.admits, Placement.operator_x,
      Operator.flip_ket, ih hflipped hrest, toggleAll_cons]

theorem compose_relayedFlips_of_not (h : ¬ LetsPass fs read y) (qs : List QubitId) :
    Placement.compose read b (relayedFlips fs qs) (ket y) = ket y := by
  by_cases hopen : Inverted fs
  · rw [relayedFlips_of_inverted hopen]
    rfl
  · have hnot : ¬ ∀ f ∈ exposed fs, f.Admits read y := fun hall => h ⟨hopen, hall⟩
    induction qs with
    | nil => rfl
    | cons q qs ih =>
      obtain ⟨e, hsplit, hguards⟩ := relayedFlips_cons read b hopen q qs
      rw [hsplit, Placement.compose, Module.End.mul_apply, hguards.rests y hnot, ih]

theorem FrameStack.Plain.letsPass {fs : FrameStack ℝ} (h : fs.Plain) (read : ClbitId → Bool)
    (y : ℕ) : LetsPass fs.toList read y := by
  constructor
  · rintro ⟨f, hf, henv⟩
    rcases h f hf with hplain | hplain <;> simp [hplain] at henv
  · intro f hf
    have hmem : f ∈ fs.toList := (List.takeWhile_sublist _).mem hf
    rcases h f hmem with hplain | hplain <;>
      simp [Frame.Admits, hplain, Environment.controls, AllRead]

end Flips

/-! ## Loading -/

theorem StateVector.amplitudes_zero_eq_ket (n : ℕ) :
    Ancilla.amplitudes (zero n : StateVector ℂ).amplitudes = ket 0 := by
  funext x
  rw [amplitudes_zero, ket_apply]

theorem Build.exec_of_isOk {R ε : Type} {b : Build R ε Unit} {s : Session R}
    (h : (b.exec s).1.isOk = true) : b.exec s = (.ok (), (b.exec s).2) := by
  refine exec_eq ?_
  revert h
  rcases (b.exec s).1 with e | _
  · exact fun h => absurd h Bool.false_ne_true
  · exact fun _ => rfl

namespace Variable

open Build (exec_bind_ok exec_step_ok)

variable {s t : Session ℝ} {d : Decoder} {name : String} {width : ℕ} {x : Variable} {v : Value}

theorem of_allocate (hs : s.Reachable)
    (h : (allocate name width d : Build ℝ VariableError Variable).exec s = (.ok x, t)) :
    x.decoder = d ∧ x.width = width ∧ x.qubits.Nodup ∧ d.accepts width = true := by
  obtain ⟨_, s₁, hcheck, h⟩ := exec_bind_ok h
  obtain ⟨qs, s₂, hallocate, hpure⟩ := exec_bind_ok h
  obtain ⟨haccepts, rfl⟩ := Prod.mk.inj hcheck
  have hgrant := exec_step_ok hallocate
  obtain ⟨hx, -⟩ := Prod.mk.inj hpure
  obtain rfl := Except.ok.inj hx
  exact ⟨rfl, Session.length_allocate hgrant, (Session.allocate_fresh hs.sound.allocator hgrant).1,
    Decoder.checkWidth_eq_ok_iff.1 haccepts⟩

theorem public_allocate (name : String) (width : ℕ) (d : Decoder) :
    (allocate name width d : Build ℝ VariableError Variable).Public :=
  .bind (.ofExcept _) fun _ => .bind (.allocate _ _) fun _ => .pure _

theorem flipBits_ok {raw i : ℕ} {qs : List QubitId}
    (h : (flipBits raw i qs : Build ℝ VariableError Unit).exec s = (.ok (), t)) :
    s.sendAll ((ones raw i qs).map Placement.x) = .ok t := by
  induction qs generalizing i s with
  | nil =>
    obtain ⟨-, rfl⟩ := Prod.mk.inj h
    rfl
  | cons q qs ih =>
    rw [flipBits] at h
    rw [ones]
    cases hone : raw.testBit i with
    | true =>
      rw [hone, if_pos rfl] at h
      obtain ⟨_, s₁, hfirst, hrest⟩ := exec_bind_ok h
      have hsent := (Session.emit_ok (exec_step_ok hfirst)).2
      exact Session.sendAll_cons.2 ⟨s₁, hsent, ih hrest⟩
    | false =>
      rw [hone, if_neg Bool.false_ne_true] at h
      exact ih h

theorem init_ok (h : (x.init v : Build ℝ VariableError Unit).exec s = (.ok (), t)) :
    ∃ raw, x.encode v = .ok raw ∧ s.sendAll ((ones raw 0 x.qubits).map Placement.x) = .ok t := by
  obtain ⟨raw, s₁, hencode, hflips⟩ := exec_bind_ok h
  obtain ⟨hraw, rfl⟩ := Prod.mk.inj hencode
  exact ⟨raw, hraw, flipBits_ok hflips⟩

theorem init_runs (hs : s.Reachable) (hx : x.qubits.Nodup)
    (h : (x.init v : Build ℝ VariableError Unit).exec s = (.ok (), t)) :
    ∃ raw l, x.encode v = .ok raw ∧ t.emissions = s.emissions ++ l ∧
      ∀ {σ : Type} [DrawSource σ ℝ] (u : Trajectory ℂ σ) (b : Bindings ℝ) (collapse : Bool) {y : ℕ},
        t.circuit.width ≤ u.state.numQubits →
        u.state.amplitudes.size = 2 ^ u.state.numQubits →
        amplitudes u.state.amplitudes = ket y → reading x.qubits y = 0 →
        ∃ steps w, Step.ofInstructions b collapse l = .ok steps ∧ u.run steps = u.withAmplitudes w ∧
          w.size = u.state.amplitudes.size ∧
          (LetsPass s.frames.toList u.read y → amplitudes w = ket (write x.qubits raw y)) ∧
          (¬ LetsPass s.frames.toList u.read y → amplitudes w = ket y) := by
  obtain ⟨raw, hencode, hsent⟩ := init_ok h
  obtain ⟨hout, hfits⟩ := Session.sendAll_relayed hs.registers hsent
  refine ⟨raw, _, hencode, hout, fun {σ} _ u b collapse {y} hwidth hsize hstart hzero => ?_⟩
  have hwide : ∀ e ∈ relayedFlips s.frames.toList (ones raw 0 x.qubits),
      e.Fits u.state.numQubits := fun e he => GateKind.Fits.mono (hfits e he) hwidth
  obtain ⟨steps, hsteps, hrun⟩ := Placement.run_steps σ (ready_relayedFlips _ b _) hwide collapse
  obtain ⟨w, hw, hlast, hamplitudes⟩ := hrun u hsize
  rw [hstart] at hamplitudes
  refine ⟨steps, w, hsteps, hlast, hw.trans hsize.symm, fun hpass => ?_, fun hnot => ?_⟩
  · have hbits : ∀ q ∈ x.qubits, y.testBit q = false := by
      intro q hq
      rw [testBit_of_reading (hzero.trans (reading_zero x.qubits).symm) q hq, Nat.zero_testBit]
    rw [hamplitudes]
    refine (hpass.compose_relayedFlips hwide).trans ?_
    rw [toggleAll_ones raw 0 hx hbits, Nat.pow_zero, Nat.div_one]
  · rw [hamplitudes]
    exact compose_relayedFlips_of_not hnot _

/-- Values are encoded by the patterns that are read as them, and by no others, but for the patterns
whose reading leaves its word, which alone are not read; integers are encoded if they are in range.
A value that is loaded into a variable, at any time after it was allocated, is read back from each
basis state in which the qubits of the variable read 0, if no environment is open or the open ones
let the flips pass; other qubits keep their reading. If the open environments do not let them pass,
the basis state stays the same. -/
theorem values_read_back {d : Decoder} (hd : d.IsDiscrete) {width : ℕ}
    (hwidth : d.accepts width = true) :
    (∀ v raw, d.encode v width = .ok raw →
      raw < 2 ^ width ∧ (¬ d.LeavesWord raw width → d.decode raw width = some v)) ∧
    (∀ raw < 2 ^ width, ¬ d.LeavesWord raw width →
      ∃ v, d.decode raw width = some v ∧ d.encode v width = .ok raw) ∧
    (∀ raw < 2 ^ width, d.decode raw width = none ↔ d.LeavesWord raw width) ∧
    (∀ signed, d = .integer signed → ∀ n : ℤ, (∃ raw, d.encode (.int n) width = .ok raw) ↔
      if signed then -2 ^ (width - 1) ≤ n ∧ n < 2 ^ (width - 1) else 0 ≤ n ∧ n < 2 ^ width) ∧
    ∀ {s s₁ s₂ s₃ : Session ℝ} {name : String} {x : Variable} {v : Value}, s.Reachable →
      (allocate name width d : Build ℝ VariableError Variable).exec s = (.ok x, s₁) →
      s₂.Reachable → (x.init v : Build ℝ VariableError Unit).exec s₂ = (.ok (), s₃) →
      ∃ l, s₃.emissions = s₂.emissions ++ l ∧
        ∀ {σ : Type} [DrawSource σ ℝ] (u : Trajectory ℂ σ) (b : Bindings ℝ) (collapse : Bool)
          {y : ℕ},
          s₃.circuit.width ≤ u.state.numQubits →
          u.state.amplitudes.size = 2 ^ u.state.numQubits →
          amplitudes u.state.amplitudes = ket y → Simulator.readBits y x.qubits = 0 →
          ∃ steps w z, Step.ofInstructions b collapse l = .ok steps ∧
            u.run steps = u.withAmplitudes w ∧ w.size = u.state.amplitudes.size ∧
            amplitudes w = ket z ∧ (∀ q, q ∉ x.qubits → z.testBit q = y.testBit q) ∧
            (s₂.numOpen = 0 ∨ LetsPass s₂.frames.toList u.read y →
              x.encode v = .ok (Simulator.readBits z x.qubits) ∧
              (¬ d.LeavesWord (Simulator.readBits z x.qubits) width →
                x.decode (Simulator.readBits z x.qubits) = some v)) ∧
            (¬ LetsPass s₂.frames.toList u.read y → z = y) := by
  have hread : ∀ {v raw}, d.encode v width = .ok raw →
      raw < 2 ^ width ∧ (¬ d.LeavesWord raw width → d.decode raw width = some v) := by
    intro v raw hencode
    obtain ⟨hraw, rfl⟩ := (Decoder.encode_eq_ok_iff hd hwidth).1 hencode
    exact ⟨hraw, Decoder.decode_eq_meaning hd hwidth hraw⟩
  refine ⟨fun v raw => hread, fun raw hraw hword => ?_,
    fun raw hraw => Decoder.decode_eq_none_iff hd hwidth hraw, ?_, ?_⟩
  · exact ⟨d.meaning raw width, Decoder.decode_eq_meaning hd hwidth hraw hword,
      (Decoder.encode_eq_ok_iff hd hwidth).2 ⟨hraw, rfl⟩⟩
  · rintro signed rfl n
    exact Decoder.exists_encode_int_iff hwidth
  · intro s s₁ s₂ s₃ name x v hs hallocate hs₂ hinit
    obtain ⟨rfl, rfl, hx, -⟩ := of_allocate hs hallocate
    obtain ⟨raw, l, hencode, hout, hruns⟩ := init_runs hs₂ hx hinit
    obtain ⟨hraw, hvalue⟩ := hread hencode
    refine ⟨l, hout, fun {σ} _ u b collapse {y} hwide hsize hstart hzero => ?_⟩
    rw [readBits_eq_reading] at hzero
    obtain ⟨steps, w, hsteps, hrun, hw, hpass, hkept⟩ := hruns u b collapse hwide hsize hstart hzero
    by_cases hlets : LetsPass s₂.frames.toList u.read y
    · refine ⟨steps, w, _, hsteps, hrun, hw, hpass hlets,
        fun q hq => testBit_write_of_not_mem hq raw y, fun _ => ?_, fun hnot => absurd hlets hnot⟩
      rw [readBits_eq_reading, reading_write_of_lt hx hraw]
      exact ⟨hencode, hvalue⟩
    · have hopen : ¬ (s₂.numOpen = 0 ∨ LetsPass s₂.frames.toList u.read y) := by
        rintro (hclosed | hlets')
        · exact hlets ((hs₂.plain hclosed).letsPass u.read y)
        · exact hlets hlets'
      exact ⟨steps, w, y, hsteps, hrun, hw, hkept hlets, fun _ _ => rfl, fun h => absurd h hopen,
        fun _ => rfl⟩

theorem values_read_back_negative :
    ∃ (s s₁ s₂ : Session ℝ) (x : Variable), s = Session.new {} ∧
      x = ⟨"x", [0, 1, 2, 3], .integer true⟩ ∧
      (allocate "x" 4 (.integer true) : Build ℝ VariableError Variable).exec s = (.ok x, s₁) ∧
      (x.init (.int (-3)) : Build ℝ VariableError Unit).exec s₁ = (.ok (), s₂) ∧
      x.encode (.int (-3)) = .ok 13 ∧ x.decode 13 = some (.int (-3)) ∧
      ∃ l, s₂.emissions = s₁.emissions ++ l ∧ ∃ u : Trajectory ℂ (ℕ → ℝ),
        u = ⟨StateVector.zero 4, #[], fun _ => 0⟩ ∧
        ∃ steps w z, Step.ofInstructions [] true l = .ok steps ∧ u.run steps = u.withAmplitudes w ∧
          amplitudes w = ket z ∧ x.decode (Simulator.readBits z x.qubits) = some (.int (-3)) := by
  let s : Session ℝ := Session.new {}
  let x : Variable := ⟨"x", [0, 1, 2, 3], .integer true⟩
  let allocation : Build ℝ VariableError Variable := allocate "x" 4 (.integer true)
  let loading : Build ℝ VariableError Unit := x.init (.int (-3))
  let s₁ := (allocation.exec s).2
  have hallocate : allocation.exec s = (.ok x, s₁) := Build.exec_eq (by rfl)
  have hinit : loading.exec s₁ = (.ok (), (loading.exec s₁).2) :=
    Build.exec_of_isOk (by decide +kernel)
  have hs : s.Reachable := .new {}
  have hd : (Decoder.integer true).IsDiscrete := trivial
  have hwidth : (Decoder.integer true).accepts 4 = true := by decide
  obtain ⟨-, -, -, -, hload⟩ := values_read_back hd hwidth
  have hs₁ : s₁.Reachable := (public_allocate _ _ _).reachable hs hallocate
  obtain ⟨l, hout, hruns⟩ := hload hs hallocate hs₁ hinit
  let u : Trajectory ℂ (ℕ → ℝ) := ⟨StateVector.zero 4, #[], fun _ => 0⟩
  obtain ⟨steps, w, z, hsteps, hrun, -, hlast, -, hread, -⟩ := hruns u [] true (y := 0)
    (by decide +kernel) (StateVector.size_zero 4) (StateVector.amplitudes_zero_eq_ket 4) (by decide)
  have hvalue : Decoder.readInt? 13 4 true = some (-3) := by decide +kernel
  have hword : ∀ raw, ¬ (Decoder.integer true).LeavesWord raw 4 :=
    fun raw h => absurd h.2.1 (by decide)
  exact ⟨s, _, _, x, rfl, rfl, hallocate, hinit, by rfl, congrArg (Option.map Value.int) hvalue, l,
    hout, u, rfl, steps, w, z, hsteps, hrun, hlast, (hread (.inl (by decide +kernel))).2 (hword _)⟩

theorem controlled_value_not_read_back :
    ∃ (s s₁ s₂ : Session ℝ) (x : Variable),
      s = (Session.new {}).after [.allocate 1 "c", .enter (.controlled [0]) "control"] ∧
      (allocate "x" 4 (.integer true) : Build ℝ VariableError Variable).exec s = (.ok x, s₁) ∧
      (x.init (.int (-3)) : Build ℝ VariableError Unit).exec s₁ = (.ok (), s₂) ∧
      s₂.circuit.width = 5 ∧ ∃ u : Trajectory ℂ (ℕ → ℝ),
        u = ⟨StateVector.zero 5, #[], fun _ => 0⟩ ∧ ∃ steps w,
          Step.ofInstructions [] true s₂.emissions = .ok steps ∧ u.run steps = u.withAmplitudes w ∧
          amplitudes w = ket 0 ∧ x.decode (Simulator.readBits 0 x.qubits) = some (.int 0) := by
  let s : Session ℝ :=
    (Session.new {}).after [.allocate 1 "c", .enter (.controlled [0]) "control"]
  let x : Variable := ⟨"x", [1, 2, 3, 4], .integer true⟩
  let allocation : Build ℝ VariableError Variable := allocate "x" 4 (.integer true)
  let loading : Build ℝ VariableError Unit := x.init (.int (-3))
  let s₁ := (allocation.exec s).2
  have hallocate : allocation.exec s = (.ok x, s₁) := Build.exec_eq (by rfl)
  have hinit : loading.exec s₁ = (.ok (), (loading.exec s₁).2) :=
    Build.exec_of_isOk (by decide +kernel)
  have hs : s₁.Reachable :=
    (public_allocate _ _ _).reachable ((Session.Reachable.new {}).after _) hallocate
  obtain ⟨raw, l, -, hout, hruns⟩ := init_runs hs (by decide) hinit
  let u : Trajectory ℂ (ℕ → ℝ) := ⟨StateVector.zero 5, #[], fun _ => 0⟩
  -- the control is open and reads 0
  have hnot : ¬ LetsPass s₁.frames.toList u.read 0 := by
    have henv : s₁.frames.top.environment = .controlled [0] := by decide +kernel
    have hexposed : s₁.frames.top ∈ exposed s₁.frames.toList := by
      rw [FrameStack.toList, exposed, List.takeWhile_cons_of_pos (by decide +kernel)]
      exact List.mem_cons_self
    intro hpass
    have hread := (hpass.admits _ hexposed).1
    rw [henv] at hread
    exact absurd (hread 0 List.mem_cons_self) (by decide)
  obtain ⟨steps, w, hsteps, hrun, -, -, hlast⟩ := hruns u [] true (y := 0) (by decide +kernel)
    (StateVector.size_zero 5) (StateVector.amplitudes_zero_eq_ket 5) (by decide)
  have hbefore : s₁.emissions = [] := by decide +kernel
  rw [hbefore, List.nil_append] at hout
  have hvalue : Decoder.readInt? 0 4 true = some 0 := by decide +kernel
  exact ⟨s, s₁, _, x, rfl, hallocate, hinit, by decide +kernel, u, rfl, steps, w, hout ▸ hsteps,
    hrun, hlast hnot, congrArg (Option.map Value.int) hvalue⟩

end Variable

end Ancilla
