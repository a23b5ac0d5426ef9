import Ancilla.Proofs.Session.Steady
import Ancilla.Proofs.Simulation.Projection

/-!
Constructions that measure on the way and act on what they have read. In a run with decided outcomes
such a construction acts on the amplitudes as an operator, a different one for different outcomes. It
performs a function on basis states if all these operators take basis states where the function
takes them, times one and the same factor.
-/

namespace Ancilla

/-! ## Projections -/

namespace Operator

def reads {α : Type} [CommRing α] (q : ℕ) (outcome : Bool) : Operator α :=
  diagonal fun x => if x.testBit q = outcome then 1 else 0

theorem reads_ket {α : Type} [CommRing α] (q : ℕ) (outcome : Bool) (y : ℕ) :
    (reads q outcome (ket y) : ℕ → α) = if y.testBit q = outcome then ket y else 0 := by
  rw [reads, diagonal_ket]
  split
  · exact one_smul _ _
  · exact zero_smul _ _

theorem apply_of_kets {A : Operator ℂ} {κ : ℂ} {P : ℕ → Prop} {f : ℕ → ℕ}
    (hA : ∀ y, P y → A (ket y) = κ • ket (f y)) (hf : ∀ x y, P x → P y → f x = f y → x = y)
    {v : Array ℂ} (hv : ∀ y, ¬P y → amplitudes v y = 0) :
    (∀ y, P y → A (amplitudes v) (f y) = κ * amplitudes v y) ∧
      ∀ z, (∀ y, P y → f y ≠ z) → A (amplitudes v) z = 0 := by
  have hsum : amplitudes v = ∑ x ∈ Finset.range v.size, amplitudes v x • (ket x : ℕ → ℂ) := by
    funext y
    simp only [Finset.sum_apply, Pi.smul_apply, ket_apply, smul_eq_mul, mul_ite, mul_one, mul_zero,
      Finset.sum_ite_eq, Finset.mem_range]
    split
    · rfl
    · next hy => exact amplitudes_of_size_le (Nat.le_of_not_lt hy)
  -- basis states without the property have no amplitude, so what becomes of them does not matter
  have himage : A (amplitudes v) =
      ∑ x ∈ Finset.range v.size, amplitudes v x • κ • (ket (f x) : ℕ → ℂ) := by
    rw [hsum, map_sum, ← hsum]
    refine Finset.sum_congr rfl fun x _ => ?_
    rw [map_smul]
    by_cases hx : P x
    · rw [hA x hx]
    · rw [hv x hx, zero_smul, zero_smul]
  constructor
  · intro y hy
    rw [himage, Finset.sum_apply, Finset.sum_eq_single y]
    · simp [ket_apply, mul_comm]
    · intro x _ hxy
      by_cases hx : P x
      · have hne : f y ≠ f x := fun heq => hxy (hf x y hx hy heq.symm)
        simp [ket_apply, hne]
      · simp [hv x hx]
    · intro hy'
      rw [amplitudes_of_size_le (Nat.le_of_not_lt (by simpa using hy'))]
      simp
  · intro z hz
    rw [himage, Finset.sum_apply]
    refine Finset.sum_eq_zero fun x _ => ?_
    by_cases hx : P x
    · simp [ket_apply, (hz x hx).symm]
    · simp [hv x hx]

end Operator

/-! ## Runs with given outcomes -/

namespace Trajectory

section Append

variable {R α σ : Type} [Scalar R] [Amplitude R α] [DrawSource σ R]

theorem exists_runDecided_append (first rest : List (Step α)) (outcomes : ℕ → Bool)
    (t : Trajectory α σ) : ∃ outcomes', t.runDecided outcomes (first ++ rest) =
      (t.runDecided outcomes first).runDecided outcomes' rest := by
  induction first generalizing outcomes t with
  | nil => exact ⟨outcomes, rfl⟩
  | cons step first ih =>
    cases step with
    | gate kernels condition => exact ih outcomes _
    | measure q c => exact ih _ _

theorem runDecided_of_gates {b : Bindings R} {l : List (Instruction R)}
    (hl : ∀ i ∈ l, i.isGate = true) {steps : List (Step α)}
    (hsteps : Step.ofInstructions b true l = .ok steps) (outcomes : ℕ → Bool)
    (t : Trajectory α σ) : t.runDecided outcomes steps = t.run steps := by
  induction l generalizing steps t with
  | nil =>
    obtain rfl := Except.ok.inj hsteps
    rfl
  | cons i l ih =>
    obtain ⟨first, rest, hfirst, hrest, rfl⟩ := Step.ofInstructions_cons_iff.1 hsteps
    obtain ⟨hi, hl⟩ := List.forall_mem_cons.1 hl
    obtain ⟨g, hg⟩ := Option.isSome_iff_exists.1 hi
    obtain ⟨as, ks, -, -, rfl⟩ :=
      (Step.ofInstruction_gate_iff (Instruction.gate?_eq_some.1 hg)).1 hfirst
    exact ih hl hrest _

end Append

variable {σ : Type} {t u v : Trajectory ℂ σ} {w k : ℕ} {A B : Operator ℂ}

structure Holds (w k : ℕ) (t : Trajectory ℂ σ) : Prop where
  width : w ≤ t.state.numQubits
  size : t.state.amplitudes.size = 2 ^ t.state.numQubits
  clbits : k ≤ t.clbits.size

structure Undergoes (t : Trajectory ℂ σ) (A : Operator ℂ) (u : Trajectory ℂ σ) : Prop where
  numQubits : u.state.numQubits = t.state.numQubits
  size : u.state.amplitudes.size = t.state.amplitudes.size
  clbits : u.clbits.size = t.clbits.size
  amplitudes : amplitudes u.state.amplitudes = A (amplitudes t.state.amplitudes)

theorem Holds.mono (h : t.Holds w k) {w' k' : ℕ} (hw : w' ≤ w) (hk : k' ≤ k) : t.Holds w' k' :=
  ⟨hw.trans h.width, h.size, hk.trans h.clbits⟩

theorem Undergoes.trans (h : t.Undergoes A u) (h' : u.Undergoes B v) : t.Undergoes (B * A) v :=
  ⟨h'.numQubits.trans h.numQubits, h'.size.trans h.size, h'.clbits.trans h.clbits, by
    rw [h'.amplitudes, h.amplitudes]
    rfl⟩

theorem undergoes_placements [DrawSource σ ℝ] {b : Bindings ℝ} {es : List (Placement ℝ)}
    {steps : List (Step ℂ)}
    (hsteps : Step.ofInstructions b true (es.map Placement.instruction) = .ok steps)
    (outcomes : ℕ → Bool) (ht : t.Holds w k) (hready : ∀ e ∈ es, e.Ready b)
    (hfits : ∀ e ∈ es, e.Fits t.state.numQubits) :
    t.Undergoes (Placement.compose t.read b es) (t.runDecided outcomes steps) := by
  obtain ⟨steps', hsteps', hrun⟩ := Placement.run_steps σ hready hfits true
  obtain rfl := Except.ok.inj (hsteps.symm.trans hsteps')
  obtain ⟨v, hv, hlast, hamplitudes⟩ := hrun t ht.size
  have hgates : ∀ i ∈ es.map Placement.instruction, i.isGate = true := by
    intro i hi
    obtain ⟨e, -, rfl⟩ := List.mem_map.1 hi
    rfl
  rw [runDecided_of_gates hgates hsteps, hlast]
  exact ⟨rfl, hv.trans ht.size.symm, rfl, hamplitudes⟩

noncomputable def decided (t : Trajectory ℂ σ) (q : QubitId) (c : ClbitId) (outcome : Bool) :
    Trajectory ℂ σ :=
  { t with
    state := t.state.project q outcome (Scalar.one : ℝ)
    clbits := t.clbits.setIfInBounds c outcome }

theorem read_decided (t : Trajectory ℂ σ) (q : QubitId) {c : ClbitId} (hc : c < t.clbits.size)
    (outcome : Bool) : (t.decided q c outcome).read c = outcome := by
  simp [read, decided, hc]

theorem undergoes_decided (t : Trajectory ℂ σ) (q : QubitId) (c : ClbitId) (outcome : Bool) :
    t.Undergoes (.reads q outcome) (t.decided q c outcome) := by
  refine ⟨rfl, Array.size_mapIdx, Array.size_setIfInBounds, ?_⟩
  funext x
  rw [decided, StateVector.project_one, Kernel.amplitudes_keep, Operator.reads, Operator.diagonal_apply,
    ite_mul, one_mul, zero_mul]

theorem Undergoes.holds (h : t.Undergoes A u) (ht : t.Holds w k) : u.Holds w k :=
  ⟨h.numQubits ▸ ht.width, by rw [h.size, h.numQubits, ht.size], h.clbits ▸ ht.clbits⟩

end Trajectory

/-! ## Instructions -/

namespace Placement

variable {e : Placement ℝ} {n : ℕ}

theorem qubits_provided (e : Placement ℝ) (c : Condition) : (e.provided c).qubits = e.qubits := by
  unfold provided
  split <;> rfl

theorem Fits.provided (h : e.Fits n) (c : Condition) : (e.provided c).Fits n := by
  unfold Placement.provided
  split <;> exact h

end Placement

theorem holds_ofValue_one (read : ClbitId → Bool) (c : ClbitId) :
    (Condition.ofValue [c] 1).holds read = read c := by
  simp [Condition.ofValue, Condition.holds]

/-- In every run with decided outcomes, on a register that holds `w` qubits and with `k` bits,
instructions act as an operator that takes the basis states with a property where a function takes
them, times a factor. -/
def Decides (l : List (Instruction ℝ)) (w k : ℕ) (κ : ℂ) (P : ℕ → Prop) (f : ℕ → ℕ) : Prop :=
  ∀ (σ : Type) [DrawSource σ ℝ] (b : Bindings ℝ), ∃ steps : List (Step ℂ),
    Step.ofInstructions b true l = .ok steps ∧
    ∀ (outcomes : ℕ → Bool) (t : Trajectory ℂ σ), t.Holds w k →
      ∃ A : Operator ℂ, t.Undergoes A (t.runDecided outcomes steps) ∧
        ∀ y, P y → A (ket y) = κ • ket (f y)

namespace Decides

variable {l m : List (Instruction ℝ)} {w k w' k' : ℕ} {κ κ' : ℂ} {P Q : ℕ → Prop} {f g : ℕ → ℕ}

theorem append (h : Decides l w k κ P f) (h' : Decides m w' k' κ' Q g) (hw : w ≤ w')
    (hk : k ≤ k') : Decides (l ++ m) w' k' (κ * κ') (fun y => P y ∧ Q (f y)) (g ∘ f) := by
  intro σ _ b
  obtain ⟨first, hfirst, hrun⟩ := h σ b
  obtain ⟨rest, hrest, hrun'⟩ := h' σ b
  refine ⟨first ++ rest, Step.ofInstructions_append hfirst hrest, fun outcomes t ht => ?_⟩
  obtain ⟨outcomes', heq⟩ := t.exists_runDecided_append first rest outcomes
  obtain ⟨A, hA, hket⟩ := hrun outcomes t (ht.mono hw hk)
  obtain ⟨B, hB, hket'⟩ := hrun' outcomes' _ (hA.holds ht)
  refine ⟨B * A, heq ▸ hA.trans hB, fun y hy => ?_⟩
  rw [Module.End.mul_apply, hket y hy.1, map_smul, hket' _ hy.2, smul_smul]
  rfl

theorem mono (h : Decides l w k κ P f) (hw : w ≤ w') (hk : k ≤ k') (hQ : ∀ y, Q y → P y)
    (hfg : ∀ y, Q y → f y = g y) : Decides l w' k' κ Q g := by
  intro σ _ b
  obtain ⟨steps, hsteps, hrun⟩ := h σ b
  refine ⟨steps, hsteps, fun outcomes t ht => ?_⟩
  obtain ⟨A, hA, hket⟩ := hrun outcomes t (ht.mono hw hk)
  exact ⟨A, hA, fun y hy => by rw [hket y (hQ y hy), hfg y hy]⟩

theorem of_placements {es : List (Placement ℝ)} {qs : List QubitId} (hes : ∀ e ∈ es, e.Sits qs)
    (hqs : ∀ q ∈ qs, q < w) {A : Operator ℂ}
    (hmeans : ∀ read b, Placement.compose read b es = A) (hA : ∀ y, P y → A (ket y) = ket (f y)) :
    Decides (es.map Placement.instruction) w k 1 P f := by
  intro σ _ b
  obtain ⟨n, hn⟩ := exists_above qs
  obtain ⟨steps, hsteps, -⟩ := Placement.run_steps σ (fun e he => (hes e he).ready b)
    (fun e he => (hes e he).fits hn) true
  refine ⟨steps, hsteps, fun outcomes t ht => ⟨A, ?_, fun y hy => by rw [hA y hy, one_smul]⟩⟩
  rw [← hmeans t.read b]
  exact Trajectory.undergoes_placements hsteps outcomes ht (fun e he => (hes e he).ready b)
    fun e he => (hes e he).fits fun q hq => (hqs q hq).trans_le ht.width

theorem of_feedback {es fs : List (Placement ℝ)} {qs : List QubitId} (hes : ∀ e ∈ es, e.Sits qs)
    (hfs : ∀ e ∈ fs, e.Sits qs) (hqs : ∀ q ∈ qs, q < w) {A B : Operator ℂ}
    (hA : ∀ read b, Placement.compose read b es = A) (hB : ∀ read b, Placement.Means read b fs B)
    {q : QubitId} {c : ClbitId} (hc : c < k)
    (hact : ∀ (outcome : Bool) y, P y →
      (if outcome then B else 1) (Operator.reads q outcome (A (ket y))) = κ • ket (f y)) :
    Decides (es.map Placement.instruction ++ .measure q c ::
      (fs.map (Placement.provided (.ofValue [c] 1))).map Placement.instruction) w k κ P f := by
  intro σ _ b
  have hready : ∀ e ∈ fs.map (Placement.provided (.ofValue [c] 1)), e.Ready b := by
    intro e he
    obtain ⟨e', he', rfl⟩ := List.mem_map.1 he
    exact ((hfs e' he').ready b).provided _
  have hfits : ∀ {n : ℕ}, (∀ q ∈ qs, q < n) →
      ∀ e ∈ fs.map (Placement.provided (.ofValue [c] 1)), e.Fits n := by
    intro n hn e he
    obtain ⟨e', he', rfl⟩ := List.mem_map.1 he
    exact ((hfs e' he').fits hn).provided _
  obtain ⟨n, hn⟩ := exists_above qs
  obtain ⟨first, hfirst, -⟩ := Placement.run_steps σ (fun e he => (hes e he).ready b)
    (fun e he => (hes e he).fits hn) true
  obtain ⟨rest, hrest, -⟩ := Placement.run_steps σ hready (hfits hn) true
  have hlowered := Step.ofInstructions_cons_iff.2
    ⟨[Step.measure q c], rest, (rfl : Step.ofInstruction b true (.measure q c) = _), hrest, rfl⟩
  refine ⟨_, Step.ofInstructions_append hfirst hlowered, fun outcomes t ht => ?_⟩
  -- the gates in front use up no outcome, so the measurement takes the first of those left
  obtain ⟨outcomes', heq⟩ := t.exists_runDecided_append first (.measure q c :: rest) outcomes
  have hfore := Trajectory.undergoes_placements hfirst outcomes ht
    (fun e he => (hes e he).ready b)
    fun e he => (hes e he).fits fun q hq => (hqs q hq).trans_le ht.width
  have hmeasured := (t.runDecided outcomes first).undergoes_decided q c (outcomes' 0)
  have hbetween := hmeasured.holds (hfore.holds ht)
  have hafter := Trajectory.undergoes_placements hrest (fun k => outcomes' (k + 1)) hbetween hready
    (hfits fun q hq => (hqs q hq).trans_le hbetween.width)
  refine ⟨_, heq ▸ (hfore.trans hmeasured).trans hafter, fun y hy => ?_⟩
  have hread := (t.runDecided outcomes first).read_decided q
    (hc.trans_le (hfore.holds ht).clbits) (outcomes' 0)
  rw [((hB _ b).provided _).whole, hA, holds_ofValue_one, hread, Module.End.mul_apply,
    Module.End.mul_apply]
  exact hact (outcomes' 0) y hy

end Decides

namespace Build

open Session Placement

variable {ε : Type} {qs : List QubitId} {P Q : ℕ → Prop} {f g : ℕ → ℕ}

/-- In every steady session a construction on qubits in use succeeds and hands nothing out. For all
outcomes of its measurements it takes basis states with a property where a function takes them,
times a factor that is not 0 and depends on nothing. -/
def Performs (c : Build ℝ ε Unit) (qs : List QubitId) (P : ℕ → Prop) (f : ℕ → ℕ) : Prop :=
  ∃ κ : ℂ, κ ≠ 0 ∧ ∀ s : Session ℝ, s.Steady → (∀ q ∈ qs, s.allocator.isLive q = true) →
    ∃ s' l, c.exec s = (.ok (), s') ∧ s.Sent l s' ∧ (∀ i ∈ l, ∀ q ∈ i.qubits, q ∈ qs) ∧
      Decides l s'.circuit.width s'.circuit.numClbits κ P f

theorem Performs.bind {c k : Build ℝ ε Unit} (hc : c.Performs qs P f) (hk : k.Performs qs Q g) :
    (c >>= fun _ => k).Performs qs (fun y => P y ∧ Q (f y)) (g ∘ f) := by
  obtain ⟨κ, hκ, hc⟩ := hc
  obtain ⟨κ', hκ', hk⟩ := hk
  refine ⟨κ * κ', mul_ne_zero hκ hκ', fun s hs hqs => ?_⟩
  obtain ⟨s₁, l, hexec, hsent, hamong, hacts⟩ := hc s hs hqs
  obtain ⟨s₂, m, hexec', hsent', hamong', hacts'⟩ :=
    hk s₁ hsent.steady fun q hq => (hsent.live q).trans (hqs q hq)
  refine ⟨s₂, l ++ m, (exec_bind_of hexec).trans hexec', hsent.trans hsent', ?_,
    hacts.append hacts' hsent'.grown.width_le hsent'.grown.numClbits_le⟩
  intro i hi
  exact (List.mem_append.1 hi).elim (hamong i) (hamong' i)

theorem Performs.run {c : Build ℝ ε Unit} (hc : c.Performs qs P f) {s s' : Session ℝ} (hs : s.Steady)
    (hqs : ∀ q ∈ qs, s.allocator.isLive q = true) (hexec : c.exec s = (.ok (), s')) :
    ∃ κ l, κ ≠ 0 ∧ s.Sent l s' ∧ (∀ i ∈ l, ∀ q ∈ i.qubits, q ∈ qs) ∧
      Decides l s'.circuit.width s'.circuit.numClbits κ P f := by
  obtain ⟨κ, hκ, hc⟩ := hc
  obtain ⟨t, l, hexec', hsent, hamong, hacts⟩ := hc s hs hqs
  obtain rfl : s' = t := (Prod.mk.inj (hexec.symm.trans hexec')).2
  exact ⟨κ, l, hκ, hsent, hamong, hacts⟩

theorem Performs.mono {c : Build ℝ ε Unit} {ps : List QubitId} (hc : c.Performs ps P f)
    (hps : ∀ q ∈ ps, q ∈ qs) (hQ : ∀ y, Q y → P y) (hfg : ∀ y, Q y → f y = g y) :
    c.Performs qs Q g := by
  obtain ⟨κ, hκ, hc⟩ := hc
  refine ⟨κ, hκ, fun s hs hqs => ?_⟩
  obtain ⟨s', l, hexec, hsent, hamong, hacts⟩ := hc s hs fun q hq => hqs q (hps q hq)
  exact ⟨s', l, hexec, hsent, fun i hi q hq => hps q (hamong i hi q hq),
    hacts.mono le_rfl le_rfl hQ hfg⟩

theorem Realizes.performs {c : Build ℝ ε Unit} {A : Operator ℂ} (hc : c.Realizes qs A)
    (hA : ∀ y, P y → A (ket y) = ket (f y)) : c.Performs qs P f := by
  obtain ⟨es, hplaces, hsits, hmeans⟩ := hc
  refine ⟨1, one_ne_zero, fun s hs hqs => ?_⟩
  obtain ⟨s', hexec, hsent⟩ := hplaces.sent hs hqs fun e he => (hsits e he).suits hqs
  refine ⟨s', _, hexec, hsent, ?_, Decides.of_placements hsits
    (fun q hq => hsent.steady.lt_width ((hsent.live q).trans (hqs q hq)))
    (fun read b => (hmeans read b).whole) hA⟩
  intro i hi q hq
  obtain ⟨e, he, rfl⟩ := List.mem_map.1 hi
  exact (hsits e he).among q hq

theorem performs_feedback [FromSession ε] {first body : Build ℝ ε Unit} {A B : Operator ℂ}
    (hfirst : first.Realizes qs A) (hbody : body.Realizes qs B) {q : QubitId} (hq : q ∈ qs) {κ : ℂ}
    (hκ : κ ≠ 0) (hact : ∀ (outcome : Bool) y, P y →
      (if outcome then B else 1) (Operator.reads q outcome (A (ket y))) = κ • ket (f y)) :
    Performs (do
      first
      let c ← measure q
      controlClassical [c] 1 body) qs P f := by
  obtain ⟨es, hplaces, hsits, hmeans⟩ := hfirst
  obtain ⟨fs, hplaces', hsits', hmeans'⟩ := hbody
  refine ⟨κ, hκ, fun s hs hqs => ?_⟩
  obtain ⟨s₁, hexec₁, hsent₁⟩ := hplaces.sent hs hqs fun e he => (hsits e he).suits hqs
  obtain ⟨s₂, hmeasure, hsent₂, hwire, hcount⟩ :=
    hsent₁.steady.measure ((hsent₁.live q).trans (hqs q hq))
  have hqs₂ : ∀ q ∈ qs, s₂.allocator.isLive q = true := fun q hq =>
    (hsent₂.live q).trans ((hsent₁.live q).trans (hqs q hq))
  -- the condition reads the bit of the measurement alone, which has its wire by now
  have hsuits : ∀ e ∈ fs.map (Placement.provided (.ofValue [s₁.circuit.numClbits] 1)),
      e.Suits s₂ := by
    intro e he
    obtain ⟨e', he', rfl⟩ := List.mem_map.1 he
    refine (hsits' e' he').suits_provided hqs₂ fun b hb => ?_
    rw [List.mem_singleton.1 hb]
    exact hwire
  obtain ⟨s₃, hexec₃, hsent₃⟩ :=
    (hplaces'.controlClassical [s₁.circuit.numClbits] 1).sent hsent₂.steady hqs₂ hsuits
  have hall := (hsent₁.trans hsent₂).trans hsent₃
  rw [List.append_assoc] at hall
  refine ⟨s₃, _, ?_, hall, ?_, Decides.of_feedback hsits hsits'
    (fun q hq => hall.steady.lt_width ((hall.live q).trans (hqs q hq)))
    (fun read b => (hmeans read b).whole) hmeans' (hcount.trans_le hsent₃.grown.numClbits_le) hact⟩
  · exact (exec_bind_of hexec₁).trans ((exec_bind_of (exec_of_step hmeasure)).trans hexec₃)
  · intro i hi p hp
    rcases List.mem_append.1 hi with hi | hi
    · obtain ⟨e, he, rfl⟩ := List.mem_map.1 hi
      exact (hsits e he).among p hp
    · rcases List.mem_cons.1 hi with rfl | hi
      · rwa [show p = q by simpa [Instruction.measure] using hp]
      · obtain ⟨e, he, rfl⟩ := List.mem_map.1 hi
        obtain ⟨e', he', rfl⟩ := List.mem_map.1 he
        refine (hsits' e' he').among p ?_
        rwa [← qubits_provided]

end Build

end Ancilla
