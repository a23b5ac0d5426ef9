import Ancilla.Proofs.Session.Borrowing
import Ancilla.Proofs.Session.Refusals

/-!
Constructions without qubits of their own. A session whose frames pass everything on appends every
gate on qubits in use to its circuit, whatever its capacity. So a construction that realizes an
operator succeeds there, appends its gates, and hands nothing out; and what it appends takes basis
states where its operator takes them.
-/

namespace Ancilla

variable {R : Type}

theorem Circuit.Grown.numClbits_le {c c' : Circuit R} (h : Grown c c') : c.numClbits ≤ c'.numClbits := by
  induction h with
  | refl => exact Nat.le_refl _
  | @registerQubit c' _ q ih =>
    obtain ⟨-, hq⟩ | ⟨-, hq⟩ := c'.registerQubit_cases q <;>
    · rw [hq]
      exact ih
  | recordRelease _ qs ih => exact ih
  | @addClbit c' _ source ih =>
    have hsize : (c'.addClbit source).2.numClbits = c'.numClbits + 1 := Array.size_push _
    rw [hsize]
    exact Nat.le_succ_of_le ih
  | @push c' _ i ih =>
    obtain ⟨g, -, hpush⟩ := c'.push_shape i
    rw [hpush]
    exact ih

namespace Placement

structure Suits (s : Session R) (e : Placement R) : Prop where
  length : e.qubits.length = e.gate.kind.numQubits
  nodup : e.qubits.Nodup
  live : ∀ q ∈ e.qubits, s.allocator.isLive q = true
  wired : ∀ c ∈ e.instruction.classicalWires, .clbit c ∈ s.circuit.graph.wireList

theorem Sits.suits {e : Placement ℝ} {qs : List QubitId} (he : e.Sits qs) {s : Session ℝ}
    (hqs : ∀ q ∈ qs, s.allocator.isLive q = true) : e.Suits s := by
  refine ⟨he.length, he.nodup, fun q hq => hqs q (he.among q hq), fun c hc => ?_⟩
  have hnone : e.instruction.classicalWires = [] := by
    show Ordered.ofList ([] ++ (e.gate.condition.map Condition.clbits).getD []) = []
    rw [he.plain]
    rfl
  rw [hnone] at hc
  exact absurd hc List.not_mem_nil

theorem Sits.suits_provided {e : Placement ℝ} {qs : List QubitId} (he : e.Sits qs) {s : Session ℝ}
    (hqs : ∀ q ∈ qs, s.allocator.isLive q = true) {c : Condition}
    (hc : ∀ b ∈ c.clbits, .clbit b ∈ s.circuit.graph.wireList) : (e.provided c).Suits s := by
  unfold Placement.provided
  split
  · exact he.suits hqs
  · refine ⟨he.length, he.nodup, fun q hq => hqs q (he.among q hq), fun b hb => hc b ?_⟩
    have hwires : ((e.gate.withCondition c).condition.map Condition.clbits).getD [] = c.clbits := by
      rw [Gate.withCondition, he.plain]
      rfl
    have hmem : b ∈ Ordered.ofList ([] ++ c.clbits) := hwires ▸ hb
    exact ((Ordered.mem_union _ _ _).1 hmem).resolve_left List.not_mem_nil

end Placement

theorem Frame.kin_of_unmarked {f g : Frame R} (h : f.unmarked = g.unmarked) : f.Kin g := by
  have hemitted : g.emitted = f.emitted := (congrArg Frame.emitted h :).symm
  refine ⟨g.touched, g.superposed, [], g.emitted, ?_⟩
  calc g = { g.unmarked with touched := g.touched, superposed := g.superposed } := rfl
    _ = { f.unmarked with touched := g.touched, superposed := g.superposed } := by rw [h]
    _ = _ := by
      rw [hemitted]
      rfl

namespace Session

variable {s t u : Session R} {l m : List (Instruction R)}

/-- A session that takes gates on qubits in use as they are. -/
structure Steady (s : Session R) : Prop where
  unpoisoned : s.isPoisoned = false
  plain : s.frames.Plain
  allocator : s.allocator.Sound
  equipped : s.Equipped
  registers : s.circuit.Registers

theorem Reachable.steady [Scalar R] (hs : s.Reachable) (hp : s.isPoisoned = false)
    (hopen : s.numOpen = 0) : s.Steady :=
  ⟨hp, hs.plain hopen, hs.sound.allocator, hs.equipped, hs.registers⟩

theorem Steady.lt_width (h : s.Steady) {q : QubitId} (hq : s.allocator.isLive q = true) :
    q < s.circuit.width := by
  obtain ⟨p, hp, rfl⟩ := h.registers q (h.equipped.wired q hq)
  exact Circuit.lt_width hp

theorem Steady.hosts (h : s.Steady) {qs : List QubitId}
    (hqs : ∀ q ∈ qs, s.allocator.isLive q = true) : s.Hosts qs := ⟨h.unpoisoned, h.allocator, hqs⟩

theorem kin_of_outline (h : t.outline = s.outline) :
    List.Forall₂ Frame.Kin s.frames.toList t.frames.toList := by
  have hlist : s.frames.toList.map Frame.unmarked = t.frames.toList.map Frame.unmarked :=
    congrArg FrameStack.toList (outline_eq_iff.1 h).2.2.2.1.symm
  rw [← List.forall₂_eq_eq_eq, List.forall₂_map_left_iff, List.forall₂_map_right_iff] at hlist
  exact hlist.imp fun _ _ => Frame.kin_of_unmarked

theorem Steady.of_outline (h : s.Steady) (ho : t.outline = s.outline) : t.Steady := by
  obtain ⟨-, hallocator, hcircuit, -, hpoison⟩ := outline_eq_iff.1 ho
  exact ⟨hpoison.trans h.unpoisoned, h.plain.congr (environments_of_kin (kin_of_outline ho)),
    hallocator ▸ h.allocator, ⟨hcircuit ▸ h.equipped.accepting, by
      rw [hallocator, hcircuit]
      exact h.equipped.wired⟩, hcircuit ▸ h.registers⟩

structure Sent (s : Session R) (l : List (Instruction R)) (t : Session R) : Prop where
  steady : t.Steady
  live : ∀ q, t.allocator.isLive q = s.allocator.isLive q
  grown : Circuit.Grown s.circuit t.circuit
  handed : s.circuit.HandsOut t.circuit []
  emissions : t.emissions = s.emissions ++ l
  kin : List.Forall₂ Frame.Kin s.frames.toList t.frames.toList

theorem Steady.sent (h : s.Steady) : s.Sent [] s :=
  ⟨h, fun _ => rfl, .refl, Circuit.handsOut_of_eq rfl, (List.append_nil _).symm, kin_refl _⟩

theorem Sent.trans (h : s.Sent l t) (h' : t.Sent m u) : s.Sent (l ++ m) u := by
  refine ⟨h'.steady, fun q => (h'.live q).trans (h.live q), h.grown.trans h'.grown,
    h.handed.trans h'.handed, ?_, kin_trans h.kin h'.kin⟩
  rw [h'.emissions, h.emissions, List.append_assoc]

theorem Sent.of_outline (h : s.Sent l t) (ho : u.outline = t.outline) : s.Sent l u := by
  obtain ⟨-, hallocator, hcircuit, -, -⟩ := outline_eq_iff.1 ho
  refine ⟨h.steady.of_outline ho, ?_, ?_, ?_, ?_, kin_trans h.kin (kin_of_outline ho)⟩
  · rw [hallocator]
    exact h.live
  · rw [hcircuit]
    exact h.grown
  · rw [hcircuit]
    exact h.handed
  · show u.circuit.instructions.toList = _
    rw [hcircuit]
    exact h.emissions

theorem Sent.numOpen (h : s.Sent l t) : t.numOpen = s.numOpen := by
  simpa [FrameStack.toList, Session.numOpen, FrameStack.numOpen] using h.kin.length_eq.symm

theorem Sent.suits {e : Placement R} (h : s.Sent l t) (he : e.Suits s) : e.Suits t :=
  ⟨he.length, he.nodup, fun q hq => (h.live q).trans (he.live q hq),
    fun c hc => h.grown.wireList (he.wired c hc)⟩

theorem Steady.send (h : s.Steady) {i : Instruction R} (hi : s.circuit.graph.fault? i = none)
    (b : Bool) : ∃ t, s.send i b = (.ok (), t) ∧ s.Sent [i] t := by
  have hpush := (h.equipped.accepting.push_of_none hi).1
  obtain ⟨t, hsend, hcircuit, -⟩ := send_of_push h.plain hpush b
  have hkin := send_kin s i b
  have hhosts := (h.hosts fun q (hq : q ∈ []) => absurd hq List.not_mem_nil).send i b
  have hlive := send_isLive h.allocator i b
  rw [hsend] at hkin hhosts hlive
  have hgrown : Circuit.Grown s.circuit t.circuit := hcircuit ▸ Circuit.Grown.refl.push _
  refine ⟨t, hsend, ⟨hhosts.unpoisoned, h.plain.congr (environments_of_kin hkin), hhosts.allocator,
    ⟨h.equipped.accepting.grown hgrown, fun q hq => hgrown.wireList (h.equipped.wired q ?_)⟩,
    h.registers.grown hgrown⟩, hlive, hgrown, hcircuit ▸ s.circuit.handsOut_push i,
    Circuit.push_ok (Prod.ext hpush hcircuit.symm), hkin⟩
  rw [← hlive]
  exact hq

theorem Steady.fault (h : s.Steady) {e : Placement R} (he : e.Suits s) :
    s.circuit.graph.fault? e.instruction = none := by
  refine WireGraph.fault?_eq_none_iff.2 ⟨if_pos he.length.symm, he.nodup, ?_⟩
  intro w hw
  rcases List.mem_append.1 hw with hw | hw
  · obtain ⟨q, hq, rfl⟩ := List.mem_map.1 hw
    exact h.equipped.wired q (he.live q hq)
  · obtain ⟨c, hc, rfl⟩ := List.mem_map.1 hw
    exact he.wired c hc

theorem Steady.sendAll (h : s.Steady) {es : List (Placement R)} (hes : ∀ e ∈ es, e.Suits s) :
    ∃ t, s.sendAll es = .ok t ∧ s.Sent (es.map Placement.instruction) t := by
  induction es generalizing s with
  | nil => exact ⟨s, rfl, h.sent⟩
  | cons e es ih =>
    obtain ⟨s₁, hfirst, hone⟩ := h.send (h.fault (hes e List.mem_cons_self)) e.balanced
    obtain ⟨t, hrest, hall⟩ :=
      ih hone.steady fun e' he' => hone.suits (hes e' (List.mem_cons_of_mem _ he'))
    exact ⟨t, sendAll_cons.2 ⟨s₁, hfirst, hrest⟩, hone.trans hall⟩

/-! ## Measurements -/

theorem Steady.measurable (h : s.Steady) : s.measureFault? = none := by
  have hundoing : (s.frames.toList.find? fun f =>
      f.environment = .inversion || f.isComputing) = none := by
    rw [List.find?_eq_none]
    intro f hf
    rcases h.plain f hf with he | he <;> simp [he, Frame.isComputing]
  unfold Session.measureFault?
  simp only [hundoing]
  split
  · next f hf =>
    have hcontrolling := List.find?_some hf
    rcases h.plain f (List.mem_of_find?_eq_some hf) with he | he <;> simp [he] at hcontrolling
  · rfl

theorem Steady.addClbit (h : s.Steady) (source : Option QubitId) :
    s.Sent [] { s with circuit := (s.circuit.addClbit source).2 } := by
  have hgrown : Circuit.Grown s.circuit (s.circuit.addClbit source).2 := Circuit.Grown.refl.addClbit _
  exact ⟨⟨h.unpoisoned, h.plain, h.allocator,
    ⟨h.equipped.accepting.addClbit source, fun q hq => hgrown.wireList (h.equipped.wired q hq)⟩,
    h.registers.grown hgrown⟩, fun _ => rfl, hgrown, Circuit.handsOut_of_eq rfl,
    (List.append_nil _).symm, kin_refl _⟩

theorem Steady.measure (h : s.Steady) {q : QubitId} (hq : s.allocator.isLive q = true) :
    ∃ t, s.measure q = (.ok s.circuit.numClbits, t) ∧
      s.Sent [.measure q s.circuit.numClbits] t ∧
      .clbit s.circuit.numClbits ∈ t.circuit.graph.wireList ∧
      s.circuit.numClbits < t.circuit.numClbits := by
  have hadded := h.addClbit (some q)
  have hwire : .clbit s.circuit.numClbits ∈ (s.circuit.addClbit (some q)).2.graph.wireList :=
    (WireGraph.wireList_addClbit _ _ _).2 (.inr rfl)
  have hcount : s.circuit.numClbits < (s.circuit.addClbit (some q)).2.numClbits := by
    rw [Circuit.numClbits, Circuit.numClbits, Circuit.addClbit, Array.size_push]
    exact Nat.lt_succ_self _
  have hfault := measure_fault?_eq_none (h.equipped.wired q hq)
  obtain ⟨t, hsend, hsent⟩ := hadded.steady.send hfault false
  refine ⟨t, ?_, hadded.trans hsent, hsent.grown.wireList hwire,
    hcount.trans_le hsent.grown.numClbits_le⟩
  have hemit : Session.emit { s with circuit := (s.circuit.addClbit (some q)).2 }
      (.measure q (s.circuit.addClbit (some q)).1) = (.ok (), t) := by
    rw [emit_of_live hadded.steady.unpoisoned (by simpa [Instruction.measure] using hq)]
    exact hsend
  exact measure_of_live h.unpoisoned h.measurable hq hemit

end Session

namespace Build

open Session Placement

variable {ε : Type} {qs : List QubitId}

theorem Places.sent {c : Build R ε Unit} {es : List (Placement R)} (hc : c.Places qs es)
    {s : Session R} (hs : s.Steady) (hqs : ∀ q ∈ qs, s.allocator.isLive q = true)
    (hes : ∀ e ∈ es, e.Suits s) :
    ∃ t, c.exec s = (.ok (), t) ∧ s.Sent (es.map instruction) t := by
  obtain ⟨u, hsend, hsent⟩ := hs.sendAll hes
  obtain ⟨t, hexec, hout⟩ := hc s u (hs.hosts hqs) hsend
  exact ⟨t, hexec, hsent.of_outline hout⟩

theorem Places.controlClassical [FromSession ε] [Scalar R] (clbits : List ClbitId) (value : ℕ)
    {body : Build R ε Unit} {es : List (Placement R)} (hb : body.Places qs es) :
    Places (controlClassical clbits value body) qs (es.map (.provided (.ofValue clbits value))) := by
  have hplaces := hb.within (.classical (.ofValue clbits value))
    (fun q hq => absurd hq List.not_mem_nil) "if"
  have hrelay : es.filterMap ((Environment.classical (.ofValue clbits value)).relay .compute) =
      es.map (Placement.provided (.ofValue clbits value)) := congrFun List.filterMap_eq_map' es
  rw [hrelay, show owed (Environment.classical _) _ = ([] : List (Placement R)) from rfl,
    List.append_nil] at hplaces
  exact hplaces

/-- From a session a construction on the qubits `qs` succeeds, hands nothing out, returns nothing and
leaves no environment open. The instructions that it appends have only these qubits as operands, and
their run takes the state with amplitude 1 at a basis state with the property `P` to the state with
amplitude 1 at a basis state in the relation `Q` to it. -/
def Moves (c : Build ℝ ε Unit) (s : Session ℝ) (qs : List QubitId) (P : ℕ → Prop)
    (Q : ℕ → ℕ → Prop) : Prop :=
  ∃ (s' : Session ℝ) (l : List (Instruction ℝ)),
    c.exec s = (.ok (), s') ∧ s'.isPoisoned = false ∧ s'.numOpen = 0 ∧
    (∀ q, s'.allocator.isLive q = s.allocator.isLive q) ∧ s'.emissions = s.emissions ++ l ∧
    s.circuit.HandsOut s'.circuit [] ∧ (∀ i ∈ l, ∀ q ∈ i.qubits, q ∈ qs) ∧
    ∀ (σ : Type) [DrawSource σ ℝ] (t : Trajectory ℂ σ) (b : Bindings ℝ) (collapse : Bool) (y : ℕ),
      s'.circuit.width ≤ t.state.numQubits →
      t.state.amplitudes.size = 2 ^ t.state.numQubits →
      amplitudes t.state.amplitudes = ket y → P y →
      ∃ steps v z, Step.ofInstructions b collapse l = .ok steps ∧ t.run steps = t.withAmplitudes v ∧
        v.size = t.state.amplitudes.size ∧ amplitudes v = ket z ∧ Q y z

theorem Realizes.moves {c : Build ℝ ε Unit} {A : Operator ℂ} (hc : c.Realizes qs A) {s : Session ℝ}
    (hs : s.Reachable) (hp : s.isPoisoned = false) (hopen : s.numOpen = 0)
    (hqs : ∀ q ∈ qs, s.allocator.isLive q = true) {P : ℕ → Prop} {Q : ℕ → ℕ → Prop}
    (hact : ∀ y, P y → ∃ z, A (ket y) = ket z ∧ Q y z) : c.Moves s qs P Q := by
  obtain ⟨es, hplaces, hsits, hmeans⟩ := hc
  have hsteady := hs.steady hp hopen
  obtain ⟨s', hexec, hsent⟩ := hplaces.sent hsteady hqs fun e he => (hsits e he).suits hqs
  refine ⟨s', es.map instruction, hexec, hsent.steady.unpoisoned, hsent.numOpen.trans hopen,
    hsent.live, hsent.emissions, hsent.handed, fun i hi q hq => ?_, ?_⟩
  · obtain ⟨e, he, rfl⟩ := List.mem_map.1 hi
    exact (hsits e he).among q hq
  · intro σ _ t b collapse y hwidth hsize hstart hy
    have hbelow : ∀ q ∈ qs, q < t.state.numQubits := fun q hq =>
      (hsent.steady.lt_width ((hsent.live q).trans (hqs q hq))).trans_le hwidth
    obtain ⟨z, hz, hyz⟩ := hact y hy
    have hwhole : compose t.read b es (ket y) = ket z := by
      rw [(hmeans t.read b).whole, hz]
    obtain ⟨steps, v, hsteps, hrun, hv, hamplitudes⟩ :=
      Placement.runs_ket hsits σ t b collapse hbelow hsize hstart hwhole
    exact ⟨steps, v, z, hsteps, hrun, hv, hamplitudes, hyz⟩

/-! ## Poisoned sessions -/

variable {α β : Type} [FromSession ε] {s : Session R}

/-- The first call of a construction is refused because the session is poisoned, and the session is
left as it was. -/
def Stops (c : Build R ε α) (s : Session R) : Prop :=
  c.exec s = (.error (FromSession.ofSession .poisoned), s)

theorem stops_apply (hp : s.isPoisoned = true) (g : Gate R) (ps : List QubitId) :
    Stops (apply g ps : Build R ε Unit) s := by
  have hcall : s.apply g ps = (.error .poisoned, s) := by
    unfold Session.apply Session.emit
    rw [if_pos hp]
    rfl
  show ((s.apply g ps).1.mapError FromSession.ofSession, (s.apply g ps).2) = _
  rw [hcall]
  rfl

theorem stops_within [Scalar R] (hp : s.isPoisoned = true) (environment : Environment) (label : String)
    (body : Build R ε α) : Stops (within environment label body) s := by
  have hcall : s.enter environment label = (.error .poisoned, s) := by
    unfold Session.enter
    rw [if_pos hp]
    rfl
  unfold Stops
  rw [exec_within, hcall]

theorem Stops.bind {c : Build R ε α} (h : c.Stops s) (k : α → Build R ε β) : Stops (c >>= k) s := by
  unfold Stops
  rw [exec_bind, h]

theorem Stops.after {r : Except ε Unit} (hr : r = .ok ()) {c : Build R ε α} (h : c.Stops s) :
    Stops (ofExcept r >>= fun _ => c) s := by
  rw [hr]
  exact h

end Build

end Ancilla
