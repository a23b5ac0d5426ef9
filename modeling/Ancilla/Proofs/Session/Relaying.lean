import Ancilla.Proofs.Session.Meaning
import Ancilla.Proofs.Session.Placing
import Ancilla.Proofs.Simulation.BasisStates

/-!
Placements on their way through any open environments. What becomes of one is told by the
environments and their phases alone. An inversion keeps it back. Otherwise it comes out under the
controls and conditions of the frames inside the innermost conjugation that is in its compute phase;
the frames around that conjugation leave it as it is. So on a basis state it acts as it was sent or
not at all.
-/

namespace Ancilla

variable {R : Type}

def relayThrough : List (Frame R) → Placement R → Option (Placement R)
  | [], e => some e
  | f :: fs, e => (f.environment.relay f.phase e).bind (relayThrough fs)

/-! ## Sending -/

theorem Frame.pass_placement (f : Frame R) (e : Placement R) :
    (f.pass e.instruction e.balanced).map Prod.snd =
      .ok ((f.environment.relay f.phase e).map Placement.entry) := by
  have hgate : e.instruction.isMeasure = false := rfl
  unfold Frame.pass
  cases f.environment with
  | conjugation =>
    cases hphase : f.phase with
    | compute =>
      simp only [if_true, hgate]
      rfl
    | act =>
      simp only [if_neg (show ¬ Phase.act = .compute by decide)]
      rfl
  | controlled cs =>
    cases hb : e.balanced with
    | true => simp [Environment.relay, Placement.under, Placement.entry, hb, Except.map]
    | false =>
      simp only [Environment.relay, Placement.under, hb]
      rfl
  | classical c =>
    cases hb : e.balanced with
    | true => simp [Environment.relay, Placement.provided, Placement.entry, hb, Except.map]
    | false =>
      simp only [Environment.relay, Placement.provided, hb]
      rfl
  | inversion => rfl
  | iteration => rfl
  | scope => rfl

theorem FrameStack.routeThrough_placement (fs : List (Frame R)) (e : Placement R) :
    (routeThrough fs e.instruction e.balanced).1 =
      .ok ((relayThrough fs e).map Placement.instruction) := by
  induction fs generalizing e with
  | nil => rfl
  | cons f fs ih =>
    have hpass := f.pass_placement e
    rw [relayThrough]
    rcases hf : f.pass e.instruction e.balanced with err | ⟨f', o⟩
    · rw [hf] at hpass
      cases hpass
    · rw [hf] at hpass
      obtain rfl : o = (f.environment.relay f.phase e).map Placement.entry := Except.ok.inj hpass
      cases hrelay : f.environment.relay f.phase e with
      | none => simp only [routeThrough, hf, hrelay, Option.map_none, Option.bind_none]
      | some e' =>
        simp only [routeThrough, hf, hrelay, Option.map_some, Option.bind_some]
        exact ih e'

theorem relayThrough_of_kin {fs gs : List (Frame R)} (h : List.Forall₂ Frame.Kin fs gs)
    (e : Placement R) : relayThrough gs e = relayThrough fs e := by
  induction h generalizing e with
  | nil => rfl
  | cons hf _ ih =>
    rw [relayThrough, relayThrough, hf.environment, hf.phase]
    exact congrArg _ (funext ih)

namespace Session

variable {s t : Session R}

theorem send_delivers {i : Instruction R} {b : Bool} (h : s.send i b = (.ok (), t))
    {o : Option (Instruction R)}
    (hroute : (FrameStack.routeThrough s.frames.toList i b).1 = .ok o) :
    ∀ j ∈ o, s.circuit.push j = (.ok (), t.circuit) := by
  rintro j rfl
  rw [← (FrameStack.route_eq s.frames i b).1] at hroute
  unfold Session.send at h
  rcases hr : s.frames.route i b with ⟨r, frames⟩
  rw [hr] at h hroute
  obtain rfl : r = .ok (some j) := hroute
  have hdelivered : { s with frames }.deliver j = (.ok (), t) := h
  have hok := deliver_ok_iff { s with frames } j
  have hstate := deliver_eq { s with frames } j
  rw [hdelivered] at hok hstate
  exact Prod.ext (hok.1 rfl) (congrArg Session.circuit hstate).symm

theorem sendAll_grown {es : List (Placement R)} (h : s.sendAll es = .ok t) :
    Circuit.Grown s.circuit t.circuit := by
  induction es generalizing s with
  | nil =>
    obtain rfl := Except.ok.inj h
    exact .refl
  | cons e es ih =>
    obtain ⟨s₁, hfirst, hrest⟩ := sendAll_cons.1 h
    have hgrown := send_grown s e.instruction e.balanced
    rw [hfirst] at hgrown
    exact hgrown.trans (ih hrest)

theorem sendAll_relayed (hc : s.circuit.Registers) {es : List (Placement R)}
    (h : s.sendAll es = .ok t) :
    t.emissions = s.emissions ++
        (es.filterMap (relayThrough s.frames.toList)).map Placement.instruction ∧
      ∀ e ∈ es.filterMap (relayThrough s.frames.toList), e.Fits t.circuit.width := by
  induction es generalizing s with
  | nil =>
    obtain rfl := Except.ok.inj h
    exact ⟨(List.append_nil _).symm, fun e he => absurd he List.not_mem_nil⟩
  | cons e es ih =>
    obtain ⟨s₁, hfirst, hrest⟩ := sendAll_cons.1 h
    obtain ⟨o, fs', hroute, -, hout⟩ := send_ok hfirst
    have hrelay := FrameStack.routeThrough_placement s.frames.toList e
    have hpush := send_delivers hfirst hrelay
    rw [hroute] at hrelay
    obtain rfl := Except.ok.inj hrelay
    have hgrown : Circuit.Grown s.circuit s₁.circuit :=
      sendAll_grown (sendAll_cons.2 ⟨s₁, hfirst, sendAll_nil s₁⟩)
    -- the frames change their marks and logs only, so the rest goes the same way
    have hkin := send_kin s e.instruction e.balanced
    rw [hfirst] at hkin
    have hsame : relayThrough s₁.frames.toList = relayThrough s.frames.toList :=
      funext (relayThrough_of_kin hkin)
    obtain ⟨hrestOut, hrestFits⟩ := ih (hc.grown hgrown) hrest
    rw [hsame] at hrestOut hrestFits
    rw [List.filterMap_cons]
    cases hfirstOut : relayThrough s.frames.toList e with
    | none =>
      rw [hfirstOut] at hout
      refine ⟨?_, hrestFits⟩
      rw [hrestOut, hout, List.append_assoc]
      rfl
    | some e' =>
      rw [hfirstOut] at hout hpush
      have hfits : e'.Fits t.circuit.width :=
        (hc.push_gate (hpush _ rfl)).mono (hgrown.trans (sendAll_grown hrest)).width_le
      refine ⟨?_, List.forall_mem_cons.2 ⟨hfits, hrestFits⟩⟩
      rw [hrestOut, hout, List.append_assoc]
      rfl

end Session

/-! ## Acting on basis states -/

/-- The frames whose controls and conditions act on what is sent to the innermost one: those inside
the innermost conjugation that is in its compute phase. -/
def exposed (fs : List (Frame R)) : List (Frame R) := fs.takeWhile fun f => !f.isComputing

def Frame.Admits (f : Frame R) (read : ClbitId → Bool) (y : ℕ) : Prop :=
  AllRead f.environment.controls y ∧ ∀ c, f.environment = .classical c → c.holds read = true

structure LetsPass (fs : List (Frame R)) (read : ClbitId → Bool) (y : ℕ) : Prop where
  upright : ¬ Inverted fs
  admits : ∀ f ∈ exposed fs, f.Admits read y

theorem relayThrough_of_inverted {fs : List (Frame R)} (h : Inverted fs) (e : Placement R) :
    relayThrough fs e = none := by
  induction fs generalizing e with
  | nil =>
    obtain ⟨f, hf, -⟩ := h
    exact absurd hf List.not_mem_nil
  | cons f fs ih =>
    rw [relayThrough]
    rcases inverted_cons.1 h with hf | hfs
    · rw [hf]
      rfl
    · exact Option.bind_eq_none_iff.2 fun e' _ => ih hfs e'

theorem relayThrough_of_balanced {fs : List (Frame R)} (h : ¬ Inverted fs) {e : Placement R}
    (he : e.balanced = true) : relayThrough fs e = some e := by
  induction fs with
  | nil => rfl
  | cons f fs ih =>
    rw [inverted_cons, not_or] at h
    have hsame : f.environment.relay f.phase e = some e := by
      cases henv : f.environment with
      | conjugation =>
        cases f.phase with
        | compute =>
          rw [Environment.relay, Placement.shielded, ← he]
        | act => rfl
      | controlled cs => rw [Environment.relay, Placement.under, if_pos he]
      | classical c => rw [Environment.relay, Placement.provided, if_pos he]
      | inversion => exact absurd henv h.1
      | iteration => rfl
      | scope => rfl
    rw [relayThrough, hsame, Option.bind_some, ih h.2]

variable {read : ClbitId → Bool} {b : Bindings ℝ} {e e' : Placement ℝ}

/-- A placement under further controls in front, which acts on a basis state as another one does if
a proposition holds, and does nothing if not. -/
structure Placement.Guards (read : ClbitId → Bool) (b : Bindings ℝ) (cs : List QubitId)
    (p : ℕ → Prop) (e e' : Placement ℝ) : Prop where
  ready : e'.Ready b
  qubits : e'.qubits = cs ++ e.qubits
  acts : ∀ y, p y → e'.operator read b (ket y) = e.operator read b (ket y)
  rests : ∀ y, ¬ p y → e'.operator read b (ket y) = ket y

namespace Placement

theorem Guards.trans {cs ds : List QubitId} {p q : ℕ → Prop} {e'' : Placement ℝ}
    (h : Guards read b cs p e e') (h' : Guards read b ds q e' e'') :
    Guards read b (ds ++ cs) (fun y => p y ∧ q y) e e'' := by
  refine ⟨h'.ready, ?_, fun y hy => (h'.acts y hy.2).trans (h.acts y hy.1), fun y hy => ?_⟩
  · rw [h'.qubits, h.qubits, List.append_assoc]
  · by_cases hq : q y
    · exact (h'.acts y hq).trans (h.rests y fun hp => hy ⟨hp, hq⟩)
    · exact h'.rests y hq

theorem Ready.guards_relay (h : e.Ready b) (he : e.balanced = false) (read : ClbitId → Bool)
    {f : Frame ℝ} (hopen : f.environment ≠ .inversion) (hcomputing : f.isComputing = false) :
    ∃ e', f.environment.relay f.phase e = some e' ∧ e'.balanced = false ∧
      Guards read b f.environment.controls (f.Admits read) e e' := by
  have hb : ¬ e.balanced = true := by simp [he]
  -- frames without controls and without a condition let everything pass as it is
  have hplain : f.environment.controls = [] → (∀ c, f.environment ≠ .classical c) →
      Guards read b f.environment.controls (f.Admits read) e e := by
    intro hnone hother
    rw [hnone]
    refine ⟨h, rfl, fun _ _ => rfl, fun y hy => absurd ⟨?_, fun c hc => absurd hc (hother c)⟩ hy⟩
    rw [hnone]
    exact fun q hq => absurd hq List.not_mem_nil
  cases henv : f.environment with
  | conjugation =>
    cases hphase : f.phase with
    | compute => exact absurd (Frame.isComputing_iff.2 ⟨henv, hphase⟩) (by simp [hcomputing])
    | act => exact ⟨e, rfl, he, henv ▸ hplain (by rw [henv]; rfl) (by simp [henv])⟩
  | controlled cs =>
    refine ⟨e.under cs, rfl, ?_, h.under cs, ?_, fun y hy => ?_, fun y hy => ?_⟩
    · rw [Placement.under, if_neg hb]
      exact he
    · rw [Placement.under, if_neg hb]
      rfl
    · have hall : AllRead cs y := by simpa [Frame.Admits, henv, Environment.controls] using hy.1
      rw [h.operator_under, if_neg hb]
      exact (Operator.controlled_ket cs _ y).trans (if_pos hall)
    · have hnot : ¬ AllRead cs y := fun hall =>
        hy ⟨by simpa [henv, Environment.controls] using hall, by simp [henv]⟩
      rw [h.operator_under, if_neg hb]
      exact (Operator.controlled_ket cs _ y).trans (if_neg hnot)
  | classical c =>
    refine ⟨e.provided c, rfl, ?_, h.provided c, ?_, fun y hy => ?_, fun y hy => ?_⟩
    · rw [Placement.provided, if_neg hb]
      exact he
    · rw [Placement.provided, if_neg hb]
      rfl
    · rw [operator_provided, hy.2 c henv]
      rfl
    · -- there are no controls, so it is the condition that does not hold
      have hnot : c.holds read = false := by
        rw [← Bool.not_eq_true]
        refine fun hholds => hy ⟨?_, fun c' hc' => ?_⟩
        · rw [henv]
          exact fun q hq => absurd hq List.not_mem_nil
        · rw [henv] at hc'
          cases hc'
          exact hholds
      rw [operator_provided, hnot, he]
      rfl
  | inversion => exact absurd henv hopen
  | iteration => exact ⟨e, rfl, he, henv ▸ hplain (by rw [henv]; rfl) (by simp [henv])⟩
  | scope => exact ⟨e, rfl, he, henv ▸ hplain (by rw [henv]; rfl) (by simp [henv])⟩

theorem Ready.guards_relayThrough (h : e.Ready b) (he : e.balanced = false)
    (read : ClbitId → Bool) {fs : List (Frame ℝ)} (hopen : ¬ Inverted fs) :
    ∃ e', relayThrough fs e = some e' ∧
      Guards read b ((exposed fs).reverse.flatMap fun f => f.environment.controls)
        (fun y => ∀ f ∈ exposed fs, f.Admits read y) e e' := by
  induction fs generalizing e with
  | nil => exact ⟨e, rfl, h, rfl, fun _ _ => rfl, fun y hy => absurd (by simp [exposed]) hy⟩
  | cons f fs ih =>
    rw [inverted_cons, not_or] at hopen
    cases hcomputing : f.isComputing with
    | true =>
      obtain ⟨henv, hphase⟩ := Frame.isComputing_iff.1 hcomputing
      have hnone : exposed (f :: fs) = [] := by simp [exposed, hcomputing]
      have hrelay : relayThrough (f :: fs) e = some e.shielded := by
        rw [relayThrough, henv, hphase]
        exact relayThrough_of_balanced hopen.2 rfl
      rw [hnone]
      exact ⟨e.shielded, hrelay, ⟨h.rooted, h.angles⟩, rfl, fun _ _ => rfl, fun y hy =>
        absurd (by simp) hy⟩
    | false =>
      have hmore : exposed (f :: fs) = f :: exposed fs := by simp [exposed, hcomputing]
      obtain ⟨e₁, hrelay, he₁, hfirst⟩ := h.guards_relay he read hopen.1 hcomputing
      obtain ⟨e', hrest, hguards⟩ := ih hfirst.ready he₁ hopen.2
      refine ⟨e', by rw [relayThrough, hrelay, Option.bind_some, hrest], ?_⟩
      rw [hmore]
      simpa only [List.reverse_cons, List.flatMap_append, List.flatMap_singleton,
        List.forall_mem_cons] using hfirst.trans hguards

end Placement

end Ancilla
