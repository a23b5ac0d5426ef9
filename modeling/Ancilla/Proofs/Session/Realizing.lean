import Ancilla.Proofs.Session.Meaning
import Ancilla.Proofs.Session.Placing
import Ancilla.Proofs.Simulation.BasisStates

/-!
Constructions that realize operators. A construction realizes an operator on qubits in use if it
places unconditional gates on these qubits whose operators multiply to it, and whose balanced part
does nothing. Sequences realize products, controls realize controlled operators, and conjugations
and inversions realize what their names say.
-/

namespace Ancilla

namespace Placement

/-- A placement of an unconditional gate built from a named one on some of the given qubits, all of
whose angles have values. -/
structure Sits (qs : List QubitId) (e : Placement ℝ) : Prop where
  ready : ∀ b, e.Ready b
  length : e.qubits.length = e.gate.kind.numQubits
  nodup : e.qubits.Nodup
  among : ∀ q ∈ e.qubits, q ∈ qs
  plain : e.gate.condition = none

variable {qs : List QubitId} {e : Placement ℝ}

theorem Sits.mono (h : e.Sits qs) {ps : List QubitId} (hqs : ∀ q ∈ qs, q ∈ ps) : e.Sits ps :=
  ⟨h.ready, h.length, h.nodup, fun q hq => hqs q (h.among q hq), h.plain⟩

theorem Sits.fits (h : e.Sits qs) {n : ℕ} (hn : ∀ q ∈ qs, q < n) : e.Fits n :=
  ⟨h.length, h.nodup, fun q hq => hn q (h.among q hq)⟩

theorem Sits.shielded (h : e.Sits qs) : e.shielded.Sits qs :=
  ⟨fun b => ⟨(h.ready b).rooted, (h.ready b).angles⟩, h.length, h.nodup, h.among, h.plain⟩

theorem Sits.undone (h : e.Sits qs) : e.undone.Sits qs := by
  have hfits := (h.ready []).fits_undone_iff.2 (h.fits (n := qs.sum + 1) fun q hq =>
    Nat.lt_succ_of_le (List.le_sum_of_mem hq))
  exact ⟨fun b => (h.ready b).undone, hfits.length, h.nodup, h.among, h.plain⟩

theorem Sits.under (h : e.Sits qs) {cs : List QubitId} (hcs : cs.Nodup) (hdis : ∀ q ∈ qs, q ∉ cs) :
    (e.under cs).Sits (cs ++ qs) := by
  have hrooted := (h.ready []).rooted
  have hready := fun b => (h.ready b).under cs
  cases hb : e.balanced with
  | true =>
    rw [Placement.under, if_pos hb]
    exact h.mono fun q hq => List.mem_append_right _ hq
  | false =>
    have hunder : e.under cs = { e with
        gate := { e.gate with kind := e.gate.kind.withControls cs.length }
        qubits := cs ++ e.qubits } := if_neg (by simp [hb])
    rw [hunder] at hready ⊢
    refine ⟨hready, ?_, ?_, ?_, h.plain⟩
    · show (cs ++ e.qubits).length = (e.gate.kind.withControls cs.length).numQubits
      rw [List.length_append, h.length, hrooted.numQubits_withControls, Nat.add_comm]
    · exact List.nodup_append'.2 ⟨hcs, h.nodup, fun q hq hq' => hdis q (h.among q hq') hq⟩
    · intro q hq
      rcases List.mem_append.1 hq with hq | hq
      · exact List.mem_append_left _ hq
      · exact List.mem_append_right _ (h.among q hq)

end Placement

theorem exists_above (qs : List QubitId) : ∃ n, ∀ q ∈ qs, q < n :=
  ⟨qs.sum + 1, fun _ hq => Nat.lt_succ_of_le (List.le_sum_of_mem hq)⟩

theorem Session.Hosts.mono {s : Session ℝ} {ps qs : List QubitId} (h : s.Hosts qs)
    (hps : ∀ q ∈ ps, q ∈ qs) : s.Hosts ps :=
  ⟨h.unpoisoned, h.allocator, fun q hq => h.live q (hps q hq)⟩

namespace Build

open Placement

variable {ε : Type} {ps qs : List QubitId} {A B : Operator ℂ}

/-- A construction succeeds on qubits in use and acts on them as an operator. -/
def Realizes (b : Build ℝ ε Unit) (qs : List QubitId) (A : Operator ℂ) : Prop :=
  ∃ es, b.Places qs es ∧ (∀ e ∈ es, e.Sits qs) ∧ ∀ read b, Means read b es A

theorem Realizes.mono {b : Build ℝ ε Unit} (h : b.Realizes ps A) (hps : ∀ q ∈ ps, q ∈ qs) :
    b.Realizes qs A := by
  obtain ⟨es, hplaces, hsits, hmeans⟩ := h
  exact ⟨es, fun s t hs => hplaces s t (hs.mono hps), fun e he => (hsits e he).mono hps, hmeans⟩

theorem realizes_pure (qs : List QubitId) : Realizes (pure () : Build ℝ ε Unit) qs 1 :=
  ⟨[], places_pure qs, fun _ he => absurd he List.not_mem_nil, fun _ _ => ⟨rfl, rfl⟩⟩

theorem realizes_ofExcept {r : Except ε Unit} (hr : r = .ok ()) (qs : List QubitId) :
    Realizes (ofExcept r : Build ℝ ε Unit) qs 1 := by
  rw [hr]
  exact realizes_pure qs

theorem Realizes.bind {b k : Build ℝ ε Unit} (hb : b.Realizes qs A) (hk : k.Realizes qs B) :
    (b >>= fun _ => k).Realizes qs (B * A) := by
  obtain ⟨es, hplaces, hsits, hmeans⟩ := hb
  obtain ⟨fs, hplaces', hsits', hmeans'⟩ := hk
  refine ⟨es ++ fs, hplaces.bind hplaces', ?_, fun read b => (hmeans read b).append (hmeans' read b)⟩
  intro e he
  rcases List.mem_append.1 he with he | he
  · exact hsits e he
  · exact hsits' e he

variable [FromSession ε]

theorem realizes_assertRestored (ps qs : List QubitId) :
    Realizes (assertRestored ps : Build ℝ ε Unit) qs 1 :=
  ⟨[], places_assertRestored ps qs, fun _ he => absurd he List.not_mem_nil, fun _ _ => ⟨rfl, rfl⟩⟩

theorem realizes_standard {g : Standard ℝ} {angles : List ℝ}
    (hangles : ∀ b, Step.angles b g.parameters = .ok angles) {ops : List QubitId}
    (hlength : ops.length = g.numQubits) (hnodup : ops.Nodup) (hops : ∀ q ∈ ops, q ∈ qs) :
    Realizes (standard g ops : Build ℝ ε Unit) qs ((GateKind.standard g).operator ops angles) := by
  refine ⟨[⟨.ofStandard g, ops, false⟩], places_apply _ hops, ?_, ?_⟩
  · intro e he
    obtain rfl := List.mem_singleton.1 he
    exact ⟨fun b => ⟨GateKind.isRooted_standard g, angles, hangles b⟩, hlength, hnodup, hops, rfl⟩
  · intro read b
    refine ⟨?_, rfl⟩
    rw [compose, compose, one_mul]
    have hvalues : (Gate.ofStandard g).angles b = angles := Gate.angles_eq (hangles b)
    rw [← hvalues]
    rfl

omit [FromSession ε] in
theorem Realizes.isUnit {b : Build ℝ ε Unit} (h : b.Realizes qs A) : IsUnit A := by
  obtain ⟨es, -, hsits, hmeans⟩ := h
  obtain ⟨n, hn⟩ := exists_above qs
  rw [← (hmeans (fun _ => false) []).whole]
  exact (compose_undone (fun e he => (hsits e he).ready []) fun e he => (hsits e he).fits hn).1

theorem Realizes.control {body : Build ℝ ε Unit} (hb : body.Realizes qs A) {cs : List QubitId}
    (hcs : cs.Nodup) (hdis : ∀ q ∈ qs, q ∉ cs) :
    Realizes (control cs body) (cs ++ qs) (Operator.controlled cs A) := by
  obtain ⟨n, hn⟩ := exists_above qs
  obtain ⟨es, hplaces, hsits, hmeans⟩ := hb
  have hwide : body.Places (cs ++ qs) es := fun s t hs =>
    hplaces s t (hs.mono fun q hq => List.mem_append_right _ hq)
  refine ⟨es.map (.under cs), hwide.control fun q hq => List.mem_append_left _ hq, ?_, ?_⟩
  · intro e he
    obtain ⟨e', he', rfl⟩ := List.mem_map.1 he
    exact (hsits e' he').under hcs hdis
  · intro read b
    refine (hmeans read b).under (fun e he => (hsits e he).ready b) (fun e he => (hsits e he).fits hn) ?_
    exact fun e he q hq => hdis q ((hsits e he).among q (List.mem_of_mem_drop hq))

theorem Realizes.underControls {body : Build ℝ ε Unit} (hb : body.Realizes qs A)
    {cs : List QubitId} (hcs : cs.Nodup) (hdis : ∀ q ∈ qs, q ∉ cs) :
    Realizes (underControls cs body) (cs ++ qs) (Operator.controlled cs A) := by
  unfold Build.underControls
  split
  · next hempty =>
    obtain rfl := List.isEmpty_iff.1 hempty
    rw [Operator.controlled_nil]
    exact hb
  · exact hb.control hcs hdis

theorem Realizes.invert {body : Build ℝ ε Unit} (hb : body.Realizes qs A) :
    Realizes (invert body) qs (Ring.inverse A) := by
  obtain ⟨n, hn⟩ := exists_above qs
  obtain ⟨es, hplaces, hsits, hmeans⟩ := hb
  refine ⟨es.reverse.map .undone, hplaces.invert, ?_, ?_⟩
  · intro e he
    obtain ⟨e', he', rfl⟩ := List.mem_map.1 he
    exact (hsits e' (List.mem_reverse.1 he')).undone
  · exact fun read b => (hmeans read b).undone (fun e he => (hsits e he).ready b)
      fun e he => (hsits e he).fits hn

theorem Realizes.conjugate (label : String) {compute act : Build ℝ ε Unit}
    (hc : compute.Realizes qs A) (ha : act.Realizes qs B) :
    Realizes (conjugate label compute fun _ => act) qs (Ring.inverse A * B * A) := by
  obtain ⟨n, hn⟩ := exists_above qs
  obtain ⟨es, hplaces, hsits, hmeans⟩ := hc
  obtain ⟨fs, hplaces', hsits', hmeans'⟩ := ha
  have hforward : ∀ e ∈ es.map Placement.shielded, e.Sits qs := by
    intro e he
    obtain ⟨e', he', rfl⟩ := List.mem_map.1 he
    exact (hsits e' he').shielded
  refine ⟨_, hplaces.conjugate label hplaces', ?_, ?_⟩
  · intro e he
    rcases List.mem_append.1 he with he | he
    · rcases List.mem_append.1 he with he | he
      · exact hforward e he
      · exact hsits' e he
    · obtain ⟨e', he', rfl⟩ := List.mem_map.1 he
      exact (hforward e' (List.mem_reverse.1 he')).undone
  · exact fun read b => (hmeans read b).conjugate (hmeans' read b) (fun e he => (hsits e he).ready b)
      fun e he => (hsits e he).fits hn

omit [FromSession ε] in
theorem Realizes.commute {b : Build ℝ ε Unit} (h : b.Realizes qs A) {cs : List QubitId}
    (hcs : ∀ q ∈ qs, q ∉ cs) : Commute A (Operator.allRead cs) := by
  obtain ⟨es, -, hsits, hmeans⟩ := h
  obtain ⟨n, hn⟩ := exists_above qs
  rw [← (hmeans (fun _ => false) []).whole]
  clear hmeans
  induction es with
  | nil => exact Commute.one_left _
  | cons e es ih =>
    have he := hsits e List.mem_cons_self
    refine (ih fun e he => hsits e (List.mem_cons_of_mem _ he)).mul_left ?_
    exact (he.ready []).commute (he.fits hn) fun q hq => hcs q (he.among q (List.mem_of_mem_drop hq))

end Build

/-! ## Named gates -/

namespace Scalar

variable {R : Type} [Scalar R]

def quarterTurn : R := pi / two

def eighthTurn : R := pi / ofInt 4

def eighthTurnBack : R := -(pi / ofInt 4)

end Scalar

namespace Build

variable {ε : Type} [FromSession ε] {qs : List QubitId}

theorem angles_constant (b : Bindings ℝ) (θ : ℝ) : Step.angles b [.constant θ] = .ok [θ] := by
  refine Exact.angles_ok_iff.2 (.cons ?_ .nil)
  simp [Expr.evaluate, Expr.symbols, Expr.collectSymbols, Expr.eval?, Scalar.isFinite]

theorem realizes_matrix (g : Standard ℝ) (angles : List ℝ) (cs : List QubitId) (t : QubitId)
    {m : Matrix2 ℂ} (hangles : ∀ b, Step.angles b g.parameters = .ok angles)
    (hswap : g.splitControls.1 ≠ .swap) (hm : Kernel.rootMatrix? g.splitControls.1 angles = some m)
    (hcs : cs.length = g.numControls) (hnodup : (cs ++ [t]).Nodup)
    (hops : ∀ q ∈ cs ++ [t], q ∈ qs) :
    Realizes (standard g (cs ++ [t]) : Build ℝ ε Unit) qs (.controlled cs (.onQubit m t)) := by
  have hlength : (cs ++ [t]).length = g.numQubits := by
    rw [List.length_append, hcs, Standard.numQubits, Standard.rootWidth_of_ne_swap hswap]
    rfl
  have hgate : Realizes (standard g (cs ++ [t]) : Build ℝ ε Unit) qs
      ((GateKind.standard g).operator (cs ++ [t]) angles) :=
    realizes_standard hangles hlength hnodup hops
  have hcount : (GateKind.standard g).numControls = cs.length := hcs.symm
  have hroot : (GateKind.standard g).root = g.splitControls.1 := rfl
  rw [GateKind.operator, hcount, List.take_left, List.drop_left, hroot,
    Standard.operator_of_matrix hswap hm] at hgate
  exact hgate

theorem realizes_single (g : Standard ℝ) (angles : List ℝ) {q : QubitId} {m : Matrix2 ℂ}
    (hangles : ∀ b, Step.angles b g.parameters = .ok angles) (hroot : g.splitControls = (g, 0))
    (hm : Kernel.rootMatrix? g angles = some m) (hq : q ∈ qs) :
    Realizes (standard g [q] : Build ℝ ε Unit) qs (.onQubit m q) := by
  have hsame : g.splitControls.1 = g := congrArg Prod.fst hroot
  have hnone : g.numControls = 0 := congrArg Prod.snd hroot
  have hswap : g.splitControls.1 ≠ .swap := by
    rw [hsame]
    rintro rfl
    cases hm
  have hgate : Realizes (standard g [q] : Build ℝ ε Unit) qs (.controlled [] (.onQubit m q)) :=
    realizes_matrix g angles [] q hangles hswap (hsame.symm ▸ hm) hnone.symm (List.nodup_singleton q)
      (by simpa using hq)
  rwa [Operator.controlled_nil] at hgate

theorem realizes_x {q : QubitId} (hq : q ∈ qs) :
    Realizes (x q : Build ℝ ε Unit) qs (.onQubit Kernel.flip q) :=
  realizes_single .x [] (fun _ => rfl) rfl rfl hq

noncomputable def hadamard : Matrix2 ℂ :=
  let r : ℂ := (Scalar.invSqrtTwo : ℝ)
  ⟨r, r, r, -r⟩

theorem realizes_h {q : QubitId} (hq : q ∈ qs) :
    Realizes (h q : Build ℝ ε Unit) qs (.onQubit hadamard q) :=
  realizes_single .h [] (fun _ => rfl) rfl (by simp [Kernel.rootMatrix?, hadamard]) hq

theorem realizes_s {q : QubitId} (hq : q ∈ qs) :
    Realizes (s q : Build ℝ ε Unit) qs (.onQubit (Kernel.phase (Scalar.quarterTurn : ℝ)) q) :=
  realizes_single .s [] (fun _ => rfl) rfl rfl hq

theorem realizes_t {q : QubitId} (hq : q ∈ qs) :
    Realizes (t q : Build ℝ ε Unit) qs (.onQubit (Kernel.phase (Scalar.eighthTurn : ℝ)) q) :=
  realizes_single .t [] (fun _ => rfl) rfl rfl hq

theorem realizes_tdg {q : QubitId} (hq : q ∈ qs) :
    Realizes (tdg q : Build ℝ ε Unit) qs (.onQubit (Kernel.phase (Scalar.eighthTurnBack : ℝ)) q) :=
  realizes_single .tdg [] (fun _ => rfl) rfl rfl hq

theorem realizes_p (θ : ℝ) {q : QubitId} (hq : q ∈ qs) :
    Realizes (p (.constant θ) q : Build ℝ ε Unit) qs (.onQubit (Kernel.phase θ) q) :=
  realizes_single (.p (.constant θ)) [θ] (fun b => angles_constant b θ) rfl rfl hq

theorem realizes_cp (θ : ℝ) {c t : QubitId} (hne : c ≠ t) (hc : c ∈ qs) (ht : t ∈ qs) :
    Realizes (cp (.constant θ) c t : Build ℝ ε Unit) qs
      (.controlled [c] (.onQubit (Kernel.phase θ) t)) :=
  realizes_matrix (.cp (.constant θ)) [θ] [c] t (fun b => angles_constant b θ)
    (by simp [Standard.splitControls]) rfl rfl (by simpa using hne) (by simp [hc, ht])

theorem realizes_cx {c t : QubitId} (hne : c ≠ t) (hc : c ∈ qs) (ht : t ∈ qs) :
    Realizes (cx c t : Build ℝ ε Unit) qs (.controlled [c] (.onQubit Kernel.flip t)) :=
  realizes_matrix .cx [] [c] t (fun _ => rfl) (by simp [Standard.splitControls]) rfl rfl
    (by simpa using hne) (by simp [hc, ht])

theorem realizes_cz {c t : QubitId} (hne : c ≠ t) (hc : c ∈ qs) (ht : t ∈ qs) :
    Realizes (cz c t : Build ℝ ε Unit) qs
      (.controlled [c] (.onQubit (Kernel.phase (Scalar.pi : ℝ)) t)) :=
  realizes_matrix .cz [] [c] t (fun _ => rfl) (by simp [Standard.splitControls]) rfl rfl
    (by simpa using hne) (by simp [hc, ht])

theorem realizes_swap {a b : QubitId} (hne : a ≠ b) (ha : a ∈ qs) (hb : b ∈ qs) :
    Realizes (swap a b : Build ℝ ε Unit) qs (.exchange a b) := by
  have hgate : Realizes (standard .swap [a, b] : Build ℝ ε Unit) qs
      ((GateKind.standard .swap).operator [a, b] []) :=
    realizes_standard (fun _ => rfl) rfl (by simpa using hne) (by simp [ha, hb])
  have hexchange : (GateKind.standard .swap).operator [a, b] [] =
      Operator.controlled [] (Operator.exchange a b) := rfl
  rw [hexchange, Operator.controlled_nil] at hgate
  exact hgate

end Build

/-! ## Named gates on basis states -/

namespace Operator

theorem flip_ket (q y : ℕ) : onQubit Kernel.flip q (ket y) = (ket (toggle y q) : ℕ → ℂ) := by
  rw [onQubit_ket, Kernel.flip]
  cases hy : y.testBit q <;> simp [setBit, hy]

theorem controlled_flip_ket (cs : List ℕ) (q y : ℕ) :
    controlled cs (onQubit Kernel.flip q) (ket y) = (ket (flipUnder cs q y) : ℕ → ℂ) := by
  rw [controlled_ket, flip_ket, flipUnder]
  split <;> rfl

theorem phase_ket (θ : ℝ) (q y : ℕ) : onQubit (Kernel.phase θ) q (ket y) =
    (if y.testBit q then Amplitude.polar 1 θ else 1 : ℂ) • (ket y : ℕ → ℂ) := by
  rw [Kernel.phase, Exact.scalar_one, onQubit_diagonal, diagonal_ket]

end Operator

/-! ## Placements on basis states -/

theorem Placement.runs_ket {qs : List QubitId} {es : List (Placement ℝ)} (hes : ∀ e ∈ es, e.Sits qs)
    (σ : Type) [DrawSource σ ℝ] (t : Trajectory ℂ σ) (b : Bindings ℝ) (collapse : Bool) {y z : ℕ}
    (hqs : ∀ q ∈ qs, q < t.state.numQubits)
    (hsize : t.state.amplitudes.size = 2 ^ t.state.numQubits)
    (hstart : amplitudes t.state.amplitudes = ket y) (hact : compose t.read b es (ket y) = ket z) :
    ∃ steps v, Step.ofInstructions b collapse (es.map instruction) = .ok steps ∧
      t.run steps = t.withAmplitudes v ∧ v.size = t.state.amplitudes.size ∧ amplitudes v = ket z := by
  obtain ⟨steps, hsteps, hrun⟩ := run_steps σ (fun e he => (hes e he).ready b)
    (fun e he => (hes e he).fits hqs) collapse
  obtain ⟨v, hv, hlast, hamplitudes⟩ := hrun t hsize
  rw [hstart, hact] at hamplitudes
  exact ⟨steps, v, hsteps, hlast, hv.trans hsize.symm, hamplitudes⟩

end Ancilla
