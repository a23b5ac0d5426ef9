import Ancilla.Proofs.Circuit.Wires
import Ancilla.Proofs.Session.Pending

/-!
What calls do to the circuit and to the root frame. The circuit of a session only grows, so the
qubits with a wire are registered ones in every session that can be reached, and the outermost
frame stays a plain scope.
-/

namespace Ancilla

variable {R : Type}

namespace Session

open Circuit

theorem send_grown (s : Session R) (i : Instruction R) (b : Bool) :
    Grown s.circuit (s.send i b).2.circuit := by
  refine send_invariant (P := fun s' => Grown s.circuit s'.circuit) .refl ?_
  intro s' j hs'
  rw [deliver_eq]
  exact hs'.push j

theorem emit_grown (s : Session R) (i : Instruction R) : Grown s.circuit (s.emit i).2.circuit := by
  rcases s.emit_cases i with hno | ⟨-, hcall⟩
  · rw [hno.snd]
    exact .refl
  · rw [hcall]
    exact send_grown s i false

theorem reclaim_grown (s : Session R) (qs : List QubitId) :
    Grown s.circuit (s.reclaim qs).2.circuit := by
  obtain ⟨_, -, hback⟩ | ⟨a, -, hback⟩ := s.reclaim_cases qs
  · rw [hback]
    exact .refl
  · rw [hback]
    exact Grown.refl.recordRelease qs

theorem foldl_forceReclaim_grown (fs : List (Frame R)) (s : Session R) :
    Grown s.circuit (fs.foldl forceReclaim s).circuit := by
  induction fs generalizing s with
  | nil => exact .refl
  | cons f fs ih => exact (reclaim_grown s _).trans (ih _)

theorem allocate_grown (s : Session R) (count : Nat) (name : String) :
    Grown s.circuit (s.allocate count name).2.circuit := by
  have hfold : ∀ (l : List (QubitId × Nat)) (c : Circuit R), Grown s.circuit c →
      Grown s.circuit (l.foldl (fun c p => c.registerQubit ⟨p.1, some name, some p.2⟩) c) := by
    intro l
    induction l with
    | nil => exact fun c hc => hc
    | cons e l ih => exact fun c hc => ih _ (hc.registerQubit _)
  rcases s.allocate_cases count name with hno | ⟨qs, a, -, -, -, hcall⟩
  · rw [hno.snd]
    exact .refl
  · rw [hcall]
    exact hfold _ _ .refl

theorem release_grown (s : Session R) (qs : List QubitId) :
    Grown s.circuit (s.release qs).2.circuit := by
  rcases s.release_cases qs with hno | ⟨-, hcall⟩
  · rw [hno.snd]
    exact .refl
  · rw [hcall]
    exact reclaim_grown s qs

theorem measure_grown (s : Session R) (q : QubitId) : Grown s.circuit (s.measure q).2.circuit := by
  rcases s.measure_cases q with hno | ⟨-, -, -, hcall⟩
  · rw [hno.snd]
    exact .refl
  · rw [hcall _ rfl]
    exact (Grown.refl.addClbit (some q)).trans
      (emit_grown { s with circuit := (s.circuit.addClbit (some q)).2 } _)

variable [Scalar R]

theorem replay_grown (s : Session R) (f : Frame R) : Grown s.circuit (s.replay f).2.circuit := by
  rw [replay_eq]
  exact undo_invariant (P := fun s' => Grown s.circuit s'.circuit)
    (fun s' _ b j hs' _ _ => hs'.trans (send_grown s' j b)) .refl

theorem exit_grown (s : Session R) (id : FrameId) : Grown s.circuit (s.exit id).2.circuit := by
  have hreplay : ∀ {parent rest r s₁}, (s.popped parent rest).replay s.frames.top = (r, s₁) →
      Grown s.circuit s₁.circuit := by
    intro parent rest r s₁ hr
    have hgrown := replay_grown (s.popped parent rest) s.frames.top
    rw [hr] at hgrown
    exact hgrown
  have hexits := exits s id
  generalize s.exit id = answer at hexits
  cases hexits with
  | refused e => exact .refl
  | violated e => exact .refl
  | stuck hb hr => exact (hreplay hr).trans (reclaim_grown _ _)
  | leaky hb hr => exact (hreplay hr).trans (reclaim_grown _ _)
  | refusedBack hb hr hback => exact (hreplay hr).trans (reclaim_grown _ _)
  | @closed _ _ s₁ s₂ hp hb hid hr hl hback =>
    have hgrown := reclaim_grown s₁ s.frames.top.toReclaim
    rw [hback] at hgrown
    exact (hreplay hr).trans hgrown

theorem perform_grown (s : Session R) (c : Call R) : Grown s.circuit (c.perform s).2.circuit := by
  have hframing : c.IsFraming → _ := fun hc => (hc.keeps s).2
  cases c with
  | allocate count name => exact allocate_grown s count name
  | exportQubits | assertRestored | enter | beginAction => exact hframing trivial ▸ .refl
  | release qs => exact release_grown s qs
  | apply g qs => exact emit_grown s _
  | barrier qs => exact emit_grown s _
  | measure q => exact measure_grown s q
  | exit id => exact exit_grown s id
  | abort id =>
    show Grown s.circuit (s.abort id).circuit
    rcases s.abort_cases id with hcall | ⟨dropped, frames, -, hcall⟩
    · rw [hcall]
      exact .refl
    · rw [hcall]
      exact foldl_forceReclaim_grown dropped { s with frames }

theorem Reachable.registers {s : Session R} (h : s.Reachable) : s.circuit.Registers :=
  h.invariant (P := fun s => s.circuit.Registers) (fun config => registers_new config.name)
    fun s c hs => hs.grown (perform_grown s c)

end Session

/-! ## The root frame -/

def RootScope (fs : List (Frame R)) : Prop := (fs.map Frame.environment).getLast? = some .scope

theorem RootScope.congr {fs fs' : List (Frame R)} (h : RootScope fs)
    (he : fs'.map Frame.environment = fs.map Frame.environment) : RootScope fs' := by
  unfold RootScope
  rw [he]
  exact h

theorem environments_of_alike {fs fs' : List (Frame R)} (h : List.Forall₂ Frame.Alike fs fs') :
    fs'.map Frame.environment = fs.map Frame.environment :=
  map_eq_of_forall₂ h Frame.Alike.environment

theorem RootScope.suffix (fs : List (Frame R)) {gs : List (Frame R)} (h : RootScope (fs ++ gs))
    (hgs : gs ≠ []) : RootScope gs := by
  unfold RootScope at h ⊢
  rw [List.map_append, List.getLast?_append_of_ne_nil _ (by simpa using hgs)] at h
  exact h

namespace Session

variable [Scalar R] {s : Session R}

theorem Effect.rootScope {c : Call R} {s' : Session R} (h : Effect s c s')
    (hs : RootScope s.frames.toList) : RootScope s'.frames.toList := by
  cases h with
  | quiet hf _ => exact hs.congr (environments_of_alike hf)
  | returned hf _ _ => exact hs.congr (environments_of_alike hf)
  | @sent _ _ i _ hf _ =>
    have hsent := hs.congr (environments_of_kin (FrameStack.routeThrough_kin _ i false))
    exact hsent.congr (environments_of_alike hf)
  | entered hf _ _ _ =>
    rw [hf]
    unfold RootScope at hs ⊢
    rw [List.map_cons, List.getLast?_cons, hs]
    rfl
  | turned hf he _ _ =>
    refine hs.congr ?_
    rw [hf]
    exact congrArg (· :: _) he
  | closed h =>
    cases h with
    | same hf _ =>
      rw [hf]
      exact hs
    | popped qs hb hr hf _ _ =>
      rw [FrameStack.toList, hb] at hs
      have hpopped : RootScope (_ :: _) := RootScope.suffix [s.frames.top] hs (by simp)
      have hnext := hpopped.congr
        (environments_of_kin (replay_kin (s.popped _ _) s.frames.top))
      rw [hr] at hnext
      exact hnext.congr (environments_of_alike hf)
  | dropped hcut hf _ =>
    rw [FrameStack.toList, FrameStack.cut?_toList hcut] at hs
    exact (RootScope.suffix _ hs (by simp [FrameStack.toList])).congr (environments_of_alike hf)

theorem Reachable.rootScope (h : s.Reachable) : RootScope s.frames.toList := by
  refine (h.invariant (P := fun s => Sound [] s ∧ RootScope s.frames.toList) ?_ ?_).2
  · exact fun config => ⟨sound_new config, rfl⟩
  · exact fun s c hs => ⟨hs.1.perform c, (hs.1.effect c).rootScope hs.2⟩

theorem Reachable.closed (h : s.Reachable) (hopen : s.numOpen = 0) :
    s.frames.below = [] ∧ s.frames.top.environment = .scope := by
  have hbelow : s.frames.below = [] := List.eq_nil_of_length_eq_zero hopen
  have hroot := h.rootScope
  unfold RootScope at hroot
  rw [FrameStack.toList, hbelow] at hroot
  exact ⟨hbelow, Option.some.inj hroot⟩

end Session

end Ancilla
