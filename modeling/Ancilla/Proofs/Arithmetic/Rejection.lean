import Ancilla.Arithmetic.Lookahead
import Ancilla.Arithmetic.MeasuredAdder
import Ancilla.Arithmetic.Shift
import Ancilla.Proofs.Arithmetic.Power

/-!
Fragments that reject their arguments. Every fragment looks at its arguments before it touches the
session, and once they are found proper no check further inside can fail: the work register of a
multiplication has the width that its additions ask for, and all squares of an invertible base are
invertible. So a rejected call leaves no trace in the circuit, the allocator or the open frames.
-/

namespace Ancilla

variable {R : Type} {α β : Type}

namespace SynthesisError

/-- The errors about arguments. The others are passed on from the session and from registers. -/
def IsRejection : SynthesisError → Prop
  | unsupportedShape .. | invalidModulus .. | notInvertible .. | widthMismatch .. => True
  | session _ | ofVariable _ => False

end SynthesisError

/-! ## Checks -/

namespace Synthesis

def Checks (r : Except SynthesisError Unit) (P : Prop) : Prop :=
  (P → r = .ok ()) ∧ (¬ P → ∃ e : SynthesisError, e.IsRejection ∧ r = .error e)

theorem Checks.and {r r' : Except SynthesisError Unit} {P Q : Prop} (h : Checks r P)
    (h' : Checks r' Q) : Checks (r >>= fun _ => r') (P ∧ Q) := by
  constructor
  · rintro ⟨hp, hq⟩
    rw [h.1 hp, h'.1 hq]
    rfl
  · intro hn
    by_cases hp : P
    · obtain ⟨e, he, hr⟩ := h'.2 fun hq => hn ⟨hp, hq⟩
      rw [h.1 hp, hr]
      exact ⟨e, he, rfl⟩
    · obtain ⟨e, he, hr⟩ := h.2 hp
      rw [hr]
      exact ⟨e, he, rfl⟩

theorem Checks.of_iff {r : Except SynthesisError Unit} {P Q : Prop} (h : Checks r P)
    (hpq : P ↔ Q) : Checks r Q := by rwa [← hpq]

theorem Checks.of_ok {r : Except SynthesisError Unit} {P : Prop} (h : Checks r P) (hr : r = .ok ()) :
    P := by
  by_contra hn
  obtain ⟨e, -, he⟩ := h.2 hn
  exact nomatch hr.symm.trans he

theorem checks_ite {P : Prop} [Decidable P] {e : SynthesisError} (he : e.IsRejection) :
    Checks (if P then .error e else .ok ()) (¬ P) := by
  constructor
  · exact fun hp => if_neg hp
  · exact fun hp => ⟨e, he, if_pos (not_not.1 hp)⟩

def Supported (width : ℕ) : Prop := 0 < width ∧ width ≤ maxWidth

theorem checks_width (operation : String) (width : ℕ) :
    Checks (checkWidth operation width) (Supported width) := by
  refine (checks_ite (by trivial)).of_iff ?_
  rw [Supported, not_or, Nat.pos_iff_ne_zero, Nat.not_lt]

theorem checks_sameWidth (operation : String) (expected got : ℕ) :
    Checks (checkSameWidth operation expected got) (expected = got) := by
  unfold checkSameWidth
  constructor
  · exact fun h => if_pos h
  · exact fun h => ⟨_, by trivial, if_neg h⟩

theorem checks_forM {cells : List α} {check : α → Except SynthesisError Unit} {P : α → Prop}
    (h : ∀ a, Checks (check a) (P a)) : Checks (cells.forM check) (∀ a ∈ cells, P a) := by
  induction cells with
  | nil => exact ⟨fun _ => rfl, fun hn => absurd (by simp) hn⟩
  | cons a cells ih =>
    have hboth := (h a).and ih
    exact hboth.of_iff List.forall_mem_cons.symm

end Synthesis

open Synthesis (Checks Supported)

theorem Fourier.checks_register (operation : String) (reg : List QubitId) :
    Checks (checkRegister operation reg) (0 < reg.length ∧ reg.length ≤ maxWidth) := by
  refine (Synthesis.checks_ite (by trivial)).of_iff ?_
  rw [not_or, Nat.pos_iff_ne_zero, Nat.not_lt]

def Modular.Fits (modulus width : ℕ) : Prop :=
  Supported width ∧ 2 ≤ modulus ∧ modulus ≤ 2 ^ width

theorem Modular.checks_modulus (operation : String) (modulus width : ℕ) :
    Checks (checkModulus operation modulus width) (Fits modulus width) := by
  refine (Synthesis.checks_width operation width).and ?_
  refine (Synthesis.checks_ite (e := .invalidModulus operation modulus width) trivial).of_iff ?_
  rw [not_or, Nat.not_lt, Nat.not_lt, bitWeight, Nat.pow_eq]

def Shift.Uniform : List Variable → Prop
  | [] => False
  | first :: rest => Supported first.width ∧ ∀ cell ∈ rest, first.width = cell.width

theorem Shift.checks_cells (operation : String) (cells : List Variable) :
    Checks (checkCells operation cells) (Uniform cells) := by
  cases cells with
  | nil => exact ⟨fun h => h.elim, fun _ => ⟨_, by trivial, rfl⟩⟩
  | cons first rest =>
    exact (Synthesis.checks_width _ _).and
      (Synthesis.checks_forM fun cell => Synthesis.checks_sameWidth _ _ _)

/-! ## Constructions that reject nothing -/

namespace Build

theorem exec_within_rejected [Scalar R] {environment : Environment} {label : String}
    {body : Synthesis R α} {s : Session R} {e : SynthesisError}
    (he : (exec (within environment label body) s).1 = .error e) (hrejection : e.IsRejection) :
    ∃ id s₁ s₂, s.enter environment label = (.ok id, s₁) ∧ exec body s₁ = (.error e, s₂) ∧
      (exec (within environment label body) s).2 = s₂.abort id := by
  rw [exec_within] at he ⊢
  rcases henter : s.enter environment label with ⟨e₁ | id, s₁⟩ <;>
    simp only [henter] at he ⊢
  · obtain rfl := Except.error.inj he
    exact absurd hrejection not_false
  · rcases hbody : exec body s₁ with ⟨e₂ | a, s₂⟩ <;> simp only [hbody] at he ⊢
    · obtain rfl := Except.error.inj he
      exact ⟨id, s₁, s₂, rfl, hbody, rfl⟩
    · rcases hexit : s₂.exit id with ⟨e₃ | _, s₃⟩ <;> simp only [hexit] at he
      · obtain rfl := Except.error.inj he
        exact absurd hrejection not_false
      · exact nomatch he

def Admitted (b : Synthesis R α) : Prop :=
  ∀ (s : Session R) (e : SynthesisError), (b.exec s).1 = .error e → ¬ e.IsRejection

namespace Admitted

theorem pure (a : α) : Admitted (pure a : Synthesis R α) := fun _ _ h => nomatch h

theorem step (f : Session R → Answer R α) : Admitted (step f : Synthesis R α) := by
  intro s e h
  have hexec : (exec (Build.step f : Synthesis R α) s).1 = (f s).1.mapError .session := rfl
  rw [hexec] at h
  cases hf : (f s).1 with
  | error e' =>
    rw [hf] at h
    obtain rfl := Except.error.inj h
    exact id
  | ok a =>
    rw [hf] at h
    exact nomatch h

theorem session : Admitted (session : Synthesis R (Session R)) := fun _ _ h => nomatch h

theorem bind_of {b : Synthesis R α} {k : α → Synthesis R β} {P : α → Prop} (hb : Admitted b)
    (hp : ∀ (s : Session R) (a : α), (b.exec s).1 = .ok a → P a)
    (hk : ∀ a, P a → Admitted (k a)) : Admitted (b >>= k) := by
  intro s e h
  rw [exec_bind] at h
  rcases hexec : b.exec s with ⟨e' | a, s'⟩
  · rw [hexec] at h
    obtain rfl := Except.error.inj h
    exact hb s _ (by rw [hexec])
  · rw [hexec] at h
    exact hk a (hp s a (by rw [hexec])) s' e h

theorem bind {b : Synthesis R α} {k : α → Synthesis R β} (hb : Admitted b)
    (hk : ∀ a, Admitted (k a)) : Admitted (b >>= k) :=
  hb.bind_of (P := fun _ => True) (fun _ _ _ => trivial) fun a _ => hk a

theorem map (f : α → β) {b : Synthesis R α} (hb : Admitted b) : Admitted (f <$> b) := by
  rw [map_eq_pure_bind]
  exact hb.bind fun a => .pure (f a)

theorem ofExcept {r : Except SynthesisError α} (h : ∀ e, r = .error e → ¬ e.IsRejection) :
    Admitted (ofExcept r : Synthesis R α) := fun _ e he => h e he

theorem forM {l : List β} {f : β → Synthesis R Unit} (hf : ∀ a, Admitted (f a)) :
    Admitted (l.forM f) := by
  induction l with
  | nil => exact .pure ()
  | cons a l ih =>
    exact (hf a).bind fun _ => ih

theorem foldlM {l : List β} {f : α → β → Synthesis R α} (hf : ∀ a c, Admitted (f a c)) (a : α) :
    Admitted (l.foldlM f a) := by
  induction l generalizing a with
  | nil => exact .pure a
  | cons c l ih =>
    rw [List.foldlM_cons]
    exact (hf a c).bind ih

theorem allocate (count : ℕ) (name : String) :
    Admitted (allocate count name : Synthesis R (List QubitId)) := step _

theorem allocateOne (name : String) : Admitted (allocateOne name : Synthesis R QubitId) :=
  (allocate 1 name).map _

theorem standard (g : Standard R) (qs : List QubitId) :
    Admitted (standard g qs : Synthesis R Unit) := step _

theorem assertRestored (qs : List QubitId) :
    Admitted (assertRestored qs : Synthesis R Unit) := step _

variable [Scalar R]

theorem within (environment : Environment) (label : String) {body : Synthesis R α}
    (h : Admitted body) : Admitted (within environment label body) := by
  intro s e he hrejection
  obtain ⟨id, s₁, s₂, -, hbody, -⟩ := exec_within_rejected he hrejection
  exact h s₁ e (by rw [hbody]) hrejection

theorem conjugate (label : String) {compute : Synthesis R α} {act : α → Synthesis R β}
    (hc : Admitted compute) (ha : ∀ a, Admitted (act a)) : Admitted (conjugate label compute act) :=
  within _ _ (hc.bind fun a => (step _).bind fun _ => ha a)

theorem control (cs : List QubitId) {body : Synthesis R α} (h : Admitted body) :
    Admitted (control cs body) := within _ _ h

theorem underControls (cs : List QubitId) {body : Synthesis R α} (h : Admitted body) :
    Admitted (underControls cs body) := by
  unfold Build.underControls
  split
  · exact h
  · exact h.control cs

end Admitted

theorem length_allocate {count : ℕ} {name : String} {s : Session R} {qs : List QubitId}
    (h : (exec (allocate count name : Synthesis R (List QubitId)) s).1 = .ok qs) :
    qs.length = count := by
  have hcall : ((s.allocate count name).1.mapError SynthesisError.session) = .ok qs := h
  rcases hgrant : s.allocate count name with ⟨e | ps, s'⟩
  · rw [hgrant] at hcall
    exact nomatch hcall
  · rw [hgrant] at hcall
    obtain rfl := Except.ok.inj hcall
    exact Session.length_allocate hgrant

/-! ## Constructions that screen their arguments -/

/-- A construction rejects if and only if a property of its arguments fails, and it leaves nothing
behind then but the number of a frame. -/
structure Screens (b : Synthesis R α) (P : Prop) : Prop where
  admitted : P → Admitted b
  rejected : ¬ P → ∀ s : Session R, s.isPoisoned = false →
    ∃ e : SynthesisError, e.IsRejection ∧ (b.exec s).1 = .error e
  kept : ∀ (s : Session R) (e : SynthesisError), (b.exec s).1 = .error e → e.IsRejection →
    ∃ n, (b.exec s).2 = { s with nextFrame := n }

namespace Screens

theorem of_admitted {b : Synthesis R α} (h : Admitted b) : Screens b True :=
  ⟨fun _ => h, fun hn => absurd trivial hn, fun s e he hrejection => absurd hrejection (h s e he)⟩

theorem of_iff {b : Synthesis R α} {P Q : Prop} (h : Screens b P) (hpq : P ↔ Q) :
    Screens b Q := by rwa [← hpq]

theorem throw {e : SynthesisError} (he : e.IsRejection) :
    Screens (throw e : Synthesis R α) False :=
  ⟨fun h => h.elim, fun _ _ _ => ⟨e, he, rfl⟩, fun s _ _ _ => ⟨s.nextFrame, rfl⟩⟩

theorem after {r : Except SynthesisError Unit} {c : Synthesis R α} {P Q : Prop} (hr : Checks r P)
    (hc : P → Screens c Q) : Screens (ofExcept r >>= fun _ => c) (P ∧ Q) := by
  by_cases hp : P
  · rw [hr.1 hp]
    exact (hc hp).of_iff (and_iff_right hp).symm
  · obtain ⟨e, he, herr⟩ := hr.2 hp
    rw [herr]
    exact (throw he).of_iff (iff_of_false not_false fun h => hp h.1)

theorem checked {r : Except SynthesisError Unit} {c : Synthesis R α} {P : Prop} (hr : Checks r P)
    (hc : P → Admitted c) : Screens (ofExcept r >>= fun _ => c) P :=
  (after hr fun hp => of_admitted (hc hp)).of_iff (iff_of_eq (and_true P))

theorem map (f : α → β) {b : Synthesis R α} {P : Prop} (h : Screens b P) :
    Screens (f <$> b) P := by
  have hexec : ∀ s : Session R, exec (f <$> b) s = ((exec b s).1.map f, (exec b s).2) := by
    intro s
    rw [map_eq_pure_bind, exec_bind]
    rcases exec b s with ⟨e | a, s'⟩ <;> rfl
  have herror : ∀ (s : Session R) (e : SynthesisError),
      (exec (f <$> b) s).1 = .error e ↔ (exec b s).1 = .error e := by
    intro s e
    rw [hexec]
    cases (exec b s).1 <;> simp [Except.map]
  refine ⟨fun hp => (h.admitted hp).map f, fun hn s hs => ?_, fun s e he hrejection => ?_⟩
  · obtain ⟨e, he, herr⟩ := h.rejected hn s hs
    exact ⟨e, he, (herror s e).2 herr⟩
  · rw [hexec]
    exact h.kept s e ((herror s e).1 he) hrejection

theorem abort_entered (s : Session R) (environment : Environment) (label : String) (n : FrameId) :
    Session.abort { s with
        nextFrame := n
        frames := s.frames.push (.new s.nextFrame environment label) } s.nextFrame =
      { s with nextFrame := n } := by
  obtain ⟨config, allocator, circuit, ⟨top, below⟩, nextFrame, isPoisoned⟩ := s
  simp [Session.abort, FrameStack.push, FrameStack.cut?, Frame.new, Session.forceReclaim,
    Session.reclaim]

theorem invert [Scalar R] {body : Synthesis R α} {P : Prop} (h : Screens body P) :
    Screens (invert body) P := by
  refine ⟨fun hp => (h.admitted hp).within .inversion "invert", fun hn s hs => ?_,
    fun s e he hrejection => ?_⟩
  · obtain ⟨s₁, henter, hs₁⟩ : ∃ s₁, s.enter .inversion "invert" = (.ok s.nextFrame, s₁) ∧
        s₁.isPoisoned = false := by
      unfold Session.enter
      rw [if_neg (by simp [hs])]
      exact ⟨_, rfl, hs⟩
    obtain ⟨e, he, herr⟩ := h.rejected hn s₁ hs₁
    have hbody : exec body s₁ = (.error e, (exec body s₁).2) := Prod.ext herr rfl
    refine ⟨e, he, ?_⟩
    unfold Build.invert
    rw [exec_within, henter]
    simp only []
    rw [hbody]
  · obtain ⟨id, s₁, s₂, henter, hbody, hleft⟩ := exec_within_rejected he hrejection
    obtain ⟨rfl, rfl⟩ := Session.enter_eq henter
    obtain ⟨n, hn⟩ := h.kept _ e (by rw [hbody]) hrejection
    rw [hbody] at hn
    refine ⟨n, hleft.trans ?_⟩
    rw [show s₂ = _ from hn]
    exact abort_entered s .inversion "invert" n

end Screens

end Build

open Build (Admitted Screens)

variable [Scalar R]

/-! ## Additions -/

namespace Fourier

theorem cascade_admitted (target : QubitId) (k : ℕ) (qs : List QubitId) :
    Admitted (cascade target k qs : Synthesis R Unit) := by
  induction qs generalizing k with
  | nil => exact .pure ()
  | cons q qs ih => exact (Admitted.standard _ _).bind fun _ => ih (k + 1)

theorem transformDown_admitted (qs : List QubitId) :
    Admitted (transformDown qs : Synthesis R Unit) := by
  induction qs with
  | nil => exact .pure ()
  | cons q qs ih =>
    exact (Admitted.standard _ _).bind fun _ => (cascade_admitted q 1 qs).bind fun _ => ih

theorem transform_screens (reg : List QubitId) :
    Screens (transform reg : Synthesis R Unit) (0 < reg.length ∧ reg.length ≤ maxWidth) :=
  .checked (checks_register _ reg) fun _ => transformDown_admitted _

theorem addPhases_admitted (c : ℤ) (t : ℕ) (qs : List QubitId) :
    Admitted (addPhases c t qs : Synthesis R Unit) := by
  induction qs generalizing t with
  | nil => exact .pure ()
  | cons q qs ih =>
    unfold addPhases
    simp only []
    split
    · exact (Admitted.standard _ _).bind fun _ => ih (t + 1)
    · exact ih (t + 1)

theorem phaseAddConstant_screens (reg : List QubitId) (c : ℤ) :
    Screens (phaseAddConstant reg c : Synthesis R Unit) (0 < reg.length ∧ reg.length ≤ maxWidth) :=
  .checked (checks_register _ reg) fun _ => addPhases_admitted c 0 reg

theorem bounds_of_supported {w n : ℕ} (h : Supported w) (hw : w ≤ n) (hn : n ≤ w + 1) :
    0 < n ∧ n ≤ maxWidth := by
  have hmax : Synthesis.maxWidth + 1 ≤ maxWidth := by decide
  obtain ⟨hpos, hle⟩ := h
  omega

end Fourier

namespace Adder

open Ancilla.Fourier

theorem addConstant_screens (target : Variable) (c : ℤ) :
    Screens (addConstant target c : Synthesis R Unit) (Supported target.width) := by
  refine .checked (Synthesis.checks_width _ _) fun hw => ?_
  have hreg := bounds_of_supported hw le_rfl (Nat.le_succ _)
  exact .conjugate _ ((transform_screens _).admitted hreg) fun _ =>
    (phaseAddConstant_screens _ c).admitted hreg

theorem addRegister_admitted (below : List QubitId) (pairs : List (QubitId × QubitId)) :
    Admitted (addRegister below pairs : Synthesis R Unit) := by
  induction pairs generalizing below with
  | nil => exact .pure ()
  | cons pair pairs ih => exact (cascade_admitted _ _ _).bind fun _ => ih _

def Alike (a b : Variable) : Prop := Supported a.width ∧ a.width = b.width

theorem add_screens (target source : Variable) :
    Screens (add target source : Synthesis R Unit) (Alike target source) := by
  refine .after (Synthesis.checks_width _ _) fun hw => ?_
  refine .checked (Synthesis.checks_sameWidth _ _ _) fun _ => ?_
  have hreg := bounds_of_supported hw le_rfl (Nat.le_succ _)
  exact .conjugate _ ((transform_screens _).admitted hreg) fun _ => addRegister_admitted _ _

omit [Scalar R] in
theorem rippleCarries_admitted (previous : Option QubitId) (bits : List CarryBit) :
    Admitted (rippleCarries previous bits : Synthesis R Unit) := by
  induction bits generalizing previous with
  | nil => exact .pure ()
  | cons bit bits ih =>
    refine (Admitted.standard _ _).bind fun _ => ?_
    cases previous with
    | none => exact ih _
    | some c =>
      exact (Admitted.standard _ _).bind fun _ => (Admitted.standard _ _).bind fun _ => ih _

omit [Scalar R] in
theorem sumBits_admitted (previous : Option QubitId) (pairs : List (List QubitId × QubitId))
    (sums : List QubitId) : Admitted (sumBits previous pairs sums : Synthesis R Unit) := by
  induction pairs generalizing previous sums with
  | nil =>
    cases previous with
    | none => cases sums <;> exact .pure ()
    | some c =>
      cases sums with
      | nil => exact .pure ()
      | cons sum sums => exact .standard _ _
  | cons pair pairs ih =>
    cases sums with
    | nil => cases previous <;> exact .pure ()
    | cons sum sums =>
      have haddends : Admitted (pair.1.forM fun q => Build.cx q sum : Synthesis R Unit) :=
        .forM fun q => .standard _ _
      cases previous with
      | none => exact haddends.bind fun _ => ih _ _
      | some c => exact haddends.bind fun _ => (Admitted.standard _ _).bind fun _ => ih _ _

omit [Scalar R] in
theorem exportSum_admitted (sum : List QubitId) :
    Admitted (exportSum sum : Synthesis R Variable) := by
  refine (Admitted.step _).bind fun _ => .ofExcept fun e he => ?_
  cases hsum : Variable.ofQubits "sum" sum (.integer false) with
  | ok v =>
    rw [hsum] at he
    exact nomatch he
  | error e' =>
    rw [hsum] at he
    obtain rfl := Except.error.inj he
    exact id

theorem rippleAdd_screens (a b : Variable) :
    Screens (rippleAdd a b : Synthesis R Variable) (Alike a b) := by
  refine .after (Synthesis.checks_width _ _) fun _ => ?_
  refine .checked (Synthesis.checks_sameWidth _ _ _) fun _ => ?_
  refine .conjugate _ ?_ fun carry => ?_
  · exact (Admitted.allocate _ _).bind fun carry =>
      (rippleCarries_admitted _ _).bind fun _ => .pure carry
  · exact (Admitted.allocate _ _).bind fun sum =>
      (sumBits_admitted _ _ _).bind fun _ => exportSum_admitted sum

omit [Scalar R] in
theorem lookaheadRound_admitted (n : ℕ) (p : Prefixes) (d : ℕ) :
    Admitted (lookaheadRound n p d : Synthesis R Prefixes) := by
  have hgenerate : Admitted (widenGenerate n d p : Synthesis R (List QubitId)) :=
    (Admitted.allocate _ _).bind fun fresh => (Admitted.forM fun _ => .standard _ _).bind fun _ =>
      (Admitted.forM fun _ => .standard _ _).bind fun _ => .pure _
  have hpropagate : Admitted (widenPropagate n d p : Synthesis R (List QubitId)) := by
    unfold widenPropagate
    split
    · refine (Admitted.allocate _ _).bind fun fresh => (Admitted.forM fun parity => ?_).bind
        fun _ => .pure _
      refine .forM fun ((q, r, f), i) => ?_
      show Admitted (if i / d % 2 = parity then Build.ccx q r f else pure ())
      split
      · exact .standard _ _
      · exact .pure ()
    · exact .pure _
  exact hgenerate.bind fun _ => hpropagate.bind fun _ => .pure _

theorem lookaheadAdd_screens (a b : Variable) :
    Screens (lookaheadAdd a b : Synthesis R Variable) (Alike a b) := by
  refine .after (Synthesis.checks_width _ _) fun _ => ?_
  refine .checked (Synthesis.checks_sameWidth _ _ _) fun _ => ?_
  refine .conjugate _ ?_ fun carry => ?_
  · refine (Admitted.allocate _ _).bind fun generate => (Admitted.forM fun bit => ?_).bind
      fun _ => (Admitted.foldlM (fun p d => lookaheadRound_admitted _ p d) _).bind
        fun _ => .pure _
    exact (Admitted.standard _ _).bind fun _ => .standard _ _
  · exact (Admitted.allocate _ _).bind fun sum =>
      (sumBits_admitted _ _ _).bind fun _ => exportSum_admitted sum

end Adder

namespace MeasuredAdder

open Adder (Alike)

omit [Scalar R] in
theorem computeAnd_admitted (a b target : QubitId) :
    Admitted (computeAnd a b target : Synthesis R Unit) := by
  unfold computeAnd
  repeat' first
    | exact Admitted.standard _ _
    | refine Admitted.bind (.standard _ _) fun _ => ?_

theorem eraseAnd_admitted (a b target : QubitId) :
    Admitted (eraseAnd a b target : Synthesis R Unit) :=
  (Admitted.standard _ _).bind fun _ => (Admitted.step _).bind fun _ => .within _ _ <|
    (Admitted.standard _ _).bind fun _ => .standard _ _

theorem addBit_admitted (controlled : Option Control) (a b : QubitId) :
    Admitted (addBit controlled a b : Synthesis R Unit) := by
  cases controlled with
  | none => exact .standard _ _
  | some c =>
    exact (computeAnd_admitted _ _ _).bind fun _ => (Admitted.standard _ _).bind fun _ =>
      eraseAnd_admitted _ _ _

theorem chain_admitted (controlled : Option Control) (previous : QubitId)
    (pairs : List (QubitId × QubitId)) (carries : List QubitId) :
    Admitted (chain controlled previous pairs carries : Synthesis R Unit) := by
  fun_induction chain (R := R) controlled previous pairs carries with
  | case1 previous a b carries =>
    exact (Admitted.standard _ _).bind fun _ => (addBit_admitted _ _ _).bind fun _ =>
      .standard _ _
  | case2 previous a b rest carry carries _ ih =>
    exact (Admitted.standard _ _).bind fun _ => (Admitted.standard _ _).bind fun _ =>
      (computeAnd_admitted _ _ _).bind fun _ => (Admitted.standard _ _).bind fun _ =>
      ih.bind fun _ => (Admitted.standard _ _).bind fun _ =>
      (eraseAnd_admitted _ _ _).bind fun _ => (addBit_admitted _ _ _).bind fun _ =>
      (Admitted.standard _ _).bind fun _ => .standard _ _
  | case3 => exact .pure ()

theorem addBits_admitted (controlled : Option Control) (pairs : List (QubitId × QubitId)) :
    Admitted (addBits controlled pairs : Synthesis R Unit) := by
  match pairs with
  | [] => exact .pure ()
  | [(a, b)] => exact addBit_admitted _ _ _
  | (a, b) :: pair :: rest =>
    refine (Admitted.allocate _ _).bind fun carries => ?_
    cases carries with
    | nil => exact .assertRestored _
    | cons carry others =>
      exact (computeAnd_admitted _ _ _).bind fun _ => (chain_admitted _ _ _ _).bind fun _ =>
        (eraseAnd_admitted _ _ _).bind fun _ => (addBit_admitted _ _ _).bind fun _ =>
        .assertRestored _

theorem addWith_screens (operation : String) (target source : Variable)
    (control : Option QubitId) :
    Screens (addWith operation target source control : Synthesis R Unit)
      (Alike target source) := by
  refine .after (Synthesis.checks_width _ _) fun _ => ?_
  refine .checked (Synthesis.checks_sameWidth _ _ _) fun _ => ?_
  refine Admitted.session.bind fun s => (Admitted.within _ _ ?_).bind fun _ => .assertRestored _
  rcases control with _ | c
  on_goal 2 => refine (Admitted.allocateOne _).bind fun scratch => ?_
  all_goals
    refine (Admitted.pure _).bind fun controlled => (addBits_admitted _ _).bind fun _ => ?_
    cases controlled with
    | none => exact .pure ()
    | some c => exact .assertRestored _

theorem addControlled_screens (target source : Variable) (control : QubitId) :
    Screens (addControlled target source control : Synthesis R Unit)
      (control ∉ target.qubits ++ source.qubits ∧ Alike target source) := by
  unfold addControlled
  split
  · next hoperand =>
    refine (Screens.throw (by trivial)).of_iff (iff_of_false not_false fun h => h.1 ?_)
    simpa using hoperand
  · next hoperand =>
    refine (addWith_screens _ _ _ _).of_iff (and_iff_right ?_).symm
    simpa using hoperand

end MeasuredAdder

/-! ## Multiplications -/

namespace Modular

open Ancilla.Fourier

theorem Fits.bounds {b : List QubitId} {modulus : ℕ} (h : Fits modulus (b.length - 1)) :
    0 < b.length ∧ b.length ≤ maxWidth :=
  bounds_of_supported h.1 (Nat.sub_le _ _) (by omega)

theorem addConstant_screens (b : List QubitId) (a modulus : ℕ) (flag : QubitId)
    (controls : List QubitId) :
    Screens (addConstant b a modulus flag controls : Synthesis R Unit)
      (Fits modulus (b.length - 1)) := by
  unfold addConstant
  split
  · next hempty =>
    rw [List.getLast?_eq_none_iff] at hempty
    refine (Screens.throw (by trivial)).of_iff (iff_of_false not_false fun h => ?_)
    rw [hempty] at h
    exact absurd h.1.1 (lt_irrefl _)
  · next top _ =>
    refine .checked (checks_modulus _ _ _) fun h => ?_
    have hphase : ∀ c : ℤ, Admitted (phaseAddConstant b c : Synthesis R Unit) := fun c =>
      (phaseAddConstant_screens b c).admitted h.bounds
    have hinverse : Admitted (inverseTransform b : Synthesis R Unit) :=
      ((transform_screens b).admitted h.bounds).within _ _
    refine ((hphase _).underControls _).bind fun _ => (hphase _).bind fun _ => ?_
    refine (Admitted.conjugate _ hinverse fun _ => .standard _ _).bind fun _ => ?_
    refine ((hphase _).control _).bind fun _ => ?_
    refine (Admitted.conjugate _ ((hphase _).underControls _) fun _ => ?_).bind
      fun _ => .assertRestored _
    exact .conjugate _ (hinverse.bind fun _ => .standard _ _) fun _ => .standard _ _

theorem accumulate_admitted {b : List QubitId} {modulus : ℕ} (h : Fits modulus (b.length - 1))
    (flag : QubitId) (controls : List QubitId) (term : ℕ) (x : List QubitId) :
    Admitted (accumulate b modulus flag controls term x : Synthesis R Unit) := by
  induction x generalizing term with
  | nil => exact .pure ()
  | cons q x ih =>
    exact ((addConstant_screens _ _ _ _ _).admitted h).bind fun _ => ih _

theorem multiplyAccumulate_admitted {b : List QubitId} {modulus : ℕ}
    (h : Fits modulus (b.length - 1)) (x : List QubitId) (a : ℕ) (flag : QubitId)
    (controls : List QubitId) :
    Admitted (multiplyAccumulate x b a modulus flag controls : Synthesis R Unit) :=
  .conjugate _ ((transform_screens b).admitted h.bounds) fun _ => accumulate_admitted h _ _ _ _

theorem multiply_screens (x : Variable) (a modulus : ℕ) (controls : List QubitId) :
    Screens (multiply x a modulus controls : Synthesis R Unit)
      (Fits modulus x.width ∧ Nat.gcd a modulus = 1) := by
  refine .after (checks_modulus _ _ _) fun h => ?_
  by_cases hcoprime : Nat.gcd (a % modulus) modulus = 1
  · obtain ⟨inverse, hsome, -⟩ :=
      NumberTheory.exists_modInverse (Nat.zero_lt_of_lt h.2.1) hcoprime
    simp only [hsome]
    rw [NumberTheory.gcd_mod_self] at hcoprime
    refine (Screens.of_admitted (Admitted.within _ _ ?_)).of_iff (iff_of_true trivial hcoprime)
    -- the work register is one qubit wider than the modulus needs
    refine (Admitted.allocate (x.width + 1) "work").bind_of (P := fun b => b.length = x.width + 1)
      (fun _ _ hb => Build.length_allocate hb) fun b hb => ?_
    have hwork : Fits modulus (b.length - 1) := by rwa [hb, Nat.add_sub_cancel]
    refine (Admitted.allocateOne _).bind fun flag => ?_
    refine (multiplyAccumulate_admitted hwork _ _ _ _).bind fun _ => ?_
    refine ((Admitted.forM fun _ => .standard _ _).underControls _).bind fun _ => ?_
    refine ((multiplyAccumulate_admitted hwork _ _ _ _).within _ _).bind fun _ => ?_
    exact (Admitted.assertRestored _).bind fun _ => .assertRestored _
  · simp only [NumberTheory.modInverse_eq_none hcoprime]
    rw [NumberTheory.gcd_mod_self] at hcoprime
    exact (Screens.throw (by trivial)).of_iff (iff_of_false not_false hcoprime)

theorem powerStep_screens (x : Variable) (control : QubitId) (a j modulus : ℕ) :
    Screens (powerStep x control a j modulus : Synthesis R Unit)
      (Fits modulus x.width ∧ Nat.gcd a modulus = 1) := by
  refine .after (checks_modulus _ _ _) fun h => ?_
  refine (multiply_screens _ _ _ _).of_iff ?_
  rw [NumberTheory.gcd_squarePower, and_iff_right h]

theorem powerSteps_admitted {x : Variable} {a modulus : ℕ} (h : Fits modulus x.width)
    (hcoprime : Nat.gcd a modulus = 1) (j : ℕ) (es : List QubitId) :
    Admitted (powerSteps x a modulus j es : Synthesis R Unit) := by
  induction es generalizing j with
  | nil => exact .pure ()
  | cons e es ih =>
    exact ((powerStep_screens _ _ _ _ _).admitted ⟨h, hcoprime⟩).bind fun _ => ih (j + 1)

theorem power_screens (exponent x : Variable) (a modulus : ℕ) :
    Screens (power exponent x a modulus : Synthesis R Unit)
      (Fits modulus x.width ∧ Nat.gcd a modulus = 1) := by
  refine .after (checks_modulus _ _ _) fun h => ?_
  simp only [NumberTheory.gcd_eq, NumberTheory.gcd_mod_self]
  split
  · next hcoprime =>
    exact (Screens.throw (by trivial)).of_iff (iff_of_false not_false hcoprime)
  · next hcoprime =>
    rw [not_not] at hcoprime
    exact (Screens.of_admitted (powerSteps_admitted h hcoprime 0 _)).of_iff
      (iff_of_true trivial hcoprime)

end Modular

/-! ## Shifts -/

namespace Shift

omit [Scalar R] in
theorem swapCells_admitted (a b : Variable) : Admitted (swapCells a b : Synthesis R Unit) :=
  .forM fun _ => .standard _ _

omit [Scalar R] in
theorem rotateByReversals_admitted (cells : List Variable) (r : ℕ) :
    Admitted (rotateByReversals cells r : Synthesis R Unit) := by
  have hreverse : ∀ cells, Admitted (reverse cells : Synthesis R Unit) := fun _ =>
    .forM fun _ => swapCells_admitted _ _
  exact (hreverse _).bind fun _ => (hreverse _).bind fun _ => hreverse _

omit [Scalar R] in
theorem rotateByPlaces_admitted (cells : List Variable) (r : ℕ) :
    Admitted (rotateByPlaces cells r : Synthesis R Unit) := by
  induction r with
  | zero => exact .pure ()
  | succ r ih => exact (Admitted.forM fun _ => swapCells_admitted _ _).bind fun _ => ih

theorem stages_admitted (cells : List Variable) (strategy : ShiftStrategy) (j : ℕ)
    (controls : List QubitId) :
    Admitted (stages cells strategy j controls : Synthesis R Unit) := by
  have hrotate : ∀ r, Admitted (rotate cells r strategy : Synthesis R Unit) := by
    intro r
    cases strategy with
    | doubling => exact rotateByReversals_admitted cells r
    | naive => exact rotateByPlaces_admitted cells r
  induction controls generalizing j with
  | nil => exact .pure ()
  | cons control controls ih =>
    unfold stages
    simp only []
    split
    · exact ((hrotate _).control _).bind fun _ => ih _
    · exact ih _

theorem cyclic_screens (cells : List Variable) (offset : Variable) (strategy : ShiftStrategy) :
    Screens (cyclic cells offset strategy : Synthesis R Unit)
      (Uniform cells ∧ Supported offset.width) :=
  .after (checks_cells _ _) fun _ => .checked (Synthesis.checks_width _ _) fun _ =>
    stages_admitted _ _ _ _

omit [Scalar R] in
theorem cyclicBy_screens (cells : List Variable) (k : ℤ) :
    Screens (cyclicBy cells k : Synthesis R Unit) (Uniform cells) := by
  refine .checked (checks_cells _ _) fun _ => ?_
  simp only []
  split
  · exact rotateByReversals_admitted _ _
  · exact .pure ()

end Shift

/-! ## Fragments -/

inductive Fragment
  | transform (reg : List QubitId)
  | inverseTransform (reg : List QubitId)
  | phaseAddConstant (reg : List QubitId) (c : ℤ)
  | addConstant (target : Variable) (c : ℤ)
  | add (target source : Variable)
  | rippleAdd (a b : Variable)
  | lookaheadAdd (a b : Variable)
  | measuredAdd (target source : Variable)
  | measuredAddControlled (target source : Variable) (control : QubitId)
  | modularAddConstant (b : List QubitId) (a modulus : ℕ) (flag : QubitId)
    (controls : List QubitId)
  | multiply (x : Variable) (a modulus : ℕ) (controls : List QubitId)
  | powerStep (x : Variable) (control : QubitId) (a j modulus : ℕ)
  | power (exponent x : Variable) (a modulus : ℕ)
  | shift (cells : List Variable) (offset : Variable) (strategy : ShiftStrategy)
  | shiftBy (cells : List Variable) (k : ℤ)

namespace Fragment

def build : Fragment → Synthesis R Unit
  | transform reg => Fourier.transform reg
  | inverseTransform reg => Fourier.inverseTransform reg
  | phaseAddConstant reg c => Fourier.phaseAddConstant reg c
  | addConstant target c => Adder.addConstant target c
  | add target source => Adder.add target source
  | rippleAdd a b => (fun _ => ()) <$> (Adder.rippleAdd a b : Synthesis R Variable)
  | lookaheadAdd a b => (fun _ => ()) <$> (Adder.lookaheadAdd a b : Synthesis R Variable)
  | measuredAdd target source => MeasuredAdder.add target source
  | measuredAddControlled target source control =>
    MeasuredAdder.addControlled target source control
  | modularAddConstant b a modulus flag controls => Modular.addConstant b a modulus flag controls
  | multiply x a modulus controls => Modular.multiply x a modulus controls
  | powerStep x control a j modulus => Modular.powerStep x control a j modulus
  | power exponent x a modulus => Modular.power exponent x a modulus
  | shift cells offset strategy => Shift.cyclic cells offset strategy
  | shiftBy cells k => Shift.cyclicBy cells k

/-- Whether the arguments of a fragment are those that it is for. -/
def Proper : Fragment → Prop
  | transform reg | inverseTransform reg | phaseAddConstant reg _ =>
    0 < reg.length ∧ reg.length ≤ Fourier.maxWidth
  | addConstant target _ => Supported target.width
  | add a b | rippleAdd a b | lookaheadAdd a b | measuredAdd a b => Adder.Alike a b
  | measuredAddControlled target source control =>
    control ∉ target.qubits ++ source.qubits ∧ Adder.Alike target source
  | modularAddConstant b _ modulus _ _ => Modular.Fits modulus (b.length - 1)
  | multiply x a modulus _ | powerStep x _ a _ modulus | power _ x a modulus =>
    Modular.Fits modulus x.width ∧ Nat.gcd a modulus = 1
  | shift cells offset _ => Shift.Uniform cells ∧ Supported offset.width
  | shiftBy cells _ => Shift.Uniform cells

theorem screens (f : Fragment) : Screens (f.build : Synthesis R Unit) f.Proper := by
  cases f with
  | transform reg => exact Fourier.transform_screens reg
  | inverseTransform reg => exact (Fourier.transform_screens reg).invert
  | phaseAddConstant reg c => exact Fourier.phaseAddConstant_screens reg c
  | addConstant target c => exact Adder.addConstant_screens target c
  | add target source => exact Adder.add_screens target source
  | rippleAdd a b => exact (Adder.rippleAdd_screens a b).map _
  | lookaheadAdd a b => exact (Adder.lookaheadAdd_screens a b).map _
  | measuredAdd target source => exact MeasuredAdder.addWith_screens _ target source none
  | measuredAddControlled target source control =>
    exact MeasuredAdder.addControlled_screens target source control
  | modularAddConstant b a modulus flag controls =>
    exact Modular.addConstant_screens b a modulus flag controls
  | multiply x a modulus controls => exact Modular.multiply_screens x a modulus controls
  | powerStep x control a j modulus => exact Modular.powerStep_screens x control a j modulus
  | power exponent x a modulus => exact Modular.power_screens exponent x a modulus
  | shift cells offset strategy => exact Shift.cyclic_screens cells offset strategy
  | shiftBy cells k => exact Shift.cyclicBy_screens cells k

/-- A fragment rejects its arguments if and only if they are improper, and then it leaves circuit,
allocator and open frames as they were. -/
theorem rejection_leaves_session (f : Fragment) (s : Session R) :
    (∀ (e : SynthesisError) (s' : Session R), f.build.exec s = (.error e, s') → e.IsRejection →
      ¬ f.Proper ∧ s'.circuit = s.circuit ∧ s'.allocator = s.allocator ∧ s'.frames = s.frames ∧
        s'.isPoisoned = s.isPoisoned) ∧
    (s.isPoisoned = false → ¬ f.Proper →
      ∃ (e : SynthesisError) (s' : Session R), f.build.exec s = (.error e, s') ∧
        e.IsRejection) := by
  constructor
  · intro e s' hexec hrejection
    have herr : (f.build.exec s).1 = .error e := by rw [hexec]
    refine ⟨fun hproper => f.screens.admitted hproper s e herr hrejection, ?_⟩
    obtain ⟨n, hn⟩ := f.screens.kept s e herr hrejection
    rw [hexec] at hn
    obtain rfl : s' = _ := hn
    exact ⟨rfl, rfl, rfl, rfl⟩
  · intro hs hn
    obtain ⟨e, he, herr⟩ := f.screens.rejected hn s hs
    exact ⟨e, _, Prod.ext herr rfl, he⟩

def powersOfTwo : Fragment :=
  .power ⟨"exponent", [0, 1], .integer false⟩ ⟨"x", [2, 3, 4], .integer false⟩ 2 6

def computing : Session Float :=
  (Session.new {}).after [.allocate 5 "qubits", .enter .conjugation "compute"]

theorem rejection_leaves_computing : computing.numOpen = 1 ∧
    ∃ (e : SynthesisError) (s' : Session Float), powersOfTwo.build.exec computing = (.error e, s') ∧
      e.IsRejection ∧ s'.circuit = computing.circuit ∧ s'.allocator = computing.allocator ∧
      s'.frames = computing.frames := by
  obtain ⟨hkept, hrejected⟩ := rejection_leaves_session powersOfTwo computing
  have himproper : ¬ powersOfTwo.Proper := fun h => absurd h.2 (by decide)
  obtain ⟨e, s', hexec, he⟩ := hrejected (by decide +kernel) himproper
  obtain ⟨-, hcircuit, hallocator, hframes, -⟩ := hkept e s' hexec he
  exact ⟨by decide +kernel, e, s', hexec, he, hcircuit, hallocator, hframes⟩

end Fragment

end Ancilla
