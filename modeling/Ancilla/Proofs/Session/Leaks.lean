import Ancilla.Proofs.Circuit.Wires
import Ancilla.Proofs.Session.Trail

/-!
What the check for leaked qubits gives in circuits of flips and exchanges. When an environment is
closed or a qubit is released, all that ever moved the qubit since its frame was opened has been
undone, step for step. That alone does not bring it back to 0: a step and its undoing cancel only
if the qubits that control them read the same both times, and an action may change those. Main
statement: this is the only thing that can go wrong.
-/

namespace Ancilla

variable {R : Type} {read : ClbitId → Bool}

/-! ## Markings -/

theorem runOnBasis_eq_balanced {marked : Trail R} {q : QubitId}
    (hq : ∀ e ∈ marked, e.2 = false → q ∉ e.1.movedTargets)
    (h : ∀ e ∈ marked, e.2 = false → ∀ d ∈ marked, d.2 = true →
      ∀ p ∈ d.1.qubits, p ∉ e.1.movedTargets) (σ : Basis) :
    runOnBasis read (marked.map Prod.fst) σ q = runOnBasis read marked.balanced σ q := by
  -- the bits that matter are those of the qubit and of the operands of marked instructions
  let Matters (p : QubitId) : Prop := p = q ∨ ∃ d ∈ marked, d.2 = true ∧ p ∈ d.1.qubits
  have hstay : ∀ e ∈ marked, e.2 = false → ∀ p, Matters p → p ∉ e.1.movedTargets := by
    rintro e he hb p (rfl | ⟨d, hd, hdb, hp⟩)
    · exact hq e he hb
    · exact h e he hb d hd hdb p hp
  have key : ∀ (l : Trail R), (∀ e ∈ l, e ∈ marked) → ∀ σ τ : Basis,
      (∀ p, Matters p → σ p = τ p) → ∀ p, Matters p →
        runOnBasis read (l.map Prod.fst) σ p = runOnBasis read l.balanced τ p := by
    intro l
    induction l with
    | nil => exact fun _ σ τ hστ p hp => hστ p hp
    | cons e l ih =>
      intro hsub σ τ hστ
      obtain ⟨i, b⟩ := e
      have hmem := hsub (i, b) List.mem_cons_self
      have hrest : ∀ e ∈ l, e ∈ marked := fun e he => hsub e (List.mem_cons_of_mem _ he)
      cases b with
      | true =>
        refine ih hrest _ _ fun p hp => ?_
        refine Instruction.onBasis_congr read (fun r hr => hστ r ?_) (hστ p hp)
        exact .inr ⟨(i, true), hmem, rfl, hr⟩
      | false =>
        refine ih hrest _ _ fun p hp => ?_
        have hsame := Instruction.onBasis_of_not_moved read (hstay (i, false) hmem rfl p hp) σ
        exact hsame.trans (hστ p hp)
  exact key marked (fun _ he => he) σ σ (fun _ _ => rfl) q (.inl rfl)

/-- What is known of a qubit that is returned, `since` being the instructions since its frame was
opened and `before` those before. The instructions in `since` can be marked so that all that move
the qubit are marked, and the marked ones alone leave it as it was. So the qubit reads 0 exactly
if the other instructions make no difference to it, and it is back to what it was at the opening
of its frame if they move no operand of a marked one. -/
def Accounted (read : ClbitId → Bool) (q : QubitId) (before since : List (Instruction R)) : Prop :=
  ∃ marked : Trail R, marked.map Prod.fst = since ∧
    (∀ e ∈ marked, e.2 = false → q ∉ e.1.movedTargets) ∧
    (∀ σ, runOnBasis read marked.balanced σ q = σ q) ∧
    (runOnBasis read (before ++ since) Basis.zero q = false ↔
      runOnBasis read (before ++ since) Basis.zero q =
        runOnBasis read marked.balanced Basis.zero q) ∧
    ((∀ e ∈ marked, e.2 = false → ∀ d ∈ marked, d.2 = true →
        ∀ p ∈ d.1.qubits, p ∉ e.1.movedTargets) →
      ∀ σ, runOnBasis read since σ q = σ q)

theorem accounted_of_marking {q : QubitId} {before : List (Instruction R)} {marked : Trail R}
    (hq : ∀ e ∈ marked, e.2 = false → q ∉ e.1.movedTargets)
    (hback : ∀ σ, runOnBasis read marked.balanced σ q = σ q) :
    Accounted read q before (marked.map Prod.fst) := by
  refine ⟨marked, rfl, hq, hback, ?_, ?_⟩
  · rw [hback]
    rfl
  · intro hapart σ
    rw [runOnBasis_eq_balanced hq hapart, hback]

theorem exists_marking {h : Trail R} {since : List (Instruction R)}
    (hs : List.Forall₂ Becomes h since) :
    ∃ marked : Trail R, marked.map Prod.fst = since ∧ marked.balanced = h.balanced ∧
      ∀ e ∈ marked, e.2 = false → ∃ d ∈ h, d.2 = false ∧ d.1.movedTargets = e.1.movedTargets := by
  induction hs with
  | nil => exact ⟨[], rfl, rfl, by simp⟩
  | @cons e x h since hx _ ih =>
    obtain ⟨i, b⟩ := e
    obtain ⟨marked, hmap, hbal, hfalse⟩ := ih
    refine ⟨(x, b) :: marked, by simp [hmap], ?_, ?_⟩
    · cases b with
      | true =>
        have hxi : x = i := hx.1 rfl
        rw [hxi]
        exact congrArg (i :: ·) hbal
      | false => exact hbal
    · intro e he hb
      rcases List.mem_cons.1 he with rfl | he
      · exact ⟨(i, b), List.mem_cons_self, hb, hx.2.symm⟩
      · obtain ⟨d, hd, hrest⟩ := hfalse e he hb
        exact ⟨d, List.mem_cons_of_mem _ hd, hrest⟩

/-! ## Frames that change hands -/

variable {out : List (Instruction R)} {w : Basis → Basis} {inner inner' : QubitId → Prop}
  {fs : List (Frame R)} {hs : List (Trail R)}

theorem Followed.forget (h : Followed read out w inner fs hs) {qs : List QubitId}
    (hqs : ∀ q ∈ qs, ∀ g ∈ fs.take hs.length, g.touched.contains q = false) :
    Followed read out w inner (fs.map fun f => f.forget qs) hs := by
  induction fs generalizing w inner hs with
  | nil => trivial
  | cons f fs ih =>
    cases hs with
    | nil => trivial
    | cons t hs =>
      obtain ⟨hf, hrest⟩ := h
      -- a qubit that some frame has marked is not among those that are forgotten
      have hnot : ∀ g ∈ (f :: fs).take (hs.length + 1), ∀ q, g.touched.contains q = true →
          q ∉ qs := by
        intro g hg q hq hmem
        rw [hqs q hmem g hg] at hq
        exact absurd hq (by decide)
      have hnext := ih hrest fun q hq g hg => hqs q hq g (List.mem_cons_of_mem _ hg)
      refine ⟨⟨hf.balances, hf.permutes, ?_, ?_, ?_, ?_⟩, hnext.inner ?_⟩
      · intro q
        rw [Bool.eq_false_iff]
        intro hq
        have := ((QubitSet.contains_eraseAll _ _ _).1 hq).1
        rw [hf.unspread] at this
        exact absurd this (by decide)
      · intro e he hb q hq
        have htouched := hf.noted e he hb q hq
        exact (QubitSet.contains_eraseAll _ _ _).2
          ⟨htouched, hnot f List.mem_cons_self q htouched⟩
      · intro g hg q hq htouched
        rw [← List.map_take] at hg
        obtain ⟨g', hg', rfl⟩ := List.mem_map.1 hg
        obtain ⟨htouched, hmem⟩ := (QubitSet.contains_eraseAll _ _ _).1 htouched
        refine (QubitSet.contains_eraseAll _ _ _).2 ⟨hf.layered g' hg' q ?_ htouched, hmem⟩
        exact hq.imp_right fun hq => (Frame.mem_owned_forget.1 hq).1
      · rw [inverted_map (fun f => f.forget qs) fun _ => rfl]
        exact hf.recorded
      · exact fun q hq => .inl (hq.imp_right fun hq => (Frame.mem_owned_forget.1 hq).1)

theorem Followed.own {f : Frame R} (h : Followed read out w inner (f :: fs) hs)
    {qs : List QubitId} (hin : ∀ q, inner' q → inner q)
    (hqs : ∀ q ∈ qs, inner q ∨ ∀ g ∈ (f :: fs).take hs.length, g.touched.contains q = false) :
    Followed read out w inner' (f.own qs :: fs) hs := by
  cases hs with
  | nil => trivial
  | cons t hs =>
    obtain ⟨hf, hrest⟩ := h
    have hcase : ∀ q, inner' q ∨ q ∈ (f.own qs).owned → (inner q ∨ q ∈ f.owned) ∨
        ∀ g ∈ (f :: fs).take (hs.length + 1), g.touched.contains q = false := by
      rintro q (hq | hq)
      · exact .inl (.inl (hin q hq))
      · rcases List.mem_append.1 hq with hq | hq
        · exact .inl (.inr hq)
        · exact (hqs q hq).imp_left .inl
    refine ⟨{ hf with layered := ?_ }, hrest.inner ?_⟩
    · intro g hg q hq htouched
      rcases hcase q hq with hq | hq
      · exact hf.layered g hg q hq htouched
      · rw [hq g (List.mem_cons_of_mem _ hg)] at htouched
        exact absurd htouched (by decide)
    · intro q hq
      exact (hcase q hq).imp_right fun hq g hg => hq g (List.mem_cons_of_mem _ hg)

/-! ## Sending -/

namespace Session

variable {s s' : Session R}

def emissions (s : Session R) : List (Instruction R) := s.circuit.instructions.toList

theorem send_ok {i : Instruction R} {b : Bool} (h : s.send i b = (.ok (), s')) :
    ∃ o fs', FrameStack.routeThrough s.frames.toList i b = (.ok o, fs') ∧
      s'.frames.toList = fs'.map (Frame.count o) ∧ s'.emissions = s.emissions ++ o.toList := by
  obtain ⟨hr, hframes⟩ := FrameStack.route_eq s.frames i b
  unfold Session.send at h
  rcases hroute : s.frames.route i b with ⟨e | o, frames⟩
  · simp [hroute, refuse] at h
  · rw [hroute] at hr hframes
    refine ⟨o, frames.toList, Prod.ext hr.symm hframes.symm, ?_⟩
    rw [hroute] at h
    cases o with
    | none =>
      simp only [Prod.mk.injEq, true_and] at h
      subst h
      exact ⟨(map_count_none _).symm, (List.append_nil _).symm⟩
    | some j =>
      simp only [] at h
      have hs' := deliver_eq { s with frames } j
      rw [h] at hs'
      simp only [] at hs'
      subst hs'
      refine ⟨rfl, ?_⟩
      rcases hpush : s.circuit.push j with ⟨e | _, c⟩
      · simp [Session.deliver, onCircuit_eq, hpush, refuse] at h
      · exact Circuit.push_ok hpush

/-- Only balanced instructions were sent: the first `k` frames have marked nothing new, and unless
an inversion keeps them back, instructions came out that compose to `u`. -/
structure SendsBalanced (read : ClbitId → Bool) (k : Nat) (u : Basis → Basis) (s s' : Session R) :
    Prop where
  untouched : ∀ q, (∀ g ∈ s.frames.toList.take k, g.touched.contains q = false) →
    ∀ g ∈ s'.frames.toList.take k, g.touched.contains q = false
  emitted : ¬ Inverted s.frames.toList →
    ∃ js, s'.emissions = s.emissions ++ js ∧ runOnBasis read js = u

theorem sendsBalanced_refl (read : ClbitId → Bool) (k : Nat) (s : Session R) :
    SendsBalanced read k id s s :=
  ⟨fun _ hq => hq, fun _ => ⟨[], (List.append_nil _).symm, rfl⟩⟩

theorem SendsBalanced.trans {k : Nat} {u v : Basis → Basis} {s₁ s₂ : Session R}
    (h₁ : SendsBalanced read k u s s₁) (h₂ : SendsBalanced read k v s₁ s₂)
    (hkept : Inverted s₁.frames.toList → Inverted s.frames.toList) :
    SendsBalanced read k (v ∘ u) s s₂ where
  untouched q hq := h₂.untouched q (h₁.untouched q hq)
  emitted hinv := by
    obtain ⟨is, his, hu⟩ := h₁.emitted hinv
    obtain ⟨js, hjs, hv⟩ := h₂.emitted (mt hkept hinv)
    refine ⟨is ++ js, by rw [hjs, his, List.append_assoc], ?_⟩
    funext σ
    rw [runOnBasis_append, hu, hv]
    rfl

theorem send_followed {i : Instruction R} {b : Bool} (hi : i.Permutes)
    (hok : s.send i b = (.ok (), s')) (h : Followed read s.emissions w inner s.frames.toList hs) :
    Followed read s'.emissions (advance read w i b) inner s'.frames.toList
      (trailThrough s.frames.toList hs i b) := by
  obtain ⟨o, fs', hroute, hframes, hout⟩ := send_ok hok
  rw [hframes, hout]
  exact h.routed hi hroute

theorem send_balanced {i : Instruction R} (hi : i.Permutes) (hm : i.isMeasure = false)
    (hok : s.send i true = (.ok (), s'))
    (h : Followed read s.emissions w inner s.frames.toList hs) :
    SendsBalanced read hs.length (i.onBasis read) s s' := by
  obtain ⟨o, fs', hroute, hframes, hout⟩ := send_ok hok
  constructor
  · intro q hq g hg
    rw [hframes, ← List.map_take] at hg
    obtain ⟨g', hg', rfl⟩ := List.mem_map.1 hg
    rw [Bool.eq_false_iff]
    intro hgq
    rcases FrameStack.routeThrough_touched h hi hroute hg' hgq with ⟨g, hg, hgq⟩ | ⟨hb, -⟩
    · rw [hq g hg] at hgq
      exact absurd hgq (by decide)
    · rw [hm] at hb
      exact absurd hb (by decide)
  · intro hinv
    cases o with
    | none => exact absurd (FrameStack.inverted_of_routeThrough hroute) hinv
    | some j =>
      obtain rfl : j = i := (FrameStack.routeThrough_becomes hi hroute).1 rfl
      exact ⟨[j], hout, rfl⟩

variable [Scalar R]

theorem undo_followed {l : List (Instruction R × Bool)} (hl : ∀ e ∈ l, e.1.Permutes)
    (hundo : s.undo l = (.ok (), s'))
    (h : Followed read s.emissions w inner s.frames.toList hs) :
    ∃ hs', hs'.length = hs.length ∧
      Followed read s'.emissions (runOnBasis read (Trail.balanced l) ∘ w) inner s'.frames.toList hs' ∧
      ((∀ e ∈ l, e.2 = true) →
        SendsBalanced read hs.length (runOnBasis read (l.map Prod.fst)) s s') := by
  induction l generalizing s hs w with
  | nil =>
    simp only [Session.undo, Prod.mk.injEq, true_and] at hundo
    subst hundo
    exact ⟨hs, rfl, h, fun _ => sendsBalanced_refl read _ s⟩
  | cons e l ih =>
    obtain ⟨i, b⟩ := e
    obtain ⟨hi, hl⟩ := List.forall_mem_cons.1 hl
    obtain ⟨j, s₁, hadj, hsend, hrest⟩ := undo_cons_ok hundo
    -- undoing an exchange or a flip does the same again
    obtain ⟨hj, -, hact⟩ := hi.adjoint? hadj
    obtain ⟨hs', hlen, hfollow, hbal⟩ := ih hl hrest (send_followed hj hsend h)
    rw [length_trailThrough] at hlen hbal
    refine ⟨hs', hlen, ?_, ?_⟩
    · have hw : runOnBasis read (Trail.balanced ((i, b) :: l)) ∘ w =
          runOnBasis read (Trail.balanced l) ∘ advance read w j b := by
        cases b with
        | true =>
          funext σ
          simp [advance, hact, Trail.balanced]
        | false => rfl
      rw [hw]
      exact hfollow
    · intro hall
      obtain ⟨rfl, hbalanced⟩ := List.forall_mem_cons.1 hall
      have hkin := send_kin s j true
      rw [hsend] at hkin
      have hfirst := send_balanced hj (adjoint?_spec hadj).2.1 hsend h
      have hrun : runOnBasis read (((i, true) :: l).map Prod.fst) =
          runOnBasis read (l.map Prod.fst) ∘ j.onBasis read := by
        funext σ
        rw [Function.comp_apply, hact]
        rfl
      rw [hrun]
      exact hfirst.trans (hbal hbalanced) (inverted_of_kin hkin).1

omit [Scalar R] in
theorem due_cancels {f : Frame R} {t : Trail R} (h : f.Balances read t id) :
    runOnBasis read (Trail.balanced f.due) ∘ runOnBasis read t.balanced = id := by
  by_cases hconj : f.environment = .conjugation
  · -- the calculation is undone, whether an action came in between or not
    have hlog : runOnBasis read t.balanced = runOnBasis read (f.log.map Prod.fst).reverse := by
      cases hph : f.phase with
      | compute =>
        simp only [Frame.Balances, hconj, hph] at h
        rw [h, Trail.balanced_reverse, Trail.balanced_map_true]
      | act =>
        simp only [Frame.Balances, hconj, hph] at h
        exact h
    funext σ
    rw [Frame.due_conjugation hconj, Trail.balanced_map_true, hlog]
    simpa using runOnBasis_reverse read (f.log.map Prod.fst).reverse σ
  by_cases hinv : f.environment = .inversion
  · simp only [Frame.Balances, hinv] at h
    obtain ⟨rfl, hid⟩ := h
    funext σ
    have hcancel := runOnBasis_reverse read (Trail.balanced f.log) σ
    rw [← Trail.balanced_reverse, hid] at hcancel
    rw [Frame.due_inversion hinv]
    exact hcancel
  · rw [Frame.due_eq_nil hconj hinv, (Frame.balances_iff_of_plain hconj hinv).1 h]
    rfl

theorem replay_followed {f : Frame R} {t : Trail R} (hf : f.Balances read t id)
    (hperm : ∀ e ∈ f.log, e.1.Permutes) (hr : s.replay f = (.ok (), s'))
    (h : Followed read s.emissions (runOnBasis read t.balanced) inner s.frames.toList hs) :
    ∃ hs', hs'.length = hs.length ∧
      Followed read s'.emissions id inner s'.frames.toList hs' ∧
      (f.environment = .inversion ∨ ∃ u, u ∘ runOnBasis read t.balanced = id ∧
        SendsBalanced read hs.length u s s') := by
  have hdue : ∀ e ∈ f.due, e.1.Permutes := by
    intro e he
    obtain ⟨b, hlog⟩ := Frame.log_of_due he
    exact hperm (e.1, b) hlog
  rw [replay_eq] at hr
  obtain ⟨hs', hlen, hfollow, hsent⟩ := undo_followed hdue hr h
  rw [due_cancels hf] at hfollow
  refine ⟨hs', hlen, hfollow, or_iff_not_imp_left.2 fun hinv => ?_⟩
  have hall : ∀ e ∈ f.due, e.2 = true := by
    intro e he
    obtain ⟨-, hbalanced, -⟩ | ⟨henv, -⟩ := Frame.due_cases he
    · exact hbalanced
    · exact absurd henv hinv
  refine ⟨_, ?_, hsent hall⟩
  rw [← Trail.balanced_eq_map hall]
  exact due_cancels hf

omit [Scalar R] in
theorem reclaim_emissions {qs : List QubitId} (h : s.reclaim qs = (.ok (), s')) :
    s'.emissions = s.emissions := by
  obtain ⟨a, -, hback⟩ := freed_of_reclaim (congrArg Prod.fst h)
  obtain rfl : s' = s.freed qs a := by rw [← hback, h]
  rfl

theorem exit_ok {id : FrameId} (h : s.exit id = (.ok (), s')) :
    ∃ parent rest s₁ s₂, s.frames.below = parent :: rest ∧ s.frames.top.id = id ∧
      (s.popped parent rest).replay s.frames.top = (.ok (), s₁) ∧ s.frames.top.leaked = [] ∧
      s₁.reclaim s.frames.top.toReclaim = (.ok (), s₂) ∧
      s' = { s₂ with frames := s₂.frames.modifyTop fun f => f.own s.frames.top.exported } := by
  have hexits := exits s id
  rw [h] at hexits
  cases hexits with
  | closed hp hb hid hr hl hback => exact ⟨_, _, _, _, hb, hid, hr, hl, hback, rfl⟩

omit [Scalar R] in
theorem Sound.not_inverted (h : Sound [] s) {q : QubitId} (hq : q ∈ s.frames.top.owned) :
    s.frames.top.environment ≠ .inversion ∧ ¬ Inverted s.frames.below := by
  have hnone : ¬ Inverted (s.frames.top :: s.frames.below) := by
    intro hinv
    rw [h.owned.nested.1.owned hinv] at hq
    exact absurd hq List.not_mem_nil
  rw [inverted_cons, not_or] at hnone
  exact hnone

omit [Scalar R] in
theorem accounted_of_sent {t : Trail R} {f : Frame R} {fs : List (Frame R)} {q : QubitId}
    {k : Nat} (js : List (Instruction R))
    (hf : f.Follows read s.emissions w inner fs k t) (hinv : ¬ Inverted fs)
    (hclean : f.touched.contains q = false)
    (hback : ∀ σ, runOnBasis read js (runOnBasis read t.balanced σ) q = σ q)
    (hout : s'.emissions = s.emissions ++ js) :
    Accounted read q (s'.emissions.take (s.emissions.length - f.emitted))
      (s'.emissions.drop (s.emissions.length - f.emitted)) := by
  obtain ⟨hn, hseg⟩ := hf.recorded hinv
  obtain ⟨marked, hmap, hbal, hfalse⟩ := exists_marking hseg
  have hdrop : s'.emissions.drop (s.emissions.length - f.emitted) =
      (marked ++ js.map fun j => (j, true)).map Prod.fst := by
    have hjs : (js.map fun j => (j, true)).map Prod.fst = js := by
      rw [List.map_map]
      exact List.map_id js
    rw [hout, List.drop_append_of_le_length (Nat.sub_le _ _), List.map_append, hmap, hjs]
  rw [hdrop]
  apply accounted_of_marking
  · intro e he hb hq
    rcases List.mem_append.1 he with he | he
    · obtain ⟨d, hd, hdb, hmoved⟩ := hfalse e he hb
      rw [← hmoved] at hq
      rw [hf.noted d hd hdb q hq] at hclean
      exact absurd hclean (by decide)
    · obtain ⟨j, -, rfl⟩ := List.mem_map.1 he
      exact absurd hb Bool.noConfusion
  · intro σ
    rw [Trail.balanced_append, hbal, Trail.balanced_all, runOnBasis_append]
    exact hback σ

theorem exit_followed (hsound : Sound [] s) {t : Trail R} {frame : FrameId}
    (h : Followed read s.emissions id (fun _ => False) s.frames.toList (t :: hs))
    (hok : s.exit frame = (.ok (), s')) :
    ∃ hs', hs'.length = hs.length ∧
      Followed read s'.emissions id (fun _ => False) s'.frames.toList hs' ∧
      ∀ q ∈ s.frames.top.toReclaim,
        Accounted read q (s'.emissions.take (s.emissions.length - s.frames.top.emitted))
          (s'.emissions.drop (s.emissions.length - s.frames.top.emitted)) := by
  obtain ⟨parent, rest, s₁, s₂, hb, -, hr, hl, hback, rfl⟩ := exit_ok hok
  rw [FrameStack.toList, hb] at h
  obtain ⟨hf, hrest⟩ := h
  have hclean : ∀ q ∈ s.frames.top.toReclaim, s.frames.top.touched.contains q = false := by
    intro q hq
    have hnot := List.filter_eq_nil_iff.1 hl q hq
    simpa using hnot
  obtain ⟨hs', hlen, hfollow, hsent⟩ :=
    replay_followed (s := s.popped parent rest) hf.balances hf.permutes hr hrest
  -- what is returned belongs to a frame inside no inversion, so all that is sent is balanced
  have hsends : ∀ q ∈ s.frames.top.toReclaim, ¬ Inverted (parent :: rest) ∧
      ∃ u, u ∘ runOnBasis read t.balanced = id ∧
        SendsBalanced read hs.length u (s.popped parent rest) s₁ := by
    intro q hq
    obtain ⟨hne, hinv⟩ := hsound.not_inverted (Frame.mem_toReclaim.1 hq).1
    rw [hb] at hinv
    exact ⟨hinv, hsent.resolve_left hne⟩
  have huntouched : ∀ q ∈ s.frames.top.toReclaim, ∀ g ∈ s₁.frames.toList.take hs'.length,
      g.touched.contains q = false := by
    intro q hq
    obtain ⟨-, u, -, hsend⟩ := hsends q hq
    rw [hlen]
    refine hsend.untouched q fun g hg => ?_
    rw [Bool.eq_false_iff]
    intro hgq
    have := hf.layered g hg q (.inr (Frame.mem_toReclaim.1 hq).1) hgq
    rw [hclean q hq] at this
    exact absurd this (by decide)
  have hforgot := hfollow.forget huntouched
  refine ⟨hs', hlen, ?_, ?_⟩
  · rw [← FrameStack.toList_map, ← reclaim_frames hback, ← reclaim_emissions hback] at hforgot
    refine hforgot.own (fun _ hq => hq.elim) ?_
    intro q hq
    exact .inl (.inr ((hsound.owned.tidy _ List.mem_cons_self).exported q hq))
  · intro q hq
    obtain ⟨hinv, u, hu, hsend⟩ := hsends q hq
    obtain ⟨js, hjs, hrun⟩ := hsend.emitted hinv
    refine accounted_of_sent js hf hinv (hclean q hq) (fun σ => ?_) ?_
    · rw [hrun]
      exact congrFun (congrFun hu σ) q
    · exact (reclaim_emissions hback).trans hjs

end Session

/-! ## Releasing -/

theorem Frame.Balances.fixes {f : Frame R} {t : Trail R} {q : QubitId}
    (h : f.Balances read t w) (hw : ∀ σ, w σ q = σ q) (hq : f.references q = false) (σ : Basis) :
    runOnBasis read t.balanced σ q = σ q := by
  have hlog (henv : f.environment = .conjugation) (σ : Basis) :
      runOnBasis read (f.log.map Prod.fst).reverse σ q = σ q := by
    refine runOnBasis_of_not_moved read (fun i hi hmoved => ?_) σ
    obtain ⟨e, he, rfl⟩ := List.mem_map.1 (List.mem_reverse.1 hi)
    simp only [Frame.references, henv, List.any_eq_false] at hq
    exact hq e he (by simpa using Instruction.mem_of_mem_movedTargets hmoved)
  by_cases hconj : f.environment = .conjugation
  · cases hph : f.phase with
    | compute =>
      simp only [Balances, hconj, hph] at h
      rw [h, Trail.balanced_reverse, Trail.balanced_map_true]
      exact hlog hconj σ
    | act =>
      simp only [Balances, hconj, hph] at h
      rw [h]
      exact (hw _).trans (hlog hconj σ)
  by_cases hinv : f.environment = .inversion
  · simp only [Balances, hinv] at h
    rw [h.1]
    rfl
  · rw [(balances_iff_of_plain hconj hinv).1 h, hw]

namespace Session

variable {s s' : Session R}

theorem accounted_of_followed {q : QubitId} {f : Frame R} {fs : List (Frame R)}
    (h : Followed read s.emissions w inner fs hs) (hn : Nested fs) (hw : ∀ σ, w σ q = σ q)
    (hq : ∀ g ∈ fs, g.references q = false ∧ g.touched.contains q = false)
    (hf : f ∈ fs.take hs.length) (hown : q ∈ f.owned) :
    Accounted read q (s.emissions.take (s.emissions.length - f.emitted))
      (s.emissions.drop (s.emissions.length - f.emitted)) := by
  induction fs generalizing w inner hs with
  | nil => simp at hf
  | cons g fs ih =>
    cases hs with
    | nil => simp at hf
    | cons t hs =>
      obtain ⟨hg, hrest⟩ := h
      obtain ⟨href, htouched⟩ := hq g List.mem_cons_self
      have hfix := hg.balances.fixes hw href
      rcases List.mem_cons.1 hf with rfl | hf
      · have hinv : ¬ Inverted fs := by
          intro hinv
          rw [hn.1.owned (inverted_cons.2 (.inr hinv))] at hown
          exact absurd hown List.not_mem_nil
        exact accounted_of_sent [] hg hinv htouched hfix (List.append_nil _).symm
      · exact ih hrest hn.2 hfix (fun p hp => hq p (List.mem_cons_of_mem _ hp)) hf

/-! ## Calls -/

/-- The innermost frames have trails, and all others are `old`. -/
structure Tracked (read : ClbitId → Bool) (old : List FrameId) (s : Session R)
    (hs : List (Trail R)) : Prop where
  followed : Followed read s.emissions id (fun _ => False) s.frames.toList hs
  opened : ∀ n ∈ (s.frames.toList.map Frame.id).drop hs.length, n ∈ old

variable {old : List FrameId}

theorem ids_of_kin {fs fs' : List (Frame R)} (h : List.Forall₂ Frame.Kin fs fs') :
    fs'.map Frame.id = fs.map Frame.id :=
  map_eq_of_forall₂ h Frame.Kin.id

theorem allocate_emissions {count : Nat} {name : String} {qs : List QubitId}
    (h : s.allocate count name = (.ok qs, s')) : s'.emissions = s.emissions := by
  have hregister : ∀ (l : List (QubitId × Nat)) (c : Circuit R),
      (l.foldl (fun c p => c.registerQubit ⟨p.1, some name, some p.2⟩) c).instructions =
        c.instructions := by
    intro l
    induction l with
    | nil => exact fun _ => rfl
    | cons p l ih =>
      intro c
      rw [List.foldl_cons, ih]
      obtain ⟨-, hp⟩ | ⟨-, hp⟩ := c.registerQubit_cases ⟨p.1, some name, some p.2⟩ <;> rw [hp]
  obtain ⟨a, -, rfl⟩ := granted_of_allocate h
  exact congrArg Array.toList (hregister _ _)

theorem Tracked.send {i : Instruction R} (h : Tracked read old s hs) (hi : i.Permutes)
    (hok : s.send i false = (.ok (), s')) : ∃ hs', Tracked read old s' hs' := by
  have hkin := send_kin s i false
  rw [hok] at hkin
  refine ⟨trailThrough s.frames.toList hs i false, send_followed hi hok h.followed, ?_⟩
  rw [length_trailThrough, ids_of_kin hkin]
  exact h.opened

theorem Tracked.emit {i : Instruction R} (h : Tracked read old s hs) (hi : i.Permutes)
    (hok : s.emit i = (.ok (), s')) : ∃ hs', Tracked read old s' hs' :=
  h.send hi (emit_ok hok).2

theorem Tracked.measure {q : QubitId} {b : ClbitId} (h : Tracked read old s hs)
    (hok : s.measure q = (.ok b, s')) : ∃ hs', Tracked read old s' hs' := by
  have hc : Tracked read old { s with circuit := (s.circuit.addClbit (some q)).2 } hs :=
    ⟨h.followed, h.opened⟩
  exact hc.emit (Instruction.permutes_measure _ _) (measure_ok hok)

theorem Tracked.reclaim {qs : List QubitId} (h : Tracked read old s hs)
    (hqs : ∀ q ∈ qs, ∀ f ∈ s.frames.toList, f.touched.contains q = false)
    (hok : s.reclaim qs = (.ok (), s')) : Tracked read old s' hs := by
  have hnext := h.followed.forget fun q hq g hg => hqs q hq g (List.mem_of_mem_take hg)
  rw [← FrameStack.toList_map, ← reclaim_frames hok, ← reclaim_emissions hok] at hnext
  refine ⟨hnext, ?_⟩
  have hids : s'.frames.toList.map Frame.id = s.frames.toList.map Frame.id := by
    rw [reclaim_frames hok, FrameStack.toList_map, List.map_map]
    rfl
  rw [hids]
  exact h.opened

theorem Tracked.allocate {count : Nat} {name : String} {qs : List QubitId} (hsound : Sound [] s)
    (h : Tracked read old s hs) (hok : s.allocate count name = (.ok qs, s')) :
    Tracked read old s' hs := by
  obtain ⟨hframes, a, ha, -⟩ := allocate_ok hok
  have hdead := (Allocator.allocate_spec hsound.allocator ha).2.1
  constructor
  · rw [hframes, allocate_emissions hok]
    refine h.followed.own (fun _ hq => hq) fun q hq => .inr fun g hg => ?_
    exact (hsound.unmarked (hdead q hq) (List.mem_of_mem_take hg)).1
  · rw [hframes]
    exact h.opened

theorem Tracked.replaceTop {f : Frame R} (h : Tracked read old s hs)
    (hf : ∀ t, s.frames.top.Balances read t id → f.Balances read t id)
    (hsame : f.log = s.frames.top.log ∧ f.superposed = s.frames.top.superposed ∧
      f.touched = s.frames.top.touched ∧ f.owned = s.frames.top.owned ∧
      f.emitted = s.frames.top.emitted ∧ f.id = s.frames.top.id) :
    Tracked read old { s with frames := { s.frames with top := f } } hs := by
  obtain ⟨hlog, hsup, htouched, howned, hemitted, hid⟩ := hsame
  obtain ⟨hfollowed, hopened⟩ := h
  cases hs with
  | nil =>
    refine ⟨trivial, ?_⟩
    simpa [FrameStack.toList, hid] using hopened
  | cons t hs =>
    obtain ⟨htop, hrest⟩ := hfollowed
    refine ⟨⟨⟨hf t htop.balances, ?_, ?_, ?_, ?_, ?_⟩, ?_⟩, ?_⟩
    · exact hlog ▸ htop.permutes
    · exact hsup ▸ htop.unspread
    · exact htouched ▸ htop.noted
    · rw [htouched, howned]
      exact htop.layered
    · rw [hemitted]
      exact htop.recorded
    · rw [howned]
      exact hrest
    · exact hopened

theorem Tracked.exportQubits {qs : List QubitId} (h : Tracked read old s hs)
    (hok : s.exportQubits qs = (.ok (), s')) : Tracked read old s' hs := by
  obtain hrefused | ⟨-, heq⟩ := s.exportQubits_cases qs
  · exact (hrefused.not_ok hok).elim
  · rw [← (Prod.mk.inj (heq.symm.trans hok)).2]
    exact h.replaceTop (fun _ ht => ht) ⟨rfl, rfl, rfl, rfl, rfl, rfl⟩

theorem Tracked.beginAction (h : Tracked read old s hs) (hok : s.beginAction = (.ok (), s')) :
    Tracked read old s' hs := by
  obtain hrefused | ⟨hc, heq⟩ := s.beginAction_cases
  · exact (hrefused.not_ok hok).elim
  · obtain ⟨henv, hph⟩ := Frame.isComputing_iff.1 hc
    rw [← (Prod.mk.inj (heq.symm.trans hok)).2]
    refine h.replaceTop (fun t ht => ?_) ⟨rfl, rfl, rfl, rfl, rfl, rfl⟩
    simp only [Frame.Balances, henv, hph] at ht ⊢
    rw [ht, Trail.balanced_reverse, Trail.balanced_map_true]
    rfl

theorem Tracked.enter {environment : Environment} {label : String} {frame : FrameId}
    (h : Tracked read old s hs) (hok : s.enter environment label = (.ok frame, s')) :
    Tracked read old s' ([] :: hs) := by
  obtain ⟨-, rfl⟩ := enter_eq hok
  refine ⟨⟨⟨?_, ?_, ?_, ?_, ?_, ?_⟩, ?_⟩, h.opened⟩
  · cases environment <;> first | exact ⟨rfl, rfl⟩ | rfl
  · exact fun e he => absurd he List.not_mem_nil
  · exact fun q => QubitSet.contains_default q
  · exact fun e he => absurd he List.not_mem_nil
  · rintro g - q (hq | hq)
    · exact hq.elim
    · exact absurd hq List.not_mem_nil
  · intro _
    refine ⟨Nat.zero_le _, ?_⟩
    show List.Forall₂ Becomes [] (s.emissions.drop (s.emissions.length - 0))
    simp
  · exact h.followed.inner fun q hq => .inl (hq.elim id fun hq => absurd hq List.not_mem_nil)

variable [Scalar R]

theorem Tracked.exit {frame : FrameId} (hsound : Sound [] s) (h : Tracked read old s hs)
    (hok : s.exit frame = (.ok (), s')) : ∃ hs', Tracked read old s' hs' := by
  have hids : s'.frames.toList.map Frame.id = s.frames.below.map Frame.id := by
    obtain ⟨parent, rest, s₁, s₂, hb, -, hr, -, hback, rfl⟩ := exit_ok hok
    have hkin := replay_kin (s.popped parent rest) s.frames.top
    rw [hr] at hkin
    have hback' : s₂.frames.toList.map Frame.id = s₁.frames.toList.map Frame.id := by
      rw [reclaim_frames hback, FrameStack.toList_map, List.map_map]
      rfl
    have hids := hback'.trans (ids_of_kin hkin)
    rw [hb]
    exact hids
  obtain ⟨hfollowed, hopened⟩ := h
  cases hs with
  | nil =>
    refine ⟨[], followed_nil _ _ _, ?_⟩
    rw [hids]
    exact fun n hn => hopened n (List.mem_cons_of_mem _ hn)
  | cons t hs =>
    obtain ⟨hs', hlen, hnext, -⟩ := exit_followed hsound hfollowed hok
    refine ⟨hs', hnext, ?_⟩
    rw [hids, hlen]
    exact hopened

end Session

def Call.IsPlain : Call R → Prop
  | .apply g _ => g.kind.root = .x ∨ g.kind.root = .swap
  | .assertRestored _ | .abort _ => False
  | _ => True

namespace Session

variable {s s' : Session R} [Scalar R] {old : List FrameId}

theorem Tracked.perform (hsound : Sound [] s) (h : Tracked read old s hs) {c : Call R}
    (hc : c.IsPlain) (hok : c.perform s = (.ok (), s')) : ∃ hs', Tracked read old s' hs' := by
  cases c with
  | allocate count name =>
    rcases ha : s.allocate count name with ⟨e | qs, s₁⟩
    · simp [Call.perform, ha, Except.map] at hok
    · simp only [Call.perform, ha, Except.map, Prod.mk.injEq, true_and] at hok
      subst hok
      exact ⟨hs, h.allocate hsound ha⟩
  | release qs =>
    obtain ⟨hclean, hback⟩ := release_ok hok
    exact ⟨hs, h.reclaim (fun q hq f hf => (hclean q hq f hf).2) hback⟩
  | exportQubits qs => exact ⟨hs, h.exportQubits hok⟩
  | assertRestored qs => exact hc.elim
  | apply g qs =>
    refine h.emit (i := .ofGate g qs) ?_ hok
    intro g' hg'
    obtain rfl := Option.some.inj hg'
    exact hc
  | barrier qs => exact h.emit (Instruction.permutes_barrier qs) hok
  | measure q =>
    rcases hm : s.measure q with ⟨e | b, s₁⟩
    · simp [Call.perform, hm, Except.map] at hok
    · simp only [Call.perform, hm, Except.map, Prod.mk.injEq, true_and] at hok
      subst hok
      exact h.measure hm
  | enter environment label =>
    rcases he : s.enter environment label with ⟨e | frame, s₁⟩
    · simp [Call.perform, he, Except.map] at hok
    · simp only [Call.perform, he, Except.map, Prod.mk.injEq, true_and] at hok
      subst hok
      exact ⟨[] :: hs, h.enter he⟩
  | beginAction => exact ⟨hs, h.beginAction hok⟩
  | exit frame => exact h.exit hsound hok
  | abort frame => exact hc.elim

theorem Tracked.run {cs : List (Call R)} (hs₀ : s.Reachable) (h : Tracked read old s hs)
    (hcs : ∀ c ∈ cs, c.IsPlain) (hok : s.run cs = .ok s') :
    s'.Reachable ∧ ∃ hs', Tracked read old s' hs' := by
  induction cs generalizing s hs with
  | nil =>
    obtain rfl : s = s' := Except.ok.inj hok
    exact ⟨hs₀, hs, h⟩
  | cons c cs ih =>
    rw [run_cons] at hok
    rcases hc : c.perform s with ⟨e | _, s₁⟩
    · rw [hc] at hok
      exact absurd hok (by simp [Reply.settle, bind, Except.bind])
    · rw [hc] at hok
      have hreach : s₁.Reachable := by
        have := hs₀.call c
        rwa [hc] at this
      obtain ⟨hs₁, h₁⟩ := h.perform hs₀.sound (hcs c List.mem_cons_self) hc
      exact ih hreach h₁ (fun d hd => hcs d (List.mem_cons_of_mem _ hd)) hok

omit [Scalar R] in
theorem tracked_new (config : SessionConfig) : Tracked read [] (new config : Session R) [[]] := by
  refine ⟨⟨⟨rfl, ?_, ?_, ?_, ?_, ?_⟩, trivial⟩, ?_⟩
  · exact fun e he => absurd he List.not_mem_nil
  · exact fun q => QubitSet.contains_default q
  · exact fun e he => absurd he List.not_mem_nil
  · exact fun g hg => absurd hg List.not_mem_nil
  · exact fun _ => ⟨Nat.le_refl 0, .nil⟩
  · exact fun n hn => absurd hn List.not_mem_nil

theorem exists_tracked (read : ClbitId → Bool) {config : SessionConfig} {ds es : List (Call R)}
    (hes : ∀ c ∈ es, c.IsPlain) (hok : ((new config).after ds).run es = .ok s) :
    s.Reachable ∧ ∃ hs old, Tracked read old s hs ∧
      ∀ n ∈ old, ds ≠ [] ∧ ∃ g ∈ ((new config : Session R).after ds).frames.toList, g.id = n := by
  by_cases hds : ds = []
  · subst hds
    obtain ⟨hreach, hs, h⟩ := (tracked_new config).run (.new config) hes hok
    exact ⟨hreach, hs, [], h, fun n hn => absurd hn List.not_mem_nil⟩
  · let s₀ : Session R := (new config).after ds
    have h₀ : Tracked read (s₀.frames.toList.map Frame.id) s₀ [] :=
      ⟨followed_nil _ _ _, fun n hn => hn⟩
    obtain ⟨hreach, hs, h⟩ := h₀.run ((Reachable.new config).after ds) hes hok
    exact ⟨hreach, hs, _, h, fun n hn => ⟨hds, List.mem_map.1 hn⟩⟩

omit [Scalar R] in
theorem Tracked.opened_top {n : FrameId} (h : Tracked read old s []) (htop : s.frames.top.id = n) :
    n ∈ old := by
  refine h.opened n ?_
  rw [← htop]
  exact List.mem_cons_self

/-- Every qubit that is returned is accounted for, be it by closing an environment or by a release,
provided that since the opening of the frame that owns it all calls were plain and succeeded. -/
theorem returned_qubits_accounted (read : ClbitId → Bool) (config : SessionConfig)
    (ds es : List (Call R)) (s : Session R) (hes : ∀ c ∈ es, c.IsPlain)
    (hok : ((new config).after ds).run es = .ok s) :
    (∀ frame s', s.exit frame = (.ok (), s') →
      (ds = [] ∨ ∀ g ∈ ((new config : Session R).after ds).frames.toList, g.id ≠ frame) →
      ∀ q, s.allocator.isLive q = true → s'.allocator.isLive q = false →
        Accounted read q (s'.emissions.take (s.emissions.length - s.frames.top.emitted))
          (s'.emissions.drop (s.emissions.length - s.frames.top.emitted))) ∧
    (∀ qs s', s.release qs = (.ok (), s') → ∀ q ∈ qs, ∀ f ∈ s.frames.toList, q ∈ f.owned →
      (ds = [] ∨ ∀ g ∈ ((new config : Session R).after ds).frames.toList, g.id ≠ f.id) →
        Accounted read q (s'.emissions.take (s'.emissions.length - f.emitted))
          (s'.emissions.drop (s'.emissions.length - f.emitted))) := by
  obtain ⟨hreach, hs, old, h, hold⟩ := exists_tracked read hes hok
  have hsound := hreach.sound
  -- a frame that was opened since has a trail
  have hfresh : ∀ n, (ds = [] ∨ ∀ g ∈ ((new config : Session R).after ds).frames.toList,
      g.id ≠ n) → n ∉ old := by
    rintro n hn hmem
    obtain ⟨hds, g, hg, hgn⟩ := hold n hmem
    exact hn.elim hds fun hn => hn g hg hgn
  constructor
  · intro frame s' hexit hopen q hlive hdead
    obtain ⟨parent, rest, s₁, s₂, hb, hid, hr, -, hback, hs'⟩ := exit_ok hexit
    cases hs with
    | nil => exact absurd (h.opened_top hid) (hfresh frame hopen)
    | cons t hs =>
      obtain ⟨-, -, -, haccount⟩ := exit_followed hsound h.followed hexit
      refine haccount q ?_
      have hlimbo := hsound.replayed hb hr
      have hreturned := reclaim_isLive hlimbo.allocator hlimbo.toReclaim_ok q
      rw [hback, hsound.replayed_isLive hb hr, hlive] at hreturned
      rw [hs'] at hdead
      by_contra hq
      rw [hreturned.2 ⟨rfl, hq⟩] at hdead
      exact absurd hdead (by decide)
  · intro qs s' hrelease q hq f hf hown hopen
    obtain ⟨hfree, hback⟩ := release_ok hrelease
    have htaken : f ∈ s.frames.toList.take hs.length := by
      rw [← List.take_append_drop hs.length s.frames.toList, List.mem_append] at hf
      refine hf.resolve_right fun hdrop => hfresh f.id hopen (h.opened f.id ?_)
      rw [← List.map_drop]
      exact List.mem_map.2 ⟨f, hdrop, rfl⟩
    rw [reclaim_emissions hback]
    exact accounted_of_followed h.followed hsound.owned.nested (fun _ => rfl)
      (fun g hg => hfree q hq g hg) htaken hown

theorem copied_ancilla_accounted :
    ∃ s s' : Session Float, (new {}).run [.allocate 2 "a", .enter .conjugation "c",
        .allocate 1 "b", .apply (.ofStandard .cx) [0, 2], .beginAction,
        .apply (.ofStandard .cx) [2, 1]] = .ok s ∧
      s.exit 1 = (.ok (), s') ∧ s.allocator.isLive 2 = true ∧ s'.allocator.isLive 2 = false ∧
      Accounted (fun _ => false) 2
        (s'.emissions.take (s.emissions.length - s.frames.top.emitted))
        (s'.emissions.drop (s.emissions.length - s.frames.top.emitted)) := by
  have hrun : ((new {} : Session Float).after []).run [.allocate 2 "a", .enter .conjugation "c",
      .allocate 1 "b", .apply (.ofStandard .cx) [0, 2], .beginAction,
      .apply (.ofStandard .cx) [2, 1]] = .ok _ := run_eq_after (by decide +kernel)
  have haccount := (returned_qubits_accounted (fun _ => false) {} [] _ _
    (by simp [Call.IsPlain, Gate.ofStandard, GateKind.root, GateKind.splitControls,
      Standard.splitControls]) hrun).1 1 _ (Prod.ext (by decide +kernel) rfl) (.inl rfl) 2
  exact ⟨_, _, hrun, Prod.ext (by decide +kernel) rfl, by decide +kernel, by decide +kernel,
    haccount (by decide +kernel) (by decide +kernel)⟩

theorem changed_control_leaks :
    ∃ s : Session Float, (new {}).run [.allocate 1 "a", .enter .conjugation "l", .allocate 1 "b",
        .apply (.ofStandard .cx) [0, 1], .beginAction, .apply (.ofStandard .x) [0], .exit 1] =
          .ok s ∧
      s.allocator.isLive 1 = false ∧
      runOnBasis (fun _ => false) s.emissions Basis.zero 1 = true := by
  refine ⟨_, run_eq_after (by decide +kernel), by decide +kernel, by decide +kernel⟩

end Session

end Ancilla
