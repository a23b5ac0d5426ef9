import Ancilla.Proofs.Circuit.Basis
import Ancilla.Proofs.Session.Closing

/-!
What has left each frame since it was opened, and what follows from it. The balanced instructions
that left a frame compose to what the conjugations inside it, and itself, have still to undo; the
unbalanced ones have marked their targets; and where no inversion stands outside, all of them have
come out into the circuit, balanced ones as they were.
-/

namespace Ancilla

variable {R : Type}

abbrev Trail (R : Type) := List (Instruction R × Bool)

def Trail.balanced (h : Trail R) : List (Instruction R) := (h.filter Prod.snd).map Prod.fst

theorem Trail.balanced_append (h h' : Trail R) :
    Trail.balanced (h ++ h') = h.balanced ++ h'.balanced := by
  simp [balanced]

theorem Trail.balanced_reverse (h : Trail R) :
    Trail.balanced h.reverse = h.balanced.reverse := by
  simp [balanced, List.filter_reverse]

theorem Trail.balanced_all (l : List (Instruction R)) :
    Trail.balanced (l.map fun i => (i, true)) = l := by
  induction l with
  | nil => rfl
  | cons i l ih => exact congrArg (i :: ·) ih

theorem Trail.balanced_map_true (h : Trail R) :
    Trail.balanced (h.map fun e => (e.1, true)) = h.map Prod.fst := by
  rw [← Trail.balanced_all (h.map Prod.fst), List.map_map]
  rfl

theorem Trail.balanced_eq_map {h : Trail R} (hall : ∀ e ∈ h, e.2 = true) :
    h.balanced = h.map Prod.fst := by
  rw [balanced, List.filter_eq_self.2 hall]

def Becomes (e : Instruction R × Bool) (i : Instruction R) : Prop :=
  (e.2 = true → i = e.1) ∧ i.movedTargets = e.1.movedTargets

def trailThrough : List (Frame R) → List (Trail R) → Instruction R → Bool → List (Trail R)
  | f :: fs, h :: hs, i, b =>
    match f.pass i b with
    | .ok (_, some (j, c)) => (h ++ [(j, c)]) :: trailThrough fs hs j c
    | _ => h :: hs
  | _, hs, _, _ => hs

theorem length_trailThrough (fs : List (Frame R)) (hs : List (Trail R)) (i : Instruction R)
    (b : Bool) : (trailThrough fs hs i b).length = hs.length := by
  fun_induction trailThrough fs hs i b with
  | case1 f fs h hs i b f' j c hp ih => simp [ih]
  | case2 => rfl
  | case3 => rfl

namespace Frame

/-- The balanced part of what left a frame, `w` being the balanced part of what came in: a
conjugation adds its log, and an inversion keeps all of it back. -/
def Balances (read : ClbitId → Bool) (f : Frame R) (h : Trail R) (w : Basis → Basis) : Prop :=
  match f.environment, f.phase with
  | .conjugation, .compute => h = (f.log.map fun e => (e.1, true)).reverse
  | .conjugation, .act =>
    runOnBasis read h.balanced = w ∘ runOnBasis read (f.log.map Prod.fst).reverse
  | .inversion, _ => h = [] ∧ runOnBasis read (Trail.balanced f.log.reverse) = w
  | _, _ => runOnBasis read h.balanced = w

theorem balances_iff_of_plain {read : ClbitId → Bool} {f : Frame R} {h : Trail R}
    {w : Basis → Basis} (hc : f.environment ≠ .conjugation) (hi : f.environment ≠ .inversion) :
    f.Balances read h w ↔ runOnBasis read h.balanced = w := by
  unfold Balances
  cases he : f.environment with
  | conjugation => exact absurd he hc
  | inversion => exact absurd he hi
  | _ => rfl

/-- What a frame tells about its trail: `inner` are the qubits of the frames inside it, `fs` the
frames around it, of which the first `k` have trails, and `out` is the circuit. -/
structure Follows (read : ClbitId → Bool) (out : List (Instruction R)) (w : Basis → Basis)
    (inner : QubitId → Prop) (f : Frame R) (fs : List (Frame R)) (k : Nat) (h : Trail R) :
    Prop where
  balances : f.Balances read h w
  permutes : ∀ e ∈ f.log, e.1.Permutes
  unspread : ∀ q, f.superposed.contains q = false
  noted : ∀ e ∈ h, e.2 = false → ∀ q ∈ e.1.movedTargets, f.touched.contains q = true
  layered : ∀ g ∈ fs.take k, ∀ q, inner q ∨ q ∈ f.owned → g.touched.contains q = true →
    f.touched.contains q = true
  recorded : ¬ Inverted fs → f.emitted ≤ out.length ∧
    List.Forall₂ Becomes h (out.drop (out.length - f.emitted))

end Frame

def Followed (read : ClbitId → Bool) (out : List (Instruction R)) :
    (Basis → Basis) → (QubitId → Prop) → List (Frame R) → List (Trail R) → Prop
  | w, inner, f :: fs, h :: hs => f.Follows read out w inner fs hs.length h ∧
    Followed read out (runOnBasis read h.balanced) (fun q => inner q ∨ q ∈ f.owned) fs hs
  | _, _, _, _ => True

variable {read : ClbitId → Bool} {out : List (Instruction R)}

@[simp]
theorem followed_nil (w : Basis → Basis) (inner : QubitId → Prop) (fs : List (Frame R)) :
    Followed read out w inner fs [] := by
  cases fs <;> trivial

theorem Followed.inner {w : Basis → Basis} {inner inner' : QubitId → Prop} {fs : List (Frame R)}
    {hs : List (Trail R)} (h : Followed read out w inner fs hs)
    (hin : ∀ q, inner' q → inner q ∨ ∀ g ∈ fs.take hs.length, g.touched.contains q = false) :
    Followed read out w inner' fs hs := by
  induction fs generalizing w inner inner' hs with
  | nil => trivial
  | cons f fs ih =>
    cases hs with
    | nil => trivial
    | cons t hs =>
      obtain ⟨hf, hrest⟩ := h
      refine ⟨{ hf with layered := ?_ }, ih hrest ?_⟩
      · intro g hg q hq htouched
        rcases hq with hq | hq
        · rcases hin q hq with hq | hq
          · exact hf.layered g hg q (.inl hq) htouched
          · rw [hq g (List.mem_cons_of_mem _ hg)] at htouched
            exact absurd htouched (by decide)
        · exact hf.layered g hg q (.inr hq) htouched
      · intro q hq
        rcases hq with hq | hq
        · rcases hin q hq with hq | hq
          · exact .inl (.inl hq)
          · exact .inr fun g hg => hq g (List.mem_cons_of_mem _ hg)
        · exact .inl (.inr hq)

/-! ## One frame -/

def Instruction.noted (i : Instruction R) : List QubitId :=
  if i.isMeasure then i.qubits else i.movedTargets

theorem Instruction.movedTargets_subset_noted {i : Instruction R} {q : QubitId}
    (hq : q ∈ i.movedTargets) : q ∈ i.noted := by
  unfold noted
  split
  · exact mem_of_mem_movedTargets hq
  · exact hq

def advance (read : ClbitId → Bool) (w : Basis → Basis) (i : Instruction R) (b : Bool) :
    Basis → Basis := if b then i.onBasis read ∘ w else w

theorem runOnBasis_balanced_concat (h : Trail R) (i : Instruction R) (b : Bool) :
    runOnBasis read (Trail.balanced (h ++ [(i, b)])) =
      advance read (runOnBasis read h.balanced) i b := by
  funext σ
  rw [Trail.balanced_append, runOnBasis_append]
  cases b <;> rfl

namespace Frame

theorem note_contains {f : Frame R} {i : Instruction R} {b : Bool} {q : QubitId} :
    (f.note i b).touched.contains q = true ↔
      f.touched.contains q = true ∨ (b = false ∨ i.isMeasure = true) ∧ q ∈ i.noted := by
  unfold note Instruction.noted
  cases hm : i.isMeasure with
  | true => simp [touch, QubitSet.contains_insertAll]
  | false => cases b <;> simp [touch, QubitSet.contains_insertAll]

namespace Passes

variable {f f' : Frame R} {i : Instruction R} {b : Bool} {o : Option (Instruction R × Bool)}

theorem permutes_out {j : Instruction R} {c : Bool} (h : f.Passes i b f' (some (j, c)))
    (hi : i.Permutes) : j.Permutes ∧ j.movedTargets = i.movedTargets := by
  cases h with
  | compute hf hm => exact ⟨hi, rfl⟩
  | act he hp => exact ⟨hi, rfl⟩
  | control he hb hj => exact hi.addControls hj
  | condition he hb hj => exact hi.addCondition hj
  | shield he hb => exact ⟨hi, rfl⟩
  | free he => exact ⟨hi, rfl⟩

theorem noted_out {j : Instruction R} {c : Bool} (h : f.Passes i b f' (some (j, c)))
    (hi : i.Permutes) : j.noted = i.noted := by
  have hmoved := (h.permutes_out hi).2
  unfold Instruction.noted
  rw [h.isMeasure_out, hmoved]
  cases h with
  | control he hb hj => simp [(Instruction.addControls_spec hj).1]
  | condition he hb hj => simp [(Instruction.addCondition_spec hj).1]
  | _ => rfl

theorem unspread (h : f.Passes i b f' o) (hi : i.Permutes)
    (hf : ∀ q, f.superposed.contains q = false) (q : QubitId) :
    f'.superposed.contains q = false := by
  rcases h.keeps_or_marks with ⟨-, -, rfl⟩ | ⟨-, -, rfl⟩ | ⟨-, -, t, rfl⟩
  · simpa [keep, hi.spreadTargets, QubitSet.insertAll] using hf q
  · exact hf q
  · exact hf q

theorem touched_iff {j : Instruction R} {c : Bool} (h : f.Passes i b f' (some (j, c)))
    (hf : ∀ q, f.superposed.contains q = false) (q : QubitId) :
    f'.touched.contains q = true ↔
      f.touched.contains q = true ∨ (c = false ∨ j.isMeasure = true) ∧ q ∈ j.noted := by
  cases h with
  | compute hf hm => simp [keep, hm]
  | act he hp =>
    rw [note_contains]
    cases b with
    | true => simp
    | false => simp [touch, QubitSet.contains_insertAll, hf]
  | control he hb hj => exact note_contains
  | condition he hb hj => exact note_contains
  | shield he hb => exact note_contains
  | free he => exact note_contains

theorem permutes_log (h : f.Passes i b f' o) (hi : i.Permutes) (hf : ∀ e ∈ f.log, e.1.Permutes) :
    ∀ e ∈ f'.log, e.1.Permutes := by
  rcases h.log_eq with hl | ⟨hl, -⟩
  · rw [hl]
    exact hf
  · rw [hl]
    intro e he
    rcases List.mem_cons.1 he with rfl | he
    · exact hi
    · exact hf e he

theorem balances {h : Trail R} {w : Basis → Basis} (hp : f.Passes i b f' o)
    (hf : f.Balances read h w) : f'.Balances read (h ++ o.toList) (advance read w i b) := by
  have hcomp : ∀ (u : Basis → Basis), advance read (w ∘ u) i b = advance read w i b ∘ u := by
    intro u
    cases b <;> rfl
  -- most environments let the balanced part through as it comes in
  have hplain : ∀ j : Instruction R, advance read w j b = advance read w i b →
      f.environment ≠ .conjugation → f.environment ≠ .inversion →
      (f.note j b).Balances read (h ++ [(j, b)]) (advance read w i b) := by
    intro j hj hc hinv
    rw [balances_iff_of_plain hc hinv] at hf
    rw [note_eq]
    refine (balances_iff_of_plain hc hinv).2 ?_
    rw [runOnBasis_balanced_concat, hf, hj]
  cases hp with
  | compute hc hm =>
    obtain ⟨he, hph⟩ := isComputing_iff.1 hc
    simp only [Balances, he, hph, keep] at hf ⊢
    simp [hf]
  | act he hph =>
    have hsame : (if b then f else f.touch (i.qubits.filter f.superposed.contains)).log = f.log ∧
        (if b then f else f.touch (i.qubits.filter f.superposed.contains)).environment =
          .conjugation ∧
        (if b then f else f.touch (i.qubits.filter f.superposed.contains)).phase = .act := by
      cases b <;> exact ⟨rfl, he, hph⟩
    rw [note_eq]
    simp only [Balances, he, hph, hsame.1, hsame.2.1, hsame.2.2, Option.toList_some,
      runOnBasis_balanced_concat] at hf ⊢
    rw [hf, hcomp]
  | @control cs j he hb hj =>
    subst hb
    exact hplain j rfl (by simp [he]) (by simp [he])
  | @condition c j he hb hj =>
    subst hb
    exact hplain j rfl (by simp [he]) (by simp [he])
  | shield he hb =>
    subst hb
    rcases he with ⟨cs, he⟩ | ⟨c, he⟩
    · exact hplain i rfl (by simp [he]) (by simp [he])
    · exact hplain i rfl (by simp [he]) (by simp [he])
  | hold he hm =>
    simp only [Balances, he, keep, Option.toList_none, List.append_nil, List.reverse_cons,
      runOnBasis_balanced_concat] at hf ⊢
    exact ⟨hf.1, by rw [hf.2]⟩
  | free he =>
    rcases he with he | he
    · exact hplain i rfl (by simp [he]) (by simp [he])
    · exact hplain i rfl (by simp [he]) (by simp [he])

end Passes

end Frame

/-! ## The way outwards -/

namespace FrameStack

theorem routeThrough_cons {f : Frame R} {fs : List (Frame R)} {i : Instruction R} {b : Bool}
    {o : Option (Instruction R)} {fs' : List (Frame R)}
    (h : routeThrough (f :: fs) i b = (.ok o, fs')) :
    (∃ f', f.Passes i b f' none ∧ f.pass i b = .ok (f', none) ∧ o = none ∧ fs' = f' :: fs) ∨
    ∃ f' j c gs, f.Passes i b f' (some (j, c)) ∧ f.pass i b = .ok (f', some (j, c)) ∧
      routeThrough fs j c = (.ok o, gs) ∧ fs' = f' :: gs := by
  unfold routeThrough at h
  split at h
  · simp at h
  · next f' hp =>
    simp only [Prod.mk.injEq, Except.ok.injEq] at h
    exact .inl ⟨f', Frame.passes_of_pass hp, hp, h.1.symm, h.2.symm⟩
  · next f' j c hp =>
    simp only [Prod.mk.injEq] at h
    exact .inr ⟨f', j, c, (routeThrough fs j c).2, Frame.passes_of_pass hp, hp,
      Prod.ext h.1 rfl, h.2.symm⟩

theorem routeThrough_becomes {fs fs' : List (Frame R)} {i x : Instruction R} {b : Bool}
    (hi : i.Permutes) (h : routeThrough fs i b = (.ok (some x), fs')) : Becomes (i, b) x := by
  induction fs generalizing i b fs' with
  | nil =>
    simp only [routeThrough, Prod.mk.injEq, Except.ok.injEq, Option.some.injEq] at h
    exact ⟨fun _ => h.1.symm, by rw [h.1]⟩
  | cons f fs ih =>
    rcases routeThrough_cons h with ⟨_, -, -, ho, -⟩ | ⟨f', j, c, gs, hp, -, hrest, -⟩
    · exact absurd ho (by simp)
    · obtain ⟨hj, hmoved⟩ := hp.permutes_out hi
      obtain ⟨hsame, hout⟩ := ih hj hrest
      refine ⟨?_, hout.trans hmoved⟩
      rintro rfl
      obtain ⟨rfl, rfl⟩ := hp.balanced_out
      exact hsame rfl

theorem inverted_of_routeThrough {fs fs' : List (Frame R)} {i : Instruction R} {b : Bool}
    (h : routeThrough fs i b = (.ok none, fs')) : Inverted fs := by
  induction fs generalizing i b fs' with
  | nil => simp [routeThrough] at h
  | cons f fs ih =>
    rw [inverted_cons]
    rcases routeThrough_cons h with ⟨f', hp, -, -, -⟩ | ⟨f', j, c, gs, -, -, hrest, -⟩
    · cases hp with
      | hold he hm => exact .inl he
    · exact .inr (ih hrest)

theorem routeThrough_touched {read : ClbitId → Bool} {out : List (Instruction R)}
    {w : Basis → Basis} {inner : QubitId → Prop} {fs fs' : List (Frame R)} {hs : List (Trail R)}
    (hfs : Followed read out w inner fs hs) {i : Instruction R} {b : Bool} (hi : i.Permutes)
    {o : Option (Instruction R)} (h : routeThrough fs i b = (.ok o, fs')) {g' : Frame R}
    (hg' : g' ∈ fs'.take hs.length) {q : QubitId} (hq : g'.touched.contains q = true) :
    (∃ g ∈ fs.take hs.length, g.touched.contains q = true) ∨
      (b = false ∨ i.isMeasure = true) ∧ q ∈ i.noted := by
  -- outwards, frame by frame; what goes on notes no more than what came in
  induction fs generalizing i b fs' w inner hs with
  | nil =>
    simp only [routeThrough, Prod.mk.injEq] at h
    simp [← h.2] at hg'
  | cons f fs ih =>
    cases hs with
    | nil => simp at hg'
    | cons t hs =>
      obtain ⟨hf, hrest⟩ := hfs
      rcases routeThrough_cons h with ⟨f', hp, -, -, rfl⟩ | ⟨f', j, c, gs, hp, -, hr, rfl⟩
      · left
        rcases List.mem_cons.1 hg' with rfl | hg'
        · refine ⟨f, List.mem_cons_self, ?_⟩
          cases hp with
          | hold he hm => exact hq
        · exact ⟨g', List.mem_cons_of_mem _ hg', hq⟩
      · have hback : (c = false ∨ j.isMeasure = true) ∧ q ∈ j.noted →
            (b = false ∨ i.isMeasure = true) ∧ q ∈ i.noted := by
          rw [hp.noted_out hi, hp.isMeasure_out]
          exact fun hq => ⟨hq.1.imp_left hp.balanced_in, hq.2⟩
        rcases List.mem_cons.1 hg' with rfl | hg'
        · rcases (hp.touched_iff hf.unspread q).1 hq with hq | hq
          · exact .inl ⟨f, List.mem_cons_self, hq⟩
          · exact .inr (hback hq)
        · rcases ih hrest (hp.permutes_out hi).1 hr hg' with ⟨g, hg, hq⟩ | hq
          · exact .inl ⟨g, List.mem_cons_of_mem _ hg, hq⟩
          · exact .inr (hback hq)

end FrameStack

theorem Frame.Passes.emitted {f f' : Frame R} {i : Instruction R} {b : Bool}
    {o : Option (Instruction R × Bool)} (h : f.Passes i b f' o) : f'.emitted = f.emitted := by
  obtain ⟨_, _, _, rfl⟩ := h.shape
  rfl

def Frame.count (o : Option (Instruction R)) (f : Frame R) : Frame R :=
  { f with emitted := f.emitted + o.toList.length }

theorem map_count_none (fs : List (Frame R)) : fs.map (Frame.count none) = fs :=
  List.map_id fs

theorem inverted_count (o : Option (Instruction R)) (fs : List (Frame R)) :
    Inverted (fs.map (Frame.count o)) ↔ Inverted fs := inverted_map (Frame.count o) fun _ => rfl

theorem forall₂_becomes_concat {h : Trail R} {e : Instruction R × Bool} {x : Instruction R}
    {n : Nat} (hn : n ≤ out.length) (h₁ : List.Forall₂ Becomes h (out.drop (out.length - n)))
    (hx : Becomes e x) :
    n + 1 ≤ (out ++ [x]).length ∧
      List.Forall₂ Becomes (h ++ [e]) ((out ++ [x]).drop ((out ++ [x]).length - (n + 1))) := by
  have hlen : (out ++ [x]).length - (n + 1) = out.length - n := by
    rw [List.length_append, List.length_singleton]
    omega
  rw [hlen, List.drop_append_of_le_length (Nat.sub_le _ _), List.length_append]
  exact ⟨by simpa using hn, List.rel_append h₁ (.cons hx .nil)⟩

namespace Frame.Follows

variable {w u : Basis → Basis} {inner : QubitId → Prop} {f f' : Frame R} {fs : List (Frame R)}
  {i : Instruction R} {b : Bool} {t : Trail R}

theorem held {k : Nat} (hf : f.Follows read out w inner fs k t) (hp : f.Passes i b f' none)
    (hi : i.Permutes) : f'.Follows read out (advance read w i b) inner fs k t := by
  have hbalances := hp.balances hf.balances
  have htouched : f'.touched = f.touched := by
    cases hp with
    | hold he hm => rfl
  refine ⟨by simpa using hbalances, hp.permutes_log hi hf.permutes, hp.unspread hi hf.unspread,
    ?_, ?_, ?_⟩
  · rw [htouched]
    exact hf.noted
  · rw [hp.kin.owned, htouched]
    exact hf.layered
  · rw [hp.emitted]
    exact hf.recorded

theorem passed {hs : List (Trail R)} {j : Instruction R} {c : Bool} {o : Option (Instruction R)}
    {gs : List (Frame R)} (hf : f.Follows read out w inner fs hs.length t)
    (hrest : Followed read out u (fun q => inner q ∨ q ∈ f.owned) fs hs)
    (hp : f.Passes i b f' (some (j, c))) (hi : i.Permutes)
    (hroute : FrameStack.routeThrough fs j c = (.ok o, gs)) :
    (f'.count o).Follows read (out ++ o.toList) (advance read w i b) inner (gs.map (count o))
      hs.length (t ++ [(j, c)]) := by
  obtain ⟨hj, -⟩ := hp.permutes_out hi
  refine ⟨hp.balances hf.balances, hp.permutes_log hi hf.permutes, hp.unspread hi hf.unspread,
    ?_, ?_, ?_⟩
  · intro e he hb q hq
    refine (hp.touched_iff hf.unspread q).2 ?_
    rcases List.mem_append.1 he with he | he
    · exact .inl (hf.noted e he hb q hq)
    · obtain rfl := List.mem_singleton.1 he
      exact .inr ⟨.inl hb, Instruction.movedTargets_subset_noted hq⟩
  · intro g hg q hq htouched
    rw [← List.map_take] at hg
    obtain ⟨g', hg', rfl⟩ := List.mem_map.1 hg
    refine (hp.touched_iff hf.unspread q).2 ?_
    have hq' : inner q ∨ q ∈ f.owned := by
      rw [← hp.kin.owned]
      exact hq
    -- a mark of a frame around is older, or the instruction has made it on its way here, too
    rcases FrameStack.routeThrough_touched hrest hj hroute hg' htouched with
      ⟨g, hg, htouched⟩ | hnew
    · exact .inl (hf.layered g hg q hq' htouched)
    · exact .inr hnew
  · intro hinv
    have hkin := FrameStack.routeThrough_kin fs j c
    rw [hroute] at hkin
    rw [inverted_count, inverted_of_kin hkin] at hinv
    cases o with
    | none => exact absurd (FrameStack.inverted_of_routeThrough hroute) hinv
    | some x =>
      obtain ⟨hn, hseg⟩ := hf.recorded hinv
      have hcount : (count (some x) f').emitted = f.emitted + 1 := congrArg (· + 1) hp.emitted
      rw [hcount]
      exact forall₂_becomes_concat hn hseg (FrameStack.routeThrough_becomes hj hroute)

end Frame.Follows

theorem Followed.routed {w : Basis → Basis} {inner : QubitId → Prop} {fs fs' : List (Frame R)}
    {hs : List (Trail R)} (h : Followed read out w inner fs hs) {i : Instruction R} {b : Bool}
    (hi : i.Permutes) {o : Option (Instruction R)}
    (hr : FrameStack.routeThrough fs i b = (.ok o, fs')) :
    Followed read (out ++ o.toList) (advance read w i b) inner (fs'.map (Frame.count o))
      (trailThrough fs hs i b) := by
  -- outwards, frame by frame: an inversion holds the instruction, all others pass it on
  induction fs generalizing w inner hs i b fs' with
  | nil =>
    simp only [FrameStack.routeThrough, Prod.mk.injEq] at hr
    simp [← hr.2, trailThrough, Followed]
  | cons f fs ih =>
    cases hs with
    | nil =>
      rw [show trailThrough (f :: fs) [] i b = [] from rfl]
      exact followed_nil _ _ _
    | cons t hs =>
      obtain ⟨hf, hrest⟩ := h
      rcases FrameStack.routeThrough_cons hr with
        ⟨f', hp, hpass, rfl, rfl⟩ | ⟨f', j, c, gs, hp, hpass, hroute, rfl⟩
      · have htrail : trailThrough (f :: fs) (t :: hs) i b = t :: hs := by
          simp [trailThrough, hpass]
        rw [htrail, map_count_none, Option.toList_none, List.append_nil]
        refine ⟨hf.held hp hi, ?_⟩
        rw [hp.kin.owned]
        exact hrest
      · have htrail : trailThrough (f :: fs) (t :: hs) i b =
            (t ++ [(j, c)]) :: trailThrough fs hs j c := by
          simp [trailThrough, hpass]
        have hown : (Frame.count o f').owned = f.owned := hp.kin.owned
        rw [htrail, List.map_cons]
        refine ⟨?_, ?_⟩
        · rw [length_trailThrough]
          exact hf.passed hrest hp hi hroute
        · rw [runOnBasis_balanced_concat, hown]
          exact ih hrest (hp.permutes_out hi).1 hroute

end Ancilla
