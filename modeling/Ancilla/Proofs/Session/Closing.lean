import Ancilla.Proofs.Session.Sound

/-!
The closing and dropping of environments, and with them the partition of the qubits in use among
the open frames in every session that can be reached.
-/

namespace Ancilla

variable {R : Type}

theorem FrameStack.cut?_toList {id : FrameId} {f : Frame R} {fs dropped : List (Frame R)}
    {s : FrameStack R} (h : cut? id f fs = some (dropped, s)) : f :: fs = dropped ++ s.toList := by
  induction fs generalizing f dropped with
  | nil => simp [cut?] at h
  | cons g rest ih =>
    unfold cut? at h
    split at h
    · simp only [Option.some.injEq, Prod.mk.injEq] at h
      obtain ⟨rfl, rfl⟩ := h
      rfl
    · obtain ⟨⟨ds, t⟩, hcut, heq⟩ := Option.map_eq_some_iff.1 h
      simp only [Prod.mk.injEq] at heq
      obtain ⟨rfl, rfl⟩ := heq
      rw [List.cons_append, ← ih hcut]

theorem Ownership.popAll {live : QubitId → Bool} {limbo : List QubitId} {fs gs : List (Frame R)}
    (h : Ownership live limbo (fs ++ gs)) : Ownership live (limbo ++ ownedBy fs) gs := by
  induction fs generalizing limbo with
  | nil =>
    rw [ownedBy_nil, List.append_nil]
    exact h
  | cons f fs ih =>
    have := ih h.pop
    rwa [List.append_assoc] at this

def Call.IsFraming : Call R → Prop
  | exportQubits _ | assertRestored _ | enter _ _ | beginAction => True
  | _ => False

theorem Call.IsFraming.keeps [Scalar R] {c : Call R} (hc : c.IsFraming) (s : Session R) :
    (c.perform s).2.allocator = s.allocator ∧ (c.perform s).2.circuit = s.circuit := by
  have refused {α : Type} {answer : Answer R α} (h : s.Refuses answer) :
      answer.2.allocator = s.allocator ∧ answer.2.circuit = s.circuit := by
    rw [h.snd]
    exact ⟨rfl, rfl⟩
  cases c with
  | exportQubits qs =>
    rcases s.exportQubits_cases qs with hno | ⟨-, hcall⟩
    · exact refused hno
    · rw [Call.perform, hcall]
      exact ⟨rfl, rfl⟩
  | assertRestored qs =>
    rcases s.assertRestored_cases qs with hno | hcall
    · exact refused hno
    · rw [Call.perform, hcall]
      exact ⟨rfl, rfl⟩
  | enter environment label =>
    rcases s.enter_cases environment label with hno | ⟨-, hcall⟩
    · exact refused (hno.map fun _ => ())
    · rw [Call.perform, hcall]
      exact ⟨rfl, rfl⟩
  | beginAction =>
    rcases s.beginAction_cases with hno | ⟨-, hcall⟩
    · exact refused hno
    · rw [Call.perform, hcall]
      exact ⟨rfl, rfl⟩
  | _ => exact hc.elim

namespace Session

variable {s : Session R}

def popped (s : Session R) (parent : Frame R) (rest : List (Frame R)) : Session R :=
  { s with frames := ⟨parent, rest⟩ }

theorem Sound.popped {parent : Frame R} {rest : List (Frame R)} (h : Sound [] s)
    (hb : s.frames.below = parent :: rest) :
    Sound s.frames.top.owned (s.popped parent rest) ∧
      s.frames.top.Sheltered (s.popped parent rest).frames.toList := by
  have howned := h.owned
  rw [FrameStack.toList, hb] at howned
  exact ⟨⟨h.allocator, howned.pop⟩, howned.nested.1⟩

theorem Sound.forceReclaimTop {s₁ : Session R} {f : Frame R} (h : Sound f.owned s₁) :
    (s₁.reclaim (f.owned.filter s₁.allocator.isLive)).1 = .ok () ∧
      Sound [] (s₁.forceReclaim f) := by
  rw [← List.append_nil f.owned] at h
  exact h.forceReclaim

theorem Sound.toReclaim_ok {s₁ : Session R} {f : Frame R} (h : Sound f.owned s₁) :
    (s₁.reclaim f.toReclaim).1 = .ok () :=
  h.reclaim_ok ((List.nodup_append'.1 h.owned.nodup).1.filter _) fun _ hq =>
    (Frame.mem_toReclaim.1 hq).1

theorem Sound.foldl_forceReclaim {fs gs : List (Frame R)} (h : Sound (ownedBy (fs ++ gs)) s) :
    Sound (ownedBy gs) (fs.foldl Session.forceReclaim s) := by
  induction fs generalizing s with
  | nil => exact h
  | cons f fs ih => exact ih h.forceReclaim.2

theorem Sound.dropped {id : FrameId} {fs : List (Frame R)} {frames : FrameStack R}
    (h : Sound [] s) (hcut : FrameStack.cut? id s.frames.top s.frames.below = some (fs, frames)) :
    Sound (ownedBy fs) { s with frames } := by
  have howned := h.owned
  rw [FrameStack.toList, FrameStack.cut?_toList hcut] at howned
  exact ⟨h.allocator, howned.popAll⟩

theorem Sound.abort (h : Sound [] s) (id : FrameId) : Sound [] (s.abort id) := by
  rcases s.abort_cases id with hcall | ⟨fs, frames, hcut, hcall⟩
  · rw [hcall]
    exact h
  · have hfs := h.dropped hcut
    rw [← List.append_nil fs] at hfs
    rw [hcall]
    exact hfs.foldl_forceReclaim

theorem Sound.unmarked (h : Sound [] s) {q : QubitId} (hq : s.allocator.isLive q = false)
    {f : Frame R} (hf : f ∈ s.frames.toList) :
    f.touched.contains q = false ∧ f.superposed.contains q = false := by
  have htidy := h.owned.tidy f hf
  constructor
  · by_contra hmark
    have := htidy.touched q (by simpa using hmark)
    simp [hq] at this
  · by_contra hmark
    have hown := htidy.superposed q (by simpa using hmark)
    have := h.owned.live_of_owned (mem_ownedBy.2 ⟨f, hf, hown⟩)
    simp [hq] at this

theorem allocate_ok {count : Nat} {name : String} {qs : List QubitId} {s' : Session R}
    (h : s.allocate count name = (.ok qs, s')) :
    s'.frames = s.frames.modifyTop (fun f => f.own qs) ∧
      ∃ a, s.allocator.allocate count = (.ok qs, a) ∧ s'.allocator = a := by
  obtain ⟨a, ha, rfl⟩ := granted_of_allocate h
  exact ⟨rfl, a, ha, rfl⟩

theorem allocate_error {count : Nat} {name : String} {e : SessionError} {s' : Session R}
    (h : s.allocate count name = (.error e, s')) : s' = s := by
  rcases s.allocate_cases count name with hno | ⟨qs, a, -, -, -, hcall⟩
  · rw [← hno.snd, h]
  · exact nomatch (Prod.mk.inj (hcall.symm.trans h)).1

variable [Scalar R]

theorem exit_of_top {parent : Frame R} {rest : List (Frame R)} (hp : s.isPoisoned = false)
    (hb : s.frames.below = parent :: rest) : s.exit s.frames.top.id =
      match (s.popped parent rest).replay s.frames.top with
      | (.error e, s₁) => (.error e, s₁.forceReclaim s.frames.top)
      | (.ok (), s₁) =>
        match s.frames.top.leaked with
        | [] =>
          match s₁.reclaim s.frames.top.toReclaim with
          | (.error e, s₂) => (.error e, s₂)
          | (.ok (), s₂) => (.ok (), { s₂ with
            frames := s₂.frames.modifyTop fun f => f.own s.frames.top.exported })
        | leaked => (.error (.uncomputation s.frames.top.label leaked),
          s₁.forceReclaim s.frames.top) := by
  unfold Session.exit
  rw [if_neg (by simp [hp]), hb]
  exact if_neg fun hne => hne rfl

inductive Exits (s : Session R) (id : FrameId) : Answer R Unit → Prop
  | refused (e : SessionError) : Exits s id (.error e, s)
  | violated (e : SessionError) : Exits s id (.error e, { s with isPoisoned := true })
  | stuck {parent : Frame R} {rest : List (Frame R)} {e : SessionError} {s₁ : Session R}
    (hb : s.frames.below = parent :: rest)
    (hr : (s.popped parent rest).replay s.frames.top = (.error e, s₁)) :
    Exits s id (.error e, s₁.forceReclaim s.frames.top)
  | leaky {parent : Frame R} {rest : List (Frame R)} {e : SessionError} {s₁ : Session R}
    (hb : s.frames.below = parent :: rest)
    (hr : (s.popped parent rest).replay s.frames.top = (.ok (), s₁)) :
    Exits s id (.error e, s₁.forceReclaim s.frames.top)
  | refusedBack {parent : Frame R} {rest : List (Frame R)} {e : SessionError} {s₁ : Session R}
    (hb : s.frames.below = parent :: rest)
    (hr : (s.popped parent rest).replay s.frames.top = (.ok (), s₁))
    (hback : (s₁.reclaim s.frames.top.toReclaim).1 = .error e) :
    Exits s id (.error e, (s₁.reclaim s.frames.top.toReclaim).2)
  | closed {parent : Frame R} {rest : List (Frame R)} {s₁ s₂ : Session R}
    (hp : s.isPoisoned = false) (hb : s.frames.below = parent :: rest) (hid : s.frames.top.id = id)
    (hr : (s.popped parent rest).replay s.frames.top = (.ok (), s₁))
    (hl : s.frames.top.leaked = []) (hback : s₁.reclaim s.frames.top.toReclaim = (.ok (), s₂)) :
    Exits s id (.ok (), { s₂ with
      frames := s₂.frames.modifyTop fun f => f.own s.frames.top.exported })

theorem exits (s : Session R) (id : FrameId) : Exits s id (s.exit id) := by
  cases hp : s.isPoisoned with
  | true =>
    rw [exit_of_poisoned hp]
    exact .refused _
  | false =>
    rcases hb : s.frames.below with _ | ⟨parent, rest⟩
    · rw [exit_of_root hp hb]
      exact .refused _
    by_cases hid : s.frames.top.id = id
    · subst hid
      rw [exit_of_top hp hb]
      split
      · next hr => exact .stuck hb hr
      · next s₁ hr =>
        split
        · next hl =>
          split
          · next e s₂ hback =>
            have hend : Exits s s.frames.top.id (.error e, (s₁.reclaim s.frames.top.toReclaim).2) :=
              .refusedBack hb hr (by rw [hback])
            rwa [hback] at hend
          · next s₂ hback => exact .closed hp hb rfl hr hl hback
        · exact .leaky hb hr
    · rw [exit_of_ne hp hb hid]
      exact .violated _

theorem Sound.replayed {parent : Frame R} {rest : List (Frame R)} {r : Except SessionError Unit}
    {s₁ : Session R} (h : Sound [] s) (hb : s.frames.below = parent :: rest)
    (hr : (s.popped parent rest).replay s.frames.top = (r, s₁)) :
    Sound s.frames.top.owned s₁ := by
  obtain ⟨hpop, hshelter⟩ := h.popped hb
  have := hpop.replay hshelter
  rwa [hr] at this

theorem Sound.replayed_isLive {parent : Frame R} {rest : List (Frame R)}
    {r : Except SessionError Unit} {s₁ : Session R} (h : Sound [] s)
    (hb : s.frames.below = parent :: rest)
    (hr : (s.popped parent rest).replay s.frames.top = (r, s₁)) (q : QubitId) :
    s₁.allocator.isLive q = s.allocator.isLive q := by
  have hkin := replay_kin (s.popped parent rest) s.frames.top
  rw [hr] at hkin
  rw [Bool.eq_iff_iff, (h.replayed hb hr).owned.live_iff, h.owned.live_iff, ownedBy_of_kin hkin,
    or_iff_right List.not_mem_nil, FrameStack.toList, FrameStack.toList, hb,
    ownedBy_cons s.frames.top, List.mem_append]
  rfl

theorem Sound.exit (h : Sound [] s) (id : FrameId) : Sound [] (s.exit id).2 := by
  have hexits := exits s id
  generalize s.exit id = answer at hexits
  cases hexits with
  | refused e => exact h
  | violated e => exact ⟨h.allocator, h.owned⟩
  | stuck hb hr => exact (h.replayed hb hr).forceReclaimTop.2
  | leaky hb hr => exact (h.replayed hb hr).forceReclaimTop.2
  | refusedBack hb hr hback =>
    rw [(h.replayed hb hr).toReclaim_ok] at hback
    exact absurd hback (by simp)
  | closed hp hb hid hr hl hback =>
    next parent rest s₁ s₂ =>
    have hlimbo := h.replayed hb hr
    have htop := h.owned.tidy s.frames.top List.mem_cons_self
    have hnext := hlimbo.reclaim
      (fun q (hq : q ∈ s.frames.top.toReclaim) =>
        .inl (hlimbo.owned.disjoint (Frame.mem_toReclaim.1 hq).1)) (by rw [hback])
    rw [hback] at hnext
    refine ⟨hnext.allocator, hnext.owned.own ?_ ?_ ?_⟩
    · exact htop.ascending.imp fun hlt => Nat.ne_of_lt hlt
    · intro q
      simp only [List.mem_filter, List.contains_eq_mem, Bool.not_eq_true', decide_eq_false_iff_not,
        Frame.mem_toReclaim, not_and, not_not]
      exact ⟨fun hq => hq.2 hq.1, fun hq => ⟨htop.exported q hq, fun _ => hq⟩⟩
    · intro hinv
      -- inside an inversion the closing frame owns nothing, so it exports nothing
      have hkin := replay_kin (s.popped parent rest) s.frames.top
      rw [hr] at hkin
      have houter : Inverted (parent :: rest) := by
        rw [← FrameStack.toList, reclaim_frames hback, FrameStack.toList_map,
          inverted_map (fun f => f.forget s.frames.top.toReclaim) fun _ => rfl] at hinv
        exact (inverted_of_kin hkin).1 hinv
      have howned := (h.popped hb).2.owned (inverted_cons.2 (.inr houter))
      rw [List.eq_nil_iff_forall_not_mem]
      intro q hq
      have := htop.exported q hq
      rw [howned] at this
      exact absurd this List.not_mem_nil

theorem Sound.perform (h : Sound [] s) (c : Call R) : Sound [] (c.perform s).2 := by
  cases c with
  | allocate count name => exact h.allocate count name
  | release qs => exact h.release qs
  | exportQubits qs => exact h.exportQubits qs
  | assertRestored qs => exact h.assertRestored qs
  | apply g qs => exact h.emit _
  | barrier qs => exact h.emit _
  | measure q => exact h.measure q
  | enter environment label => exact h.enter environment label
  | beginAction => exact h.beginAction
  | exit id => exact h.exit id
  | abort id => exact h.abort id

theorem Reachable.sound (h : s.Reachable) : Sound [] s :=
  h.invariant sound_new fun _ c hs => hs.perform c

/-- The open frames partition the qubits in use: no frame owns a qubit twice or one of another
frame, together they own exactly those in use, each exports and marks as ancillae only its own,
and none remembers a qubit that is out of use. So fresh qubits carry no marks, and what a closed
or dropped frame returns is never refused. -/
structure Partitioned (s : Session R) : Prop where
  nodup : ∀ f ∈ s.frames.toList, f.owned.Nodup
  disjoint : s.frames.toList.Pairwise fun f g => f.owned.Disjoint g.owned
  live_iff : ∀ q, s.allocator.isLive q = true ↔ ∃ f ∈ s.frames.toList, q ∈ f.owned
  exported : ∀ f ∈ s.frames.toList, ∀ q ∈ f.exported, q ∈ f.owned
  ancillae : ∀ f ∈ s.frames.toList, ∀ q, f.computeAncillae.contains q = true → q ∈ f.owned
  touched : ∀ f ∈ s.frames.toList, ∀ q, f.touched.contains q = true → s.allocator.isLive q = true
  superposed : ∀ f ∈ s.frames.toList, ∀ q, f.superposed.contains q = true →
    s.allocator.isLive q = true
  fresh : ∀ count name qs s', s.allocate count name = (.ok qs, s') → ∀ q ∈ qs,
    ∀ f ∈ s'.frames.toList, f.touched.contains q = false ∧ f.superposed.contains q = false
  exit_returns : ∀ parent rest r s₁, s.frames.below = parent :: rest →
    { s with frames := ⟨parent, rest⟩ }.replay s.frames.top = (r, s₁) →
      (s₁.reclaim s.frames.top.toReclaim).1 = .ok () ∧
        (s₁.reclaim (s.frames.top.owned.filter s₁.allocator.isLive)).1 = .ok ()
  abort_returns : ∀ id fs f gs frames,
    FrameStack.cut? id s.frames.top s.frames.below = some (fs ++ f :: gs, frames) →
      ∀ s₁, s₁ = fs.foldl forceReclaim { s with frames } →
        (s₁.reclaim (f.owned.filter s₁.allocator.isLive)).1 = .ok ()

theorem Reachable.partitioned {s : Session R} (h : s.Reachable) : s.Partitioned := by
  have hs := h.sound
  obtain ⟨hnodup, hdisjoint⟩ := List.nodup_flatMap.1 hs.owned.nodup
  refine ⟨hnodup, hdisjoint, ?_, fun f hf => (hs.owned.tidy f hf).exported,
    fun f hf => (hs.owned.tidy f hf).ancillae, fun f hf => (hs.owned.tidy f hf).touched, ?_, ?_,
    ?_, ?_⟩
  · intro q
    rw [hs.owned.live_iff, or_iff_right List.not_mem_nil, mem_ownedBy]
  · intro f hf q hq
    exact hs.owned.live_of_owned (mem_ownedBy.2 ⟨f, hf, (hs.owned.tidy f hf).superposed q hq⟩)
  · intro count name qs s' hok q hq f hf
    obtain ⟨hframes, a, ha, -⟩ := allocate_ok hok
    have hdead := (Allocator.allocate_spec hs.allocator ha).2.1 q hq
    rw [hframes] at hf
    rcases List.mem_cons.1 hf with rfl | hf
    · have hclean := hs.unmarked hdead (f := s.frames.top) List.mem_cons_self
      exact hclean
    · exact hs.unmarked hdead (List.mem_cons_of_mem _ hf)
  · intro parent rest r s₁ hb hr
    have hlimbo := hs.replayed hb hr
    exact ⟨hlimbo.toReclaim_ok, hlimbo.forceReclaimTop.1⟩
  · rintro id fs f gs frames hcut s₁ rfl
    exact (hs.dropped hcut).foldl_forceReclaim.forceReclaim.1

theorem Reachable.partitioned_after_leak :
    ∃ s : Session Float, s = (Session.new {}).after [.allocate 1 "a", .enter .scope "l",
      .allocate 2 "b", .apply (.ofStandard .x) [1], .exportQubits [2], .exit 1,
      .enter .inversion "i", .exit 0] ∧
      s.allocator.liveQubits = [0] ∧ s.isPoisoned = true ∧ s.Partitioned := by
  exact ⟨_, rfl, by decide +kernel, by decide +kernel,
    Reachable.partitioned ((Reachable.new {}).after _)⟩

end Session

end Ancilla
