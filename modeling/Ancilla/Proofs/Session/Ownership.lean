import Ancilla.Proofs.Allocator
import Ancilla.Proofs.Session.Calls
import Ancilla.Proofs.Session.Passing
import Mathlib.Data.List.Nodup
import Mathlib.Data.List.Forall2

/-!
Who owns which qubit. In every session that can be reached, each qubit in use belongs to exactly
one open frame, and no frame remembers a qubit that is not in use. While a frame is being closed
its qubits belong to no frame; the statements carry them along as being in limbo.
-/

namespace Ancilla

variable {R : Type}

def ownedBy (fs : List (Frame R)) : List QubitId := fs.flatMap Frame.owned

def Inverted (fs : List (Frame R)) : Prop := ∃ f ∈ fs, f.environment = .inversion

@[simp]
theorem ownedBy_nil : ownedBy ([] : List (Frame R)) = [] := rfl

@[simp]
theorem ownedBy_cons (f : Frame R) (fs : List (Frame R)) :
    ownedBy (f :: fs) = f.owned ++ ownedBy fs := rfl

theorem inverted_cons {f : Frame R} {fs : List (Frame R)} :
    Inverted (f :: fs) ↔ f.environment = .inversion ∨ Inverted fs := by
  simp [Inverted]

theorem inverted_congr {fs fs' : List (Frame R)}
    (h : fs'.map Frame.environment = fs.map Frame.environment) : Inverted fs' ↔ Inverted fs := by
  have hmem : ∀ gs : List (Frame R), Inverted gs ↔ .inversion ∈ gs.map Frame.environment :=
    fun gs => List.mem_map.symm
  rw [hmem, hmem, h]

namespace Frame

/-- Two states of one frame: emission may only have marked qubits and kept more. -/
def Kin (f f' : Frame R) : Prop :=
  ∃ t u l n, f' = { f with touched := t, superposed := u, log := l ++ f.log, emitted := n }

theorem Kin.refl (f : Frame R) : f.Kin f := ⟨_, _, [], _, rfl⟩

theorem Kin.trans {f g h : Frame R} (hfg : f.Kin g) (hgh : g.Kin h) : f.Kin h := by
  obtain ⟨_, _, l, _, rfl⟩ := hfg
  obtain ⟨t, u, l', n, rfl⟩ := hgh
  exact ⟨t, u, l' ++ l, n, by rw [List.append_assoc]⟩

theorem Kin.owned {f f' : Frame R} (h : f.Kin f') : f'.owned = f.owned := by
  obtain ⟨_, _, _, _, rfl⟩ := h
  rfl

theorem Kin.environment {f f' : Frame R} (h : f.Kin f') : f'.environment = f.environment := by
  obtain ⟨_, _, _, _, rfl⟩ := h
  rfl

theorem Kin.id {f f' : Frame R} (h : f.Kin f') : f'.id = f.id := by
  obtain ⟨_, _, _, _, rfl⟩ := h
  rfl

theorem Kin.phase {f f' : Frame R} (h : f.Kin f') : f'.phase = f.phase := by
  obtain ⟨_, _, _, _, rfl⟩ := h
  rfl

theorem Passes.kin {f f' : Frame R} {i : Instruction R} {b : Bool}
    {o : Option (Instruction R × Bool)} (h : f.Passes i b f' o) : f.Kin f' := by
  obtain ⟨t, u, l, rfl⟩ := h.shape
  rcases h.log_eq with hl | ⟨hl, -⟩
  · exact ⟨t, u, [], _, by rw [List.nil_append, ← hl]⟩
  · exact ⟨t, u, [(i, b)], _, by rw [List.singleton_append, ← hl]⟩

theorem Passes.references {f f' : Frame R} {i : Instruction R} {b : Bool}
    {o : Option (Instruction R × Bool)} (h : f.Passes i b f' o) {q : QubitId}
    (hq : f'.references q = true) : f.references q = true ∨ q ∈ i.qubits := by
  have he : f'.environment = f.environment := h.kin.environment
  unfold Frame.references at hq ⊢
  rw [he] at hq
  rcases h.log_eq with hl | ⟨hl, -, henv⟩
  · rw [hl] at hq
    exact .inl hq
  · rw [hl] at hq
    rcases henv with henv | henv <;>
      · simp only [henv, List.any_cons, Bool.or_eq_true, List.contains_eq_mem,
          decide_eq_true_eq] at hq ⊢
        exact hq.symm

/-- What a frame remembers of qubits: its exports, ancillae and superposed qubits are its own, and
the touched ones are in use. -/
structure Tidy (live : QubitId → Bool) (f : Frame R) : Prop where
  ascending : f.exported.Pairwise (· < ·)
  exported : ∀ q ∈ f.exported, q ∈ f.owned
  ancillae : ∀ q, f.computeAncillae.contains q = true → q ∈ f.owned
  superposed : ∀ q, f.superposed.contains q = true → q ∈ f.owned
  touched : ∀ q, f.touched.contains q = true → live q = true

/-- What a frame needs from the frames around it: its controls are theirs, and inside an inversion,
where nothing is allocated, so is all it keeps. -/
structure Sheltered (f : Frame R) (fs : List (Frame R)) : Prop where
  controls : ∀ cs, f.environment = .controlled cs → ∀ q ∈ cs, q ∈ ownedBy fs
  owned : Inverted (f :: fs) → f.owned = []
  kept : Inverted (f :: fs) → ∀ q, f.references q = true → q ∈ ownedBy fs

end Frame

def Nested : List (Frame R) → Prop
  | [] => True
  | f :: fs => f.Sheltered fs ∧ Nested fs

/-- The qubits in use are those in limbo and those of the frames, each once. -/
structure Ownership (live : QubitId → Bool) (limbo : List QubitId) (fs : List (Frame R)) :
    Prop where
  nodup : (limbo ++ ownedBy fs).Nodup
  live_iff : ∀ q, live q = true ↔ q ∈ limbo ∨ q ∈ ownedBy fs
  tidy : ∀ f ∈ fs, f.Tidy live
  nested : Nested fs

/-! ## Lists related item by item -/

section Related

variable {α β : Type} {r : α → β → Prop} {as : List α} {bs : List β}

theorem exists_of_mem_right (h : List.Forall₂ r as bs) {b : β} (hb : b ∈ bs) :
    ∃ a ∈ as, r a b := by
  induction h with
  | nil => exact absurd hb List.not_mem_nil
  | cons hr _ ih =>
    rcases List.mem_cons.1 hb with rfl | hb
    · exact ⟨_, List.mem_cons_self, hr⟩
    · obtain ⟨a, ha, hr⟩ := ih hb
      exact ⟨a, List.mem_cons_of_mem _ ha, hr⟩

theorem exists_of_mem_left (h : List.Forall₂ r as bs) {a : α} (ha : a ∈ as) : ∃ b ∈ bs, r a b :=
  exists_of_mem_right h.flip ha

theorem forall₂_trans {r : α → α → Prop} {as bs cs : List α} (h : List.Forall₂ r as bs)
    (h' : List.Forall₂ r bs cs) (hr : ∀ {a b c}, r a b → r b c → r a c) :
    List.Forall₂ r as cs := by
  induction h generalizing cs with
  | nil => exact h'
  | cons hab _ ih =>
    cases h' with
    | cons hbc hrest => exact .cons (hr hab hbc) (ih hrest)

theorem forall₂_map {g : α → β} (hg : ∀ a, r a (g a)) (as : List α) :
    List.Forall₂ r as (as.map g) := by
  rw [List.forall₂_map_right_iff]
  exact List.forall₂_same.2 fun a _ => hg a

theorem map_eq_of_forall₂ {r : α → α → Prop} {g : α → β} {as bs : List α}
    (h : List.Forall₂ r as bs) (hr : ∀ {a b}, r a b → g b = g a) : bs.map g = as.map g := by
  induction h with
  | nil => rfl
  | cons hab _ ih => rw [List.map_cons, List.map_cons, hr hab, ih]

end Related

/-! ## Kin frames -/

theorem ownedBy_of_kin {fs fs' : List (Frame R)} (h : List.Forall₂ Frame.Kin fs fs') :
    ownedBy fs' = ownedBy fs := by
  induction h with
  | nil => rfl
  | cons hf _ ih => rw [ownedBy_cons, ownedBy_cons, hf.owned, ih]

theorem environments_of_kin {fs fs' : List (Frame R)} (h : List.Forall₂ Frame.Kin fs fs') :
    fs'.map Frame.environment = fs.map Frame.environment :=
  map_eq_of_forall₂ h Frame.Kin.environment

theorem inverted_of_kin {fs fs' : List (Frame R)} (h : List.Forall₂ Frame.Kin fs fs') :
    Inverted fs' ↔ Inverted fs :=
  inverted_congr (environments_of_kin h)

theorem kin_refl (fs : List (Frame R)) : List.Forall₂ Frame.Kin fs fs :=
  List.forall₂_same.2 fun f _ => Frame.Kin.refl f

theorem kin_trans {fs gs hs : List (Frame R)} (h : List.Forall₂ Frame.Kin fs gs)
    (h' : List.Forall₂ Frame.Kin gs hs) : List.Forall₂ Frame.Kin fs hs :=
  forall₂_trans h h' Frame.Kin.trans

theorem Nested.controls_live {fs : List (Frame R)} (h : Nested fs) {f : Frame R} (hf : f ∈ fs)
    {cs : List QubitId} (he : f.environment = .controlled cs) {q : QubitId} (hq : q ∈ cs) :
    q ∈ ownedBy fs := by
  induction fs with
  | nil => exact absurd hf List.not_mem_nil
  | cons g fs ih =>
    rw [ownedBy_cons, List.mem_append]
    rcases List.mem_cons.1 hf with rfl | hf
    · exact .inr (h.1.controls cs he q hq)
    · exact .inr (ih h.2 hf)

/-! ## Emission -/

namespace Frame

theorem Passes.sheltered {f f' : Frame R} {i : Instruction R} {b : Bool}
    {o : Option (Instruction R × Bool)} (hp : f.Passes i b f' o) {fs fs' : List (Frame R)}
    (hf : f.Sheltered fs) (hk : List.Forall₂ Kin fs fs')
    (hi : Inverted (f :: fs) → ∀ q ∈ i.qubits, q ∈ ownedBy fs) : f'.Sheltered fs' := by
  have hown := ownedBy_of_kin hk
  have hinv : Inverted (f' :: fs') ↔ Inverted (f :: fs) := inverted_of_kin (.cons hp.kin hk)
  constructor
  · intro cs he
    rw [hown]
    exact hf.controls cs (hp.kin.environment ▸ he)
  · intro h'
    rw [hp.kin.owned]
    exact hf.owned (hinv.1 h')
  · intro h' q hq
    rw [hown]
    rcases hp.references hq with hq | hq
    · exact hf.kept (hinv.1 h') q hq
    · exact hi (hinv.1 h') q hq

theorem Passes.tidy {live : QubitId → Bool} {f f' : Frame R} {i : Instruction R} {b : Bool}
    {o : Option (Instruction R × Bool)} (hp : f.Passes i b f' o) (hf : f.Tidy live)
    (hown : ∀ q ∈ f.owned, live q = true)
    (hcs : ∀ cs, f.environment = .controlled cs → ∀ q ∈ cs, live q = true)
    (hi : b = true ∧ i.isMeasure = false ∨ ∀ q ∈ i.qubits, live q = true) : f'.Tidy live := by
  constructor
  · obtain ⟨_, _, _, rfl⟩ := hp.shape
    exact hf.ascending
  · obtain ⟨_, _, _, rfl⟩ := hp.shape
    exact hf.exported
  · obtain ⟨_, _, _, rfl⟩ := hp.shape
    exact hf.ancillae
  · intro q hq
    rw [hp.kin.owned]
    rcases hp.superposed hq with hq | hq
    · exact hf.superposed q hq
    · exact hq
  · intro q hq
    rcases hp.touched hq with hq | hq | ⟨hb, hq⟩
    · exact hf.touched q hq
    · exact hown q (hf.superposed q hq)
    · rcases hq with hq | ⟨cs, he, hq⟩
      · -- a balanced gate touches nothing, so the instruction names only qubits in use
        rcases hi with ⟨hb', hm⟩ | hi
        · simp [hb', hm] at hb
        · exact hi q hq
      · exact hcs cs he q hq

end Frame

namespace FrameStack

theorem routeThrough_cases (f : Frame R) (fs : List (Frame R)) (i : Instruction R) (b : Bool) :
    (∃ e, f.pass i b = .error e ∧ routeThrough (f :: fs) i b = (.error e, f :: fs)) ∨
    (∃ f', f.Passes i b f' none ∧ routeThrough (f :: fs) i b = (.ok none, f' :: fs)) ∨
    ∃ f' j c, f.Passes i b f' (some (j, c)) ∧
      routeThrough (f :: fs) i b = ((routeThrough fs j c).1, f' :: (routeThrough fs j c).2) := by
  rw [routeThrough]
  rcases hp : f.pass i b with e | ⟨f', _ | ⟨j, c⟩⟩
  · exact .inl ⟨e, rfl, rfl⟩
  · exact .inr (.inl ⟨f', Frame.passes_of_pass hp, rfl⟩)
  · exact .inr (.inr ⟨f', j, c, Frame.passes_of_pass hp, rfl⟩)

theorem routeThrough_kin (fs : List (Frame R)) (i : Instruction R) (b : Bool) :
    List.Forall₂ Frame.Kin fs (routeThrough fs i b).2 := by
  induction fs generalizing i b with
  | nil => exact .nil
  | cons f fs ih =>
    obtain ⟨e, -, hroute⟩ | ⟨f', hpass, hroute⟩ | ⟨f', j, c, hpass, hroute⟩ :=
      routeThrough_cases f fs i b <;> rw [hroute]
    · exact kin_refl _
    · exact .cons hpass.kin (kin_refl _)
    · exact .cons hpass.kin (ih j c)

theorem routeThrough_nested {fs : List (Frame R)} (h : Nested fs) (i : Instruction R) (b : Bool)
    (hi : Inverted fs → ∀ q ∈ i.qubits, q ∈ ownedBy fs) : Nested (routeThrough fs i b).2 := by
  induction fs generalizing i b with
  | nil => trivial
  | cons f fs ih =>
    obtain ⟨hf, hfs⟩ := h
    -- a frame inside an inversion owns nothing, so the qubits are those of the frames around it
    have hmem : Inverted (f :: fs) → ∀ q ∈ i.qubits, q ∈ ownedBy fs := by
      intro hinv q hq
      have := hi hinv q hq
      rwa [ownedBy_cons, hf.owned hinv, List.nil_append] at this
    obtain ⟨e, -, hroute⟩ | ⟨f', hpass, hroute⟩ | ⟨f', j, c, hpass, hroute⟩ :=
      routeThrough_cases f fs i b <;> rw [hroute]
    · exact ⟨hf, hfs⟩
    · exact ⟨hpass.sheltered hf (kin_refl fs) hmem, hfs⟩
    · refine ⟨hpass.sheltered hf (routeThrough_kin fs j c) hmem, ih hfs j c ?_⟩
      intro hinv q hq
      rcases hpass.qubits_out hq with hq | ⟨cs, he, hq⟩
      · exact hmem (inverted_cons.2 (.inr hinv)) q hq
      · exact hf.controls cs he q hq

theorem routeThrough_tidy {live : QubitId → Bool} {fs : List (Frame R)}
    (h : ∀ f ∈ fs, f.Tidy live) (hown : ∀ q ∈ ownedBy fs, live q = true)
    (hcs : ∀ f ∈ fs, ∀ cs, f.environment = .controlled cs → ∀ q ∈ cs, live q = true)
    (i : Instruction R) (b : Bool)
    (hi : b = true ∧ i.isMeasure = false ∨ ∀ q ∈ i.qubits, live q = true) :
    ∀ f ∈ (routeThrough fs i b).2, f.Tidy live := by
  induction fs generalizing i b with
  | nil =>
    intro f hf
    exact absurd hf List.not_mem_nil
  | cons f fs ih =>
    have hf := h f List.mem_cons_self
    have hrest : ∀ g ∈ fs, g.Tidy live := fun g hg => h g (List.mem_cons_of_mem _ hg)
    have hcf := hcs f List.mem_cons_self
    have howned : ∀ q ∈ f.owned, live q = true := fun q hq => hown q (List.mem_append_left _ hq)
    obtain ⟨e, -, hroute⟩ | ⟨f', hpass, hroute⟩ | ⟨f', j, c, hpass, hroute⟩ :=
      routeThrough_cases f fs i b <;> rw [hroute]
    · exact h
    · exact List.forall_mem_cons.2 ⟨hpass.tidy hf howned hcf hi, hrest⟩
    · -- what goes on is balanced too, or names besides its qubits only controls
      have hj : c = true ∧ j.isMeasure = false ∨ ∀ q ∈ j.qubits, live q = true := by
        rcases hi with ⟨rfl, hm⟩ | hi
        · obtain ⟨rfl, rfl⟩ := hpass.balanced_out
          exact .inl ⟨rfl, hm⟩
        · right
          intro q hq
          rcases hpass.qubits_out hq with hq | ⟨cs, he, hq⟩
          · exact hi q hq
          · exact hcf cs he q hq
      refine List.forall_mem_cons.2 ⟨hpass.tidy hf howned hcf hi, ?_⟩
      exact ih hrest (fun q hq => hown q (List.mem_append_right _ hq))
        (fun g hg => hcs g (List.mem_cons_of_mem _ hg)) j c hj

theorem route_eq (s : FrameStack R) (i : Instruction R) (b : Bool) :
    (s.route i b).1 = (routeThrough s.toList i b).1 ∧
      (s.route i b).2.toList = (routeThrough s.toList i b).2 := by
  simp only [route, toList, routeThrough]
  rcases s.top.pass i b with e | ⟨f, _ | ⟨j, c⟩⟩ <;> exact ⟨rfl, rfl⟩

theorem toList_map (g : Frame R → Frame R) (s : FrameStack R) :
    (s.map g).toList = s.toList.map g := rfl

end FrameStack

end Ancilla
