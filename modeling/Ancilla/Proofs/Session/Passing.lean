import Ancilla.Proofs.Sets
import Ancilla.Session.Frame
import Mathlib.Data.List.Basic

/-!
What a frame does to an instruction on its way outwards, said once, and what the way through all
frames leaves unchanged. Later statements about emission are read off `Passes`.
-/

namespace Ancilla

variable {R : Type}

namespace Instruction

theorem mem_of_mem_movedTargets {i : Instruction R} {q : QubitId} (h : q ∈ i.movedTargets) :
    q ∈ i.qubits := by
  unfold movedTargets at h
  split at h
  · split at h
    · exact absurd h List.not_mem_nil
    · exact List.mem_of_mem_drop h
  · exact absurd h List.not_mem_nil

theorem addControls_spec {i j : Instruction R} {cs : List QubitId} (h : i.addControls cs = .ok j) :
    i.isMeasure = false ∧ j.isMeasure = false ∧ ∀ q ∈ j.qubits, q ∈ i.qubits ∨ q ∈ cs := by
  unfold addControls at h
  unfold isMeasure
  cases hop : i.operation with
  | gate g =>
    simp only [hop, Except.ok.injEq] at h
    subst h
    exact ⟨rfl, rfl, fun q hq => (List.mem_append.1 hq).symm⟩
  | measure => simp [hop] at h
  | barrier =>
    simp only [hop, Except.ok.injEq] at h
    subst h
    exact ⟨rfl, by rw [hop], fun q hq => .inl hq⟩

theorem addCondition_spec {i j : Instruction R} {c : Condition} (h : i.addCondition c = .ok j) :
    i.isMeasure = false ∧ j.isMeasure = false ∧ j.qubits = i.qubits := by
  unfold addCondition at h
  unfold isMeasure
  cases hop : i.operation with
  | gate g =>
    simp only [hop, Except.ok.injEq] at h
    subst h
    exact ⟨rfl, rfl, rfl⟩
  | measure => simp [hop] at h
  | barrier =>
    simp only [hop, Except.ok.injEq] at h
    subst h
    exact ⟨rfl, by rw [hop], rfl⟩

end Instruction

namespace Frame

/-- A frame passes an instruction on: the frame afterwards, and what leaves it. -/
inductive Passes (f : Frame R) (i : Instruction R) (b : Bool) :
    Frame R → Option (Instruction R × Bool) → Prop
  | compute (hf : f.isComputing = true) (hm : i.isMeasure = false) :
    Passes f i b
      ({ f with superposed := f.superposed.insertAll (i.spreadTargets.filter f.owns) }.keep i b)
      (some (i, true))
  | act (he : f.environment = .conjugation) (hp : f.phase = .act) :
    Passes f i b ((if b then f else f.touch (i.qubits.filter f.superposed.contains)).note i b)
      (some (i, b))
  | control {cs : List QubitId} {j : Instruction R} (he : f.environment = .controlled cs)
    (hb : b = false) (hj : i.addControls cs = .ok j) : Passes f i b (f.note j false) (some (j, false))
  | condition {c : Condition} {j : Instruction R} (he : f.environment = .classical c)
    (hb : b = false) (hj : i.addCondition c = .ok j) :
    Passes f i b (f.note j false) (some (j, false))
  | shield (he : (∃ cs, f.environment = .controlled cs) ∨ ∃ c, f.environment = .classical c)
    (hb : b = true) : Passes f i b (f.note i true) (some (i, true))
  | hold (he : f.environment = .inversion) (hm : i.isMeasure = false) :
    Passes f i b (f.keep i b) none
  | free (he : f.environment = .iteration ∨ f.environment = .scope) :
    Passes f i b (f.note i b) (some (i, b))

theorem isComputing_iff {f : Frame R} :
    f.isComputing = true ↔ f.environment = .conjugation ∧ f.phase = .compute := by
  simp [isComputing]

theorem noted_of_bind {f f' : Frame R} {r : Except SessionError (Instruction R)}
    {o : Option (Instruction R × Bool)}
    (h : (do let j ← r; return (f.note j false, some (j, false)) :
      Except SessionError (Frame R × Option (Instruction R × Bool))) = .ok (f', o)) :
    ∃ j, r = .ok j ∧ f' = f.note j false ∧ o = some (j, false) := by
  cases r with
  | error e => exact nomatch h
  | ok j =>
    obtain ⟨hf, ho⟩ := Prod.mk.inj (Except.ok.inj h)
    exact ⟨j, rfl, hf.symm, ho.symm⟩

theorem passes_of_pass {f f' : Frame R} {i : Instruction R} {b : Bool}
    {o : Option (Instruction R × Bool)} (h : f.pass i b = .ok (f', o)) : f.Passes i b f' o := by
  -- one constructor for each branch, in the order of the definition
  unfold pass at h
  split at h
  · next he =>
    split at h
    · next hp =>
      cases hm : i.isMeasure with
      | true => simp [hm] at h
      | false =>
        simp only [hm, Bool.false_eq_true, if_false, note, if_true, Except.ok.injEq,
          Prod.mk.injEq] at h
        obtain ⟨rfl, rfl⟩ := h
        exact .compute (isComputing_iff.2 ⟨he, hp⟩) hm
    · next hp =>
      have hact : f.phase = .act := by
        cases hf : f.phase with
        | compute => exact absurd hf hp
        | act => rfl
      simp only [Except.ok.injEq, Prod.mk.injEq] at h
      obtain ⟨rfl, rfl⟩ := h
      exact .act he hact
  · next cs he =>
    cases b with
    | true =>
      obtain ⟨rfl, rfl⟩ := Prod.mk.inj (Except.ok.inj h)
      exact .shield (.inl ⟨cs, he⟩) rfl
    | false =>
      obtain ⟨j, hj, rfl, rfl⟩ := noted_of_bind h
      exact .control he rfl hj
  · next c he =>
    cases b with
    | true =>
      obtain ⟨rfl, rfl⟩ := Prod.mk.inj (Except.ok.inj h)
      exact .shield (.inr ⟨c, he⟩) rfl
    | false =>
      obtain ⟨j, hj, rfl, rfl⟩ := noted_of_bind h
      exact .condition he rfl hj
  · next he =>
    cases hm : i.isMeasure with
    | true => simp [hm] at h
    | false =>
      simp only [hm, Bool.false_eq_true, if_false, Except.ok.injEq, Prod.mk.injEq] at h
      obtain ⟨rfl, rfl⟩ := h
      exact .hold he hm
  · next he =>
    obtain ⟨rfl, rfl⟩ := Prod.mk.inj (Except.ok.inj h)
    exact .free (.inl he)
  · next he =>
    obtain ⟨rfl, rfl⟩ := Prod.mk.inj (Except.ok.inj h)
    exact .free (.inr he)

theorem note_eq (f : Frame R) (i : Instruction R) (b : Bool) :
    f.note i b = { f with touched := (f.note i b).touched } := by
  unfold note
  split
  · rfl
  · split <;> rfl

theorem note_touched {f : Frame R} {i : Instruction R} {b : Bool} {q : QubitId}
    (h : (f.note i b).touched.contains q = true) :
    f.touched.contains q = true ∨ ((b = false ∨ i.isMeasure = true) ∧ q ∈ i.qubits) := by
  unfold note at h
  split at h
  · next hm =>
    rcases (QubitSet.contains_insertAll _ _ _).1 h with h | h
    · exact .inl h
    · exact .inr ⟨.inr hm, h⟩
  · split at h
    · exact .inl h
    · next hb =>
      rcases (QubitSet.contains_insertAll _ _ _).1 h with h | h
      · exact .inl h
      · exact .inr ⟨.inl (by simpa using hb), Instruction.mem_of_mem_movedTargets h⟩

namespace Passes

variable {f f' : Frame R} {i : Instruction R} {b : Bool} {o : Option (Instruction R × Bool)}

/-- Computing conjugations and inversions keep what comes to them; all other frames mark qubits
and change nothing else. -/
theorem keeps_or_marks (h : f.Passes i b f' o) :
    (f.isComputing = true ∧ i.isMeasure = false ∧ f' =
      { f with superposed := f.superposed.insertAll (i.spreadTargets.filter f.owns) }.keep i b) ∨
    (f.environment = .inversion ∧ i.isMeasure = false ∧ f' = f.keep i b) ∨
    f.isComputing = false ∧ f.environment ≠ .inversion ∧ ∃ t, f' = { f with touched := t } := by
  cases h with
  | compute hf hm => exact .inl ⟨hf, hm, rfl⟩
  | act he hp =>
    refine .inr (.inr ⟨by simp [isComputing, hp], by simp [he], ?_⟩)
    rw [note_eq]
    cases b <;> exact ⟨_, rfl⟩
  | control he hb hj =>
    exact .inr (.inr ⟨by simp [isComputing, he], by simp [he], _, note_eq _ _ _⟩)
  | condition he hb hj =>
    exact .inr (.inr ⟨by simp [isComputing, he], by simp [he], _, note_eq _ _ _⟩)
  | shield he hb =>
    rcases he with ⟨_, he⟩ | ⟨_, he⟩
    · exact .inr (.inr ⟨by simp [isComputing, he], by simp [he], _, note_eq _ _ _⟩)
    · exact .inr (.inr ⟨by simp [isComputing, he], by simp [he], _, note_eq _ _ _⟩)
  | hold he hm => exact .inr (.inl ⟨he, hm, rfl⟩)
  | free he =>
    rcases he with he | he
    · exact .inr (.inr ⟨by simp [isComputing, he], by simp [he], _, note_eq _ _ _⟩)
    · exact .inr (.inr ⟨by simp [isComputing, he], by simp [he], _, note_eq _ _ _⟩)

theorem shape (h : f.Passes i b f' o) :
    ∃ t u l, f' = { f with touched := t, superposed := u, log := l } := by
  rcases h.keeps_or_marks with ⟨-, -, rfl⟩ | ⟨-, -, rfl⟩ | ⟨-, -, t, rfl⟩
  · exact ⟨_, _, _, rfl⟩
  · exact ⟨_, _, _, rfl⟩
  · exact ⟨_, _, _, rfl⟩

theorem log_eq (h : f.Passes i b f' o) :
    f'.log = f.log ∨ f'.log = (i, b) :: f.log ∧ i.isMeasure = false ∧
      (f.environment = .conjugation ∨ f.environment = .inversion) := by
  rcases h.keeps_or_marks with ⟨hf, hm, rfl⟩ | ⟨he, hm, rfl⟩ | ⟨-, -, t, rfl⟩
  · exact .inr ⟨rfl, hm, .inl (isComputing_iff.1 hf).1⟩
  · exact .inr ⟨rfl, hm, .inr he⟩
  · exact .inl rfl

theorem superposed (h : f.Passes i b f' o) {q : QubitId}
    (hq : f'.superposed.contains q = true) : f.superposed.contains q = true ∨ q ∈ f.owned := by
  rcases h.keeps_or_marks with ⟨-, -, rfl⟩ | ⟨-, -, rfl⟩ | ⟨-, -, t, rfl⟩
  · rcases (QubitSet.contains_insertAll _ _ _).1 hq with hq | hq
    · exact .inl hq
    · have hown := (List.mem_filter.1 hq).2
      simp only [owns, List.contains_eq_mem, decide_eq_true_eq] at hown
      exact .inr hown
  · exact .inl hq
  · exact .inl hq

theorem qubits_out {j : Instruction R} {c : Bool} (h : f.Passes i b f' (some (j, c)))
    {q : QubitId} (hq : q ∈ j.qubits) :
    q ∈ i.qubits ∨ ∃ cs, f.environment = .controlled cs ∧ q ∈ cs := by
  cases h with
  | compute hf hm => exact .inl hq
  | act he hp => exact .inl hq
  | control he hb hj =>
    rcases (Instruction.addControls_spec hj).2.2 q hq with hq | hq
    · exact .inl hq
    · exact .inr ⟨_, he, hq⟩
  | condition he hb hj =>
    rw [(Instruction.addCondition_spec hj).2.2] at hq
    exact .inl hq
  | shield he hb => exact .inl hq
  | free he => exact .inl hq

theorem balanced_out {j : Instruction R} {c : Bool} (h : f.Passes i true f' (some (j, c))) :
    j = i ∧ c = true := by
  cases h with
  | compute hf hm => exact ⟨rfl, rfl⟩
  | act he hp => exact ⟨rfl, rfl⟩
  | control he hb hj => exact absurd hb (by decide)
  | condition he hb hj => exact absurd hb (by decide)
  | shield he hb => exact ⟨rfl, rfl⟩
  | free he => exact ⟨rfl, rfl⟩

theorem balanced_in {j : Instruction R} {c : Bool} (h : f.Passes i b f' (some (j, c)))
    (hc : c = false) : b = false := by
  cases b with
  | true => exact absurd hc (by simp [h.balanced_out.2])
  | false => rfl

theorem not_inversion {e : Instruction R × Bool} (h : f.Passes i b f' (some e)) :
    f.environment ≠ .inversion := by
  intro hinv
  cases h with
  | compute hf hm => simp [(isComputing_iff.1 hf).1] at hinv
  | act he hp => simp [he] at hinv
  | control he hb hj => simp [he] at hinv
  | condition he hb hj => simp [he] at hinv
  | shield he hb => rcases he with ⟨_, he⟩ | ⟨_, he⟩ <;> simp [he] at hinv
  | free he => rcases he with he | he <;> simp [he] at hinv

theorem isMeasure_out {j : Instruction R} {c : Bool} (h : f.Passes i b f' (some (j, c))) :
    j.isMeasure = i.isMeasure := by
  cases h with
  | compute hf hm => rfl
  | act he hp => rfl
  | control he hb hj =>
    obtain ⟨hi, hj, -⟩ := Instruction.addControls_spec hj
    rw [hi, hj]
  | condition he hb hj =>
    obtain ⟨hi, hj, -⟩ := Instruction.addCondition_spec hj
    rw [hi, hj]
  | shield he hb => rfl
  | free he => rfl

theorem touched (h : f.Passes i b f' o) {q : QubitId} (hq : f'.touched.contains q = true) :
    f.touched.contains q = true ∨ f.superposed.contains q = true ∨
      ((b = false ∨ i.isMeasure = true) ∧
        (q ∈ i.qubits ∨ ∃ cs, f.environment = .controlled cs ∧ q ∈ cs)) := by
  cases h with
  | compute hf hm => exact .inl hq
  | act he hp =>
    rcases note_touched hq with hq | ⟨hb, hq⟩
    · cases b with
      | true => exact .inl hq
      | false =>
        rcases (QubitSet.contains_insertAll _ _ _).1 hq with hq | hq
        · exact .inl hq
        · exact .inr (.inl (List.mem_filter.1 hq).2)
    · exact .inr (.inr ⟨hb, .inl hq⟩)
  | control he hb hj =>
    rcases note_touched hq with hq | ⟨-, hq⟩
    · exact .inl hq
    · refine .inr (.inr ⟨.inl hb, ?_⟩)
      rcases (Instruction.addControls_spec hj).2.2 q hq with hq | hq
      · exact .inl hq
      · exact .inr ⟨_, he, hq⟩
  | condition he hb hj =>
    rcases note_touched hq with hq | ⟨-, hq⟩
    · exact .inl hq
    · rw [(Instruction.addCondition_spec hj).2.2] at hq
      exact .inr (.inr ⟨.inl hb, .inl hq⟩)
  | shield he hb =>
    rcases note_touched hq with hq | ⟨hm, hq⟩
    · exact .inl hq
    · exact .inr (.inr ⟨.inr (by simpa using hm), .inl hq⟩)
  | hold he hm => exact .inl hq
  | free he =>
    rcases note_touched hq with hq | ⟨hb, hq⟩
    · exact .inl hq
    · exact .inr (.inr ⟨hb, .inl hq⟩)

end Passes

end Frame

end Ancilla
