import Ancilla.Proofs.Session.Answers
import Ancilla.Proofs.Session.Ownership

/-!
Every call keeps the partition of the qubits in use among the open frames. One lemma for each
way in which qubits change hands; the calls are put together from these.
-/

namespace Ancilla

variable {R : Type}

namespace Frame

theorem forget_nil (f : Frame R) : f.forget [] = f := by
  simp [forget, QubitSet.eraseAll]

theorem mem_owned_forget {f : Frame R} {qs : List QubitId} {q : QubitId} :
    q ∈ (f.forget qs).owned ↔ q ∈ f.owned ∧ q ∉ qs := by
  simp [forget]

theorem mem_exported_forget {f : Frame R} {qs : List QubitId} {q : QubitId} :
    q ∈ (f.forget qs).exported ↔ q ∈ f.exported ∧ q ∉ qs := by
  simp [forget]

theorem Tidy.forget {live live' : QubitId → Bool} {f : Frame R} {qs : List QubitId}
    (h : f.Tidy live) (hl : ∀ q, live q = true → q ∉ qs → live' q = true) :
    (f.forget qs).Tidy live' := by
  refine ⟨h.ascending.filter _, ?_, ?_, ?_, ?_⟩
  · intro q hq
    obtain ⟨hq, hn⟩ := mem_exported_forget.1 hq
    exact mem_owned_forget.2 ⟨h.exported q hq, hn⟩
  · intro q hq
    obtain ⟨hq, hn⟩ := (QubitSet.contains_eraseAll _ _ _).1 hq
    exact mem_owned_forget.2 ⟨h.ancillae q hq, hn⟩
  · intro q hq
    obtain ⟨hq, hn⟩ := (QubitSet.contains_eraseAll _ _ _).1 hq
    exact mem_owned_forget.2 ⟨h.superposed q hq, hn⟩
  · intro q hq
    obtain ⟨hq, hn⟩ := (QubitSet.contains_eraseAll _ _ _).1 hq
    exact hl q (h.touched q hq) hn

theorem Tidy.own {live : QubitId → Bool} {f : Frame R} (h : f.Tidy live) (qs : List QubitId) :
    (f.own qs).Tidy live := by
  refine ⟨h.ascending, ?_, ?_, ?_, h.touched⟩
  · intro q hq
    exact List.mem_append_left _ (h.exported q hq)
  · intro q hq
    simp only [Frame.own] at hq
    split at hq
    · rcases (QubitSet.contains_insertAll _ _ _).1 hq with hq | hq
      · exact List.mem_append_left _ (h.ancillae q hq)
      · exact List.mem_append_right _ hq
    · exact List.mem_append_left _ (h.ancillae q hq)
  · intro q hq
    exact List.mem_append_left _ (h.superposed q hq)

theorem mem_toReclaim {f : Frame R} {q : QubitId} :
    q ∈ f.toReclaim ↔ q ∈ f.owned ∧ q ∉ f.exported := by
  simp [toReclaim]

theorem references_new {id : FrameId} {environment : Environment} {label : String} {q : QubitId}
    (h : (new id environment label : Frame R).references q = true) :
    ∃ cs, environment = .controlled cs ∧ q ∈ cs := by
  cases environment with
  | controlled cs => exact ⟨cs, rfl, by simpa [new, references] using h⟩
  | _ => simp [new, references] at h

theorem tidy_new (live : QubitId → Bool) (id : FrameId) (environment : Environment)
    (label : String) : (new id environment label : Frame R).Tidy live :=
  ⟨List.Pairwise.nil, by simp [new], by simp [new], by simp [new], by simp [new]⟩

theorem sheltered_new {id : FrameId} {environment : Environment} {label : String}
    {fs : List (Frame R)} (h : ∀ cs, environment = .controlled cs → ∀ q ∈ cs, q ∈ ownedBy fs) :
    (new id environment label : Frame R).Sheltered fs := by
  refine ⟨h, fun _ => rfl, ?_⟩
  intro _ q hq
  obtain ⟨cs, he, hq⟩ := references_new hq
  exact h cs he q hq

end Frame

theorem mem_ownedBy {fs : List (Frame R)} {q : QubitId} :
    q ∈ ownedBy fs ↔ ∃ f ∈ fs, q ∈ f.owned := List.mem_flatMap

theorem ownedBy_forget (fs : List (Frame R)) (qs : List QubitId) :
    ownedBy (fs.map fun f => f.forget qs) = (ownedBy fs).filter fun q => !qs.contains q := by
  induction fs with
  | nil => rfl
  | cons f fs ih =>
    rw [List.map_cons, ownedBy_cons, ownedBy_cons, ih, List.filter_append]
    rfl

theorem inverted_map {fs : List (Frame R)} (g : Frame R → Frame R)
    (hg : ∀ f, (g f).environment = f.environment) : Inverted (fs.map g) ↔ Inverted fs := by
  simp [Inverted, hg]

theorem Nested.forget {fs : List (Frame R)} {qs : List QubitId} (h : Nested fs)
    (hqs : ∀ q ∈ qs, q ∉ ownedBy fs ∨ ∀ f ∈ fs, f.references q = false) :
    Nested (fs.map fun f => f.forget qs) := by
  induction fs with
  | nil => trivial
  | cons f fs ih =>
    obtain ⟨hf, hfs⟩ := h
    -- a qubit that the frame needs and an outer one owns is not among those forgotten
    have stays : ∀ q, f.references q = true → q ∈ ownedBy fs →
        q ∈ ownedBy (fs.map fun f => f.forget qs) := by
      intro q href hq
      rw [ownedBy_forget, List.mem_filter]
      refine ⟨hq, ?_⟩
      have : q ∉ qs := by
        intro hqs'
        rcases hqs q hqs' with h | h
        · exact h (List.mem_append_right _ hq)
        · simp [h f List.mem_cons_self] at href
      simpa using this
    have hinv : Inverted (f.forget qs :: fs.map fun f => f.forget qs) ↔ Inverted (f :: fs) := by
      rw [inverted_cons, inverted_cons, inverted_map (fun f => f.forget qs) fun _ => rfl]
      rfl
    refine ⟨⟨?_, ?_, ?_⟩, ih hfs ?_⟩
    · intro cs he q hq
      have he' : f.environment = .controlled cs := he
      exact stays q (by simpa [Frame.references, he'] using hq) (hf.controls cs he q hq)
    · intro h
      simp [Frame.forget, hf.owned (hinv.1 h)]
    · intro h q hq
      exact stays q hq (hf.kept (hinv.1 h) q hq)
    · intro q hq
      rcases hqs q hq with h | h
      · exact .inl fun h' => h (List.mem_append_right _ h')
      · exact .inr fun g hg => h g (List.mem_cons_of_mem _ hg)

namespace Ownership

variable {live live' : QubitId → Bool} {limbo : List QubitId} {f : Frame R} {fs : List (Frame R)}

theorem congr (h : Ownership live limbo fs) (hl : ∀ q, live' q = live q) :
    Ownership live' limbo fs := by
  have : live' = live := funext hl
  rwa [this]

theorem disjoint (h : Ownership live limbo fs) {q : QubitId} (hq : q ∈ limbo) :
    q ∉ ownedBy fs := fun hq' => List.disjoint_of_nodup_append h.nodup hq hq'

theorem live_of_owned (h : Ownership live limbo fs) {q : QubitId} (hq : q ∈ ownedBy fs) :
    live q = true := (h.live_iff q).2 (.inr hq)

theorem live_of_controls (h : Ownership live limbo fs) {f : Frame R} (hf : f ∈ fs)
    {cs : List QubitId} (he : f.environment = .controlled cs) {q : QubitId} (hq : q ∈ cs) :
    live q = true := h.live_of_owned (h.nested.controls_live hf he hq)

theorem pop (h : Ownership live limbo (f :: fs)) : Ownership live (limbo ++ f.owned) fs := by
  refine ⟨?_, ?_, fun g hg => h.tidy g (List.mem_cons_of_mem _ hg), h.nested.2⟩
  · rw [List.append_assoc]
    exact h.nodup
  · intro q
    rw [h.live_iff, ownedBy_cons, List.mem_append, List.mem_append, or_assoc]

theorem forget (h : Ownership live limbo fs) {qs : List QubitId}
    (hqs : ∀ q ∈ qs, q ∉ ownedBy fs ∨ ∀ f ∈ fs, f.references q = false)
    (hl : ∀ q, live' q = true ↔ live q = true ∧ q ∉ qs) :
    Ownership live' (limbo.filter fun q => !qs.contains q) (fs.map fun f => f.forget qs) := by
  refine ⟨?_, ?_, ?_, h.nested.forget hqs⟩
  · rw [ownedBy_forget, ← List.filter_append]
    exact h.nodup.filter _
  · intro q
    rw [hl, h.live_iff, ownedBy_forget, List.mem_filter, List.mem_filter]
    simp only [List.contains_eq_mem, Bool.not_eq_true', decide_eq_false_iff_not]
    tauto
  · intro g hg
    obtain ⟨f, hf, rfl⟩ := List.mem_map.1 hg
    exact (h.tidy f hf).forget fun q hq hn => (hl q).2 ⟨hq, hn⟩

theorem own (h : Ownership live limbo (f :: fs)) {qs : List QubitId} (hnodup : qs.Nodup)
    (hmem : ∀ q, q ∈ limbo ↔ q ∈ qs) (hinv : Inverted (f :: fs) → qs = []) :
    Ownership live [] (f.own qs :: fs) := by
  have hkeep := h.nodup
  rw [ownedBy_cons] at hkeep
  obtain ⟨hlimbo, howned, hdisj⟩ := List.nodup_append'.1 hkeep
  obtain ⟨hf, hfs, hffs⟩ := List.nodup_append'.1 howned
  refine ⟨?_, ?_, ?_, ⟨?_, h.nested.2⟩⟩
  · rw [List.nil_append, ownedBy_cons]
    refine List.nodup_append'.2 ⟨List.nodup_append'.2 ⟨hf, hnodup, ?_⟩, hfs, ?_⟩
    · intro q hq hq'
      exact hdisj ((hmem q).2 hq') (List.mem_append_left _ hq)
    · intro q hq hq'
      rcases List.mem_append.1 hq with hq | hq
      · exact hffs hq hq'
      · exact hdisj ((hmem q).2 hq) (List.mem_append_right _ hq')
  · intro q
    rw [h.live_iff, hmem, ownedBy_cons, ownedBy_cons]
    simp only [Frame.own, List.mem_append, List.not_mem_nil]
    tauto
  · intro g hg
    rcases List.mem_cons.1 hg with rfl | hg
    · exact (h.tidy f List.mem_cons_self).own qs
    · exact h.tidy g (List.mem_cons_of_mem _ hg)
  · have same : Inverted (f.own qs :: fs) ↔ Inverted (f :: fs) := by
      rw [inverted_cons, inverted_cons]
      rfl
    refine ⟨h.nested.1.controls, ?_, fun h' => h.nested.1.kept (same.1 h')⟩
    intro h'
    simp only [Frame.own, h.nested.1.owned (same.1 h'), hinv (same.1 h'), List.append_nil]

theorem obtainQubits (h : Ownership live [] fs) {qs : List QubitId} (hnodup : qs.Nodup)
    (hfresh : ∀ q ∈ qs, live q = false) (hl : ∀ q, live' q = true ↔ live q = true ∨ q ∈ qs) :
    Ownership live' qs fs := by
  refine ⟨?_, ?_, ?_, h.nested⟩
  · refine List.nodup_append'.2 ⟨hnodup, h.nodup, ?_⟩
    intro q hq hq'
    simpa [h.live_of_owned hq'] using hfresh q hq
  · intro q
    rw [hl, h.live_iff]
    simp only [List.not_mem_nil, false_or]
    exact or_comm
  · intro f hf
    have hf := h.tidy f hf
    exact ⟨hf.ascending, hf.exported, hf.ancillae, hf.superposed,
      fun q hq => (hl q).2 (.inl (hf.touched q hq))⟩

theorem routeThrough (h : Ownership live limbo fs) {i : Instruction R} {b : Bool}
    (hinv : Inverted fs → ∀ q ∈ i.qubits, q ∈ ownedBy fs)
    (hi : b = true ∧ i.isMeasure = false ∨ ∀ q ∈ i.qubits, live q = true) :
    Ownership live limbo (FrameStack.routeThrough fs i b).2 := by
  have hown := ownedBy_of_kin (FrameStack.routeThrough_kin fs i b)
  refine ⟨?_, ?_, ?_, FrameStack.routeThrough_nested h.nested i b hinv⟩
  · rw [hown]
    exact h.nodup
  · intro q
    rw [hown]
    exact h.live_iff q
  · exact FrameStack.routeThrough_tidy h.tidy (fun q hq => h.live_of_owned hq)
      (fun f hf cs he q hq => h.live_of_controls hf he hq) i b hi

theorem map (h : Ownership live limbo fs) (g : Frame R → Frame R)
    (ho : ∀ f, (g f).owned = f.owned) (he : ∀ f, (g f).environment = f.environment)
    (hr : ∀ f q, (g f).references q = f.references q) (ht : ∀ f, f.Tidy live → (g f).Tidy live) :
    Ownership live limbo (fs.map g) := by
  have hown : ∀ fs : List (Frame R), ownedBy (fs.map g) = ownedBy fs := by
    intro fs
    simp only [ownedBy, List.flatMap_map, ho]
  have hnested : ∀ fs : List (Frame R), Nested fs → Nested (fs.map g) := by
    intro fs hn
    induction fs with
    | nil => trivial
    | cons f fs ih =>
      have hinv : Inverted (g f :: fs.map g) ↔ Inverted (f :: fs) := by
        rw [inverted_cons, inverted_cons, inverted_map g he, he]
      refine ⟨⟨?_, ?_, ?_⟩, ih hn.2⟩
      · rw [he, hown]
        exact hn.1.controls
      · rw [hinv, ho]
        exact hn.1.owned
      · rw [hinv, hown]
        intro h' q
        rw [hr]
        exact hn.1.kept h' q
  refine ⟨?_, ?_, ?_, hnested fs h.nested⟩
  · rw [hown]
    exact h.nodup
  · rw [hown]
    exact h.live_iff
  · intro f' hf'
    obtain ⟨f, hf, rfl⟩ := List.mem_map.1 hf'
    exact ht f (h.tidy f hf)

theorem replaceTop {f' : Frame R} (h : Ownership live limbo (f :: fs)) (ho : f'.owned = f.owned)
    (he : f'.environment = f.environment) (hr : ∀ q, f'.references q = f.references q)
    (ht : f'.Tidy live) : Ownership live limbo (f' :: fs) := by
  have hown : ownedBy (f' :: fs) = ownedBy (f :: fs) := by
    rw [ownedBy_cons, ownedBy_cons, ho]
  have hinv : Inverted (f' :: fs) ↔ Inverted (f :: fs) := by
    rw [inverted_cons, inverted_cons, he]
  refine ⟨hown ▸ h.nodup, hown ▸ h.live_iff, ?_, ⟨?_, ?_, ?_⟩, h.nested.2⟩
  · intro g hg
    rcases List.mem_cons.1 hg with rfl | hg
    · exact ht
    · exact h.tidy g (List.mem_cons_of_mem _ hg)
  · rw [he]
    exact h.nested.1.controls
  · rw [hinv, ho]
    exact h.nested.1.owned
  · rw [hinv]
    intro h' q hq
    rw [hr] at hq
    exact h.nested.1.kept h' q hq

end Ownership

namespace Session

/-- The allocator is sound, and the qubits in use are those in limbo and those of the frames. -/
structure Sound (limbo : List QubitId) (s : Session R) : Prop where
  allocator : s.allocator.Sound
  owned : Ownership s.allocator.isLive limbo s.frames.toList

theorem sound_new (config : SessionConfig) : Sound [] (new config : Session R) := by
  refine ⟨Allocator.sound_new _, ⟨List.nodup_nil, ?_, ?_, ?_, trivial⟩⟩
  · intro q
    simp [new, Allocator.isLive_new, FrameStack.toList, Frame.new]
  · intro f hf
    obtain rfl := List.mem_singleton.1 hf
    exact Frame.tidy_new _ _ _ _
  · exact Frame.sheltered_new fun cs he => Environment.noConfusion he

theorem deliver_eq (s : Session R) (i : Instruction R) :
    (s.deliver i).2 = { s with
      allocator := i.qubits.foldl Allocator.markEntangled s.allocator
      frames := s.frames.map fun f => { f with emitted := f.emitted + 1 }
      circuit := (s.circuit.push i).2 } := by
  unfold deliver
  simp only [onCircuit_eq]
  rcases s.circuit.push i with ⟨_ | _, _⟩ <;> rfl

theorem Sound.deliver {limbo : List QubitId} {s : Session R} (h : Sound limbo s)
    (i : Instruction R) : Sound limbo (s.deliver i).2 := by
  obtain ⟨hsound, hlive⟩ := Allocator.foldl_markEntangled_spec h.allocator i.qubits
  rw [deliver_eq]
  refine ⟨hsound, ?_⟩
  · rw [FrameStack.toList_map]
    refine Ownership.map (h.owned.congr hlive) _ (fun _ => rfl) (fun _ => rfl) (fun _ _ => rfl) ?_
    intro f hf
    exact ⟨hf.ascending, hf.exported, hf.ancillae, hf.superposed, hf.touched⟩

theorem send_invariant {P : Session R → Prop} {s : Session R} {i : Instruction R} {b : Bool}
    (hrouted : P { s with frames := (s.frames.route i b).2 })
    (hdeliver : ∀ s j, P s → P (s.deliver j).2) : P (s.send i b).2 := by
  unfold Session.send
  generalize s.frames.route i b = routed at hrouted
  obtain ⟨r | _ | j, frames⟩ := routed
  · exact hrouted
  · exact hrouted
  · exact hdeliver _ j hrouted

/-- What may be sent: inside an inversion only qubits of the frames are named, and an unbalanced
instruction names only qubits in use. -/
structure Sendable (s : Session R) (i : Instruction R) (b : Bool) : Prop where
  inverted : Inverted s.frames.toList → ∀ q ∈ i.qubits, q ∈ ownedBy s.frames.toList
  live : b = true ∧ i.isMeasure = false ∨ ∀ q ∈ i.qubits, s.allocator.isLive q = true

theorem Sound.send {limbo : List QubitId} {s : Session R} (h : Sound limbo s)
    {i : Instruction R} {b : Bool} (hi : s.Sendable i b) : Sound limbo (s.send i b).2 := by
  have hrouted : Sound limbo { s with frames := (s.frames.route i b).2 } := by
    refine ⟨h.allocator, ?_⟩
    rw [(FrameStack.route_eq s.frames i b).2]
    exact h.owned.routeThrough hi.inverted hi.live
  exact send_invariant hrouted fun _ j hs => hs.deliver j

end Session

end Ancilla
