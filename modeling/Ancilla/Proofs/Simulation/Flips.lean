import Ancilla.Proofs.Simulation.BasisStates

/-!
Circuits of controlled flips on basis states. Flips of which none changes an operand of a later one
act each as if it were the only one, so the order within a layer does not matter.
-/

namespace Ancilla

inductive Flip
  | single (control target : ℕ)
  | double (first second target : ℕ)

namespace Flip

def controls : Flip → List ℕ
  | single c _ => [c]
  | double c₁ c₂ _ => [c₁, c₂]

def target : Flip → ℕ
  | single _ t => t
  | double _ _ t => t

def qubits (f : Flip) : List ℕ := f.controls ++ [f.target]

def fires : Flip → ℕ → Bool
  | single c _, y => y.testBit c
  | double c₁ c₂ _, y => y.testBit c₁ && y.testBit c₂

theorem decide_allRead (f : Flip) (y : ℕ) : decide (AllRead f.controls y) = f.fires y := by
  cases f <;> simp [AllRead, controls, fires]

theorem target_mem_qubits (f : Flip) : f.target ∈ f.qubits :=
  List.mem_append_right _ (List.mem_singleton_self _)

theorem mem_qubits_of_mem_controls {f : Flip} {q : ℕ} (h : q ∈ f.controls) : q ∈ f.qubits :=
  List.mem_append_left _ h

end Flip

def flipAll (fs : List Flip) (y : ℕ) : ℕ := fs.foldl (fun y f => flipUnder f.controls f.target y) y

variable {fs : List Flip} {y z : ℕ}

theorem flipAll_cons (f : Flip) (fs : List Flip) (y : ℕ) :
    flipAll (f :: fs) y = flipAll fs (flipUnder f.controls f.target y) := rfl

theorem flipAll_append (fs gs : List Flip) (y : ℕ) :
    flipAll (fs ++ gs) y = flipAll gs (flipAll fs y) := List.foldl_append

theorem testBit_flipUnder_of_ne {cs : List ℕ} {q p : ℕ} (h : p ≠ q) (y : ℕ) :
    (flipUnder cs q y).testBit p = y.testBit p := by
  rw [testBit_flipUnder, if_neg h]

theorem testBit_flipUnder_target (f : Flip) (y : ℕ) :
    (flipUnder f.controls f.target y).testBit f.target = (y.testBit f.target ^^ f.fires y) := by
  rw [testBit_flipUnder, if_pos rfl, f.decide_allRead]

theorem testBit_flipAll_of_not_target {p : ℕ} (h : ∀ f ∈ fs, f.target ≠ p) (y : ℕ) :
    (flipAll fs y).testBit p = y.testBit p := by
  induction fs generalizing y with
  | nil => rfl
  | cons f fs ih =>
    rw [flipAll_cons, ih fun g hg => h g (List.mem_cons_of_mem _ hg),
      testBit_flipUnder_of_ne (h f List.mem_cons_self).symm]

theorem AgreeOff.flipAll {qs : List ℕ} (h : AgreeOff qs y z)
    (hfs : ∀ f ∈ fs, ∀ q ∈ f.qubits, q ∉ qs) : AgreeOff qs (flipAll fs y) (flipAll fs z) := by
  induction fs generalizing y z with
  | nil => exact h
  | cons f fs ih =>
    have hapart := hfs f List.mem_cons_self
    refine ih (fun p hp => ?_) fun g hg => hfs g (List.mem_cons_of_mem _ hg)
    have hread : AllRead f.controls y ↔ AllRead f.controls z := forall₂_congr fun c hc => by
      rw [h c (hapart c (Flip.mem_qubits_of_mem_controls hc))]
    rw [testBit_flipUnder, testBit_flipUnder, h p hp, decide_eq_decide.2 hread]

theorem flipAll_write {qs : List ℕ} (hqs : qs.Nodup) {v : ℕ} (hv : v < 2 ^ qs.length)
    (hfs : ∀ f ∈ fs, ∀ q ∈ f.qubits, q ∉ qs) (y : ℕ) :
    flipAll fs (write qs v y) = write qs v (flipAll fs y) := by
  refine (eq_write_iff hqs hv).2 ⟨?_, ?_⟩
  · refine Eq.trans (reading_congr fun q hq => ?_) (reading_write_of_lt hqs hv y)
    refine testBit_flipAll_of_not_target (fun f hf heq => ?_) _
    exact hfs f hf f.target f.target_mem_qubits (heq ▸ hq)
  · have hoff : AgreeOff qs (write qs v y) y := fun p hp => testBit_write_of_not_mem hp v y
    exact hoff.flipAll hfs

/-! ## Layers -/

/-- No flip changes an operand of a later one. -/
def Independent (fs : List Flip) : Prop := fs.Pairwise fun e f => e.target ∉ f.qubits

theorem Independent.testBit_flipAll (h : Independent fs) {f : Flip} (hf : f ∈ fs) (y : ℕ) :
    (flipAll fs y).testBit f.target = (y.testBit f.target ^^ f.fires y) := by
  induction fs generalizing y with
  | nil => exact absurd hf List.not_mem_nil
  | cons e fs ih =>
    obtain ⟨hfirst, hrest⟩ := List.pairwise_cons.1 h
    rw [flipAll_cons]
    rcases List.mem_cons.1 hf with rfl | hf
    · have hlast : ∀ g ∈ fs, g.target ≠ f.target := fun g hg heq =>
        hfirst g hg (heq ▸ g.target_mem_qubits)
      rw [testBit_flipAll_of_not_target hlast, testBit_flipUnder_target]
    · have hkeep : ∀ q ∈ f.qubits, (flipUnder e.controls e.target y).testBit q = y.testBit q :=
        fun q hq => testBit_flipUnder_of_ne (fun heq : q = e.target => hfirst f hf (heq ▸ hq)) y
      have hread : AllRead f.controls (flipUnder e.controls e.target y) ↔ AllRead f.controls y :=
        forall₂_congr fun c hc => by rw [hkeep c (Flip.mem_qubits_of_mem_controls hc)]
      rw [ih hrest hf, hkeep _ f.target_mem_qubits, ← f.decide_allRead, decide_eq_decide.2 hread,
        f.decide_allRead]

theorem independent_of_layer (hnodup : (fs.map Flip.target).Nodup)
    (h : ∀ f ∈ fs, ∀ c ∈ f.controls, c ∉ fs.map Flip.target) : Independent fs := by
  have hpair : fs.Pairwise fun e f => e.target ≠ f.target := List.pairwise_map.1 hnodup
  refine hpair.imp_of_mem fun he hf hne hmem => ?_
  rcases List.mem_append.1 hmem with hmem | hmem
  · exact h _ hf _ hmem (List.mem_map_of_mem he)
  · exact hne (List.mem_singleton.1 hmem)

theorem testBit_layer {qs : List ℕ} (htargets : (fs.map Flip.target).Perm qs) (hnodup : qs.Nodup)
    (h : ∀ f ∈ fs, ∀ c ∈ f.controls, c ∉ qs) {f : Flip} (hf : f ∈ fs) (y : ℕ) :
    (flipAll fs y).testBit f.target = (y.testBit f.target ^^ f.fires y) := by
  refine (independent_of_layer (htargets.nodup_iff.2 hnodup) fun g hg c hc hmem => ?_).testBit_flipAll
    hf y
  exact h g hg c hc (htargets.mem_iff.1 hmem)

/-! ## Parities -/

def parity : List ℕ → ℕ → Bool
  | [], _ => false
  | q :: qs, y => y.testBit q ^^ parity qs y

theorem parity_append (ps qs : List ℕ) (y : ℕ) :
    parity (ps ++ qs) y = (parity ps y ^^ parity qs y) := by
  induction ps with
  | nil => exact (Bool.false_xor _).symm
  | cons p ps ih => rw [List.cons_append, parity, parity, ih, Bool.xor_assoc]

theorem parity_congr {qs : List ℕ} (h : ∀ q ∈ qs, y.testBit q = z.testBit q) :
    parity qs y = parity qs z := by
  induction qs with
  | nil => rfl
  | cons q qs ih =>
    rw [parity, parity, h q List.mem_cons_self, ih fun p hp => h p (List.mem_cons_of_mem _ hp)]

def gather (xs : List (List ℕ × ℕ)) : List Flip := xs.flatMap fun x => x.1.map (Flip.single · x.2)

theorem target_of_mem_gather {xs : List (List ℕ × ℕ)} {f : Flip} (hf : f ∈ gather xs) :
    ∃ x ∈ xs, ∃ q ∈ x.1, f = .single q x.2 := by
  obtain ⟨x, hx, hf⟩ := List.mem_flatMap.1 hf
  obtain ⟨q, hq, rfl⟩ := List.mem_map.1 hf
  exact ⟨x, hx, q, hq, rfl⟩

theorem testBit_flipAll_singles {qs : List ℕ} {t : ℕ} (h : t ∉ qs) (y : ℕ) :
    (flipAll (qs.map (Flip.single · t)) y).testBit t = (y.testBit t ^^ parity qs y) := by
  induction qs generalizing y with
  | nil => exact (Bool.xor_false _).symm
  | cons q qs ih =>
    obtain ⟨hne, hrest⟩ := List.ne_and_not_mem_of_not_mem_cons h
    have hkeep : parity qs (flipUnder [q] t y) = parity qs y := parity_congr fun p hp =>
      testBit_flipUnder_of_ne (fun heq : p = t => hrest (heq ▸ hp)) y
    rw [List.map_cons, flipAll_cons, ih hrest]
    have hfirst : (flipUnder [q] t y).testBit t = (y.testBit t ^^ y.testBit q) :=
      testBit_flipUnder_target (.single q t) y
    show ((flipUnder [q] t y).testBit t ^^ parity qs (flipUnder [q] t y)) = _
    rw [hkeep, hfirst, parity, Bool.xor_assoc]

theorem testBit_flipAll_gather {xs : List (List ℕ × ℕ)} (hnodup : (xs.map Prod.snd).Nodup)
    (hapart : ∀ x ∈ xs, ∀ q ∈ x.1, q ∉ xs.map Prod.snd) {x : List ℕ × ℕ} (hx : x ∈ xs) (y : ℕ) :
    (flipAll (gather xs) y).testBit x.2 = (y.testBit x.2 ^^ parity x.1 y) := by
  induction xs generalizing y with
  | nil => exact absurd hx List.not_mem_nil
  | cons w xs ih =>
    obtain ⟨hfirst, hrest⟩ := List.nodup_cons.1 hnodup
    have hsplit : gather (w :: xs) = w.1.map (Flip.single · w.2) ++ gather xs := List.flatMap_cons
    have hw : w.2 ∉ w.1 := fun hmem => hapart w List.mem_cons_self _ hmem List.mem_cons_self
    have hapart' : ∀ v ∈ xs, ∀ q ∈ v.1, q ∉ xs.map Prod.snd := fun v hv q hq hmem =>
      hapart v (List.mem_cons_of_mem _ hv) q hq (List.mem_cons_of_mem _ hmem)
    -- the flips of one target leave all other qubits alone
    have hkeep : ∀ p, p ≠ w.2 →
        (flipAll (w.1.map (Flip.single · w.2)) y).testBit p = y.testBit p := by
      intro p hp
      refine testBit_flipAll_of_not_target (fun f hf heq => ?_) y
      obtain ⟨q, -, rfl⟩ := List.mem_map.1 hf
      exact hp heq.symm
    rw [hsplit, flipAll_append]
    rcases List.mem_cons.1 hx with rfl | hx
    · have hlater : ∀ f ∈ gather xs, f.target ≠ x.2 := by
        intro f hf heq
        obtain ⟨v, hv, q, -, rfl⟩ := target_of_mem_gather hf
        exact hfirst (heq ▸ List.mem_map_of_mem hv)
      rw [testBit_flipAll_of_not_target hlater, testBit_flipAll_singles hw]
    · have hne : x.2 ≠ w.2 := fun heq => hfirst (heq ▸ List.mem_map_of_mem hx)
      have hparity : parity x.1 (flipAll (w.1.map (Flip.single · w.2)) y) = parity x.1 y :=
        parity_congr fun q hq => hkeep q fun heq =>
          hapart x (List.mem_cons_of_mem _ hx) q hq (heq ▸ List.mem_cons_self)
      rw [ih hrest hapart' hx, hkeep _ hne, hparity]

end Ancilla
