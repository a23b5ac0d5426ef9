import Ancilla.Proofs.Circuit.Levels

/-!
Bounds on depth. A circuit is no deeper than any assignment of levels that grows along its wires,
and such assignments compose: one after the other they add up, backwards they are turned around,
and where they share no wire they stand side by side.
-/

namespace Ancilla

/-- Steps, given by the wires that they touch, can be put on levels from 1 to `k` that grow where a
wire is shared. -/
def Layered {α : Type} (k : ℕ) (steps : List (List α)) : Prop :=
  ∃ ps : List (ℕ × List α), ps.map Prod.snd = steps ∧ (∀ p ∈ ps, 1 ≤ p.1 ∧ p.1 ≤ k) ∧
    ps.Pairwise fun p q => ¬p.2.Disjoint q.2 → p.1 < q.1

namespace Layered

variable {α β : Type} {j k : ℕ} {us vs : List (List α)}

theorem nil : Layered k ([] : List (List α)) := ⟨[], rfl, by simp, .nil⟩

theorem mono (h : Layered j us) (hjk : j ≤ k) : Layered k us := by
  obtain ⟨ps, hps, hbounds, hrise⟩ := h
  exact ⟨ps, hps, fun p hp => ⟨(hbounds p hp).1, (hbounds p hp).2.trans hjk⟩, hrise⟩

theorem append (hu : Layered j us) (hv : Layered k vs) : Layered (j + k) (us ++ vs) := by
  obtain ⟨ps, rfl, hbounds, hrise⟩ := hu
  obtain ⟨qs, rfl, hbounds', hrise'⟩ := hv
  refine ⟨ps ++ qs.map fun q => (j + q.1, q.2), by simp, fun p hp => ?_, ?_⟩
  · rcases List.mem_append.1 hp with hp | hp
    · have := hbounds p hp
      omega
    · obtain ⟨q, hq, rfl⟩ := List.mem_map.1 hp
      have := hbounds' q hq
      exact ⟨by omega, by omega⟩
  · refine List.pairwise_append.2 ⟨hrise, List.pairwise_map.2 (hrise'.imp fun hlt hmeet => ?_), ?_⟩
    · exact Nat.add_lt_add_left (hlt hmeet) j
    · intro p hp q' hq' _
      obtain ⟨q, hq, rfl⟩ := List.mem_map.1 hq'
      have := hbounds p hp
      have := hbounds' q hq
      show p.1 < j + q.1
      omega

theorem reverse (h : Layered k us) : Layered k us.reverse := by
  obtain ⟨ps, rfl, hbounds, hrise⟩ := h
  refine ⟨(ps.map fun p => (k + 1 - p.1, p.2)).reverse, by simp [Function.comp_def],
    fun p hp => ?_, ?_⟩
  · obtain ⟨q, hq, rfl⟩ := List.mem_map.1 (List.mem_reverse.1 hp)
    have := hbounds q hq
    exact ⟨by omega, by omega⟩
  · rw [List.pairwise_reverse, List.pairwise_map]
    refine hrise.imp_of_mem fun {p q} hp hq hlt hmeet => ?_
    have := hbounds p hp
    have := hbounds q hq
    have := hlt fun hdis => hmeet hdis.symm
    show k + 1 - q.1 < k + 1 - p.1
    omega

theorem beside (hu : Layered k us) (hv : Layered k vs)
    (hdis : ∀ u ∈ us, ∀ v ∈ vs, u.Disjoint v) : Layered k (us ++ vs) := by
  obtain ⟨ps, rfl, hbounds, hrise⟩ := hu
  obtain ⟨qs, rfl, hbounds', hrise'⟩ := hv
  refine ⟨ps ++ qs, List.map_append, fun p hp => ?_, List.pairwise_append.2
    ⟨hrise, hrise', fun p hp q hq hmeet => absurd ?_ hmeet⟩⟩
  · exact (List.mem_append.1 hp).elim (hbounds p) (hbounds' p)
  · exact hdis p.2 (List.mem_map_of_mem hp) q.2 (List.mem_map_of_mem hq)

theorem flatMap {ι : Type} {l : List ι} {steps : ι → List (List α)} {wires : ι → List α}
    (h : ∀ x ∈ l, Layered k (steps x)) (hsub : ∀ x ∈ l, ∀ u ∈ steps x, u ⊆ wires x)
    (hnodup : (l.flatMap wires).Nodup) : Layered k (l.flatMap steps) := by
  induction l with
  | nil => exact nil
  | cons x l ih =>
    obtain ⟨hx, hl⟩ := List.forall_mem_cons.1 h
    obtain ⟨hsubx, hsubl⟩ := List.forall_mem_cons.1 hsub
    obtain ⟨-, hrest, hapart⟩ := List.nodup_append'.1 hnodup
    refine hx.beside (ih hl hsubl hrest) fun u hu v hv q hqu hqv => ?_
    obtain ⟨y, hy, hvy⟩ := List.mem_flatMap.1 hv
    exact hapart (hsubx u hu hqu) (List.mem_flatMap.2 ⟨y, hy, hsubl y hy v hvy hqv⟩)

theorem of_length (us : List (List α)) : Layered us.length us := by
  induction us with
  | nil => exact nil
  | cons u us ih =>
    have hone : Layered 1 [u] := ⟨[(1, u)], rfl, by simp, List.pairwise_singleton _ _⟩
    rw [List.length_cons, Nat.add_comm]
    exact hone.append ih

theorem of_nodup (h : us.flatten.Nodup) : Layered 1 us := by
  have hwires : (us.flatMap fun u => u).Nodup := by rwa [List.flatMap_id']
  rw [← List.flatMap_singleton' us]
  exact flatMap (fun u _ => of_length [u]) (fun u _ v hv => by simp [List.mem_singleton.1 hv])
    hwires

theorem map {f : α → β} (hf : Function.Injective f) (h : Layered k us) :
    Layered k (us.map (List.map f)) := by
  obtain ⟨ps, rfl, hbounds, hrise⟩ := h
  refine ⟨ps.map fun p => (p.1, p.2.map f), by simp [Function.comp_def], fun p hp => ?_,
    List.pairwise_map.2 (hrise.imp fun hlt hmeet => hlt fun hdis => hmeet ?_)⟩
  · obtain ⟨q, hq, rfl⟩ := List.mem_map.1 hp
    exact hbounds q hq
  · exact hdis.map hf

end Layered

theorem Circuit.Built.depth_le {R : Type} {c : Circuit R} (h : c.Built) {k : ℕ}
    (hlayered : Layered k (c.instructions.toList.map WireGraph.wires)) : c.depth ≤ k := by
  obtain ⟨ops, hdrawn⟩ := h.drawn
  obtain ⟨ps, hps, hbounds, hrise⟩ := hlayered
  have hlength : ps.length = c.instructions.size := by
    simpa using congrArg List.length hps
  have hwires : ∀ i (hi : i < ps.length), ∀ x ∈ c.instructions[i]?,
      ps[i].2 = WireGraph.wires x := by
    intro i hi x hx
    have hat := congrArg (·[i]?) hps
    simpa [hi, Option.mem_def.1 hx] using hat
  have hlevel : ∀ i (hi : i < ps.length), c.layerAt i ≤ ps[i].1 := by
    intro i hi
    induction i using Nat.strong_induction_on with
    | _ i ih =>
      obtain ⟨n, hn⟩ : ∃ n, ps[i].1 = n + 1 :=
        Nat.exists_eq_add_of_le' (hbounds _ (List.getElem_mem hi)).1
      rw [hn, hdrawn.layerAt_le_iff (hlength ▸ hi)]
      rintro j hj ⟨x, hx, y, hy, w, hwx, hwy⟩
      have hlt : ps[j].1 < ps[i].1 := by
        refine List.pairwise_iff_getElem.1 hrise j i (hj.trans hi) hi hj fun hdis => ?_
        rw [hwires j (hj.trans hi) x hx, hwires i hi y hy] at hdis
        exact hdis hwx hwy
      have := ih j hj (hj.trans hi)
      omega
  rw [hdrawn.depth_eq_sup]
  refine Finset.sup_le fun i hi => ?_
  have hi' : i < ps.length := hlength ▸ Finset.mem_range.1 hi
  exact (hlevel i hi').trans (hbounds _ (List.getElem_mem hi')).2

end Ancilla
