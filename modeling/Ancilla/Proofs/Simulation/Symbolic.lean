import Ancilla.Proofs.Circuit.Threads
import Ancilla.Proofs.Expr
import Ancilla.Proofs.Simulation.Lowering
import Ancilla.Simulation.Symbolic

/-!
Symbolic states against dense ones, in exact arithmetic. An amplitude that is still open settles for
a number once the open angles have values; dropping zeros and ones and passing over pairs of zeros
does not change it. Kernels whose entries settle keep this up along the circuit, so a symbolic state
evaluates to the amplitudes of the run with all bindings together.
-/

namespace Ancilla

/-! ## Amplitudes that are still open -/

namespace Staged

variable {ε α : Type} [CommRing α] [BEq α] [LawfulBEq α]

theorem value_of_isZero {a : Staged ε α} (h : a.isZero = true) : a.value = .ok 0 := by
  cases a with
  | known c => rw [value, eq_of_beq h]
  | pending v => cases h

theorem value_of_isOne {a : Staged ε α} (h : a.isOne = true) : a.value = .ok 1 := by
  cases a with
  | known c => rw [value, eq_of_beq h]
  | pending v => cases h

theorem value_add {a b : Staged ε α} {x y : α} (ha : a.value = .ok x) (hb : b.value = .ok y) :
    (a.add b).value = .ok (x + y) := by
  have hopen : (if a.isZero then b else if b.isZero then a
      else pending do return (← a.value) + (← b.value)).value = .ok (x + y) := by
    split
    · next hzero =>
      obtain rfl := Except.ok.inj (ha.symm.trans (value_of_isZero hzero))
      rw [hb, zero_add]
    · split
      · next hzero =>
        obtain rfl := Except.ok.inj (hb.symm.trans (value_of_isZero hzero))
        rw [ha, add_zero]
      · rw [value, ha, hb]
        rfl
  unfold add
  split
  · obtain rfl := Except.ok.inj ha
    obtain rfl := Except.ok.inj hb
    rfl
  · exact hopen

theorem value_mul {a b : Staged ε α} {x y : α} (ha : a.value = .ok x) (hb : b.value = .ok y) :
    (a.mul b).value = .ok (x * y) := by
  have hopen : (if a.isZero || b.isZero then known 0 else if a.isOne then b else if b.isOne then a
      else pending do return (← a.value) * (← b.value)).value = .ok (x * y) := by
    split
    · next hzero =>
      rcases Bool.or_eq_true_iff.1 hzero with hzero | hzero
      · obtain rfl := Except.ok.inj (ha.symm.trans (value_of_isZero hzero))
        rw [zero_mul, value]
      · obtain rfl := Except.ok.inj (hb.symm.trans (value_of_isZero hzero))
        rw [mul_zero, value]
    · split
      · next hone =>
        obtain rfl := Except.ok.inj (ha.symm.trans (value_of_isOne hone))
        rw [hb, one_mul]
      · split
        · next hone =>
          obtain rfl := Except.ok.inj (hb.symm.trans (value_of_isOne hone))
          rw [ha, mul_one]
        · rw [value, ha, hb]
          rfl
  unfold mul
  split
  · obtain rfl := Except.ok.inj ha
    obtain rfl := Except.ok.inj hb
    rfl
  · exact hopen

structure Settles (v : Array (Staged ε α)) (w : Array α) : Prop where
  size : v.size = w.size
  value : ∀ x, (v.getD x (known 0)).value = .ok (amplitudes w x)

omit [BEq α] [LawfulBEq α] in
theorem Settles.mapM_value {v : Array (Staged ε α)} {w : Array α} (h : Settles v w) :
    v.mapM Staged.value = .ok w := by
  have hlist : ∀ {l : List (Staged ε α)} {l' : List α}, l.map Staged.value = l'.map Except.ok →
      l.mapM Staged.value = .ok l' := by
    intro l
    induction l with
    | nil =>
      intro l' hl
      rw [List.map_nil, eq_comm, List.map_eq_nil_iff] at hl
      rw [hl]
      rfl
    | cons a l ih =>
      intro l' hl
      cases l' with
      | nil => cases hl
      | cons x l' =>
        obtain ⟨ha, hl⟩ := List.cons.inj hl
        rw [List.mapM_cons, ha, ih hl]
        rfl
  have hvalues : v.toList.map Staged.value = w.toList.map Except.ok := by
    refine List.ext_getElem (by simp [h.size]) fun x hx hx' => ?_
    have hv : x < v.size := by simpa using hx
    have hw : x < w.size := by simpa using hx'
    have hat := h.value x
    simp only [amplitudes, Array.getD_eq_getD_getElem?, Array.getElem?_eq_getElem hv,
      Array.getElem?_eq_getElem hw, Option.getD_some] at hat
    simpa using hat
  rw [Array.mapM_eq_mapM_toList, hlist hvalues]
  rfl

structure Tracks (k : Kernel (Staged ε α)) (k' : Kernel α) : Prop where
  target : k.target = k'.target
  controls : k.controls = k'.controls
  matrix : k.matrix.map Staged.value = k'.matrix.map Except.ok

omit [CommRing α] [BEq α] [LawfulBEq α] in
theorem value_ite {a e : Staged ε α} {s r : α} (ha : a.value = .ok s) (he : e.value = .ok r)
    {chosen skip : Bool} (hskip : skip = true → r = s) :
    (if (chosen && !skip) = true then e else a).value = .ok (if chosen = true then r else s) := by
  cases chosen with
  | false => exact ha
  | true =>
    cases skip with
    | false => exact he
    | true => exact (hskip rfl).symm ▸ ha

omit [BEq α] [LawfulBEq α] in
theorem getD_mapIdx {v : Array (Staged ε α)} {x : ℕ} (hx : x < v.size)
    (f : ℕ → Staged ε α → Staged ε α) :
    (v.mapIdx f).getD x (known 0) = f x (v.getD x (known 0)) := by
  simp [Array.getD_eq_getD_getElem?, Array.getElem?_mapIdx, Array.getElem?_eq_getElem hx]

theorem Settles.applyKernel {v : Array (Staged ε α)} {w : Array α} (h : Settles v w)
    {k : Kernel (Staged ε α)} {k' : Kernel α} (hk : Tracks k k') {n : ℕ} (hw : w.size = 2 ^ n)
    (ht : k'.target < n) : Settles (applyKernel k v) (k'.apply w) := by
  have hsize := Kernel.size_apply k' hw ht
  refine ⟨by simp [Staged.applyKernel, h.size, hsize], fun x => ?_⟩
  by_cases hx : x < w.size
  · rw [k'.amplitudes_apply_of_lt hw ht hx, Staged.applyKernel, getD_mapIdx (h.size.symm ▸ hx),
      hk.target, hk.controls, Kernel.lowOf, Operator.onQubit_apply]
    have h00 := congrArg Matrix2.m00 hk.matrix
    have h01 := congrArg Matrix2.m01 hk.matrix
    have h10 := congrArg Matrix2.m10 hk.matrix
    have h11 := congrArg Matrix2.m11 hk.matrix
    have hzero : ∀ {y : ℕ}, (v.getD y (known 0)).isZero = true → amplitudes w y = 0 := fun hy =>
      Except.ok.inj ((h.value _).symm.trans (value_of_isZero hy))
    -- a pair that is skipped holds known zeros, and the matrix keeps these
    have hskip : ∀ {y z : ℕ}, ((v.getD y (known 0)).isZero && (v.getD z (known 0)).isZero) = true →
        amplitudes w y = 0 ∧ amplitudes w z = 0 := fun hyz =>
      ⟨hzero (Bool.and_eq_true_iff.1 hyz).1, hzero (Bool.and_eq_true_iff.1 hyz).2⟩
    cases hbit : x.testBit k'.target with
    | true =>
      have hlow : x - bitWeight k'.target = toggle x k'.target := by
        have hadd := add_bitWeight (x := toggle x k'.target) (q := k'.target) (by simp [hbit])
        rw [toggle_toggle] at hadd
        omega
      simp only [if_true, hlow]
      refine (value_ite (h.value x) (value_add (value_mul h10 (h.value _))
        (value_mul h11 (h.value x))) fun hyz => ?_).trans ?_
      · obtain ⟨hy, hz⟩ := hskip hyz
        rw [hy, hz]
        ring
      · simp
    | false =>
      simp only [Bool.false_eq_true, if_false, add_bitWeight hbit]
      refine (value_ite (h.value x) (value_add (value_mul h00 (h.value x))
        (value_mul h01 (h.value _))) fun hyz => ?_).trans ?_
      · obtain ⟨hy, hz⟩ := hskip hyz
        rw [hy, hz]
        ring
      · simp
  · have hbeyond : (Staged.applyKernel k v).size ≤ x := by
      simpa [Staged.applyKernel, h.size] using hx
    rw [amplitudes_of_size_le (by omega), Array.getD_eq_getD_getElem?,
      Array.getElem?_eq_none hbeyond]
    rfl

end Staged

/-! ## Matrices with open angles -/

theorem Expr.eval?_half {R : Type} [Scalar R] {b : Bindings R} {e : Expr R} {a : R}
    (h : e.eval? b = some a) : e.half.eval? b = some (a / Scalar.two) := by
  rw [Expr.half, Expr.eval?, h]
  rfl

namespace SymbolicEntry

variable {b : Bindings ℝ}

noncomputable def value (b : Bindings ℝ) (x : SymbolicEntry ℝ ℂ) : Except ParameterError ℂ :=
  (x.stage (AngleFunction.evaluate b)).value

theorem value_known (c : ℂ) : value b (.known c) = .ok c := rfl

theorem value_mul {x y : SymbolicEntry ℝ ℂ} {c d : ℂ} (hx : x.value b = .ok c)
    (hy : y.value b = .ok d) : (SymbolicEntry.mul x y).value b = .ok (c * d) :=
  Staged.value_mul hx hy

theorem evaluate_of_eval? {e : Expr ℝ} {a : ℝ} (h : e.eval? b = some a) : e.evaluate b = .ok a :=
  Expr.evaluate_ok_iff.2 ⟨h, rfl⟩

theorem value_cos {e : Expr ℝ} {a : ℝ} (h : e.eval? b = some a) :
    value b (.angle (.cos e)) = .ok (Real.cos a : ℂ) := by
  rw [value, stage, Staged.value, AngleFunction.evaluate, evaluate_of_eval? h]
  exact congrArg Except.ok (Exact.amplitude_ofReal _)

theorem value_sin {e : Expr ℝ} {a : ℝ} (h : e.eval? b = some a) :
    value b (.angle (.sin e)) = .ok (Real.sin a : ℂ) := by
  rw [value, stage, Staged.value, AngleFunction.evaluate, evaluate_of_eval? h]
  exact congrArg Except.ok (Exact.amplitude_ofReal _)

theorem value_cis {e : Expr ℝ} {a : ℝ} (h : e.eval? b = some a) :
    value b (.angle (.cis e)) = .ok (Complex.exp (a * Complex.I)) := by
  rw [value, stage, Staged.value, AngleFunction.evaluate, evaluate_of_eval? h]
  refine congrArg Except.ok ((Exact.polar_eq _ _).trans ?_)
  simp

end SymbolicEntry

open SymbolicEntry

theorem Matrix2.map_eq {α β : Type} {f : α → β} {m : Matrix2 α} {x y z w : β} (hx : f m.m00 = x)
    (hy : f m.m01 = y) (hz : f m.m10 = z) (hw : f m.m11 = w) : m.map f = ⟨x, y, z, w⟩ := by
  rw [Matrix2.map, hx, hy, hz, hw]

theorem eq_of_mapM_value? {b : Bindings ℝ} {es : List (Expr ℝ)} {as values : List ℝ}
    (h : List.Forall₂ (fun e a => e.eval? b = some a) es as)
    (hvalues : es.mapM Expr.value? = some values) : values = as := by
  induction h generalizing values with
  | nil => exact (Option.some.inj hvalues).symm
  | @cons e a es as ha _ ih =>
    rw [List.mapM_cons] at hvalues
    obtain ⟨v, hv, hvalues⟩ := Option.bind_eq_some_iff.1 hvalues
    obtain ⟨rest, hrest, hvalues⟩ := Option.bind_eq_some_iff.1 hvalues
    rw [← Option.some.inj hvalues, ih hrest]
    exact congrArg (· :: as) (Option.some.inj ((Expr.eval?_of_value? hv b).symm.trans ha))

theorem symbolicMatrix?_settles {b : Bindings ℝ} {g : Standard ℝ} {es : List (Expr ℝ)}
    {as : List ℝ} (h : List.Forall₂ (fun e a => e.eval? b = some a) es as)
    (hlength : es.length = g.parameters.length) {m : Matrix2 ℂ}
    (hm : Kernel.rootMatrix? g as = some m) :
    ∃ m', symbolicMatrix? g es = some m' ∧
      m'.map (SymbolicEntry.value b) = m.map Except.ok := by
  unfold symbolicMatrix?
  cases hvalues : es.mapM Expr.value? with
  | some values =>
    simp only [eq_of_mapM_value? h hvalues, hm, Option.map_some]
    exact ⟨_, rfl, rfl⟩
  | none =>
    simp only []
    -- the roots with one angle share this
    have hone : es.length = 1 → ∃ e a, es = [e] ∧ as = [a] ∧ e.eval? b = some a := by
      intro hlen
      obtain ⟨e, rfl⟩ := List.length_eq_one_iff.1 hlen
      obtain ⟨a, rest, ha, hrest, rfl⟩ := List.forall₂_cons_left_iff.1 h
      obtain rfl := List.forall₂_nil_left_iff.1 hrest
      exact ⟨e, a, rfl, rfl, ha⟩
    cases g with
    | rx =>
      obtain ⟨e, a, rfl, rfl, ha⟩ := hone hlength
      obtain rfl := Option.some.inj hm
      have hcos := value_cos (Expr.eval?_half ha)
      have hsin := value_mul (value_known (-Amplitude.i)) (value_sin (Expr.eval?_half ha))
      refine ⟨_, rfl, Matrix2.map_eq (hcos.trans ?_) (hsin.trans ?_) (hsin.trans ?_)
        (hcos.trans ?_)⟩ <;> simp
    | ry =>
      obtain ⟨e, a, rfl, rfl, ha⟩ := hone hlength
      obtain rfl := Option.some.inj hm
      have hcos := value_cos (Expr.eval?_half ha)
      have hsin := value_sin (Expr.eval?_half ha)
      refine ⟨_, rfl, Matrix2.map_eq (hcos.trans ?_) ((value_mul (value_known (-1)) hsin).trans ?_)
        (hsin.trans ?_) (hcos.trans ?_)⟩ <;> simp
    | rz =>
      obtain ⟨e, a, rfl, rfl, ha⟩ := hone hlength
      obtain rfl := Option.some.inj hm
      have hhalf := Expr.eval?_half ha
      have hminus : e.half.opposite.eval? b = some (-(a / Scalar.two)) := by
        show (e.half.eval? b).map (fun v => -v) = _
        rw [hhalf]
        rfl
      refine ⟨_, rfl, Matrix2.map_eq ((value_cis hminus).trans ?_) rfl rfl
        ((value_cis hhalf).trans ?_)⟩ <;> simp [Exact.polar_eq, neg_div]
    | p =>
      obtain ⟨e, a, rfl, rfl, ha⟩ := hone hlength
      obtain rfl := Option.some.inj hm
      refine ⟨_, rfl, Matrix2.map_eq rfl rfl rfl ((value_cis ha).trans ?_)⟩
      simp [Exact.polar_eq, Kernel.phase]
    | u =>
      obtain ⟨e, f, g, rfl⟩ := List.length_eq_three.1 hlength
      obtain ⟨x, _, hx, h₁, rfl⟩ := List.forall₂_cons_left_iff.1 h
      obtain ⟨y, _, hy, h₂, rfl⟩ := List.forall₂_cons_left_iff.1 h₁
      obtain ⟨z, _, hz, h₃, rfl⟩ := List.forall₂_cons_left_iff.1 h₂
      obtain rfl := List.forall₂_nil_left_iff.1 h₃
      obtain rfl := Option.some.inj hm
      have hcos := value_cos (Expr.eval?_half hx)
      have hsin := value_sin (Expr.eval?_half hx)
      have hsum : (Expr.binary .add f g).eval? b = some (y + z) := by
        rw [Expr.eval?, hy, hz]
        rfl
      refine ⟨_, rfl, Matrix2.map_eq (hcos.trans ?_)
        ((value_mul (value_mul (value_known (-1)) (value_cis hz)) hsin).trans ?_)
        ((value_mul (value_cis hy) hsin).trans ?_)
        ((value_mul (value_cis hsum) hcos).trans ?_)⟩ <;> simp [Exact.polar_eq, mul_comm]
    | id | x | y | z | h | s | sdg | t | tdg | sx | sxdg | swap | cx | cy | cz | ch | ccx | cswap =>
      rw [List.length_eq_zero_iff.1 hlength] at hvalues
      cases hvalues
    | crx | cry | crz | cp => cases hm

/-! ## Kernels along a circuit -/

noncomputable def stageKernel (b : Bindings ℝ) (k : Kernel (SymbolicEntry ℝ ℂ)) :
    Kernel (Staged ParameterError ℂ) :=
  { k with matrix := k.matrix.map (SymbolicEntry.stage (AngleFunction.evaluate b)) }

theorem symbolicKernels_track {b : Bindings ℝ} {k : GateKind ℝ} {qs : List QubitId}
    {es : List (Expr ℝ)} {as : List ℝ} (h : List.Forall₂ (fun e a => e.eval? b = some a) es as)
    (hlength : es.length = k.parameters.length) {ks : List (Kernel ℂ)}
    (hks : Kernel.lower k qs as = .ok ks) :
    ∃ sks, symbolicKernels k qs es = .ok sks ∧
      List.Forall₂ (fun κ κ' => Staged.Tracks (stageKernel b κ) κ') sks ks := by
  unfold symbolicKernels
  rw [GateKind.splitControls_eq]
  simp only []
  rcases Kernel.lower_ok_iff.1 hks with ⟨hswap, rfl⟩ | ⟨hswap, m, hm, rfl⟩
  · rw [hswap]
    refine ⟨_, rfl, List.forall₂_map_left_iff.2 (List.forall₂_same.2 fun κ _ => ?_)⟩
    exact ⟨rfl, rfl, rfl⟩
  · rw [← GateKind.parameters_root] at hlength
    obtain ⟨m', hm', hsettles⟩ := symbolicMatrix?_settles h hlength hm
    split
    · next heq => exact absurd heq hswap
    · rw [hm']
      exact ⟨_, rfl, .cons ⟨rfl, rfl, hsettles⟩ .nil⟩

/-- Open amplitudes that settle for those of a run still do after kernels and after steps. -/
def Follows (b : Bindings ℝ) (n : ℕ) (sks : List (Kernel (SymbolicEntry ℝ ℂ)))
    (steps : List (Step ℂ)) : Prop :=
  ∀ ⦃σ : Type⦄ [DrawSource σ ℝ] (t : Trajectory ℂ σ) ⦃v : Array (Staged ParameterError ℂ)⦄,
    t.state.amplitudes.size = 2 ^ n → Staged.Settles v t.state.amplitudes →
      (t.run steps).state.amplitudes.size = 2 ^ n ∧
        Staged.Settles (sks.foldl (fun v κ => Staged.applyKernel (stageKernel b κ) v) v)
          (t.run steps).state.amplitudes

namespace Follows

variable {b : Bindings ℝ} {n : ℕ}

theorem nil : Follows b n [] [] := fun _ _ _ _ ht hv => ⟨ht, hv⟩

theorem append {sks sks' : List (Kernel (SymbolicEntry ℝ ℂ))} {steps steps' : List (Step ℂ)}
    (h : Follows b n sks steps) (h' : Follows b n sks' steps') :
    Follows b n (sks ++ sks') (steps ++ steps') := by
  intro σ _ t v ht hv
  obtain ⟨hsize, hsettles⟩ := h t ht hv
  rw [Trajectory.run_append, List.foldl_append]
  exact h' (t.run steps) hsize hsettles

theorem gate {sks : List (Kernel (SymbolicEntry ℝ ℂ))} {ks : List (Kernel ℂ)}
    (h : List.Forall₂ (fun κ κ' => Staged.Tracks (stageKernel b κ) κ') sks ks)
    (htargets : ∀ κ ∈ ks, κ.target < n) : Follows b n sks [.gate ks none] := by
  intro σ _ t v ht hv
  show (Kernel.applyAll ks t.state.amplitudes).size = 2 ^ n ∧ Staged.Settles _
    (Kernel.applyAll ks t.state.amplitudes)
  generalize t.state.amplitudes = w at ht hv
  induction h generalizing v w with
  | nil => exact ⟨ht, hv⟩
  | @cons κ κ' sks ks hκ _ ih =>
    obtain ⟨htarget, htargets⟩ := List.forall_mem_cons.1 htargets
    exact ih htargets (w := κ'.apply w) ((Kernel.size_apply κ' ht htarget).trans ht)
      (hv.applyKernel hκ ht htarget)

end Follows

def Instruction.Mentions {R : Type} (i : Instruction R) (name : String) : Prop :=
  ∃ g, i.gate? = some g ∧ ∃ e ∈ g.kind.parameters, e.Mentions name

theorem Circuit.mem_symbols {R : Type} (c : Circuit R) (name : String) :
    name ∈ c.symbols ↔ ∃ i ∈ c.instructions.toList, i.Mentions name := by
  have hfold : ∀ {f : List String → Instruction R → List String},
      (∀ acc i, name ∈ f acc i ↔ name ∈ acc ∨ i.Mentions name) →
      ∀ (l : List (Instruction R)) (acc : List String),
        name ∈ l.foldl f acc ↔ name ∈ acc ∨ ∃ i ∈ l, i.Mentions name := by
    intro f hf l
    induction l with
    | nil => simp
    | cons i l ih =>
      intro acc
      rw [List.foldl_cons, ih, hf, List.exists_mem_cons_iff, or_assoc]
  rw [Circuit.symbols, ← Array.foldl_toList, hfold]
  · simp
  · intro acc i
    unfold Instruction.Mentions
    cases i.gate? with
    | none => simp
    | some g => simp [Expr.mem_foldl_collectSymbols]

namespace SymbolicState

theorem extend_spec {b : Bindings ℝ} {l : List (Instruction ℝ)} {s s' : SymbolicState ℝ ℂ}
    (h : extend b s l = .ok s') : s'.numQubits = s.numQubits ∧ ∀ name,
      name ∈ s'.symbols ↔ name ∈ s.symbols ∨ (∃ i ∈ l, i.Mentions name) ∧ b.binds name = false := by
  induction l generalizing s with
  | nil =>
    obtain rfl := Except.ok.inj h
    simp
  | cons i l ih =>
    unfold extend at h
    cases hg : i.gate? with
    | none =>
      simp only [hg] at h
      simpa [Instruction.Mentions, hg] using ih h
    | some g =>
      simp only [hg] at h
      obtain ⟨sks, -, h⟩ := Except.bind_eq_ok_iff.1 h
      obtain ⟨hqubits, hsymbols⟩ := ih h
      refine ⟨hqubits, fun name => ?_⟩
      rw [hsymbols, Expr.mem_foldl_collectSymbols, List.exists_mem_cons_iff]
      simp only [List.mem_map, exists_exists_and_eq_and, (Expr.simplify_spec _).1,
        Expr.mentions_bindAll]
      simp only [Instruction.Mentions, hg, Option.some.injEq]
      grind

theorem exists_extend {c : Circuit ℝ} (hc : c.Orderly) {b b' : Bindings ℝ}
    {l : List (Instruction ℝ)} (hl : ∀ i ∈ l, i ∈ c.instructions.toList)
    (hplain : ∀ i ∈ l, i.isConditional = false) {steps : List (Step ℂ)}
    (hsteps : Step.ofInstructions (b ++ b') false l = .ok steps) (s : SymbolicState ℝ ℂ) :
    ∃ s' sks, extend b s l = .ok s' ∧ s'.kernels = s.kernels ++ sks ∧
      Follows b' c.width sks steps := by
  induction l generalizing s steps with
  | nil =>
    obtain rfl := Except.ok.inj hsteps
    exact ⟨s, [], rfl, (List.append_nil _).symm, .nil⟩
  | cons i l ih =>
    obtain ⟨first, rest, hfirst, hrest, rfl⟩ := Step.ofInstructions_cons_iff.1 hsteps
    obtain ⟨hi, hl⟩ := List.forall_mem_cons.1 hl
    obtain ⟨hcondition, hplain⟩ := List.forall_mem_cons.1 hplain
    cases hgate : i.gate? with
    | none =>
      rw [Step.ofInstruction_of_not_gate hgate] at hfirst
      obtain rfl := Except.ok.inj hfirst
      obtain ⟨s', sks, hextend, hkernels, hfollows⟩ := ih hl hplain hrest s
      refine ⟨s', sks, ?_, hkernels, hfollows⟩
      rw [extend]
      simp only [hgate]
      exact hextend
    | some g =>
      have hop := Instruction.gate?_eq_some.1 hgate
      obtain ⟨as, ks, has, hks, rfl⟩ := (Step.ofInstruction_gate_iff hop).1 hfirst
      have hangles : List.Forall₂ (fun e a => e.eval? b' = some a)
          (g.kind.parameters.map fun e => (e.bindAll b).simplify) as := by
        refine List.forall₂_map_left_iff.2 ((Exact.angles_ok_iff.1 has).imp fun e a ha => ?_)
        rw [(Expr.simplify_spec _).2, Expr.eval?_bindAll]
        exact (Expr.evaluate_ok_iff.1 ha).1
      obtain ⟨sks, hsks, htracks⟩ := symbolicKernels_track hangles (List.length_map _) hks
      have hfits := hc.fits hi hop
      have hgated : Follows b' c.width sks [.gate ks g.condition] := by
        rw [Instruction.condition_of_not_isConditional hcondition hop]
        exact .gate htracks fun κ hκ => hfits.below _ (Kernel.target_mem_of_lower hfits hks κ hκ)
      obtain ⟨s', sks', hextend, hkernels, hfollows⟩ := ih hl hplain hrest
        { s with
          symbols := (g.kind.parameters.map fun e => (e.bindAll b).simplify).foldl
            (fun acc e => e.collectSymbols acc) s.symbols
          kernels := s.kernels ++ sks }
      refine ⟨s', sks ++ sks', ?_, ?_, hgated.append hfollows⟩
      · rw [extend]
        simp only [hgate, hsks]
        exact hextend
      · rw [hkernels, List.append_assoc]

end SymbolicState

/-! ## Simulations -/

theorem Simulator.checkWidth_ok {R : Type} {sim : Simulator} {c : Circuit R} {width : ℕ}
    (h : sim.checkWidth c = .ok width) : width = c.width := by
  unfold Simulator.checkWidth at h
  simp only [] at h
  split at h
  · cases h
  · exact (Except.ok.inj h).symm

theorem Simulator.exists_runFrom {R α σ : Type} [Scalar R] [Amplitude R α] [DrawSource σ R]
    {sim : Simulator} {c : Circuit R} {b : Bindings R} (source : σ)
    (hwidth : c.width ≤ sim.settings.maxQubits) (hbinds : ∀ name ∈ c.symbols, b.binds name = true)
    (hstatic : c.isDynamic = false) {steps : List (Step α)}
    (hsteps : Step.ofCircuit c b false = .ok steps) :
    ∃ result : SimulationResult R α,
      sim.runFrom { circuit := c, bindings := b } source = .ok result := by
  have hcheck : sim.checkWidth c = .ok c.width := if_neg (Nat.not_lt.2 hwidth)
  have hfind : (c.symbols.find? fun name => !b.binds name) = none := by
    simpa using hbinds
  unfold Simulator.runFrom
  simp only [hcheck, hfind, hstatic, hsteps]
  exact ⟨_, rfl⟩

theorem Simulator.runFrom_exact {R α σ : Type} [Scalar R] [Amplitude R α] [DrawSource σ R]
    {sim : Simulator} {request : SimulationRequest R} (hshots : request.shots = none) {source : σ}
    {result : SimulationResult R α} (h : sim.runFrom request source = .ok result) :
    sim.checkWidth request.circuit = .ok request.circuit.width ∧
      request.circuit.isDynamic = false ∧
      (∀ name ∈ request.circuit.symbols, request.bindings.binds name = true) ∧
      ∃ steps : List (Step α), Step.ofCircuit request.circuit request.bindings false = .ok steps ∧
        ∃ names probabilities drift, result = .exact names probabilities
          ((Trajectory.start request.circuit.width request.circuit.numClbits source).run
            steps).state.amplitudes drift := by
  unfold Simulator.runFrom at h
  obtain ⟨width, hwidth, h⟩ := Except.bind_eq_ok_iff.1 h
  obtain rfl := checkWidth_ok hwidth
  simp only [] at h
  split at h
  · cases h
  · next hbound =>
    have hbinds : ∀ name ∈ request.circuit.symbols, request.bindings.binds name = true := by
      have hnone := Option.eq_none_iff_forall_ne_some.2 fun name hname => hbound name hname
      simpa using hnone
    obtain ⟨registers, -, h⟩ := Except.bind_eq_ok_iff.1 h
    obtain ⟨steps, hsteps, h⟩ := Except.bind_eq_ok_iff.1 h
    rw [hshots] at h
    cases hdynamic : request.circuit.isDynamic with
    | true =>
      rw [hdynamic] at h
      cases h
    | false =>
      rw [hdynamic] at h hsteps
      obtain ⟨⟨state, rest⟩, honce, h⟩ := Except.bind_eq_ok_iff.1 h
      unfold Simulator.trajectory at honce
      split at honce
      · cases honce
      · obtain ⟨rfl, -⟩ := Prod.mk.inj (Except.ok.inj honce)
        exact ⟨hwidth, rfl, hbinds, steps, hsteps, _, _, _, (Except.ok.inj h).symm⟩

theorem settles_zero (n : ℕ) : Staged.Settles
    ((Array.replicate (bitWeight n) (.known 0 : Staged ParameterError ℂ)).setIfInBounds 0
      (.known 1))
    (StateVector.zero n : StateVector ℂ).amplitudes := by
  have hpos : 0 < bitWeight n := Nat.two_pow_pos n
  refine ⟨by simp [StateVector.zero], fun x => ?_⟩
  rw [StateVector.zero, amplitudes_setIfInBounds _ (by simpa using hpos), amplitudes]
  by_cases hx : x = 0
  · simp [Array.getD_eq_getD_getElem?, hx, hpos, Staged.value]
  · by_cases hlt : x < bitWeight n
    · simp [Array.getD_eq_getD_getElem?, hx, Ne.symm hx, hlt, Staged.value]
    · simp [Array.getD_eq_getD_getElem?, hx, hlt, Staged.value]

/-- Symbolic and dense simulation agree. If a circuit runs with two sets of bindings together, those
of the first set taking precedence, then its symbolic state under the first set exists, its open
symbols are those of the circuit that the first set does not bind, and with the second set it
evaluates to the amplitudes of the run. -/
theorem Simulator.symbolicState_evaluate {c : Circuit ℝ} (hc : c.Built) {sim : Simulator}
    {b b' : Bindings ℝ} {σ : Type} [DrawSource σ ℝ] {source : σ} {result : SimulationResult ℝ ℂ}
    (h : sim.runFrom { circuit := c, bindings := b ++ b' } source = .ok result) :
    ∃ s : SymbolicState ℝ ℂ, sim.symbolicState c b = .ok s ∧
      (∀ name, name ∈ s.symbols ↔ name ∈ c.symbols ∧ b.binds name = false) ∧
      ∃ names probabilities amplitudes drift, result = .exact names probabilities amplitudes drift ∧
        s.evaluate b' = .ok ⟨c.width, amplitudes⟩ := by
  obtain ⟨hwidth, hstatic, hbinds, steps, hsteps, names, probabilities, drift, rfl⟩ :=
    Simulator.runFrom_exact rfl h
  obtain ⟨s, sks, hextend, hkernels, hfollows⟩ := SymbolicState.exists_extend hc.orderly
    (fun i hi => hi) (Circuit.not_isConditional_of_static hstatic) hsteps { numQubits := c.width }
  obtain ⟨hqubits, hsymbols⟩ := SymbolicState.extend_spec hextend
  have hopen : ∀ name, name ∈ s.symbols ↔ name ∈ c.symbols ∧ b.binds name = false := by
    intro name
    rw [hsymbols, Circuit.mem_symbols]
    simp
  refine ⟨s, ?_, hopen, names, probabilities, _, drift, rfl, ?_⟩
  · refine Except.bind_eq_ok_iff.2 ⟨c.width, hwidth, ?_⟩
    rw [hstatic]
    exact hextend
  · have hnone : (s.symbols.find? fun name => !b'.binds name) = none := by
      rw [List.find?_eq_none]
      intro name hname
      obtain ⟨hmem, hfree⟩ := (hopen name).1 hname
      have hlater := hbinds name hmem
      simp only [Bindings.binds, List.lookup_append, Option.isSome_or] at hfree hlater ⊢
      simp only [hfree, Bool.false_or] at hlater
      simp [hlater]
    have hstart : (StateVector.zero c.width : StateVector ℂ).amplitudes.size = 2 ^ c.width := by
      simp [StateVector.zero, bitWeight]
    obtain ⟨-, hsettles⟩ := hfollows (Trajectory.start c.width c.numClbits source) hstart
      (settles_zero c.width)
    have hamplitudes : s.amplitudes (AngleFunction.evaluate b') = sks.foldl
        (fun v κ => Staged.applyKernel (stageKernel b' κ) v)
        ((Array.replicate (bitWeight c.width) (.known 0)).setIfInBounds 0 (.known 1)) := by
      rw [SymbolicState.amplitudes, hkernels, hqubits]
      rfl
    rw [SymbolicState.evaluate, hnone]
    simp only [hamplitudes, hsettles.mapM_value, hqubits]

def Circuit.turned : Circuit ℝ := (withSize "turned" 2 1).pushAll
  [.ofGate (.ofStandard .h) [0], .ofGate (.ofStandard (.ry (.symbol "theta"))) [1],
    .ofGate (.ofStandard (.crz (.binary .mul (.symbol "phi") (.symbol "theta")))) [0, 1],
    .ofGate (.ofStandard (.u (.symbol "phi") .pi (.symbol "theta"))) [1], .measure 1 0]

theorem Simulator.symbolicState_evaluate_turned :
    ∃ result : SimulationResult ℝ ℂ,
      (Simulator.mk {}).runFrom { circuit := .turned, bindings := [("theta", 1)] ++
        [("theta", 5), ("phi", 2)] } (fun _ => 0 : ℕ → ℝ) = .ok result ∧
      ∃ s : SymbolicState ℝ ℂ, (Simulator.mk {}).symbolicState .turned [("theta", 1)] = .ok s ∧
        (∀ name, name ∈ s.symbols ↔ name ∈ Circuit.turned.symbols ∧
          Bindings.binds [("theta", (1 : ℝ))] name = false) ∧
        ∃ names probabilities amplitudes drift,
          result = .exact names probabilities amplitudes drift ∧
          s.evaluate [("theta", 5), ("phi", 2)] = .ok ⟨Circuit.turned.width, amplitudes⟩ := by
  have hlist : Circuit.turned.instructions.toList =
    [.ofGate (.ofStandard .h) [0], .ofGate (.ofStandard (.ry (.symbol "theta"))) [1],
      .ofGate (.ofStandard (.crz (.binary .mul (.symbol "phi") (.symbol "theta")))) [0, 1],
      .ofGate (.ofStandard (.u (.symbol "phi") .pi (.symbol "theta"))) [1], .measure 1 0] := by cbv
  have hlower : ∀ i ∈ Circuit.turned.instructions.toList, ∃ steps : List (Step ℂ),
      Step.ofInstruction ([("theta", 1)] ++ [("theta", 5), ("phi", 2)]) false i = .ok steps := by
    rw [hlist]
    simp only [List.forall_mem_cons]
    refine ⟨⟨_, rfl⟩, ⟨_, (Step.ofInstruction_gate_iff rfl).2 ⟨[1], _, ?_, rfl, rfl⟩⟩,
      ⟨_, (Step.ofInstruction_gate_iff rfl).2 ⟨[2 * 1], _, ?_, rfl, rfl⟩⟩,
      ⟨_, (Step.ofInstruction_gate_iff rfl).2 ⟨[2, Real.pi, 1], _, ?_, rfl, rfl⟩⟩,
      ⟨_, rfl⟩, by simp⟩
    · exact Exact.angles_ok_iff.2 (.cons (evaluate_of_eval? rfl) .nil)
    · exact Exact.angles_ok_iff.2 (.cons (evaluate_of_eval? rfl) .nil)
    · exact Exact.angles_ok_iff.2 (.cons (evaluate_of_eval? rfl) (.cons (evaluate_of_eval? rfl)
        (.cons (evaluate_of_eval? rfl) .nil)))
  obtain ⟨steps, hsteps⟩ := Step.exists_ofInstructions_iff.2 hlower
  have hrun : ∃ result : SimulationResult ℝ ℂ,
      (Simulator.mk {}).runFrom { circuit := .turned, bindings := [("theta", 1)] ++
        [("theta", 5), ("phi", 2)] } (fun _ => 0 : ℕ → ℝ) = .ok result :=
    Simulator.exists_runFrom _ (by decide +kernel) (by decide +kernel) (by decide +kernel) hsteps
  obtain ⟨result, hresult⟩ := hrun
  exact ⟨result, hresult,
    Simulator.symbolicState_evaluate ((Circuit.built_withSize _ 2 1).pushAll _) hresult⟩

end Ancilla
