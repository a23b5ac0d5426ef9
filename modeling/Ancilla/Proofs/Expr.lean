import Ancilla.Expr
import Ancilla.Proofs.Sets

/-!
Symbols and values of angle expressions. Folding changes neither, and binding some symbols first and
the others later gives the value that all bindings together give, the earlier ones first.
-/

namespace Ancilla.Expr

section Symbols

variable {R : Type}

def Mentions (name : String) : Expr R → Prop
  | constant _ => False
  | symbol n => name = n
  | pi => False
  | neg e => e.Mentions name
  | binary _ a b => a.Mentions name ∨ b.Mentions name

theorem mem_collectSymbols (e : Expr R) (acc : List String) (name : String) :
    name ∈ e.collectSymbols acc ↔ name ∈ acc ∨ e.Mentions name := by
  induction e generalizing acc with
  | constant v => simp [collectSymbols, Mentions]
  | symbol n =>
    rw [collectSymbols, Ordered.mem_insert, Mentions]
    exact Or.comm
  | pi => simp [collectSymbols, Mentions]
  | neg e ih => exact ih acc
  | binary op a b iha ihb => rw [collectSymbols, ihb, iha, Mentions, or_assoc]

theorem mem_foldl_collectSymbols (es : List (Expr R)) (acc : List String) (name : String) :
    name ∈ es.foldl (fun acc e => e.collectSymbols acc) acc ↔
      name ∈ acc ∨ ∃ e ∈ es, e.Mentions name := by
  induction es generalizing acc with
  | nil => simp
  | cons e es ih => rw [List.foldl_cons, ih, mem_collectSymbols, List.exists_mem_cons_iff, or_assoc]

theorem mem_symbols (e : Expr R) (name : String) : name ∈ e.symbols ↔ e.Mentions name := by
  rw [symbols, mem_collectSymbols]
  simp

theorem ascending_collectSymbols (e : Expr R) {acc : List String} (h : Ordered.Ascending acc) :
    Ordered.Ascending (e.collectSymbols acc) := by
  induction e generalizing acc with
  | constant v => exact h
  | symbol n => exact Ordered.ascending_insert n h
  | pi => exact h
  | neg e ih => exact ih h
  | binary op a b iha ihb => exact ihb (iha h)

theorem ascending_symbols (e : Expr R) : Ordered.Ascending e.symbols :=
  ascending_collectSymbols e .nil

theorem mentions_substitute (f : String → Option R) (e : Expr R) (name : String) :
    (e.substitute f).Mentions name ↔ e.Mentions name ∧ f name = none := by
  induction e with
  | constant v => simp [substitute, Mentions]
  | symbol n =>
    unfold substitute
    cases hn : f n with
    | some v => simp only [Mentions]; grind
    | none => simp only [Mentions]; grind
  | pi => simp [substitute, Mentions]
  | neg e ih => exact ih
  | binary op a b iha ihb => rw [substitute, Mentions, iha, ihb, Mentions, or_and_right]

end Symbols

variable {R : Type} [Scalar R]

/-! ## Folding -/

theorem not_mentions_of_value? {e : Expr R} {v : R} (h : e.value? = some v) (name : String) :
    ¬ e.Mentions name := by
  induction e generalizing v with
  | constant w => exact fun hm => hm
  | symbol n => cases h
  | pi => exact fun hm => hm
  | neg e ih =>
    obtain ⟨w, hw, -⟩ := Option.map_eq_some_iff.1 h
    exact ih hw
  | binary op a b iha ihb =>
    obtain ⟨x, hx, h⟩ := Option.bind_eq_some_iff.1 h
    obtain ⟨y, hy, -⟩ := Option.bind_eq_some_iff.1 h
    rintro (hm | hm)
    · exact iha hx hm
    · exact ihb hy hm

theorem fold?_eq_some {op : ArithOp} {x y v : R} (h : op.fold? x y = some v) :
    op.apply x y = v := by
  cases op with
  | div =>
    by_cases hy : (y == Scalar.zero) = true
    · simp [ArithOp.fold?, hy] at h
    · simpa [ArithOp.fold?, ArithOp.apply, hy] using h
  | add | sub | mul => exact Option.some.inj h

theorem eval?_of_value? {e : Expr R} {v : R} (h : e.value? = some v) (b : Bindings R) :
    e.eval? b = some v := by
  induction e generalizing v with
  | constant w => exact h
  | symbol n => cases h
  | pi => exact h
  | neg e ih =>
    obtain ⟨w, hw, rfl⟩ := Option.map_eq_some_iff.1 h
    rw [eval?, ih hw]
    rfl
  | binary op x y ihx ihy =>
    obtain ⟨u, hu, h⟩ := Option.bind_eq_some_iff.1 h
    obtain ⟨w, hw, h⟩ := Option.bind_eq_some_iff.1 h
    rw [eval?, ihx hu, ihy hw, ← fold?_eq_some h]
    rfl

theorem join_cases (op : ArithOp) (a b : Expr R) :
    join op a b = binary op a b ∨
      ∃ v, (binary op a b).value? = some v ∧ join op a b = constant v := by
  unfold join
  cases ha : a.value? with
  | none => exact .inl rfl
  | some x =>
    cases hb : b.value? with
    | none => exact .inl rfl
    | some y =>
      cases hv : op.fold? x y with
      | none => exact .inl (by simp [hv])
      | some v =>
        have hvalue : (binary op a b).value? = some v := by
          rw [value?, ha, hb]
          exact hv
        exact .inr ⟨v, hvalue, by simp [hv]⟩

theorem simplify_spec (e : Expr R) :
    (∀ name, e.simplify.Mentions name ↔ e.Mentions name) ∧ ∀ b, e.simplify.eval? b = e.eval? b := by
  -- wherever an expression is folded to a number, it mentions no symbol
  have hconstant : ∀ {e : Expr R} {v : R}, e.value? = some v →
      (∀ name, (constant v).Mentions name ↔ e.Mentions name) ∧
        ∀ b, (constant v).eval? b = e.eval? b := fun hv =>
    ⟨fun name => ⟨False.elim, not_mentions_of_value? hv name⟩, fun b => (eval?_of_value? hv b).symm⟩
  induction e with
  | constant v => exact ⟨fun _ => Iff.rfl, fun _ => rfl⟩
  | symbol n => exact ⟨fun _ => Iff.rfl, fun _ => rfl⟩
  | pi => exact ⟨fun _ => Iff.rfl, fun _ => rfl⟩
  | neg e ih =>
    unfold simplify
    cases hv : (neg e).value? with
    | some v => exact hconstant hv
    | none =>
      simp only []
      cases hw : e.simplify.value? with
      | some w =>
        have hneg : e.simplify.neg.value? = some (-w) := by
          rw [value?, hw]
          rfl
        obtain ⟨hm, he⟩ := hconstant hneg
        refine ⟨fun name => (hm name).trans (ih.1 name), fun b => (he b).trans ?_⟩
        rw [eval?, ih.2, eval?]
      | none =>
        refine ⟨ih.1, fun b => ?_⟩
        rw [eval?, ih.2, eval?]
  | binary op x y ihx ihy =>
    unfold simplify
    cases hv : (binary op x y).value? with
    | some v => exact hconstant hv
    | none =>
      have hboth : (∀ name, (binary op x.simplify y.simplify).Mentions name ↔
          (binary op x y).Mentions name) ∧
          ∀ b, (binary op x.simplify y.simplify).eval? b = (binary op x y).eval? b := by
        refine ⟨fun name => or_congr (ihx.1 name) (ihy.1 name), fun b => ?_⟩
        rw [eval?, ihx.2, ihy.2, eval?]
      simp only []
      rcases join_cases op x.simplify y.simplify with hj | ⟨v, hv, hj⟩
      · rw [hj]
        exact hboth
      · rw [hj]
        obtain ⟨hm, he⟩ := hconstant hv
        exact ⟨fun name => (hm name).trans (hboth.1 name), fun b => (he b).trans (hboth.2 b)⟩

/-! ## Binding -/

theorem eval?_substitute (b b' : Bindings R) (e : Expr R) :
    (e.substitute fun name => b.lookup name).eval? b' = e.eval? (b ++ b') := by
  induction e with
  | constant v => rfl
  | symbol n =>
    rw [eval?, List.lookup_append, substitute]
    cases b.lookup n <;> rfl
  | pi => rfl
  | neg e ih => rw [substitute, eval?, ih, eval?]
  | binary op x y ihx ihy => rw [substitute, eval?, ihx, ihy, eval?]

theorem eval?_bindAll (b b' : Bindings R) (e : Expr R) :
    (e.bindAll b).eval? b' = e.eval? (b ++ b') := by
  rw [bindAll, (simplify_spec _).2, eval?_substitute]

theorem mentions_bindAll (b : Bindings R) (e : Expr R) (name : String) :
    (e.bindAll b).Mentions name ↔ e.Mentions name ∧ b.binds name = false := by
  rw [bindAll, (simplify_spec _).1, mentions_substitute, Bindings.binds, Option.isSome_eq_false_iff,
    Option.isNone_iff_eq_none]

theorem symbols_simplify (e : Expr R) : e.simplify.symbols = e.symbols := by
  refine (ascending_symbols _).eq_of_mem_iff (ascending_symbols _) fun name => ?_
  rw [mem_symbols, mem_symbols, (simplify_spec e).1]

theorem symbols_bindAll (b : Bindings R) (e : Expr R) :
    (e.bindAll b).symbols = e.symbols.filter fun name => !b.binds name := by
  have hfiltered : Ordered.Ascending (e.symbols.filter fun name => !b.binds name) :=
    (ascending_symbols e).filter _
  refine (ascending_symbols _).eq_of_mem_iff hfiltered fun name => ?_
  rw [mem_symbols, mentions_bindAll, List.mem_filter, mem_symbols, Bool.not_eq_true']

omit [Scalar R] in
theorem binds_append (b b' : Bindings R) (name : String) :
    (b ++ b').binds name = (b.binds name || b'.binds name) := by
  rw [Bindings.binds, Bindings.binds, Bindings.binds, List.lookup_append]
  cases b.lookup name <;> rfl

theorem binds_of_eval? {b : Bindings R} {e : Expr R} {v : R} (h : e.eval? b = some v)
    {name : String} (hm : e.Mentions name) : b.binds name = true := by
  induction e generalizing v with
  | constant w => exact hm.elim
  | symbol n =>
    rw [Bindings.binds, (show name = n from hm), (show b.lookup n = some v from h)]
    rfl
  | pi => exact hm.elim
  | neg e ih =>
    obtain ⟨w, hw, -⟩ := Option.map_eq_some_iff.1 h
    exact ih hw hm
  | binary op x y ihx ihy =>
    obtain ⟨u, hu, h⟩ := Option.bind_eq_some_iff.1 h
    obtain ⟨w, hw, -⟩ := Option.bind_eq_some_iff.1 h
    rcases hm with hm | hm
    · exact ihx hu hm
    · exact ihy hw hm

theorem evaluate_ok_iff {b : Bindings R} {e : Expr R} {v : R} :
    e.evaluate b = .ok v ↔ e.eval? b = some v ∧ Scalar.isFinite v = true := by
  unfold evaluate
  cases hfind : e.symbols.find? fun name => !b.binds name with
  | some name =>
    have hunbound := List.find?_some hfind
    have hmem := (mem_symbols e name).1 (List.mem_of_find?_eq_some hfind)
    constructor
    · intro h
      cases h
    · rintro ⟨h, -⟩
      simp [binds_of_eval? h hmem] at hunbound
  | none =>
    cases e.eval? b with
    | none => simp
    | some w =>
      simp only [Option.some.injEq]
      split
      · next hfinite => grind
      · next hfinite => grind

/-! ## Evaluation in stages -/

/-- The same value, the same symbol without a value, or in both cases no ordinary number, whatever
the text of the expressions. -/
def Agree : Except ParameterError R → Except ParameterError R → Prop
  | .ok v, .ok w => v = w
  | .error (.unbound m), .error (.unbound n) => m = n
  | .error (.nonFinite _), .error (.nonFinite _) => True
  | _, _ => False

theorem agree_evaluate {e e' : Expr R} {b b' : Bindings R}
    (hmissing : (e.symbols.find? fun name => !b.binds name) =
      e'.symbols.find? fun name => !b'.binds name) (hvalue : e.eval? b = e'.eval? b') :
    Agree (e.evaluate b) (e'.evaluate b') := by
  unfold evaluate
  rw [hmissing, hvalue]
  cases e'.symbols.find? fun name => !b'.binds name with
  | some name => exact rfl
  | none =>
    cases e'.eval? b' with
    | none => trivial
    | some v =>
      simp only []
      split
      · rfl
      · trivial

theorem agree_simplify (b : Bindings R) (e : Expr R) :
    Agree (e.simplify.evaluate b) (e.evaluate b) :=
  agree_evaluate (by rw [symbols_simplify]) ((simplify_spec e).2 b)

/-- Folding changes neither the symbols nor what evaluation gives under any bindings; binding takes
its symbols away and no others; and to bind some symbols and evaluate under further bindings gives
what evaluation under both gives, those made first taking precedence. -/
theorem staged_binding (e : Expr R) :
    e.simplify.symbols = e.symbols ∧ (∀ b, Agree (e.simplify.evaluate b) (e.evaluate b)) ∧
      ∀ b : Bindings R, (e.bindAll b).symbols = e.symbols.filter (fun name => !b.binds name) ∧
        ∀ b', Agree ((e.bindAll b).evaluate b') (e.evaluate (b ++ b')) := by
  refine ⟨symbols_simplify e, fun b => agree_simplify b e, fun b => ⟨symbols_bindAll b e, fun b' => ?_⟩⟩
  refine agree_evaluate ?_ (eval?_bindAll b b' e)
  rw [symbols_bindAll, List.find?_filter]
  congr 1
  funext name
  rw [binds_append]
  cases b.binds name <;> cases b'.binds name <;> rfl

end Ancilla.Expr
