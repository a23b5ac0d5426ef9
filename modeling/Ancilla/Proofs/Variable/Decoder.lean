import Ancilla.Variable.Decoder
import Mathlib.Data.Int.ModEq
import Mathlib.Data.List.Nodup
import Mathlib.Data.Nat.Bitwise
import Mathlib.Tactic.Ring

/-!
Values and the patterns that stand for them. Decoders other than those of fixed-point numbers take
patterns of their width to values one to one: a value is encoded by the pattern that is read as it,
and a value that no pattern of the width is read as is refused. Patterns of 63 bits that have the
bit of a sign are set apart: they are encoded, but reading them leaves the word of 64 bits.
-/

namespace Ancilla

namespace Decoder

variable {width raw : ℕ}

/-- Whether patterns are read without rounding, as all but fixed-point numbers are. -/
def IsDiscrete : Decoder → Prop
  | fixed .. => False
  | _ => True

/-- The patterns of 63 bits that have the bit of a sign: the weight of the sign, taken away, leaves
the word of 64 bits. -/
def LeavesWord (d : Decoder) (raw width : ℕ) : Prop :=
  d = integer true ∧ width = maxNumericWidth ∧ raw.testBit (width - 1) = true

/-! ## Integers -/

section Integers

variable {signed : Bool} {u v : ℤ}

def InRange (width : ℕ) (signed : Bool) (v : ℤ) : Prop :=
  if signed then -2 ^ (width - 1) ≤ v ∧ v < 2 ^ (width - 1) else 0 ≤ v ∧ v < 2 ^ width

theorem cast_bitWeight (n : ℕ) : (bitWeight n : ℤ) = 2 ^ n := by
  have hweight : bitWeight n = 2 ^ n := rfl
  rw [hweight, Nat.cast_pow, Nat.cast_ofNat]

theorem two_pow_width (hwidth : 0 < width) : (2 : ℤ) ^ width = 2 * 2 ^ (width - 1) := by
  rw [← Int.pow_succ', Nat.sub_add_cancel hwidth]

theorem InRange.eq_of_emod (hwidth : 0 < width) (hu : InRange width signed u)
    (hv : InRange width signed v) (h : u % 2 ^ width = v % 2 ^ width) : u = v := by
  have hdvd : (2 : ℤ) ^ width ∣ u - v := Int.ModEq.dvd h.symm
  have hclose : |u - v| < 2 ^ width := by
    unfold InRange at hu hv
    rw [abs_lt]
    have hhalf := two_pow_width hwidth
    cases signed <;> simp only [Bool.false_eq_true, if_true, if_false] at hu hv <;> omega
  exact Int.sub_eq_zero.1 (Int.eq_zero_of_abs_lt_dvd hdvd hclose)

def integerOf (raw width : ℕ) (signed : Bool) : ℤ :=
  if signed && raw.testBit (width - 1) then raw - 2 ^ width else raw

theorem integerOf_emod (hraw : raw < 2 ^ width) :
    integerOf raw width signed % 2 ^ width = raw := by
  have hrest : (raw : ℤ) % 2 ^ width = raw := by exact_mod_cast Nat.mod_eq_of_lt hraw
  unfold integerOf
  split
  · rw [Int.sub_emod_right, hrest]
  · exact hrest

theorem inRange_integerOf (hwidth : 0 < width) (hraw : raw < 2 ^ width) :
    InRange width signed (integerOf raw width signed) := by
  have hcast : (raw : ℤ) < 2 ^ width := by exact_mod_cast hraw
  simp only [integerOf, InRange]
  cases signed with
  | false => simpa using hcast
  | true =>
    have hhalf := two_pow_width hwidth
    -- the sign bit splits the patterns in two halves
    have hsign : raw.testBit (width - 1) = true ↔ (2 : ℤ) ^ (width - 1) ≤ raw := by
      rw [Nat.testBit_eq_decide_div_mod_eq, decide_eq_true_eq]
      have hpow : 2 ^ width = 2 * 2 ^ (width - 1) := by exact_mod_cast hhalf
      have hone : raw / 2 ^ (width - 1) < 2 := Nat.div_lt_of_lt_mul (by omega)
      have hpos : 1 ≤ raw / 2 ^ (width - 1) ↔ 2 ^ (width - 1) ≤ raw :=
        Nat.le_div_iff_mul_le (Nat.two_pow_pos _) |>.trans (by rw [Nat.one_mul])
      have hle : (2 : ℤ) ^ (width - 1) ≤ raw ↔ 2 ^ (width - 1) ≤ raw := by exact_mod_cast Iff.rfl
      have hodd : ∀ k < 2, k % 2 = 1 ↔ 1 ≤ k := by omega
      rw [hle, ← hpos]
      exact hodd _ hone
    simp only [Bool.true_and, hsign, if_true]
    split <;> omega

theorem writeInt_eq_some_iff_inRange : writeInt v width signed = some raw ↔
    InRange width signed v ∧ (v % 2 ^ width).toNat = raw := by
  cases signed <;> simp only [writeInt, intRange, InRange, cast_bitWeight, Int.le_sub_one_iff,
    Bool.false_eq_true, if_true, if_false, ite_eq_iff, Option.some.injEq, reduceCtorEq, and_false,
    or_false]

theorem writeInt_eq_some_iff (hwidth : 0 < width) : writeInt v width signed = some raw ↔
    raw < 2 ^ width ∧ integerOf raw width signed = v := by
  have hpos : (0 : ℤ) < 2 ^ width := Int.pow_pos (by decide)
  rw [writeInt_eq_some_iff_inRange]
  constructor
  · rintro ⟨hv, hrest⟩
    have hcast : (raw : ℤ) = v % 2 ^ width := by
      rw [← hrest, Int.toNat_of_nonneg (Int.emod_nonneg v hpos.ne')]
    have hraw : raw < 2 ^ width := by
      have hlt := Int.emod_lt_of_pos v hpos
      rw [← hcast] at hlt
      exact_mod_cast hlt
    have hsame : integerOf raw width signed % 2 ^ width = v % 2 ^ width :=
      (integerOf_emod hraw).trans hcast
    exact ⟨hraw, (inRange_integerOf hwidth hraw).eq_of_emod hwidth hv hsame⟩
  · rintro ⟨hraw, rfl⟩
    exact ⟨inRange_integerOf hwidth hraw, by rw [integerOf_emod hraw, Int.toNat_natCast]⟩

theorem exists_writeInt_iff : (∃ raw, writeInt v width signed = some raw) ↔
    InRange width signed v := by
  simp only [writeInt_eq_some_iff_inRange, exists_and_left, exists_eq', and_true]

theorem readInt?_eq (hpos : 0 < width) (hmax : width ≤ 63) (hraw : raw < 2 ^ width)
    (hword : ¬ (integer signed).LeavesWord raw width) :
    readInt? raw width signed = some (integerOf raw width signed) := by
  have hshift : (64 ≤ width || signed && width = 0) = false := by
    simp only [Bool.or_eq_false_iff, Bool.and_eq_false_iff, decide_eq_false_iff_not]
    omega
  have hlow : raw % bitWeight width = raw := Nat.mod_eq_of_lt hraw
  simp only [readInt?, hshift, hlow, cast_bitWeight, integerOf, Bool.false_eq_true, if_false]
  split
  case isTrue hsign =>
    obtain ⟨hsigned, hbit⟩ := Bool.and_eq_true_iff.1 hsign
    have hshort : width ≤ 62 := by
      have hne : width ≠ 63 := fun h => hword ⟨congrArg integer hsigned, h, hbit⟩
      omega
    have hweight : (2 : ℤ) ^ width ≤ 2 ^ 62 := by
      exact_mod_cast Nat.pow_le_pow_right (by decide) hshort
    have hcast : (raw : ℤ) < 2 ^ width := by exact_mod_cast hraw
    have hbound : (Word.bound64 : ℤ) = 2 ^ 64 := by decide
    have hhalf : Word.half64 = 2 ^ 63 := by decide
    have hkept : ((2 : ℤ) ^ width).bmod Word.bound64 = 2 ^ width :=
      Int.bmod_eq_of_le_mul_two (by omega) (by omega)
    rw [hkept]
    exact if_pos ⟨by omega, by omega⟩
  case isFalse => rfl

theorem readInt?_sign (hraw : raw < 2 ^ 63) (hsign : raw.testBit 62 = true) :
    readInt? raw 63 true = none := by
  have hlow : raw % bitWeight 63 = raw := Nat.mod_eq_of_lt hraw
  have hweight : (bitWeight 63 : ℤ).bmod Word.bound64 = -Word.half64 := by decide
  have hnot : ¬ (-Word.half64 ≤ (raw : ℤ) - -Word.half64 ∧ raw - -Word.half64 < Word.half64) := by
    generalize Word.half64 = half
    omega
  have hshift : (64 ≤ 63 || true && 63 = 0) = false := by decide
  rw [readInt?, hshift]
  simp only [hlow, hweight, hsign, Bool.false_eq_true, if_false, Bool.and_self, if_true]
  exact if_neg hnot

end Integers

/-! ## Characters -/

theorem findIdx?_alphabet_iff {c : Char} : alphabet.findIdx? (fun a => a = c) = some raw ↔
    raw < 2 ^ charWidth ∧ alphabet.getD (raw % 32) 'a' = c := by
  have hlength : alphabet.length = 2 ^ charWidth := by decide
  have hnodup : alphabet.Nodup := by decide
  have hmod : raw < 2 ^ charWidth → raw % 32 = raw := Nat.mod_eq_of_lt
  rw [List.findIdx?_eq_some_iff_getElem]
  constructor
  · rintro ⟨hraw, hc, -⟩
    rw [hlength] at hraw
    refine ⟨hraw, ?_⟩
    rw [hmod hraw, List.getD_eq_getElem _ _ (hlength.symm ▸ hraw)]
    exact of_decide_eq_true hc
  · rintro ⟨hraw, rfl⟩
    have hlt : raw < alphabet.length := hlength.symm ▸ hraw
    rw [hmod hraw, List.getD_eq_getElem _ _ hlt]
    refine ⟨hlt, decide_eq_true rfl, fun j hj heq => ?_⟩
    exact hj.ne (hnodup.getElem_inj_iff.1 (of_decide_eq_true heq))

/-! ## Bit strings -/

def digits (raw : ℕ) : ℕ → List Char
  | 0 => []
  | width + 1 => (if raw.testBit width then '1' else '0') :: digits raw width

theorem digits_eq (raw width : ℕ) : digits raw width =
    (List.range width).reverse.map fun i => if raw.testBit i then '1' else '0' := by
  induction width with
  | zero => rfl
  | succ width ih =>
    rw [digits, ih, List.range_succ, List.reverse_append, List.reverse_singleton,
      List.singleton_append, List.map_cons]

theorem length_digits (raw width : ℕ) : (digits raw width).length = width := by
  induction width with
  | zero => rfl
  | succ width ih => rw [digits, List.length_cons, ih]

theorem utf8ByteSize_digits (raw width : ℕ) :
    (String.ofList (digits raw width)).utf8ByteSize = width := by
  induction width with
  | zero => rfl
  | succ width ih =>
    have hone : (if raw.testBit width then '1' else '0').utf8Size = 1 := by
      split <;> rfl
    rw [digits, String.ofList_cons, String.utf8ByteSize_append, String.utf8ByteSize_singleton, ih,
      hone, Nat.add_comm]

theorem readBinary_cons {acc : ℕ} {c : Char} {cs : List Char} :
    readBinary acc (c :: cs) = some raw ↔
      ∃ b : Bool, c = (if b then '1' else '0') ∧ readBinary (2 * acc + b.toNat) cs = some raw := by
  by_cases hzero : c = '0'
  · simp [hzero, readBinary]
  · by_cases hone : c = '1'
    · simp [hone, readBinary]
    · simp [readBinary, hzero, hone]

theorem readBinary_eq_some_iff {acc : ℕ} {cs : List Char} : readBinary acc cs = some raw ↔
    raw / 2 ^ cs.length = acc ∧ digits raw cs.length = cs := by
  induction cs generalizing acc with
  | nil => simp [readBinary, digits, eq_comm]
  | cons c cs ih =>
    have hhalf : raw / 2 ^ (cs.length + 1) = raw / 2 ^ cs.length / 2 := by
      rw [Nat.pow_succ, Nat.div_div_eq_div_mul]
    have hbit : raw.testBit cs.length = decide (raw / 2 ^ cs.length % 2 = 1) :=
      Nat.testBit_eq_decide_div_mod_eq
    simp only [readBinary_cons, ih, List.length_cons, digits, List.cons.injEq, hhalf, hbit]
    generalize raw / 2 ^ cs.length = high
    constructor
    · rintro ⟨b, rfl, rfl, hcs⟩
      cases b <;> simp [hcs]; omega
    · rintro ⟨rfl, rfl, hcs⟩
      refine ⟨decide (high % 2 = 1), rfl, ?_, hcs⟩
      by_cases hodd : high % 2 = 1 <;> simp [hodd] <;> omega

theorem readBinary_text_iff {s : String} :
    s.utf8ByteSize = width ∧ readBinary 0 s.toList = some raw ↔
      raw < 2 ^ width ∧ String.ofList (digits raw width) = s := by
  rw [readBinary_eq_some_iff]
  constructor
  · rintro ⟨rfl, hhigh, hdigits⟩
    have hbytes : s.utf8ByteSize = s.toList.length := by
      rw [← utf8ByteSize_digits raw s.toList.length, hdigits, String.ofList_toList]
    rw [hbytes, hdigits, String.ofList_toList]
    exact ⟨(Nat.div_eq_zero_iff.1 hhigh).resolve_left (Nat.two_pow_pos _).ne', rfl⟩
  · rintro ⟨hraw, rfl⟩
    rw [String.toList_ofList, length_digits]
    exact ⟨utf8ByteSize_digits raw width, Nat.div_eq_of_lt hraw, rfl⟩

/-! ## Values -/

theorem checkWidth_eq_ok_iff {d : Decoder} :
    d.checkWidth width = .ok () ↔ d.accepts width = true := by
  unfold checkWidth
  split <;> simp_all

theorem bounds_of_accepts {signed : Bool} (h : (integer signed).accepts width = true) :
    0 < width ∧ width ≤ 63 := by
  simp only [accepts, Bool.and_eq_true, decide_eq_true_eq] at h
  exact h

section Values

variable {v : Value}

/-- The value that a pattern of its width stands for, whatever words it is read in. -/
def meaning (d : Decoder) (raw width : ℕ) : Value :=
  match d with
  | integer signed => .int (integerOf raw width signed)
  | fixed exponent signed =>
    .real (Float.ofInt (integerOf raw width signed) * powerOfTwo exponent)
  | boolean => .bool (raw.testBit 0)
  | char => .char (alphabet.getD (raw % 32) 'a')
  | bitstring => .bits (String.ofList (digits raw width))

theorem encode_integer_iff {signed : Bool} (hwidth : (integer signed).accepts width = true) :
    (integer signed).encode v width = .ok raw ↔
      raw < 2 ^ width ∧ (integer signed).meaning raw width = v := by
  have hcheck := checkWidth_eq_ok_iff.2 hwidth
  unfold encode
  rw [hcheck]
  cases v with
  | int n =>
    rw [meaning, Value.int.injEq, ← writeInt_eq_some_iff (bounds_of_accepts hwidth).1]
    cases hwrite : writeInt n width signed with
    | none => simp [bind, Except.bind, hwrite]
    | some r => simp [bind, Except.bind, hwrite, pure, Except.pure]
  | _ => simp [bind, Except.bind, meaning]

theorem encode_boolean_iff :
    boolean.encode v 1 = .ok raw ↔ raw < 2 ^ 1 ∧ boolean.meaning raw 1 = v := by
  cases v with
  | bool b =>
    have hencode : boolean.encode (.bool b) 1 = .ok (if b then 1 else 0) := rfl
    have hbits : ∀ r < 2, r.testBit 0 = b ↔ (if b then 1 else 0) = r := by
      cases b <;> decide
    rw [hencode, Except.ok.injEq, meaning, Value.bool.injEq]
    constructor
    · rintro rfl
      cases b <;> decide
    · rintro ⟨hraw, hread⟩
      exact (hbits raw hraw).1 hread
  | _ => simp [encode, checkWidth, accepts, bind, Except.bind, meaning]

theorem encode_char_iff : char.encode v charWidth = .ok raw ↔
    raw < 2 ^ charWidth ∧ char.meaning raw charWidth = v := by
  have hcheck : char.checkWidth charWidth = .ok () := rfl
  unfold encode
  rw [hcheck]
  cases v with
  | char c =>
    rw [meaning, Value.char.injEq, ← findIdx?_alphabet_iff]
    cases hfind : alphabet.findIdx? fun a => a = c with
    | none => simp [bind, Except.bind, hfind]
    | some i => simp [bind, Except.bind, hfind, pure, Except.pure]
  | _ => simp [bind, Except.bind, meaning]

theorem encode_bitstring_iff (hwidth : bitstring.accepts width = true) :
    bitstring.encode v width = .ok raw ↔
      raw < 2 ^ width ∧ bitstring.meaning raw width = v := by
  have hcheck := checkWidth_eq_ok_iff.2 hwidth
  unfold encode
  rw [hcheck]
  cases v with
  | bits s =>
    rw [meaning, Value.bits.injEq, ← readBinary_text_iff]
    by_cases hbytes : s.utf8ByteSize = width
    · cases hread : readBinary 0 s.toList with
      | none => simp [bind, Except.bind, hbytes, hread]
      | some r => simp [bind, Except.bind, hbytes, hread, pure, Except.pure]
    · simp [bind, Except.bind, hbytes]
  | _ => simp [bind, Except.bind, meaning]

theorem encode_eq_ok_iff {d : Decoder} (hd : d.IsDiscrete) (hwidth : d.accepts width = true) :
    d.encode v width = .ok raw ↔ raw < 2 ^ width ∧ d.meaning raw width = v := by
  cases d with
  | integer signed => exact encode_integer_iff hwidth
  | fixed exponent signed => exact hd.elim
  | boolean =>
    obtain rfl : width = 1 := of_decide_eq_true hwidth
    exact encode_boolean_iff
  | char =>
    obtain rfl : width = charWidth := of_decide_eq_true hwidth
    exact encode_char_iff
  | bitstring => exact encode_bitstring_iff hwidth

theorem decode_eq_meaning {d : Decoder} (hd : d.IsDiscrete) (hwidth : d.accepts width = true)
    (hraw : raw < 2 ^ width) (hword : ¬ d.LeavesWord raw width) :
    d.decode raw width = some (d.meaning raw width) := by
  cases d with
  | integer signed =>
    obtain ⟨hpos, hmax⟩ := bounds_of_accepts hwidth
    rw [decode, meaning, readInt?_eq hpos hmax hraw hword, Option.map_some]
  | fixed exponent signed => exact hd.elim
  | boolean => rfl
  | char => rfl
  | bitstring =>
    have hmax : ¬ 64 < width := by
      simp only [accepts, Bool.and_eq_true, decide_eq_true_eq] at hwidth
      exact hwidth.2.not_gt
    rw [decode, if_neg hmax, meaning, digits_eq]

theorem LeavesWord.decode {d : Decoder} (h : d.LeavesWord raw width) (hraw : raw < 2 ^ width) :
    d.decode raw width = none := by
  obtain ⟨rfl, rfl, hsign⟩ := h
  rw [Decoder.decode, maxNumericWidth, readInt?_sign hraw hsign, Option.map_none]

theorem decode_eq_none_iff {d : Decoder} (hd : d.IsDiscrete) (hwidth : d.accepts width = true)
    (hraw : raw < 2 ^ width) : d.decode raw width = none ↔ d.LeavesWord raw width := by
  refine ⟨fun hnone => ?_, fun hword => hword.decode hraw⟩
  by_contra hword
  rw [decode_eq_meaning hd hwidth hraw hword] at hnone
  exact Option.some_ne_none _ hnone

theorem exists_encode_int_iff {signed : Bool} (hwidth : (integer signed).accepts width = true)
    {n : ℤ} :
    (∃ raw, (integer signed).encode (.int n) width = .ok raw) ↔ InRange width signed n := by
  have hwrite : ∀ raw, (integer signed).encode (.int n) width = .ok raw ↔
      writeInt n width signed = some raw := by
    intro raw
    rw [encode_integer_iff hwidth, meaning, Value.int.injEq,
      writeInt_eq_some_iff (bounds_of_accepts hwidth).1]
  simp only [hwrite, exists_writeInt_iff]

end Values

end Decoder

end Ancilla
