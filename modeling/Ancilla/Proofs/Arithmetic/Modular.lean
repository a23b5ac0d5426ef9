import Ancilla.Arithmetic.Modular
import Ancilla.Proofs.Arithmetic.Fourier
import Ancilla.Proofs.Arithmetic.NumberTheory
import Ancilla.Proofs.Session.Steady

/-!
Modular arithmetic on basis states. An addition goes through the states that hold an intermediate
number in the register and a bit in the flag; the intermediate numbers lie within half the size of
the register on both sides of 0, so that the top qubit reads their sign.
-/

namespace Ancilla.Modular

open Build Operator Ancilla.Fourier
open Ancilla.NumberTheory (mulMod)

/-! ## A register and a flag -/

/-- The basis state with a number in a register, modulo its size, and a reading of a flag. -/
def staged (b : List ℕ) (flag y : ℕ) (v : ℤ) (f : Bool) : ℕ :=
  write b (v % 2 ^ b.length).toNat (setBit y flag f)

variable {b : List ℕ} {flag y : ℕ}

theorem reading_staged (hb : b.Nodup) (v : ℤ) (f : Bool) :
    (reading b (staged b flag y v f) : ℤ) = v % 2 ^ b.length := by
  rw [staged, reading_write_of_lt hb (toNat_emod_lt v b.length),
    Int.toNat_of_nonneg (Int.emod_nonneg v (by positivity))]

theorem addTo_staged (hb : b.Nodup) (c v : ℤ) (f : Bool) :
    addTo b c (staged b flag y v f) = staged b flag y (v + c) f := by
  rw [addTo, reading_staged hb, Int.emod_add_emod, staged, staged,
    write_write hb (toNat_emod_lt _ _)]

theorem testBit_flag_staged (hflag : flag ∉ b) (v : ℤ) (f : Bool) :
    (staged b flag y v f).testBit flag = f := by
  rw [staged, testBit_write_of_not_mem hflag, testBit_setBit_self]

theorem toggle_staged (hb : b.Nodup) (hflag : flag ∉ b) (v : ℤ) (f : Bool) :
    toggle (staged b flag y v f) flag = staged b flag y v !f := by
  refine (eq_write_iff hb (toNat_emod_lt v b.length)).2 ⟨?_, fun p hp => ?_⟩
  · have hsame : reading b (toggle (staged b flag y v f) flag) = reading b (staged b flag y v f) :=
      reading_congr fun p hp => testBit_toggle_of_ne _ fun heq => hflag (heq ▸ hp)
    rw [hsame, staged, reading_write_of_lt hb (toNat_emod_lt v b.length)]
  · by_cases heq : p = flag
    · rw [heq, testBit_toggle_self, testBit_flag_staged hflag, testBit_setBit_self]
    · rw [testBit_toggle_of_ne _ heq, staged, testBit_write_of_not_mem hp,
        testBit_setBit_of_ne y heq, testBit_setBit_of_ne y heq]

theorem allRead_staged {cs : List ℕ} (hcs : ∀ q ∈ flag :: b, q ∉ cs) (v : ℤ) (f : Bool) :
    AllRead cs (staged b flag y v f) ↔ AllRead cs y := by
  rw [staged, allRead_write fun c hc hb => hcs c (List.mem_cons_of_mem _ hb) hc]
  refine forall₂_congr fun c hc => ?_
  have hne : c ≠ flag := fun heq => hcs flag List.mem_cons_self (heq ▸ hc)
  rw [testBit_setBit_of_ne y hne]

theorem testBit_top_staged {low : List ℕ} {top : ℕ} (hb : (low ++ [top]).Nodup) {v : ℤ}
    (hv : -2 ^ low.length ≤ v) (hv' : v < 2 ^ low.length) (f : Bool) :
    (staged (low ++ [top]) flag y v f).testBit top = decide (v < 0) := by
  rw [Bool.eq_iff_iff, testBit_last_iff low top, decide_eq_true_iff]
  zify
  rw [reading_staged hb, List.length_append, List.length_singleton, pow_succ]
  generalize (2 : ℤ) ^ low.length = m at hv hv' ⊢
  by_cases hneg : v < 0
  · have hwrap : v % (m * 2) = v + m * 2 := by
      rw [← Int.add_emod_right, Int.emod_eq_of_lt (by omega) (by omega)]
    omega
  · rw [Int.emod_eq_of_lt (by omega) (by omega)]
    omega

theorem staged_reading (hb : b.Nodup) (hflag : y.testBit flag = false) :
    staged b flag y (reading b y) false = y := by
  have hlt : (reading b y : ℤ) < 2 ^ b.length := by exact_mod_cast reading_lt b y
  rw [staged, Int.emod_eq_of_lt (Int.natCast_nonneg _) hlt, Int.toNat_natCast, setBit, if_pos hflag,
    write_reading hb]

theorem staged_natCast {v : ℕ} (hv : v < 2 ^ b.length) (hflag : y.testBit flag = false) :
    staged b flag y v false = write b v y := by
  have hlt : (v : ℤ) < 2 ^ b.length := by exact_mod_cast hv
  rw [staged, Int.emod_eq_of_lt (Int.natCast_nonneg _) hlt, Int.toNat_natCast, setBit, if_pos hflag]

/-! ## Addition -/

/-- A register and a flag with which numbers below the modulus are added. -/
structure Workspace (b : List QubitId) (flag : QubitId) (modulus : ℕ) : Prop where
  wide : 1 < b.length
  narrow : b.length ≤ Synthesis.maxWidth + 1
  nodup : (flag :: b).Nodup
  two_le : 2 ≤ modulus
  fits : modulus ≤ 2 ^ (b.length - 1)

noncomputable def shift (b : List QubitId) (c : ℤ) : Operator ℂ :=
  diagonal fun x => turn (c * fraction 0 b x)

noncomputable def copy (control target : QubitId) : Operator ℂ :=
  controlled [control] (onQubit Kernel.flip target)

noncomputable def compare (b : List QubitId) (top flag : QubitId) : Operator ℂ :=
  Ring.inverse (Ring.inverse (operator b)) * copy top flag * Ring.inverse (operator b)

noncomputable def compareInverted (b : List QubitId) (top flag : QubitId) : Operator ℂ :=
  Ring.inverse (onQubit Kernel.flip top * Ring.inverse (operator b)) * copy top flag *
    (onQubit Kernel.flip top * Ring.inverse (operator b))

noncomputable def clearFlag (b : List QubitId) (top : QubitId) (a : ℤ) (flag : QubitId)
    (controls : List QubitId) : Operator ℂ :=
  Ring.inverse (controlled controls (shift b (-a))) * compareInverted b top flag *
    controlled controls (shift b (-a))

noncomputable def addition (b : List QubitId) (top : QubitId) (a modulus : ℕ) (flag : QubitId)
    (controls : List QubitId) : Operator ℂ :=
  clearFlag b top (a % modulus : ℕ) flag controls * controlled [flag] (shift b modulus) *
    compare b top flag * shift b (-modulus) * controlled controls (shift b (a % modulus : ℕ))

theorem copy_ket (control target y : ℕ) : copy control target (ket y) =
    ket (if y.testBit control then toggle y target else y) := by
  rw [copy, controlled_ket, flip_ket]
  simp only [AllRead, List.mem_singleton, forall_eq]
  split <;> rfl

theorem checkModulus_ok {modulus w : ℕ} (hpos : 0 < w) (hw : w ≤ Synthesis.maxWidth)
    (htwo : 2 ≤ modulus) (hfits : modulus ≤ 2 ^ w) (name : String) :
    checkModulus name modulus w = .ok () := by
  have hwidth : Synthesis.checkWidth name w = .ok () := if_neg (by omega)
  have hrange : ¬(modulus < 2 ∨ bitWeight w < modulus) := by
    rw [bitWeight, Nat.pow_eq]
    omega
  unfold checkModulus
  rw [hwidth]
  simp only [bind, Except.bind, if_neg hrange]
  rfl

/-- A sum of residues is found by a subtraction that is taken back if it went too far. -/
theorem emod_sum {r s n : ℕ} (hr : r < n) (hs : s < n) :
    (((r + s) % n : ℕ) : ℤ) = r + s + -n + if decide ((r : ℤ) + s + -n < 0) then (n : ℤ) else 0 := by
  by_cases hless : r + s < n
  · rw [Nat.mod_eq_of_lt hless, if_pos (decide_eq_true (by omega))]
    omega
  · rw [Nat.mod_eq_sub_mod (Nat.le_of_not_lt hless), Nat.mod_eq_of_lt (by omega),
      if_neg (by simp only [decide_eq_true_iff]; omega)]
    omega

theorem sign_sum {r s n : ℕ} (hr : r < n) (hs : s < n) :
    decide ((r : ℤ) + s + -n < 0) = !decide ((((r + s) % n : ℕ) : ℤ) + -s < 0) := by
  rw [emod_sum hr hs]
  by_cases hless : (r : ℤ) + s + -n < 0
  · have hkept : ¬(r : ℤ) + s + -n + n + -s < 0 := by omega
    simp only [hless, decide_true, if_true, hkept, decide_false, Bool.not_false]
  · have hwrapped : (r : ℤ) + s + -n + 0 + -s < 0 := by omega
    simp only [hless, decide_false, Bool.false_eq_true, if_false, hwrapped, decide_true,
      Bool.not_true]

def sumMod (b : List ℕ) (modulus v y : ℕ) : ℕ := write b ((reading b y + v) % modulus) y

theorem sumMod_congr {modulus u v : ℕ} (huv : u ≡ v [MOD modulus]) :
    sumMod b modulus u y = sumMod b modulus v y := by
  rw [sumMod, sumMod, (huv.add_left (reading b y) : _ % modulus = _ % modulus)]

theorem multiple_modEq (controls : List ℕ) (q : ℕ) (rest : List ℕ) (term n y : ℕ) :
    (if AllRead (controls ++ [q]) y then term % n else 0) +
        (if AllRead controls y then mulMod term 2 n * reading rest y else 0) ≡
      (if AllRead controls y then term * reading (q :: rest) y else 0) [MOD n] := by
  by_cases hc : AllRead controls y
  · have hq : AllRead (controls ++ [q]) y ↔ y.testBit q = true := by
      rw [Ancilla.allRead_append, and_iff_right hc, AllRead, List.forall_mem_singleton]
    have hbit : (if AllRead (controls ++ [q]) y then term % n else 0) ≡
        term * (y.testBit q).toNat [MOD n] := by
      simp only [hq]
      cases y.testBit q with
      | false => rfl
      | true => simpa using Nat.mod_modEq term n
    have hrest : mulMod term 2 n * reading rest y ≡ term * (2 * reading rest y) [MOD n] := by
      rw [← Nat.mul_assoc]
      exact (Nat.mod_modEq _ n).mul_right _
    rw [if_pos hc, if_pos hc, reading, Nat.mul_add]
    exact hbit.add hrest
  · have hq : ¬AllRead (controls ++ [q]) y := fun hall => hc (Ancilla.allRead_append.1 hall).1
    rw [if_neg hc, if_neg hc, if_neg hq]

namespace Workspace

variable {modulus : ℕ} (h : Workspace b flag modulus)

include h

theorem transform_realizes : Realizes (transform b : Synthesis ℝ Unit) b (operator b) :=
  Fourier.transform_realizes (List.nodup_cons.1 h.nodup).2 (by have := h.wide; omega)
    (h.narrow.trans (by decide))

theorem shift_realizes (c : ℤ) :
    Realizes (phaseAddConstant b c : Synthesis ℝ Unit) b (shift b c) :=
  phaseAddConstant_realizes b (by have := h.wide; omega) (h.narrow.trans (by decide)) c

theorem compare_realizes {top : QubitId} (htop : top ∈ b) {compute : Synthesis ℝ Unit}
    {A : Operator ℂ} (hcompute : compute.Realizes b A) :
    Realizes (Build.conjugate "compare" compute fun _ => Build.cx top flag) (flag :: b)
      (Ring.inverse A * copy top flag * A) := by
  have hne : top ≠ flag := fun heq => (List.nodup_cons.1 h.nodup).1 (heq ▸ htop)
  refine (hcompute.mono fun q hq => List.mem_cons_of_mem _ hq).conjugate "compare" ?_
  exact realizes_cx hne (List.mem_cons_of_mem _ htop) List.mem_cons_self

theorem addConstant_realizes {low : List QubitId} {top : QubitId} (hlow : b = low ++ [top]) (a : ℕ)
    {controls : List QubitId} (hcs : controls.Nodup) (hdis : ∀ q ∈ flag :: b, q ∉ controls) :
    Realizes (addConstant b a modulus flag controls : Synthesis ℝ Unit) (controls ++ flag :: b)
      (addition b top a modulus flag controls) := by
  have htop : top ∈ b := hlow ▸ List.mem_append_right _ List.mem_cons_self
  have hcheck := checkModulus_ok (Nat.sub_pos_of_lt h.wide) (Nat.sub_le_of_le_add h.narrow) h.two_le
    h.fits "mod_add_constant"
  have hall : ∀ q ∈ flag :: b, q ∈ controls ++ flag :: b := fun q hq => List.mem_append_right _ hq
  have hreg : ∀ q ∈ b, q ∈ controls ++ flag :: b := fun q hq => hall q (List.mem_cons_of_mem _ hq)
  have hadd : ∀ c : ℤ, Realizes (underControls controls (phaseAddConstant b c) : Synthesis ℝ Unit)
      (controls ++ flag :: b) (controlled controls (shift b c)) := by
    intro c
    refine ((h.shift_realizes c).underControls hcs fun q hq =>
      hdis q (List.mem_cons_of_mem _ hq)).mono fun q hq => ?_
    rcases List.mem_append.1 hq with hq | hq
    · exact List.mem_append_left _ hq
    · exact hreg q hq
  have hback : Realizes (Build.control [flag] (phaseAddConstant b modulus) : Synthesis ℝ Unit)
      (controls ++ flag :: b) (controlled [flag] (shift b modulus)) := by
    refine ((h.shift_realizes modulus).control (List.nodup_singleton flag) fun q hq hf => ?_).mono hall
    exact (List.nodup_cons.1 h.nodup).1 (List.mem_singleton.1 hf ▸ hq)
  have hinverse : Realizes (inverseTransform b : Synthesis ℝ Unit) b (Ring.inverse (operator b)) :=
    h.transform_realizes.invert
  -- the flag is cleared by a comparison for which the constant is taken away
  have hclear := (hadd (-(a % modulus : ℕ))).conjugate "clear_flag"
    ((h.compare_realizes htop (hinverse.bind (realizes_x htop))).mono hall)
  have hbody := (realizes_ofExcept hcheck _).bind ((hadd (a % modulus : ℕ)).bind
    (((h.shift_realizes (-modulus)).mono hreg).bind (((h.compare_realizes htop hinverse).mono hall).bind
      (hback.bind (hclear.bind (realizes_assertRestored [flag] _))))))
  rw [one_mul, mul_one] at hbody
  have hlast : b.getLast? = some top := by rw [hlow, List.getLast?_concat]
  unfold addConstant
  rw [hlast]
  exact hbody

theorem isUnit_operator : IsUnit (operator b) := h.transform_realizes.isUnit

theorem shift_staged (c v : ℤ) (f : Bool) :
    Carries (operator b) (shift b c) (staged b flag y v f) (staged b flag y (v + c) f) := by
  have hb := (List.nodup_cons.1 h.nodup).2
  rw [← addTo_staged hb]
  exact carries_addTo hb c _

theorem controlled_shift_staged {controls : List QubitId} (hdis : ∀ q ∈ flag :: b, q ∉ controls)
    (c v : ℤ) (f : Bool) :
    Carries (operator b) (controlled controls (shift b c)) (staged b flag y v f)
      (staged b flag y (v + if AllRead controls y then c else 0) f) := by
  have hcommute := h.transform_realizes.commute fun q hq => hdis q (List.mem_cons_of_mem _ hq)
  refine Carries.controlled hcommute (fun hread => ?_) fun hread => ?_
  · rw [if_pos ((allRead_staged hdis v f).1 hread)]
    exact h.shift_staged c v f
  · rw [if_neg fun hy => hread ((allRead_staged hdis v f).2 hy), add_zero]

theorem back_staged (v : ℤ) (f : Bool) :
    Carries (operator b) (controlled [flag] (shift b modulus)) (staged b flag y v f)
      (staged b flag y (v + if f then (modulus : ℤ) else 0) f) := by
  have hflag := (List.nodup_cons.1 h.nodup).1
  have hcommute : Commute (operator b) (allRead [flag]) :=
    h.transform_realizes.commute fun q hq hf => hflag (List.mem_singleton.1 hf ▸ hq)
  have hread : AllRead [flag] (staged b flag y v f) ↔ f = true := by
    rw [AllRead, List.forall_mem_singleton, testBit_flag_staged hflag]
  refine Carries.controlled hcommute (fun hall => ?_) fun hall => ?_
  · rw [if_pos (hread.1 hall)]
    exact h.shift_staged modulus v f
  · rw [if_neg fun hf => hall (hread.2 hf), add_zero]

section Signs

variable {low : List QubitId} {top : QubitId} (hlow : b = low ++ [top]) {v : ℤ}
  (hv : -2 ^ low.length ≤ v) (hv' : v < 2 ^ low.length)

include hlow hv hv'

theorem top_staged (f : Bool) : (staged b flag y v f).testBit top = decide (v < 0) := by
  have hb := (List.nodup_cons.1 h.nodup).2
  subst hlow
  exact testBit_top_staged hb hv hv' f

theorem compare_staged :
    Carries (operator b) (compare b top flag) (staged b flag y v false)
      (staged b flag y v (decide (v < 0))) := by
  obtain ⟨hflag, hb⟩ := List.nodup_cons.1 h.nodup
  refine Carries.framed h.isUnit_operator ?_
  show copy top flag (ket _) = ket _
  rw [copy_ket, h.top_staged hlow hv hv', toggle_staged hb hflag]
  by_cases hneg : v < 0 <;> simp [hneg]

theorem compareInverted_staged :
    Carries (operator b) (compareInverted b top flag) (staged b flag y v !decide (v < 0))
      (staged b flag y v false) := by
  obtain ⟨hflag, hb⟩ := List.nodup_cons.1 h.nodup
  have htop : top ∈ b := hlow ▸ List.mem_append_right _ List.mem_cons_self
  have hinverse : Realizes (inverseTransform b : Synthesis ℝ Unit) b (Ring.inverse (operator b)) :=
    h.transform_realizes.invert
  have hunit := (hinverse.bind (realizes_x htop)).isUnit
  have hview : ∀ z : ℕ, (onQubit Kernel.flip top * Ring.inverse (operator b) : Operator ℂ)
      (operator b (ket z)) = ket (toggle z top) := by
    intro z
    rw [Module.End.mul_apply, inverse_apply h.isUnit_operator rfl, flip_ket]
  refine conjugate_apply hunit ?_
  rw [hview, hview, copy_ket, testBit_toggle_self, h.top_staged hlow hv hv']
  by_cases hneg : v < 0
  · simp [hneg]
  · simp [hneg, toggle_comm _ top flag, toggle_staged hb hflag]

end Signs

theorem clearFlag_staged {low : List QubitId} {top : QubitId} (hlow : b = low ++ [top])
    {controls : List QubitId} (hcs : controls.Nodup) (hdis : ∀ q ∈ flag :: b, q ∉ controls)
    {a v : ℤ} {f : Bool} (hlower : -2 ^ low.length ≤ v + if AllRead controls y then -a else 0)
    (hupper : (v + if AllRead controls y then -a else 0) < 2 ^ low.length)
    (hf : f = !decide ((v + if AllRead controls y then -a else 0) < 0)) :
    Carries (operator b) (clearFlag b top a flag controls) (staged b flag y v f)
      (staged b flag y v false) := by
  have hunit := ((h.shift_realizes (-a)).underControls hcs fun q hq =>
    hdis q (List.mem_cons_of_mem _ hq)).isUnit
  refine conjugate_apply hunit ?_
  have hthere := h.controlled_shift_staged (y := y) hdis (-a) v
  rw [hthere f, hthere false, hf]
  exact h.compareInverted_staged hlow hlower hupper

theorem addition_carries {low : List QubitId} {top : QubitId} (hlow : b = low ++ [top]) (a : ℕ)
    {controls : List QubitId} (hcs : controls.Nodup) (hdis : ∀ q ∈ flag :: b, q ∉ controls)
    (hy : reading b y < modulus) (hflag : y.testBit flag = false) :
    Carries (operator b) (addition b top a modulus flag controls) y
      (sumMod b modulus (if AllRead controls y then a % modulus else 0) y) := by
  have hb := (List.nodup_cons.1 h.nodup).2
  have hlength : b.length = low.length + 1 := by rw [hlow, List.length_append, List.length_singleton]
  have hfits : (modulus : ℤ) ≤ 2 ^ low.length := by
    have hle := h.fits
    rw [hlength, Nat.add_sub_cancel] at hle
    exact_mod_cast hle
  have hresidue : a % modulus < modulus := Nat.mod_lt a (Nat.zero_lt_of_lt h.two_le)
  -- the constant that is added, and the sum
  generalize hs : (if AllRead controls y then a % modulus else 0) = s
  have hadded : (if AllRead controls y then ((a % modulus : ℕ) : ℤ) else 0) = s := by
    rw [← hs]
    split <;> rfl
  have hremoved : (if AllRead controls y then -((a % modulus : ℕ) : ℤ) else 0) = -s := by
    rw [← hs]
    split <;> rfl
  have hsmall : s < modulus := by
    rw [← hs]
    split
    · exact hresidue
    · exact Nat.zero_lt_of_lt hresidue
  have hsum := emod_sum hy hsmall
  have hsign := sign_sum hy hsmall
  have hadd := h.controlled_shift_staged (y := y) hdis (a % modulus : ℕ) (reading b y) false
  have htry := h.shift_staged (y := y) (-modulus) (reading b y + s) false
  have hcompare := h.compare_staged (y := y) hlow (v := reading b y + s + -modulus) (by omega) (by omega)
  have hback := h.back_staged (y := y) (reading b y + s + -modulus)
    (decide ((reading b y : ℤ) + s + -modulus < 0))
  have hclear := h.clearFlag_staged (y := y) hlow hcs hdis (a := (a % modulus : ℕ))
    (v := ((reading b y + s) % modulus : ℕ)) (f := decide ((reading b y : ℤ) + s + -modulus < 0))
  rw [hremoved] at hclear
  replace hclear := hclear (by omega) (by omega) hsign
  rw [hadded, staged_reading hb hflag] at hadd
  rw [← hsum] at hback
  rw [staged_natCast ?_ hflag] at hclear
  · exact hadd.mul (htry.mul (hcompare.mul (hback.mul hclear)))
  · have hmod := Nat.mod_lt (reading b y + s) (Nat.zero_lt_of_lt h.two_le)
    rw [hlength, Nat.pow_succ]
    zify at hmod ⊢
    omega

/-! ## Multiplication -/

theorem exists_top : ∃ low top, b = low ++ [top] := by
  obtain hnil | ⟨low, top, hlow⟩ := List.eq_nil_or_concat b
  · have hwide := h.wide
    simp [hnil] at hwide
  · exact ⟨low, top, hlow.trans (List.concat_eq_append ..)⟩

theorem lt_size (v : ℕ) : v % modulus < 2 ^ b.length := by
  have hmod := Nat.mod_lt v (Nat.zero_lt_of_lt h.two_le)
  have hsize : 2 ^ (b.length - 1) ≤ 2 ^ b.length := Nat.pow_le_pow_right Nat.two_pos (Nat.sub_le _ 1)
  exact hmod.trans_le (h.fits.trans hsize)

theorem reading_sumMod (v y : ℕ) : reading b (sumMod b modulus v y) = (reading b y + v) % modulus :=
  reading_write_of_lt (List.nodup_cons.1 h.nodup).2 (h.lt_size _) y

theorem sumMod_sumMod (u v y : ℕ) :
    sumMod b modulus v (sumMod b modulus u y) = sumMod b modulus (u + v) y := by
  have hb := (List.nodup_cons.1 h.nodup).2
  rw [sumMod, h.reading_sumMod, Nat.mod_add_mod, sumMod, write_write hb (h.lt_size _), sumMod,
    Nat.add_assoc]

theorem sumMod_zero {y : ℕ} (hy : reading b y < modulus) : sumMod b modulus 0 y = y := by
  rw [sumMod, Nat.add_zero, Nat.mod_eq_of_lt hy, write_reading (List.nodup_cons.1 h.nodup).2]

theorem accumulate_realizes {controls x : List QubitId} (hnodup : (controls ++ x).Nodup)
    (hdis : ∀ q ∈ flag :: b, q ∉ controls ++ x) (term : ℕ) :
    ∃ A, Realizes (accumulate b modulus flag controls term x : Synthesis ℝ Unit)
      (controls ++ x ++ flag :: b) A ∧ ∀ y, reading b y < modulus → y.testBit flag = false →
        Carries (operator b) A y
          (sumMod b modulus (if AllRead controls y then term * reading x y else 0) y) := by
  -- over the qubits from the lowest up; the term doubles from one qubit to the next
  induction x generalizing term with
  | nil =>
    refine ⟨1, realizes_pure _, fun y hy hflag => ?_⟩
    rw [reading, mul_zero, ite_self, h.sumMod_zero hy]
    exact carries_one _ y
  | cons q rest ih =>
    obtain ⟨low, top, hlow⟩ := h.exists_top
    have hin : ∀ p, p ∈ controls ++ [q] → p ∈ controls ++ q :: rest := by
      intro p hp
      simp only [List.mem_append, List.mem_cons, List.not_mem_nil] at hp ⊢
      tauto
    have hin' : ∀ p, p ∈ controls ++ rest → p ∈ controls ++ q :: rest := by
      intro p hp
      simp only [List.mem_append, List.mem_cons] at hp ⊢
      tauto
    have hfirst : (controls ++ [q]).Nodup :=
      hnodup.sublist (List.Sublist.append_left (List.singleton_sublist.2 List.mem_cons_self) _)
    have hlater : (controls ++ rest).Nodup :=
      hnodup.sublist (List.Sublist.append_left (List.sublist_cons_self q rest) _)
    have hdis₁ : ∀ p ∈ flag :: b, p ∉ controls ++ [q] := fun p hp hmem => hdis p hp (hin p hmem)
    obtain ⟨A, hA, hcarries⟩ := ih hlater (fun p hp hmem => hdis p hp (hin' p hmem))
      (mulMod term 2 modulus)
    refine ⟨A * addition b top term modulus flag (controls ++ [q]), ?_, fun y hy hflag => ?_⟩
    · refine ((h.addConstant_realizes hlow term hfirst hdis₁).mono fun p hp => ?_).bind
        (hA.mono fun p hp => ?_)
      · exact List.mem_append.2 ((List.mem_append.1 hp).imp (hin p) id)
      · exact List.mem_append.2 ((List.mem_append.1 hp).imp (hin' p) id)
    · have hadd := h.addition_carries hlow term hfirst hdis₁ hy hflag
      generalize hu : (if AllRead (controls ++ [q]) y then term % modulus else 0) = u at hadd
      have hrest := hcarries (sumMod b modulus u y)
        (by rw [h.reading_sumMod]; exact Nat.mod_lt _ (Nat.zero_lt_of_lt h.two_le))
        (by rw [sumMod, testBit_write_of_not_mem (List.nodup_cons.1 h.nodup).1, hflag])
      have hout : ∀ p ∈ controls ++ q :: rest, p ∉ b := fun p hp hmem =>
        hdis p (List.mem_cons_of_mem _ hmem) hp
      -- the first addition changes neither the controls nor the qubits above
      have hcontrols : AllRead controls (sumMod b modulus u y) ↔ AllRead controls y :=
        allRead_write (fun p hp => hout p (List.mem_append_left _ hp)) _ y
      have habove : reading rest (sumMod b modulus u y) = reading rest y :=
        reading_write_of_disjoint (fun p hp => hout p (hin' p (List.mem_append_right _ hp))) _ y
      rw [habove, h.sumMod_sumMod] at hrest
      simp only [hcontrols] at hrest
      rw [← sumMod_congr (multiple_modEq controls q rest term modulus y), hu]
      exact hadd.mul hrest

theorem multiplyAccumulate_realizes {controls x : List QubitId} (hnodup : (controls ++ x).Nodup)
    (hdis : ∀ q ∈ flag :: b, q ∉ controls ++ x) (a : ℕ) :
    ∃ A, Realizes (multiplyAccumulate x b a modulus flag controls : Synthesis ℝ Unit)
      (controls ++ x ++ flag :: b) A ∧ ∀ y, reading b y < modulus → y.testBit flag = false →
        A (ket y) = ket (sumMod b modulus (if AllRead controls y then a * reading x y else 0) y) := by
  obtain ⟨A, hA, hcarries⟩ := h.accumulate_realizes hnodup hdis (a % modulus)
  refine ⟨Ring.inverse (operator b) * A * operator b, ?_, fun y hy hflag => ?_⟩
  · refine (h.transform_realizes.mono fun q hq => ?_).conjugate "cmult" hA
    exact List.mem_append_right _ (List.mem_cons_of_mem _ hq)
  · have hproduct : (if AllRead controls y then a % modulus * reading x y else 0) ≡
        (if AllRead controls y then a * reading x y else 0) [MOD modulus] := by
      split
      · exact (Nat.mod_modEq a modulus).mul_right _
      · rfl
    rw [← sumMod_congr hproduct]
    exact conjugate_apply h.isUnit_operator (hcarries y hy hflag)

end Workspace

theorem exchanges_realize {ps qs : List QubitId} (hlength : ps.length = qs.length)
    (hnodup : (ps ++ qs).Nodup) :
    ∃ A, Realizes ((ps.zip qs).forM fun (p, q) => Build.swap p q : Synthesis ℝ Unit) (ps ++ qs) A ∧
      ∀ y, A (ket y) = ket (write ps (reading qs y) (write qs (reading ps y) y)) := by
  induction ps generalizing qs with
  | nil =>
    obtain rfl := List.length_eq_zero_iff.1 hlength.symm
    exact ⟨1, realizes_pure _, fun y => rfl⟩
  | cons p ps ih =>
    cases qs with
    | nil => simp at hlength
    | cons q qs =>
      simp only [List.nodup_append', List.nodup_cons, List.disjoint_cons_left,
        List.disjoint_cons_right, List.mem_cons, not_or] at hnodup
      obtain ⟨⟨hp, hps⟩, ⟨hq, hqs⟩, ⟨hne, hqps⟩, hpqs, hdis⟩ := hnodup
      have hpq : p ≠ q := fun heq => hne heq.symm
      obtain ⟨A, hA, hket⟩ := ih (Nat.succ.inj hlength) (List.nodup_append'.2 ⟨hps, hqs, hdis⟩)
      refine ⟨A * exchange p q, ?_, fun y => ?_⟩
      · have hone : Realizes (Build.swap p q : Synthesis ℝ Unit) (p :: ps ++ q :: qs) (.exchange p q) :=
          realizes_swap hpq (by simp) (by simp)
        refine hone.bind (hA.mono fun r hr => ?_)
        simp only [List.mem_append, List.mem_cons] at hr ⊢
        tauto
      · have hread : ∀ rs : List ℕ, p ∉ rs → q ∉ rs →
            reading rs (exchangeBits p q y) = reading rs y := by
          intro rs hprs hqrs
          rw [exchangeBits_eq hpq, reading_setBit hprs, reading_setBit hqrs]
        rw [Module.End.mul_apply, exchange_ket, hket, hread ps hp hqps, hread qs hpqs hq,
          exchangeBits_eq hpq, write_setBit hpqs, write_setBit hq, write_setBit hp,
          ← write_cons_reading q p, ← write_cons_reading p q]

theorem reading_of_lt {low : List ℕ} {top y : ℕ} (h : reading (low ++ [top]) y < 2 ^ low.length) :
    reading low y = reading (low ++ [top]) y := by
  have htop := (testBit_last_iff low top y).not.2 (Nat.not_le_of_lt h)
  rw [reading_append, reading, reading, Bool.eq_false_of_not_eq_true htop]
  simp

theorem write_of_lt {low : List ℕ} {top : ℕ} (h : low.Nodup) {u v : ℕ} (hu : u < 2 ^ low.length)
    (hv : v < 2 ^ low.length) (y : ℕ) :
    write low v (write (low ++ [top]) u y) = write (low ++ [top]) v y := by
  rw [write_append, write_append, write_write h hv, Nat.div_eq_of_lt hu, Nat.div_eq_of_lt hv]

theorem Workspace.exchanged_eq {modulus : ℕ} (h : Workspace b flag modulus) {low x : List QubitId}
    {top : QubitId} (hlow : b = low ++ [top]) (hx : x.Nodup) (hsame : x.length = low.length)
    (hxb : ∀ q ∈ x, q ∉ b) {a inverse : ℕ} (hinverse : a * inverse % modulus = 1 % modulus) {y z y₁ : ℕ}
    (hy : reading x y < modulus) (hzero : reading b y = 0)
    (hz : z = write x (a * reading x y % modulus) y)
    (hy₁ : y₁ = sumMod b modulus (a * reading x y) y) :
    write x (reading low y₁) (write low (reading x y₁) y₁) =
      sumMod b modulus (inverse * reading x z) z := by
  have hb := (List.nodup_cons.1 h.nodup).2
  have hfits : modulus ≤ 2 ^ low.length := by
    have hle := h.fits
    rwa [hlow, List.length_append, List.length_singleton, Nat.add_sub_cancel] at hle
  have hlownodup : low.Nodup := (List.nodup_append'.1 (hlow ▸ hb)).1
  generalize hu : a * reading x y % modulus = u at hz
  have husmall : u < 2 ^ low.length := by
    rw [← hu]
    exact (Nat.mod_lt _ (Nat.zero_lt_of_lt h.two_le)).trans_le hfits
  have hwritten : y₁ = write b u y := by rw [hy₁, sumMod, hzero, Nat.zero_add, hu]
  have hproduct : reading low y₁ = u := by
    have hwhole : reading b y₁ = u := by
      rw [hy₁, h.reading_sumMod, hzero, Nat.zero_add, hu]
    subst hlow
    rw [reading_of_lt (by rw [hwhole]; exact husmall), hwhole]
  have hkept : reading x y₁ = reading x y := by
    rw [hwritten, reading_write_of_disjoint hxb]
  have hresult : reading x z = u := by
    rw [hz, reading_write_of_lt hx (by rw [hsame]; exact husmall)]
  have hempty : reading b z = 0 := by
    rw [hz, reading_write_of_disjoint fun q hq hmem => hxb q hmem hq, hzero]
  have hback : inverse * u % modulus = reading x y := by
    rw [← hu, Nat.mul_mod_mod, ← Nat.mul_assoc, Nat.mul_comm inverse, Nat.mul_mod, hinverse,
      ← Nat.mul_mod, Nat.one_mul, Nat.mod_eq_of_lt hy]
  rw [hproduct, hkept, sumMod, hempty, hresult, Nat.zero_add, hback, hz, ← write_comm hxb, hwritten]
  subst hlow
  rw [write_of_lt hlownodup husmall (hy.trans_le hfits)]

theorem Workspace.exchange_realizes {modulus : ℕ} (h : Workspace b flag modulus)
    {low controls x : List QubitId} {top : QubitId} (hlow : b = low ++ [top])
    (hsame : x.length = low.length) (hnodup : (controls ++ x).Nodup)
    (hdis : ∀ q ∈ flag :: b, q ∉ controls ++ x) :
    ∃ A, Realizes (Build.underControls controls ((x.zip b).forM fun (p, q) => Build.swap p q) :
        Synthesis ℝ Unit) (controls ++ x ++ flag :: b) (controlled controls A) ∧
      ∀ y, A (ket y) = ket (write x (reading low y) (write low (reading x y) y)) := by
  have hb := (List.nodup_cons.1 h.nodup).2
  obtain ⟨hcs, hx, hcx⟩ := List.nodup_append'.1 hnodup
  have hlowb : ∀ q ∈ low, q ∈ b := fun q hq => hlow ▸ List.mem_append_left _ hq
  have hxlow : List.Disjoint x low := fun q hq hq' =>
    hdis q (List.mem_cons_of_mem _ (hlowb q hq')) (List.mem_append_right _ hq)
  have hzip : x.zip b = x.zip low := by
    have hsplit : (x ++ []).zip (low ++ [top]) = x.zip low ++ [].zip [top] := List.zip_append hsame
    rw [List.append_nil, List.zip_nil_left, List.append_nil] at hsplit
    rw [hlow, hsplit]
  have hlownodup : low.Nodup := (List.nodup_append'.1 (hlow ▸ hb)).1
  obtain ⟨A, hA, hket⟩ := exchanges_realize hsame (List.nodup_append'.2 ⟨hx, hlownodup, hxlow⟩)
  refine ⟨A, ?_, hket⟩
  rw [hzip]
  refine (hA.underControls hcs fun q hq hc => ?_).mono fun q hq => ?_
  · rcases List.mem_append.1 hq with hq | hq
    · exact hcx hc hq
    · exact hdis q (List.mem_cons_of_mem _ (hlowb q hq)) (List.mem_append_left _ hc)
  · simp only [List.mem_append, List.mem_cons] at hq ⊢
    rcases hq with hq | hq | hq
    · exact .inl (.inl hq)
    · exact .inl (.inr hq)
    · exact .inr (.inr (hlowb q hq))

noncomputable def productInPlace (x b : List QubitId) (a inverse modulus : ℕ) (flag : QubitId)
    (controls : List QubitId) : Synthesis ℝ Unit := do
  multiplyAccumulate x b a modulus flag controls
  Build.underControls controls ((x.zip b).forM fun (p, q) => Build.swap p q)
  Build.invert (multiplyAccumulate x b inverse modulus flag controls)

theorem Workspace.product_realizes {modulus : ℕ} (h : Workspace b flag modulus)
    {controls x : List QubitId} (hlength : x.length + 1 = b.length) (hnodup : (controls ++ x).Nodup)
    (hdis : ∀ q ∈ flag :: b, q ∉ controls ++ x) {a inverse : ℕ}
    (hinverse : a * inverse % modulus = 1 % modulus) :
    ∃ A, Realizes (productInPlace x b a inverse modulus flag controls)
        (controls ++ x ++ flag :: b) A ∧
      ∀ y, reading x y < modulus → reading b y = 0 → y.testBit flag = false →
        A (ket y) = ket (write x
          (if AllRead controls y then a * reading x y % modulus else reading x y) y) := by
  obtain ⟨low, top, hlow⟩ := h.exists_top
  obtain ⟨-, hx, hcx⟩ := List.nodup_append'.1 hnodup
  have hsame : x.length = low.length := by
    rw [hlow, List.length_append, List.length_singleton] at hlength
    exact Nat.succ.inj hlength
  obtain ⟨M, hM, hproduct⟩ := h.multiplyAccumulate_realizes hnodup hdis a
  obtain ⟨S, hS, hexchange⟩ := h.exchange_realizes hlow hsame hnodup hdis
  obtain ⟨M', hM', hproduct'⟩ := h.multiplyAccumulate_realizes hnodup hdis inverse
  refine ⟨Ring.inverse M' * controlled controls S * M, hM.bind (hS.bind hM'.invert), ?_⟩
  intro y hy hzero hflag
  have hstart : reading b y < modulus := by
    rw [hzero]
    exact Nat.zero_lt_of_lt h.two_le
  have houtside : ∀ q ∈ flag :: b, q ∉ x := fun q hq hmem => hdis q hq (List.mem_append_right _ hmem)
  rw [Module.End.mul_apply, Module.End.mul_apply, hproduct y hstart hflag]
  -- the last pass takes the wanted state to the state that the exchange leaves
  refine inverse_apply hM'.isUnit ?_
  by_cases hc : AllRead controls y
  · have hcontrols : AllRead controls (sumMod b modulus (a * reading x y) y) :=
      (allRead_write (fun q hq hmem => hdis q (List.mem_cons_of_mem _ hmem)
        (List.mem_append_left _ hq)) _ y).2 hc
    have hafter : AllRead controls (write x (a * reading x y % modulus) y) :=
      (allRead_write (fun q hq hmem => hcx hq hmem) _ y).2 hc
    have hxb : ∀ q ∈ x, q ∉ b := fun q hq hmem => houtside q (List.mem_cons_of_mem _ hmem) hq
    rw [if_pos hc, if_pos hc, controlled_ket, if_pos hcontrols, hexchange,
      h.exchanged_eq hlow hx hsame hxb hinverse hy hzero rfl rfl, hproduct', if_pos hafter]
    · rw [reading_write_of_disjoint fun q hq => houtside q (List.mem_cons_of_mem _ hq)]
      exact hstart
    · rw [testBit_write_of_not_mem (houtside flag List.mem_cons_self), hflag]
  · rw [if_neg hc, if_neg hc, h.sumMod_zero hstart, controlled_ket, if_neg hc, write_reading hx,
      hproduct' y hstart hflag, if_neg hc, h.sumMod_zero hstart]

/-! ## Addition between transforms -/

noncomputable def addResidue (b : List QubitId) (a modulus : ℕ) (flag : QubitId)
    (controls : List QubitId) : Synthesis ℝ Unit := do
  transform b
  addConstant b a modulus flag controls
  inverseTransform b

theorem Workspace.addResidue_realizes {modulus : ℕ} (h : Workspace b flag modulus) (a : ℕ)
    {controls : List QubitId} (hcs : controls.Nodup) (hdis : ∀ q ∈ flag :: b, q ∉ controls) :
    ∃ A, Realizes (addResidue b a modulus flag controls) (controls ++ flag :: b) A ∧
      ∀ y, reading b y < modulus → y.testBit flag = false →
        A (ket y) = ket (sumMod b modulus (if AllRead controls y then a else 0) y) := by
  obtain ⟨low, top, hlow⟩ := h.exists_top
  have hreg : ∀ q ∈ b, q ∈ controls ++ flag :: b := fun q hq =>
    List.mem_append_right _ (List.mem_cons_of_mem _ hq)
  have htransform := h.transform_realizes.mono hreg
  refine ⟨Ring.inverse (operator b) * addition b top a modulus flag controls * operator b,
    htransform.bind ((h.addConstant_realizes hlow a hcs hdis).bind htransform.invert), ?_⟩
  intro y hy hflag
  have hadded : (if AllRead controls y then a % modulus else 0) ≡
      (if AllRead controls y then a else 0) [MOD modulus] := by
    split
    · exact Nat.mod_modEq a modulus
    · rfl
  rw [← sumMod_congr hadded]
  exact conjugate_apply h.isUnit_operator (h.addition_carries hlow a hcs hdis hy hflag)

theorem Workspace.addResidue_stops {modulus : ℕ} (h : Workspace b flag modulus) (a : ℕ)
    (controls : List QubitId) {s : Session ℝ} (hp : s.isPoisoned = true) :
    Stops (addResidue b a modulus flag controls) s := by
  obtain ⟨low, top, hlow⟩ := h.exists_top
  have hcheck : checkRegister "fourier" b = .ok () := by
    have hwide := h.wide
    have hnarrow := h.narrow.trans (by decide : Synthesis.maxWidth + 1 ≤ Fourier.maxWidth)
    exact if_neg (by omega)
  have hfirst : Stops (transformDown b.reverse : Synthesis ℝ Unit) s := by
    rw [hlow, List.reverse_append]
    exact (stops_apply hp _ _).bind _
  have htransform : Stops (transform b : Synthesis ℝ Unit) s := .after hcheck hfirst
  exact htransform.bind _

/-- Addition of a constant between transforms. With no open environment, on distinct qubits in use,
the circuit takes every basis state whose register reads less than the modulus, and whose flag
reads 0, to the basis state with the constant added modulo the modulus if all controls read 1, and
with all other qubits, the flag among them, as they were. Only a poisoned session refuses it. -/
theorem addResidue_moves {s : Session ℝ} (hs : s.Reachable) (hopen : s.numOpen = 0)
    {controls : List QubitId} (hnodup : (controls ++ flag :: b).Nodup)
    (hlive : ∀ q ∈ controls ++ flag :: b, s.allocator.isLive q = true) {w modulus : ℕ}
    (hb : b.length = w + 1) (hw : 1 ≤ w ∧ w ≤ 32) (hmodulus : 2 ≤ modulus ∧ modulus ≤ 2 ^ w)
    (a : ℕ) :
    (s.isPoisoned = false → Moves (addResidue b a modulus flag controls) s (controls ++ flag :: b)
      (fun y => reading b y < modulus ∧ y.testBit flag = false) fun y z =>
        reading b z = (if AllRead controls y then (reading b y + a) % modulus else reading b y) ∧
          z.testBit flag = false ∧ ∀ q, q ∉ b → z.testBit q = y.testBit q) ∧
    (s.isPoisoned = true → Stops (addResidue b a modulus flag controls) s) := by
  obtain ⟨hcs, hwork, hdis⟩ := List.nodup_append'.1 hnodup
  have h : Workspace b flag modulus := by
    refine ⟨by omega, ?_, hwork, hmodulus.1, ?_⟩
    · rw [hb]
      exact Nat.succ_le_succ hw.2
    · rw [hb]
      exact hmodulus.2
  refine ⟨fun hp => ?_, h.addResidue_stops a controls⟩
  obtain ⟨A, hA, hket⟩ := h.addResidue_realizes a hcs fun q hq hc => hdis hc hq
  refine hA.moves hs hp hopen hlive fun y hy => ⟨_, hket y hy.1 hy.2, ?_, ?_, ?_⟩
  · rw [h.reading_sumMod]
    split
    · rfl
    · rw [Nat.add_zero, Nat.mod_eq_of_lt hy.1]
  · rw [sumMod, testBit_write_of_not_mem (List.nodup_cons.1 hwork).1, hy.2]
  · exact fun q hq => testBit_write_of_not_mem hq _ y

theorem addResidue_moves_full_modulus :
    ∃ s : Session ℝ, s = (Session.new {}).after
        [.allocate 1 "control", .allocate 1 "flag", .allocate 3 "b"] ∧
      Moves (addResidue [2, 3, 4] 7 4 1 [0]) s [0, 1, 2, 3, 4]
        (fun y => reading [2, 3, 4] y < 4 ∧ y.testBit 1 = false) fun y z =>
          reading [2, 3, 4] z =
            (if AllRead [0] y then (reading [2, 3, 4] y + 7) % 4 else reading [2, 3, 4] y) ∧
          z.testBit 1 = false ∧ ∀ q, q ∉ [2, 3, 4] → z.testBit q = y.testBit q := by
  have hmoves := @addResidue_moves [2, 3, 4] 1 _ ((Session.Reachable.new (R := ℝ) {}).after
      [.allocate 1 "control", .allocate 1 "flag", .allocate 3 "b"]) (by decide +kernel) [0] (by decide)
    (by decide +kernel) 2 4 rfl (by decide) (by decide) 7
  exact ⟨_, rfl, hmoves.1 (by decide +kernel)⟩

end Ancilla.Modular
