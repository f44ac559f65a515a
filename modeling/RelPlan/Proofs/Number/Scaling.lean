import RelPlan.Program.Json
import RelPlan.Proofs.Number.Binary64
import RelPlan.Proofs.Number.Numerals
import RelPlan.Proofs.Number.Rounding

/-! # Numerals read by scaling

Scaling its leading digits gives a float for every numeral whose magnitude leaves room for three
roundings (`Numeral.scaled?_isSome`). So what is written for a finite float is read back as a float,
if not always as that float (`Numeral.scaled?_ofFloat?`); the six largest floats, where the bound
leaves no room, are read back one by one. -/

namespace RelPlan
namespace Numeral

open Rounding

/-! ## Scaling -/

theorem scale_isSome_of_neg (x : Float) (steps : Nat) {exponent : Int} (h : exponent < 0) :
    (scale x steps exponent).isSome := by
  induction steps generalizing x exponent with
  | zero => rfl
  | succ steps ih =>
    rw [scale]
    split
    case isTrue => rfl
    case isFalse =>
      split
      · rfl
      · rw [if_neg (by omega)]
        exact ih _ (by omega)

/-- Scaling succeeds when the exact product leaves room for the roundings. -/
theorem scale_isSome {n : Nat} {exponent : Int} (hn : n < UInt64.size)
    (hv : (n : ℚ) * 10 ^ exponent * slack ^ 3 < 2 ^ 1024) (steps : Nat) :
    (scale n.toUInt64.toFloat steps exponent).isSome := by
  obtain hneg | hpos := Int.lt_or_le exponent 0
  · exact scale_isSome_of_neg _ _ hneg
  obtain ⟨e, rfl⟩ := Int.eq_ofNat_of_zero_le hpos
  rw [zpow_natCast] at hv
  cases steps with
  | zero => rfl
  | succ steps =>
    rw [scale, Int.natAbs_natCast]
    split
    case isTrue he =>
      simp only [isInf_mul_power hn he hv]
      rw [if_neg (by omega)]
      rfl
    case isFalse he =>
      split
      · rfl
      -- a number other than zero is already beyond all floats
      · rename_i hne
        exfalso
        have hn0 : n ≠ 0 := by rintro rfl; exact hne (by decide)
        have hone : (1 : ℚ) ≤ n := by exact_mod_cast Nat.one_le_iff_ne_zero.mpr hn0
        have hpow : (2 : ℚ) ^ 1024 ≤ 10 ^ 309 := by
          have : 2 ^ 1024 ≤ 10 ^ 309 := by decide +kernel
          exact_mod_cast this
        have hbig : (2 : ℚ) ^ 1024 ≤ n * 10 ^ e * slack ^ 3 :=
          calc (2 : ℚ) ^ 1024 ≤ 10 ^ 309 := hpow
            _ ≤ 10 ^ e := pow_le_pow_right₀ (by norm_num) (by omega)
            _ ≤ n * 10 ^ e := le_mul_of_one_le_left (by positivity) hone
            _ ≤ n * 10 ^ e * slack ^ 3 :=
              le_mul_of_one_le_right (by positivity) (one_le_pow₀ one_le_slack)
        exact absurd hv (not_lt.mpr hbig)

/-! ## Leading digits -/

theorem mul_pow_le_ofDigitChars (n : Nat) (cs : List Char) :
    n * 10 ^ cs.length ≤ Nat.ofDigitChars 10 cs n := by
  rw [Nat.ofDigitChars_eq_ofDigitChars_zero, Nat.mul_comm]
  exact Nat.le_add_right ..

/-- The digits that are taken have 64 bits, and name no more than all digits do. -/
theorem absorb_spec {n : Nat} (hn : n < UInt64.size) (cs : List Char) :
    (absorb n cs).1 < UInt64.size ∧ (absorb n cs).2 ≤ cs.length ∧
      (absorb n cs).1 * 10 ^ (cs.length - (absorb n cs).2) ≤ Nat.ofDigitChars 10 cs n := by
  induction cs generalizing n with
  | nil => simpa [absorb, Nat.ofDigitChars] using hn
  | cons c cs ih =>
    rw [absorb]
    dsimp only
    split
    case isTrue h =>
      obtain ⟨hlt, hle, hvalue⟩ := ih h
      refine ⟨hlt, Nat.succ_le_succ hle, ?_⟩
      rw [List.length_cons, Nat.succ_sub_succ]
      exact hvalue
    case isFalse =>
      exact ⟨hn, Nat.zero_le _, mul_pow_le_ofDigitChars n (c :: cs)⟩

theorem absorb_all {n : Nat} {cs : List Char} (h : Nat.ofDigitChars 10 cs n < UInt64.size) :
    absorb n cs = (Nat.ofDigitChars 10 cs n, cs.length) := by
  induction cs generalizing n with
  | nil => rw [absorb, Nat.ofDigitChars_nil, List.length_nil]
  | cons c cs ih =>
    rw [Nat.ofDigitChars_cons] at h ⊢
    have hle : 10 * n + (c.toNat - '0'.toNat) ≤ _ := Nat.le_trans
      (Nat.le_mul_of_pos_right _ (Nat.pow_pos (by decide))) (mul_pow_le_ofDigitChars _ cs)
    rw [absorb]
    simp only [if_pos (Nat.lt_of_le_of_lt hle h), ih h, List.length_cons]

theorem scaled?_isSome {n : Numeral} (hwhole : value n.whole < UInt64.size)
    (hv : n.magnitude * slack ^ 3 < 2 ^ 1024) : n.scaled?.isSome := by
  have hall : absorb 0 n.whole = (value n.whole, n.whole.length) := absorb_all hwhole
  obtain ⟨hlt, hle, hvalue⟩ := absorb_spec hwhole n.fraction
  have hdigits : Nat.ofDigitChars 10 n.fraction (value n.whole) = value (n.whole ++ n.fraction) :=
    (Nat.ofDigitChars_append 0).symm
  rw [hdigits] at hvalue
  simp only [scaled?, hall]
  generalize absorb (value n.whole) n.fraction = taken at hlt hle hvalue ⊢
  obtain ⟨leading, places⟩ := taken
  dsimp only at hlt hle hvalue
  have hmagnitude : (leading : ℚ) * 10 ^ ((0 : Nat) - (places : Int) + n.exponent.getD 0) ≤
      n.magnitude := by
    have hexp : (0 : Nat) - (places : Int) + n.exponent.getD 0 =
        (n.fraction.length - places : Nat) + (n.exponent.getD 0 - n.fraction.length) := by omega
    rw [hexp, zpow_add₀ (by norm_num), ← mul_assoc, zpow_natCast, magnitude]
    exact mul_le_mul_of_nonneg_right (by exact_mod_cast hvalue) (by positivity)
  have hroom := mul_le_mul_of_nonneg_right hmagnitude
    (pow_nonneg (zero_le_one.trans one_le_slack) 3)
  obtain ⟨y, hy⟩ := Option.isSome_iff_exists.mp (scale_isSome hlt (hroom.trans_lt hv) 4)
  split
  · rfl
  · rw [Nat.sub_self, hy]
    rfl

/-! ## Written floats -/

/-- The six largest floats, which the bound on roundings does not reach, one by one. -/
theorem scaled?_largest : ∀ i < 6, ∀ negative,
    let d := Decimal.shortest .even (2 ^ 53 - 1 - i) 971
    let digits := Nat.toDigits 10 d.digits
    ((ofDigits savedFloats negative digits (digits.length + d.exponent)).scaled?).isSome := by
  decide +kernel

theorem ofFloat?_isSome_iff (style : FloatStyle) (x : Float) :
    (ofFloat? style x).isSome ↔ x.isFinite := by
  rw [Binary64.isFinite_iff, ofFloat?]
  cases Binary64.ofFloat x with
  | nan | infinite => simp
  | finite negative m q => cases m <;> simp

/-- Three roundings stay below the least power of two beyond the floats. -/
theorem magnitude_lt {m : Nat} {q : Int} (hm : m < 2 ^ 53) (hq : q ≤ 971)
    (h : q < 971 ∨ m < 2 ^ 53 - 6) : ((m : ℚ) + 1 / 2) * 2 ^ q * slack ^ 3 < 2 ^ 1024 := by
  have hnonneg : (0 : ℚ) ≤ m + 1 / 2 := by positivity
  have hunit : (0 : ℚ) ≤ 2 ^ q := by positivity
  have hpow : (2 : ℚ) ^ 53 * 2 ^ (971 : Int) = 2 ^ 1024 := by
    rw [← zpow_natCast, ← zpow_add₀ (by norm_num), ← zpow_natCast]
    norm_num
  rw [mul_right_comm, ← hpow]
  clear hpow
  have htop : (0 : ℚ) < 2 ^ (971 : Int) := by positivity
  have hroom : (0 : ℚ) < slack ^ 3 := pow_pos (zero_lt_one.trans_le one_le_slack) 3
  rcases h with h | h
  · have hm' : (m : ℚ) + 1 / 2 < 2 ^ 53 := by
      have : (m : ℚ) + 1 ≤ 2 ^ 53 := by exact_mod_cast Nat.succ_le_of_lt hm
      linarith only [this]
    have hhalf : (2 : ℚ) ^ q ≤ 2 ^ (970 : Int) := zpow_le_zpow_right₀ (by norm_num) (by omega)
    have hslack : slack ^ 3 ≤ 2 := by unfold slack; norm_num
    calc ((m : ℚ) + 1 / 2) * slack ^ 3 * 2 ^ q
        ≤ ((m : ℚ) + 1 / 2) * 2 * 2 ^ (970 : Int) :=
          mul_le_mul (mul_le_mul_of_nonneg_left hslack hnonneg) hhalf hunit
            (mul_nonneg hnonneg zero_le_two)
      _ = ((m : ℚ) + 1 / 2) * 2 ^ (971 : Int) := by
          rw [mul_assoc, ← zpow_one_add₀ (by norm_num)]
          rfl
      _ < 2 ^ 53 * 2 ^ (971 : Int) := mul_lt_mul_of_pos_right hm' htop
  · have hm' : (m : ℚ) + 1 / 2 ≤ 2 ^ 53 - 13 / 2 := by
      have : (m : ℚ) + 7 ≤ 2 ^ 53 := by
        have : m + 7 ≤ 2 ^ 53 := by omega
        exact_mod_cast this
      linarith only [this]
    have hle : (2 : ℚ) ^ q ≤ 2 ^ (971 : Int) := zpow_le_zpow_right₀ (by norm_num) hq
    have hslack : ((2 : ℚ) ^ 53 - 13 / 2) * slack ^ 3 < 2 ^ 53 := by unfold slack; norm_num
    calc ((m : ℚ) + 1 / 2) * slack ^ 3 * 2 ^ q
        ≤ (2 ^ 53 - 13 / 2) * slack ^ 3 * 2 ^ (971 : Int) :=
          mul_le_mul (mul_le_mul_of_nonneg_right hm' hroom.le) hle hunit
            (mul_nonneg (by norm_num) hroom.le)
      _ < 2 ^ 53 * 2 ^ (971 : Int) := mul_lt_mul_of_pos_right hslack htop

/-- What is written for a finite float is read back as a float. -/
theorem scaled?_ofFloat? (h : ofFloat? savedFloats x = some n) : n.scaled?.isSome := by
  rw [ofFloat?] at h
  split at h
  case h_1 negative _ _ =>
    obtain rfl := Option.some.inj h
    cases negative <;> rfl
  case h_2 negative m q hm hx =>
    obtain rfl := Option.some.inj h
    obtain ⟨hmlt, hq⟩ := Binary64.ofFloat_bounds hx
    obtain hlargest | hsmall : (q = 971 ∧ 2 ^ 53 - 6 ≤ m) ∨ (q < 971 ∨ m < 2 ^ 53 - 6) := by omega
    · obtain ⟨rfl, hm⟩ := hlargest
      have := scaled?_largest (2 ^ 53 - 1 - m) (by omega) negative
      rwa [show 2 ^ 53 - 1 - (2 ^ 53 - 1 - m) = m by omega] at this
    have hdigits := Decimal.shortest_digits_ne_zero savedFloats.tie hm q
    have hle := Decimal.shortest_le savedFloats.tie m q
    generalize Decimal.shortest savedFloats.tie m q = d at hdigits hle
    refine scaled?_isSome ?_ ?_
    · have hwritten := written_ofDigits savedFloats negative hdigits
        ((Nat.toDigits 10 d.digits).length + d.exponent)
      refine (value_lt hwritten.whole_digits).trans_le ?_
      refine (Nat.pow_le_pow_right (by decide) (length_whole_ofDigits _ _ _ _ ?_)).trans ?_
      · decide
      · decide
    · rw [magnitude_ofDigits _ _ Nat.toDigits_ne_nil, value_toDigits, add_sub_cancel_left]
      refine lt_of_le_of_lt ?_ (magnitude_lt hmlt hq hsmall)
      exact mul_le_mul_of_nonneg_right hle (pow_nonneg (zero_le_one.trans one_le_slack) 3)
  case h_3 => cases h

end Numeral
end RelPlan
