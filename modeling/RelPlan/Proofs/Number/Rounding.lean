import RelPlan.Number.Scaled
import Mathlib

/-! # Products that stay finite

Rounding to 53 binary digits adds at most one unit in the last of them (`Rounding.exists_round`). So
the product of a 64-bit number with a power of ten is finite as long as the exact product, with
three roundings on top, is below the least power of two beyond the floats
(`Rounding.isInf_mul_power`). -/

namespace RelPlan
open Float.Model Float.Model.UnpackedFloat

namespace Rounding

theorem mantissa_shiftRight (em : ExtendedMantissa) (k : Nat) :
    (em >>> k).mantissa = em.mantissa / 2 ^ k := by
  change (k.repeat ExtendedMantissa.shiftRightOne em).mantissa = _
  induction k with
  | zero => simp [Nat.repeat]
  | succ k ih =>
    rw [Nat.repeat, Nat.pow_succ, ← Nat.div_div_eq_div_mul, ← ih]
    rfl

theorem le_roundedMantissa (em : ExtendedMantissa) :
    em.mantissa ≤ em.roundedMantissa ∧ em.roundedMantissa ≤ em.mantissa + 1 := by
  obtain ⟨m, _ | _, _ | _⟩ := em <;>
    simp only [ExtendedMantissa.roundedMantissa, ExtendedMantissa.accuracy,
      Accuracy.roundToNearestEven] <;> omega

theorem mantissa_ofMantissa (m : Nat) (acc : Accuracy) :
    (ExtendedMantissa.ofMantissaAndAccuracy m acc).mantissa = m := by
  unfold ExtendedMantissa.ofMantissaAndAccuracy
  split <;> rfl

theorem targetExponent_eq (t : Int) : Format.binary64.targetExponent t = max (t - 53) (-1074) := rfl

theorem shift_eq (hlog : 52 ≤ m.log2) (he : -1074 ≤ e) (acc : Accuracy) :
    shiftToTargetExponent .binary64 m e acc =
      (ExtendedMantissa.ofMantissaAndAccuracy m acc >>> (m.log2 - 52),
        e + (m.log2 - 52 : Nat)) := by
  have hshift : (Format.binary64.targetExponent (totalExponent m e) - e).toNat = m.log2 - 52 := by
    rw [targetExponent_eq, totalExponent]
    omega
  simp only [shiftToTargetExponent, shiftToExponent, hshift]

theorem toNat_implicit (m : BitVec 52) : (1#1 ++ m).toNat = 2 ^ 52 + m.toNat := by
  rw [BitVec.toNat_append, ← Nat.shiftLeft_add_eq_or_of_lt m.isLt]
  simp

/-- A normal number is read back from its bits. -/
theorem exists_unpack_pack (s : Sign) {m : Nat} {e : Int} (h : 0 < m) (hm : 2 ^ 52 ≤ m)
    (hm' : m < 2 ^ 53) (he : -1074 ≤ e) (he' : e ≤ 971) :
    ∃ s', UnpackedFloat.unpack .binary64 (UnpackedFloat.pack .binary64 (.finite s m e h)) =
      .finite s' m e h := by
  have hlog : m.log2 = 52 := by
    rw [Nat.log2_eq_iff h.ne']
    exact ⟨hm, hm'⟩
  obtain ⟨b, hb⟩ : ∃ b : Nat, (b : Int) = e + 1075 := ⟨(e + 1075).toNat, by omega⟩
  have hbiased : (e + (Format.binary64.exponentBias : Int) + (52 : Nat)).toNat = b := by
    have : Format.binary64.exponentBias = 1023 := rfl
    omega
  have hpack : UnpackedFloat.pack .binary64 (.finite s m e h) =
      packComponents .binary64 s (BitVec.ofNat 11 b) (BitVec.ofNat 52 m) := by
    simp only [UnpackedFloat.pack, hbiased, hlog]
    rw [if_neg (by omega), if_pos (by rfl)]
  have hones : BitVec.ofNat 11 b ≠ -1#11 := by
    rw [ne_eq, ← BitVec.toNat_inj, BitVec.toNat_ofNat, show (-1#11).toNat = 2047 from rfl]
    omega
  have hzero : BitVec.ofNat 11 b ≠ 0#11 := by
    rw [ne_eq, ← BitVec.toNat_inj, BitVec.toNat_ofNat, show (0#11).toNat = 0 from rfl]
    omega
  have hmantissa : (1#1 ++ BitVec.ofNat 52 m).toNat = m := by
    rw [toNat_implicit, BitVec.toNat_ofNat]
    omega
  have hexp : ((BitVec.ofNat 11 b).toNat : Int) -
      (Format.binary64.exponentBias + (52 : Nat)) = e := by
    have : Format.binary64.exponentBias = 1023 := rfl
    rw [BitVec.toNat_ofNat]
    omega
  rw [hpack, UnpackedFloat.unpack]
  simp only [unpackMantissa_packComponents, unpackExponent_packComponents]
  rw [if_neg hones, if_neg hzero]
  simp only [hmantissa, hexp]
  exact ⟨_, rfl⟩

/-- The number has 53 binary digits, its last place is at least `2 ^ least`, and its magnitude is at
most `v`. -/
def AtMost (u : UnpackedFloat) (least : Int) (v : ℚ) : Prop :=
  ∃ s m e h, u = .finite s m e h ∧ 2 ^ 52 ≤ m ∧ m < 2 ^ 53 ∧ least ≤ e ∧ (m : ℚ) * 2 ^ e ≤ v

/-- The factor by which a rounding may increase a magnitude. -/
def slack : ℚ := 1 + 1 / 2 ^ 52

/-- Rounding keeps 53 digits and adds at most one unit in the last of them. -/
theorem exists_round (s : Sign) {m : Nat} {e : Int} (hm : 2 ^ 52 ≤ m) (he : -1074 ≤ e) :
    ∃ r k h, roundWithAccuracy .binary64 s m e .exact = .finite s r (e + (k : Nat)) h ∧
      2 ^ 52 ≤ r ∧ r < 2 ^ 53 ∧ r * 2 ^ k * 2 ^ 52 ≤ m * (2 ^ 52 + 1) := by
  have hm0 : m ≠ 0 := by omega
  have hlog : 52 ≤ m.log2 := (Nat.le_log2 hm0).mpr hm
  obtain ⟨k, hk⟩ : ∃ k, m.log2 = 52 + k := ⟨m.log2 - 52, by omega⟩
  have hlow : 2 ^ 52 * 2 ^ k ≤ m := by
    rw [← Nat.pow_add, ← hk]
    exact Nat.log2_self_le hm0
  have hhigh : m < 2 ^ 53 * 2 ^ k := by
    have := Nat.lt_log2_self (n := m)
    rw [← Nat.pow_add]
    rwa [hk, show 52 + k + 1 = 53 + k by omega] at this
  have hfirst := shift_eq hlog he .exact
  generalize hem : ExtendedMantissa.ofMantissaAndAccuracy m .exact >>> (m.log2 - 52) = em at hfirst
  have hq : em.mantissa = m / 2 ^ k := by
    rw [← hem, mantissa_shiftRight, mantissa_ofMantissa, hk, Nat.add_sub_cancel_left]
  have hpow : 0 < 2 ^ k := Nat.pow_pos (by decide)
  have hqlow : 2 ^ 52 ≤ m / 2 ^ k := (Nat.le_div_iff_mul_le hpow).mpr hlow
  have hqhigh : m / 2 ^ k < 2 ^ 53 := (Nat.div_lt_iff_lt_mul hpow).mpr hhigh
  obtain ⟨hrlow, hrhigh⟩ := le_roundedMantissa em
  rw [hq] at hrlow hrhigh
  generalize hr : em.roundedMantissa = r at hrlow hrhigh
  have hbound : r * 2 ^ k * 2 ^ 52 ≤ m * (2 ^ 52 + 1) := by
    have := Nat.div_mul_le_self m (2 ^ k)
    nlinarith
  have hlogr : 52 ≤ r.log2 := (Nat.le_log2 (by omega)).mpr (by omega)
  have hsecond := shift_eq (e := e + (m.log2 - 52 : Nat)) hlogr (by omega) .exact
  simp only [roundWithAccuracy, hfirst, hr, hsecond, mantissa_shiftRight, mantissa_ofMantissa]
  obtain hlt | heq : r < 2 ^ 53 ∨ r = 2 ^ 53 := by omega
  · have hrlog : r.log2 = 52 := (Nat.log2_eq_iff (by omega)).mpr ⟨by omega, hlt⟩
    refine ⟨r, k, by omega, ?_, by omega, hlt, hbound⟩
    rw [dif_neg (by simp [hrlog]; omega)]
    simp [hrlog, hk]
  · subst heq
    have hrlog : (2 ^ 53).log2 = 53 := Nat.log2_two_pow
    have hcarry : 2 ^ 52 * 2 ^ (k + 1) = 2 ^ 53 * 2 ^ k := by
      rw [← Nat.pow_add, ← Nat.pow_add, show 52 + (k + 1) = 53 + k by omega]
    refine ⟨2 ^ 52, k + 1, by omega, ?_, by omega, by omega, by rwa [hcarry]⟩
    simp only [hrlog]
    rw [dif_neg (by omega)]
    simp only [hk]
    congr 1; omega

theorem one_le_slack : 1 ≤ slack := by unfold slack; norm_num

theorem slack_le_two : slack ≤ 2 := by unfold slack; norm_num

theorem mul_slack_lt {a b : ℚ} (h : a * (2 ^ 52 + 1) < b * 2 ^ 52) : a * slack < b := by
  unfold slack
  linarith

theorem atMost_round (s : Sign) {m : Nat} {e : Int} (hm : 2 ^ 52 ≤ m) (he : -1074 ≤ e) :
    AtMost (roundWithAccuracy .binary64 s m e .exact) e (m * 2 ^ e * slack) := by
  obtain ⟨r, k, h, hround, hlow, hhigh, hbound⟩ := exists_round s hm he
  refine ⟨s, r, e + k, h, hround, hlow, hhigh, by omega, ?_⟩
  have hcast : (r : ℚ) * 2 ^ k * 2 ^ 52 ≤ m * (2 ^ 52 + 1) := by exact_mod_cast hbound
  have hpos : (0 : ℚ) < 2 ^ e := by positivity
  rw [zpow_add₀ (by norm_num), zpow_natCast, slack]
  have hle : (r : ℚ) * 2 ^ k ≤ m * (1 + 1 / 2 ^ 52) := by linarith
  calc (r : ℚ) * (2 ^ e * 2 ^ k) = r * 2 ^ k * 2 ^ e := by ring
    _ ≤ m * (1 + 1 / 2 ^ 52) * 2 ^ e := mul_le_mul_of_nonneg_right hle hpos.le
    _ = m * 2 ^ e * (1 + 1 / 2 ^ 52) := by ring

theorem AtMost.isInf_eq_false {u : UnpackedFloat} (h : AtMost u least v) : u.isInf = false := by
  obtain ⟨s, m, e, h, rfl, -⟩ := h
  rfl

/-- Below the largest power of two a number with 53 digits is a float. -/
theorem AtMost.unpack_pack {u : UnpackedFloat} (h : AtMost u least v) (hleast : -1074 ≤ least)
    (hv : v < 2 ^ 1024) : AtMost (Float.Model.pack u).unpack least v := by
  obtain ⟨s, m, e, h, rfl, hlow, hhigh, hle, hmax⟩ := h
  have he : e ≤ 971 := by
    by_contra hgt
    have hlow' : (2 ^ 52 : ℚ) ≤ m := by exact_mod_cast hlow
    have hexp : (2 : ℚ) ^ 972 ≤ 2 ^ e := by
      rw [← zpow_natCast]
      exact zpow_le_zpow_right₀ (by norm_num) (by omega)
    have hbig : (2 : ℚ) ^ 1024 ≤ m * 2 ^ e :=
      calc (2 : ℚ) ^ 1024 = 2 ^ 52 * 2 ^ 972 := by rw [← pow_add]
        _ ≤ (m : ℚ) * 2 ^ e := mul_le_mul hlow' hexp (by positivity) (by positivity)
    exact absurd (hmax.trans_lt hv) (not_lt.mpr hbig)
  obtain ⟨s', hs⟩ := exists_unpack_pack s h hlow hhigh (by omega) he
  exact ⟨s', m, e, h, hs, hlow, hhigh, hle, hmax⟩

theorem AtMost.mul {u u' : UnpackedFloat} (h : AtMost u a v) (h' : AtMost u' a' v')
    (hleast : -1074 ≤ a + a') :
    AtMost (UnpackedFloat.mul .binary64 u u') (a + a') (v * v' * slack) := by
  obtain ⟨s, m, e, hm, rfl, hlow, -, hle, hmax⟩ := h
  obtain ⟨s', m', e', hm', rfl, hlow', -, hle', hmax'⟩ := h'
  have hprod : 2 ^ 52 ≤ m * m' := by nlinarith
  obtain ⟨s₁, r, e₁, hr, heq, hr₁, hr₂, hle₁, hmax₁⟩ :=
    atMost_round (s * s') hprod (show -1074 ≤ e + e' by omega)
  refine ⟨s₁, r, e₁, hr, heq, hr₁, hr₂, by omega, hmax₁.trans ?_⟩
  refine mul_le_mul_of_nonneg_right ?_ (zero_le_one.trans one_le_slack)
  rw [zpow_add₀ (by norm_num)]
  push_cast
  calc (m : ℚ) * m' * (2 ^ e * 2 ^ e') = (m * 2 ^ e) * (m' * 2 ^ e') := by ring
    _ ≤ v * v' := mul_le_mul hmax hmax' (by positivity) (le_trans (by positivity) hmax)

theorem atMost_ofNat (hn : 0 < n) :
    AtMost (UnpackedFloat.ofNat .binary64 n) (-52) (n * slack) := by
  have hlow := Nat.log2_self_le hn.ne'
  obtain ⟨k, hk⟩ : ∃ k : Nat, k = 52 - n.log2 := ⟨_, rfl⟩
  have hround : UnpackedFloat.ofNat .binary64 n =
      roundWithAccuracy .binary64 .positive (n * 2 ^ k) (-k) .exact := by
    have hcompare : compare (n : Int) 0 = .gt := by
      rw [Int.compare_eq_gt]; omega
    have hshift : (0 - Format.binary64.targetExponent (totalExponent n 0)).toNat = k := by
      rw [targetExponent_eq, totalExponent]
      omega
    simp only [UnpackedFloat.ofNat, UnpackedFloat.ofInt, UnpackedFloat.normalize, hcompare,
      UnpackedFloat.round, decreaseExponent, Int.toNat_natCast, hshift, Nat.shiftLeft_eq]
    rw [Int.zero_sub]
  have hm : 2 ^ 52 ≤ n * 2 ^ k :=
    calc 2 ^ 52 ≤ 2 ^ (n.log2 + k) := Nat.pow_le_pow_right (by decide) (by omega)
      _ = 2 ^ n.log2 * 2 ^ k := Nat.pow_add ..
      _ ≤ n * 2 ^ k := Nat.mul_le_mul_right _ hlow
  obtain ⟨s, m, e, h, heq, hm₁, hm₂, hle, hmax⟩ :=
    atMost_round .positive hm (show -1074 ≤ -(k : Int) by omega)
  refine ⟨s, m, e, h, hround.trans heq, hm₁, hm₂, by omega, hmax.trans (le_of_eq ?_)⟩
  push_cast
  rw [zpow_neg, zpow_natCast, mul_inv_cancel_right₀ (by positivity)]

/-- Whether a power of ten is rounded to 53 digits. -/
def powerRounded (e : Nat) : Bool :=
  match (Float.ofScientific 1 false e).toModel.unpack with
  | .finite _ m q _ =>
    2 ^ 52 ≤ m && m < 2 ^ 53 && -53 ≤ q && m * 2 ^ (q + 53).toNat ≤ 2 * 10 ^ e * (2 ^ 52 + 1)
  | _ => false

/-- The powers of ten up to `10 ^ 22` come from a table. -/
theorem powerRounded_of_lt : ∀ e < 23, powerRounded e := by
  decide

theorem atMost_of_powerRounded (h : powerRounded e) :
    AtMost (Float.ofScientific 1 false e).toModel.unpack (-53) (10 ^ e * slack) := by
  unfold powerRounded at h
  split at h
  case h_2 => cases h
  case h_1 s m q hm heq =>
    simp only [Bool.and_eq_true, decide_eq_true_eq] at h
    obtain ⟨⟨⟨hlow, hhigh⟩, hq⟩, hle⟩ := h
    refine ⟨s, m, q, hm, heq, hlow, hhigh, hq, ?_⟩
    obtain ⟨k, rfl⟩ : ∃ k : Nat, q = k - 53 := ⟨(q + 53).toNat, by omega⟩
    rw [show ((k : Int) - 53 + 53).toNat = k by omega] at hle
    have hcast : (m : ℚ) * 2 ^ k ≤ 2 * 10 ^ e * (2 ^ 52 + 1) := by exact_mod_cast hle
    rw [zpow_sub₀ (by norm_num), zpow_natCast, slack, ← mul_div_assoc]
    refine (div_le_iff₀ (by positivity)).mpr (hcast.trans (le_of_eq ?_))
    norm_num
    ring

/-- Above them they are rounded. -/
theorem atMost_power (he : e ≤ 308) :
    AtMost (Float.ofScientific 1 false e).toModel.unpack (-53) (10 ^ e * slack) := by
  obtain hlt | hge := Nat.lt_or_ge e 23
  · exact atMost_of_powerRounded (powerRounded_of_lt e hlt)
  have hslow : Float.ofScientific 1 false e = .ofModel (Float.Model.ofScientific 1 e) := by
    rw [Float.ofScientific, dif_neg (by omega)]
    rfl
  have hround : UnpackedFloat.ofScientific .binary64 1 e =
      roundWithAccuracy .binary64 (.positive * .positive) (2 ^ 53 * 10 ^ e) (-53) .exact := by
    rw [UnpackedFloat.ofScientific, dif_neg (by decide), if_neg, if_neg, if_pos (by omega)]
    · rfl
    · have : -((2 ^ 11 : Int) + (Nat.log2 1 : Nat)) ≤ (e : Int) := by norm_num; omega
      exact not_lt.mpr this
    · have : (e : Int) ≤ 2 ^ 11 := by norm_num; omega
      exact not_lt.mpr this
  have hbound := atMost_round (.positive * .positive) (m := 2 ^ 53 * 10 ^ e) (e := -53)
    (by have := Nat.one_le_pow e 10 (by decide); omega) (by decide)
  have hvalue : ((2 ^ 53 * 10 ^ e : Nat) : ℚ) * 2 ^ (-53 : Int) = 10 ^ e := by
    push_cast
    rw [zpow_neg, show (2 : ℚ) ^ (53 : Int) = 2 ^ 53 by norm_cast]
    ring
  rw [hvalue] at hbound
  rw [hslow, Float.Model.ofScientific, hround]
  refine hbound.unpack_pack (by decide) ?_
  have hlargest : 10 ^ 308 * (2 ^ 52 + 1) < 2 ^ 1024 * 2 ^ 52 := by decide +kernel
  calc (10 : ℚ) ^ e * slack ≤ 10 ^ 308 * slack :=
        mul_le_mul_of_nonneg_right (pow_le_pow_right₀ (by norm_num) he)
          (zero_le_one.trans one_le_slack)
    _ < 2 ^ 1024 := mul_slack_lt (by exact_mod_cast hlargest)

theorem isInf_zero (s : Sign) : (Float.Model.pack (.zero s)).unpack.isInf = false := by
  cases s <;> decide

/-- Three roundings are made: of the number, of the power, and of their product. -/
theorem isInf_mul_power {n e : Nat} (hn : n < UInt64.size) (he : e ≤ 308)
    (hv : (n * 10 ^ e : ℚ) * slack ^ 3 < 2 ^ 1024) :
    (n.toUInt64.toFloat * Float.ofScientific 1 false e).isInf = false := by
  have hpower := atMost_power he
  have hfloat : n.toUInt64.toFloat =
      .ofModel (Float.Model.pack (UnpackedFloat.ofNat .binary64 n)) := by
    have hn' : n.toUInt64.toNat = n := Nat.mod_eq_of_lt hn
    rw [UInt64.toFloat, Float.Model.ofUInt64, UnpackedFloat.ofUInt64, hn']
  rcases Nat.eq_zero_or_pos n with rfl | hpos
  · obtain ⟨s, m, q, hm, heq, -⟩ := hpower
    have hzero : (Nat.toUInt64 0).toFloat.toModel.unpack = .zero .positive := rfl
    have hmul : UnpackedFloat.mul .binary64 (.zero .positive) (.finite s m q hm) =
        .zero (.positive * s) := rfl
    change (Float.Model.pack (UnpackedFloat.mul .binary64 (Nat.toUInt64 0).toFloat.toModel.unpack
      (Float.ofScientific 1 false e).toModel.unpack)).unpack.isInf = false
    rw [hzero, heq, hmul]
    exact isInf_zero _
  have hprod : (n * slack) * (10 ^ e * slack) * slack < 2 ^ 1024 :=
    calc (n * slack) * (10 ^ e * slack) * slack = (n * 10 ^ e : ℚ) * slack ^ 3 := by ring
      _ < 2 ^ 1024 := hv
  have hnat : n * slack < 2 ^ 1024 :=
    calc n * slack ≤ 2 ^ 64 * 2 :=
          mul_le_mul (by exact_mod_cast hn.le) slack_le_two (zero_le_one.trans one_le_slack)
            (by positivity)
      _ < 2 ^ 1024 := by
          rw [← pow_succ]
          exact pow_lt_pow_right₀ (by norm_num) (by norm_num)
  rw [hfloat]
  exact ((((atMost_ofNat hpos).unpack_pack (by decide) hnat).mul hpower
    (by decide)).unpack_pack (by decide) hprod).isInf_eq_false

end Rounding
end RelPlan
