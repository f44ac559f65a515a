import RelPlan.Number.Binary64
import Mathlib

/-! # Floats taken apart

What `Binary64.ofFloat` reads off the bits of a float is its one canonical form
(`Binary64.canonical_ofFloat`), and nothing is lost: the float is known from it
(`Binary64.ofFloat_inj`), since there is one `NaN` and the fields make up the bits. -/

namespace RelPlan
namespace Binary64

/-- The mantissa and exponent of a magnitude as floats hold it: no more than 53 digits, and the
leading one is there unless the exponent is the least. -/
structure Canonical (m : Nat) (q : Int) : Prop where
  lt : m < 2 ^ 53
  le : minExponent ≤ q
  leading : 2 ^ 52 ≤ m ∨ q = minExponent

variable {x y : Float}

theorem canonical_ofFloat (h : ofFloat x = .finite negative m q) : Canonical m q := by
  simp only [ofFloat, Nat.pow_eq] at h
  split at h
  · split at h <;> cases h
  split at h
  · obtain ⟨-, rfl, rfl⟩ := Binary64.finite.inj h
    exact ⟨by omega, Int.le_refl _, .inr rfl⟩
  · obtain ⟨-, rfl, rfl⟩ := Binary64.finite.inj h
    exact ⟨by omega, by unfold minExponent; omega, .inl (by omega)⟩

/-- The mantissa of a float has at most 53 digits, and its exponent is at most that of the largest
floats. -/
theorem ofFloat_bounds (h : ofFloat x = .finite negative m q) : m < 2 ^ 53 ∧ q ≤ 971 := by
  refine ⟨(canonical_ofFloat h).lt, ?_⟩
  simp only [ofFloat, Nat.pow_eq] at h
  split at h
  · split at h <;> cases h
  split at h
  · obtain ⟨-, -, rfl⟩ := Binary64.finite.inj h
    decide
  · obtain ⟨-, -, rfl⟩ := Binary64.finite.inj h
    omega

/-! ## Against the bits -/

open Float.Model.UnpackedFloat (unpackExponent unpackMantissa packedNaN)

theorem toNat_unpackExponent (b : BitVec 64) :
    (@unpackExponent .binary64 b).toNat = b.toNat / 2 ^ 52 % 2 ^ 11 := by
  simp [unpackExponent, Nat.shiftRight_eq_div_pow]

theorem toNat_unpackMantissa (b : BitVec 64) :
    (@unpackMantissa .binary64 b).toNat = b.toNat % 2 ^ 52 := by
  simp [unpackMantissa]

/-- The exponent field is full for the values that are no number. -/
theorem unpackExponent_eq_iff (b : BitVec 64) :
    @unpackExponent .binary64 b = -1#11 ↔ b.toNat / 2 ^ 52 % 2 ^ 11 = 2047 := by
  rw [← BitVec.toNat_inj, toNat_unpackExponent]
  rfl

theorem isFinite_iff (x : Float) :
    x.isFinite ↔ ∃ negative m q, ofFloat x = .finite negative m q := by
  have hones := unpackExponent_eq_iff x.toBits.toBitVec
  change (Float.Model.UnpackedFloat.unpack .binary64 x.toBits.toBitVec).isFinite ↔ _
  rw [Float.Model.UnpackedFloat.unpack]
  by_cases hspecial : x.toBits.toNat / 2 ^ 52 % 2 ^ 11 = 2047
  · simp only [if_pos (hones.mpr hspecial), ofFloat, Nat.pow_eq, if_pos hspecial]
    split <;> split <;> simp [Float.Model.UnpackedFloat.isFinite]
  · simp only [if_neg (hones.not.mpr hspecial), ofFloat, Nat.pow_eq, if_neg hspecial]
    refine iff_of_true ?_ ?_
    · split
      · split <;> rfl
      · rfl
    · split <;> exact ⟨_, _, _, rfl⟩

/-- There is one `NaN`. -/
theorem toBits_of_nan (h : ofFloat x = .nan) : x.toBits.toBitVec = packedNaN .binary64 := by
  simp only [ofFloat, Nat.pow_eq] at h
  split at h
  case isFalse => split at h <;> cases h
  case isTrue hexp =>
    split at h
    case isTrue => cases h
    case isFalse hfraction =>
      refine x.toModel.valid.eq_packedNaN ((unpackExponent_eq_iff _).mpr hexp) fun hzero => ?_
      rw [← BitVec.toNat_inj, toNat_unpackMantissa] at hzero
      exact hfraction hzero

theorem toBits_of_infinite (h : ofFloat x = .infinite negative) :
    x.toBits.toNat = (if negative then 2 ^ 63 else 0) + 2047 * 2 ^ 52 := by
  have hlt := x.toBits.toNat_lt
  simp only [ofFloat, Nat.pow_eq] at h
  split at h
  case isFalse => split at h <;> cases h
  case isTrue =>
    split at h
    case isFalse => cases h
    case isTrue =>
      obtain rfl := Binary64.infinite.inj h
      simp only [beq_iff_eq]
      split <;> omega

/-- The fields of a finite float make up its bits. -/
theorem toBits_of_finite (h : ofFloat x = .finite negative m q) :
    x.toBits.toNat = (if negative then 2 ^ 63 else 0) +
      if m < 2 ^ 52 then m else (q + 1075).toNat * 2 ^ 52 + (m - 2 ^ 52) := by
  have hlt := x.toBits.toNat_lt
  simp only [ofFloat, Nat.pow_eq] at h
  split at h
  case isTrue => split at h <;> cases h
  case isFalse =>
    split at h
    all_goals
      obtain ⟨rfl, rfl, rfl⟩ := Binary64.finite.inj h
      simp only [beq_iff_eq]
      split <;> split <;> omega

private theorem eq_of_toBits : ∀ {x y : Float}, x.toBits = y.toBits → x = y
  | ⟨⟨_, _⟩⟩, ⟨⟨_, _⟩⟩, rfl => rfl

/-- A float is known from its sign, mantissa and exponent. -/
theorem ofFloat_inj : ofFloat x = ofFloat y ↔ x = y := by
  refine ⟨fun h => eq_of_toBits ?_, congrArg ofFloat⟩
  cases hy : ofFloat y with
  | nan =>
    rw [← UInt64.toBitVec_inj, toBits_of_nan (h.trans hy), toBits_of_nan hy]
  | infinite negative =>
    rw [← UInt64.toNat_inj, toBits_of_infinite (h.trans hy), toBits_of_infinite hy]
  | finite negative m q =>
    rw [← UInt64.toNat_inj, toBits_of_finite (h.trans hy), toBits_of_finite hy]

end Binary64
end RelPlan
