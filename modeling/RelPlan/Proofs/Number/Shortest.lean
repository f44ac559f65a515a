import RelPlan.Number.Shortest
import Mathlib.Algebra.Order.Field.Power
import Mathlib.Algebra.Order.Field.Rat
import Mathlib.Tactic.Linarith
import Mathlib.Tactic.NormNum
import Mathlib.Tactic.Positivity
import Mathlib.Tactic.Ring

/-! # Shortest digits

The search for the shortest decimal of a float ends with a positive number of units
(`Decimal.shortest_digits_ne_zero`): a hit at zero is passed over, and on the last grid the value is
at least one unit. What it finds is at most half a unit in the last place above the float
(`Decimal.shortest_le`). -/

namespace RelPlan
namespace Decimal

/-! ## The number of digits -/

theorem digitCount_le_iff (hk : 0 < k) : digitCount n ≤ k ↔ n < 10 ^ k :=
  Nat.length_toDigits_le_iff (by omega) hk

theorem digitCount_pos (n : Nat) : 0 < digitCount n := Nat.length_toDigits_pos

theorem lt_pow_digitCount (n : Nat) : n < 10 ^ digitCount n :=
  (digitCount_le_iff (digitCount_pos n)).mp (Nat.le_refl _)

theorem pow_pred_digitCount_le (h : n ≠ 0) : 10 ^ (digitCount n - 1) ≤ n := by
  rcases Nat.eq_zero_or_pos (digitCount n - 1) with h1 | h1
  · rw [h1]
    exact Nat.pos_of_ne_zero h
  · by_contra hlt
    have := (digitCount_le_iff h1).mpr (Nat.lt_of_not_le hlt)
    omega

/-! ## The last grid -/

variable {s : Span}

theorem pow_mul_denominator_le (hden : 0 < s.denominator) (h : s.denominator ≤ s.high) :
    10 ^ (digitCount (s.high / s.denominator) - 1) * s.denominator ≤ s.high := by
  have hpos : s.high / s.denominator ≠ 0 := by
    rw [Nat.div_ne_zero_iff]
    omega
  calc 10 ^ (digitCount (s.high / s.denominator) - 1) * s.denominator
      ≤ s.high / s.denominator * s.denominator :=
        Nat.mul_le_mul_right _ (pow_pred_digitCount_le hpos)
    _ ≤ s.high := Nat.div_mul_le_self _ _

theorem denominator_le_pow_mul (hhigh : 0 < s.high) :
    s.denominator ≤ 10 ^ digitCount ((s.denominator - 1) / s.high) * s.high := by
  have := (Nat.div_lt_iff_lt_mul hhigh).mp (lt_pow_digitCount ((s.denominator - 1) / s.high))
  omega

theorem mul_pow_le_mul_pow {x y a b c d : Nat} (h : x * 10 ^ c ≤ y * 10 ^ d)
    (hexp : a + d ≤ b + c) : x * 10 ^ a ≤ y * 10 ^ b := by
  refine Nat.le_of_mul_le_mul_right ?_ (Nat.pow_pos (n := d) (by decide : 0 < 10))
  calc x * 10 ^ a * 10 ^ d = x * 10 ^ (a + d) := by rw [Nat.pow_add, Nat.mul_assoc]
    _ ≤ x * 10 ^ (b + c) := Nat.mul_le_mul_left _ (Nat.pow_le_pow_right (by decide) hexp)
    _ = x * 10 ^ c * 10 ^ b := by rw [Nat.add_comm, Nat.pow_add, Nat.mul_assoc]
    _ ≤ y * 10 ^ d * 10 ^ b := Nat.mul_le_mul_right _ h
    _ = y * 10 ^ b * 10 ^ d := Nat.mul_right_comm ..

/-- Twenty grids below the coarsest one a unit is no more than any width of which the interval's end
is at most `10 ^ 17`. -/
theorem denominator_le_width {width : Nat} (hden : 0 < s.denominator) (hhigh : 0 < s.high)
    (hwidth : s.high ≤ width * 10 ^ 17) :
    (s.inUnits (coarsest s - 20)).denominator ≤ width * 10 ^ (-(coarsest s - 20)).toNat := by
  simp only [Span.inUnits, coarsest, Nat.pow_eq]
  split
  case isTrue h =>
    have hk := digitCount_pos (s.high / s.denominator)
    refine mul_pow_le_mul_pow (c := digitCount (s.high / s.denominator) - 1) (d := 17) ?_ (by omega)
    rw [Nat.mul_comm]
    exact (pow_mul_denominator_le hden h).trans hwidth
  case isFalse =>
    refine mul_pow_le_mul_pow (c := 0)
      (d := digitCount ((s.denominator - 1) / s.high) + 17) ?_ (by omega)
    calc s.denominator * 10 ^ 0
        ≤ 10 ^ digitCount ((s.denominator - 1) / s.high) * s.high := by
          simpa using denominator_le_pow_mul hhigh
      _ ≤ 10 ^ digitCount ((s.denominator - 1) / s.high) * (width * 10 ^ 17) :=
          Nat.mul_le_mul_left _ hwidth
      _ = width * 10 ^ (digitCount ((s.denominator - 1) / s.high) + 17) := by
          rw [Nat.pow_add]; ring

/-- Twenty grids below the coarsest one the value is at least one unit. -/
theorem denominator_le_value (hden : 0 < s.denominator) (hhigh : 0 < s.high)
    (hvalue : s.high ≤ s.value * 10) :
    (s.inUnits (coarsest s - 20)).denominator ≤ (s.inUnits (coarsest s - 20)).value :=
  denominator_le_width hden hhigh
    (hvalue.trans (Nat.mul_le_mul_left _ (Nat.le_self_pow (by decide) 10)))

/-- The search ends with a positive number of units. -/
theorem search_digits_ne_zero (tie : Tie) (grids : Nat) (e : Int)
    (h : (s.inUnits (e - grids)).denominator ≤ (s.inUnits (e - grids)).value)
    (hden : 0 < (s.inUnits (e - grids)).denominator) : (search tie s grids e).digits ≠ 0 := by
  induction grids generalizing e with
  | zero =>
    simp only [Nat.cast_zero, sub_zero] at h hden
    exact (Nat.div_pos h hden).ne'
  | succ grids ih =>
    have hnext : e - (grids + 1 : Nat) = e - 1 - grids := by omega
    rw [hnext] at h hden
    rw [search]
    split
    · split
      · exact ih _ h hden
      · assumption
    · exact ih _ h hden

theorem shortest_digits_ne_zero (tie : Tie) (hm : m ≠ 0) (q : Int) :
    (shortest tie m q).digits ≠ 0 := by
  have hscale : 0 < 2 ^ (q - 2).toNat := Nat.pow_pos (by decide)
  refine search_digits_ne_zero tie 20 _ (denominator_le_value ?_ ?_ ?_) ?_
  all_goals simp only [Span.ofBinary, Nat.pow_eq, Span.inUnits]
  · positivity
  · positivity
  · have : 0 < m := Nat.pos_of_ne_zero hm
    nlinarith
  · positivity

/-! ## The interval -/

theorem Span.holds_of_nearest? (h : s.nearest? tie = some c) : s.holds c := by
  simp only [Span.nearest?] at h
  split at h
  · cases h
  · rename_i hc _
    obtain rfl := Option.some.inj h
    exact hc
  · rename_i hc
    obtain rfl := Option.some.inj h
    exact hc
  · rename_i hc hc'
    split at h
    · obtain rfl := Option.some.inj h
      exact hc
    split at h
    · obtain rfl := Option.some.inj h
      exact hc'
    cases tie with
    | up =>
      obtain rfl := Option.some.inj h
      exact hc'
    | even =>
      obtain rfl := Option.some.inj h
      split <;> assumption

theorem Span.le_high_of_holds (h : s.holds c) : c * s.denominator ≤ s.high := by
  simp only [Span.holds] at h
  split at h <;> simp only [Bool.and_eq_true, decide_eq_true_eq] at h <;> omega

/-- No more than the end of the interval is found. -/
theorem search_le (tie : Tie) (grids : Nat) (e : Int) (hvalue : s.value ≤ s.high) :
    let d := search tie s grids e
    d.digits * (s.inUnits d.exponent).denominator ≤ (s.inUnits d.exponent).high := by
  induction grids generalizing e with
  | zero =>
    simp only [search]
    exact (Nat.div_mul_le_self _ _).trans (Nat.mul_le_mul_right _ hvalue)
  | succ grids ih =>
    simp only [search]
    split
    case h_1 c hc =>
      split
      · exact ih _
      · exact Span.le_high_of_holds (Span.holds_of_nearest? hc)
    case h_2 => exact ih _

theorem zpow_eq_div_toNat (x : ℚ) (e : Int) :
    x ^ e = x ^ e.toNat / x ^ (-e).toNat := by
  obtain ⟨n, rfl | rfl⟩ := e.eq_nat_or_neg <;> simp

/-- The shortest decimal is at most half a unit in the last place above its float. -/
theorem shortest_le (tie : Tie) (m : Nat) (q : Int) :
    ((shortest tie m q).digits : ℚ) * 10 ^ (shortest tie m q).exponent ≤ (m + 1 / 2) * 2 ^ q := by
  have hle : (Span.ofBinary m q).value ≤ (Span.ofBinary m q).high :=
    Nat.mul_le_mul_right _ (Nat.le_add_right ..)
  have hsearch : (shortest tie m q).digits *
      ((Span.ofBinary m q).inUnits (shortest tie m q).exponent).denominator ≤
        ((Span.ofBinary m q).inUnits (shortest tie m q).exponent).high :=
    search_le tie 20 _ hle
  generalize shortest tie m q = d at hsearch ⊢
  simp only [Span.inUnits, Span.ofBinary, Nat.pow_eq] at hsearch
  have hcast : (d.digits : ℚ) * (2 ^ (2 - q).toNat * 10 ^ d.exponent.toNat) ≤
      (4 * m + 2) * 2 ^ (q - 2).toNat * 10 ^ (-d.exponent).toNat := by exact_mod_cast hsearch
  have hpow : (2 : ℚ) ^ q = 4 * (2 ^ (q - 2).toNat / 2 ^ (2 - q).toNat) := by
    rw [show (2 - q).toNat = (-(q - 2)).toNat by omega, ← zpow_eq_div_toNat,
      show (4 : ℚ) = 2 ^ (2 : Int) by norm_num, ← zpow_add₀ (by norm_num), add_sub_cancel]
  rw [zpow_eq_div_toNat 10, hpow, ← mul_div_assoc, ← mul_assoc, ← mul_div_assoc,
    div_le_div_iff₀ (by positivity) (by positivity)]
  calc (d.digits : ℚ) * 10 ^ d.exponent.toNat * 2 ^ (2 - q).toNat
      = d.digits * (2 ^ (2 - q).toNat * 10 ^ d.exponent.toNat) := by ring
    _ ≤ (4 * m + 2) * 2 ^ (q - 2).toNat * 10 ^ (-d.exponent).toNat := hcast
    _ = (m + 1 / 2) * 4 * 2 ^ (q - 2).toNat * 10 ^ (-d.exponent).toNat := by ring

end Decimal
end RelPlan
