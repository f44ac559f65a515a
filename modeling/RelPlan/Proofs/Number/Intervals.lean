import RelPlan.Proofs.Number.Binary64
import RelPlan.Proofs.Number.Shortest
import Mathlib.Tactic.FieldSimp

/-! # Intervals of floats

A float owns the reals that a reader rounding to nearest takes to it (`Binary64.Owns`). The
intervals of two floats have no number in common (`Binary64.Owns.unique`), since each of them ends
where the next one begins and a common end belongs to the even mantissa. A float owns its shortest
decimal (`Decimal.shortest_owned`). -/

namespace RelPlan
namespace Binary64

/-- How far below `m · 2 ^ q` its interval begins, in quarters of the last place. -/
def below (m : Nat) (q : Int) : Nat := if m = 2 ^ 52 ∧ minExponent < q then 1 else 2

/-- The lower end of the interval of `m · 2 ^ q`. -/
def low (m : Nat) (q : Int) : ℚ := (4 * m - below m q : Nat) * 2 ^ (q - 2)

/-- The upper end of the interval of `m · 2 ^ q`. -/
def high (m : Nat) (q : Int) : ℚ := (4 * m + 2 : Nat) * 2 ^ (q - 2)

/-- The number rounds to `m · 2 ^ q`: a tie goes to the even mantissa. -/
def Owns (m : Nat) (q : Int) (x : ℚ) : Prop :=
  if m % 2 = 0 then low m q ≤ x ∧ x ≤ high m q else low m q < x ∧ x < high m q

variable {m m' : Nat} {q q' : Int} {x : ℚ}

theorem Owns.low_le (h : Owns m q x) : low m q ≤ x := by
  unfold Owns at h
  split at h
  · exact h.1
  · exact h.1.le

theorem Owns.le_high (h : Owns m q x) : x ≤ high m q := by
  unfold Owns at h
  split at h
  · exact h.2
  · exact h.2.le

theorem Owns.low_lt (h : Owns m q x) (hm : m % 2 ≠ 0) : low m q < x := by
  rw [Owns, if_neg hm] at h
  exact h.1

theorem Owns.lt_high (h : Owns m q x) (hm : m % 2 ≠ 0) : x < high m q := by
  rw [Owns, if_neg hm] at h
  exact h.2

/-! ## The order of intervals -/

/-- Floats in order: the greater one has the greater exponent, or the greater mantissa with the same
exponent. -/
def Less (m : Nat) (q : Int) (m' : Nat) (q' : Int) : Prop := q < q' ∨ q = q' ∧ m < m'

/-- An interval ends where the next one begins, in quarters of the smaller last place; only one of
the two mantissas at a common end is even. -/
theorem Less.quarters_le {k : Nat} (h : Less m q m' (q + k)) (hc : Canonical m q)
    (hc' : Canonical m' (q + k)) :
    4 * m + 2 ≤ (4 * m' - below m' (q + k)) * 2 ^ k ∧
      (m % 2 = 0 → m' % 2 = 0 → 4 * m + 2 < (4 * m' - below m' (q + k)) * 2 ^ k) := by
  have hlt := hc.lt
  have hbelow : below m' (q + k) ≤ 2 := by unfold below; split <;> omega
  rcases h with h | ⟨h, hm⟩
  · have hq : minExponent < q + k := hc.le.trans_lt h
    have hm' : 2 ^ 52 ≤ m' := hc'.leading.resolve_right hq.ne'
    have hlow : 2 ^ 54 - 1 ≤ 4 * m' - below m' (q + k) := by
      by_cases h52 : m' = 2 ^ 52
      · rw [below, if_pos ⟨h52, hq⟩]
        omega
      · omega
    have htwice : (4 * m' - below m' (q + k)) * 2 ≤ (4 * m' - below m' (q + k)) * 2 ^ k :=
      Nat.mul_le_mul_left _ (Nat.le_self_pow (by omega) 2)
    omega
  · obtain rfl : k = 0 := by omega
    rw [Nat.pow_zero, Nat.mul_one]
    omega

/-- The lower end in quarters of a smaller last place. -/
theorem low_add (m : Nat) (q : Int) (k : Nat) :
    low m (q + k) = ((4 * m - below m (q + k)) * 2 ^ k : Nat) * 2 ^ (q - 2) := by
  rw [low, show q + k - 2 = k + (q - 2) by ring, zpow_add₀ (by norm_num), zpow_natCast]
  push_cast
  ring

theorem Less.high_le_low (h : Less m q m' q') (hc : Canonical m q) (hc' : Canonical m' q') :
    high m q ≤ low m' q' ∧ (m % 2 = 0 → m' % 2 = 0 → high m q < low m' q') := by
  have hle : q ≤ q' := h.elim le_of_lt fun h => h.1.le
  obtain ⟨k, rfl⟩ := Int.le.dest hle
  have hunit : (0 : ℚ) < 2 ^ (q - 2) := by positivity
  obtain ⟨hle, hlt⟩ := h.quarters_le hc hc'
  rw [low_add, high]
  exact ⟨mul_le_mul_of_nonneg_right (by exact_mod_cast hle) hunit.le, fun hm hm' =>
    mul_lt_mul_of_pos_right (by exact_mod_cast hlt hm hm') hunit⟩

theorem Less.not_owns (h : Less m q m' q') (hc : Canonical m q) (hc' : Canonical m' q')
    (hx : Owns m q x) : ¬ Owns m' q' x := by
  intro hx'
  obtain ⟨hle, hlt⟩ := h.high_le_low hc hc'
  by_cases hm : m % 2 = 0
  · by_cases hm' : m' % 2 = 0
    · exact absurd (hx.le_high.trans_lt (hlt hm hm')) (not_lt.mpr hx'.low_le)
    · exact absurd (hx.le_high.trans hle) (not_le.mpr (hx'.low_lt hm'))
  · exact absurd (hx.lt_high hm) (not_lt.mpr (hle.trans hx'.low_le))

/-- The intervals of two floats have no number in common. -/
theorem Owns.unique (hc : Canonical m q) (hc' : Canonical m' q') (hx : Owns m q x)
    (hx' : Owns m' q' x) : m = m' ∧ q = q' := by
  by_contra hne
  have hless : Less m q m' q' ∨ Less m' q' m q := by
    unfold Less
    omega
  rcases hless with h | h
  · exact h.not_owns hc hc' hx hx'
  · exact h.not_owns hc' hc hx' hx

end Binary64

namespace Decimal

open Binary64 (Owns below)

variable {m : Nat} {q e : Int}

/-! ## The interval in rational numbers -/

theorem Span.holds_iff {s : Span} : s.holds c ↔
    if s.closed then s.low ≤ c * s.denominator ∧ c * s.denominator ≤ s.high
    else s.low < c * s.denominator ∧ c * s.denominator < s.high := by
  rw [Span.holds]
  split <;> simp

theorem low_inUnits : ((Span.ofBinary m q).inUnits e).low =
    (4 * m - below m q) * 2 ^ (q - 2).toNat * 10 ^ (-e).toNat := rfl

theorem value_inUnits : ((Span.ofBinary m q).inUnits e).value =
    4 * m * 2 ^ (q - 2).toNat * 10 ^ (-e).toNat := rfl

theorem high_inUnits : ((Span.ofBinary m q).inUnits e).high =
    (4 * m + 2) * 2 ^ (q - 2).toNat * 10 ^ (-e).toNat := rfl

theorem denominator_inUnits : ((Span.ofBinary m q).inUnits e).denominator =
    2 ^ (2 - q).toNat * 10 ^ e.toNat := rfl

/-- Quarters of the last place and units of a grid as whole numbers over one denominator. -/
theorem exists_common (q e : Int) : ∃ d : ℚ, 0 < d ∧
    (∀ n : Nat, ((n * 2 ^ (q - 2).toNat * 10 ^ (-e).toNat : Nat) : ℚ) = n * 2 ^ (q - 2) * d) ∧
      ∀ c : Nat, ((c * (2 ^ (2 - q).toNat * 10 ^ e.toNat) : Nat) : ℚ) = c * 10 ^ e * d := by
  refine ⟨2 ^ (2 - q).toNat * 10 ^ (-e).toNat, by positivity, fun n => ?_, fun c => ?_⟩
  · rw [zpow_eq_div_toNat, neg_sub]
    push_cast
    field_simp
  · rw [zpow_eq_div_toNat 10 e]
    push_cast
    field_simp

/-- The whole numbers in the interval are the points of the grid that the float owns. -/
theorem holds_iff : ((Span.ofBinary m q).inUnits e).holds c ↔ Owns m q (c * 10 ^ e) := by
  obtain ⟨d, hd, hend, hpoint⟩ := exists_common q e
  have hclosed : ((Span.ofBinary m q).inUnits e).closed ↔ m % 2 = 0 := beq_iff_eq
  rw [Span.holds_iff, low_inUnits, high_inUnits, denominator_inUnits, Owns, Binary64.low,
    Binary64.high]
  simp only [hclosed]
  rw [← Nat.cast_le (α := ℚ), ← Nat.cast_le (α := ℚ), ← Nat.cast_lt (α := ℚ),
    ← Nat.cast_lt (α := ℚ), hend, hend, hpoint, mul_le_mul_iff_left₀ hd, mul_le_mul_iff_left₀ hd,
    mul_lt_mul_iff_left₀ hd, mul_lt_mul_iff_left₀ hd]

/-! ## The search ends in the interval -/

variable {s : Span}

/-- A grid whose units are finer than the lower part of the interval has a point in it. -/
theorem Span.holds_div (hden : 0 < s.denominator) (hlow : s.denominator + s.low ≤ s.value)
    (hhigh : s.value < s.high) : s.holds (s.value / s.denominator) := by
  have hmod := Nat.mod_lt s.value hden
  have hdiv := Nat.div_add_mod' s.value s.denominator
  simp only [Span.holds]
  split <;> rw [Bool.and_eq_true, decide_eq_true_eq, decide_eq_true_eq] <;> omega

theorem search_holds (tie : Tie) (grids : Nat) (e : Int)
    (h : (s.inUnits (e - grids)).holds
      ((s.inUnits (e - grids)).value / (s.inUnits (e - grids)).denominator)) :
    let d := search tie s grids e
    (s.inUnits d.exponent).holds d.digits := by
  induction grids generalizing e with
  | zero => simpa [search] using h
  | succ grids ih =>
    have hnext : e - (grids + 1 : Nat) = e - 1 - grids := by omega
    rw [hnext] at h
    simp only [search]
    split
    case h_1 c hc =>
      split
      · exact ih _ h
      · exact Span.holds_of_nearest? hc
    case h_2 => exact ih _ h

/-- On a grid finer than the lower part of the interval of `m · 2 ^ q` the search cannot fail. -/
theorem holds_ofBinary (hm : 0 < m)
    (h : ((Span.ofBinary m q).inUnits e).denominator ≤
      below m q * 2 ^ (q - 2).toNat * 10 ^ (-e).toNat) :
    let s := (Span.ofBinary m q).inUnits e
    s.holds (s.value / s.denominator) := by
  have hbelow : below m q ≤ 4 * m := by unfold below; split <;> omega
  refine Span.holds_div ?_ ((Nat.add_le_add_right h _).trans_eq ?_) ?_
  · rw [denominator_inUnits]
    positivity
  · rw [low_inUnits, value_inUnits, ← Nat.add_mul, ← Nat.add_mul, Nat.add_sub_cancel' hbelow]
  · rw [value_inUnits, high_inUnits]
    gcongr
    omega

/-- A float owns its shortest decimal. -/
theorem shortest_owned (tie : Tie) (hm : m ≠ 0) (hlt : m < 2 ^ 53) (q : Int) :
    Owns m q ((shortest tie m q).digits * 10 ^ (shortest tie m q).exponent) := by
  have hpos : 0 < m := Nat.pos_of_ne_zero hm
  have hbelow : 1 ≤ below m q := by unfold below; split <;> omega
  have hwidth : (Span.ofBinary m q).high ≤ below m q * 2 ^ (q - 2).toNat * 10 ^ 17 := by
    simp only [Span.ofBinary, Nat.pow_eq]
    rw [Nat.mul_right_comm]
    exact Nat.mul_le_mul_right _ (by omega)
  refine holds_iff.mp (search_holds tie 20 _ (holds_ofBinary hpos ?_))
  refine denominator_le_width ?_ ?_ hwidth
  all_goals
    simp only [Span.ofBinary, Nat.pow_eq]
    positivity

end Decimal
end RelPlan
