import Mathlib.Algebra.Group.Int.Defs
import RelPlan.Value.Arithmetic

/-! # Integer arithmetic

Operations on integers are exact or an error, and they never wrap. An exact result is given whenever
it has a 64-bit form (`Arithmetic.run_ints`), with one exception that is made on purpose: the
remainder of the least integer by `-1` overflows together with the quotient
(`Arithmetic.rem_minValue`). The operands tell whether an operation fails, and how
(`Arithmetic.run_eq_error_iff`). -/

namespace RelPlan

/-- Division of `a` by `b` that truncates toward zero: the remainder is less than the divisor and has
the sign of the dividend, unless it is zero. -/
structure Truncates (a b q r : Int) : Prop where
  sum : r + b * q = a
  small : r.natAbs < b.natAbs
  sign : r = 0 ∨ r.sign = a.sign

/-- Truncating division is defined for all divisors but zero, and then it has one result. -/
theorem truncates_iff {a b q r : Int} :
    Truncates a b q r ↔ b ≠ 0 ∧ q = a.tdiv b ∧ r = a.tmod b := by
  constructor
  · rintro ⟨hsum, hsmall, hsign⟩
    have hb : b ≠ 0 := by
      rintro rfl
      simp at hsmall
    refine ⟨hb, ?_⟩
    rcases Int.le_total 0 a with ha | ha
    · have hr : 0 ≤ r := by
        rcases hsign with rfl | hsign
        · exact Int.le_refl 0
        · rwa [← Int.sign_nonneg_iff, hsign, Int.sign_nonneg_iff]
      have hunique := (Int.tdiv_tmod_unique ha hb (q := q) (r := r)).mpr ⟨hsum, hr, by omega⟩
      exact hunique.imp Eq.symm Eq.symm
    · have hr : r ≤ 0 := by
        rcases hsign with rfl | hsign
        · exact Int.le_refl 0
        · rwa [← Int.sign_nonpos_iff, hsign, Int.sign_nonpos_iff]
      have hunique := (Int.tdiv_tmod_unique' ha hb (q := q) (r := r)).mpr ⟨hsum, by omega, hr⟩
      exact hunique.imp Eq.symm Eq.symm
  · rintro ⟨hb, rfl, rfl⟩
    refine ⟨Int.tmod_add_mul_tdiv a b, ?_, ?_⟩
    · rw [Int.natAbs_tmod]
      exact Nat.mod_lt _ (Int.natAbs_pos.mpr hb)
    · rw [Int.sign_tmod]
      split
      · exact .inl (Int.tmod_eq_zero_of_dvd ‹_›)
      · exact .inr rfl

namespace Arithmetic

/-- The operation on values; negation has the first one as its only operand. -/
def run : Arithmetic → Value → Value → Except ValueError Value
  | add, v, w => v.add w
  | sub, v, w => v.sub w
  | mul, v, w => v.mul w
  | div, v, w => v.div w
  | rem, v, w => v.rem w
  | neg, v, _ => v.neg

/-- The number is the result of the operation on numbers. -/
def Exact : Arithmetic → (a b : Int) → Int → Prop
  | add, a, b, x => x = a + b
  | sub, a, b, x => x = a - b
  | mul, a, b, x => x = a * b
  | div, a, b, q => ∃ r, Truncates a b q r
  | rem, a, b, r => ∃ q, Truncates a b q r
  | neg, a, _, x => x = -a

/-- A remainder is asked for whose quotient has no 64-bit form. -/
def RemOverflows (op : Arithmetic) (a b : Int64) : Prop := op = rem ∧ a = Int64.minValue ∧ b = -1

variable {op : Arithmetic} {a b : Int64} {x : Int}

theorem exact_div_iff {a b q : Int} : Exact div a b q ↔ b ≠ 0 ∧ q = a.tdiv b := by
  simp [Exact, truncates_iff]

theorem exact_rem_iff {a b r : Int} : Exact rem a b r ↔ b ≠ 0 ∧ r = a.tmod b := by
  simp [Exact, truncates_iff]

/-! ## Range -/

theorem toInt_eq_zero_iff : b.toInt = 0 ↔ b = 0 := by
  rw [← Int64.toInt_inj]
  rfl

theorem fitsInt64_iff : fitsInt64 x ↔ -2 ^ 63 ≤ x ∧ x < 2 ^ 63 := by
  have hmin : Int64.minValue.toInt = -2 ^ 63 := rfl
  have hmax : Int64.maxValue.toInt = 2 ^ 63 - 1 := rfl
  rw [fitsInt64, Bool.and_eq_true, decide_eq_true_iff, decide_eq_true_iff, hmin, hmax]
  omega

theorem fitsInt64_toInt (i : Int64) : fitsInt64 i.toInt :=
  fitsInt64_iff.mpr ⟨i.le_toInt, i.toInt_lt⟩

theorem toInt_ofInt_of_fits (h : fitsInt64 x) : (Int64.ofInt x).toInt = x :=
  Int64.toInt_ofInt_of_le (fitsInt64_iff.mp h).1 (fitsInt64_iff.mp h).2

/-- The least integer divided by `-1` is the one quotient that has no 64-bit form. -/
theorem fitsInt64_tdiv (hb : b ≠ 0) :
    fitsInt64 (a.toInt.tdiv b.toInt) ↔ ¬ (a = Int64.minValue ∧ b = -1) := by
  have hzero : b.toInt ≠ 0 := mt toInt_eq_zero_iff.mp hb
  have habs := Int.natAbs_tdiv a.toInt b.toInt
  have hle := a.le_toInt
  have hlt := a.toInt_lt
  rw [fitsInt64_iff, ← Int64.toInt_inj, ← Int64.toInt_inj]
  change _ ↔ ¬ (a.toInt = -2 ^ 63 ∧ b.toInt = -1)
  generalize a.toInt = m at *
  generalize b.toInt = n at *
  by_cases hunit : n.natAbs = 1
  · obtain rfl | rfl : n = 1 ∨ n = -1 := by omega
    · rw [Int.tdiv_one]
      omega
    · rw [Int.tdiv_neg, Int.tdiv_one]
      omega
  · have hhalf : m.natAbs / n.natAbs ≤ m.natAbs / 2 := Nat.div_le_div_left (by omega) (by decide)
    change _ = m.natAbs / n.natAbs at habs
    omega

/-! ## Outcomes -/

theorem exactInt_eq_ok_iff : Value.exactInt op x = .ok v ↔ ∃ i : Int64, v = .int i ∧ i.toInt = x := by
  rw [Value.exactInt]
  split
  · rename_i hfits
    constructor
    · intro h
      obtain rfl := Except.ok.inj h
      exact ⟨_, rfl, toInt_ofInt_of_fits hfits⟩
    · rintro ⟨i, rfl, rfl⟩
      rw [Int64.ofInt_toInt]
  · rename_i hfits
    refine ⟨nofun, ?_⟩
    rintro ⟨i, -, rfl⟩
    exact absurd (fitsInt64_toInt i) hfits

theorem exactInt_eq_error_iff :
    Value.exactInt op x = .error e ↔ e = .overflow op ∧ ∀ i : Int64, i.toInt ≠ x := by
  rw [Value.exactInt]
  split
  · rename_i hfits
    refine ⟨nofun, ?_⟩
    rintro ⟨-, hnone⟩
    exact absurd (toInt_ofInt_of_fits hfits) (hnone _)
  · rename_i hfits
    rw [Except.error.injEq, eq_comm, iff_self_and]
    rintro - i rfl
    exact hfits (fitsInt64_toInt i)

/-- The outcome is the result of the operation if this has a 64-bit form, a remainder being given only
if its quotient has one, too. It is a division by zero if there is no result, and an overflow
otherwise. -/
structure Answers (op : Arithmetic) (a b : Int64) (outcome : Except ValueError Value) : Prop where
  ok_iff : ∀ v, outcome = .ok v ↔
    ∃ i : Int64, v = .int i ∧ op.Exact a.toInt b.toInt i.toInt ∧ ¬ op.RemOverflows a b
  error_iff : ∀ e, outcome = .error e ↔
    (e = .divisionByZero ∧ ∀ x, ¬ op.Exact a.toInt b.toInt x) ∨
    (e = .overflow op ∧ ∃ x, op.Exact a.toInt b.toInt x ∧
      ((∀ i : Int64, i.toInt ≠ x) ∨ op.RemOverflows a b))

theorem answers_divisionByZero (h : ∀ x, ¬ op.Exact a.toInt b.toInt x) :
    op.Answers a b (.error .divisionByZero) := by
  refine ⟨fun v => ?_, fun e => ?_⟩
  · simp [h]
  · simp [h, eq_comm]

theorem answers_exactInt (h : ∀ y, op.Exact a.toInt b.toInt y ↔ y = x) (hop : ¬ op.RemOverflows a b) :
    op.Answers a b (Value.exactInt op x) := by
  refine ⟨fun v => ?_, fun e => ?_⟩
  · simp only [exactInt_eq_ok_iff, h, hop, not_false_eq_true, and_true]
  · simp only [exactInt_eq_error_iff, h, hop, or_false, exists_eq_left]
    refine ⟨.inr, ?_⟩
    rintro (⟨-, hnone⟩ | hover)
    · exact absurd rfl (hnone x)
    · exact hover

theorem answers_overflow (h : ∀ y, op.Exact a.toInt b.toInt y ↔ y = x) (hop : op.RemOverflows a b) :
    op.Answers a b (.error (.overflow op)) := by
  refine ⟨fun v => ?_, fun e => ?_⟩
  · simp [hop]
  · simp only [h, hop, or_true, and_true, exists_eq, Except.error.injEq, eq_comm (a := e)]
    refine ⟨.inr, ?_⟩
    rintro (⟨-, hnone⟩ | hover)
    · exact absurd rfl (hnone x)
    · exact hover

/-- An operation on integers finds its divisor zero, or has one exact result. It gives that, unless it
has no 64-bit form or belongs to a quotient that has none. -/
theorem run_cases (op : Arithmetic) (a b : Int64) :
    (op = div ∨ op = rem) ∧ b = 0 ∧ op.run (.int a) (.int b) = .error .divisionByZero ∨
    ∃ x, (∀ y, op.Exact a.toInt b.toInt y ↔ y = x) ∧
      (¬ op.RemOverflows a b ∧ op.run (.int a) (.int b) = Value.exactInt op x ∨
        op.RemOverflows a b ∧ op.run (.int a) (.int b) = .error (.overflow op)) := by
  have hdiv {q} (hb : b ≠ 0) : Exact div a.toInt b.toInt q ↔ q = a.toInt.tdiv b.toInt := by
    rw [exact_div_iff, and_iff_right (mt toInt_eq_zero_iff.mp hb)]
  have hrem {r} (hb : b ≠ 0) : Exact rem a.toInt b.toInt r ↔ r = a.toInt.tmod b.toInt := by
    rw [exact_rem_iff, and_iff_right (mt toInt_eq_zero_iff.mp hb)]
  cases op with
  | add | sub | mul | neg =>
    exact .inr ⟨_, fun _ => Iff.rfl, .inl ⟨by rintro ⟨⟨⟩, -⟩, rfl⟩⟩
  | div =>
    by_cases hb : b = 0
    · exact .inl ⟨.inl rfl, hb, if_pos (toInt_eq_zero_iff.mpr hb)⟩
    · refine .inr ⟨_, fun _ => hdiv hb, .inl ⟨by rintro ⟨⟨⟩, -⟩, ?_⟩⟩
      exact if_neg (mt toInt_eq_zero_iff.mp hb)
  | rem =>
    by_cases hb : b = 0
    · exact .inl ⟨.inr rfl, hb, if_pos (toInt_eq_zero_iff.mpr hb)⟩
    · refine .inr ⟨_, fun _ => hrem hb, ?_⟩
      change _ ∧ (if b.toInt = 0 then _ else if _ then _ else _) = _ ∨
        _ ∧ (if b.toInt = 0 then _ else if _ then _ else _) = _
      rw [if_neg (mt toInt_eq_zero_iff.mp hb)]
      by_cases hquotient : a = Int64.minValue ∧ b = -1
      · have hfits := mt (fitsInt64_tdiv hb).mp (not_not_intro hquotient)
        exact .inr ⟨⟨rfl, hquotient⟩, if_neg hfits⟩
      · have hfits := (fitsInt64_tdiv hb).mpr hquotient
        exact .inl ⟨fun h => hquotient h.2, if_pos hfits⟩

/-- An operation on integers is exact or an error. It gives every exact result that has a 64-bit form,
but for the remainder of the least integer by `-1`, and whatever it gives is exact. -/
theorem run_ints (op : Arithmetic) (a b : Int64) : op.Answers a b (op.run (.int a) (.int b)) := by
  rcases op.run_cases a b with ⟨hop, hb, hrun⟩ | ⟨x, hx, ⟨hno, hrun⟩ | ⟨hover, hrun⟩⟩ <;> rw [hrun]
  · have hzero : b.toInt = 0 := toInt_eq_zero_iff.mpr hb
    refine answers_divisionByZero fun x hx => ?_
    obtain rfl | rfl := hop
    · exact (exact_div_iff.mp hx).1 hzero
    · exact (exact_rem_iff.mp hx).1 hzero
  · exact answers_exactInt hx hno
  · exact answers_overflow hx hover

/-- The remainder of the least integer by `-1` is zero, which has a 64-bit form, but it is not
given. -/
theorem rem_minValue :
    Exact rem Int64.minValue.toInt (-1 : Int64).toInt (0 : Int64).toInt ∧
      run rem (.int Int64.minValue) (.int (-1)) = .error (.overflow rem) :=
  ⟨exact_rem_iff.mpr (by decide), rfl⟩

/-! ## Failures -/

/-- Why an operation on integers fails: the divisor is zero, the result has no 64-bit form, or it is
the remainder whose quotient has none. -/
inductive Fails : Arithmetic → Int64 → Int64 → ValueError → Prop where
  | zeroDivisor {op : Arithmetic} {a : Int64} : op = div ∨ op = rem → Fails op a 0 .divisionByZero
  | overflow {op : Arithmetic} {a b : Int64} {x : Int} : op.Exact a.toInt b.toInt x →
      (∀ i : Int64, i.toInt ≠ x) → Fails op a b (.overflow op)
  | remainder : Fails rem Int64.minValue (-1) (.overflow rem)

/-- Operations on integers fail for these reasons only, and for each of them. -/
theorem run_eq_error_iff : op.run (.int a) (.int b) = .error e ↔ op.Fails a b e := by
  constructor
  · intro h
    rcases op.run_cases a b with ⟨hop, rfl, hrun⟩ | ⟨x, hx, ⟨-, hrun⟩ | ⟨hover, hrun⟩⟩ <;>
      rw [hrun] at h
    · obtain rfl := Except.error.inj h
      exact .zeroDivisor hop
    · obtain ⟨rfl, hnone⟩ := exactInt_eq_error_iff.mp h
      exact .overflow ((hx x).mpr rfl) hnone
    · obtain rfl := Except.error.inj h
      obtain ⟨rfl, rfl, rfl⟩ := hover
      exact .remainder
  · intro h
    cases h with
    | zeroDivisor hop => obtain rfl | rfl := hop <;> rfl
    | @overflow _ _ _ y hy hnone =>
      rcases op.run_cases a b with ⟨hop, rfl, -⟩ | ⟨x, hx, ⟨-, hrun⟩ | ⟨-, hrun⟩⟩
      · obtain rfl | rfl := hop
        · exact absurd rfl (exact_div_iff.mp hy).1
        · exact absurd rfl (exact_rem_iff.mp hy).1
      · rw [hrun, exactInt_eq_error_iff, ← (hx y).mp hy]
        exact ⟨rfl, hnone⟩
      · exact hrun
    | remainder => rfl

end Arithmetic
end RelPlan
