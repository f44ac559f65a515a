import RelPlan.Value.Basic
import RelPlan.Proofs.Number.Intervals
import RelPlan.Proofs.Number.Numerals

/-! # Texts of values

The numeral of a float names a number that the float owns (`Numeral.owned_of_ofFloat?`), so floats
of one text are one float (`floatText_inj`). The text of a value tells its type
(`Value.type_of_text`), and values of one text are one value (`Value.text_inj`). -/

namespace RelPlan
namespace Numeral

variable {style : FloatStyle} {n : Numeral} {x y : Float}

/-! ## Numerals of floats -/

theorem negative_ofDigits (style : FloatStyle) (negative : Bool) (digits : List Char)
    (point : Int) : (ofDigits style negative digits point).negative = negative := by
  rw [ofDigits]
  split
  · split
    · rfl
    · split <;> rfl
  · rfl

theorem not_isWhole_ofDigits (style : FloatStyle) (negative : Bool) {digits : List Char}
    (hne : digits ≠ []) (point : Int) : ¬ (ofDigits style negative digits point).isWhole := by
  rw [ofDigits, isWhole]
  split
  · split
    case isTrue => simp [hne]
    split
    case isTrue =>
      have : ¬ digits.length ≤ point.toNat := by omega
      simp [List.drop_eq_nil_iff, this]
    case isFalse => simp
  · simp

/-- The numeral of a float has a fraction or an exponent. -/
theorem not_isWhole_of_ofFloat? (h : ofFloat? style x = some n) : ¬ n.isWhole := by
  rw [ofFloat?] at h
  split at h
  · obtain rfl := Option.some.inj h
    simp [isWhole]
  · obtain rfl := Option.some.inj h
    exact not_isWhole_ofDigits _ _ Nat.toDigits_ne_nil _
  · cases h

/-- The numeral of a float has its sign and rounds to its magnitude. -/
theorem owned_of_ofFloat? (h : ofFloat? style x = some n) :
    ∃ m q, Binary64.ofFloat x = .finite n.negative m q ∧ Binary64.Owns m q n.magnitude := by
  rw [ofFloat?] at h
  split at h
  case h_1 negative q hx =>
    obtain rfl := Option.some.inj h
    refine ⟨0, q, hx, ?_⟩
    have hvalue : value ['0', '0'] = 0 := rfl
    have hhigh : 0 ≤ Binary64.high 0 q := by
      unfold Binary64.high
      positivity
    simpa [Binary64.Owns, Binary64.low, magnitude, hvalue] using hhigh
  case h_2 negative m q hm hx =>
    obtain rfl := Option.some.inj h
    refine ⟨m, q, by rwa [negative_ofDigits], ?_⟩
    rw [magnitude_ofDigits _ _ Nat.toDigits_ne_nil, value_toDigits, add_sub_cancel_left]
    exact Decimal.shortest_owned style.tie hm (Binary64.canonical_ofFloat hx).lt q
  case h_3 => cases h

/-- No two floats have one numeral. -/
theorem ofFloat?_inj (hx : ofFloat? style x = some n) (hy : ofFloat? style y = some n) :
    x = y := by
  obtain ⟨m, q, hx, hm⟩ := owned_of_ofFloat? hx
  obtain ⟨m', q', hy, hm'⟩ := owned_of_ofFloat? hy
  obtain ⟨rfl, rfl⟩ :=
    hm.unique (Binary64.canonical_ofFloat hx) (Binary64.canonical_ofFloat hy) hm'
  exact Binary64.ofFloat_inj.mp (hx.trans hy.symm)

theorem scan_text {n : Numeral} (h : n.Written) (plus : Bool) :
    scan (n.text plus).toList = some (n, []) := by
  rw [text, String.toList_ofList, ← List.append_nil (n.chars plus)]
  exact scan_chars h plus (by simp [Ends])

end Numeral

/-! ## Floats -/

/-- The values that are no number. -/
def Binary64.special : List Binary64 := [.nan, .infinite false, .infinite true]

theorem Numeral.exists_special {style : FloatStyle} {x : Float} (h : ofFloat? style x = none) :
    ∃ b ∈ Binary64.special, x = b.toFloat := by
  have hspecial : ∀ b ∈ Binary64.special, Binary64.ofFloat b.toFloat = b := by decide +kernel
  have hmem : Binary64.ofFloat x ∈ Binary64.special := by
    rw [ofFloat?] at h
    cases hx : Binary64.ofFloat x with
    | nan => decide
    | infinite negative => cases negative <;> decide
    | finite negative m q => cases m <;> simp [hx] at h
  exact ⟨_, hmem, Binary64.ofFloat_inj.mp (hspecial _ hmem).symm⟩

open Numeral

/-- A numeral is read from the text of a finite float and none from that of another. -/
theorem scan_floatText (x : Float) :
    scan (floatText x).toList = (ofFloat? displayFloats x).map fun n => (n, []) := by
  rw [floatText]
  cases h : ofFloat? displayFloats x with
  | some n => exact scan_text (written_ofFloat? _ x h) _
  | none =>
    simp only [Option.map_none]
    split
    · decide
    · split <;> decide

/-- Floats of one text are one float. -/
theorem floatText_inj {x y : Float} (h : floatText x = floatText y) : x = y := by
  have hscan := congrArg (fun s => scan s.toList) h
  simp only [scan_floatText] at hscan
  have hnumeral : ofFloat? displayFloats x = ofFloat? displayFloats y :=
    Option.map_injective (fun _ _ h => (Prod.mk.inj h).1) hscan
  cases hx : ofFloat? displayFloats x with
  | some n => exact ofFloat?_inj hx (hnumeral ▸ hx)
  | none =>
    obtain ⟨b, hb, rfl⟩ := exists_special hx
    obtain ⟨b', hb', rfl⟩ := exists_special (hnumeral ▸ hx)
    have htexts : ∀ b ∈ Binary64.special, ∀ b' ∈ Binary64.special,
        floatText b.toFloat = floatText b'.toFloat → b = b' := by decide +kernel
    rw [htexts b hb b' hb' h]

/-! ## Values -/

namespace Value

/-- The type of a value whose text is no numeral. -/
def typeOfWord : List Char → ScalarType
  | '\'' :: _ => .string
  | 'n' :: _ => .null
  | 't' :: _ | 'f' :: _ => .bool
  | _ => .float

/-- The type of the value that has these characters as its text. -/
def typeOfChars (cs : List Char) : ScalarType :=
  match scan cs with
  | some (n, _) => if n.isWhole then .int else .float
  | none => typeOfWord cs

theorem scan_text_int (i : Int64) : scan (text (int i)).toList = some (ofInt i.toInt, []) :=
  scan_text (written_ofInt _) false

/-- The text of a value tells its type. -/
theorem type_of_text (v : Value) : typeOfChars v.text.toList = v.type := by
  cases v with
  | null => decide
  | bool b => cases b <;> decide
  | int i =>
    rw [typeOfChars, scan_text_int]
    rfl
  | float x =>
    rw [typeOfChars, text, scan_floatText]
    cases h : ofFloat? displayFloats x with
    | some n => simp [not_isWhole_of_ofFloat? h, type]
    | none =>
      obtain ⟨b, hb, rfl⟩ := exists_special h
      have hfloat : ∀ b ∈ Binary64.special,
          typeOfChars (floatText b.toFloat).toList = .float := by decide +kernel
      have := hfloat b hb
      rwa [typeOfChars, scan_floatText, h] at this
  | string s => simp [typeOfChars, typeOfWord, text, type, scan, scanUnsigned, scanDigits]

/-- The characters that stand between values in the text of an expression. -/
def separators : List Char := ['(', ')', ',', '\'', '$']

/-- Strings apart, texts of values have no separators. -/
theorem text_plain {v : Value} (h : v.type ≠ .string) : ∀ c ∈ separators, c ∉ v.text.toList := by
  have hnumeral {n : Numeral} (hn : n.Written) : ∀ c ∈ separators, c ∉ (n.text false).toList := by
    rw [Numeral.text, String.toList_ofList]
    have hnone : separators.all fun c => !c.isDigit && c ∉ ['-', '+', '.', 'e'] := by decide
    intro c hc hmem
    have := List.all_eq_true.mp hnone c hc
    rcases hn.mem_chars hmem with hdigit | hother <;> simp_all
  have hword {cs : List Char} (h : separators.all (· ∉ cs)) : ∀ c ∈ separators, c ∉ cs :=
    fun c hc => of_decide_eq_true (List.all_eq_true.mp h c hc)
  cases v with
  | null => exact hword (by decide)
  | bool b => cases b <;> exact hword (by decide)
  | int i => exact hnumeral (written_ofInt _)
  | float x =>
    cases hx : ofFloat? displayFloats x with
    | some n =>
      rw [text, floatText, hx]
      exact hnumeral (written_ofFloat? _ x hx)
    | none =>
      obtain ⟨b, hb, rfl⟩ := exists_special hx
      have htexts : ∀ b ∈ Binary64.special,
          separators.all (· ∉ (floatText b.toFloat).toList) := by
        decide +kernel
      exact hword (htexts b hb)
  | string s => exact absurd rfl h

/-- Values of one text are one value. -/
theorem text_inj {v w : Value} (h : v.text = w.text) : v = w := by
  have htype : v.type = w.type := by rw [← type_of_text, ← type_of_text, h]
  cases v <;> cases w <;> cases htype
  case null => rfl
  case bool a b => cases a <;> cases b <;> first | rfl | contradiction
  case int i j =>
    have hscan := congrArg (fun s => scan s.toList) h
    simp only [scan_text_int, Option.some.injEq, Prod.mk.injEq, and_true] at hscan
    have hvalue := congrArg wholeValue hscan
    rw [wholeValue_ofInt, wholeValue_ofInt] at hvalue
    rw [Int64.toInt_inj.mp hvalue]
  case float x y => rw [floatText_inj h]
  case string s t =>
    simpa [text, String.append_right_inj, String.append_left_inj] using h

end Value
end RelPlan
