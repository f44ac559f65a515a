import RelPlan.Number.Numeral
import RelPlan.Proofs.Number.Shortest
import RelPlan.Proofs.Result

/-! # Written numerals

A numeral is written when its whole part has digits without a needless zero. Whole numbers and
floats are written (`Numeral.written_ofInt`, `Numeral.written_ofFloat?`), and the characters of a
written numeral are read as it is (`Numeral.scan_chars`). -/

namespace RelPlan
namespace Numeral

/-! ## Digits -/

theorem isDigit_of_mem_toDigits (h : c ∈ Nat.toDigits 10 n) : c.isDigit :=
  Nat.isDigit_of_mem_toDigits (by decide) (by decide) h

/-- The digits of a number other than zero do not start with a zero. -/
theorem head?_toDigits_ne (h : n ≠ 0) : (Nat.toDigits 10 n).head? ≠ some '0' := by
  induction n using Nat.strongRecOn with
  | ind n ih =>
    rw [Nat.toDigits_eq_if (by decide)]
    split
    · simpa [Nat.digitChar_eq_zero] using h
    · have hdiv := ih (n / 10) (by omega) (by omega)
      obtain ⟨c, cs, hcs⟩ := List.exists_cons_of_ne_nil
        (Nat.toDigits_ne_nil (b := 10) (n := n / 10))
      rw [hcs] at hdiv ⊢
      exact hdiv

/-- Whether no digit starts the text. -/
def AfterDigits (rest : List Char) : Prop := ∀ c ∈ rest.head?, c.isDigit = false

theorem takeWhile_isDigit {ds rest : List Char} (hds : ∀ c ∈ ds, c.isDigit)
    (hrest : AfterDigits rest) : (ds ++ rest).takeWhile Char.isDigit = ds := by
  rw [List.takeWhile_append_of_pos (by simpa using hds)]
  cases rest with
  | nil => simp
  | cons c rest => simp [hrest c rfl]

theorem dropWhile_isDigit {ds rest : List Char} (hds : ∀ c ∈ ds, c.isDigit)
    (hrest : AfterDigits rest) : (ds ++ rest).dropWhile Char.isDigit = rest := by
  rw [List.dropWhile_append_of_pos (by simpa using hds)]
  cases rest with
  | nil => simp
  | cons c rest => simp [hrest c rfl]

theorem scanDigits_append {ds rest : List Char} (hne : ds ≠ []) (hds : ∀ c ∈ ds, c.isDigit)
    (hrest : AfterDigits rest) : scanDigits (ds ++ rest) = some (ds, rest) := by
  rw [scanDigits, takeWhile_isDigit hds hrest, dropWhile_isDigit hds hrest]
  split
  · exact absurd rfl hne
  · rfl

theorem value_toDigits (n : Nat) : value (Nat.toDigits 10 n) = n := Nat.ofDigitChars_ten_toDigits

theorem toDigits_inj {i j : Nat} (h : Nat.toDigits 10 i = Nat.toDigits 10 j) : i = j := by
  rw [← value_toDigits i, h, value_toDigits]

/-- A number and what follows its digits are known from the text. -/
theorem toDigits_append_inj {i j : Nat} {rest rest' : List Char} (hrest : AfterDigits rest)
    (hrest' : AfterDigits rest') :
    Nat.toDigits 10 i ++ rest = Nat.toDigits 10 j ++ rest' ↔ i = j ∧ rest = rest' := by
  have hdigits {n : Nat} : ∀ c ∈ Nat.toDigits 10 n, c.isDigit := fun _ => isDigit_of_mem_toDigits
  constructor
  · intro h
    exact (List.append_inj_of_head hdigits hdigits (fun c hc => by simp [hrest c hc])
      (fun c hc => by simp [hrest' c hc]) h).imp_left toDigits_inj
  · rintro ⟨rfl, rfl⟩
    rfl

theorem value_append (ds ds' : List Char) :
    value (ds ++ ds') = 10 ^ ds'.length * value ds + value ds' := by
  rw [value, Nat.ofDigitChars_append, Nat.ofDigitChars_eq_ofDigitChars_zero]
  rfl

theorem value_replicate_zero (k : Nat) : value (List.replicate k '0') = 0 := by
  rw [value, Nat.ofDigitChars_replicate_zero, Nat.mul_zero]

theorem value_lt {ds : List Char} (h : ∀ c ∈ ds, c.isDigit) : value ds < 10 ^ ds.length := by
  induction ds with
  | nil => decide
  | cons c ds ih =>
    obtain ⟨hc, hds⟩ := List.forall_mem_cons.mp h
    have hdigit : value [c] < 10 := by
      have hle : c.toNat ≤ 57 := by
        simp only [Char.isDigit, Bool.and_eq_true, decide_eq_true_eq] at hc
        exact hc.2
      simp only [value, Nat.ofDigitChars_cons, Nat.ofDigitChars_nil]
      have : '0'.toNat = 48 := rfl
      omega
    calc value (c :: ds) = 10 ^ ds.length * value [c] + value ds := value_append [c] ds
      _ < 10 ^ ds.length * value [c] + 10 ^ ds.length := Nat.add_lt_add_left (ih hds) _
      _ = 10 ^ ds.length * (value [c] + 1) := by ring
      _ ≤ 10 ^ (c :: ds).length := by
          rw [List.length_cons, Nat.pow_succ]
          exact Nat.mul_le_mul_left _ hdigit

/-! ## Numerals as they are written -/

/-- The whole part has digits, without a needless zero, and what follows a point are digits. -/
structure Written (n : Numeral) : Prop where
  whole_ne_nil : n.whole ≠ []
  whole_digits : ∀ c ∈ n.whole, c.isDigit
  leading : n.whole.head? = some '0' → n.whole = ['0']
  fraction_digits : ∀ c ∈ n.fraction, c.isDigit

/-- Whether the text does not go on with a numeral that ends here. -/
def Ends (rest : List Char) : Prop :=
  ∀ c ∈ rest.head?, c.isDigit = false ∧ c ≠ '.' ∧ c ≠ 'e' ∧ c ≠ 'E'

theorem Ends.afterDigits {rest : List Char} (h : Ends rest) : AfterDigits rest :=
  fun c hc => (h c hc).1

theorem scanSigned_exponentText (plus : Bool) (e : Int) {rest : List Char}
    (hrest : AfterDigits rest) : scanSigned (exponentText plus e ++ rest) = some (e, rest) := by
  have hscan : scanDigits (Nat.toDigits 10 e.natAbs ++ rest) =
      some (Nat.toDigits 10 e.natAbs, rest) :=
    scanDigits_append Nat.toDigits_ne_nil (fun _ => isDigit_of_mem_toDigits) hrest
  rw [exponentText]
  split
  · rw [List.singleton_append, List.cons_append, scanSigned, hscan]
    simp only [Option.map_some, value_toDigits]
    congr; omega
  · split
    · rw [List.singleton_append, List.cons_append, scanSigned, hscan]
      simp only [Option.map_some, value_toDigits]
      congr; omega
    · obtain ⟨c, cs, hcs⟩ := List.exists_cons_of_ne_nil
        (Nat.toDigits_ne_nil (b := 10) (n := e.natAbs))
      have hc : c.isDigit := isDigit_of_mem_toDigits (n := e.natAbs) (by simp [hcs])
      rw [List.nil_append, hcs, List.cons_append, scanSigned, ← List.cons_append, ← hcs, hscan]
      · simp only [Option.map_some, value_toDigits]
        congr; omega
      all_goals
        rintro cs' h
        obtain ⟨rfl, -⟩ := List.cons.inj h
        contradiction

/-- The characters of an exponent with its letter. -/
def exponentChars (plus : Bool) : Option Int → List Char
  | none => []
  | some e => 'e' :: exponentText plus e

/-- The characters of a fraction with its point. -/
def fractionChars (fraction : List Char) : List Char :=
  if fraction = [] then [] else '.' :: fraction

theorem chars_eq (plus : Bool) (n : Numeral) :
    n.chars plus = (if n.negative then ['-'] else []) ++ n.whole ++ fractionChars n.fraction
      ++ exponentChars plus n.exponent := by
  rw [chars, fractionChars]
  cases n.exponent <;> rfl

theorem head?_exponentChars (plus : Bool) (e : Option Int) {rest : List Char} (hrest : Ends rest) :
    ∀ c ∈ (exponentChars plus e ++ rest).head?, c.isDigit = false ∧ c ≠ '.' := by
  cases e with
  | none => exact fun c hc => ⟨(hrest c hc).1, (hrest c hc).2.1⟩
  | some e => rintro _ ⟨⟩; decide

theorem scanExponent_chars (plus : Bool) (e : Option Int) {rest : List Char} (hrest : Ends rest) :
    scanExponent (exponentChars plus e ++ rest) = some (e, rest) := by
  cases e with
  | some e =>
    simp only [exponentChars, List.cons_append, scanExponent,
      scanSigned_exponentText plus e hrest.afterDigits, Option.map_some]
  | none =>
    rw [exponentChars, List.nil_append]
    cases rest with
    | nil => rfl
    | cons c rest =>
      obtain ⟨-, -, he, hE⟩ := hrest c rfl
      rw [scanExponent] <;> simp [he, hE]

theorem scanFraction_chars {fraction rest : List Char} (h : ∀ c ∈ fraction, c.isDigit)
    (hrest : ∀ c ∈ rest.head?, c.isDigit = false ∧ c ≠ '.') :
    scanFraction (fractionChars fraction ++ rest) = some (fraction, rest) := by
  rw [fractionChars]
  split
  case isTrue hnil =>
    subst hnil
    cases rest with
    | nil => rfl
    | cons c rest =>
      rw [List.nil_append, scanFraction]
      simpa using (hrest c rfl).2
  case isFalse hne =>
    rw [List.cons_append, scanFraction]
    exact scanDigits_append hne h fun c hc => (hrest c hc).1

/-- A written numeral is read as it is. -/
theorem scan_chars {n : Numeral} (h : n.Written) (plus : Bool) {rest : List Char}
    (hrest : Ends rest) : scan (n.chars plus ++ rest) = some (n, rest) := by
  have hend := head?_exponentChars plus n.exponent hrest
  have hpoint :
      AfterDigits (fractionChars n.fraction ++ (exponentChars plus n.exponent ++ rest)) := by
    rw [fractionChars]
    split
    · exact fun c hc => (hend c hc).1
    · rintro _ ⟨⟩; decide
  have hscan : scanUnsigned n.negative
      (n.whole ++ (fractionChars n.fraction ++ (exponentChars plus n.exponent ++ rest))) =
        some (n, rest) := by
    simp [scanUnsigned, scanDigits_append h.whole_ne_nil h.whole_digits hpoint,
      scanFraction_chars h.fraction_digits hend, scanExponent_chars plus n.exponent hrest]
  rw [chars_eq]
  simp only [List.append_assoc]
  split
  case isTrue hneg =>
    rw [hneg] at hscan
    exact hscan
  case isFalse hneg =>
    obtain ⟨c, cs, hcs⟩ := List.exists_cons_of_ne_nil h.whole_ne_nil
    have hc : c.isDigit := h.whole_digits c (by simp [hcs])
    rw [List.nil_append, scan]
    · rwa [(Bool.not_eq_true _).mp hneg] at hscan
    · rw [hcs]
      rintro cs' h
      obtain ⟨rfl, -⟩ := List.cons.inj h
      contradiction

/-- Whether a numeral may start with the character. -/
def Starts (c : Char) : Prop := c = '-' ∨ c.isDigit

theorem Starts.ne {c d : Char} (h : Starts c) (hd : d ≠ '-' ∧ d.isDigit = false) : c ≠ d := by
  rintro rfl
  exact h.elim hd.1 (by simp [hd.2])

theorem Written.starts {n : Numeral} (h : n.Written) (plus : Bool) :
    ∃ c ∈ (n.chars plus).head?, Starts c := by
  rw [chars]
  cases n.negative with
  | true => exact ⟨'-', rfl, .inl rfl⟩
  | false =>
    obtain ⟨c, cs, hcs⟩ := List.exists_cons_of_ne_nil h.whole_ne_nil
    exact ⟨c, by simp [hcs], .inr (h.whole_digits c (by simp [hcs]))⟩

/-- A numeral is written with digits and four other characters. -/
theorem Written.mem_chars {n : Numeral} (h : n.Written) {plus : Bool} (hc : c ∈ n.chars plus) :
    c.isDigit ∨ c ∈ ['-', '+', '.', 'e'] := by
  rw [chars_eq, List.mem_append, List.mem_append, List.mem_append] at hc
  rcases hc with ((hc | hc) | hc) | hc
  · split at hc
    · exact .inr (by simp_all)
    · cases hc
  · exact .inl (h.whole_digits c hc)
  · rw [fractionChars] at hc
    split at hc
    · cases hc
    · rcases List.mem_cons.mp hc with rfl | hc
      · exact .inr (by decide)
      · exact .inl (h.fraction_digits c hc)
  · cases he : n.exponent with
    | none => simp [he, exponentChars] at hc
    | some e =>
      rw [he, exponentChars, exponentText] at hc
      rcases List.mem_cons.mp hc with rfl | hc
      · exact .inr (by decide)
      rcases List.mem_append.mp hc with hc | hc
      · split at hc
        · exact .inr (by simp_all)
        · split at hc
          · exact .inr (by simp_all)
          · cases hc
      · exact .inl (isDigit_of_mem_toDigits hc)

/-! ## What is written -/

theorem written_ofInt (i : Int) : (ofInt i).Written where
  whole_ne_nil := Nat.toDigits_ne_nil
  whole_digits _ := isDigit_of_mem_toDigits
  leading h := by
    by_cases hi : i.natAbs = 0
    · simp [ofInt, hi]
    · exact absurd h (head?_toDigits_ne hi)
  fraction_digits := by simp [ofInt]

theorem value_whole_ofInt (i : Int) : value (ofInt i).whole = i.natAbs :=
  value_toDigits _

theorem wholeValue_ofInt (i : Int) : (ofInt i).wholeValue = i := by
  rw [wholeValue, value_whole_ofInt, ofInt]
  simp only [decide_eq_true_eq]
  split <;> omega

theorem written_ofDigits (style : FloatStyle) (negative : Bool) (hn : n ≠ 0) (point : Int) :
    (ofDigits style negative (Nat.toDigits 10 n) point).Written := by
  have hdigit {c : Char} (hc : c ∈ Nat.toDigits 10 n) : c.isDigit := isDigit_of_mem_toDigits hc
  obtain ⟨d, ds, hds⟩ := List.exists_cons_of_ne_nil (Nat.toDigits_ne_nil (b := 10) (n := n))
  have hd := head?_toDigits_ne hn
  rw [hds] at hdigit hd ⊢
  rw [ofDigits]
  split
  · split
    case isTrue =>
      exact ⟨by simp, by simp, fun _ => rfl, by
        simp only [List.mem_append, List.mem_replicate]
        rintro c (⟨-, rfl⟩ | hc)
        · rfl
        · exact hdigit hc⟩
    split
    case isTrue hpos _ =>
      obtain ⟨k, hk⟩ : ∃ k, point.toNat = k + 1 := ⟨point.toNat - 1, by omega⟩
      refine ⟨?_, fun c hc => hdigit (List.mem_of_mem_take hc), ?_,
        fun c hc => hdigit (List.mem_of_mem_drop hc)⟩
      · simp [hk]
      · simp only [hk]
        exact fun h => absurd h hd
    case isFalse =>
      refine ⟨by simp, ?_, fun h => absurd h hd, by simp⟩
      simp only [List.mem_append, List.mem_replicate]
      rintro c (hc | ⟨-, rfl⟩)
      · exact hdigit hc
      · rfl
  · refine ⟨by simp, fun c hc => hdigit (List.mem_of_mem_take hc), fun h => absurd h hd,
      fun c hc => hdigit (List.mem_of_mem_drop hc)⟩

theorem length_whole_ofDigits (style : FloatStyle) (negative : Bool) (digits : List Char)
    (point : Int) (hstyle : style.greatestPoint ≤ 16) :
    (ofDigits style negative digits point).whole.length ≤ 16 := by
  rw [ofDigits]
  split
  · split
    · simp
    split
    · simp only [List.length_take]; omega
    · simp only [List.length_append, List.length_replicate]; omega
  · simp only [List.length_take]; omega

theorem written_ofFloat? (style : FloatStyle) (x : Float) (h : ofFloat? style x = some n) :
    n.Written := by
  rw [ofFloat?] at h
  split at h
  · obtain rfl := Option.some.inj h
    exact ⟨by simp, by simp, fun _ => rfl, by simp⟩
  · obtain rfl := Option.some.inj h
    exact written_ofDigits style _ (Decimal.shortest_digits_ne_zero _ ‹_› _) _
  · cases h

/-! ## Magnitudes -/

/-- The magnitude that the numeral names. -/
def magnitude (n : Numeral) : ℚ :=
  value (n.whole ++ n.fraction) * 10 ^ (n.exponent.getD 0 - n.fraction.length)

theorem magnitude_ofDigits (style : FloatStyle) (negative : Bool) {digits : List Char}
    (hne : digits ≠ []) (point : Int) :
    (ofDigits style negative digits point).magnitude =
      value digits * 10 ^ (point - digits.length) := by
  have hlen := List.length_pos_iff.mpr hne
  have hzero : value ['0'] = 0 := rfl
  rw [ofDigits]
  split
  · split
    case isTrue =>
      simp only [magnitude, value_append, value_replicate_zero, hzero, Nat.mul_zero, Nat.zero_add,
        List.length_append, List.length_replicate, Option.getD_none]
      congr 2
      omega
    split
    case isTrue =>
      simp only [magnitude, List.take_append_drop, List.length_drop, Option.getD_none]
      congr 2
      omega
    case isFalse =>
      obtain ⟨k, hk⟩ : ∃ k : Nat, point - digits.length = k :=
        ⟨(point - digits.length).toNat, by omega⟩
      simp only [magnitude, value_append, value_replicate_zero, hzero, hk, Int.toNat_natCast,
        List.length_replicate, List.length_singleton, Option.getD_none, zpow_natCast]
      push_cast
      ring
  · simp only [magnitude, List.take_append_drop, List.length_drop, Option.getD_some]
    congr 2
    omega

end Numeral
end RelPlan
