import RelPlan.Expr.Eval
import RelPlan.Proofs.Program.Digest

/-! # Texts of expressions

In the text of an expression a string stands between quotes as it is, so that two expressions may
share a text (`Expr.text_shared`). All else in the text is unambiguous: it consists of words, which
are references, operators and the other literals, and a word ends at the first mark. So expressions of
one text are one expression if their strings end alike (`Expr.eq_of_text`), and they do unless a quote
in one of them is followed by what may follow an operand (`Expr.text_faithful`). -/

namespace RelPlan

/-! ## Ends of strings -/

/-- What may follow an operand in a text: nothing, the end of the operation or its next operand. -/
inductive AfterOperand : List Char → Prop where
  | nothing : AfterOperand []
  | close : AfterOperand (')' :: cs)
  | comma : AfterOperand (',' :: ' ' :: cs)

/-- Where one text goes on with either of the strings, the closing quote and what may follow it, the
strings are one. -/
def EndsAlike (s s' : String) : Prop :=
  ∀ rest rest', AfterOperand rest → AfterOperand rest' →
    s.toList ++ '\'' :: rest = s'.toList ++ '\'' :: rest' → s = s'

/-- No quote in the string can be taken for the closing one. -/
def IsSealed (s : String) : Prop :=
  ¬ ['\'', ')'] <:+: s.toList ∧ ¬ ['\'', ',', ' '] <:+: s.toList

instance (s : String) : Decidable (IsSealed s) := inferInstanceAs (Decidable (_ ∧ _))

variable {s s' : String} {cs rest rest' : List Char}

theorem endsAlike_of_length (h : s.length = s'.length) : EndsAlike s s' := by
  intro rest rest' _ _ heq
  exact String.toList_inj.mp (List.append_inj_left heq h)

/-- The text goes on with more of a sealed string only if it does not go on as after an operand. -/
theorem IsSealed.eq_nil {more : List Char} (hs : IsSealed s) (hmore : s.toList = cs ++ more)
    (hrest : AfterOperand rest) (h : '\'' :: rest = more ++ '\'' :: rest') : more = [] := by
  rcases more with _ | ⟨c, more⟩
  · rfl
  obtain ⟨rfl, hrest'⟩ := List.cons.inj h
  exfalso
  cases hrest with
  | nothing => simp at hrest'
  | close =>
    rcases more with _ | ⟨d, more⟩
    · simp at hrest'
    · obtain ⟨rfl, -⟩ := List.cons.inj hrest'
      exact hs.1 ⟨cs, more, by simp [hmore]⟩
  | comma =>
    rcases more with _ | ⟨d, _ | ⟨d', more⟩⟩
    · simp at hrest'
    · simp at hrest'
    · obtain ⟨rfl, hblank⟩ := List.cons.inj hrest'
      obtain ⟨rfl, -⟩ := List.cons.inj hblank
      exact hs.2 ⟨cs, more, by simp [hmore]⟩

theorem IsSealed.endsAlike (hs : IsSealed s) (hs' : IsSealed s') : EndsAlike s s' := by
  intro rest rest' hrest hrest' h
  rcases List.append_eq_append_iff.mp h with ⟨more, hmore, h⟩ | ⟨more, hmore, h⟩
  · rw [hs'.eq_nil hmore hrest h, List.append_nil] at hmore
    exact (String.toList_inj.mp hmore).symm
  · rw [hs.eq_nil hmore hrest' h, List.append_nil] at hmore
    exact String.toList_inj.mp hmore

namespace Expr

/-! ## Words -/

/-- The strings among the literals, from left to right. -/
def strings : Expr → List String
  | literal (.string s) => [s]
  | binary l _ r => l.strings ++ r.strings
  | unary _ x => x.strings
  | _ => []

/-- Whether the text is a single word. -/
def isWord : Expr → Bool
  | literal (.string _) | binary .. | unary .. => false
  | _ => true

/-- The first word of the text, up to a bracket, a comma or a quote. -/
def word : Expr → List Char
  | literal (.string _) => []
  | binary _ op _ => op.name.toList
  | unary op _ => op.name.toList
  | e => e.text.toList

/-- The text after its first word and before the rest. -/
def afterWord (e : Expr) (rest : List Char) : List Char :=
  match e with
  | literal (.string s) => '\'' :: (s.toList ++ '\'' :: rest)
  | binary l _ r => '(' :: (l.text.toList ++ ',' :: ' ' :: (r.text.toList ++ ')' :: rest))
  | unary _ x => '(' :: (x.text.toList ++ ')' :: rest)
  | _ => rest

/-- A word ends at one of these. -/
def marks : List Char := ['(', ')', ',', '\'']

theorem marks_subset_separators : marks ⊆ Value.separators := List.subset_append_left marks ['$']

variable {e e' : Expr}

theorem toList_text_append (e : Expr) (rest : List Char) :
    e.text.toList ++ rest = e.word ++ e.afterWord rest := by
  cases e with
  | input | temp => rfl
  | literal v => cases v <;> simp [text, Value.text, word, afterWord]
  | binary | unary => simp [text, word, afterWord]

theorem toList_text_input (i : Nat) : (input i).text.toList = '$' :: Nat.toDigits 10 i := by
  simp [text_input]

theorem toList_text_temp (i : Nat) : (temp i).text.toList = '$' :: 't' :: Nat.toDigits 10 i := by
  simp [text_temp]

theorem notMem_marks_of_digits {i : Nat} {c : Char} (h : c ∈ Nat.toDigits 10 i) : c ∉ marks := by
  have hmarks : marks.all (!·.isDigit) := by decide
  intro hc
  simpa [Numeral.isDigit_of_mem_toDigits h] using List.all_eq_true.mp hmarks c hc

theorem notMem_marks_of_word {c : Char} (h : c ∈ e.word) : c ∉ marks := by
  cases e with
  | input i =>
    change c ∈ (input i).text.toList at h
    rw [toList_text_input] at h
    rcases List.mem_cons.mp h with rfl | h
    · simp [marks]
    · exact notMem_marks_of_digits h
  | temp i =>
    change c ∈ (temp i).text.toList at h
    rw [toList_text_temp] at h
    rcases List.mem_cons.mp h with rfl | h
    · simp [marks]
    rcases List.mem_cons.mp h with rfl | h
    · simp [marks]
    · exact notMem_marks_of_digits h
  | literal v =>
    by_cases hv : v.type = .string
    · cases v <;> cases hv
      cases h
    · cases v with
      | string => exact absurd rfl hv
      | _ => exact fun hc => Value.text_plain hv c (marks_subset_separators hc) h
  | binary l op r =>
    have hname : op.name.toList.all (· ∉ marks) := by cases op <;> decide
    exact of_decide_eq_true (List.all_eq_true.mp hname c h)
  | unary op x =>
    have hname : op.name.toList.all (· ∉ marks) := by cases op <;> decide
    exact of_decide_eq_true (List.all_eq_true.mp hname c h)

theorem mem_marks_of_head {c : Char} (hrest : AfterOperand rest)
    (h : c ∈ (e.afterWord rest).head?) : c ∈ marks := by
  have hcases : e.afterWord rest = rest ∨ ∃ d ∈ marks, ∃ cs, e.afterWord rest = d :: cs := by
    cases e with
    | input | temp => exact .inl rfl
    | literal v =>
      cases v with
      | string s => exact .inr ⟨_, by simp [marks], _, rfl⟩
      | _ => exact .inl rfl
    | binary | unary => exact .inr ⟨_, by simp [marks], _, rfl⟩
  rcases hcases with heq | ⟨d, hd, cs, heq⟩
  · rw [heq] at h
    cases hrest with
    | nothing => cases h
    | close | comma =>
      obtain rfl := Option.some.inj h
      simp [marks]
  · rw [heq] at h
    obtain rfl := Option.some.inj h
    exact hd

/-- The first word ends where the text has the first mark. -/
theorem word_append_inj (hrest : AfterOperand rest) (hrest' : AfterOperand rest')
    (h : e.text.toList ++ rest = e'.text.toList ++ rest') :
    e.word = e'.word ∧ e.afterWord rest = e'.afterWord rest' := by
  rw [toList_text_append, toList_text_append] at h
  exact List.append_inj_of_head (fun _ => notMem_marks_of_word) (fun _ => notMem_marks_of_word)
    (fun _ hc => not_not_intro (mem_marks_of_head hrest hc))
    (fun _ hc => not_not_intro (mem_marks_of_head hrest' hc)) h

/-- What comes after a single word may follow an operand, and what comes after another word may
not. -/
theorem isWord_iff (hrest : AfterOperand rest) : e.isWord ↔ AfterOperand (e.afterWord rest) := by
  cases e with
  | input | temp => exact iff_of_true rfl hrest
  | literal v =>
    cases v with
    | string s => exact iff_of_false Bool.false_ne_true nofun
    | _ => exact iff_of_true rfl hrest
  | binary | unary => exact iff_of_false Bool.false_ne_true nofun

theorem afterWord_of_isWord (h : e.isWord) : e.afterWord rest = rest := by
  cases e with
  | input | temp => rfl
  | literal v => cases v <;> first | rfl | cases h
  | binary | unary => cases h

theorem word_of_isWord (h : e.isWord) : e.word = e.text.toList := by
  cases e with
  | input | temp => rfl
  | literal v => cases v <;> first | rfl | cases h
  | binary | unary => cases h

theorem dollar_notMem (h : (literal v).isWord) : '$' ∉ (literal v).text.toList := by
  have hv : v.type ≠ .string := by
    intro hv
    cases v with
    | string => cases h
    | _ => cases hv
  exact Value.text_plain hv _ (by simp [Value.separators])

theorem eq_of_isWord (he : e.isWord) (he' : e'.isWord) (h : e.text = e'.text) : e = e' := by
  have hchars := congrArg String.toList h
  have hletter {i j : Nat} : Nat.toDigits 10 i ≠ 't' :: Nat.toDigits 10 j := fun heq =>
    absurd (Numeral.isDigit_of_mem_toDigits (heq ▸ List.mem_cons_self)) (by decide)
  cases e <;> cases e' <;> try contradiction
  case input.input | temp.temp =>
    simp only [toList_text_input, toList_text_temp, List.cons.injEq, true_and] at hchars
    rw [Numeral.toDigits_inj hchars]
  case input.temp =>
    rw [toList_text_input, toList_text_temp] at hchars
    exact absurd (List.cons.inj hchars).2 hletter
  case temp.input =>
    rw [toList_text_input, toList_text_temp] at hchars
    exact absurd (List.cons.inj hchars).2.symm hletter
  case literal.literal => rw [Value.text_inj h]
  case input.literal => exact absurd (by simp [← hchars, toList_text_input]) (dollar_notMem he')
  case temp.literal => exact absurd (by simp [← hchars, toList_text_temp]) (dollar_notMem he')
  case literal.input => exact absurd (by simp [hchars, toList_text_input]) (dollar_notMem he)
  case literal.temp => exact absurd (by simp [hchars, toList_text_temp]) (dollar_notMem he)

/-! ## Trees -/

/-- Strings at the same place in both lists end alike. -/
def StringsAlike (ss ss' : List String) : Prop :=
  ∀ (k : Nat) s s', ss[k]? = some s → ss'[k]? = some s' → EndsAlike s s'

theorem StringsAlike.of_initial {ss ss' ts ts' : List String} (h : StringsAlike ts ts')
    (hs : ss <+: ts) (hs' : ss' <+: ts') : StringsAlike ss ss' :=
  fun k s s' hk hk' => h k s s' (List.getElem?_of_initial hs hk) (List.getElem?_of_initial hs' hk')

theorem StringsAlike.drop {ss ts ts' : List String} (h : StringsAlike (ss ++ ts) (ss ++ ts')) :
    StringsAlike ts ts' := by
  intro k s s' hk hk'
  refine h (ss.length + k) s s' ?_ ?_
  · rwa [List.getElem?_append_right (Nat.le_add_right _ _), Nat.add_sub_cancel_left]
  · rwa [List.getElem?_append_right (Nat.le_add_right _ _), Nat.add_sub_cancel_left]

theorem exists_of_not_isWord (h : ¬ e.isWord) :
    (∃ s, e = literal (.string s)) ∨ (∃ l op r, e = binary l op r) ∨ ∃ op x, e = unary op x := by
  cases e with
  | input | temp => exact absurd rfl h
  | literal v =>
    cases v with
    | string s => exact .inl ⟨s, rfl⟩
    | _ => exact absurd rfl h
  | binary l op r => exact .inr (.inl ⟨l, op, r, rfl⟩)
  | unary op x => exact .inr (.inr ⟨op, x, rfl⟩)

/-- Texts that are single words are one with their expressions. -/
theorem text_append_cases (hrest : AfterOperand rest) (hrest' : AfterOperand rest')
    (h : e.text.toList ++ rest = e'.text.toList ++ rest') :
    (e = e' ∧ rest = rest') ∨
      (¬ e.isWord ∧ ¬ e'.isWord ∧ e.word = e'.word ∧ e.afterWord rest = e'.afterWord rest') := by
  obtain ⟨hword, hafter⟩ := word_append_inj hrest hrest' h
  have hiff : e.isWord ↔ e'.isWord := by rw [isWord_iff hrest, isWord_iff hrest', hafter]
  by_cases he : e.isWord
  · have he' := hiff.mp he
    rw [word_of_isWord he, word_of_isWord he'] at hword
    rw [afterWord_of_isWord he, afterWord_of_isWord he'] at hafter
    exact .inl ⟨eq_of_isWord he he' (String.toList_inj.mp hword), hafter⟩
  · exact .inr ⟨he, mt hiff.mpr he, hword, hafter⟩

/-- The text of an expression, and where it ends, tells the expression. -/
theorem text_append_inj (hs : StringsAlike e.strings e'.strings) (hrest : AfterOperand rest)
    (hrest' : AfterOperand rest') (h : e.text.toList ++ rest = e'.text.toList ++ rest') :
    e = e' ∧ rest = rest' := by
  induction e generalizing e' rest rest' with
  | input | temp =>
    obtain h | ⟨he, -⟩ := text_append_cases hrest hrest' h
    · exact h
    · exact absurd rfl he
  | literal v =>
    obtain h | ⟨he, he', -, hafter⟩ := text_append_cases hrest hrest' h
    · exact h
    cases v with
    | string s =>
      rcases exists_of_not_isWord he' with ⟨s', rfl⟩ | ⟨_, _, _, rfl⟩ | ⟨_, _, rfl⟩
      · have hquoted := (List.cons.inj hafter).2
        obtain rfl := hs 0 s s' rfl rfl rest rest' hrest hrest' hquoted
        exact ⟨rfl, (List.cons.inj (List.append_cancel_left hquoted)).2⟩
      · exact absurd (List.cons.inj hafter).1 (by decide)
      · exact absurd (List.cons.inj hafter).1 (by decide)
    | _ => exact absurd rfl he
  | binary l op r ihl ihr =>
    obtain h | ⟨-, he', hop, hafter⟩ := text_append_cases hrest hrest' h
    · exact h
    rcases exists_of_not_isWord he' with ⟨_, rfl⟩ | ⟨l', op', r', rfl⟩ | ⟨op', x', rfl⟩
    · exact absurd (List.cons.inj hafter).1 (by decide)
    · have hstart := (List.cons.inj hafter).2
      obtain ⟨rfl, hcomma⟩ := ihl (hs.of_initial (List.prefix_append _ _) (List.prefix_append _ _))
        .comma .comma hstart
      have hright := (List.cons.inj (List.cons.inj hcomma).2).2
      obtain ⟨rfl, hclose⟩ := ihr hs.drop .close .close hright
      rw [BinaryOp.name_inj (String.toList_inj.mp hop)]
      exact ⟨rfl, (List.cons.inj hclose).2⟩
    · -- A comma follows the first of two operands and a bracket the only one.
      have hstart := (List.cons.inj hafter).2
      have hs' : StringsAlike l.strings x'.strings :=
        hs.of_initial (List.prefix_append _ _) (List.prefix_refl _)
      obtain ⟨-, hcomma⟩ := ihl hs' .comma .close hstart
      exact absurd (List.cons.inj hcomma).1 (by decide)
  | unary op x ih =>
    obtain h | ⟨-, he', hop, hafter⟩ := text_append_cases hrest hrest' h
    · exact h
    rcases exists_of_not_isWord he' with ⟨_, rfl⟩ | ⟨l', op', r', rfl⟩ | ⟨op', x', rfl⟩
    · exact absurd (List.cons.inj hafter).1 (by decide)
    · have hstart := (List.cons.inj hafter).2
      obtain ⟨-, hcomma⟩ := ih (hs.of_initial (List.prefix_refl _) (List.prefix_append _ _))
        .close .comma hstart
      exact absurd (List.cons.inj hcomma).1 (by decide)
    · have hs' : StringsAlike x.strings x'.strings := hs
      obtain ⟨rfl, hclose⟩ := ih hs' .close .close (List.cons.inj hafter).2
      rw [UnaryOp.name_inj (String.toList_inj.mp hop)]
      exact ⟨rfl, (List.cons.inj hclose).2⟩

theorem eq_of_text (hs : StringsAlike e.strings e'.strings) (h : e.text = e'.text) : e = e' :=
  (text_append_inj hs .nothing .nothing (congrArg (String.toList · ++ []) h)).1

/-- Expressions of one text are one expression if and only if their strings have the same lengths, and
this they have if all the strings are sealed. -/
theorem text_faithful (h : e.text = e'.text) :
    (e = e' ↔ ∀ (k : Nat) s s', e.strings[k]? = some s → e'.strings[k]? = some s' →
      s.length = s'.length) ∧
    ((∀ s ∈ e.strings ++ e'.strings, IsSealed s) → e = e') := by
  refine ⟨⟨?_, fun hlen => ?_⟩, fun hsealed => ?_⟩
  · rintro rfl k s s' hs hs'
    rw [Option.some.inj (hs.symm.trans hs')]
  · exact eq_of_text (fun k s s' hs hs' => endsAlike_of_length (hlen k s s' hs hs')) h
  · obtain ⟨hl, hr⟩ := List.forall_mem_append.mp hsealed
    refine eq_of_text (fun k s s' hs hs' => ?_) h
    exact (hl s (List.mem_of_getElem? hs)).endsAlike (hr s' (List.mem_of_getElem? hs'))

/-- Whether two strings are equal. -/
def sameStrings (s t : String) : Expr := binary (literal (.string s)) .eq (literal (.string t))

/-- Lengths differ where a text is shared, and quotes as such do no harm. -/
theorem text_faithful_sameStrings :
    (¬ ∀ (k : Nat) s s', (sameStrings "x', 'y" "x', 'y").strings[k]? = some s →
      (sameStrings "x" "y', 'x', 'y").strings[k]? = some s' → s.length = s'.length) ∧
    (binary (input 0) .eq (literal (.string "('a','b'"))).subst
      (fun _ => literal (.string "it's")) temp = sameStrings "it's" "('a','b'" := by
  have htext : (sameStrings "x', 'y" "x', 'y").text = (sameStrings "x" "y', 'x', 'y").text := by
    decide +kernel
  refine ⟨fun hlen => ?_, (text_faithful rfl).2 (by decide)⟩
  exact absurd ((text_faithful htext).1.mpr hlen) (by decide +kernel)

/-- One text for two tests, of which one holds and the other fails. -/
theorem text_shared :
    (sameStrings "x', 'y" "x', 'y").text = (sameStrings "x" "y', 'x', 'y").text ∧
      sameStrings "x', 'y" "x', 'y" ≠ sameStrings "x" "y', 'x', 'y" ∧
      (sameStrings "x', 'y" "x', 'y").eval [] = .ok (.bool true) ∧
      (sameStrings "x" "y', 'x', 'y").eval [] = .ok (.bool false) := by
  decide +kernel

end Expr
end RelPlan
