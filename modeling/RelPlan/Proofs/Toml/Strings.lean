import RelPlan.Toml.Reader
import RelPlan.Toml.Writer

/-! # Written strings are read back

A string is written on one line or as a block, between double or single quotes. Whichever style it
gets, the reader takes exactly its characters and stops at what follows (`Toml.scanValue_quoted`).
Blocks are the harder half: quotes inside one may run into the closing ones (`Toml.Block`). -/

namespace RelPlan
namespace Toml

/-- Nothing follows that could belong to the value before: a comma, a line end or nothing at all. -/
def Ends (rest : List Char) : Prop := ∀ c ∈ rest.head?, c = ',' ∨ c = '\n'

/-! ## Characters -/

/-- After a backslash the characters stand for the one character. They do not end the line. -/
structure Escapes (cs : List Char) (c : Char) : Prop where
  newline : ∀ rest, newline? (skipBlanks (cs ++ rest)) = none
  scan : ∀ rest, scanEscape (cs ++ rest) = some (c, rest)

/-- Between double quotes the characters stand for the one character. -/
inductive Spells : List Char → Char → Prop where
  | self : c ≠ '"' → c ≠ '\\' → isControl c = false → Spells [c] c
  | escaped : Escapes cs c → Spells ('\\' :: cs) c

theorem digit?_hexDigit : ∀ n < 16, digit? 16 (hexDigit n) = some n := by decide

theorem charOf?_toNat (c : Char) : charOf? c.toNat = some c := by
  rw [charOf?, if_pos (show c.toNat.isValidChar from c.valid), Char.ofNat_toNat]

/-- Control characters are among the first 128 ones. -/
theorem toNat_lt_of_isControl {c : Char} (h : isControl c) : c.toNat < 128 := by
  simp only [isControl, Bool.or_eq_true, Bool.and_eq_true, decide_eq_true_eq] at h
  rcases h with ⟨h, -⟩ | rfl
  · have hlt : c.toNat < 32 := h
    omega
  · decide

theorem escapes_number {c : Char} (h : c.toNat < 128) :
    Escapes ['u', '0', '0', hexDigit (c.toNat / 16), hexDigit (c.toNat % 16)] c where
  newline rest := rfl
  scan rest := by
    have hzero : digit? 16 '0' = some 0 := rfl
    have hdigits : digits? 16 ['0', '0', hexDigit (c.toNat / 16), hexDigit (c.toNat % 16)] =
        some c.toNat := by
      simp only [digits?, List.foldlM_cons, List.foldlM_nil, hzero,
        digit?_hexDigit (c.toNat / 16) (by omega), digit?_hexDigit (c.toNat % 16) (by omega)]
      simp
      omega
    simp [scanEscape, scanEscape.hex, hdigits, charOf?_toNat]

theorem spells_escape (c : Char) : Spells (escape c) c := by
  unfold escape
  split
  case h_8 hquote hslash _ _ _ _ _ =>
    split
    case isTrue h => exact .escaped (escapes_number (toNat_lt_of_isControl h))
    case isFalse h => exact .self hquote hslash (Bool.eq_false_iff.mpr h)
  all_goals exact .escaped ⟨fun _ => rfl, fun _ => rfl⟩

/-! ## Strings on one line -/

theorem Spells.scanBasic (h : Spells cs c) (fuel : Nat) (rest : List Char) :
    scanBasic (fuel + 1) (cs ++ rest) =
      (scanBasic fuel rest).map fun (s, rest) => (c :: s, rest) := by
  cases h with
  | self hquote hslash hcontrol =>
    rw [List.cons_append, List.nil_append, Toml.scanBasic]
    · rw [if_neg (Bool.eq_false_iff.mp hcontrol)]
      cases Toml.scanBasic fuel rest <;> rfl
    · exact hquote
    · exact hslash
  | escaped hesc =>
    simp only [List.cons_append, Toml.scanBasic, hesc.scan, Option.bind_eq_bind, Option.bind_some]
    cases Toml.scanBasic fuel rest <;> rfl

theorem Spells.length_pos (h : Spells cs c) : 0 < cs.length := by
  cases h <;> exact Nat.succ_pos _

theorem scanBasic_flatMap (hfuel : (cs.flatMap escape).length < fuel) (rest : List Char) :
    scanBasic fuel (cs.flatMap escape ++ '"' :: rest) = some (cs, rest) := by
  induction cs generalizing fuel with
  | nil =>
    obtain _ | fuel := fuel
    · cases hfuel
    · rfl
  | cons c cs ih =>
    have hpos := (spells_escape c).length_pos
    rw [List.flatMap_cons, List.length_append] at hfuel
    obtain _ | fuel := fuel
    · omega
    rw [List.flatMap_cons, List.append_assoc, (spells_escape c).scanBasic, ih (by omega)]
    rfl

theorem scanLiteral_append (hquote : '\x27' ∉ cs) (hcontrol : ∀ c ∈ cs, isControl c = false)
    (rest : List Char) : scanLiteral (cs ++ '\x27' :: rest) = some (cs, rest) := by
  induction cs with
  | nil => rfl
  | cons c cs ih =>
    obtain ⟨hc, hquote⟩ := not_or.mp (mt List.mem_cons.mpr hquote)
    obtain ⟨hcontrol, hcontrols⟩ := List.forall_mem_cons.mp hcontrol
    rw [List.cons_append, scanLiteral, if_neg (Bool.eq_false_iff.mp hcontrol),
      ih hquote hcontrols]
    · rfl
    · exact Ne.symm hc

/-! ## Strings of several lines -/

/-- Between triple quotes the first characters stand for the second ones. Of quotes in a row only two
stand for themselves, and backslashes do so only between single quotes. -/
inductive Block (quote : Char) : List Char → List Char → Prop where
  | nil : Block quote [] []
  | quote : ¬ [quote, quote] <+: body → Block quote body cs →
      Block quote (quote :: body) (quote :: cs)
  | newline : Block quote body cs → Block quote ('\n' :: body) ('\n' :: cs)
  | self : c ≠ quote → (c = '\\' → quote ≠ '"') → isControl c = false → Block quote body cs →
      Block quote (c :: body) (c :: cs)
  | escaped : quote = '"' → Escapes e c → Block quote body cs →
      Block quote ('\\' :: e ++ body) (c :: cs)

theorem block_of_not_hasTriple {quote : Char} (hslash : quote ≠ '"')
    (hcontrol : ∀ c ∈ cs, isControl c → c = '\n') (htriple : hasTriple quote cs = false) :
    Block quote cs cs := by
  induction cs with
  | nil => exact .nil
  | cons c cs ih =>
    obtain ⟨hc, hcontrol⟩ := List.forall_mem_cons.mp hcontrol
    obtain ⟨hfront, htriple⟩ := Bool.or_eq_false_iff.mp htriple
    have hcs := ih hcontrol htriple
    by_cases hquote : c = quote
    · subst hquote
      refine .quote (fun h => ?_) hcs
      rw [Bool.eq_false_iff, ne_eq, List.isPrefixOf_iff_prefix] at hfront
      exact hfront (List.cons_prefix_cons.mpr ⟨rfl, h⟩)
    · by_cases hline : c = '\n'
      · exact hline ▸ .newline hcs
      · exact .self hquote (fun _ => hslash) (Bool.eq_false_iff.mpr (mt hc hline)) hcs

theorem Spells.head_append_ne (h : Spells cs c) (rest : List Char) :
    (cs ++ rest).head? ≠ some '"' := by
  cases h with
  | self hquote => exact fun heq => hquote (Option.some.inj heq)
  | escaped => exact fun heq => absurd (Option.some.inj heq) (by decide)

/-- Only after less than two quotes another one stands for itself. -/
theorem head?_escapeBlock_ne (h : k < 2 → c ≠ '"') (cs : List Char) :
    (escapeBlock k (c :: cs)).head? ≠ some '"' := by
  by_cases hc : c = '\n'
  · subst hc
    rw [escapeBlock]
    exact fun heq => absurd (Option.some.inj heq) (by decide)
  · rw [escapeBlock]
    · exact (spells_escape c).head_append_ne _
    · exact hc
    · rintro rfl
      exact h (by decide)
    · rintro rfl
      exact h (by decide)

theorem not_prefix_escapeBlock (k : Nat) (cs : List Char) :
    ¬ ['"', '"'] <+: escapeBlock (k + 1) cs := by
  rintro ⟨rest, h⟩
  rcases cs with _ | ⟨c, cs⟩
  · cases k <;> cases h
  · by_cases hquote : k = 0 ∧ c = '"'
    · obtain ⟨rfl, rfl⟩ := hquote
      -- The second quote is the head of what comes after two of them.
      have hhead : (escapeBlock 2 cs).head? = some '"' := (List.cons.inj h).2 ▸ rfl
      rcases cs with _ | ⟨c, cs⟩
      · cases hhead
      · exact head?_escapeBlock_ne (fun hk => absurd hk (by decide)) cs hhead
    · have hhead : (escapeBlock (k + 1) (c :: cs)).head? = some '"' := h ▸ rfl
      exact head?_escapeBlock_ne (fun hk hc => hquote ⟨by omega, hc⟩) cs hhead

theorem block_escapeBlock (k : Nat) (cs : List Char) : Block '"' (escapeBlock k cs) cs := by
  fun_induction escapeBlock k cs with
  | case1 => exact .nil
  | case2 _ cs ih => exact .newline ih
  | case3 cs ih => exact .quote (not_prefix_escapeBlock 0 cs) ih
  | case4 cs ih => exact .quote (not_prefix_escapeBlock 1 cs) ih
  | case5 _ c cs _ _ _ ih =>
    have hc := spells_escape c
    generalize escape c = e at hc ⊢
    cases hc with
    | self hquote hslash hcontrol => exact .self hquote (absurd · hslash) hcontrol ih
    | escaped hesc => exact .escaped rfl hesc ih

/-- Up to two quotes before the closing ones belong to the string. -/
theorem scanLines_closing {quote : Char} (hk : k ≤ 2) (hrest : rest.head? ≠ some quote)
    (fuel : Nat) : scanLines quote (fuel + 1) (List.replicate (k + 3) quote ++ rest) =
      some (List.replicate k quote, rest) := by
  have hrun : (List.replicate (k + 3) quote ++ rest).takeWhile (· = quote) =
      List.replicate (k + 3) quote := by
    rw [List.takeWhile_append_of_pos (by simp)]
    cases rest with
    | nil => simp
    | cons c rest => rw [List.takeWhile_cons_of_neg (by simpa using hrest), List.append_nil]
  have hlen : ¬ (k + 3 < 3 ∨ 5 < k + 3) := by omega
  have hclosing : scanClosing quote (List.replicate (k + 3) quote ++ rest) =
      some (List.replicate k quote, rest) := by
    simp only [scanClosing, hrun, List.length_replicate, if_neg hlen, List.drop_replicate,
      Nat.add_sub_cancel, List.drop_left' List.length_replicate]
  simpa [List.replicate_succ, Toml.scanLines] using hclosing

theorem newline?_cons_of_not_isControl (hcontrol : isControl c = false) (cs : List Char) :
    newline? (c :: cs) = none := by
  unfold newline?
  split
  case h_1 heq | h_2 heq =>
    obtain ⟨rfl, -⟩ := List.cons.inj heq
    exact absurd hcontrol (by decide)
  case h_3 => rfl

theorem scanLines_self {quote : Char} (h : ¬ (c = quote ∧ [quote, quote].isPrefixOf cs))
    (hslash : c = '\\' → quote ≠ '"') (hcontrol : isControl c = false) (fuel : Nat) :
    scanLines quote (fuel + 1) (c :: cs) =
      (scanLines quote fuel cs).map fun (s, rest) => (c :: s, rest) := by
  rw [scanLines, if_neg h, if_neg fun h => hslash h.1 h.2,
    newline?_cons_of_not_isControl hcontrol]
  simp only [if_neg (Bool.eq_false_iff.mp hcontrol)]
  cases scanLines quote fuel cs <;> rfl

theorem scanLines_newline {quote : Char} (hquote : isControl quote = false) (fuel : Nat)
    (cs : List Char) : scanLines quote (fuel + 1) ('\n' :: cs) =
      (scanLines quote fuel cs).map fun (s, rest) => ('\n' :: s, rest) := by
  have hne : '\n' ≠ quote := by
    rintro rfl
    cases hquote
  have htake : ('\n' :: cs).take (('\n' :: cs).length - cs.length) = ['\n'] := by simp
  rw [scanLines, if_neg fun h => hne h.1, if_neg fun h => absurd h.1 (by decide), newline?]
  simp only [htake]
  cases scanLines quote fuel cs <;> rfl

theorem Escapes.scanLines (h : Escapes e c) (fuel : Nat) (cs : List Char) :
    scanLines '"' (fuel + 1) ('\\' :: (e ++ cs)) =
      (scanLines '"' fuel cs).map fun (s, rest) => (c :: s, rest) := by
  rw [Toml.scanLines, if_neg fun h => absurd h.1 (by decide), if_pos ⟨rfl, rfl⟩, h.newline, h.scan]
  simp only [Option.isSome_none, Bool.false_eq_true, if_false, Option.bind_eq_bind, Option.bind_some]
  cases Toml.scanLines '"' fuel cs <;> rfl

theorem Block.eq_singleton {quote : Char} (hquote : isControl quote = false)
    (h : Block quote [quote] cs) : cs = [quote] := by
  generalize hbody : [quote] = body at h
  cases h with
  | nil => cases hbody
  | quote _ h =>
    obtain ⟨-, rfl⟩ := List.cons.inj hbody
    cases h
    rfl
  | newline =>
    obtain ⟨rfl, -⟩ := List.cons.inj hbody
    cases hquote
  | self hne => exact absurd (List.cons.inj hbody).1.symm hne
  | escaped heq =>
    obtain ⟨rfl, -⟩ := List.cons.inj hbody
    cases heq

/-- A block is read up to its closing quotes. -/
theorem Block.scanLines {quote : Char} (hquote : isControl quote = false) (h : Block quote body cs)
    (hrest : rest.head? ≠ some quote) (hfuel : body.length ≤ fuel) :
    scanLines quote (fuel + 1) (body ++ ([quote, quote, quote] ++ rest)) = some (cs, rest) := by
  induction h generalizing fuel with
  | nil => exact scanLines_closing (k := 0) (by decide) hrest fuel
  | @quote body cs hfront h ih =>
    -- Quotes at the very end stand in a row with the closing ones and are taken with these.
    rcases body with _ | ⟨a, body⟩
    · cases h
      exact scanLines_closing (k := 1) (by decide) hrest fuel
    obtain _ | fuel := fuel
    · cases hfuel
    by_cases ha : a = quote ∧ body = []
    · obtain ⟨rfl, rfl⟩ := ha
      rw [h.eq_singleton hquote]
      exact scanLines_closing (k := 2) (Nat.le_refl 2) hrest (fuel + 1)
    · have hopen : ¬ [quote, quote] <+: a :: body ++ ([quote, quote, quote] ++ rest) := by
        intro hpre
        obtain ⟨rfl, hnext⟩ := List.cons_prefix_cons.mp hpre
        rcases body with _ | ⟨b, body⟩
        · exact ha ⟨rfl, rfl⟩
        · obtain ⟨rfl, -⟩ := List.cons_prefix_cons.mp hnext
          exact hfront (by simp)
      have hslash : quote = '\\' → quote ≠ '"' := by
        rintro rfl
        decide
      rw [List.cons_append, scanLines_self (fun h => hopen (List.isPrefixOf_iff_prefix.mp h.2))
        hslash hquote, ih (Nat.le_of_succ_le_succ hfuel)]
      rfl
  | @newline body cs h ih =>
    obtain _ | fuel := fuel
    · cases hfuel
    rw [List.cons_append, scanLines_newline hquote, ih (Nat.le_of_succ_le_succ hfuel)]
    rfl
  | @self c body cs hne hslash hcontrol h ih =>
    obtain _ | fuel := fuel
    · cases hfuel
    rw [List.cons_append, scanLines_self (fun h => hne h.1) hslash hcontrol,
      ih (Nat.le_of_succ_le_succ hfuel)]
    rfl
  | @escaped e c body cs heq hesc h ih =>
    subst heq
    rw [List.length_append, List.length_cons] at hfuel
    obtain _ | fuel := fuel
    · omega
    rw [List.append_assoc, List.cons_append, hesc.scanLines, ih (by omega)]
    rfl

/-- A block without line ends does not start with one. -/
theorem Block.newline?_eq_none {quote : Char} (hquote : isControl quote = false)
    (h : Block quote body cs) (hcs : '\n' ∉ cs) (rest : List Char) :
    newline? (body ++ quote :: rest) = none := by
  cases h with
  | nil | quote => exact newline?_cons_of_not_isControl hquote _
  | newline => exact absurd List.mem_cons_self hcs
  | self _ _ hcontrol => exact newline?_cons_of_not_isControl hcontrol _
  | escaped => rfl

theorem Block.scanTextBlock {quote : Char} (hquote : isControl quote = false)
    (h : Block quote body cs) (hrest : rest.head? ≠ some quote) :
    scanTextBlock quote (blockStart cs ++ body ++ [quote, quote, quote] ++ rest) =
      some (.ofList cs, rest) := by
  have hstart : (newline? (blockStart cs ++ body ++ [quote, quote, quote] ++ rest)).getD
      (blockStart cs ++ body ++ [quote, quote, quote] ++ rest) =
        body ++ ([quote, quote, quote] ++ rest) := by
    rw [blockStart]
    split
    · simp [newline?]
    · rename_i hline
      simp [h.newline?_eq_none hquote hline]
  simp only [Toml.scanTextBlock, hstart]
  rw [h.scanLines hquote hrest (by simp)]
  rfl

/-! ## All styles -/

theorem TextStyle.of_eq_literal (h : TextStyle.of cs = .literal) :
    '\x27' ∉ cs ∧ ∀ c ∈ cs, isControl c = false := by
  unfold TextStyle.of at h
  grind

theorem TextStyle.of_eq_literalBlock (h : TextStyle.of cs = .literalBlock) :
    (∀ c ∈ cs, isControl c → c = '\n') ∧ hasTriple '\x27' cs = false := by
  unfold TextStyle.of at h
  grind

/-- A string on one line does not look like the opening of a block. -/
theorem not_prefix_append {quote : Char} (hcs : cs.head? ≠ some quote)
    (hrest : rest.head? ≠ some quote) : ¬ [quote, quote] <+: cs ++ quote :: rest := by
  intro h
  rcases cs with _ | ⟨c, cs⟩
  · obtain ⟨-, h⟩ := List.cons_prefix_cons.mp h
    obtain ⟨_, h⟩ := h
    exact hrest (h ▸ rfl)
  · obtain ⟨rfl, -⟩ := List.cons_prefix_cons.mp h
    exact hcs rfl

theorem scanValue_string (hc : c = '"' ∨ c = '\x27') (h : ¬ [c, c] <+: cs) (fuel depth : Nat) :
    scanValue (fuel + 1) depth (c :: cs) =
      (scanString (c :: cs)).map fun (s, cs) => (.string s, cs) := by
  rcases hc with rfl | rfl
  · rw [scanValue]
    exact fun _ heq => h (heq ▸ List.prefix_append _ _)
  · rw [scanValue]
    exact fun _ heq => h (heq ▸ List.prefix_append _ _)

theorem scanValue_textBlock (hc : c = '"' ∨ c = '\x27') (fuel depth : Nat) (cs : List Char) :
    scanValue (fuel + 1) depth ([c, c, c] ++ cs) =
      (scanTextBlock c cs).map fun (s, cs) => (.string s, cs) := by
  rcases hc with rfl | rfl <;> rfl

theorem exists_quoted (s : String) :
    ∃ c cs, quoted s = c :: cs ∧ (c = '"' ∨ c = '\x27') := by
  unfold quoted
  dsimp only
  split
  · exact ⟨_, _, rfl, .inl rfl⟩
  · exact ⟨_, _, rfl, .inr rfl⟩
  · exact ⟨_, _, rfl, .inl rfl⟩
  · exact ⟨_, _, rfl, .inr rfl⟩

/-- A string is read from its characters. -/
theorem scanValue_quoted (s : String) (fuel depth : Nat) (hrest : Ends rest) :
    scanValue (fuel + 1) depth (quoted s ++ rest) = some (.string s, rest) := by
  have hends {quote : Char} (hne : quote ≠ ',' ∧ quote ≠ '\n') : rest.head? ≠ some quote :=
    fun h => (hrest quote h).elim hne.1 hne.2
  unfold quoted
  dsimp only
  cases hstyle : TextStyle.of s.toList with
  | basic =>
    have hopen : ¬ ['"', '"'] <+: s.toList.flatMap escape ++ '"' :: rest := by
      refine not_prefix_append ?_ (hends (by decide))
      cases s.toList with
      | nil => exact Option.some_ne_none _ |>.symm
      | cons c cs => exact (spells_escape c).head_append_ne _
    rw [List.append_assoc, List.cons_append, List.singleton_append,
      scanValue_string (.inl rfl) hopen, scanString, scanBasic_flatMap (by rw [List.length_append]; omega)]
    simp
  | literal =>
    obtain ⟨hquote, hcontrol⟩ := TextStyle.of_eq_literal hstyle
    have hopen : ¬ ['\x27', '\x27'] <+: s.toList ++ '\x27' :: rest :=
      not_prefix_append (fun h => hquote (List.mem_of_head? h)) (hends (by decide))
    rw [List.append_assoc, List.cons_append, List.singleton_append,
      scanValue_string (.inr rfl) hopen, scanString, scanLiteral_append hquote hcontrol]
    simp
  | basicBlock =>
    have hblock := (block_escapeBlock 0 s.toList).scanTextBlock (by decide) (hends (by decide))
    simp only [List.append_assoc] at hblock ⊢
    rw [scanValue_textBlock (.inl rfl), hblock]
    simp
  | literalBlock =>
    obtain ⟨hcontrol, htriple⟩ := TextStyle.of_eq_literalBlock hstyle
    have hblock := (block_of_not_hasTriple (by decide) hcontrol htriple).scanTextBlock
      (by decide) (hends (by decide))
    simp only [List.append_assoc] at hblock ⊢
    rw [scanValue_textBlock (.inr rfl), hblock]
    simp

end Toml
end RelPlan
