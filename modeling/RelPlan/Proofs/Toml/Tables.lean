import RelPlan.Proofs.Number.Numerals
import RelPlan.Proofs.Toml.Strings

/-! # Written tables are read back

Tables of settings are read from their header and the lines that follow it
(`Toml.readLines_table`), whatever has been read before. -/

namespace RelPlan
namespace Toml

/-- The characters are those of the value. They do not start with a blank. -/
structure Written (cs : List Char) (t : Toml) : Prop where
  head : ∃ c ∈ cs.head?, isBlank c = false
  scan : ∀ fuel rest, cs.length < fuel → Ends rest →
    scanValue fuel maxDepth (cs ++ rest) = some (t, rest)

/-! ## Scalars -/

theorem digit?_of_isDigit {c : Char} (h : c.isDigit) : digit? 10 c = some (c.toNat - '0'.toNat) := by
  have hlt : c.toNat - '0'.toNat < 10 := by
    have hle := (Char.isDigit_iff_toNat.mp h).2
    have hzero : '0'.toNat = 48 := rfl
    have hnine : '9'.toNat = 57 := rfl
    omega
  simp only [digit?, if_pos h, if_pos hlt]

theorem ungroup_of_isDigit (hne : ds ≠ []) (hds : ∀ c ∈ ds, c.isDigit) : ungroup 10 ds = some ds := by
  fun_induction ungroup 10 ds with
  | case1 => exact absurd rfl hne
  | case2 c => simp [digit?_of_isDigit (hds c List.mem_cons_self)]
  | case3 c cs => exact absurd (hds '_' (by simp)) (by decide)
  | case4 c cs hnil _ ih =>
    obtain ⟨hc, hcs⟩ := List.forall_mem_cons.mp hds
    rw [ih hnil hcs, digit?_of_isDigit hc]
    rfl

theorem digits?_of_isDigit (hds : ∀ c ∈ ds, c.isDigit) : digits? 10 ds = some (Numeral.value ds) := by
  rw [digits?, Numeral.value]
  generalize 0 = n
  induction ds generalizing n with
  | nil => rfl
  | cons c ds ih =>
    obtain ⟨hc, hds⟩ := List.forall_mem_cons.mp hds
    simp only [List.foldlM_cons, digit?_of_isDigit hc]
    exact ih hds _

theorem integer?_toDigits (n : Nat) : integer? (Nat.toDigits 10 n) = some (n : Int) := by
  have hds : ∀ c ∈ Nat.toDigits 10 n, c.isDigit := fun _ => Numeral.isDigit_of_mem_toDigits
  have hleading : ¬ ((Nat.toDigits 10 n).head? = some '0' ∧ 1 < (Nat.toDigits 10 n).length) := by
    rintro ⟨hzero, hlong⟩
    by_cases hn : n = 0
    · subst hn
      exact absurd hlong (by decide)
    · exact Numeral.head?_toDigits_ne hn hzero
  unfold integer?
  split
  case h_6 =>
    simp only [decimal?, decimalDigits?, if_neg hleading]
    rw [ungroup_of_isDigit Nat.toDigits_ne_nil hds]
    simp [digits?_of_isDigit hds, Numeral.value_toDigits]
  all_goals
    rename_i heq
    rw [heq] at hds
    simp at hds

theorem scanToken_append {token : List Char} (htoken : ∀ c ∈ token, isScalarChar c)
    (hrest : Ends rest) : scanToken (token ++ rest) = (token, rest) := by
  have hend : ∀ c ∈ rest.head?, isScalarChar c = false ∧ c ≠ ' ' := by
    intro c hc
    obtain rfl | rfl := hrest c hc <;> decide
  have htake : (token ++ rest).takeWhile isScalarChar = token := by
    rw [List.takeWhile_append_of_pos htoken]
    cases rest with
    | nil => simp
    | cons c rest => rw [List.takeWhile_cons_of_neg (by simp [hend c rfl]), List.append_nil]
  have hdrop : (token ++ rest).dropWhile isScalarChar = rest := by
    rw [List.dropWhile_append_of_pos htoken]
    cases rest with
    | nil => rfl
    | cons c rest => rw [List.dropWhile_cons_of_neg (by simp [hend c rfl])]
  simp only [scanToken, htake, hdrop]
  split
  · exact absurd rfl (hend ' ' rfl).2
  · rfl

theorem written_scalar {token : List Char} (hne : token ≠ []) (htoken : token.all isScalarChar)
    (h : scalar? token = some t) : Written token t := by
  have htoken := List.all_eq_true.mp htoken
  obtain ⟨c, cs, rfl⟩ := List.exists_cons_of_ne_nil hne
  have hc {d : Char} (hd : isScalarChar d = false) : c ≠ d := by
    rintro rfl
    rw [htoken c List.mem_cons_self] at hd
    cases hd
  refine ⟨⟨c, rfl, ?_⟩, fun fuel rest hfuel hrest => ?_⟩
  · simp [isBlank, hc (d := ' ') rfl, hc (d := '\t') rfl]
  · obtain _ | fuel := fuel
    · cases hfuel
    have htoken := scanToken_append htoken hrest
    rw [List.cons_append] at htoken ⊢
    rw [scanValue, htoken]
    · simp only [h, Option.map_some]
    all_goals simp [hc (d := '"') rfl, hc (d := '\x27') rfl, hc (d := '[') rfl, hc (d := '\x7b') rfl]

theorem written_natural (n : Nat) : Written (Nat.toDigits 10 n) (.integer n) := by
  have hds : ∀ c ∈ Nat.toDigits 10 n, c.isDigit := fun _ => Numeral.isDigit_of_mem_toDigits
  refine written_scalar Nat.toDigits_ne_nil (List.all_eq_true.mpr fun c hc => ?_) ?_
  · simp [isScalarChar, Char.isAlphanum, hds c hc]
  · have hword (word : List Char) (hword : word.all Char.isDigit = false) :
        Nat.toDigits 10 n ≠ word := by
      rintro rfl
      rw [List.all_eq_true.mpr hds] at hword
      cases hword
    simp only [scalar?, if_neg (hword ['t', 'r', 'u', 'e'] rfl),
      if_neg (hword ['f', 'a', 'l', 's', 'e'] rfl), integer?_toDigits]

theorem written_boolean (b : Bool) : Written (booleanText b) (.boolean b) := by
  cases b
  · exact written_scalar (List.cons_ne_nil _ _) rfl rfl
  · exact written_scalar (List.cons_ne_nil _ _) rfl rfl

/-! ## Strings -/

theorem written_string (s : String) : Written (quoted s) (.string s) where
  head := by
    obtain ⟨c, cs, hcs, rfl | rfl⟩ := exists_quoted s
    · exact ⟨'"', by rw [hcs]; rfl, rfl⟩
    · exact ⟨'\x27', by rw [hcs]; rfl, rfl⟩
  scan fuel rest hfuel hrest := by
    obtain _ | fuel := fuel
    · cases hfuel
    · exact scanValue_quoted s fuel maxDepth hrest

theorem skipBlanks_cons (hblank : isBlank c = false) (cs : List Char) :
    skipBlanks (c :: cs) = c :: cs :=
  List.dropWhile_cons_of_neg (by simp [hblank])

theorem skipSpace_self (hblank : isBlank c = false) (hcomment : c ≠ '#')
    (hcontrol : isControl c = false) (fuel : Nat) (cs : List Char) :
    skipSpace fuel (c :: cs) = some (c :: cs) := by
  cases fuel with
  | zero => rfl
  | succ fuel =>
    have hskip : skipComment (c :: cs) = some (c :: cs) := by
      rw [skipComment]
      exact fun _ heq => hcomment (List.cons.inj heq).1
    simp [skipSpace, skipBlanks_cons hblank, hskip, newline?_cons_of_not_isControl hcontrol]

theorem skipSpace_newline (fuel : Nat) (cs : List Char) :
    skipSpace (fuel + 1) ('\n' :: cs) = skipSpace fuel cs := rfl

theorem skipSpace_blank (fuel : Nat) (cs : List Char) :
    skipSpace (fuel + 1) (' ' :: cs) = skipSpace (fuel + 1) cs := rfl

/-- The line of a string in a list. -/
def item (s : String) : List Char := [' ', ' ', ' ', ' '] ++ quoted s ++ [',', '\n']

theorem skipSpace_item (s : String) (cs : List Char) :
    skipSpace ('\n' :: (item s ++ cs)).length ('\n' :: (item s ++ cs)) =
      some (quoted s ++ ',' :: '\n' :: cs) := by
  obtain ⟨c, q, hq, hc⟩ := exists_quoted s
  have hself (fuel : Nat) : skipSpace fuel (quoted s ++ ',' :: '\n' :: cs) =
      some (quoted s ++ ',' :: '\n' :: cs) := by
    rw [hq]
    rcases hc with rfl | rfl
    · exact skipSpace_self rfl (by decide) rfl fuel _
    · exact skipSpace_self rfl (by decide) rfl fuel _
  simp only [item, List.cons_append, List.nil_append, List.append_assoc, List.length_cons,
    skipSpace_newline, skipSpace_blank, hself]

/-- The lines of a list are read up to its closing bracket. -/
theorem scanItems_strings (items : List String) (depth : Nat) (rest : List Char)
    (hfuel : (items.flatMap item).length < fuel) :
    scanItems fuel depth ('\n' :: (items.flatMap item ++ ']' :: rest)) =
      some (items.map .string, rest) := by
  induction items generalizing fuel with
  | nil =>
    obtain _ | fuel := fuel
    · cases hfuel
    rw [List.flatMap_nil, List.nil_append, scanItems, List.length_cons, skipSpace_newline,
      skipSpace_self rfl (by decide) rfl]
    rfl
  | cons s items ih =>
    rw [List.flatMap_cons, List.length_append] at hfuel
    have hpos : 2 ≤ (item s).length := by simp [item]
    obtain ⟨fuel, rfl⟩ : ∃ k, fuel = k + 2 := ⟨fuel - 2, by omega⟩
    have hnext : scanItems (fuel + 1) depth _ = some (items.map .string, rest) := ih (by omega)
    have hends : Ends (',' :: '\n' :: (items.flatMap item ++ ']' :: rest)) := by
      rintro _ ⟨⟩
      exact .inl rfl
    have hvalue := scanValue_quoted s fuel depth hends
    have hcomma (k : Nat) (cs : List Char) : skipSpace k (',' :: cs) = some (',' :: cs) :=
      skipSpace_self rfl (by decide) rfl k cs
    obtain ⟨c, q, hq, hc⟩ := exists_quoted s
    have hbracket : c ≠ ']' := by rcases hc with rfl | rfl <;> decide
    rw [List.flatMap_cons, List.append_assoc, scanItems, skipSpace_item]
    rw [hq, List.cons_append] at hvalue ⊢
    simp [hvalue, hcomma, hnext, hbracket]

theorem strings_cons (s : String) (items : List String) :
    strings (s :: items) = '[' :: '\n' :: ((s :: items).flatMap item ++ [']']) := rfl

theorem written_strings (items : List String) :
    Written (strings items) (.array (items.map .string)) where
  head := by cases items <;> exact ⟨'[', rfl, rfl⟩
  scan fuel rest hfuel _ := by
    obtain _ | fuel := fuel
    · cases hfuel
    cases items with
    | nil =>
      obtain _ | fuel := fuel
      · simp [strings] at hfuel
      simp [strings, scanValue, scanItems, maxDepth, skipSpace_self, isBlank, isControl]
    | cons s items =>
      rw [strings_cons, List.length_cons, List.length_cons, List.length_append] at hfuel
      have hitems : scanItems fuel (maxDepth - 1) _ = some ((s :: items).map .string, rest) :=
        scanItems_strings (s :: items) (maxDepth - 1) rest (by omega)
      rw [strings_cons, List.cons_append, List.cons_append, List.append_assoc, scanValue,
        if_neg (by decide), List.singleton_append, hitems]
      rfl

/-! ## Keys -/

/-- The name stands for itself as a key. -/
def Bare (name : String) : Prop := name.toList ≠ [] ∧ name.toList.all isBare

instance (name : String) : Decidable (Bare name) := inferInstanceAs (Decidable (_ ∧ _))

theorem Bare.exists_cons (h : Bare name) : ∃ c cs, name.toList = c :: cs ∧ isBare c := by
  obtain ⟨c, cs, hcs⟩ := List.exists_cons_of_ne_nil h.1
  exact ⟨c, cs, hcs, List.all_eq_true.mp h.2 c (by simp [hcs])⟩

theorem ne_of_isBare (h : isBare c) (hd : isBare d = false) : c ≠ d := by
  rintro rfl
  rw [h] at hd
  cases hd

theorem isBlank_of_isBare (h : isBare c) : isBlank c = false := by
  simp [isBlank, ne_of_isBare h (d := ' ') rfl, ne_of_isBare h (d := '\t') rfl]

theorem isControl_of_isBare (h : isBare c) : isControl c = false := by
  have hascii : ∀ n < 128, isControl (.ofNat n) → isBare (.ofNat n) = false := by decide
  refine Bool.eq_false_iff.mpr fun hc => ?_
  have hbare := hascii c.toNat (toNat_lt_of_isControl hc)
  rw [Char.ofNat_toNat, h] at hbare
  cases hbare hc

/-- A key of one part is read up to what follows it, blanks apart. -/
theorem scanKey_bare (h : Bare name) (hc : isBare c = false)
    (hskip : skipBlanks (c :: rest) = d :: rest') (hd : d ≠ '.') (parts : Nat) :
    scanKey (parts + 1) (name.toList ++ c :: rest) = some ([name], d :: rest') := by
  obtain ⟨a, cs, hcs, ha⟩ := h.exists_cons
  have hname : skipBlanks (name.toList ++ c :: rest) = name.toList ++ c :: rest := by
    rw [hcs, List.cons_append, skipBlanks_cons (isBlank_of_isBare ha)]
  have htake : (name.toList ++ c :: rest).takeWhile isBare = name.toList := by
    rw [List.takeWhile_append_of_pos (List.all_eq_true.mp h.2),
      List.takeWhile_cons_of_neg (by simp [hc]), List.append_nil]
  have hdrop : (name.toList ++ c :: rest).dropWhile isBare = c :: rest := by
    rw [List.dropWhile_append_of_pos (List.all_eq_true.mp h.2),
      List.dropWhile_cons_of_neg (by simp [hc])]
  have hpart : scanKeyPart (name.toList ++ c :: rest) = some (name, c :: rest) := by
    rw [scanKeyPart, htake, hdrop]
    split
    · rename_i hnil
      exact absurd hnil h.1
    · rw [String.ofList_toList]
  simp [scanKey, hname, hpart, hskip, hd]

/-! ## Lines -/

theorem readLines_newline (path : List String) (root : Members) (fuel : Nat) (cs : List Char) :
    readLines path root fuel ('\n' :: cs) = readLines path root fuel cs := by
  cases fuel with
  | zero => simp only [readLines]
  | succ fuel => simp only [readLines, List.length_cons, skipSpace_newline]

theorem readLines_header (h : Bare name) (path : List String) (root : Members) (fuel : Nat)
    (cs : List Char) : readLines path root (fuel + 1) (header name ++ cs) =
      (openTable [name] root).bind fun root => readLines [name] root fuel cs := by
  obtain ⟨c, rest, hname, hc⟩ := h.exists_cons
  have hkey : scanKey maxDepth (name.toList ++ ']' :: '\n' :: cs) =
      some ([name], ']' :: '\n' :: cs) := scanKey_bare h rfl rfl (by decide) (maxDepth - 1)
  have hskip (k : Nat) (cs : List Char) : skipSpace k ('[' :: cs) = some ('[' :: cs) :=
    skipSpace_self rfl (by decide) rfl k cs
  have hend : endLine ('\n' :: cs) = some cs := rfl
  have hheader : header name ++ cs = '[' :: (name.toList ++ ']' :: '\n' :: cs) := by simp [header]
  rw [hheader, readLines, hskip]
  rw [hname, List.cons_append] at hkey ⊢
  simp [hkey, hend, ne_of_isBare hc (d := '[') rfl]

theorem readLines_line (h : Bare name) (hv : Written v t) (path : List String) (root : Members)
    (fuel : Nat) (cs : List Char) : readLines path root (fuel + 1) (line name v ++ cs) =
      (within (assign t [name]) path root).bind fun root => readLines path root fuel cs := by
  obtain ⟨c, rest, hname, hc⟩ := h.exists_cons
  have hkey : scanKey maxDepth (name.toList ++ ' ' :: '=' :: ' ' :: (v ++ '\n' :: cs)) =
      some ([name], '=' :: ' ' :: (v ++ '\n' :: cs)) := scanKey_bare h rfl rfl (by decide) (maxDepth - 1)
  have hskip (k : Nat) (cs : List Char) : skipSpace k (c :: cs) = some (c :: cs) :=
    skipSpace_self (isBlank_of_isBare hc) (ne_of_isBare hc rfl) (isControl_of_isBare hc) k cs
  have hblank : skipBlanks (' ' :: (v ++ '\n' :: cs)) = v ++ '\n' :: cs := by
    obtain ⟨d, hd, hblank⟩ := hv.head
    obtain ⟨v, rfl⟩ := List.head?_eq_some_iff.mp hd
    exact skipBlanks_cons hblank _
  have hvalue : scanValue (2 * (' ' :: (v ++ '\n' :: cs)).length + 2) maxDepth
      (v ++ '\n' :: cs) = some (t, '\n' :: cs) :=
    hv.scan _ _ (by simp; omega) (by rintro _ ⟨⟩; exact .inr rfl)
  have hend : endLine ('\n' :: cs) = some cs := rfl
  have hline : line name v ++ cs = name.toList ++ ' ' :: '=' :: ' ' :: (v ++ '\n' :: cs) := by
    simp [line]
  rw [hline, readLines]
  rw [hname, List.cons_append] at hkey ⊢
  rw [hskip]
  simp only [Option.bind_eq_bind, Option.bind_some]
  split
  case h_1 heq => cases heq
  case h_2 heq | h_3 heq => exact absurd (List.cons.inj heq).1 (ne_of_isBare hc rfl)
  case h_4 => simp only [hkey, hblank, hvalue, hend, Option.bind_some]

/-! ## Members -/

theorem update_append {ms : Members} (h : name ∉ ms.map Prod.fst) (f : Option Toml → Option Toml)
    (ms' : Members) : update name f (ms ++ ms') = (update name f ms').map (ms ++ ·) := by
  induction ms with
  | nil => simp
  | cons m ms ih =>
    obtain ⟨hm, hms⟩ := not_or.mp (mt List.mem_cons.mpr h)
    rw [List.cons_append, update, if_neg (Ne.symm hm), ih hms, Option.map_map]
    rfl

/-- A setting: its name, the characters of its value, and its value. -/
structure Setting where
  name : String
  chars : List Char
  value : Toml

namespace Setting

def line (s : Setting) : List Char := Toml.line s.name s.chars

def member (s : Setting) : String × Toml := (s.name, s.value)

end Setting

variable {settings : List Setting} {root : Members}

/-- A new name goes to the end. -/
theorem update_new {ms : Members} {f : Option Toml → Option Toml} (h : name ∉ ms.map Prod.fst)
    (hf : f none = some t) : update name f ms = some (ms ++ [(name, t)]) := by
  have hupdate := update_append h f []
  rw [List.append_nil, update, hf] at hupdate
  exact hupdate

theorem openTable_new (h : name ∉ root.map Prod.fst) :
    openTable [name] root = some (root ++ [(name, .table .header [])]) :=
  update_new h rfl

theorem within_assign_new (hname : name ∉ root.map Prod.fst) {ms : Members}
    (hkey : key ∉ ms.map Prod.fst) (t : Toml) :
    within (assign t [key]) [name] (root ++ [(name, .table .header ms)]) =
      some (root ++ [(name, .table .header (ms ++ [(key, t)]))]) := by
  have hassign : assign t [key] ms = some (ms ++ [(key, t)]) := update_new hkey rfl
  rw [within, update_append hname, update, if_pos rfl]
  simp [within, hassign]

/-- Settings below the header of a table are read into it. -/
theorem readLines_settings (hname : name ∉ root.map Prod.fst) {ms : Members}
    (hsettings : ∀ s ∈ settings, Bare s.name ∧ Written s.chars s.value)
    (hnodup : ((ms ++ settings.map Setting.member).map Prod.fst).Nodup) (fuel : Nat)
    (cs : List Char) :
    readLines [name] (root ++ [(name, .table .header ms)]) (fuel + settings.length)
        (settings.flatMap Setting.line ++ cs) =
      readLines [name] (root ++ [(name, .table .header (ms ++ settings.map Setting.member))]) fuel
        cs := by
  induction settings generalizing ms with
  | nil => simp
  | cons s settings ih =>
    obtain ⟨⟨hbare, hwritten⟩, hsettings⟩ := List.forall_mem_cons.mp hsettings
    have hkey : s.name ∉ ms.map Prod.fst := by
      rw [List.map_append, List.nodup_append] at hnodup
      exact fun h => hnodup.2.2 _ h _ List.mem_cons_self rfl
    rw [List.flatMap_cons, List.append_assoc, List.length_cons, ← Nat.add_assoc, Setting.line,
      readLines_line hbare hwritten, within_assign_new hname hkey, Option.bind_some,
      ih hsettings (by simpa [Setting.member] using hnodup), List.append_assoc]
    rfl

/-- A table with a new name is read from its header and its settings. -/
theorem readLines_table (h : Bare name) (hname : name ∉ root.map Prod.fst)
    (hsettings : ∀ s ∈ settings, Bare s.name ∧ Written s.chars s.value)
    (hnodup : ((settings.map Setting.member).map Prod.fst).Nodup) (path : List String) (fuel : Nat)
    (cs : List Char) :
    readLines path root (fuel + settings.length + 1)
        (header name ++ (settings.flatMap Setting.line ++ cs)) =
      readLines [name] (root ++ [(name, .table .header (settings.map Setting.member))]) fuel cs := by
  rw [readLines_header h, openTable_new hname, Option.bind_some,
    readLines_settings hname hsettings hnodup, List.nil_append]

end Toml
end RelPlan
