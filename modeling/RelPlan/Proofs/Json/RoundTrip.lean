import RelPlan.Json.Reader
import RelPlan.Json.Printer
import RelPlan.Proofs.Number.Numerals

/-! # Written JSON is read back

Every value whose numbers are written and whose strings have values is read back from its text
(`Json.Printable.read?_pretty`). -/

namespace RelPlan
namespace Json

/-! ## Strings -/

/-- Inside a string the characters `cs` are read as the one character `c`. -/
def Spells (cs : List Char) (c : Char) : Prop :=
  ∃ p,
    (∀ rest, scanPieces (cs ++ rest) =
      (scanPieces rest).map fun (ps, rest) => (p :: ps, rest)) ∧
    ∀ ps, joinPieces (p :: ps) = (joinPieces ps).map (c :: ·)

theorem joinPieces_unit (h : n < 0xD800) (ps : List Piece) :
    joinPieces (.unit n :: ps) = (joinPieces ps).map (Char.ofNat n :: ·) := by
  have hhigh : isHighSurrogate n = false := by simp [isHighSurrogate]; omega
  have hlow : isLowSurrogate n = false := by simp [isLowSurrogate]; omega
  rcases ps with _ | ⟨_ | _, ps⟩ <;> simp [joinPieces, hhigh, hlow]

theorem hexValue?_hexDigit :
    ∀ n < 32, hexValue? ['0', '0', hexDigit (n / 16), hexDigit (n % 16)] = some n := by
  decide

theorem spells_unit (h : c < ' ') :
    Spells ['\\', 'u', '0', '0', hexDigit (c.toNat / 16), hexDigit (c.toNat % 16)] c := by
  have hc : c.toNat < 32 := h
  refine ⟨.unit c.toNat, fun rest => ?_, fun ps => ?_⟩
  · simp only [List.cons_append, List.nil_append, scanPieces, hexValue?_hexDigit _ hc]
    cases scanPieces rest <;> rfl
  · rw [joinPieces_unit (by omega), Char.ofNat_toNat]

theorem spells_escaped (h : escaped? a = some c) (ha : a ≠ 'u') : Spells ['\\', a] c := by
  refine ⟨.char c, fun rest => ?_, fun ps => rfl⟩
  rw [List.cons_append, List.cons_append, List.nil_append, scanPieces]
  · rw [h]
    cases scanPieces rest <;> rfl
  · simp [ha]

theorem spells_self (hquote : c ≠ '"') (hslash : c ≠ '\\') (h : ¬ c < ' ') : Spells [c] c := by
  refine ⟨.char c, fun rest => ?_, fun ps => rfl⟩
  rw [List.cons_append, List.nil_append, scanPieces]
  · rw [if_neg h]
    cases scanPieces rest <;> rfl
  · simp [hquote]
  · simp [hslash]
  · simp [hslash]

theorem escape_spells (c : Char) : Spells (escape c) c := by
  unfold escape
  split
  case h_8 hquote hslash _ _ _ _ _ =>
    split
    case isTrue h => exact spells_unit h
    case isFalse h => exact spells_self hquote hslash h
  all_goals exact spells_escaped rfl (by decide)

theorem scanString_escape (cs rest : List Char) :
    scanString (cs.flatMap escape ++ '"' :: rest) = some (some (.ofList cs), rest) := by
  have hscan : ∃ ps, scanPieces (cs.flatMap escape ++ '"' :: rest) = some (ps, rest) ∧
      joinPieces ps = some cs := by
    induction cs with
    | nil => exact ⟨[], by simp [scanPieces], rfl⟩
    | cons c cs ih =>
      obtain ⟨ps, hps, hjoin⟩ := ih
      obtain ⟨p, hp, hc⟩ := escape_spells c
      refine ⟨p :: ps, ?_, by rw [hc, hjoin]; rfl⟩
      rw [List.flatMap_cons, List.append_assoc, hp, hps]
      rfl
  obtain ⟨ps, hps, hjoin⟩ := hscan
  simp only [scanString, hps, Option.map_some, hjoin]

/-- A string between quotes is read as itself. -/
theorem scanString_quoted (s : String) (rest : List Char) :
    ∃ cs, quoted s ++ rest = '"' :: cs ∧ scanString cs = some (some s, rest) := by
  refine ⟨s.toList.flatMap escape ++ '"' :: rest, by simp [quoted], ?_⟩
  rw [scanString_escape, String.ofList_toList]

/-! ## Blanks -/

theorem skipBlanks_cons (h : isBlank c = false) (cs : List Char) :
    skipBlanks (c :: cs) = c :: cs :=
  List.dropWhile_cons_of_neg (by simp [h])

@[simp] theorem skipBlanks_newline (level : Nat) (cs : List Char) :
    skipBlanks (newline level ++ cs) = skipBlanks cs := by
  refine List.dropWhile_append_of_pos fun b hb => ?_
  simp only [newline, List.mem_cons, List.mem_replicate] at hb
  obtain rfl | ⟨-, rfl⟩ := hb <;> rfl

theorem scanValue_congr (h : skipBlanks cs = skipBlanks cs') (fuel : Nat) :
    scanValue fuel cs = scanValue fuel cs' := by
  cases fuel with
  | zero => simp only [scanValue]
  | succ fuel => simp only [scanValue, h]

@[simp] theorem scanValue_space (fuel : Nat) (cs : List Char) :
    scanValue fuel (' ' :: cs) = scanValue fuel cs :=
  scanValue_congr (show skipBlanks (' ' :: cs) = skipBlanks cs from rfl) fuel

@[simp] theorem scanItems_newline (level fuel : Nat) (cs : List Char) :
    scanItems fuel (newline level ++ cs) = scanItems fuel cs := by
  cases fuel with
  | zero => simp only [scanItems]
  | succ fuel => simp only [scanItems, scanValue_congr (skipBlanks_newline level cs)]

@[simp] theorem scanMembers_newline (level fuel : Nat) (cs : List Char) :
    scanMembers fuel (newline level ++ cs) = scanMembers fuel cs := by
  cases fuel with
  | zero => simp only [scanMembers]
  | succ fuel => simp only [scanMembers, scanName, skipBlanks_newline]

/-! ## Numbers -/

theorem scanNumber_chars {n : Numeral} (h : n.Written) (plus : Bool) {rest : List Char}
    (hrest : Numeral.Ends rest) : scanNumber (n.chars plus ++ rest) = some (n, rest) := by
  have hleading : ¬ (n.whole.head? = some '0' ∧ 1 < n.whole.length) := by
    rintro ⟨hzero, hlong⟩
    simp [h.leading hzero] at hlong
  simp only [scanNumber, Numeral.scan_chars h plus hrest, if_neg hleading]

/-- A value that starts like a number is one. -/
theorem scanValue_number (h : Numeral.Starts c) (fuel : Nat) (cs : List Char) :
    scanValue (fuel + 1) (c :: cs) = (scanNumber (c :: cs)).map fun (n, cs) => (.number n, cs) := by
  rw [scanValue, skipBlanks_cons]
  · split
    case h_7 => rfl
    all_goals
      rename_i heq
      exact absurd (List.cons.inj heq).1 (h.ne (by decide))
  · simp [isBlank, h.ne]

/-! ## Values -/

/-- The value has a text: its numbers are written, and its strings and names have values. -/
inductive Printable : Json → Prop where
  | null : Printable .null
  | bool : Printable (.bool b)
  | number : n.Written → Printable (.number n)
  | string : Printable (.string (some s))
  | array : (∀ item ∈ items, Printable item) → Printable (.array items)
  | object : (∀ m ∈ members, m.1.isSome) → (∀ m ∈ members, Printable m.2) →
      Printable (.object members)

/-- The first character of a value is no blank and no closing bracket. -/
theorem Printable.head_chars (h : Printable j) (level : Nat) :
    ∃ c ∈ (j.chars level).head?, isBlank c = false ∧ c ≠ ']' := by
  cases h with
  | null => exact ⟨_, rfl, rfl, by decide⟩
  | @bool b => cases b <;> exact ⟨_, rfl, rfl, by decide⟩
  | @number n hn =>
    obtain ⟨c, hc, hstart⟩ := hn.starts true
    exact ⟨c, hc, by simp [isBlank, hstart.ne], hstart.ne (by decide)⟩
  | string => exact ⟨_, rfl, rfl, by decide⟩
  | @array items => cases items <;> exact ⟨_, by rw [chars]; rfl, rfl, by decide⟩
  | @object members =>
    rcases members with _ | ⟨⟨_, _⟩, _⟩ <;>
      exact ⟨_, by rw [chars]; rfl, rfl, by decide⟩

/-- The value is read from its characters, whatever follows that does not go on with a number. -/
def Scans (j : Json) : Prop :=
  ∀ level fuel rest, (j.chars level).length < fuel → Numeral.Ends rest →
    scanValue fuel (j.chars level ++ rest) = some (j, rest)

theorem Scans.of_succ
    (h : ∀ level fuel rest, (j.chars level).length < fuel + 1 → Numeral.Ends rest →
      scanValue (fuel + 1) (j.chars level ++ rest) = some (j, rest)) : j.Scans
  | _, 0, _ => by omega
  | level, fuel + 1, rest => h level fuel rest

theorem ends_newline (level : Nat) (rest : List Char) : Numeral.Ends (newline level ++ rest) := by
  rintro _ ⟨⟩
  decide

theorem ends_itemChars (level outer : Nat) (items : List Json) (rest : List Char) :
    Numeral.Ends (itemChars level items ++ (newline outer ++ rest)) := by
  cases items with
  | nil => exact ends_newline outer rest
  | cons item items => rintro _ ⟨⟩; decide

theorem ends_memberChars (level outer : Nat) (members : List (Option String × Json))
    (rest : List Char) : Numeral.Ends (memberChars level members ++ (newline outer ++ rest)) := by
  cases members with
  | nil => exact ends_newline outer rest
  | cons member members => rintro _ ⟨⟩; decide

/-- The items are read from their characters up to the closing bracket. -/
theorem scanItems_itemChars (hitem : item.Scans) (hitems : ∀ j ∈ items, j.Scans)
    (level outer : Nat) (rest : List Char)
    (hfuel : (item.chars level).length + (itemChars level items).length + 1 < fuel) :
    scanItems fuel (item.chars level ++ (itemChars level items ++ (newline outer ++ ']' :: rest))) =
      some (item :: items, rest) := by
  induction items generalizing item fuel with
  | nil =>
    obtain _ | fuel := fuel
    · omega
    rw [scanItems, hitem level fuel _ (by omega) (ends_itemChars _ _ _ _)]
    simp [itemChars, skipBlanks_cons, isBlank]
  | cons item' items ih =>
    obtain _ | fuel := fuel
    · omega
    obtain ⟨hitem', hitems⟩ := List.forall_mem_cons.mp hitems
    simp only [itemChars, List.length_cons, List.length_append] at hfuel
    have hnext : scanItems fuel _ = some (item' :: items, rest) := ih hitem' hitems (by omega)
    rw [scanItems, hitem level fuel _ (by omega) (ends_itemChars _ _ _ _)]
    simp [itemChars, skipBlanks_cons, isBlank, hnext]

theorem scanName_quoted (name : String) (rest : List Char) :
    scanName (quoted name ++ ':' :: rest) = some (some name, rest) := by
  obtain ⟨cs, hcs, hscan⟩ := scanString_quoted name (':' :: rest)
  simp [scanName, hcs, skipBlanks_cons, isBlank, hscan]

/-- The members are read from their characters up to the closing brace. -/
theorem scanMembers_memberChars (hvalue : value.Scans) (hnames : ∀ m ∈ members, m.1.isSome)
    (hmembers : ∀ m ∈ members, m.2.Scans) (level outer : Nat) (name : String) (rest : List Char)
    (hfuel : (value.chars level).length + (memberChars level members).length + 1 < fuel) :
    scanMembers fuel (quoted name ++ ':' :: ' ' :: (value.chars level ++
      (memberChars level members ++ (newline outer ++ '\x7d' :: rest)))) =
        some ((some name, value) :: members, rest) := by
  induction members generalizing name value fuel with
  | nil =>
    obtain _ | fuel := fuel
    · omega
    rw [scanMembers, scanName_quoted]
    simp only [Option.bind_eq_bind, Option.bind_some, scanValue_space]
    rw [hvalue level fuel _ (by omega) (ends_memberChars _ _ _ _)]
    simp [memberChars, skipBlanks_cons, isBlank]
  | cons member members ih =>
    obtain _ | fuel := fuel
    · omega
    obtain ⟨_ | name', value'⟩ := member
    · simp at hnames
    obtain ⟨-, hnames⟩ := List.forall_mem_cons.mp hnames
    obtain ⟨hvalue', hmembers⟩ := List.forall_mem_cons.mp hmembers
    dsimp only at hvalue'
    simp only [memberChars, List.length_cons, List.length_append] at hfuel
    have hnext : scanMembers fuel _ = some ((some name', value') :: members, rest) :=
      ih hvalue' hnames hmembers name' (by omega)
    rw [scanMembers, scanName_quoted]
    simp only [Option.bind_eq_bind, Option.bind_some, scanValue_space]
    rw [hvalue level fuel _ (by omega) (ends_memberChars _ _ _ _)]
    simp [memberChars, skipBlanks_cons, isBlank, hnext]

theorem Printable.scans (h : Printable j) : j.Scans := by
  rintro level (_ | fuel) rest hfuel hrest
  · omega
  induction h generalizing level fuel rest with
  | null => rfl
  | @bool b => cases b <;> rfl
  | @number n hn =>
    obtain ⟨c, hc, hstart⟩ := hn.starts true
    obtain ⟨cs, hcs⟩ := List.head?_eq_some_iff.mp hc
    have hscan := scanNumber_chars hn true hrest
    rw [chars]
    rw [hcs, List.cons_append] at hscan ⊢
    rw [scanValue_number hstart, hscan]
    rfl
  | @string s =>
    obtain ⟨cs, hcs, hscan⟩ := scanString_quoted s rest
    simp [chars, scanValue, hcs, skipBlanks_cons, isBlank, hscan]
  | @array items hitems ih =>
    cases items with
    | nil => simp [chars, scanValue, skipBlanks_cons, isBlank]
    | cons item items =>
      obtain ⟨hitem, hitems'⟩ := List.forall_mem_cons.mp fun j hj => Scans.of_succ (ih j hj)
      simp only [chars, List.length_cons, List.length_append] at hfuel
      have hscan := scanItems_itemChars hitem hitems' (level + 1) level rest
        (show _ < fuel by omega)
      obtain ⟨c, hc, hblank, hne⟩ := (hitems item List.mem_cons_self).head_chars (level + 1)
      obtain ⟨cs, hcs⟩ := List.head?_eq_some_iff.mp hc
      rw [hcs] at hscan
      simp only [chars, hcs, List.cons_append, List.append_assoc, List.nil_append] at hscan ⊢
      rw [scanValue, skipBlanks_cons rfl]
      simp only [skipBlanks_newline, skipBlanks_cons hblank]
      split
      · simp_all
      · rw [hscan]; rfl
  | @object members hnames hvalues ih =>
    rcases members with _ | ⟨⟨_ | name, value⟩, members⟩
    · simp [chars, scanValue, skipBlanks_cons, isBlank]
    · simp at hnames
    obtain ⟨-, hnames⟩ := List.forall_mem_cons.mp hnames
    obtain ⟨hvalue, hmembers⟩ := List.forall_mem_cons.mp fun m hm => Scans.of_succ (ih m hm)
    dsimp only at hvalue
    simp only [chars, List.length_cons, List.length_append] at hfuel
    have hscan := scanMembers_memberChars hvalue hnames hmembers (level + 1) level name rest
      (show _ < fuel by omega)
    simp only [quoted, List.cons_append, List.append_assoc, List.nil_append] at hscan
    simp [chars, quoted, scanValue, skipBlanks_cons, isBlank, hscan]

/-- A value that has a text is read back from it. -/
theorem Printable.read?_pretty (h : Printable j) : read? j.pretty = some j := by
  have hscan := h.scans 0 (2 * (j.chars 0).length + 2) [] (by omega) (by simp [Numeral.Ends])
  rw [List.append_nil] at hscan
  simp [read?, pretty, hscan, skipBlanks]

end Json
end RelPlan
