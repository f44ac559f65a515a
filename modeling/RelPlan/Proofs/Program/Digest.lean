import RelPlan.Program.Builder
import RelPlan.Proofs.Program.Validity
import RelPlan.Proofs.Value.Text

/-! # Texts of entries

Builders tell entries apart by their texts. Expressions in general have texts in common, since a
string stands between quotes as it is, but flat entries of one text are one entry
(`Expr.Flat.text_inj`): the text tells the form of an entry (`Expr.Flat.form_of_text`), a string is
a whole entry, and the first bracket follows the operator. So a table of texts that is kept in step
with flat entries indexes the entries themselves (`Digests.Indexes`), while a table of any entries
lists their texts (`Digests.Lists`). -/

namespace RelPlan

theorem BinaryOp.find?_name (op : BinaryOp) : all.find? (·.name = op.name) = some op := by
  cases op <;> rfl

theorem UnaryOp.find?_name (op : UnaryOp) : all.find? (·.name = op.name) = some op := by
  cases op <;> rfl

theorem BinaryOp.name_inj {op op' : BinaryOp} (h : op.name = op'.name) : op = op' := by
  rw [← Option.some_inj, ← op.find?_name, h, op'.find?_name]

theorem UnaryOp.name_inj {op op' : UnaryOp} (h : op.name = op'.name) : op = op' := by
  rw [← Option.some_inj, ← op.find?_name, h, op'.find?_name]

/-- The name of an operator has no bracket, and is not mistaken for a string. -/
def IsOperatorName (name : String) : Prop :=
  '(' ∉ name.toList ∧ ∃ c ∈ name.toList.head?, c ≠ '\''

theorem BinaryOp.isOperatorName (op : BinaryOp) : IsOperatorName op.name := by
  cases op <;> exact ⟨by decide, _, rfl, by decide⟩

theorem UnaryOp.isOperatorName (op : UnaryOp) : IsOperatorName op.name := by
  cases op <;> exact ⟨by decide, _, rfl, by decide⟩

namespace Expr

/-! ## Characters -/

theorem text_input (i : Nat) : (input i).text = "$" ++ i.repr := rfl

theorem text_temp (i : Nat) : (temp i).text = "$t" ++ i.repr := rfl

/-- A reference to an entry, and what follows it. -/
def operandChars (i : Nat) (rest : List Char) : List Char :=
  '$' :: 't' :: (Nat.toDigits 10 i ++ rest)

theorem toList_text_binary (i j : Nat) (op : BinaryOp) :
    (binary (temp i) op (temp j)).text.toList =
      op.name.toList ++ '(' :: operandChars i (',' :: ' ' :: operandChars j [')']) := by
  rw [text]
  simp [text_temp, operandChars]

theorem toList_text_unary (i : Nat) (op : UnaryOp) :
    (unary op (temp i)).text.toList = op.name.toList ++ '(' :: operandChars i [')'] := by
  rw [text]
  simp [text_temp, operandChars]

/-- A reference ends where the next character is no digit. -/
theorem operandChars_inj {c d : Char} {cs ds : List Char} (hc : c.isDigit = false)
    (hd : d.isDigit = false) (h : operandChars i (c :: cs) = operandChars j (d :: ds)) :
    i = j ∧ c = d ∧ cs = ds := by
  simp only [operandChars, List.cons.injEq, true_and] at h
  have hrest : Numeral.AfterDigits (c :: cs) := by rintro _ ⟨⟩; exact hc
  have hrest' : Numeral.AfterDigits (d :: ds) := by rintro _ ⟨⟩; exact hd
  exact ((Numeral.toDigits_append_inj hrest hrest').mp h).imp id List.cons.inj

theorem bracket_notMem_digits (i : Nat) : '(' ∉ Nat.toDigits 10 i := fun h =>
  absurd (Numeral.isDigit_of_mem_toDigits h) (by decide)

/-- The name of an operator ends at the only bracket that opens, its first operand thereafter. -/
theorem operation_inj {name name' : String} {c d : Char} {cs ds : List Char}
    (hname : IsOperatorName name) (hcs : '(' ∉ c :: cs) (hc : c.isDigit = false)
    (hd : d.isDigit = false)
    (h : name.toList ++ '(' :: operandChars i (c :: cs) =
      name'.toList ++ '(' :: operandChars j (d :: ds)) :
    name = name' ∧ i = j ∧ c = d ∧ cs = ds := by
  have htail : '(' ∉ operandChars i (c :: cs) := by
    simp only [operandChars, List.mem_cons, List.mem_append, not_or] at hcs ⊢
    exact ⟨by decide, by decide, bracket_notMem_digits i, hcs⟩
  obtain ⟨hname, -, h⟩ := (List.append_cons_inj_of_notMem hname.1 htail).mp h
  exact ⟨String.toList_inj.mp hname, operandChars_inj hc hd h⟩

/-! ## Forms -/

inductive Form where
  | reference
  | literal
  | operation

def form : Expr → Form
  | input _ | temp _ => .reference
  | literal _ => .literal
  | binary .. | unary .. => .operation

/-- The form of the entry that has these characters as its text. -/
def formOfChars (cs : List Char) : Form :=
  if cs.head? = some '\'' then .literal
  else if '(' ∈ cs then .operation
  else if '$' ∈ cs then .reference
  else .literal

theorem formOfChars_operation {name : String} {rest : List Char} (h : IsOperatorName name) :
    formOfChars (name.toList ++ '(' :: rest) = .operation := by
  obtain ⟨-, c, hc, hquote⟩ := h
  obtain ⟨cs, hcs⟩ := List.head?_eq_some_iff.mp hc
  simp [formOfChars, hcs, hquote]

/-- The text of a flat entry tells its form. -/
theorem Flat.form_of_text {e : Expr} (h : e.Flat position) :
    formOfChars e.text.toList = e.form := by
  cases h with
  | @input i =>
    simp [formOfChars, text_input, form, bracket_notMem_digits]
  | @literal v =>
    by_cases hv : v.type = .string
    · cases v <;> cases hv
      simp [formOfChars, text, Value.text, form]
    · have hplain := Value.text_plain hv
      have hbracket : '(' ∉ v.text.toList := hplain _ (by simp [Value.separators])
      have hdollar : '$' ∉ v.text.toList := hplain _ (by simp [Value.separators])
      simp [formOfChars, text, form, hbracket, hdollar]
  | binary => rw [toList_text_binary, formOfChars_operation (BinaryOp.isOperatorName _), form]
  | unary => rw [toList_text_unary, formOfChars_operation (UnaryOp.isOperatorName _), form]

/-! ## Entries -/

/-- Flat entries of one text are one entry. -/
theorem Flat.text_inj {e e' : Expr} (h : e.Flat position) (h' : e'.Flat position')
    (htext : e.text = e'.text) : e = e' := by
  have hform : e.form = e'.form := by rw [← h.form_of_text, ← h'.form_of_text, htext]
  have hchars := congrArg String.toList htext
  cases h <;> cases h' <;> try cases hform
  case input.input i j =>
    rw [text_input, text_input, String.append_right_inj, ← String.toList_inj, Nat.toList_repr,
      Nat.toList_repr] at htext
    rw [Numeral.toDigits_inj htext]
  case literal.literal => rw [Value.text_inj htext]
  case binary.binary i j op hi hj i' j' op' hi' hj' =>
    rw [toList_text_binary, toList_text_binary] at hchars
    obtain ⟨hop, rfl, -, hrest⟩ :=
      operation_inj op.isOperatorName (by simp [operandChars, bracket_notMem_digits]) rfl rfl hchars
    obtain ⟨rfl, -⟩ := operandChars_inj rfl rfl (List.cons.inj hrest).2
    rw [BinaryOp.name_inj hop]
  case unary.unary i op hi i' op' hi' =>
    rw [toList_text_unary, toList_text_unary] at hchars
    obtain ⟨hop, rfl, -⟩ := operation_inj op.isOperatorName (by decide) rfl rfl hchars
    rw [UnaryOp.name_inj hop]
  -- A comma follows the first of two operands and a bracket the only one.
  case binary.unary i j op hi hj i' op' hi' =>
    rw [toList_text_binary, toList_text_unary] at hchars
    obtain ⟨-, -, hcomma, -⟩ :=
      operation_inj op.isOperatorName (by simp [operandChars, bracket_notMem_digits]) rfl rfl hchars
    contradiction
  case unary.binary i op hi i' j' op' hi' hj' =>
    rw [toList_text_unary, toList_text_binary] at hchars
    obtain ⟨-, -, hcomma, -⟩ := operation_inj op.isOperatorName (by decide) rfl rfl hchars
    contradiction

/-- Other expressions of one text may differ. -/
example : (binary (literal (.string "a', 'b")) .concat (literal (.string "c"))).text =
    (binary (literal (.string "a")) .concat (literal (.string "b', 'c"))).text := by
  rfl

end Expr

/-! ## Tables -/

namespace Digests

variable {ds : Digests} {es : List Expr} {e : Expr} {text : String}

theorem idxOf?_snoc (l : List String) (a b : String) :
    (l ++ [a]).idxOf? b = (l.idxOf? b).or (if a = b then some l.length else none) := by
  simp only [List.idxOf?, List.findIdx?_append]
  by_cases h : a = b <;> simp [h]

/-- The table leads from each text to the first entry that has it, whatever the entries are. -/
abbrev Lists (ds : Digests) (es : List Expr) : Prop :=
  ∀ text, ds.lookup text = (es.map Expr.text).idxOf? text

/-- An entry with a new text is entered. -/
theorem Lists.snoc (h : ds.Lists es) (hnew : ds.lookup e.text = none) :
    Lists ((e.text, es.length) :: ds) (es ++ [e]) := by
  intro text
  rw [List.lookup_cons, List.map_append, List.map_singleton, idxOf?_snoc, List.length_map, ← h]
  by_cases heq : text = e.text
  · subst heq
    simp [hnew]
  · simp [beq_false_of_ne heq, Ne.symm heq]

/-- An entry with a text that another one has is not. -/
theorem Lists.snoc_of_lookup (h : ds.Lists es) (hold : ds.lookup e.text = some i) :
    ds.Lists (es ++ [e]) := by
  intro text
  rw [List.map_append, List.map_singleton, idxOf?_snoc, ← h]
  by_cases heq : e.text = text
  · subst heq
    simp [hold]
  · simp [heq]

/-- The table that is made of entries. -/
theorem lists_of (es : List Expr) : (Digests.of es).Lists es := by
  induction es using List.reverseRecOn with
  | nil => exact fun _ => rfl
  | append_singleton es e ih =>
    have hof : Digests.of (es ++ [e]) = (Digests.of es).enter e.text es.length := by
      simp [Digests.of, List.zipIdx_append]
    rw [hof, enter]
    split
    case h_1 hold => exact ih.snoc_of_lookup hold
    case h_2 hnew => exact ih.snoc hnew

/-- The entries are flat, and the table leads from each text to the first entry that has it. -/
structure Indexes (ds : Digests) (es : List Expr) : Prop where
  flat : Program.FlatEntries es
  lookup (text : String) : ds.lookup text = (es.map Expr.text).idxOf? text

theorem Indexes.nil : Indexes [] [] := ⟨.nil, fun _ => rfl⟩

theorem Indexes.snoc (h : ds.Indexes es) (hf : e.Flat es.length) (hnew : ds.lookup e.text = none) :
    Indexes ((e.text, es.length) :: ds) (es ++ [e]) :=
  ⟨h.flat.snoc hf, Lists.snoc h.lookup hnew⟩

theorem indexes_of (h : Program.FlatEntries es) : (Digests.of es).Indexes es := ⟨h, lists_of es⟩

/-- An entry that is found by its text is the entry itself. -/
theorem Indexes.getElem?_of_lookup (h : ds.Indexes es) (hf : e.Flat position)
    (hi : ds.lookup e.text = some i) : es[i]? = some e := by
  rw [h.lookup, List.idxOf?_eq_some_iff] at hi
  obtain ⟨hlt, htext, -⟩ := hi
  rw [List.length_map] at hlt
  rw [List.getElem_map] at htext
  have he := List.getElem?_eq_getElem hlt
  rw [he, (h.flat i _ he).text_inj hf htext]

end Digests
end RelPlan
