import RelPlan.Program.Builder
import RelPlan.Program.Json
import RelPlan.Proofs.Json.RoundTrip
import RelPlan.Proofs.Number.Scaling
import RelPlan.Proofs.Program.Validity

/-! # Saved programs

What a valid program is saved as is read back part by part, each float as its text is read
(`Program.load_save`). So the program comes back as it was when all its floats do
(`Program.load_save_self`). What is saved for a float that is not finite is no float, so programs
with such a float do not come back (`Program.load_save_ok_iff`). -/

namespace RelPlan
namespace Json

/-! ## Records -/

theorem filter_name {members : List (String × Json)} (h : (members.map Prod.fst).Nodup)
    (hm : m ∈ members) : members.filter (·.1 = m.1) = [m] := by
  induction members with
  | nil => cases hm
  | cons m' members ih =>
    obtain ⟨hnot, h⟩ := List.nodup_cons.mp h
    rcases List.mem_cons.mp hm with rfl | hm
    · rw [List.filter_cons_of_pos (by simp), List.filter_eq_nil_iff.mpr]
      intro m' hm' heq
      exact hnot (List.mem_map.mpr ⟨m', hm', by simpa using heq⟩)
    · rw [List.filter_cons_of_neg, ih h hm]
      intro heq
      exact hnot (List.mem_map.mpr ⟨m, hm, by simpa [eq_comm] using heq⟩)

/-- The fields of a record are found by their names. -/
theorem fields?_record {members : List (String × Json)} (h : (members.map Prod.fst).Nodup) :
    fields? (members.map Prod.fst) (record members) = some (members.map fun m => some m.2) := by
  refine Option.bind_eq_some_iff.mpr ⟨members, ?_, ?_⟩
  · rw [List.mapM_map]
    exact (List.mapM_eq_some_map fun _ _ => rfl).trans (by rw [List.map_id'])
  · rw [List.mapM_map]
    refine List.mapM_eq_some_map fun m hm => ?_
    rw [Function.comp_apply, filter_name h hm]

theorem Printable.record {members : List (String × Json)} (h : ∀ m ∈ members, Printable m.2) :
    Printable (Json.record members) := by
  refine .object ?_ ?_
  all_goals
    intro m hm
    obtain ⟨m', hm', rfl⟩ := List.mem_map.mp hm
  · rfl
  · exact h m' hm'

theorem printable_ofNat (n : Nat) : Printable (ofNat n) := .number (Numeral.written_ofInt n)

theorem printable_ofString (s : String) : Printable (ofString s) := .string

/-! ## Numbers and texts -/

theorem index?_ofNat (h : i < UInt64.size) : index? (ofNat i) = some i := by
  have hsign : (Numeral.ofInt i).negative = false := by simp [Numeral.ofInt]
  have hwhole : (Numeral.ofInt i).isWhole := rfl
  simp only [index?, ofNat, Numeral.value_whole_ofInt, Int.natAbs_natCast]
  rw [if_pos ⟨hwhole, hsign, h⟩]

theorem int64?_ofInt (i : Int64) : int64? (.number (.ofInt i.toInt)) = some i := by
  have hsign : i.toInt = 0 → (Numeral.ofInt i.toInt).negative = false := by
    intro h
    simp [h, Numeral.ofInt]
  have hwhole : (Numeral.ofInt i.toInt).isWhole := rfl
  simp only [int64?, Numeral.wholeValue_ofInt]
  rw [if_pos ⟨hwhole, hsign, i.minValue_le_toInt, i.toInt_le⟩, Int64.ofInt_toInt]

theorem string?_ofString (s : String) : string? (ofString s) = some s := rfl

theorem items?_map (item : Nat → Json → Option β) (g : α → Json) (as : List α) (nesting : Nat) :
    items? item (nesting + 1) (.array (as.map g)) = as.mapM fun a => item nesting (g a) := by
  rw [items?, List.mapM_map]
  rfl

end Json

open Json

theorem ScalarType.ofJson?_tag (t : ScalarType) (nesting : Nat) :
    ofJson? nesting (.ofString t.tag) = some t := by
  cases t <;> rfl

theorem BinaryOp.ofJson?_tag (op : BinaryOp) (nesting : Nat) :
    ofJson? nesting (.ofString op.tag) = some op := by
  cases op <;> rfl

theorem UnaryOp.ofJson?_tag (op : UnaryOp) (nesting : Nat) :
    ofJson? nesting (.ofString op.tag) = some op := by
  cases op <;> rfl

/-! ## Values and expressions -/

/-- The float that is read back from a saved float, if there is one. -/
def readBack? (x : Float) : Option Float := (Numeral.ofFloat? savedFloats x).bind Numeral.scaled?

theorem readBack?_isSome_iff (x : Float) : (readBack? x).isSome ↔ x.isFinite := by
  rw [← Numeral.ofFloat?_isSome_iff savedFloats, readBack?]
  cases h : Numeral.ofFloat? savedFloats x with
  | none => simp
  | some n => simpa using Numeral.scaled?_ofFloat? h

/-- What is written for the float, if it is finite, is read back as the float itself. -/
def ReadsBack (x : Float) : Prop := x.isFinite → readBack? x = some x

/-- The value that is read back from a saved value. -/
def Value.readBack? : Value → Option Value
  | float x => (RelPlan.readBack? x).map .float
  | v => some v

theorem Value.printable_toJson (v : Value) : Printable v.toJson := by
  cases v with
  | null => exact printable_ofString _
  | bool b => exact .record (by simpa using .bool)
  | int i => exact .record (by simpa using .number (Numeral.written_ofInt _))
  | string s => exact .record (by simpa using printable_ofString s)
  | float x =>
    refine .record (List.forall_mem_singleton.mpr ?_)
    cases h : Numeral.ofFloat? savedFloats x with
    | none => exact .null
    | some n => exact .number (Numeral.written_ofFloat? _ x h)

theorem Value.ofJson?_toJson (v : Value) (nesting : Nat) :
    ofJson? (nesting + 1) v.toJson = v.readBack? := by
  cases v with
  | null | bool | string => rfl
  | int i =>
    calc ofJson? (nesting + 1) (toJson (int i))
        = (int64? (.number (.ofInt i.toInt))).map int := rfl
      _ = some (int i) := by rw [int64?_ofInt]; rfl
  | float x =>
    rw [toJson, readBack?, RelPlan.readBack?]
    cases Numeral.ofFloat? savedFloats x <;> rfl

theorem Value.readBack?_isSome_iff (v : Value) :
    v.readBack?.isSome ↔ ∀ x, v = float x → x.isFinite := by
  cases v <;> simp [readBack?, RelPlan.readBack?_isSome_iff]

theorem Value.readBack_type {v w : Value} (h : v.readBack? = some w) : w.type = v.type := by
  cases v with
  | float x =>
    obtain ⟨y, -, rfl⟩ := Option.map_eq_some_iff.mp h
    rfl
  | _ =>
    obtain rfl := Option.some.inj h
    rfl

namespace Expr

/-- The entry that is read back from a saved entry. -/
def readBack? : Expr → Option Expr
  | literal v => v.readBack?.map .literal
  | e => some e

theorem readBack?_isSome_iff (e : Expr) :
    e.readBack?.isSome ↔ ∀ x, e = literal (.float x) → x.isFinite := by
  cases e <;> simp [readBack?, Value.readBack?_isSome_iff]

theorem readBack_checkEntry {e e' : Expr} (h : e.readBack? = some e') (position : Nat) :
    e'.checkEntry position = e.checkEntry position := by
  cases e with
  | literal v =>
    obtain ⟨w, -, rfl⟩ := Option.map_eq_some_iff.mp h
    rfl
  | _ =>
    obtain rfl := Option.some.inj h
    rfl

theorem readBack_type {e e' : Expr} (h : e.readBack? = some e') (rt : RowType)
    (ts : List ScalarType) : e'.type rt ts = e.type rt ts := by
  cases e with
  | literal v =>
    obtain ⟨w, hw, rfl⟩ := Option.map_eq_some_iff.mp h
    exact congrArg Except.ok (Value.readBack_type hw)
  | _ =>
    obtain rfl := Option.some.inj h
    rfl

theorem printable_toJson (e : Expr) : Printable e.toJson := by
  induction e with
  | input i => exact .record (by simpa using printable_ofNat i)
  | temp i => exact .record (by simpa using printable_ofNat i)
  | literal v => exact .record (by simpa using v.printable_toJson)
  | binary l op r hl hr =>
    exact .record (by simpa using .record (by simp [hl, hr, printable_ofString]))
  | unary op x hx => exact .record (by simpa using .record (by simp [hx, printable_ofString]))

theorem ofJson?_input (i nesting : Nat) :
    ofJson? (nesting + 1) (input i).toJson = (index? (ofNat i)).map input := by
  simp [ofJson?, toJson, record, variant?]

theorem ofJson?_temp (i nesting : Nat) :
    ofJson? (nesting + 1) (temp i).toJson = (index? (ofNat i)).map temp := by
  simp [ofJson?, toJson, record, variant?]

theorem ofJson?_literal (v : Value) (nesting : Nat) :
    ofJson? (nesting + 1) (literal v).toJson = (Value.ofJson? nesting v.toJson).map literal := by
  simp [ofJson?, toJson, record, variant?]

theorem ofJson?_binary (l : Expr) (op : BinaryOp) (r : Expr) (nesting : Nat) :
    ofJson? (nesting + 2) (binary l op r).toJson = do
      return binary (← ofJson? nesting l.toJson) op (← ofJson? nesting r.toJson) := by
  have hfields : fields? ["left", "op", "right"]
      (.record [("left", l.toJson), ("op", .ofString op.tag), ("right", r.toJson)]) =
        some [some l.toJson, some (.ofString op.tag), some r.toJson] :=
    fields?_record (by simp)
  rw [ofJson?, toJson, record]
  simp [variant?, hfields, BinaryOp.ofJson?_tag]

theorem ofJson?_unary (op : UnaryOp) (x : Expr) (nesting : Nat) :
    ofJson? (nesting + 2) (unary op x).toJson = do
      return unary op (← ofJson? nesting x.toJson) := by
  have hfields : fields? ["op", "operand"]
      (.record [("op", .ofString op.tag), ("operand", x.toJson)]) =
        some [some (.ofString op.tag), some x.toJson] :=
    fields?_record (by simp)
  rw [ofJson?, toJson, record]
  simp [variant?, hfields, UnaryOp.ofJson?_tag]

/-- A flat entry is read back at any nesting that leaves two levels for its operands. -/
theorem ofJson?_toJson {e : Expr} (h : e.Flat position) (hposition : position ≤ UInt64.size)
    (hinputs : ∀ i ∈ e.inputs, i < UInt64.size) (nesting : Nat) :
    ofJson? (nesting + 3) e.toJson = e.readBack? := by
  have htemps (i : Nat) (hi : i < position) : index? (ofNat i) = some i :=
    index?_ofNat (Nat.lt_of_lt_of_le hi hposition)
  cases h with
  | @input i =>
    rw [ofJson?_input, index?_ofNat (hinputs i List.mem_cons_self)]
    rfl
  | @literal v =>
    rw [ofJson?_literal, Value.ofJson?_toJson]
    rfl
  | @binary i j op hi hj =>
    rw [ofJson?_binary, ofJson?_temp, ofJson?_temp, htemps i hi, htemps j hj]
    rfl
  | @unary i op hi =>
    rw [ofJson?_unary, ofJson?_temp, htemps i hi]
    rfl

end Expr

/-! ## Row types -/

theorem Field.printable_toJson (f : Field) : Printable f.toJson :=
  .record (by simp [printable_ofString])

theorem Field.ofJson?_toJson (f : Field) (nesting : Nat) :
    ofJson? (nesting + 1) f.toJson = some f := by
  have hfields : fields? ["name", "data_type"] f.toJson =
      some [some (.ofString f.name), some (.ofString f.type.tag)] :=
    fields?_record (by simp)
  simp [ofJson?, structure?, hfields, ScalarType.ofJson?_tag, string?_ofString]

theorem RowType.ofJson?_toJson (rt : RowType) (nesting : Nat) :
    ofJson? (nesting + 3) (.record [("fields", .array (rt.map Field.toJson))]) = some rt := by
  have hfields : fields? ["fields"] (.record [("fields", .array (rt.map Field.toJson))]) =
      some [some (.array (rt.map Field.toJson))] :=
    fields?_record (by simp)
  simp only [ofJson?, structure?, hfields, Option.map_some, Option.bind_eq_bind, Option.bind_some,
    items?_map, Field.ofJson?_toJson]
  exact (List.mapM_eq_some_map fun _ _ => rfl).trans (by rw [List.map_id'])

/-! ## Programs -/

theorem printable_conditionToJson (condition : Option Nat) :
    Printable (conditionToJson condition) := by
  cases condition with
  | none => exact .null
  | some i => exact printable_ofNat i

theorem conditionOfJson?_toJson {condition : Option Nat} (h : ∀ i ∈ condition, i < UInt64.size) :
    conditionOfJson? (some (conditionToJson condition)) = some condition := by
  cases condition with
  | none => rfl
  | some i => exact congrArg (Option.map some) (index?_ofNat (h i rfl))

namespace Program

variable {p : Program} {rt : RowType} {es : List Expr}

/-- The fields and entries can be counted in 64 bits. -/
structure Countable (p : Program) : Prop where
  inputType : p.inputType.length ≤ UInt64.size
  entries : p.entries.length ≤ UInt64.size

theorem printable_toJson (p : Program) : Printable p.toJson := by
  refine .record ?_
  simp only [List.forall_mem_cons, List.not_mem_nil, false_implies, implies_true, and_true]
  refine ⟨.record (List.forall_mem_singleton.mpr (.array ?_)), .array ?_, .array ?_, .array ?_,
    printable_conditionToJson _⟩
  · exact List.forall_mem_map.mpr fun f _ => f.printable_toJson
  · exact List.forall_mem_map.mpr fun e _ => e.printable_toJson
  · exact List.forall_mem_map.mpr fun c _ => printable_ofNat c.entry
  · exact List.forall_mem_map.mpr fun c _ => printable_ofString c.name

theorem checkLists_columns (columns : List Column) (condition : Option Nat) :
    checkLists rt es (columns.map Column.entry) (columns.map Column.name) condition =
      check rt es columns condition := by
  have hzip : List.zipWith Column.mk (columns.map Column.entry) (columns.map Column.name) =
      columns := by
    simp [List.zipWith_map, List.zipWith_self]
  simp only [checkLists, hzip, List.length_map, ne_eq, not_true_eq_false, if_false, check]
  cases entryTypes rt es <;> rfl

theorem Typed.entries_readBack {ts : List ScalarType} (h : Typed rt es ts)
    (hrt : rt.length ≤ UInt64.size) (hes : es.length ≤ UInt64.size) (nesting : Nat) :
    es.mapM (fun e => Expr.ofJson? (nesting + 3) e.toJson) = es.mapM Expr.readBack? := by
  refine List.mapM_congr_mem fun e he => ?_
  obtain ⟨i, hi⟩ := List.getElem?_of_mem he
  obtain ⟨t, -, hflat, htype⟩ := h.entry hi
  have hlt := (List.getElem?_eq_some_iff.mp hi).1
  refine Expr.ofJson?_toJson hflat (by omega) (fun j hj => ?_) nesting
  exact Nat.lt_of_lt_of_le (Expr.lt_of_mem_inputs htype hj) hrt

theorem entryTypesFrom_readBack {es es' : List Expr} {known : List ScalarType}
    (h : List.Forall₂ (fun e e' => e.readBack? = some e') es es') :
    entryTypesFrom rt known es' = entryTypesFrom rt known es := by
  induction h generalizing known with
  | nil => rfl
  | cons he _ ih =>
    simp only [entryTypesFrom, Expr.readBack_checkEntry he, Expr.readBack_type he, ih]

/-- What is read back passes the checks as it did before. -/
theorem Valid.check_readBack (hp : p.Valid) (h : p.entries.mapM Expr.readBack? = some es) :
    check p.inputType es p.columns p.condition = .ok { p with entries := es } := by
  obtain ⟨ts, htyped, hframed⟩ := valid_iff.mp hp
  have htyped' : Typed p.inputType es ts := by
    have hback := List.mapM_eq_some_iff.mp h
    rw [← entryTypes_eq_ok_iff, entryTypes, entryTypesFrom_readBack hback]
    exact entryTypes_eq_ok_iff.mpr htyped
  exact check_eq_ok_iff.mpr ⟨rfl, rfl, rfl, rfl, ts, htyped', hframed.columns, hframed.condition⟩

/-- The program that is read back from a saved program, if there is one. -/
def readBack? (p : Program) : Option Program :=
  (p.entries.mapM Expr.readBack?).map fun es => { p with entries := es }

theorem readBack?_isSome_iff (p : Program) :
    p.readBack?.isSome ↔ ∀ x, Expr.literal (.float x) ∈ p.entries → x.isFinite := by
  rw [readBack?, Option.isSome_map, List.mapM_isSome_iff]
  constructor
  · exact fun h x hx => (Expr.readBack?_isSome_iff _).mp (h _ hx) x rfl
  · exact fun h e he => (Expr.readBack?_isSome_iff e).mpr fun x hx => h x (hx ▸ he)

/-- A saved program is read back with each float as its text is read, or not at all if a float has
no text that can be read. -/
theorem load_save (hp : p.Valid) (hcount : p.Countable) :
    load p.save = (p.readBack?.map .ok).getD (.error (.invalid .unreadable)) := by
  obtain ⟨ts, htyped, hframed⟩ := valid_iff.mp hp
  have hlt {i : Nat} {t : ScalarType} (ht : ts[i]? = some t) : i < UInt64.size :=
    Nat.lt_of_lt_of_le (htyped.lt_of_type ht) hcount.entries
  have hread : read? p.save = some p.toJson := p.printable_toJson.read?_pretty
  have hfields : fields? ["input_row_type", "exprs", "projects", "project_names", "condition"]
      p.toJson = some [
        some (.record [("fields", .array (p.inputType.map Field.toJson))]),
        some (.array (p.entries.map Expr.toJson)),
        some (.array (p.columns.map fun c => .ofNat c.entry)),
        some (.array (p.columns.map fun c => .ofString c.name)),
        some (conditionToJson p.condition)] :=
    fields?_record (by simp)
  -- The program and the list of its entries take two of 127 levels.
  have hentries := htyped.entries_readBack hcount.inputType hcount.entries 122
  have hcolumns : p.columns.mapM (fun c => index? (ofNat c.entry)) =
      some (p.columns.map Column.entry) := by
    refine List.mapM_eq_some_map fun c hc => ?_
    obtain ⟨_, _, ht, -⟩ := hframed.columns.exists_of_mem_left hc
    exact index?_ofNat (hlt ht)
  have hnames : p.columns.mapM (fun c => string? (ofString c.name)) =
      some (p.columns.map Column.name) :=
    List.mapM_eq_some_map fun _ _ => rfl
  have hcondition : conditionOfJson? (some (conditionToJson p.condition)) = some p.condition := by
    refine conditionOfJson?_toJson fun i hi => ?_
    obtain ⟨t, ht, -⟩ := hframed.condition i hi
    exact hlt ht
  simp only [load, hread, structure?, maxNesting, hfields, Option.map_some, Option.bind_eq_bind,
    Option.bind_some, RowType.ofJson?_toJson, items?_map, hentries, hcolumns, hnames, hcondition,
    readBack?]
  cases hes : p.entries.mapM Expr.readBack? with
  | none => rfl
  | some es =>
    simp [checkLists_columns, hp.check_readBack hes]

/-- A saved program is read back as it was, whatever its names and texts are, if its floats are
finite and each of them is read back as itself. -/
theorem load_save_self (hp : p.Valid) (hcount : p.Countable)
    (hfinite : ∀ x, Expr.literal (.float x) ∈ p.entries → x.isFinite)
    (hfloats : ∀ x, Expr.literal (.float x) ∈ p.entries → ReadsBack x) :
    load p.save = .ok p := by
  have hentries : p.entries.mapM Expr.readBack? = some (p.entries.map id) := by
    refine List.mapM_eq_some_map fun e he => ?_
    match e with
    | .literal (.float x) =>
      simp only [Expr.readBack?, Value.readBack?, hfloats x he (hfinite x he), Option.map_some, id]
    | .literal .null | .literal (.bool _) | .literal (.int _) | .literal (.string _) => rfl
    | .input _ | .temp _ | .binary .. | .unary .. => rfl
  have hback : p.readBack? = some p := by rw [readBack?, hentries, List.map_id, Option.map_some]
  rw [load_save hp hcount, hback]
  rfl

/-- A program with names and texts that have to be escaped, and numbers at the ends of their
ranges. -/
def labels : Program where
  inputType := [⟨"\"列\" \\\n", .int⟩, ⟨"", .float⟩]
  entries := [
    .input 0, .literal (.int Int64.minValue), .binary (.temp 0) .gt (.temp 1),
    .input 1, .literal (.float 0.1), .binary (.temp 3) .mul (.temp 4),
    .literal (.float (-0.0)), .literal (.float 1.7976931348623157e308),
    .literal (.string "\x00\t\x1f/𝄞"), .literal .null, .unary .isNotNull (.temp 9)]
  columns := [⟨5, "列"⟩, ⟨6, "列"⟩, ⟨7, "\x7f"⟩, ⟨8, "text"⟩, ⟨10, "\\u0041"⟩]
  condition := some 2
  outputType := [⟨"列", .float⟩, ⟨"列", .float⟩, ⟨"\x7f", .float⟩, ⟨"text", .string⟩,
    ⟨"\\u0041", .bool⟩]

theorem labels_valid : labels.Valid := rfl

theorem labels_countable : labels.Countable := ⟨by decide, by decide⟩

theorem labels_floats {x : Float} (hx : Expr.literal (.float x) ∈ labels.entries) :
    x = 0.1 ∨ x = -0.0 ∨ x = 1.7976931348623157e308 := by
  simpa [labels] using hx

theorem labels_finite (x : Float) (hx : Expr.literal (.float x) ∈ labels.entries) :
    x.isFinite := by
  rcases labels_floats hx with rfl | rfl | rfl <;> decide +kernel

theorem load_save_self_labels : load labels.save = .ok labels := by
  refine load_save_self labels_valid labels_countable labels_finite fun x hx _ => ?_
  rcases labels_floats hx with rfl | rfl | rfl <;> decide +kernel

/-- A saved program can be read back if and only if its floats are finite. -/
theorem load_save_ok_iff (hp : p.Valid) (hcount : p.Countable) :
    (∃ q, load p.save = .ok q) ↔ ∀ x, Expr.literal (.float x) ∈ p.entries → x.isFinite := by
  rw [load_save hp hcount, ← readBack?_isSome_iff]
  cases p.readBack? <;> simp

/-- A program with one column that shows a float that is no number. -/
def notANumber : Program where
  inputType := []
  entries := [.literal (.float (0.0 / 0.0))]
  columns := [⟨0, "x"⟩]
  condition := none
  outputType := [⟨"x", .float⟩]

theorem notANumber_valid : notANumber.Valid := rfl

theorem notANumber_countable : notANumber.Countable := ⟨by decide, by decide⟩

theorem load_save_ok_iff_labels :
    (∃ q, load labels.save = .ok q) ∧ ¬ ∃ q, load notANumber.save = .ok q := by
  refine ⟨(load_save_ok_iff labels_valid labels_countable).mpr labels_finite, fun h => ?_⟩
  have hfinite := (load_save_ok_iff notANumber_valid notANumber_countable).mp h
  exact absurd (hfinite _ List.mem_cons_self) (by decide)

/-- A builder lets in a float that is no number, and what is saved then cannot be read back. -/
theorem load_save_notANumber :
    (({ inputType := [] } : Builder).addColumnExpr (.literal (.float (0.0 / 0.0))) "x").program =
        .ok notANumber ∧
      load notANumber.save = .error (.invalid .unreadable) := by
  refine ⟨rfl, ?_⟩
  have hnone : notANumber.readBack? = none := by decide
  rw [load_save notANumber_valid notANumber_countable, hnone]
  rfl

end Program
end RelPlan
