import RelPlan.Proofs.Program.Memo

/-! # Rows that are read by need

The columns of a row may wait until somebody reads them (`Expr.delay`). Reading through delayed
columns is evaluating the expression in which the columns stand for the fields
(`Expr.evalM_delay`). -/

namespace RelPlan

/-- The references to all fields, in order. -/
def RowType.refs (rt : RowType) : List Expr := rt.zipIdx.map fun fi => .input fi.2

theorem RowType.length_refs (rt : RowType) : rt.refs.length = rt.length := by simp [refs]

theorem RowType.getElem?_refs {rt : RowType} (h : i < rt.length) :
    rt.refs[i]? = some (.input i) := by
  simp [refs, List.getElem?_eq_getElem h]

theorem RowType.refs_congr {rt rt' : RowType} (h : rt.types = rt'.types) : rt.refs = rt'.refs := by
  have hlen : rt.length = rt'.length := by
    rw [← RowType.length_types, h, RowType.length_types]
  apply List.ext_getElem (by simp [refs, hlen])
  intro i hi hi'
  simp [refs]

theorem RowType.refs_typed (rt : RowType) :
    Program.ColumnsTyped rt rt.refs rt.types := by
  refine List.forall₂_iff_get.mpr ⟨by simp [refs], ?_⟩
  intro i hi hi'
  simp only [refs, List.get_eq_getElem, List.getElem_map, List.getElem_zipIdx, Nat.zero_add]
  rw [Expr.type_input_eq_ok_iff, ← RowType.getElem?_types]
  exact List.getElem?_eq_getElem _

/-- A row of values that nobody has read yet; reading one of them may fail. -/
abbrev LazyRow := List (Except ProgramError Value)

namespace LazyRow

def field (row : LazyRow) (i : Nat) : Except ProgramError Value :=
  match row[i]? with
  | some v => v
  | none => .error (.evaluation (.fieldRange i row.length))

/-- A row all of whose values are there. -/
def ofRow (row : Row) : LazyRow := row.map .ok

/-- Reads all values, from left to right. -/
def force (row : LazyRow) : Except ProgramError Row := row.mapM id

/-- Values conform to types, and reading fails in no other way than arithmetic does. -/
def Conforms (row : LazyRow) (ts : List ScalarType) : Prop :=
  List.Forall₂ (fun v t => Yields t v) row ts

theorem field_ofRow (row : Row) : (ofRow row).field = row.field := by
  funext i
  simp only [field, ofRow, Row.field, List.getElem?_map, List.length_map]
  cases row[i]? <;> rfl

theorem force_eq_ok_iff {row : LazyRow} : row.force = .ok r ↔ row = ofRow r := by
  rw [force, List.mapM_eq_ok_iff, ofRow]
  constructor
  · intro h
    induction h with
    | nil => rfl
    | cons hv _ ih => rw [List.map_cons, ← ih]; exact congrArg (· :: _) hv
  · rintro rfl
    rw [List.forall₂_map_left_iff]
    exact List.forall₂_same.mpr fun _ _ => rfl

theorem ofRow_injective : Function.Injective ofRow :=
  List.map_injective_iff.mpr fun _ _ => Except.ok.inj

theorem conforms_ofRow {row : Row} : (ofRow row).Conforms ts ↔ row.conforms ts := by
  rw [Row.conforms_iff, Conforms, ofRow, List.forall₂_map_left_iff]
  exact Iff.rfl

theorem Conforms.field_yields {row : LazyRow} {rt : RowType} (h : row.Conforms rt.types)
    (hi : rt.type? i = some t) : Yields t (row.field i) := by
  rw [← RowType.getElem?_types] at hi
  obtain ⟨hlt, rfl⟩ := List.getElem?_eq_some_iff.mp hi
  have hlt' : i < row.length := by rw [h.length_eq]; exact hlt
  simpa [field, List.getElem?_eq_getElem hlt'] using h.get hlt' hlt

end LazyRow

/-- The expression that stands for a field of the rows that the columns make. -/
def columnTree (columns : List Expr) (i : Nat) : Expr := columns[i]?.getD (.input i)

namespace Expr

/-- The values of expressions on a row, which wait until they are read. -/
def delay (es : List Expr) (row : LazyRow) : LazyRow :=
  es.map fun e => e.evalM row.field (Row.temp [])

theorem force_delay_ofRow (es : List Expr) (row : Row) :
    (delay es (.ofRow row)).force = evalAll row es := by
  rw [delay, LazyRow.force, List.mapM_map, LazyRow.field_ofRow]
  rfl

theorem delay_refs {rt : RowType} {row : LazyRow} (h : row.length = rt.length) :
    delay rt.refs row = row := by
  apply List.ext_getElem (by simp [delay, RowType.refs, h])
  intro i hi hi'
  simp [delay, RowType.refs, evalM, LazyRow.field, List.getElem?_eq_getElem hi']

theorem delay_conforms {es : List Expr} {rt : RowType} {row : LazyRow}
    (h : Program.ColumnsTyped rt es ts)
    (hrow : row.Conforms rt.types) : (delay es row).Conforms ts := by
  rw [LazyRow.Conforms, delay, List.forall₂_map_left_iff]
  exact h.imp fun e t he =>
    evalM_yields he (fun _ _ hi => hrow.field_yields hi) fun _ _ hi => by simp at hi

theorem delay_ofRow {es : List Expr} {row : Row} (h : evalAll row es = .ok vs) :
    delay es (.ofRow row) = .ofRow vs := by
  rw [← LazyRow.force_eq_ok_iff, force_delay_ofRow, h]

/-- An expression over delayed columns is the expression with the columns in place of fields. -/
theorem evalM_delay {u : Expr} {ls : List Expr} {row : LazyRow}
    (h : ∀ i ∈ u.inputs, i < ls.length) :
    u.evalM (delay ls row).field (Row.temp []) =
      (u.subst (columnTree ls) .temp).evalM row.field (Row.temp []) := by
  symm
  refine evalM_subst_eq (fun i hi => ?_) fun _ _ => rfl
  simp [delay, LazyRow.field, columnTree, List.getElem?_eq_getElem (h i hi)]

theorem delay_delay {us ls : List Expr} {row : LazyRow}
    (h : ∀ u ∈ us, ∀ i ∈ u.inputs, i < ls.length) :
    delay us (delay ls row) = delay (us.map (·.subst (columnTree ls) .temp)) row := by
  show _ = (us.map _).map _
  rw [List.map_map]
  exact List.map_congr_left fun u hu => evalM_delay (h u hu)

theorem passes_delay {uc : Option Expr} {ls : List Expr} {row : LazyRow}
    (h : ∀ u ∈ uc, ∀ i ∈ u.inputs, i < ls.length) :
    passes (delay ls row).field uc =
      passes row.field (uc.map (·.subst (columnTree ls) .temp)) := by
  cases uc with
  | none => rfl
  | some u => rw [Option.map_some, passes, passes, evalM_delay (h u rfl)]

end Expr

end RelPlan
