import RelPlan.Plan.Eval
import RelPlan.Proofs.Program.Composition

/-! # Stages by need

A condition and columns take rows to rows. `Kept` says what they give when nothing but the condition
is evaluated and columns wait until somebody reads them; filters, projections and programs give the
same rows when all their columns have values (`runRows_eq_ok_iff`). In this reading one stage on top
of another is the composed stage (`Kept.merge_iff`), whatever fails in columns that nobody reads. -/

namespace RelPlan

/-! ## Stages -/

/-- The rows that are left of the given ones: those on which the condition is true, with these
columns. -/
inductive Kept (c : Option Expr) (es : List Expr) : List LazyRow → List LazyRow → Prop where
  | nil : Kept c es [] []
  | keep : Expr.passes row.field c = .ok true → Kept c es rows out →
      Kept c es (row :: rows) (Expr.delay es row :: out)
  | drop : Expr.passes row.field c = .ok false → Kept c es rows out → Kept c es (row :: rows) out

namespace Kept

variable {c uc lc : Option Expr} {es us ls : List Expr} {rows out out' : List LazyRow}
  {rt rt' : RowType} {ts : List ScalarType}

theorem unique (h : Kept c es rows out) (h' : Kept c es rows out') : out = out' := by
  induction h generalizing out' with
  | nil => cases h'; rfl
  | keep hc _ ih =>
    cases h' with
    | keep _ h' => rw [ih h']
    | drop hc' _ => cases hc.symm.trans hc'
  | drop hc _ ih =>
    cases h' with
    | keep hc' _ => cases hc.symm.trans hc'
    | drop _ h' => exact ih h'

theorem conforms (h : Kept c es rows out)
    (hes : Program.ColumnsTyped rt es ts)
    (hrows : ∀ row ∈ rows, LazyRow.Conforms row rt.types) :
    ∀ row ∈ out, LazyRow.Conforms row ts := by
  induction h with
  | nil => simp
  | keep _ _ ih =>
    obtain ⟨hrow, hrows⟩ := List.forall_mem_cons.mp hrows
    exact List.forall_mem_cons.mpr ⟨Expr.delay_conforms hes hrow, ih hrows⟩
  | drop _ _ ih => exact ih (List.forall_mem_cons.mp hrows).2

/-- All rows pass where there is no condition. -/
theorem none_iff : Kept none es rows out ↔ out = rows.map (Expr.delay es) := by
  constructor
  · intro h
    induction h with
    | nil => rfl
    | keep _ _ ih => rw [ih, List.map_cons]
    | drop hf _ _ => cases hf
  · rintro rfl
    induction rows with
    | nil => exact .nil
    | cons row rows ih => exact .keep rfl ih

/-- A stage that changes nothing. -/
theorem refs_iff (hrows : ∀ row ∈ rows, LazyRow.Conforms row rt.types) :
    Kept none rt.refs rows out ↔ out = rows := by
  rw [none_iff, List.map_congr_left (g := id) fun row hrow => ?_, List.map_id]
  apply Expr.delay_refs
  rw [(hrows row hrow).length_eq, RowType.length_types]

/-- One stage on top of another is the composed stage. -/
theorem merge_iff (hc : Program.Guarded lc (uc.map (·.subst (columnTree ls) .temp)) c)
    (hlc : Program.ConditionTyped rt lc)
    (huc : Program.ConditionTyped rt (uc.map (·.subst (columnTree ls) .temp)))
    (hui : ∀ u ∈ uc, ∀ i ∈ u.inputs, i < ls.length) (hus : ∀ u ∈ us, ∀ i ∈ u.inputs, i < ls.length)
    (hrows : ∀ row ∈ rows, LazyRow.Conforms row rt.types) :
    Kept c (us.map (·.subst (columnTree ls) .temp)) rows out ↔
      ∃ mid, Kept lc ls rows mid ∧ Kept uc us mid out := by
  have hpass {row : LazyRow} (hrow : row.Conforms rt.types) :
      Expr.passes row.field c = do
        if ← Expr.passes row.field lc then Expr.passes (Expr.delay ls row).field uc
        else return false := by
    rw [Expr.passes_delay hui]
    exact hc.passes_eq hlc huc fun i t hi => hrow.field_yields hi
  constructor
  · intro h
    induction h with
    | nil => exact ⟨[], .nil, .nil⟩
    | @keep row rows out hrow _ ih =>
      obtain ⟨hconf, hrows⟩ := List.forall_mem_cons.mp hrows
      obtain ⟨mid, hl, hu⟩ := ih hrows
      rw [hpass hconf] at hrow
      obtain ⟨b, hb, hrow⟩ := Except.bind_eq_ok_iff.mp hrow
      cases b with
      | false => cases hrow
      | true =>
        rw [← Expr.delay_delay hus]
        exact ⟨_, .keep hb hl, .keep hrow hu⟩
    | @drop row rows out hrow _ ih =>
      obtain ⟨hconf, hrows⟩ := List.forall_mem_cons.mp hrows
      obtain ⟨mid, hl, hu⟩ := ih hrows
      rw [hpass hconf] at hrow
      obtain ⟨b, hb, hrow⟩ := Except.bind_eq_ok_iff.mp hrow
      cases b with
      | false => exact ⟨mid, .drop hb hl, hu⟩
      | true => exact ⟨_, .keep hb hl, .drop hrow hu⟩
  · rintro ⟨mid, hl, hu⟩
    induction hl generalizing out with
    | nil => cases hu; exact .nil
    | @keep row rows mid hl _ ih =>
      obtain ⟨hconf, hrows⟩ := List.forall_mem_cons.mp hrows
      cases hu with
      | keep hu hrest =>
        rw [Expr.delay_delay hus]
        exact .keep (by rw [hpass hconf, hl]; exact hu) (ih hrows hrest)
      | drop hu hrest => exact .drop (by rw [hpass hconf, hl]; exact hu) (ih hrows hrest)
    | @drop row rows mid hl _ ih =>
      obtain ⟨hconf, hrows⟩ := List.forall_mem_cons.mp hrows
      exact .drop (by rw [hpass hconf, hl]; rfl) (ih hrows hu)

end Kept

/-! ## Strict stages -/

/-- What a condition and columns give on rows when every column is evaluated. -/
def runRows (c : Option Expr) (es : List Expr) : List Row → Except ProgramError (List Row)
  | [] => .ok []
  | row :: rows => do
    let output ← Expr.runAll row c es
    let rest ← runRows c es rows
    return output.toList ++ rest

variable {c : Option Expr} {es : List Expr} {rows out : List Row} {rt : RowType}

/-- The rows that are there are those that are left by need, all of whose columns have values. -/
theorem runRows_eq_ok_iff :
    runRows c es rows = .ok out ↔ Kept c es (rows.map .ofRow) (out.map .ofRow) := by
  induction rows generalizing out with
  | nil =>
    constructor
    · rintro ⟨⟩
      exact .nil
    · intro h
      generalize hm : out.map LazyRow.ofRow = m at h
      cases h
      rw [List.map_eq_nil_iff.mp hm]
      rfl
  | cons row rows ih =>
    have hpass : Expr.passes (LazyRow.ofRow row).field c = Expr.passes row.field c := by
      rw [LazyRow.field_ofRow]
    constructor
    · intro h
      obtain ⟨output, houtput, h⟩ := Except.bind_eq_ok_iff.mp h
      obtain ⟨rest, hrest, h⟩ := Except.bind_eq_ok_iff.mp h
      obtain rfl := Except.ok.inj h
      cases output with
      | none => exact .drop (hpass.trans (Expr.runAll_eq_none_iff.mp houtput)) (ih.mp hrest)
      | some vs =>
        obtain ⟨hc, hvs⟩ := Expr.runAll_eq_some_iff.mp houtput
        rw [← Expr.force_delay_ofRow, LazyRow.force_eq_ok_iff] at hvs
        rw [Option.toList_some, List.singleton_append, List.map_cons, List.map_cons, ← hvs]
        exact .keep (hpass.trans hc) (ih.mp hrest)
    · intro h
      rw [List.map_cons] at h
      generalize hm : out.map LazyRow.ofRow = m at h
      cases h with
      | keep hc hrest =>
        obtain ⟨vs, rest, rfl, hvs, rfl⟩ := List.map_eq_cons_iff.mp hm
        have hrun : Expr.runAll row c es = .ok (some vs) := by
          rw [Expr.runAll_eq_some_iff, ← Expr.force_delay_ofRow, LazyRow.force_eq_ok_iff]
          exact ⟨hpass.symm.trans hc, hvs.symm⟩
        rw [runRows, hrun, Except.ok_bind, ih.mpr hrest]
        rfl
      | drop hc hrest =>
        subst hm
        rw [runRows, Expr.runAll_eq_none_iff.mpr (hpass.symm.trans hc), Except.ok_bind,
          ih.mpr hrest]
        rfl

theorem computeRows_eq {p : Program} (hp : p.Valid) (h : p.Means c es)
    (hrows : ∀ row ∈ rows, row.length = p.inputType.length) :
    computeRows p rows = runRows c es rows := by
  induction rows with
  | nil => rfl
  | cons row rows ih =>
    obtain ⟨hrow, hrows⟩ := List.forall_mem_cons.mp hrows
    rw [computeRows, runRows, h.run_eq hp hrow, ih hrows]

theorem filterRows_eq {c : Expr} (hrows : ∀ row ∈ rows, row.length = rt.length) :
    filterRows c rows = runRows (some c) rt.refs rows := by
  induction rows with
  | nil => rfl
  | cons row rows ih =>
    obtain ⟨hrow, hrows⟩ := List.forall_mem_cons.mp hrows
    have hrefs : Expr.evalAll row rt.refs = .ok row := by
      rw [← Expr.force_delay_ofRow, LazyRow.force_eq_ok_iff, Expr.delay_refs]
      rw [LazyRow.ofRow, List.length_map, hrow]
    have hholds : c.holds row = Expr.passes row.field (some c) := rfl
    rw [filterRows, runRows, ih hrows, hholds, Expr.runAll]
    cases Expr.passes row.field (some c) with
    | error => rfl
    | ok b =>
      cases b with
      | false => cases runRows (some c) rt.refs rows <;> rfl
      | true =>
        simp only [Except.ok_bind, if_true, hrefs]
        rfl

theorem mapM_evalAll_eq : rows.mapM (Expr.evalAll · es) = runRows none es rows := by
  induction rows with
  | nil => rfl
  | cons row rows ih =>
    rw [List.mapM_cons_except, ih, runRows, Expr.runAll]
    cases Expr.evalAll row es <;> rfl

end RelPlan
