import RelPlan.Proofs.Program.LazyRow
import RelPlan.Proofs.Program.Placement

/-! # Normal forms and composition

`normalize` keeps the meaning of a program (`Program.exists_normalize`). `merge` composes meanings:
columns of the upper program read, in place of each input field, the lower program's column, and the
condition is the lower one followed by the upper one (`Program.exists_merge`,
`Program.Guarded.passes_eq`). It succeeds for all programs that fit (`Program.merge_ok_iff`). -/

namespace RelPlan
namespace Program

/-! ## Normal forms -/

theorem exists_normalize {p : Program} {c : Option Expr} {es : List Expr} (hp : p.Valid)
    (h : p.Means c es) :
    ∃ q, p.normalize = .ok q ∧ q.Valid ∧ q.inputType = p.inputType ∧
      q.outputType = p.outputType ∧ q.Means c es := by
  obtain ⟨ts, hts, hf⟩ := valid_iff.mp hp
  have ht := hp.means_typed h
  let roots := p.columns.map Column.entry ++ p.condition.toList
  have hroots := subset_needed hts roots
  obtain ⟨b, places, hkeep, hrt, hb, hlen, hpl⟩ := exists_keepFrom roots hts
  obtain ⟨columns, hcols, hnames, hexp⟩ := hpl.moveColumns hlen
    (fun c hc => hroots (List.mem_append_left _ (List.mem_map_of_mem hc))) h.columns
  obtain ⟨condition, hcond, hcexp⟩ := hpl.moveCondition hlen
    (fun i hi => hroots (List.mem_append_right _ (by simpa using hi))) h.condition
  simp only [Expr.subst_input_temp, List.map_id', Option.map_id'] at hexp hcexp
  obtain ⟨q, hq, hqv, hqi, hqo, hqm⟩ :=
    Builder.exists_program p.outputType (b := { b with columns, condition }) hb hcexp
      (by rw [hrt]; exact ht.condition) hexp (by rw [hrt]; exact ht.columns)
      (hnames.trans hf.names_eq)
  refine ⟨q, ?_, hqv, hqi.trans hrt, hqo, hqm⟩
  rw [normalize, hkeep, Except.ok_bind]
  simp only [hcols, hcond, Except.ok_bind]
  exact hq

/-! ## Conditions -/

/-- The condition for passing two conditions, one after the other. -/
inductive Guarded : Option Expr → Option Expr → Option Expr → Prop where
  | none : Guarded none none none
  | lower : Guarded (some l) none (some l)
  | upper : Guarded none (some u) (some u)
  | same : Guarded (some c) (some c) (some c)
  | both : Guarded (some l) (some u) (some (.binary (.unary .isTrue l) .and u))

theorem Guarded.typed {rt : RowType} (h : Guarded lc uc c) (hl : ConditionTyped rt lc)
    (hu : ConditionTyped rt uc) : ConditionTyped rt c := by
  cases h with
  | none | lower | same => exact hl
  | upper => exact hu
  | @both l u =>
    obtain ⟨tl, htl, hcl⟩ := hl l rfl
    obtain ⟨tu, htu, hcu⟩ := hu u rfl
    rintro e ⟨⟩
    refine ⟨.bool, ?_, rfl⟩
    simp only [Expr.type, htl, htu, Except.ok_bind, UnaryOp.resultType_isTrue hcl]
    exact BinaryOp.resultType_and rfl hcu

/-- The upper condition is looked at exactly where the lower one is true. -/
theorem Guarded.passes_eq {rt : RowType} {fields : Nat → Except ProgramError Value}
    (h : Guarded lc uc c) (hl : ConditionTyped rt lc) (hu : ConditionTyped rt uc)
    (hf : ∀ i t, rt.type? i = some t → Yields t (fields i)) :
    Expr.passes fields c = do
      if ← Expr.passes fields lc then Expr.passes fields uc else return false := by
  have hyield {e : Expr} {t} (he : e.type rt [] = .ok t) :
      Yields t (e.evalM fields (Row.temp [])) :=
    Expr.evalM_yields he hf fun i u hi => by simp at hi
  cases h with
  | none | upper => rfl
  | lower =>
    simp only [Expr.passes]
    rename_i l
    cases l.evalM fields (Row.temp []) with
    | error => rfl
    | ok v => cases hv : v.isTrue <;> simp [hv]
  | same =>
    simp only [Expr.passes]
    rename_i e
    cases e.evalM fields (Row.temp []) with
    | error => rfl
    | ok v => cases hv : v.isTrue <;> simp [hv]
  | @both l u =>
    obtain ⟨tl, htl, hcl⟩ := hl l rfl
    obtain ⟨tu, htu, hcu⟩ := hu u rfl
    simp only [Expr.passes, Expr.evalM, BinaryOp.absorbing?]
    cases hv : l.evalM fields (Row.temp []) with
    | error => rfl
    | ok v =>
      obtain ⟨_, _, ⟨rfl, _⟩ | ⟨b, rfl, _⟩⟩ :=
        Value.exists_truth_of_conforms ((hyield htl).elim hv) hcl
      · rfl
      · cases b with
        | false => rfl
        | true =>
          cases hw : u.evalM fields (Row.temp []) with
          | error => rfl
          | ok w =>
            obtain ⟨_, _, ⟨rfl, _⟩ | ⟨b, rfl, _⟩⟩ :=
              Value.exists_truth_of_conforms ((hyield htu).elim hw) hcu
            · rfl
            · cases b <;> rfl

private theorem guarded_spec {b : Builder} {l u : Option Nat} (hb : b.WellTyped)
    (hl : Option.Rel (Expands b.entries) l lc) (hu : Option.Rel (Expands b.entries) u uc)
    (hlt : ConditionTyped b.inputType lc) (hut : ConditionTyped b.inputType uc) :
    b.Grows (guarded b l u).2 ∧ (guarded b l u).2.WellTyped ∧
      ∃ c, Guarded lc uc c ∧ Option.Rel (Expands (guarded b l u).2.entries) (guarded b l u).1 c := by
  cases hl with
  | none =>
    cases hu with
    | none => exact ⟨.refl b, hb, _, .none, .none⟩
    | some hu => exact ⟨.refl b, hb, _, .upper, .some hu⟩
  | @some i l hi =>
    cases hu with
    | none => exact ⟨.refl b, hb, _, .lower, .some hi⟩
    | @some j u hj =>
      by_cases hij : i = j
      · subst hij
        obtain rfl := hi.unique hj
        simp only [guarded, if_true]
        exact ⟨.refl b, hb, _, .same, .some hi⟩
      · simp only [guarded, if_neg hij]
        obtain ⟨hbi, ts, hts⟩ := hb
        obtain ⟨tl, htl, hcl⟩ := hlt l rfl
        obtain ⟨tu, htu, hcu⟩ := hut u rfl
        obtain ⟨tl', hil, htl'⟩ := hts.type_of_expands hi
        obtain rfl := Except.ok.inj (htl.symm.trans htl')
        obtain ⟨tu', hju, htu'⟩ := hts.type_of_expands hj
        obtain rfl := Except.ok.inj (htu.symm.trans htu')
        have hf₁ : (Expr.unary .isTrue (.temp i)).Flat b.entries.length :=
          .unary (hts.lt_of_type hil)
        obtain ⟨ts₁, h₁, hp₁, hk₁⟩ := Builder.register_typed (t := .bool) hbi hts hf₁ (by
            simp only [Expr.type, hil, Except.ok_bind, UnaryOp.resultType_isTrue hcl])
        have hb₁ := Builder.register_indexed hbi hf₁
        have hju := List.getElem?_of_initial hp₁ hju
        have hf₂ : (Expr.binary (.temp _) .and (.temp _)).Flat _ :=
          .binary (h₁.lt_of_type hk₁) (h₁.lt_of_type hju)
        obtain ⟨ts₂, h₂, hp₂, hk₂⟩ := Builder.register_typed (t := .bool) hb₁ h₁ hf₂ (by
            simp only [Expr.type, hk₁, hju, Except.ok_bind]
            exact BinaryOp.resultType_and rfl hcu)
        have hg₁ := b.register_grows (.unary .isTrue (.temp i))
        have hg₂ := Builder.register_grows (b.register (.unary .isTrue (.temp i))).2
          (.binary (.temp (b.register (.unary .isTrue (.temp i))).1) .and (.temp j))
        refine ⟨hg₁.trans hg₂, ⟨Builder.register_indexed hb₁ hf₂, ts₂, h₂⟩, _, .both, .some ?_⟩
        refine .binary (Builder.register_getElem? hb₁ hf₂) ?_ ((hg₁.trans hg₂).expands hj)
        exact hg₂.expands (.unary (Builder.register_getElem? hbi hf₁) (hg₁.expands hi))

/-! ## Composition -/

/-- Columns have the types of the fields that they stand for. -/
theorem columnTree_fits {rt rt' : RowType} {es : List Expr} (h : ColumnsTyped rt' es rt.types) :
    Expr.Fits rt rt' (columnTree es) := by
  intro k u hk
  rw [← RowType.getElem?_types] at hk
  obtain ⟨hlt, rfl⟩ := List.getElem?_eq_some_iff.mp hk
  have hlt' : k < es.length := by rw [h.length_eq]; exact hlt
  simpa [columnTree, List.getElem?_eq_getElem hlt'] using h.get hlt' hlt

theorem exists_merge {upper lower : Program} {uc lc : Option Expr} {us ls : List Expr}
    (hu : upper.Valid) (hl : lower.Valid)
    (hfit : upper.inputType.sameShape lower.outputType) (mu : upper.Means uc us)
    (ml : lower.Means lc ls) :
    ∃ m c, merge upper lower = .ok m ∧ m.Valid ∧ m.inputType = lower.inputType ∧
      m.outputType = upper.outputType ∧
      Guarded lc (uc.map (·.subst (columnTree ls) .temp)) c ∧
      m.Means c (us.map (·.subst (columnTree ls) .temp)) := by
  obtain ⟨tsu, htu, hfu⟩ := valid_iff.mp hu
  obtain ⟨tsl, htl, hfl⟩ := valid_iff.mp hl
  have tu := hu.means_typed mu
  have tl := hl.means_typed ml
  have hshape : upper.inputType.types = lower.outputType.types := of_decide_eq_true hfit
  -- The lower entries keep their expansions.
  obtain ⟨b₁, lowerPlaces, hcopy₁, hg₁, hb₁, hlen₁, hpl₁⟩ :=
    exists_copyFrom (fun _ => none) (σ := .input) (b := { inputType := lower.inputType })
      htl (Builder.wellTyped_new _) (fun k u hk => Expr.type_input_eq_ok_iff.mpr hk) (by simp)
      (fun _ _ _ _ => rfl)
  obtain ⟨fields, hfields, _, hfexp⟩ := hpl₁.moveColumns hlen₁ (fun _ _ => trivial) ml.columns
  simp only [Expr.subst_input_temp, List.map_id'] at hfexp
  have hrt₁ : b₁.inputType = lower.inputType := hg₁.inputType
  -- The upper entries read lower columns.
  have hσ : Expr.Fits upper.inputType lower.inputType (columnTree ls) :=
    columnTree_fits (hshape ▸ tl.columns)
  have hfits : Expr.Fits upper.inputType b₁.inputType (columnTree ls) := by rw [hrt₁]; exact hσ
  obtain ⟨b₂, upperPlaces, hcopy₂, hg₂, hb₂, hlen₂, hpl₂⟩ :=
    exists_copyFrom (fun i => fields[i]?.map Column.entry) (σ := columnTree ls) htu hb₁
      hfits
      (fun k j hj => by
        obtain ⟨c, hc, rfl⟩ := Option.map_eq_some_iff.mp hj
        obtain ⟨hlt, rfl⟩ := List.getElem?_eq_some_iff.mp hc
        have hlt' : k < ls.length := hfexp.length_eq ▸ hlt
        have := hfexp.get hlt hlt'
        simpa [columnTree, List.getElem?_eq_getElem hlt'] using this)
      (fun k u hk hnone => by
        have hlt := RowType.lt_of_type? hk
        rw [← RowType.length_types, hshape, ← tl.columns.length_eq, ← hfexp.length_eq] at hlt
        simp [List.getElem?_eq_getElem hlt] at hnone)
  have hrt₂ : b₂.inputType = lower.inputType := hg₂.inputType.trans hrt₁
  obtain ⟨lowerCondition, hlcond, hlcexp⟩ :=
    (hpl₁.grow hg₂).moveCondition hlen₁ (fun _ _ => trivial) ml.condition
  obtain ⟨upperCondition, hucond, hucexp⟩ :=
    hpl₂.moveCondition hlen₂ (fun _ _ => trivial) mu.condition
  simp only [Expr.subst_input_temp, Option.map_id'] at hlcexp
  have hlct : ConditionTyped b₂.inputType lc := by rw [hrt₂]; exact tl.condition
  have huct : ConditionTyped b₂.inputType (uc.map (·.subst (columnTree ls) .temp)) := by
    rw [hrt₂]; exact tu.condition.subst hσ
  obtain ⟨hg₃, hb₃, c, hc, hcexp⟩ := guarded_spec hb₂ hlcexp hucexp hlct huct
  obtain ⟨columns, hcols, hnames, hexp⟩ :=
    (hpl₂.grow hg₃).moveColumns hlen₂ (fun _ _ => trivial) mu.columns
  generalize hgd : guarded b₂ lowerCondition upperCondition = r at hg₃ hb₃ hcexp hexp
  obtain ⟨condition, b₃⟩ := r
  have hrt₃ : b₃.inputType = lower.inputType := hg₃.inputType.trans hrt₂
  have hctyped : ConditionTyped b₃.inputType c := by
    rw [hg₃.inputType]; exact hc.typed hlct huct
  have hcolumns : ColumnsTyped b₃.inputType (us.map (·.subst (columnTree ls) .temp))
      upper.outputType.types := by
    rw [hrt₃]; exact ColumnsTyped.subst tu.columns hσ
  obtain ⟨p, hp, hpv, hpi, hpo, hpm⟩ :=
    Builder.exists_program upper.outputType (b := { b₃ with columns, condition }) hb₃
      hcexp hctyped hexp hcolumns (hnames.trans hfu.names_eq)
  obtain ⟨m, hm, hmv, hmi, hmo, hmm⟩ := exists_normalize hpv hpm
  refine ⟨m, c, ?_, hmv, hmi.trans (hpi.trans hrt₃), hmo.trans hpo, hc, hmm⟩
  rw [merge, if_pos hfit, hcopy₁, Except.ok_bind]
  simp only [hfields, hcopy₂, hlcond, hucond, hgd, hcols, Except.ok_bind]
  rw [hp, Except.ok_bind]
  exact hm

/-! ## Running a composition -/

variable {row mid : Row} {uc lc c : Option Expr} {us ls : List Expr} {rt : RowType}

/-- What an upper condition and upper columns give on the output of lower ones, by need: the lower
condition is evaluated on the row, and where it is true the upper condition and columns, in which
the lower columns stand for the fields. -/
def runStacked (row : Row) (lc : Option Expr) (ls : List Expr) (uc : Option Expr)
    (us : List Expr) : Except ProgramError (Option Row) := do
  if ← Expr.passes row.field lc then
    Expr.runAll row (uc.map (·.subst (columnTree ls) .temp)) (us.map (·.subst (columnTree ls) .temp))
  else
    return none

theorem Guarded.runAll_eq (h : Guarded lc (uc.map (·.subst (columnTree ls) .temp)) c)
    (hl : ConditionTyped rt lc) (hu : ConditionTyped rt (uc.map (·.subst (columnTree ls) .temp)))
    (hrow : row.conforms rt.types) :
    Expr.runAll row c (us.map (·.subst (columnTree ls) .temp)) = runStacked row lc ls uc us := by
  rw [Expr.runAll, h.passes_eq hl hu fun i t hi => Row.field_yields hrow hi, runStacked]
  cases Expr.passes row.field lc with
  | error e => rfl
  | ok b => cases b <;> rfl

/-- After a lower run with output `mid`, running by need is running on `mid`. -/
theorem runStacked_eq_runAll (h : Expr.runAll row lc ls = .ok (some mid))
    (huc : ∀ e ∈ uc, ∀ i ∈ e.inputs, i < ls.length)
    (hus : ∀ e ∈ us, ∀ i ∈ e.inputs, i < ls.length) :
    runStacked row lc ls uc us = Expr.runAll mid uc us := by
  obtain ⟨hlower, hmid⟩ := Expr.runAll_eq_some_iff.mp h
  have hdelay := Expr.delay_ofRow hmid
  have hcond : Expr.passes row.field (uc.map (·.subst (columnTree ls) .temp)) =
      Expr.passes mid.field uc := by
    rw [← LazyRow.field_ofRow, ← Expr.passes_delay huc, hdelay, LazyRow.field_ofRow]
  have hcols : Expr.evalAll row (us.map (·.subst (columnTree ls) .temp)) = Expr.evalAll mid us := by
    rw [← Expr.force_delay_ofRow, ← Expr.delay_delay hus, hdelay, Expr.force_delay_ofRow]
  rw [runStacked, hlower, Except.ok_bind, if_pos rfl, Expr.runAll, Expr.runAll, hcond, hcols]

theorem runStacked_eq_none (h : Expr.runAll row lc ls = .ok none) :
    runStacked row lc ls uc us = .ok none := by
  rw [runStacked, Expr.runAll_eq_none_iff.mp h]
  rfl

/-- Merging composes by need: on every row of the lower input type, the merged program gives what
the lower condition, then the upper condition and the upper columns over the lower columns give,
failures included. Where the lower program gives a row, this is the run of the upper one on it. -/
theorem run_merge {upper lower : Program} (hu : upper.Valid) (hl : lower.Valid)
    (hfit : upper.inputType.sameShape lower.outputType) :
    ∃ m lc ls uc us, merge upper lower = .ok m ∧
      lower.expandedCondition = .ok lc ∧ lower.expandedColumns = .ok ls ∧
      upper.expandedCondition = .ok uc ∧ upper.expandedColumns = .ok us ∧
      ∀ row : Row, row.conforms lower.inputType.types →
        m.run row = runStacked row lc (ls.map Prod.fst) uc (us.map Prod.fst) ∧
        (lower.run row = .ok none → m.run row = .ok none) ∧
        ∀ mid, lower.run row = .ok (some mid) → m.run row = upper.run mid := by
  obtain ⟨uc, us, mu, tu⟩ := hu.exists_means
  obtain ⟨lc, ls, ml, tl⟩ := hl.exists_means
  obtain ⟨m, c, hm, hmv, hmi, _, hc, mm⟩ := exists_merge hu hl hfit mu ml
  refine ⟨m, lc, _, uc, _, hm, ml.expandedCondition hl, ml.expandedColumns hl,
    mu.expandedCondition hu, mu.expandedColumns hu, fun row hrow => ?_⟩
  have hlen : row.length = lower.inputType.length := by
    rw [Row.length_of_conforms hrow, RowType.length_types]
  have hshape : upper.inputType.types = lower.outputType.types := of_decide_eq_true hfit
  have hfst {es : List Expr} {cs : List Column} (h : es.length = cs.length) :
      (es.zip (cs.map Column.name)).map Prod.fst = es := List.map_fst_zip (by simp [h])
  rw [hfst ml.columns.length_eq.symm, hfst mu.columns.length_eq.symm]
  have hwidth : upper.inputType.length = ls.length := by
    rw [← RowType.length_types, hshape, tl.columns.length_eq]
  have hσ : Expr.Fits upper.inputType lower.inputType (columnTree ls) :=
    columnTree_fits (hshape ▸ tl.columns)
  have hrun : m.run row = runStacked row lc ls uc us := by
    rw [mm.run_eq hmv (by rw [hlen, hmi])]
    exact hc.runAll_eq tl.condition (tu.condition.subst hσ) hrow
  refine ⟨hrun, fun hnone => ?_, fun mid hmid => ?_⟩
  · rw [ml.run_eq hl hlen] at hnone
    rw [hrun, runStacked_eq_none hnone]
  · rw [ml.run_eq hl hlen] at hmid
    rw [hrun, runStacked_eq_runAll hmid (hwidth ▸ tu.condition.lt)
      (hwidth ▸ ColumnsTyped.lt tu.columns), mu.run_eq hu]
    rw [hwidth, (List.mapM_eq_ok_iff.mp (Expr.runAll_eq_some_iff.mp hmid).2).length_eq]

/-- Divides a field by zero, beside the field itself. -/
def failingColumn : Program where
  inputType := [⟨"a", .int⟩]
  entries := [.input 0, .literal (.int 0), .binary (.temp 0) .div (.temp 1)]
  columns := [⟨2, "q"⟩, ⟨0, "a"⟩]
  condition := none
  outputType := [⟨"q", .int⟩, ⟨"a", .int⟩]

/-- Keeps the second of two integers. -/
def secondField : Program where
  inputType := [⟨"q", .int⟩, ⟨"a", .int⟩]
  entries := [.input 1]
  columns := [⟨0, "a"⟩]
  condition := none
  outputType := [⟨"a", .int⟩]

/-- A lower column that fails is never evaluated if the upper program does not read it. -/
theorem run_merge_past_failure :
    secondField.Valid ∧ failingColumn.Valid ∧
      secondField.inputType.sameShape failingColumn.outputType ∧
      Row.conforms [.int 6] failingColumn.inputType.types ∧
      ∃ m lc ls uc us, merge secondField failingColumn = .ok m ∧
        failingColumn.expandedCondition = .ok lc ∧ failingColumn.expandedColumns = .ok ls ∧
        secondField.expandedCondition = .ok uc ∧ secondField.expandedColumns = .ok us ∧
        m.run [.int 6] = runStacked [.int 6] lc (ls.map Prod.fst) uc (us.map Prod.fst) ∧
        m.run [.int 6] = .ok (some [.int 6]) := by
  have hu : secondField.Valid := rfl
  have hl : failingColumn.Valid := rfl
  obtain ⟨m, lc, ls, uc, us, hm, hlc, hls, huc, hus, h⟩ := run_merge hu hl (by decide)
  have hrow : Row.conforms [.int 6] failingColumn.inputType.types := by decide
  have hrun := (h [.int 6] hrow).1
  refine ⟨hu, hl, by decide, hrow, m, lc, ls, uc, us, hm, hlc, hls, huc, hus, hrun, ?_⟩
  rw [hrun]
  obtain rfl : none = lc := Except.ok.inj hlc
  obtain rfl : none = uc := Except.ok.inj huc
  obtain rfl := Except.ok.inj (hls.symm.trans (show _ = Except.ok
    [(.binary (.input 0) .div (.literal (.int 0)), "q"), (.input 0, "a")] from rfl))
  obtain rfl := Except.ok.inj (hus.symm.trans (show _ = Except.ok [(.input 1, "a")] from rfl))
  rfl

/-! ## Programs that fit -/

/-- Valid programs can be merged exactly if the upper one takes the shape that the lower one puts
out. Nothing else stops a merge, and a merged program is valid, with the input fields of the lower
program and the output fields of the upper one. -/
theorem merge_ok_iff {upper lower : Program} (hu : upper.Valid) (hl : lower.Valid) :
    ((∃ m, merge upper lower = .ok m) ↔ upper.inputType.sameShape lower.outputType) ∧
      (∀ m, merge upper lower = .ok m →
        m.Valid ∧ m.inputType = lower.inputType ∧ m.outputType = upper.outputType) ∧
      ∀ e, merge upper lower = .error e →
        e = .invalid (.unfitting upper.inputType lower.outputType) := by
  obtain ⟨uc, us, mu, -⟩ := hu.exists_means
  obtain ⟨lc, ls, ml, -⟩ := hl.exists_means
  by_cases hfit : upper.inputType.sameShape lower.outputType
  · obtain ⟨m, c, hm, hmv, hmi, hmo, -⟩ := exists_merge hu hl hfit mu ml
    refine ⟨⟨fun _ => hfit, fun _ => ⟨m, hm⟩⟩, fun m' hm' => ?_, fun e he => ?_⟩
    · obtain rfl := Except.ok.inj (hm.symm.trans hm')
      exact ⟨hmv, hmi, hmo⟩
    · cases hm.symm.trans he
  · have herror : merge upper lower =
        .error (.invalid (.unfitting upper.inputType lower.outputType)) := by
      rw [merge, if_neg hfit]
      rfl
    refine ⟨⟨fun ⟨m, hm⟩ => ?_, fun h => absurd h hfit⟩, fun m hm => ?_, fun e he => ?_⟩
    · cases herror.symm.trans hm
    · cases herror.symm.trans hm
    · exact (Except.error.inj (herror.symm.trans he)).symm

/-- Lets no row pass. -/
def nothing : Program where
  inputType := [⟨"a", .int⟩]
  entries := [.input 0, .literal .null]
  columns := [⟨0, "b"⟩]
  condition := some 1
  outputType := [⟨"b", .int⟩]

/-- Lets positive numbers pass. -/
def positive : Program where
  inputType := [⟨"x", .int⟩]
  entries := [.input 0, .literal (.int 0), .binary (.temp 0) .gt (.temp 1)]
  columns := [⟨0, "y"⟩]
  condition := some 2
  outputType := [⟨"y", .int⟩]

/-- A condition without a truth value is merged like any other one; two fields are not one. -/
theorem merge_ok_iff_nothing : positive.Valid ∧ nothing.Valid ∧ secondField.Valid ∧
    (∃ m, merge positive nothing = .ok m ∧ m.Valid ∧ m.inputType = [⟨"a", .int⟩] ∧
      m.outputType = [⟨"y", .int⟩]) ∧
    ∀ m, merge secondField nothing ≠ .ok m := by
  have hu : positive.Valid := rfl
  have hl : nothing.Valid := rfl
  have hs : secondField.Valid := rfl
  obtain ⟨hiff, hok, -⟩ := merge_ok_iff hu hl
  obtain ⟨m, hm⟩ := hiff.mpr (by decide)
  refine ⟨hu, hl, hs, ⟨m, hm, hok m hm⟩, fun m' hm' => ?_⟩
  exact absurd ((merge_ok_iff hs hl).1.mp ⟨m', hm'⟩) (by decide)

end Program
end RelPlan
