import RelPlan.Proofs.Program.LazyRow
import RelPlan.Proofs.Program.Sharing
import RelPlan.Rewrite.ComputeRules

/-! # The programs of filters, projections and trivial nodes

A filter over a row type has a program that keeps all fields under its condition
(`Program.exists_ofFilter`), a projection has one that computes its columns
(`Program.exists_ofProject`), and a trivial program means the fields themselves
(`Program.Means.of_isTrivial`). -/

namespace RelPlan

open Program (Typed Expands)

namespace Builder

variable {b : Builder}

theorem typesFrom_of_entryTypesFrom {rt : RowType} {known ts : List ScalarType} {es : List Expr}
    (h : Program.entryTypesFrom rt known es = .ok ts) : typesFrom rt known es = .ok ts := by
  induction es generalizing known with
  | nil => exact h
  | cons e es ih =>
    obtain ⟨_, _, h⟩ := Except.bind_eq_ok_iff.mp h
    obtain ⟨t, ht, h⟩ := Except.bind_eq_ok_iff.mp h
    simp only [typesFrom, ht, Except.ok_bind]
    exact ih h

/-- A column shows an expression under a name. -/
def Shows (entries : List Expr) (c : Column) (e : Expr × String) : Prop :=
  Expands entries c.entry e.1 ∧ c.name = e.2

theorem names_of_shows {columns : List Column} {cols : List (Expr × String)}
    (h : List.Forall₂ (Shows es) columns cols) :
    columns.map Column.name = cols.map Prod.snd := by
  induction h with
  | nil => rfl
  | cons hs _ ih => rw [List.map_cons, List.map_cons, hs.2, ih]

theorem addColumnExprs_spec (cols : List (Expr × String)) (h : b.WellTyped)
    (hcols : ∀ c ∈ cols, ∃ t, c.1.type b.inputType [] = .ok t) :
    ∃ entries digests columns,
      b.addColumnExprs cols = { b with entries, digests, columns := b.columns ++ columns } ∧
      (b.addColumnExprs cols).WellTyped ∧ b.entries <+: entries ∧
      List.Forall₂ (Shows entries) columns cols := by
  induction cols generalizing b with
  | nil => exact ⟨b.entries, b.digests, [], by simp [addColumnExprs], h, List.prefix_refl _, .nil⟩
  | cons c cols ih =>
    obtain ⟨e, name⟩ := c
    obtain ⟨t, ht⟩ := hcols _ List.mem_cons_self
    obtain ⟨hwt, hexp⟩ := addExpr_closed h ht
    have hg := b.addExpr_grows e
    obtain ⟨entries, digests, columns, heq, hwt', hp, hshow⟩ :=
      ih (b := b.addColumnExpr e name) hwt fun c hc => by
        show ∃ t, c.1.type (b.addExpr e).2.inputType [] = .ok t
        rw [hg.inputType]
        exact hcols c (List.mem_cons_of_mem _ hc)
    have hunfold : b.addColumnExprs ((e, name) :: cols) =
        (b.addColumnExpr e name).addColumnExprs cols := rfl
    refine ⟨entries, digests, ⟨(b.addExpr e).1, name⟩ :: columns, ?_, hunfold ▸ hwt',
      hg.entries.trans hp, .cons ⟨hexp.of_initial hp, rfl⟩ hshow⟩
    rw [hunfold, heq]
    simp [addColumnExpr, addColumn, hg.inputType, hg.columns, hg.condition]

theorem addCondition_spec {e : Expr} (h : b.WellTyped) (hb : b.condition = none)
    (he : e.type b.inputType [] = .ok t) (ht : t.isCondition) :
    ∃ entries digests i, b.addCondition e = .ok { b with entries, digests, condition := some i } ∧
      WellTyped { b with entries, digests, condition := some i } ∧ b.entries <+: entries ∧
      Expands entries i e := by
  obtain ⟨hb', ts, hts⟩ := h
  have htypes : b.types = .ok ts :=
    typesFrom_of_entryTypesFrom (Program.entryTypes_eq_ok_iff.mpr hts)
  have het : e.type b.inputType ts = .ok t := Expr.type_mono he (fun _ _ => id) (by simp)
  obtain ⟨⟨hindexed, ts', hwt⟩, hexp⟩ := addExpr_closed ⟨hb', ts, hts⟩ he
  have hg := b.addExpr_grows e
  rw [hg.inputType] at hwt
  refine ⟨(b.addExpr e).2.entries, (b.addExpr e).2.digests, (b.addExpr e).1, ?_,
    ⟨hindexed, ts', hwt⟩, hg.entries, hexp⟩
  simp [addCondition, htypes, het, ht, hg.condition, hb, hg.inputType, hg.columns]

end Builder

namespace Program

theorem exists_ofProject {rt out : RowType} {es : List Expr}
    (h : Program.ColumnsTyped rt es out.types) :
    ∃ p, ofProject rt (es.zip out.names) = .ok p ∧ p.Valid ∧ p.inputType = rt ∧
      p.outputType = out ∧ p.Means none es := by
  have hlen : es.length = out.length := by simpa using h.length_eq
  have hfst : (es.zip out.names).map Prod.fst = es :=
    List.map_fst_zip (by simp [RowType.names, hlen])
  have hsnd : (es.zip out.names).map Prod.snd = out.names :=
    List.map_snd_zip (by simp [RowType.names, hlen])
  obtain ⟨entries, digests, columns, heq, hwt, _, hshow⟩ :=
    Builder.addColumnExprs_spec (es.zip out.names) (b := { inputType := rt })
      (Builder.wellTyped_new rt)
      fun c hc => by
        have hmem : c.1 ∈ es := (List.of_mem_zip (a := c.1) (b := c.2) hc).1
        obtain ⟨t, _, ht⟩ := h.exists_of_mem_left hmem
        exact ⟨t, ht⟩
  have hexp : List.Forall₂ (fun (c : Column) t => Expands entries c.entry t) columns es := by
    rw [← hfst, List.forall₂_map_right_iff]
    exact hshow.imp fun _ _ hs => hs.1
  have hnames : columns.map Column.name = out.names :=
    (Builder.names_of_shows hshow).trans hsnd
  rw [heq] at hwt
  obtain ⟨p, hp, hv, hi, ho, hm⟩ := Builder.exists_program out hwt .none
    conditionTyped_none hexp h hnames
  exact ⟨p, by rw [ofProject, heq]; exact hp, hv, hi, ho, hm⟩

theorem exists_ofFilter {rt : RowType} {c : Expr} (h : c.type rt [] = .ok t) (ht : t.isCondition) :
    ∃ p, ofFilter rt c = .ok p ∧ p.Valid ∧ p.inputType = rt ∧ p.outputType = rt ∧
      p.Means (some c) rt.refs := by
  obtain ⟨entries, digests, columns, heq, hwt, _, hshow⟩ :=
    Builder.addColumnExprs_spec (rt.zipIdx.map fun fi => (.input fi.2, fi.1.name))
      (b := { inputType := rt }) (Builder.wellTyped_new rt) fun c hc => by
        obtain ⟨⟨f, i⟩, hfi, rfl⟩ := List.mem_map.mp hc
        exact ⟨f.type, Expr.type_input_eq_ok_iff.mpr (by
          simp [RowType.type?, (List.mem_zipIdx_iff_getElem?.mp hfi)])⟩
  have hkeep : Builder.keepFields { inputType := rt } = ⟨rt, entries, columns, none, digests⟩ := heq
  rw [heq] at hwt
  obtain ⟨entries', digests', i, hadd, hwt', hp, hexp⟩ :=
    Builder.addCondition_spec (b := ⟨rt, entries, columns, none, digests⟩) hwt rfl h ht
  have hcols : List.Forall₂ (fun (c : Column) t => Expands entries' c.entry t) columns rt.refs := by
    rw [RowType.refs, List.forall₂_map_right_iff]
    exact (List.forall₂_map_right_iff.mp hshow).imp fun _ _ hs => hs.1.of_initial hp
  have hnames : columns.map Column.name = rt.names := by
    rw [Builder.names_of_shows hshow, List.map_map, RowType.names]
    show List.map (Field.name ∘ Prod.fst) rt.zipIdx = _
    rw [← List.map_map, List.zipIdx_map_fst]
  obtain ⟨p, hp, hv, hi, ho, hm⟩ :=
    Builder.exists_program rt (b := ⟨rt, entries', columns, some i, digests'⟩) (c := some c) hwt'
      (.some hexp) (conditionTyped_some h ht) hcols rt.refs_typed hnames
  exact ⟨p, by rw [ofFilter, hkeep, hadd]; exact hp, hv, hi, ho, hm⟩

/-- A trivial program puts out the fields themselves. -/
theorem Means.of_isTrivial {p : Program} (h : p.isTrivial) : p.Means none p.inputType.refs := by
  obtain ⟨hc, hk⟩ := Bool.and_eq_true_iff.mp h
  obtain ⟨hlen, hall⟩ := Bool.and_eq_true_iff.mp hk
  refine ⟨by rw [Option.isNone_iff_eq_none.mp hc]; exact .none, ?_⟩
  refine List.forall₂_iff_get.mpr ⟨?_, fun i hi hi' => ?_⟩
  · rw [RowType.length_refs]
    exact of_decide_eq_true hlen
  · have hi'' : i < p.inputType.length := by rwa [RowType.length_refs] at hi'
    have hentry := List.all_eq_true.mp hall (p.columns[i], i) (by
      simp [List.mem_zipIdx_iff_getElem?, List.getElem?_eq_getElem hi])
    have href : p.inputType.refs[i] = .input i := by
      have := RowType.getElem?_refs hi''
      rwa [List.getElem?_eq_getElem hi', Option.some.injEq] at this
    rw [List.get_eq_getElem, List.get_eq_getElem, href]
    exact .leaf (of_decide_eq_true hentry) rfl

end Program
end RelPlan
