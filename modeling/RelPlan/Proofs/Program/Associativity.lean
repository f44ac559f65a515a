import RelPlan.Proofs.Program.Composition

/-! # Merging order

Three programs that run one after the other can be merged from the top or from the bottom. The two
results differ in their entries and in how the conditions guard each other, but they read the same
columns (`Expr.subst_columnTree`), their conditions let the same rows pass and fail on the same rows
(`Program.Guarded.passes_assoc`), and so they give the same (`Program.merge_assoc`). -/

namespace RelPlan

/-- Columns over columns, read at once or one after the other. -/
theorem Expr.subst_columnTree {e : Expr} {ms ls : List Expr} (h : ∀ i ∈ e.inputs, i < ms.length) :
    (e.subst (columnTree ms) .temp).subst (columnTree ls) .temp =
      e.subst (columnTree (ms.map (·.subst (columnTree ls) .temp))) .temp := by
  rw [Expr.subst_subst]
  refine Expr.subst_congr (fun i hi => ?_) fun _ _ => rfl
  simp [columnTree, List.getElem?_eq_getElem (h i hi)]

namespace Program

variable {rt : RowType} {x y z xy yz l r : Option Expr}

/-! ## Conditions -/

/-- The fields of the lower columns may be put into two conditions before or after one guards the
other. -/
theorem Guarded.subst (h : Guarded x y xy) (σ : Nat → Expr) :
    Guarded (x.map (·.subst σ .temp)) (y.map (·.subst σ .temp)) (xy.map (·.subst σ .temp)) := by
  cases h with
  | none => exact .none
  | lower => exact .lower
  | upper => exact .upper
  | same => exact .same
  | both => exact .both

/-- Of three conditions, each is looked at on the rows that the earlier ones let through, however
the guards are nested and whichever of them are the same. -/
theorem Guarded.passes_assoc {fields : Nat → Except ProgramError Value}
    (hxy : Guarded x y xy) (hl : Guarded xy z l) (hyz : Guarded y z yz) (hr : Guarded x yz r)
    (hx : ConditionTyped rt x) (hy : ConditionTyped rt y) (hz : ConditionTyped rt z)
    (hf : ∀ i t, rt.type? i = some t → Yields t (fields i)) :
    Expr.passes fields l = Expr.passes fields r := by
  rw [hl.passes_eq (hxy.typed hx hy) hz hf, hxy.passes_eq hx hy hf,
    hr.passes_eq hx (hyz.typed hy hz) hf, hyz.passes_eq hy hz hf]
  cases Expr.passes fields x with
  | error => rfl
  | ok passed => cases passed <;> rfl

/-! ## Programs -/

variable {a b c : Program}

/-- Programs that do not fit are not merged. -/
theorem sameShape_of_merge {upper lower m : Program} (h : merge upper lower = .ok m) :
    upper.inputType.sameShape lower.outputType := by
  by_contra hfit
  rw [merge, if_neg hfit] at h
  cases h

/-- Both ways of merging three programs that fit, by what the results mean. -/
theorem exists_merge_both {uc mc lc : Option Expr} {us ms ls : List Expr}
    (ha : a.Valid) (hb : b.Valid) (hc : c.Valid) (hab : a.inputType.sameShape b.outputType)
    (hbc : b.inputType.sameShape c.outputType) (ma : a.Means uc us) (mb : b.Means mc ms)
    (mc' : c.Means lc ls) :
    ∃ left right leftCondition rightCondition columns,
      (merge b c >>= merge a) = .ok left ∧ (merge a b >>= (merge · c)) = .ok right ∧
      left.Valid ∧ right.Valid ∧
      left.inputType = c.inputType ∧ right.inputType = c.inputType ∧
      left.outputType = a.outputType ∧ right.outputType = a.outputType ∧
      left.Means leftCondition columns ∧ right.Means rightCondition columns ∧
      ∀ fields : Nat → Except ProgramError Value,
        (∀ i t, c.inputType.type? i = some t → Yields t (fields i)) →
        Expr.passes fields leftCondition = Expr.passes fields rightCondition := by
  have ta := ha.means_typed ma
  have tb := hb.means_typed mb
  have tc := hc.means_typed mc'
  have hshape : a.inputType.types = b.outputType.types := of_decide_eq_true hab
  have hσ : Expr.Fits b.inputType c.inputType (columnTree ls) :=
    columnTree_fits ((of_decide_eq_true hbc : b.inputType.types = c.outputType.types) ▸ tc.columns)
  have hτ : Expr.Fits a.inputType b.inputType (columnTree ms) :=
    columnTree_fits (hshape ▸ tb.columns)
  obtain ⟨bc, bcCondition, hbcm, hbcv, hbci, hbco, hbcg, hbcs⟩ := exists_merge hb hc hbc mb mc'
  obtain ⟨ab, abCondition, habm, habv, habi, habo, habg, habs⟩ := exists_merge ha hb hab ma mb
  obtain ⟨left, lcond, hl, hlv, hli, hlo, hlg, hls⟩ :=
    exists_merge ha hbcv (by rw [hbco]; exact hab) ma hbcs
  obtain ⟨right, rcond, hr, hrv, hri, hro, hrg, hrs⟩ :=
    exists_merge habv hc (by rw [habi]; exact hbc) habs mc'
  -- The upper condition and columns read the lower columns through the middle ones.
  have hwidth : ms.length = a.inputType.length := by
    rw [← RowType.length_types, hshape, tb.columns.length_eq]
  have hcolumns : (us.map (·.subst (columnTree ms) .temp)).map (·.subst (columnTree ls) .temp) =
      us.map (·.subst (columnTree (ms.map (·.subst (columnTree ls) .temp))) .temp) := by
    rw [List.map_map]
    exact List.map_congr_left fun e he =>
      Expr.subst_columnTree (hwidth ▸ ColumnsTyped.lt ta.columns e he)
  have hcondition : (uc.map (·.subst (columnTree ms) .temp)).map (·.subst (columnTree ls) .temp) =
      uc.map (·.subst (columnTree (ms.map (·.subst (columnTree ls) .temp))) .temp) := by
    rw [Option.map_map]
    exact Option.map_congr fun e he =>
      Expr.subst_columnTree (hwidth ▸ ta.condition.lt e he)
  have hupper := habg.subst (columnTree ls)
  rw [hcondition] at hupper
  rw [hcolumns] at hrs
  refine ⟨left, right, lcond, rcond, _, by rw [hbcm]; exact hl, by rw [habm]; exact hr, hlv, hrv,
    hli.trans hbci, hri, hlo, hro.trans habo, hls, hrs, fun fields hf => ?_⟩
  refine hbcg.passes_assoc hlg hupper hrg tc.condition (tb.condition.subst hσ) ?_ hf
  rw [← hcondition]
  exact (ta.condition.subst hτ).subst hσ

/-- Merging order does not matter. Of three valid programs, the upper two can be merged first
exactly if the lower two can; the results have the same input and output fields, and on every row of
the input type they give the same, failures included. -/
theorem merge_assoc (ha : a.Valid) (hb : b.Valid) (hc : c.Valid) :
    ((∃ m, (merge b c >>= merge a) = .ok m) ↔ ∃ m, (merge a b >>= (merge · c)) = .ok m) ∧
      ∀ left right, (merge b c >>= merge a) = .ok left → (merge a b >>= (merge · c)) = .ok right →
        left.inputType = right.inputType ∧ left.outputType = right.outputType ∧
        ∀ row : Row, row.conforms c.inputType.types → left.run row = right.run row := by
  obtain ⟨uc, us, ma, -⟩ := ha.exists_means
  obtain ⟨mc, ms, mb, -⟩ := hb.exists_means
  obtain ⟨lc, ls, mc', -⟩ := hc.exists_means
  by_cases hfit : a.inputType.sameShape b.outputType ∧ b.inputType.sameShape c.outputType
  · obtain ⟨left, right, lcond, rcond, columns, hl, hr, hlv, hrv, hli, hri, hlo, hro, hls, hrs,
      hpasses⟩ := exists_merge_both ha hb hc hfit.1 hfit.2 ma mb mc'
    refine ⟨⟨fun _ => ⟨right, hr⟩, fun _ => ⟨left, hl⟩⟩, fun left' right' hl' hr' => ?_⟩
    obtain rfl := Except.ok.inj (hl.symm.trans hl')
    obtain rfl := Except.ok.inj (hr.symm.trans hr')
    refine ⟨hli.trans hri.symm, hlo.trans hro.symm, fun row hrow => ?_⟩
    have hlen : row.length = c.inputType.length := by
      rw [Row.length_of_conforms hrow, RowType.length_types]
    rw [hls.run_eq hlv (by rw [hlen, hli]), hrs.run_eq hrv (by rw [hlen, hri]), Expr.runAll,
      Expr.runAll, hpasses row.field fun i t hi => Row.field_yields hrow hi]
  · -- Neither way gets past the pair that does not fit.
    have hleft : ∀ m, (merge b c >>= merge a) ≠ .ok m := by
      intro m hm
      obtain ⟨bc, hbc, hm⟩ := Except.bind_eq_ok_iff.mp hm
      have hbcfit := sameShape_of_merge hbc
      obtain ⟨bc', _, hbc', -, -, hbco, -⟩ := exists_merge hb hc hbcfit mb mc'
      obtain rfl := Except.ok.inj (hbc.symm.trans hbc')
      exact hfit ⟨hbco ▸ sameShape_of_merge hm, hbcfit⟩
    have hright : ∀ m, (merge a b >>= (merge · c)) ≠ .ok m := by
      intro m hm
      obtain ⟨ab, hab, hm⟩ := Except.bind_eq_ok_iff.mp hm
      have habfit := sameShape_of_merge hab
      obtain ⟨ab', _, hab', -, habi, -⟩ := exists_merge ha hb habfit ma mb
      obtain rfl := Except.ok.inj (hab.symm.trans hab')
      exact hfit ⟨habfit, habi ▸ sameShape_of_merge hm⟩
    exact ⟨iff_of_false (not_exists.mpr hleft) (not_exists.mpr hright),
      fun left _ hl => absurd hl (hleft left)⟩

/-- Divides the first field by the second one, on the rows where that one is not negative. -/
def quotients : Program where
  inputType := [⟨"a", .int⟩, ⟨"b", .int⟩]
  entries := [.input 0, .input 1, .binary (.temp 0) .div (.temp 1), .literal (.int 0),
    .binary (.temp 1) .ge (.temp 3)]
  columns := [⟨2, "q"⟩, ⟨0, "a"⟩]
  condition := some 4
  outputType := [⟨"q", .int⟩, ⟨"a", .int⟩]

/-- Lets the rows with a positive first field pass and keeps the second one. -/
def positiveFirst : Program where
  inputType := [⟨"q", .int⟩, ⟨"a", .int⟩]
  entries := [.input 0, .literal (.int 0), .binary (.temp 0) .gt (.temp 1), .input 1]
  columns := [⟨3, "a"⟩]
  condition := some 2
  outputType := [⟨"a", .int⟩]

/-- The guards are nested differently; a division by zero between them fails both ways, and a row
that is dropped before it is dropped both ways. -/
theorem merge_assoc_quotients :
    positive.Valid ∧ positiveFirst.Valid ∧ quotients.Valid ∧
      ∃ left right, (merge positiveFirst quotients >>= merge positive) = .ok left ∧
        (merge positive positiveFirst >>= (merge · quotients)) = .ok right ∧ left ≠ right ∧
        left.run [.int 6, .int 0] = right.run [.int 6, .int 0] ∧
        right.run [.int 6, .int 0] = .error (.evaluation (.value .divisionByZero)) ∧
        left.run [.int 6, .int (-1)] = right.run [.int 6, .int (-1)] ∧
        right.run [.int 6, .int (-1)] = .ok none := by
  have ha : positive.Valid := rfl
  have hb : positiveFirst.Valid := rfl
  have hc : quotients.Valid := rfl
  obtain ⟨hiff, hsame⟩ := merge_assoc ha hb hc
  have ⟨right, hr⟩ : ∃ m, (merge positive positiveFirst >>= (merge · quotients)) = .ok m :=
    ⟨_, rfl⟩
  obtain ⟨left, hl⟩ := hiff.mpr ⟨right, hr⟩
  obtain ⟨-, -, hrun⟩ := hsame left right hl hr
  have hne : (merge positiveFirst quotients >>= merge positive) ≠
      (merge positive positiveFirst >>= (merge · quotients)) := by decide +kernel
  have hfails : ((merge positive positiveFirst >>= (merge · quotients)) >>=
      (·.run [.int 6, .int 0])) = .error (.evaluation (.value .divisionByZero)) := by decide +kernel
  have hdrops : ((merge positive positiveFirst >>= (merge · quotients)) >>=
      (·.run [.int 6, .int (-1)])) = .ok none := by decide +kernel
  rw [hl, hr] at hne
  rw [hr, Except.ok_bind] at hfails hdrops
  exact ⟨ha, hb, hc, left, right, hl, hr, fun h => hne (h ▸ rfl), hrun _ (by decide), hfails,
    hrun _ (by decide), hdrops⟩

end Program
end RelPlan
