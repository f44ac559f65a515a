import RelPlan.Proofs.Program.Accepted
import RelPlan.Proofs.Program.FromNode

/-! # Demanding conditions

A builder that is given one condition after the other joins each to those before it, except where
the new condition is the entry that its condition is already (`Expr.Joined`). On rows of the type
this makes no difference (`Expr.Joined.eval_eq`). So whatever else the builder is asked for in
between, its program passes the rows where the conjunction of the conditions is true, and fails where
the conjunction fails (`Builder.Demanded.run_conj`). -/

namespace RelPlan

open Program (Expands ConditionTyped)

/-! ## Conjunctions -/

namespace Expr

/-- The conditions joined one after the other, where one may be left out that is what the earlier
ones have been joined to. -/
inductive Joined : List Expr → Option Expr → Prop where
  | none : Joined [] none
  | first : Joined [c] (some c)
  | both : Joined cs (some d) → Joined (cs ++ [c]) (some (.binary d .and c))
  | again : Joined cs (some d) → Joined (cs ++ [d]) (some d)

variable {cs : List Expr} {c l r : Expr} {row : Row} {rt : RowType}

theorem conj?_snoc (cs : List Expr) (c : Expr) :
    conj? (cs ++ [c]) = some (((conj? cs).map (binary · .and c)).getD c) := by
  cases cs with
  | nil => rfl
  | cons => simp [conj?]

theorem eval_and (row : Row) (l r : Expr) :
    (binary l .and r).eval row = do
      let p ← (← l.eval row).truth
      if p = some false then return .bool false
      return connect false p (← (← r.eval row).truth) := by
  simp only [eval, evalWith, evalM, BinaryOp.absorbing?]
  rfl

theorem conditions_of_and (h : (binary l .and r).type rt [] = .ok t) :
    ConditionTyped rt (some l) ∧ ConditionTyped rt (some r) := by
  obtain ⟨tl, hl, h⟩ := Except.bind_eq_ok_iff.mp h
  obtain ⟨tr, hr, h⟩ := Except.bind_eq_ok_iff.mp h
  obtain ⟨-, hcl, hcr⟩ := BinaryOp.types_of_absorbing rfl h
  exact ⟨Program.conditionTyped_some hl hcl, Program.conditionTyped_some hr hcr⟩

/-- A condition together with itself is the condition. -/
theorem eval_and_self (h : ConditionTyped rt (some c)) (hrow : row.conforms rt.types) :
    (binary c .and c).eval row = c.eval row := by
  obtain ⟨t, ht, hcond⟩ := h c rfl
  rw [eval_and]
  cases hv : c.eval row with
  | error => rfl
  | ok v =>
    obtain ⟨_, -, ⟨rfl, -⟩ | ⟨b, rfl, -⟩⟩ :=
      Value.exists_truth_of_conforms ((eval_yields ht hrow).elim hv) hcond
    · rfl
    · cases b <;> rfl

/-- What is left out of a well-typed condition is not missed. -/
theorem Joined.eval_eq {d : Option Expr} (h : Joined cs d) (hd : ConditionTyped rt d)
    (hrow : row.conforms rt.types) : (conj? cs).map (eval row) = d.map (eval row) := by
  induction h with
  | none | first => rfl
  | @both cs d c _ ih =>
    obtain ⟨t, ht, -⟩ := hd _ rfl
    obtain ⟨e, he, heq⟩ := Option.map_eq_some_iff.mp (ih (conditions_of_and ht).1)
    simp only [conj?_snoc, he, Option.map_some, Option.getD_some, eval_and, heq]
  | @again cs d _ ih =>
    obtain ⟨e, he, heq⟩ := Option.map_eq_some_iff.mp (ih hd)
    have hself := eval_and_self hd hrow
    rw [eval_and] at hself
    simp only [conj?_snoc, he, Option.map_some, Option.getD_some, eval_and, heq, hself]

theorem runAll_some (row : Row) (c : Expr) (es : List Expr) :
    runAll row (some c) es = do
      if (← c.eval row).isTrue then return some (← evalAll row es) else return none := by
  rw [runAll, passes, bind_assoc]
  rfl

end Expr

namespace Builder

/-- From a new builder over the row type these conditions have been demanded, in any order with
other requests, and these columns since all fields were last made the columns. -/
inductive Demanded (rt : RowType) : List Expr → List (Expr × String) → Builder → Prop where
  | new : Demanded rt [] [] { inputType := rt }
  | addExpr : Demanded rt cs cols b → e.temps = [] → Demanded rt cs cols (b.addExpr e).2
  | keepFields : Demanded rt cs cols b → Demanded rt cs (rt.refs.zip rt.names) b.keepFields
  | addColumnExpr : Demanded rt cs cols b → e.temps = [] →
      Demanded rt cs (cols ++ [(e, name)]) (b.addColumnExpr e name)
  | addCondition : Demanded rt cs cols b → e.temps = [] → b.addCondition e = .ok b' →
      Demanded rt (cs ++ [e]) cols b'

/-- The columns expand to those that have been asked for, and the condition to the conditions
joined. -/
structure Collects (rt : RowType) (cs : List Expr) (cols : List (Expr × String)) (b : Builder) :
    Prop where
  inputType : b.inputType = rt
  indexed : b.Indexed
  columns : List.Forall₂ (Shows b.entries) b.columns cols
  condition : ∃ d, Expr.Joined cs d ∧ Option.Rel (Expands b.entries) b.condition d

variable {rt : RowType} {cs : List Expr} {cols : List (Expr × String)} {b b' : Builder} {c e : Expr}
  {p : Program} {row : Row}

theorem Collects.grow (h : b.Collects rt cs cols) (hg : b.Grows b') (hb : b'.Indexed) :
    b'.Collects rt cs cols where
  inputType := hg.inputType.trans h.inputType
  indexed := hb
  columns := by
    rw [hg.columns]
    exact h.columns.imp fun _ _ hs => ⟨hg.expands hs.1, hs.2⟩
  condition := by
    obtain ⟨d, hd, hc⟩ := h.condition
    exact ⟨d, hd, hg.expands_condition hc⟩

theorem Collects.addExpr (h : b.Collects rt cs cols) (he : e.temps = []) :
    (b.addExpr e).2.Collects rt cs cols :=
  h.grow (b.addExpr_grows e) (addExpr_expands_self h.indexed he).1

theorem Collects.addColumnExpr (name : String) (h : b.Collects rt cs cols) (he : e.temps = []) :
    (b.addColumnExpr e name).Collects rt cs (cols ++ [(e, name)]) := by
  have hb := h.addExpr he
  refine ⟨hb.inputType, hb.indexed, ?_, hb.condition⟩
  exact List.rel_append hb.columns (.cons ⟨(addExpr_expands_self h.indexed he).2, rfl⟩ .nil)

theorem Collects.addColumnExprs (more : List (Expr × String)) (h : b.Collects rt cs cols)
    (hmore : ∀ c ∈ more, c.1.temps = []) :
    (b.addColumnExprs more).Collects rt cs (cols ++ more) := by
  induction more generalizing b cols with
  | nil => rwa [List.append_nil]
  | cons c more ih =>
    obtain ⟨hc, hmore⟩ := List.forall_mem_cons.mp hmore
    rw [List.append_cons]
    exact ih (h.addColumnExpr c.2 hc) hmore

theorem keepFields_eq (b : Builder) :
    b.keepFields = b.clearColumns.addColumnExprs (b.inputType.refs.zip b.inputType.names) := by
  have hnames : b.inputType.names = b.inputType.zipIdx.map fun fi => fi.1.name := by
    rw [← Function.comp_def, ← List.map_map, List.zipIdx_map_fst, RowType.names]
  rw [hnames, RowType.refs, List.zip_map', keepFields]

theorem Collects.keepFields (h : b.Collects rt cs cols) :
    b.keepFields.Collects rt cs (rt.refs.zip rt.names) := by
  have hclear : b.clearColumns.Collects rt cs [] := ⟨h.inputType, h.indexed, .nil, h.condition⟩
  rw [keepFields_eq, h.inputType]
  refine hclear.addColumnExprs _ fun c hc => ?_
  obtain ⟨_, -, hinput⟩ := List.mem_map.mp (List.of_mem_zip hc).1
  rw [← hinput]
  rfl

/-- The condition is joined to those before it, and left out only where it is what they have been
joined to. -/
theorem Collects.addCondition (h : b.Collects rt cs cols) (he : e.temps = [])
    (hb : b.addCondition e = .ok b') : b'.Collects rt (cs ++ [e]) cols := by
  have hadd := h.addExpr he
  have hexp := (addExpr_expands_self h.indexed he).2
  obtain ⟨d, hd, hc⟩ := hadd.condition
  rw [(b.addExpr_grows e).condition] at hc
  obtain ⟨hsame, rfl⟩ | ⟨earlier, hearlier, rfl⟩ := of_addCondition hb
  -- The condition is the first one, or it is the entry that has been the condition all along.
  · refine ⟨hadd.inputType, hadd.indexed, hadd.columns, some e, ?_, .some hexp⟩
    cases hcond : b.condition with
    | none =>
      rw [hcond] at hc
      cases hc
      cases hd
      exact .first
    | some earlier =>
      rw [hcond] at hc hsame
      cases hc with
      | some hx =>
        obtain rfl := hsame earlier rfl
        obtain rfl := hx.unique hexp
        exact .again hd
  · rw [hearlier] at hc
    cases hc with
    | @some _ d hx =>
      have hf : (Expr.binary (.temp earlier) .and (.temp (b.addExpr e).1)).Flat
          (b.addExpr e).2.entries.length := .binary hx.lt hexp.lt
      have hg := register_grows (b.addExpr e).2
        (.binary (.temp earlier) .and (.temp (b.addExpr e).1))
      have hjoin := hadd.grow hg (register_indexed hadd.indexed hf)
      refine ⟨hjoin.inputType, hjoin.indexed, hjoin.columns, _, .both hd, .some ?_⟩
      exact .binary (register_getElem? hadd.indexed hf) (hg.expands hx) (hg.expands hexp)

theorem Demanded.collects (h : Demanded rt cs cols b) : b.Collects rt cs cols := by
  induction h with
  | new => exact ⟨rfl, indexed_new rt, .nil, none, .none, .none⟩
  | addExpr _ he ih => exact ih.addExpr he
  | keepFields _ ih => exact ih.keepFields
  | addColumnExpr _ he ih => exact ih.addColumnExpr _ he
  | addCondition _ he hb ih => exact ih.addCondition he hb

theorem Collects.means (h : b.Collects rt cs cols) (hp : b.program = .ok p) :
    p.inputType = rt ∧ p.columns.map Column.name = cols.map Prod.snd ∧
      ∃ d, Expr.Joined cs d ∧ p.Means d (cols.map Prod.fst) := by
  obtain ⟨hrt, hentries, hcolumns, hcondition, -⟩ := Program.check_eq_ok_iff.mp hp
  obtain ⟨d, hd, hc⟩ := h.condition
  refine ⟨hrt.trans h.inputType, ?_, d, hd, ?_, ?_⟩
  · rw [hcolumns]
    exact names_of_shows h.columns
  · rw [hentries, hcondition]
    exact hc
  · rw [hentries, hcolumns, List.forall₂_map_right_iff]
    exact h.columns.imp fun _ _ hs => hs.1

/-- The conditions that a builder has been given, in whatever order with other requests, are their
conjunction. The program shows the columns that have been asked for. On a row of its type it fails
where the conjunction fails, drops the row where the conjunction is not true, and gives the columns,
evaluated in order, where it is. -/
theorem Demanded.run_conj (h : Demanded rt cs cols b) (hp : b.program = .ok p)
    (hc : Expr.conj? cs = some c) (hrow : row.conforms rt.types) :
    p.expandedColumns = .ok cols ∧
      (∀ err, c.eval row = .error err → p.run row = .error err) ∧
      (∀ v, c.eval row = .ok v → v ≠ .bool true → p.run row = .ok none) ∧
      (c.eval row = .ok (.bool true) →
        p.run row = (Expr.evalAll row (cols.map Prod.fst)).map some) := by
  obtain ⟨rfl, hnames, d, hd, hm⟩ := h.collects.means hp
  have hvalid : p.Valid := .of_check hp
  have heq := hd.eval_eq (hvalid.means_typed hm).condition hrow
  rw [hc, Option.map_some] at heq
  obtain ⟨d, rfl, hdc⟩ := Option.map_eq_some_iff.mp heq.symm
  have hlen : row.length = p.inputType.length := by
    rw [Row.length_of_conforms hrow, RowType.length_types]
  have hrun : p.run row = Expr.runAll row (some c) (cols.map Prod.fst) := by
    rw [hm.run_eq hvalid hlen, Expr.runAll_some, Expr.runAll_some, hdc]
  rw [Expr.runAll_some] at hrun
  refine ⟨?_, fun err herr => ?_, fun v hv hnot => ?_, fun htrue => ?_⟩
  · rw [hm.expandedColumns hvalid, hnames, ← List.zip_of_prod rfl rfl]
  · rw [hrun, herr]
    rfl
  · have hfalse : v.isTrue = false := by
      cases v with
      | bool b => simpa [Value.isTrue] using hnot
      | _ => rfl
    rw [hrun, hv, Except.ok_bind, hfalse]
    rfl
  · rw [hrun, htrue, Except.ok_bind, Value.isTrue, if_pos rfl]
    cases Expr.evalAll row (cols.map Prod.fst) <;> rfl

/-- The divisor is not zero. -/
def divisible : Expr := .binary (.input 1) .ne (.literal (.int 0))

/-- Shows all fields and a quotient, where the third condition is the entry that the first two have
been joined to, and the fourth one is demanded again. -/
def overlapping : Program where
  inputType := Program.ratios.inputType
  entries := [
    .input 0, .input 1, .literal (.int 0), .binary (.temp 1) .ne (.temp 2),
    .binary (.temp 0) .div (.temp 1), .literal (.int 1), .binary (.temp 4) .gt (.temp 5),
    .binary (.temp 3) .and (.temp 6), .binary (.temp 7) .and (.temp 3)]
  columns := [⟨0, "a"⟩, ⟨1, "b"⟩, ⟨4, "ratio"⟩]
  condition := some 8
  outputType := [⟨"a", .int⟩, ⟨"b", .int⟩, ⟨"ratio", .int⟩]

def overlappingConditions : List Expr :=
  [divisible, .binary Program.ratio .gt (.literal (.int 1)), Program.ratioCondition, divisible]

def overlappingColumns : List (Expr × String) :=
  [(.input 0, "a"), (.input 1, "b"), (Program.ratio, "ratio")]

theorem overlapping_demanded :
    ∃ b, Demanded Program.ratios.inputType overlappingConditions overlappingColumns b ∧
      b.program = .ok overlapping := by
  have hb : (do
      let b ← (Builder.keepFields { inputType := Program.ratios.inputType }).addCondition divisible
      let b ← (b.addExpr Program.ratio).2.addCondition
        (.binary Program.ratio .gt (.literal (.int 1)))
      let b ← (b.addColumnExpr Program.ratio "ratio").addCondition Program.ratioCondition
      let b ← b.addCondition divisible
      b.program) = .ok overlapping := rfl
  obtain ⟨b₁, h₁, hb⟩ := Except.bind_eq_ok_iff.mp hb
  obtain ⟨b₂, h₂, hb⟩ := Except.bind_eq_ok_iff.mp hb
  obtain ⟨b₃, h₃, hb⟩ := Except.bind_eq_ok_iff.mp hb
  obtain ⟨b₄, h₄, hb⟩ := Except.bind_eq_ok_iff.mp hb
  refine ⟨b₄, ?_, hb⟩
  have hd₁ := Demanded.new.keepFields.addCondition rfl h₁
  have hd₂ := (hd₁.addExpr rfl).addCondition rfl h₂
  exact ((hd₂.addColumnExpr rfl).addCondition rfl h₃).addCondition rfl h₄

/-- A row that passes, one that is spared the division, and one whose quotient is out of range. -/
theorem run_conj_overlapping :
    overlapping.run [.int 7, .int 2] = .ok (some [.int 7, .int 2, .int 3]) ∧
      overlapping.run [.int 7, .int 0] = .ok none ∧
      overlapping.run [.int Int64.minValue, .int (-1)] =
        .error (.evaluation (.value (.overflow .div))) := by
  obtain ⟨b, hb, hp⟩ := overlapping_demanded
  have h (row : Row) (hrow : row.conforms Program.ratios.inputType.types) :=
    hb.run_conj hp rfl hrow
  obtain ⟨-, -, -, hpass⟩ := h [.int 7, .int 2] rfl
  obtain ⟨-, -, hdrop, -⟩ := h [.int 7, .int 0] rfl
  obtain ⟨-, hfail, -⟩ := h [.int Int64.minValue, .int (-1)] rfl
  refine ⟨(hpass ?_).trans ?_, hdrop (.bool false) ?_ nofun, hfail _ ?_⟩
  all_goals decide +kernel

end Builder
end RelPlan
