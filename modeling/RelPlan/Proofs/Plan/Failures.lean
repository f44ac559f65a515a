import RelPlan.Proofs.Expr.Failures
import RelPlan.Proofs.Plan.Evaluation
import RelPlan.Proofs.Plan.Traversal

/-! # Failures of plans

What fails on rows fails in an expression that some node, the root or one that it computes with,
evaluates on a row (`Plan.Good.exists_evaluates_of_error`). In a well-typed plan over conforming
tables such an expression is well-typed and the row has its types, so that the failure is one of an
operator on two integers (`Plan.Good.failsOnInts_of_error`). -/

namespace RelPlan

section
variable {c : Option Expr} {es : List Expr} {row : Row} {rows : List Row} {err : ProgramError}

/-! ## Rows -/

theorem Expr.exists_of_passes_error (h : Expr.passes row.field c = .error err) :
    ∃ u, c = some u ∧ u.eval row = .error err := by
  cases c with
  | none => cases h
  | some u =>
    obtain hu | ⟨_, _, h⟩ := Except.bind_eq_error_iff.mp h
    · exact ⟨u, rfl, hu⟩
    · cases h

/-- A stage fails on a row in its condition, or in a column if the row passes. -/
theorem Expr.exists_of_runAll_error (h : Expr.runAll row c es = .error err) :
    (∃ u, c = some u ∧ u.eval row = .error err) ∨
      Expr.passes row.field c = .ok true ∧ ∃ u ∈ es, u.eval row = .error err := by
  obtain hc | ⟨b, hb, h⟩ := Except.bind_eq_error_iff.mp h
  · exact .inl (Expr.exists_of_passes_error hc)
  cases b with
  | false => cases h
  | true =>
    obtain hes | ⟨_, _, h⟩ := Except.bind_eq_error_iff.mp h
    · exact .inr ⟨hb, List.exists_of_elementwise_error (f := Expr.evalAll row) rfl
        (List.mapM_cons_except _) hes⟩
    · cases h

theorem exists_of_runRows_error (h : runRows c es rows = .error err) :
    ∃ row ∈ rows, Expr.runAll row c es = .error err :=
  List.exists_of_elementwise_error (f := runRows c es) rfl (fun _ _ => rfl) h

/-- A join fails in its condition, on a left row beside a right one. -/
theorem exists_of_joinRows_error {left right : List Row}
    (h : joinRows kind c width right left = .error err) :
    ∃ l ∈ left, ∃ r ∈ right, ∃ u, c = some u ∧ u.eval (l ++ r) = .error err := by
  obtain ⟨l, hl, h⟩ := List.exists_of_elementwise_error
    (f := joinRows kind c width right) rfl (fun _ _ => rfl) h
  cases c with
  | none => cases h
  | some u =>
    obtain ⟨row, hrow, h⟩ := List.exists_of_elementwise_error
      (f := filterRows u) rfl (fun _ _ => rfl) h
    obtain ⟨r, hr, rfl⟩ := List.mem_map.mp hrow
    obtain ⟨_, ⟨⟩, hu⟩ := Expr.exists_of_passes_error (c := some u) h
    exact ⟨l, hl, r, hr, u, rfl, hu⟩

end

/-! ## Nodes -/

namespace Plan

open Relation

/-- Evaluating the node evaluates the expression on the row: its condition on a row of its input or
on a pair of rows, or a column on a row on which the condition is true. -/
inductive Evaluates (p : Plan) (tables : Tables) (a : NodeId) : Expr → Row → Prop where
  | condition {n : Node} {i : NodeId} {u : Expr} {es : List Expr} {rows : List Row} {row : Row} :
      p.node a = .ok n → n.Runs i (some u) es → p.evaluate tables i = .ok rows → row ∈ rows →
      Evaluates p tables a u row
  | column {n : Node} {i : NodeId} {c : Option Expr} {u : Expr} {es : List Expr} {rows : List Row}
      {row : Row} : p.node a = .ok n → n.Runs i c es → p.evaluate tables i = .ok rows → row ∈ rows →
      Expr.passes row.field c = .ok true → u ∈ es → Evaluates p tables a u row
  | pair {left right : NodeId} {kind : JoinKind} {u : Expr} {rt : RowType} {ls rs : List Row}
      {l r : Row} : p.node a = .ok (.join left right kind (some u) rt) →
      p.evaluate tables left = .ok ls → p.evaluate tables right = .ok rs → l ∈ ls → r ∈ rs →
      Evaluates p tables a u (l ++ r)

/-- Below the id an expression is evaluated on a row and comes to an operator whose operands have
integers as values, on which it fails. -/
def FailsOnInts (p : Plan) (tables : Tables) (root : NodeId) (cause : ValueError) : Prop :=
  ∃ a u row, ReflTransGen p.Child (p.resolve root) a ∧ p.Evaluates tables a u row ∧
    u.FailsOnRow row cause

variable {p : Plan} {tables : Tables} {a i : NodeId} {n : Node} {u : Expr} {row : Row}
  {c : Option Expr} {es : List Expr} {err : ProgramError}

theorem Evaluates.congr (hab : p.node a = p.node b) (h : p.Evaluates tables a u row) :
    p.Evaluates tables b u row := by
  cases h with
  | condition hn hr hrows hrow => exact .condition (hab ▸ hn) hr hrows hrow
  | column hn hr hrows hrow hpass hmem => exact .column (hab ▸ hn) hr hrows hrow hpass hmem
  | pair hn hls hrs hl hr => exact .pair (hab ▸ hn) hls hrs hl hr

theorem Good.error_of_stage (h : p.Good) (ht : p.TablesConform tables) (hn : p.node a = .ok n)
    (hr : n.Runs i c es) (herr : p.evaluate tables a = .error (.program err)) :
    p.evaluate tables i = .error (.program err) ∨
      ∃ u row, p.Evaluates tables a u row ∧ u.eval row = .error err := by
  have hwidth ts rows (hi : p.HasTypes i ts) (hrows : p.evaluate tables i = .ok rows) :
      RowsHaveWidth ts.length rows := (h.rows_conform ht hi hrows).haveWidth
  rw [h.wf.evaluate_eq hn, (h.node_typed hn).evaluateNode_eq hr hwidth] at herr
  obtain hi | ⟨rows, hrows, herr⟩ := Except.bind_eq_error_iff.mp herr
  · exact .inl hi
  obtain ⟨_, hrun, ⟨⟩⟩ := Except.mapError_eq_error_iff.mp herr
  obtain ⟨row, hrow, hrun⟩ := exists_of_runRows_error hrun
  obtain ⟨u, rfl, hu⟩ | ⟨hpass, u, hmem, hu⟩ := Expr.exists_of_runAll_error hrun
  · exact .inr ⟨u, row, .condition hn hr hrows hrow, hu⟩
  · exact .inr ⟨u, row, .column hn hr hrows hrow hpass hmem, hu⟩

theorem Good.error_of_join {left right : NodeId} {kind : JoinKind} {rt : RowType} (h : p.Good)
    (hn : p.node a = .ok (.join left right kind c rt))
    (herr : p.evaluate tables a = .error (.program err)) :
    p.evaluate tables left = .error (.program err) ∨
      p.evaluate tables right = .error (.program err) ∨
        ∃ u row, p.Evaluates tables a u row ∧ u.eval row = .error err := by
  rw [h.wf.evaluate_eq hn] at herr
  obtain hl | ⟨ls, hls, herr⟩ := Except.bind_eq_error_iff.mp herr
  · exact .inl hl
  obtain hr | ⟨rs, hrs, herr⟩ := Except.bind_eq_error_iff.mp herr
  · exact .inr (.inl hr)
  obtain hwidth | ⟨width, -, herr⟩ := Except.bind_eq_error_iff.mp herr
  · obtain ⟨_, _, ⟨⟩⟩ := Except.mapError_eq_error_iff.mp hwidth
  obtain ⟨_, hjoin, ⟨⟩⟩ := Except.mapError_eq_error_iff.mp herr
  obtain ⟨l, hl, r, hr, u, rfl, hu⟩ := exists_of_joinRows_error hjoin
  exact .inr (.inr ⟨u, l ++ r, .pair hn hls hrs hl hr, hu⟩)

/-- An input fails, or an expression of the node itself. -/
theorem Good.error_of_evaluate (h : p.Good) (ht : p.TablesConform tables) (hn : p.node a = .ok n)
    (herr : p.evaluate tables a = .error (.program err)) :
    (∃ i ∈ n.inputs, p.evaluate tables i = .error (.program err)) ∨
      ∃ u row, p.Evaluates tables a u row ∧ u.eval row = .error err := by
  have hstage {i c es} (hr : n.Runs i c es) :
      (∃ i ∈ n.inputs, p.evaluate tables i = .error (.program err)) ∨
        ∃ u row, p.Evaluates tables a u row ∧ u.eval row = .error err :=
    (h.error_of_stage ht hn hr herr).imp_left fun hi => ⟨i, hr.mem_inputs, hi⟩
  cases n with
  | scan table rt =>
    rw [h.wf.evaluate_eq hn] at herr
    simp only [evaluateNode, scanRows] at herr
    split at herr
    · cases herr
    · split at herr <;> cases herr
  | values =>
    rw [h.wf.evaluate_eq hn] at herr
    cases herr
  | filter => exact hstage .filter
  | project => exact hstage .project
  | compute i program =>
    cases h.node_typed hn with
    | compute _ hp =>
      obtain ⟨c, es, hm, -⟩ := hp.exists_means
      exact hstage (.compute hm)
  | join left right kind c rt =>
    obtain hl | hr | hown := h.error_of_join hn herr
    · exact .inl ⟨left, List.mem_cons_self, hl⟩
    · exact .inl ⟨right, by simp [Node.inputs], hr⟩
    · exact .inr hown

/-- What a node evaluates is typed over the row that it is evaluated on. -/
theorem Evaluates.typed (he : p.Evaluates tables a u row) (h : p.Good)
    (ht : p.TablesConform tables) :
    ∃ rt t, u.type rt [] = .ok t ∧ row.conforms rt.types := by
  cases he with
  | condition hn hr hrows hrow =>
    obtain ⟨rt, hi, hc, -⟩ := (h.node_typed hn).runs hr
    obtain ⟨t, htype, -⟩ := hc u rfl
    exact ⟨rt, t, htype, h.rows_conform ht hi hrows _ hrow⟩
  | column hn hr hrows hrow _ hmem =>
    obtain ⟨rt, hi, -, hes⟩ := (h.node_typed hn).runs hr
    obtain ⟨t, -, htype⟩ := List.Forall₂.exists_of_mem_left hes hmem
    exact ⟨rt, t, htype, h.rows_conform ht hi hrows _ hrow⟩
  | pair hn hls hrs hl hr =>
    cases h.node_typed hn with
    | join hleft hright hrt hc =>
      obtain ⟨t, htype, -⟩ := hc u rfl
      refine ⟨_, t, htype, ?_⟩
      rw [hrt]
      exact Row.conforms_append (h.rows_conform ht hleft hls _ hl)
        (h.rows_conform ht hright hrs _ hr)

/-! ## Plans -/

/-- What fails below an id fails in an expression that a node evaluates on a row. -/
theorem Good.exists_evaluates_of_error (h : p.Good) (ht : p.TablesConform tables)
    (ha : a < p.size) (herr : p.evaluate tables a = .error (.program err)) :
    ∃ b u row, ReflTransGen p.Child (p.resolve a) b ∧ p.Evaluates tables b u row ∧
      u.eval row = .error err := by
  induction hk : p.height a using Nat.strongRecOn generalizing a with
  | ind k ih =>
    obtain ⟨n, hn⟩ := h.wf.exists_node ha
    have hn' : p.node (p.resolve a) = .ok n := (h.wf.node_resolve a).trans hn
    obtain ⟨i, hi, hfail⟩ | ⟨u, row, he, hu⟩ := h.error_of_evaluate ht hn herr
    · obtain ⟨b, u, row, hb, he, hu⟩ :=
        ih _ (hk ▸ h.wf.height_input_lt hn hi) (h.wf.input_lt hn hi) hfail rfl
      exact ⟨b, u, row, .head (.intro hn' hi) hb, he, hu⟩
    · exact ⟨p.resolve a, u, row, .refl, he.congr (hn.trans hn'.symm), hu⟩

/-- In a well-typed plan over conforming tables nothing fails but operators on integers. -/
theorem Good.failsOnInts_of_error (h : p.Good) (ht : p.TablesConform tables) (ha : a < p.size)
    (herr : p.evaluate tables a = .error (.program err)) :
    ∃ cause, err = .evaluation (.value cause) ∧ p.FailsOnInts tables a cause := by
  obtain ⟨b, u, row, hb, he, hu⟩ := h.exists_evaluates_of_error ht ha herr
  obtain ⟨rt, t, htype, hrow⟩ := he.typed h ht
  obtain ⟨cause, hcause, hfails⟩ := (Expr.eval_eq_error_iff htype hrow).mp hu
  exact ⟨cause, hcause, b, u, row, hb, he, hfails⟩

end Plan
end RelPlan
