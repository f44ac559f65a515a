import RelPlan.Proofs.Plan.Depth
import RelPlan.Proofs.Plan.History
import RelPlan.Proofs.Plan.Rows

/-! # Evaluation of built plans

In a well-formed plan the bound on the depth of evaluation is never met, and a node is evaluated from
its inputs (`Plan.WF.evaluate_eq`). In a well-typed plan over conforming tables the rows of a node
conform to its types, and nothing but arithmetic and missing tables fails
(`Plan.Good.evaluate_delivers`). -/

namespace RelPlan

/-! ## Typed rows -/

/-- Rows that conform to the types. -/
abbrev RowsConform (ts : List ScalarType) (rows : List Row) : Prop := ∀ row ∈ rows, row.conforms ts

/-- Rows that have so many fields. -/
abbrev RowsHaveWidth (width : Nat) (rows : List Row) : Prop := ∀ row ∈ rows, row.length = width

theorem RowsConform.haveWidth {rows : List Row} (h : RowsConform ts rows) :
    RowsHaveWidth ts.length rows := fun row hrow => Row.length_of_conforms (h row hrow)

/-- Rows that conform to the types, an arithmetic failure, or the lack of a table. -/
def Delivers (tables : Tables) (ts : List ScalarType) : Except ExecutionError (List Row) → Prop
  | .ok rows => RowsConform ts rows
  | .error (.program e) => e.isArithmetic
  | .error (.tableNotFound table) => tables table = none
  | .error (.plan _) => False

theorem Ends.delivers {tables : Tables} {r : Except ProgramError (List Row)}
    (h : Ends (RowsConform ts) r) : Delivers tables ts (r.mapError .program) := by
  cases r <;> exact h

theorem Delivers.bind {tables : Tables} {r : Except ExecutionError (List Row)}
    {f : List Row → Except ExecutionError (List Row)} (h : Delivers tables ts r)
    (hf : ∀ rows, RowsConform ts rows → Delivers tables us (f rows)) :
    Delivers tables us (r >>= f) := by
  cases r with
  | ok rows => exact hf rows h
  | error e => cases e <;> exact h

section
variable {rt : RowType} {rows : List Row} {row : Row} {c : Option Expr} {es : List Expr}
  {ts us : List ScalarType}

theorem Expr.passes_ends (hc : Program.ConditionTyped rt c) (hrow : row.conforms rt.types) :
    Ends (fun _ => True) (Expr.passes row.field c) := by
  cases c with
  | none => trivial
  | some c =>
    obtain ⟨t, ht, _⟩ := hc c rfl
    exact (Expr.eval_yields ht hrow).bind fun _ _ => trivial

theorem Expr.evalAll_ends
    (hes : Program.ColumnsTyped rt es ts)
    (hrow : row.conforms rt.types) : Ends (fun vs => vs.conforms ts) (Expr.evalAll row es) := by
  induction hes with
  | nil => rfl
  | cons hx _ ih =>
    rw [Expr.evalAll, List.mapM_cons_except]
    refine (Expr.eval_yields hx hrow).bind fun v hv => ih.bind ?_
    intro vs hvs
    rw [Row.conforms_iff] at hvs
    exact Row.conforms_iff.mpr (.cons hv hvs)

/-- A typed stage on rows of its input type. -/
theorem runRows_ends (hc : Program.ConditionTyped rt c)
    (hes : Program.ColumnsTyped rt es ts)
    (hrows : RowsConform rt.types rows) : Ends (RowsConform ts) (runRows c es rows) := by
  induction rows with
  | nil => exact fun _ h => nomatch h
  | cons row rows ih =>
    obtain ⟨hrow, hrows⟩ := List.forall_mem_cons.mp hrows
    have hrun : Ends (fun output => RowsConform ts output.toList) (Expr.runAll row c es) := by
      refine (Expr.passes_ends hc hrow).bind ?_
      intro b _
      cases b with
      | false => exact fun _ h => nomatch h
      | true => exact (Expr.evalAll_ends hes hrow).bind fun vs hvs =>
          List.forall_mem_singleton.mpr hvs
    exact hrun.bind fun output ho => (ih hrows).bind fun rest hrest =>
      List.forall_mem_append.mpr ⟨ho, hrest⟩

/-! ## Joins -/

theorem Row.conforms_append {l r : Row} (hl : l.conforms ts) (hr : r.conforms us) :
    Row.conforms (l ++ r) (ts ++ us) := by
  rw [Row.conforms_iff] at hl hr ⊢
  exact List.rel_append hl hr

theorem Row.conforms_nulls (ts : List ScalarType) :
    Row.conforms (List.replicate ts.length .null) ts := by
  rw [Row.conforms_iff]
  induction ts with
  | nil => exact .nil
  | cons t ts ih => exact .cons (Value.conforms_null t) ih

theorem joinRow_ends {l : Row} {right : List Row} (hc : Program.ConditionTyped rt c)
    (hrt : rt.types = ts ++ us) (hl : l.conforms ts) (hright : RowsConform us right) :
    Ends (RowsConform rt.types) (joinRow c l right) := by
  have hpairs : RowsConform rt.types (right.map (l ++ ·)) := by
    intro row hrow
    obtain ⟨r, hr, rfl⟩ := List.mem_map.mp hrow
    exact hrt ▸ Row.conforms_append hl (hright r hr)
  cases c with
  | none => exact hpairs
  | some c =>
    have hlen (row) (hrow : row ∈ right.map (l ++ ·)) : row.length = rt.length := by
      rw [Row.length_of_conforms (hpairs row hrow), RowType.length_types]
    rw [joinRow, filterRows_eq hlen]
    exact runRows_ends hc rt.refs_typed hpairs

theorem joinRows_ends {left right : List Row} (kind : JoinKind)
    (hc : Program.ConditionTyped rt c) (hrt : rt.types = ts ++ us) (hleft : RowsConform ts left)
    (hright : RowsConform us right) :
    Ends (RowsConform rt.types) (joinRows kind c us.length right left) := by
  induction left with
  | nil => exact fun _ h => nomatch h
  | cons l left ih =>
    obtain ⟨hl, hleft⟩ := List.forall_mem_cons.mp hleft
    refine (joinRow_ends hc hrt hl hright).bind ?_
    intro pairs hpairs
    refine (ih hleft).bind fun rest hrest => List.forall_mem_append.mpr ⟨?_, hrest⟩
    split
    · simpa using hrt ▸ Row.conforms_append hl (Row.conforms_nulls us)
    · exact hpairs

end

/-- The node runs this condition and these columns on the rows of one input. -/
inductive Node.Runs : Node → NodeId → Option Expr → List Expr → Prop where
  | filter {rt : RowType} : Runs (.filter i c rt) i (some c) rt.refs
  | project {rt : RowType} : Runs (.project i es rt) i none es
  | compute {program : Program} : program.Means c es → Runs (.compute i program) i c es

theorem Node.Runs.inputs_eq {n : Node} (h : n.Runs i c es) : n.inputs = [i] := by cases h <;> rfl

theorem Node.Runs.mem_inputs {n : Node} (h : n.Runs i c es) : i ∈ n.inputs := by simp [h.inputs_eq]

theorem Node.Runs.unique {n : Node} (h : n.Runs i c es) (h' : n.Runs j d ds) :
    i = j ∧ c = d ∧ es = ds := by
  cases h with
  | filter | project => cases h'; exact ⟨rfl, rfl, rfl⟩
  | compute hm => cases h' with | compute hm' => exact ⟨rfl, hm.unique hm'⟩

/-- Whether the node, if it is a scan, finds rows of its row type or no table at all. -/
def Node.readsConform (tables : Tables) : Node → Bool
  | .scan table rt => (tables table).all fun rows => rows.all (·.conforms rt.types)
  | _ => true

namespace Plan

/-- Rows of tables conform to the row types of the scans that read them. -/
def TablesConform (p : Plan) (tables : Tables) : Prop :=
  ∀ a table rt, p.node a = .ok (.scan table rt) → ∀ rows, tables table = some rows →
    RowsConform rt.types rows

variable {p : Plan} {tables : Tables} {a i : NodeId} {n : Node} {c : Option Expr} {es : List Expr}
  {ts : List ScalarType} {rows : List Row} {f g : NodeId → Except ExecutionError (List Row)}

theorem tablesConform_of_slots (h : p.slots.all fun slot => slot.node.readsConform tables) :
    p.TablesConform tables := by
  intro a table rt hn rows hrows row hrow
  obtain ⟨slot, hslot, hnode⟩ := Option.map_eq_some_iff.mp (rawNode_eq_ok_iff.mp hn)
  have hreads := List.all_eq_true.mp h slot (List.mem_of_getElem? hslot)
  rw [hnode, Node.readsConform, hrows, Option.all_some] at hreads
  exact List.all_eq_true.mp hreads row hrow

/-! ## Unrolling -/

theorem evaluateNode_congr (h : ∀ i ∈ n.inputs, f i = g i) :
    p.evaluateNode tables f n = p.evaluateNode tables g n := by
  cases n with
  | scan | values => rfl
  | filter i | project i | compute i =>
    simp only [evaluateNode, h i List.mem_cons_self]
  | join l r =>
    simp only [evaluateNode, h l List.mem_cons_self, h r (by simp [Node.inputs])]

private theorem plan_agrees {α : Type} {x y : Except PlanError α} (h : Agrees .cycleDetected x y) :
    Agrees (fun id => ExecutionError.plan (.cycleDetected id)) (x.mapError .plan)
      (y.mapError .plan) := by
  obtain ⟨rfl, h⟩ := h
  cases x with
  | ok a => exact .ok a
  | error e => exact .error fun id he => h id (by rw [ExecutionError.plan.inj he])

private theorem program_agrees {α : Type} (r : Except ProgramError α) :
    Agrees (fun id => ExecutionError.plan (.cycleDetected id)) (r.mapError .program)
      (r.mapError .program) := by
  cases r with
  | ok a => exact .ok a
  | error e => exact .error (by simp)

theorem evaluateNode_agrees
    (h : ∀ i ∈ n.inputs, Agrees (fun id => .plan (.cycleDetected id)) (f i) (g i)) :
    Agrees (fun id => .plan (.cycleDetected id)) (p.evaluateNode tables f n)
      (p.evaluateNode tables g n) := by
  cases n with
  | scan table rt =>
    simp only [evaluateNode, scanRows]
    split
    · exact .error (by simp)
    · split
      · exact .error (by simp)
      · exact .ok _
  | values => exact .ok _
  | filter i | project i | compute i =>
    exact (h i List.mem_cons_self).bind fun rows _ => program_agrees _
  | join l r =>
    refine (h l List.mem_cons_self).bind fun left _ => ?_
    refine (h r (by simp [Node.inputs])).bind fun right _ => ?_
    exact (plan_agrees (p.rowType_agrees r)).bind fun width _ => program_agrees _

theorem WF.evaluateWithin_agrees (h : p.WF) (hd : p.height a < d) (hd' : p.height a < d') :
    Agrees (fun id => .plan (.cycleDetected id)) (p.evaluateWithin tables d a)
      (p.evaluateWithin tables d' a) := by
  refine bounded_induction (P := fun d d' id => Agrees (fun id => .plan (.cycleDetected id))
    (p.evaluateWithin tables d id) (p.evaluateWithin tables d' id)) ?_ hd hd'
  intro d d' id ih
  refine (plan_agrees (p.node_agrees id)).bind fun n hn => ?_
  rw [Except.mapError_eq_ok_iff] at hn
  exact evaluateNode_agrees fun i hi => ih i (h.height_input_lt hn hi)

/-- A node is evaluated from the rows of its inputs. -/
theorem WF.evaluate_eq (h : p.WF) (hn : p.node a = .ok n) :
    p.evaluate tables a = p.evaluateNode tables (p.evaluate tables) n := by
  rw [evaluate, depth, evaluateWithin, hn]
  apply evaluateNode_congr
  intro i hi
  have hlt := h.height_input_lt hn hi
  have hle := p.height_le a
  exact (h.evaluateWithin_agrees (by omega) (Nat.lt_succ_of_le (p.height_le i))).1

/-! ## Stages -/

theorem NodeTyped.runs (h : p.NodeTyped n) (hr : n.Runs i c es) :
    ∃ rt, p.HasTypes i rt.types ∧ Program.ConditionTyped rt c ∧
      Program.ColumnsTyped rt es n.rowType.types := by
  cases hr with
  | filter =>
    cases h with
    | filter hi hc ht =>
      exact ⟨_, hi, Program.conditionTyped_some hc ht, RowType.refs_typed _⟩
  | project =>
    cases h with
    | project hi hes => exact ⟨_, hi, Program.conditionTyped_none, hes⟩
  | compute hm =>
    cases h with
    | compute hi hp =>
      have ht := hp.means_typed hm
      exact ⟨_, hi, ht.condition, ht.columns⟩

/-- A stage runs its condition and columns on the rows of its input, if these have its width. -/
theorem NodeTyped.evaluateNode_eq (h : p.NodeTyped n) (hr : n.Runs i c es)
    (hrows : ∀ ts rows, p.HasTypes i ts → f i = .ok rows → RowsHaveWidth ts.length rows) :
    p.evaluateNode tables f n =
      f i >>= fun rows => (runRows c es rows).mapError .program := by
  have hlength {rt : RowType} {rows : List Row} (hi : p.HasTypes i rt.types) (hf : f i = .ok rows) :
      RowsHaveWidth rt.length rows := RowType.length_types rt ▸ hrows _ rows hi hf
  cases hr with
  | filter =>
    cases h with
    | filter hi =>
      simp only [evaluateNode]
      cases hf : f i with
      | error => rfl
      | ok rows => rw [Except.ok_bind, Except.ok_bind, filterRows_eq (hlength hi hf)]
  | project =>
    simp only [evaluateNode, mapM_evalAll_eq]
  | compute hm =>
    cases h with
    | compute hi hp =>
      simp only [evaluateNode]
      cases hf : f i with
      | error => rfl
      | ok rows => rw [Except.ok_bind, Except.ok_bind, computeRows_eq hp hm (hlength hi hf)]

theorem scanRows_delivers {rt : RowType}
    (h : ∀ rows, tables table = some rows → RowsConform rt.types rows) :
    Delivers tables rt.types (scanRows tables table rt) := by
  unfold scanRows
  cases ht : tables table with
  | none => exact ht
  | some rows =>
    have hfind : rows.find? (·.length ≠ rt.length) = none := by
      rw [List.find?_eq_none]
      intro row hrow
      simpa using (Row.length_of_conforms (h rows ht row hrow)).trans rt.length_types
    simp only [hfind]
    exact h rows ht

/-- What a typed node gives on inputs that give their types. -/
theorem NodeTyped.delivers (h : p.NodeTyped n)
    (hscan : ∀ table rt, n = .scan table rt → ∀ rows, tables table = some rows →
      RowsConform rt.types rows)
    (hf : ∀ i ∈ n.inputs, ∀ ts, p.HasTypes i ts → Delivers tables ts (f i)) :
    Delivers tables n.rowType.types (p.evaluateNode tables f n) := by
  have hstage {i c es} (hi : i ∈ n.inputs) (hr : n.Runs i c es) :
      Delivers tables n.rowType.types (p.evaluateNode tables f n) := by
    obtain ⟨rt, hrt, hc, hes⟩ := h.runs hr
    rw [h.evaluateNode_eq hr fun ts rows hi' hfi => by
      have := hf i hi ts hi'
      rw [hfi] at this
      exact RowsConform.haveWidth this]
    exact (hf i hi _ hrt).bind fun rows hrows => (runRows_ends hc hes hrows).delivers
  cases h with
  | scan => exact scanRows_delivers (hscan _ _ rfl)
  | values hrows => exact hrows
  | filter => exact hstage List.mem_cons_self .filter
  | project => exact hstage List.mem_cons_self .project
  | compute _ hp =>
    obtain ⟨c, es, hm, _⟩ := hp.exists_means
    exact hstage List.mem_cons_self (.compute hm)
  | join hl hr hrt hc =>
    refine (hf _ List.mem_cons_self _ hl).bind ?_
    intro left hleft
    refine (hf _ (by simp [Node.inputs]) _ hr).bind ?_
    intro right hright
    obtain ⟨m, hm, rfl⟩ := hr
    have hwidth : p.rowType _ = .ok m.rowType := rowType_eq_ok_iff.mpr ⟨m, hm, rfl⟩
    rw [hwidth, Except.mapError_ok, Except.ok_bind, ← RowType.length_types]
    exact (joinRows_ends _ hc hrt hleft hright).delivers

theorem Good.evaluate_delivers (h : p.Good) (ht : p.TablesConform tables)
    (ha : p.HasTypes a ts) : Delivers tables ts (p.evaluate tables a) := by
  induction hk : p.height a using Nat.strongRecOn generalizing a ts with
  | ind k ih =>
    obtain ⟨n, hn, rfl⟩ := ha
    rw [h.wf.evaluate_eq hn]
    refine (h.node_typed hn).delivers ?_ fun i hi ts hts => ?_
    · rintro table rt rfl rows htable
      exact ht a table rt hn rows htable
    · exact ih _ (hk ▸ h.wf.height_input_lt hn hi) hts rfl

theorem Good.rows_conform (h : p.Good) (ht : p.TablesConform tables) (ha : p.HasTypes a ts)
    (hrows : p.evaluate tables a = .ok rows) : RowsConform ts rows := by
  have := h.evaluate_delivers ht ha
  rwa [hrows] at this

end Plan
end RelPlan
