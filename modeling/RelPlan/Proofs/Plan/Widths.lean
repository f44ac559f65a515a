import RelPlan.Proofs.Plan.Evaluation

/-! # Widths of rows

Rows of tables need not conform to the types that a scan declares, but they have to have as many
fields. From there on all nodes of a well-typed plan give rows of the width that they declare
(`Plan.Good.rows_width`), and this is all that a stage asks of its input
(`Plan.Good.evaluate_stage`). -/

namespace RelPlan

section
variable {c : Option Expr} {es : List Expr} {l row vs : Row} {rows left right out : List Row}
  {width width' : Nat}

theorem Expr.length_evalAll (h : Expr.evalAll row es = .ok vs) : vs.length = es.length :=
  (List.mapM_eq_ok_iff.mp h).length_eq.symm

/-- A stage gives as many fields as it has columns. -/
theorem runRows_width (h : runRows c es rows = .ok out) : RowsHaveWidth es.length out := by
  induction rows generalizing out with
  | nil =>
    obtain rfl := Except.ok.inj h
    exact List.forall_mem_nil _
  | cons row rows ih =>
    obtain ⟨output, houtput, h⟩ := Except.bind_eq_ok_iff.mp h
    obtain ⟨rest, hrest, h⟩ := Except.bind_eq_ok_iff.mp h
    obtain rfl := Except.ok.inj h
    refine List.forall_mem_append.mpr ⟨fun vs hvs => ?_, ih hrest⟩
    obtain rfl := Option.mem_toList.mp hvs
    exact Expr.length_evalAll (Expr.runAll_eq_some_iff.mp houtput).2

theorem filterRows_subset {c : Expr} (h : filterRows c rows = .ok out) : out ⊆ rows := by
  induction rows generalizing out with
  | nil =>
    obtain rfl := Except.ok.inj h
    exact List.Subset.refl _
  | cons row rows ih =>
    obtain ⟨passes, -, h⟩ := Except.bind_eq_ok_iff.mp h
    obtain ⟨rest, hrest, h⟩ := Except.bind_eq_ok_iff.mp h
    obtain rfl := Except.ok.inj h
    split
    · exact List.cons_subset_cons row (ih hrest)
    · exact List.subset_cons_of_subset row (ih hrest)

theorem joinRow_subset (h : joinRow c l right = .ok out) : out ⊆ right.map (l ++ ·) := by
  cases c with
  | none =>
    obtain rfl := Except.ok.inj h
    exact List.Subset.refl _
  | some c => exact filterRows_subset h

/-- A join gives the fields of both sides, also for a left row that has no partner. -/
theorem joinRows_width {kind : JoinKind} (hleft : RowsHaveWidth width left)
    (hright : RowsHaveWidth width' right) (h : joinRows kind c width' right left = .ok out) :
    RowsHaveWidth (width + width') out := by
  induction left generalizing out with
  | nil =>
    obtain rfl := Except.ok.inj h
    exact List.forall_mem_nil _
  | cons l left ih =>
    obtain ⟨hl, hleft⟩ := List.forall_mem_cons.mp hleft
    obtain ⟨pairs, hpairs, h⟩ := Except.bind_eq_ok_iff.mp h
    obtain ⟨rest, hrest, h⟩ := Except.bind_eq_ok_iff.mp h
    obtain rfl := Except.ok.inj h
    refine List.forall_mem_append.mpr ⟨?_, ih hleft hrest⟩
    split
    · simp [hl]
    · intro row hrow
      obtain ⟨r, hr, rfl⟩ := List.mem_map.mp (joinRow_subset hpairs hrow)
      simp [hl, hright r hr]

theorem scanRows_width {tables : Tables} {rt : RowType} (h : scanRows tables table rt = .ok rows) :
    RowsHaveWidth rt.length rows := by
  unfold scanRows at h
  split at h
  · cases h
  · split at h
    · cases h
    · rename_i hfind
      obtain rfl := Except.ok.inj h
      simpa [List.find?_eq_none] using hfind

end

namespace Plan

variable {p : Plan} {tables : Tables} {a i : NodeId} {n : Node} {c : Option Expr} {es : List Expr}
  {ts : List ScalarType} {rows : List Row} {f : NodeId → Except ExecutionError (List Row)}

/-- A typed node gives rows of its width if its inputs do. -/
theorem NodeTyped.rows_width (h : p.NodeTyped n)
    (hf : ∀ i ∈ n.inputs, ∀ ts rows, p.HasTypes i ts → f i = .ok rows →
      RowsHaveWidth ts.length rows)
    (hrows : p.evaluateNode tables f n = .ok rows) : RowsHaveWidth n.rowType.length rows := by
  have hstage {i c es} (hi : i ∈ n.inputs) (hr : n.Runs i c es) :
      RowsHaveWidth n.rowType.length rows := by
    obtain ⟨rt, -, -, hes⟩ := h.runs hr
    rw [h.evaluateNode_eq hr (hf i hi)] at hrows
    obtain ⟨input, -, hrows⟩ := Except.bind_eq_ok_iff.mp hrows
    rw [← RowType.length_types, ← hes.length_eq]
    exact runRows_width (Except.mapError_eq_ok_iff.mp hrows)
  cases h with
  | scan => exact scanRows_width hrows
  | values hvalues =>
    obtain rfl := Except.ok.inj hrows
    exact RowType.length_types _ ▸ RowsConform.haveWidth hvalues
  | filter => exact hstage List.mem_cons_self .filter
  | project => exact hstage List.mem_cons_self .project
  | compute _ hp =>
    obtain ⟨c, es, hm, _⟩ := hp.exists_means
    exact hstage List.mem_cons_self (.compute hm)
  | join hl hr hrt _ =>
    obtain ⟨left, hleft, hrows⟩ := Except.bind_eq_ok_iff.mp hrows
    obtain ⟨right, hright, hrows⟩ := Except.bind_eq_ok_iff.mp hrows
    obtain ⟨rt, hwidth, hrows⟩ := Except.bind_eq_ok_iff.mp hrows
    have hus := hr.unique (hasTypes_of_rowType (Except.mapError_eq_ok_iff.mp hwidth))
    have hleft := hf _ List.mem_cons_self _ _ hl hleft
    have hright := hf _ (by simp [Node.inputs]) _ _ hr hright
    rw [hus, RowType.length_types] at hright
    rw [Node.rowType, ← RowType.length_types, hrt, List.length_append, hus, RowType.length_types]
    exact joinRows_width hleft hright (Except.mapError_eq_ok_iff.mp hrows)

/-- The rows of a node have the width of its row type, whatever the rows of the tables hold. -/
theorem Good.rows_width (h : p.Good) (ha : p.HasTypes a ts) (hrows : p.evaluate tables a = .ok rows) :
    RowsHaveWidth ts.length rows := by
  induction hk : p.height a using Nat.strongRecOn generalizing a ts rows with
  | ind k ih =>
    obtain ⟨n, hn, rfl⟩ := ha
    rw [h.wf.evaluate_eq hn] at hrows
    rw [RowType.length_types]
    refine (h.node_typed hn).rows_width (fun i hi ts rows hts hrows => ?_) hrows
    exact ih _ (hk ▸ h.wf.height_input_lt hn hi) hts hrows rfl

/-- A stage runs its condition and its columns on the rows of its input, and fails where they do. -/
theorem Good.evaluate_stage (h : p.Good) (hn : p.node a = .ok n) (hr : n.Runs i c es) :
    p.evaluate tables a =
      p.evaluate tables i >>= fun rows => (runRows c es rows).mapError .program := by
  rw [h.wf.evaluate_eq hn]
  exact (h.node_typed hn).evaluateNode_eq hr fun ts rows hi hrows => h.rows_width hi hrows

end Plan
end RelPlan
