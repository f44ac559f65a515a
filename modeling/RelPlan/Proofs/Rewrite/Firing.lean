import RelPlan.Proofs.Rewrite.Step

/-! # Firing rules

On a built plan no rule for compute nodes fails. Each of them proposes a rewriting step exactly where
its pattern binds, or, for removals, where the compute node changes nothing (`Rule.Reacts`). -/

namespace RelPlan

/-- The node and the first of its inputs have kinds that these tests admit. -/
def Plan.Over (p : Plan) (test test' : KindTest) (o : NodeId) : Prop :=
  ∃ n i rest m, p.node o = .ok n ∧ test.admits n.kind ∧ n.inputs = i :: rest ∧
    p.node i = .ok m ∧ test'.admits m.kind

/-- The node is a compute node that changes neither rows nor names. -/
def Plan.Removable (p : Plan) (o : NodeId) : Prop :=
  ∃ i program, p.node o = .ok (.compute i program) ∧ program.isTrivial ∧
    p.rowType i = .ok program.outputType

/-- The rule never fails, and proposes a rewriting step exactly at these nodes. -/
def Rule.Reacts (rule : Rule) (At : Plan → NodeId → Prop) : Prop :=
  ∀ p o, p.Good → o < p.size → p.forward? o = none →
    At p o ∧ (∃ r, (rule.fire p o).result = .ok (.replaced o r) ∧ Rewrites p o r) ∨
      ¬ At p o ∧ (rule.fire p o).result = .ok .declined

variable {p : Plan} {o i j : NodeId} {n m : Node} {test test' : KindTest} {name : String}

/-! ## Binding -/

theorem Pattern.bind_over (test test' : KindTest) (hf : p.forward? o = none)
    (hn : p.node o = .ok n) {mt : Match} :
    (Pattern.node test [.leaf test']).bind p o = some mt ↔
      ∃ i rest m, test.admits n.kind ∧ n.inputs = i :: rest ∧ p.node (p.resolve i) = .ok m ∧
        test'.admits m.kind ∧ mt = ⟨o, [p.resolve i]⟩ := by
  rw [Pattern.bind, Plan.resolve_of_forward?_eq_none hf]
  simp only [bindBelow, hn, Pattern.leaf]
  by_cases ht : test.admits n.kind
  · cases hin : n.inputs with
    | nil => simp [bindInputs, ht]
    | cons i rest =>
      cases hm : p.node (p.resolve i) with
      | error e => simp [bindInputs, bindBelow, ht, hm]
      | ok m =>
        by_cases ht' : test'.admits m.kind
        · simp [bindInputs, bindBelow, ht, hm, ht']
          exact eq_comm
        · simp [bindInputs, bindBelow, ht, hm, ht']
  · simp [ht]

theorem Pattern.bind_leaf (test : KindTest) (hf : p.forward? o = none) (hn : p.node o = .ok n) :
    (Pattern.leaf test).bind p o = if test.admits n.kind then some ⟨o, []⟩ else none := by
  rw [Pattern.bind, Plan.resolve_of_forward?_eq_none hf]
  simp only [Pattern.leaf, bindBelow, hn, bindInputs]
  split <;> rfl

theorem KindTest.mem_kinds {test : KindTest} {k : NodeKind} : k ∈ test.kinds ↔ test.admits k := by
  rw [kinds, List.mem_filter]
  exact and_iff_right (by cases k <;> decide)

/-- A pattern does not bind at a node of a kind that it does not admit. -/
theorem Pattern.bind_of_not_admits {pattern : Pattern} (hn : p.node (p.resolve o) = .ok n)
    (hkind : pattern.test.admits n.kind = false) : pattern.bind p o = none := by
  cases pattern with
  | node test inputs =>
    rw [Pattern.test] at hkind
    rw [bind, bindBelow, hn]
    simp [hkind]

theorem Pattern.mem_rootKinds {pattern : Pattern} {k : NodeKind} (hany : pattern.test ≠ .any) :
    k ∈ pattern.rootKinds ↔ pattern.test.admits k := by
  have hroot : pattern.rootKinds = pattern.test.kinds := by
    unfold rootKinds
    split
    · exact absurd ‹_› hany
    · rfl
  rw [hroot, KindTest.mem_kinds]

/-- Nodes of other kinds need not be tried. -/
theorem Pattern.bind_eq_none {pattern : Pattern} (h : p.WF) (hn : p.node o = .ok n)
    (hany : pattern.test ≠ .any) (hkind : n.kind ∉ pattern.rootKinds) :
    pattern.bind p o = none := by
  refine bind_of_not_admits ((h.node_resolve o).trans hn) ?_
  rwa [mem_rootKinds hany, Bool.not_eq_true] at hkind

/-! ## Calls -/

namespace Call

variable {c : Call} {program : Program}

theorem node_zero (hn : p.node o = .ok n) : Call.node ⟨p, name, ⟨o, below⟩, none⟩ 0 = .ok n := by
  simp [Call.node, nodeId, Match.nodes, hn]

theorem node_one (hm : p.node i = .ok m) : Call.node ⟨p, name, ⟨o, [i]⟩, none⟩ 1 = .ok m := by
  simp [Call.node, nodeId, Match.nodes, hm]

theorem nodeId_one : Call.nodeId ⟨p, name, ⟨o, [i]⟩, none⟩ 1 = .ok i := rfl

theorem builder_one (hm : p.node i = .ok m) :
    Call.builder ⟨p, name, ⟨o, [i]⟩, none⟩ 1 = .ok { inputType := m.rowType } := by
  simp [builder, node_one hm]

theorem checkProposal_eq {rt : RowType} (hc : c.proposal = none)
    (hroot : c.plan.HasTypes c.root rt.types) : c.checkProposal rt = .ok () := by
  obtain ⟨n, hn, hts⟩ := hroot
  simp [checkProposal, isTransformed, hc, Call.rowType, Plan.rowType, hn, RowType.sameShape, hts]

/-- Proposing to run a program that fits. -/
theorem proposeCompute_eq (hc : c.proposal = none)
    (hroot : c.plan.HasTypes c.root program.outputType.types)
    (hin : c.plan.HasTypes i program.inputType.types) : c.proposeCompute i program =
      .ok { c with proposal := some (.new (.compute i program)) } := by
  have hlt := hin.lt_size
  obtain ⟨n, hn, hts⟩ := hin
  have hnew : c.plan.newCompute i program = .ok (.compute i program) := by
    simp [Plan.newCompute, Plan.rowType, hn, RowType.sameShape, hts]
  rw [proposeCompute, hnew]
  simp only [Except.mapError_ok, Except.ok_bind, proposeNew]
  rw [show Node.rowType (.compute i program) = program.outputType from rfl,
    checkProposal_eq hc hroot]
  simp [Node.inputs, Plan.contains, hlt]

/-- Proposing a node of the same row type. -/
theorem proposeExisting_eq {rt : RowType} (hc : c.proposal = none)
    (hroot : c.plan.rowType c.root = .ok rt) (hid : c.plan.rowType i = .ok rt) :
    c.proposeExisting i = .ok { c with proposal := some (.existing i) } := by
  simp [proposeExisting, Call.rowType, hroot, hid,
    checkProposal_eq hc (Plan.hasTypes_of_rowType hroot)]

end Call

section
variable {below : List NodeId} {c : Expr} {es : List Expr} {rt : RowType} {cond : Option Expr}

theorem Plan.Good.input_types (h : p.Good) (hi : p.HasTypes i ts)
    (hm : p.node (p.resolve i) = .ok m) : ts = m.rowType.types :=
  hi.unique ⟨m, (h.wf.node_resolve i).symm.trans hm, rfl⟩

/-- The program of a filter runs on its input as the filter does. -/
theorem Call.filterProgram_eq (h : p.Good) (hn : p.node o = .ok (.filter i c rt))
    (hm : p.node (p.resolve i) = .ok m) :
    ∃ program,
      (∀ name, Call.filterProgram ⟨p, name, ⟨o, [p.resolve i]⟩, none⟩ c = .ok program) ∧
      program.Valid ∧ program.Means (some c) rt.refs ∧ program.inputType = m.rowType ∧
      program.outputType = m.rowType ∧ program.outputType.types = rt.types := by
  cases h.node_typed hn with
  | filter hi hc ht =>
    have htypes := h.input_types hi hm
    obtain ⟨program, hp, hv, hin, hout, hmeans⟩ :=
      Program.exists_ofFilter (Expr.type_of_types_eq hc htypes) ht
    refine ⟨program, fun name => ?_, hv, RowType.refs_congr htypes ▸ hmeans, hin, hout,
      by rw [hout, htypes]⟩
    simp [Call.filterProgram, Call.builder_one hm, hp]

/-- The program of a projection runs on its input as the projection does. -/
theorem Call.projectProgram_eq (h : p.Good) (hn : p.node o = .ok (.project i es rt))
    (hm : p.node (p.resolve i) = .ok m) :
    ∃ program,
      (∀ name, Call.projectProgram ⟨p, name, ⟨o, [p.resolve i]⟩, none⟩ es rt.names =
        .ok program) ∧
      program.Valid ∧ program.Means none es ∧ program.inputType = m.rowType ∧
      program.outputType = rt := by
  cases h.node_typed hn with
  | project hi hes =>
    have htypes := h.input_types hi hm
    obtain ⟨program, hp, hv, hin, hout, hmeans⟩ := Program.exists_ofProject
      (show Program.ColumnsTyped m.rowType _ _ from
        hes.imp fun _ _ he => Expr.type_of_types_eq he htypes)
    refine ⟨program, fun name => ?_, hv, hmeans, hin, hout⟩
    simp [Call.projectProgram, Call.builder_one hm, hp]

/-- Proposing a compute node in place of a filter or a projection. -/
theorem Call.convert_eq {program : Program} (h : p.Good) (hn : p.node o = .ok n)
    (hkind : n.kind ≠ .compute) (hr : n.Runs i cond es) (hm : p.node (p.resolve i) = .ok m)
    (hbase : m.kind.isBase) (hv : program.Valid) (hmeans : program.Means cond es)
    (hin : program.inputType = m.rowType) (hout : program.outputType.types = n.rowType.types)
    (hfields : program.outputType = n.fieldsOver m.rowType) :
    ∃ r, (∀ name, Call.proposeCompute ⟨p, name, ⟨o, [p.resolve i]⟩, none⟩ (p.resolve i) program =
      .ok ⟨p, name, ⟨o, [p.resolve i]⟩, some r⟩) ∧ Rewrites p o r := by
  refine ⟨_, fun name => Call.proposeCompute_eq rfl ⟨n, hn, hout.symm⟩ ⟨m, hm, by rw [hin]⟩, ?_⟩
  exact .convert hn hkind hr ((h.wf.node_resolve i).symm.trans hm) hbase hv hmeans (by rw [hin])
    hout hfields

/-- Proposing to merge a stage into the compute node below it. -/
theorem Call.merge_eq {upper lower : Program} (h : p.Good)
    (hn : p.node o = .ok n) (hr : n.Runs i cond es)
    (hm : p.node (p.resolve i) = .ok (.compute j lower)) (hv : upper.Valid)
    (hmeans : upper.Means cond es) (hin : upper.inputType.types = lower.outputType.types)
    (hout : upper.outputType.types = n.rowType.types)
    (hfields : upper.outputType = n.fieldsOver lower.outputType) :
    ∃ r, (∀ name record,
      (Call.proposeMerged ⟨p, name, ⟨o, [p.resolve i]⟩, none⟩ upper j lower record).result =
        .ok ⟨p, name, ⟨o, [p.resolve i]⟩, some r⟩) ∧ Rewrites p o r := by
  cases h.node_typed hm with
  | compute hj hlv =>
    obtain ⟨lc, ls, hl, _⟩ := hlv.exists_means
    obtain ⟨merged, c, hmerge, hmv, hmi, hmo, hc, hmm⟩ :=
      Program.exists_merge hv hlv (decide_eq_true hin) hmeans hl
    have hpropose (name) := Call.proposeCompute_eq (c := ⟨p, name, ⟨o, [p.resolve i]⟩, none⟩)
      (i := p.resolve j) rfl ⟨n, hn, by rw [hmo, hout]⟩
      (by rw [hmi]; exact h.wf.hasTypes_resolve.mpr hj)
    refine ⟨.new (.compute (p.resolve j) merged), fun name record => ?_, ?_⟩
    · simp only [Call.proposeMerged, hmerge, Except.mapError_ok, Traced.result_bind,
        Traced.result_lift, Except.ok_bind, Traced.result_note, hpropose]
    · exact .merge hn hr ((h.wf.node_resolve i).symm.trans hm) hl hmv hmi (by rw [hmo, hout]) hc hmm
        (hmo.trans hfields)

end

/-! ## Rules over one input -/

namespace Rule

variable {rule : Rule}

/-- A rule with a pattern for a node and its input reacts if it proposes a step at each match. -/
theorem reacts_over (hpattern : rule.pattern = .node test [.leaf test'])
    (hreact : ∀ p o n i rest m, p.Good → p.forward? o = none → p.node o = .ok n →
      n.inputs = i :: rest → p.node (p.resolve i) = .ok m → test.admits n.kind →
      test'.admits m.kind → ∃ r, (rule.react ⟨p, rule.name, ⟨o, [p.resolve i]⟩, none⟩).result =
        .ok ⟨p, rule.name, ⟨o, [p.resolve i]⟩, some r⟩ ∧ Rewrites p o r) :
    rule.Reacts (·.Over test test') := by
  intro p o h hlt hf
  obtain ⟨n, hn⟩ := h.wf.exists_node hlt
  cases hb : rule.pattern.bind p o with
  | none =>
    refine .inr ⟨?_, by simp [fire, hb]⟩
    rintro ⟨n', i, rest, m, hn', ht, hin, hm, ht'⟩
    obtain rfl := Except.ok.inj (hn.symm.trans hn')
    have := (Pattern.bind_over test test' hf hn).mpr
      ⟨i, rest, m, ht, hin, (h.wf.node_resolve i).trans hm, ht', rfl⟩
    rw [← hpattern, hb] at this
    cases this
  | some mt =>
    rw [hpattern] at hb
    obtain ⟨i, rest, m, ht, hin, hm, ht', rfl⟩ := (Pattern.bind_over _ _ hf hn).mp hb
    obtain ⟨r, hr, hrew⟩ := hreact p o n i rest m h hf hn hin hm ht ht'
    refine .inl ⟨⟨n, i, rest, m, hn, ht, hin, (h.wf.node_resolve i).symm.trans hm, ht'⟩,
      r, ?_, hrew⟩
    rw [fire, hpattern, hb]
    simp only [fireMatched, Traced.result_bind, hr, Except.ok_bind, Traced.result_pure]
    rfl

/-! ## The rules -/

theorem filterToCompute_reacts :
    filterToCompute.Reacts (·.Over (.single .filter) (.except [.filter, .project, .compute])) := by
  apply reacts_over rfl
  intro p o n i rest m h _ hn hin hm hkind hbase
  cases n with
  | filter _ c rt =>
    obtain ⟨rfl, rfl⟩ := List.cons.inj hin
    obtain ⟨program, hp, hv, hmeans, hpi, hpo, hpt⟩ := Call.filterProgram_eq h hn hm
    obtain ⟨r, hpropose, hr⟩ := Call.convert_eq h hn nofun .filter hm hbase hv hmeans hpi hpt hpo
    refine ⟨r, ?_, hr⟩
    simp only [filterToCompute, Traced.result_bind, Traced.result_lift, Call.node_zero hn,
      Except.ok_bind, Call.nodeId_one, hp, Traced.result_note]
    exact hpropose _
  | _ => simp [KindTest.admits, Node.kind] at hkind

theorem projectToCompute_reacts : projectToCompute.Reacts
    (·.Over (.single .project) (.except [.filter, .project, .compute])) := by
  apply reacts_over rfl
  intro p o n i rest m h _ hn hin hm hkind hbase
  cases n with
  | project _ es rt =>
    obtain ⟨rfl, rfl⟩ := List.cons.inj hin
    obtain ⟨program, hp, hv, hmeans, hpi, hpo⟩ := Call.projectProgram_eq h hn hm
    obtain ⟨r, hpropose, hr⟩ :=
      Call.convert_eq h hn nofun .project hm hbase hv hmeans hpi (by rw [hpo]; rfl) hpo
    refine ⟨r, ?_, hr⟩
    simp only [projectToCompute, Traced.result_bind, Traced.result_lift, Call.node_zero hn,
      Except.ok_bind, Call.nodeId_one, hp, Traced.result_note]
    exact hpropose _
  | _ => simp [KindTest.admits, Node.kind] at hkind

theorem mergeFilter_reacts :
    mergeFilter.Reacts (·.Over (.single .filter) (.single .compute)) := by
  apply reacts_over rfl
  intro p o n i rest m h _ hn hin hm hkind hkind'
  cases n with
  | filter _ c rt =>
    cases m with
    | compute j lower =>
      obtain ⟨rfl, rfl⟩ := List.cons.inj hin
      obtain ⟨upper, hp, hv, hmeans, hpi, hpo, hpt⟩ := Call.filterProgram_eq h hn hm
      obtain ⟨r, hpropose, hr⟩ :=
        Call.merge_eq h hn .filter hm hv hmeans (by rw [hpi]; rfl) hpt hpo
      refine ⟨r, ?_, hr⟩
      simp only [mergeFilter, Traced.result_bind, Traced.result_lift, Call.node_zero hn,
        Except.ok_bind, Call.node_one hm, Call.nodeId_one, hp]
      exact hpropose _ _
    | _ => simp [KindTest.admits, Node.kind] at hkind'
  | _ => simp [KindTest.admits, Node.kind] at hkind

theorem mergeProject_reacts :
    mergeProject.Reacts (·.Over (.single .project) (.single .compute)) := by
  apply reacts_over rfl
  intro p o n i rest m h _ hn hin hm hkind hkind'
  cases n with
  | project _ es rt =>
    cases m with
    | compute j lower =>
      obtain ⟨rfl, rfl⟩ := List.cons.inj hin
      obtain ⟨upper, hp, hv, hmeans, hpi, hpo⟩ := Call.projectProgram_eq h hn hm
      obtain ⟨r, hpropose, hr⟩ :=
        Call.merge_eq h hn .project hm hv hmeans (by rw [hpi]; rfl) (by rw [hpo]; rfl) hpo
      refine ⟨r, ?_, hr⟩
      simp only [mergeProject, Traced.result_bind, Traced.result_lift, Call.node_zero hn,
        Except.ok_bind, Call.node_one hm, Call.nodeId_one, hp]
      exact hpropose _ _
    | _ => simp [KindTest.admits, Node.kind] at hkind'
  | _ => simp [KindTest.admits, Node.kind] at hkind

theorem mergeCompute_reacts :
    mergeCompute.Reacts (·.Over (.single .compute) (.single .compute)) := by
  apply reacts_over rfl
  intro p o n i rest m h _ hn hin hm hkind hkind'
  cases n with
  | compute _ upper =>
    cases m with
    | compute j lower =>
      obtain ⟨rfl, rfl⟩ := List.cons.inj hin
      cases h.node_typed hn with
      | compute hi hv =>
        obtain ⟨c, es, hmeans, _⟩ := hv.exists_means
        obtain ⟨r, hpropose, hr⟩ :=
          Call.merge_eq h hn (.compute hmeans) hm hv hmeans (h.input_types hi hm) rfl rfl
        refine ⟨r, ?_, hr⟩
        simp only [mergeCompute, Traced.result_bind, Traced.result_lift, Call.node_zero hn,
          Except.ok_bind, Call.node_one hm, Call.nodeId_one]
        exact hpropose _ _
    | _ => simp [KindTest.admits, Node.kind] at hkind'
  | _ => simp [KindTest.admits, Node.kind] at hkind

/-- A compute node that changes nothing gives way to its input. -/
theorem removeCompute_fire {program : Program} (h : p.Good) (hf : p.forward? o = none)
    (hn : p.node o = .ok (.compute i program)) (htrivial : program.isTrivial)
    (hrt : p.rowType i = .ok program.outputType) :
    (removeCompute.fire p o).result = .ok (.replaced o (.existing (p.resolve i))) := by
  have hrt' : p.rowType (p.resolve i) = .ok program.outputType := by
    rw [Plan.rowType, h.wf.node_resolve, ← Plan.rowType, hrt]
  have hcall (name) :
      Call.rowType ⟨p, name, ⟨o, []⟩, none⟩ (p.resolve i) = .ok program.outputType := by
    rw [Call.rowType, hrt']
    rfl
  have hpropose (name) := Call.proposeExisting_eq (c := ⟨p, name, ⟨o, []⟩, none⟩) rfl
    (Plan.rowType_eq_ok_iff.mpr ⟨_, hn, rfl⟩) hrt'
  rw [fire, show removeCompute.pattern = .leaf (.single .compute) from rfl,
    Pattern.bind_leaf (.single .compute) hf hn]
  simp only [KindTest.admits, Node.kind, decide_true, if_true, fireMatched, removeCompute,
    Traced.result_bind, Traced.result_lift, Call.node_zero hn, Except.ok_bind, canRemove, htrivial,
    hcall, Traced.result_note, hpropose]
  rfl

theorem removeCompute_reacts : removeCompute.Reacts (·.Removable) := by
  intro p o h hlt hf
  by_cases hat : p.Removable o
  · obtain ⟨i, program, hn, htrivial, hrt⟩ := hat
    exact .inl ⟨⟨i, program, hn, htrivial, hrt⟩, _, removeCompute_fire h hf hn htrivial hrt,
      .remove hn htrivial hrt⟩
  refine .inr ⟨hat, ?_⟩
  obtain ⟨n, hn⟩ := h.wf.exists_node hlt
  rw [fire, show removeCompute.pattern = .leaf (.single .compute) from rfl,
    Pattern.bind_leaf (.single .compute) hf hn]
  cases n with
  | compute i program =>
    obtain ⟨rt, hrt⟩ : ∃ rt, p.rowType i = .ok rt := by
      cases h.node_typed hn with
      | compute hi _ =>
        obtain ⟨rt, hrt, _⟩ := hi.rowType
        exact ⟨rt, hrt⟩
    have hcall (name) : Call.rowType ⟨p, name, ⟨o, []⟩, none⟩ (p.resolve i) = .ok rt := by
      rw [Call.rowType, Plan.rowType, h.wf.node_resolve, ← Plan.rowType, hrt]
      rfl
    simp only [KindTest.admits, Node.kind, decide_true, if_true, fireMatched, removeCompute,
      Traced.result_bind, Traced.result_lift, Call.node_zero hn, Except.ok_bind, canRemove]
    by_cases htrivial : program.isTrivial
    · have hout : rt ≠ program.outputType := by
        rintro rfl
        exact hat ⟨i, program, hn, htrivial, hrt⟩
      simp [htrivial, hcall, hout]
      rfl
    · simp [htrivial]
      rfl
  | _ => simp [KindTest.admits, Node.kind]

end Rule

end RelPlan
