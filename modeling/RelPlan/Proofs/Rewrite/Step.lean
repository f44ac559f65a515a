import RelPlan.Proofs.Plan.Meaning
import RelPlan.Proofs.Program.FromNode

/-! # Rewriting steps

The rules for compute nodes make three kinds of proposals (`Rewrites`): a filter or projection over
another node becomes a compute node, a stage over a compute node is merged into it, and a compute
node that changes nothing is removed. Every such proposal can be written (`Rewrites.commit_eq`), keeps
the plan well formed and well typed (`Rewrites.good`), and keeps what all nodes give
(`Rewrites.gives_of_gives`, `Rewrites.givesByNeed_of_gives`). -/

namespace RelPlan

open Relation

/-- No filter, no projection and no compute node. -/
def NodeKind.isBase (k : NodeKind) : Bool := k ∉ [.filter, .project, .compute]

/-- The fields that a stage puts out when its input has the given ones. A filter passes them on, also
where its own row type names them differently. -/
def Node.fieldsOver (input : RowType) : Node → RowType
  | .filter .. => input
  | n => n.rowType

/-- A proposal of the rules for compute nodes at a node. -/
inductive Rewrites (p : Plan) (o : NodeId) : Replacement → Prop where
  | convert {n m : Node} {program : Program} : p.node o = .ok n → n.kind ≠ .compute →
      n.Runs i c es → p.node i = .ok m → m.kind.isBase → program.Valid → program.Means c es →
      program.inputType.types = m.rowType.types → program.outputType.types = n.rowType.types →
      program.outputType = n.fieldsOver m.rowType →
      Rewrites p o (.new (.compute (p.resolve i) program))
  | merge {n : Node} {lower merged : Program} : p.node o = .ok n → n.Runs i uc us →
      p.node i = .ok (.compute j lower) → lower.Means lc ls → merged.Valid →
      merged.inputType = lower.inputType → merged.outputType.types = n.rowType.types →
      Program.Guarded lc (uc.map (·.subst (columnTree ls) .temp)) c →
      merged.Means c (us.map (·.subst (columnTree ls) .temp)) →
      merged.outputType = n.fieldsOver lower.outputType →
      Rewrites p o (.new (.compute (p.resolve j) merged))
  | remove {program : Program} : p.node o = .ok (.compute i program) → program.isTrivial →
      p.rowType i = .ok program.outputType → Rewrites p o (.existing (p.resolve i))

namespace Replacement

/-- The node that a written proposal puts in place of the old one. -/
def target (p : Plan) : Replacement → NodeId
  | new _ => p.size
  | existing id => id

/-- The plan in which a proposal has been written. -/
def written (p : Plan) (o : NodeId) : Replacement → Plan
  | new n => (p.add n).2.setForward o p.size
  | existing id => p.setForward o id

end Replacement

namespace Plan

variable {p : Plan} {o i : NodeId} {n : Node} {c : Option Expr} {es : List Expr}

theorem WF.not_reaches (h : p.WF) (hi : p.height i < p.height o) : ¬ ReflTransGen p.Child i o :=
  fun hr => Nat.lt_irrefl _ (Nat.lt_of_lt_of_le hi (h.height_le_of_child hr))

end Plan

namespace Rewrites

variable {p : Plan} {o id a : NodeId} {r : Replacement} {n : Node} {tables : Tables}
  {out : List LazyRow}

/-- A proposed new node is typed, of the types of the old one, and computes with lower nodes. -/
theorem new_typed (h : p.Good) (hr : Rewrites p o (.new n)) :
    p.NodeTyped n ∧ p.HasTypes o n.rowType.types ∧
      ∀ i ∈ n.inputs, i < p.size ∧ p.resolve i = i ∧ p.height i < p.height o := by
  cases hr with
  | convert hn _ hr hm _ hv _ hin hout =>
    have hlt := h.wf.height_input_lt hn (hr.mem_inputs)
    have hi := Plan.lt_size_of_node hm
    refine ⟨.compute ?_ hv, ⟨_, hn, hout.symm⟩, ?_⟩
    · rw [h.wf.hasTypes_resolve]
      exact ⟨_, hm, hin.symm⟩
    · intro k hk
      obtain rfl := List.mem_singleton.mp hk
      exact ⟨h.wf.resolve_lt hi, h.wf.resolve_resolve _,
        Nat.lt_of_le_of_lt (h.wf.height_resolve_le _) hlt⟩
  | merge hn hr hm _ hv hin hout _ _ =>
    have hlt := h.wf.height_input_lt hn (hr.mem_inputs)
    have hlt' := h.wf.height_input_lt hm List.mem_cons_self
    have hj := h.wf.input_lt hm List.mem_cons_self
    refine ⟨.compute ?_ hv, ⟨_, hn, hout.symm⟩, ?_⟩
    · rw [h.wf.hasTypes_resolve, hin]
      cases h.node_typed hm with
      | compute hj _ => exact hj
    · intro k hk
      obtain rfl := List.mem_singleton.mp hk
      exact ⟨h.wf.resolve_lt hj, h.wf.resolve_resolve _,
        Nat.lt_of_le_of_lt (h.wf.height_resolve_le _) (Nat.lt_trans hlt' hlt)⟩

/-- A proposed node of the plan has the types of the old one and is lower. -/
theorem existing_typed (h : p.Good) (hr : Rewrites p o (.existing id)) :
    ∃ ts, p.HasTypes o ts ∧ p.HasTypes id ts ∧ p.resolve id = id ∧ p.height id < p.height o := by
  cases hr with
  | remove hn _ hrt =>
    refine ⟨_, ⟨_, hn, rfl⟩, ?_, h.wf.resolve_resolve _, ?_⟩
    · rw [h.wf.hasTypes_resolve]
      exact Plan.hasTypes_of_rowType hrt
    · exact Nat.lt_of_le_of_lt (h.wf.height_resolve_le _)
        (h.wf.height_input_lt hn List.mem_cons_self)

theorem lt_size (hr : Rewrites p o r) : o < p.size := by
  cases hr with
  | convert hn | merge hn | remove hn => exact Plan.lt_size_of_node hn

theorem replaceWith_eq (h : p.Good) (hf : p.forward? o = none) (hr : Rewrites p o (.new n)) :
    p.replaceWith o n = .ok (p.size, (p.add n).2.setForward o p.size) := by
  obtain ⟨-, hot, hin⟩ := hr.new_typed h
  have hres := Plan.resolve_of_forward?_eq_none hf
  rw [h.wf.replaceWith_eq_ok_iff, hres]
  refine ⟨hot, fun i hi => ?_, rfl, rfl⟩
  obtain ⟨hlt, hi', hheight⟩ := hin i hi
  rw [hi']
  exact ⟨hlt, h.wf.not_reaches hheight⟩

theorem replace_eq (h : p.Good) (hf : p.forward? o = none) (hr : Rewrites p o (.existing id)) :
    p.replace o id = .ok (p.setForward o id) := by
  obtain ⟨ts, ho, hid, hid', hheight⟩ := hr.existing_typed h
  have hres := Plan.resolve_of_forward?_eq_none hf
  rw [h.wf.replace_eq_ok_iff, hres, hid']
  refine ⟨ts, ts, ho, hid, .inr ⟨?_, rfl, h.wf.not_reaches hheight, rfl⟩⟩
  rintro rfl
  exact Nat.lt_irrefl _ hheight

/-- Writing a proposal keeps the plan well formed and well typed. -/
theorem good (h : p.Good) (hf : p.forward? o = none) (hr : Rewrites p o r) :
    (r.written p o).Good ∧ p.Extends (r.written p o) := by
  cases r with
  | new n => exact h.replaceWith (hr.new_typed h).1 (hr.replaceWith_eq h hf)
  | existing id => exact h.replace (hr.replace_eq h hf)

theorem redirects (h : p.Good) (hf : p.forward? o = none) (hr : Rewrites p o r) :
    p.Redirects (r.written p o) o (r.target p) := by
  cases r with
  | new n =>
    refine (h.wf.setForward_add hr.lt_size hf fun i hi => ?_).2
    obtain ⟨hlt, hi', hheight⟩ := (hr.new_typed h).2.2 i hi
    rw [hi']
    exact ⟨hlt, h.wf.not_reaches hheight⟩
  | existing id =>
    obtain ⟨ts, _, hid, hid', hheight⟩ := hr.existing_typed h
    refine (h.wf.setForward_existing hr.lt_size hid.lt_size hf ?_ (h.wf.not_reaches hheight)).2
    rw [← hid']
    exact h.wf.forward?_resolve id

/-- The written plan looks the old node up where the new one is. -/
theorem resolve_target (h : p.Good) (hf : p.forward? o = none) (hr : Rewrites p o r) :
    (r.written p o).resolve (r.target p) = r.target p := by
  have hold := (hr.redirects h hf).resolve_old hr.lt_size (Plan.resolve_of_forward?_eq_none hf)
  rw [← hold, (hr.good h hf).1.wf.resolve_resolve]

theorem commit_eq (h : p.Good) (hf : p.forward? o = none) (hr : Rewrites p o r) :
    (Outcome.replaced o r).commit p = .ok (some ⟨o, r.target p⟩, r.written p o) := by
  have htarget := hr.resolve_target h hf
  cases r with
  | new n =>
    simp only [Outcome.commit, hr.replaceWith_eq h hf]
    rfl
  | existing id =>
    simp only [Outcome.commit, hr.replace_eq h hf, Except.ok_bind]
    rw [Replacement.target, Replacement.written] at htarget
    rw [htarget]
    rfl

theorem node_new (h : p.Good) (hf : p.forward? o = none) (hr : Rewrites p o (.new n)) :
    (Replacement.written p o (.new n)).node p.size = .ok n := by
  have htarget := hr.resolve_target h hf
  rw [Replacement.target] at htarget
  rw [Plan.node, htarget, Replacement.written, Plan.rawNode_setForward, Plan.rawNode_add_size]

theorem node_existing (h : p.Good) (hf : p.forward? o = none) (hr : Rewrites p o (.existing id)) :
    (Replacement.written p o (.existing id)).node id = p.node id := by
  have htarget := hr.resolve_target h hf
  obtain ⟨_, _, _, hid, _⟩ := hr.existing_typed h
  rw [Replacement.target] at htarget
  rw [Plan.node, htarget, Replacement.written, Plan.rawNode_setForward, Plan.node, hid]

/-- Whoever names the old node finds the new one. -/
theorem node_old (h : p.Good) (hf : p.forward? o = none) (hr : Rewrites p o r)
    (ha : p.resolve a = o) : (r.written p o).node a = (r.written p o).node (r.target p) := by
  have hlt : a < p.size := Plan.lt_size_of_resolve (ha ▸ hr.lt_size)
  rw [Plan.node, (hr.redirects h hf).resolve_old hlt ha, Plan.node, hr.resolve_target h hf]

theorem node_other (h : p.Good) (hf : p.forward? o = none) (hr : Rewrites p o r)
    (ha : a < p.size) (hne : p.resolve a ≠ o) : (r.written p o).node a = p.node a :=
  (hr.redirects h hf).node_other h.wf ha hne

/-- What the old node computes with is left as it is. -/
theorem node_lower (h : p.Good) (hf : p.forward? o = none) (hr : Rewrites p o r)
    (ha : a < p.size) (hlow : p.height a < p.height o) : (r.written p o).node a = p.node a := by
  refine hr.node_other h hf ha ?_
  rintro rfl
  exact absurd (h.wf.height_resolve_le a) (Nat.not_le_of_lt hlow)

/-- The written plan has no nodes but those of the plan and the proposed one. -/
theorem node_written (h : p.Good) (hf : p.forward? o = none) (hr : Rewrites p o r)
    (ha : (r.written p o).node a = .ok n) : (∃ b, p.node b = .ok n) ∨ r = .new n := by
  have htarget (hn : (r.written p o).node (r.target p) = .ok n) :
      (∃ b, p.node b = .ok n) ∨ r = .new n := by
    cases r with
    | new m => exact .inr (by rw [Except.ok.inj ((hr.node_new h hf).symm.trans hn)])
    | existing id => exact .inl ⟨id, (hr.node_existing h hf).symm.trans hn⟩
  by_cases hlt : a < p.size
  · by_cases ho : p.resolve a = o
    · exact htarget (hr.node_old h hf ho ▸ ha)
    · exact .inl ⟨a, ((hr.redirects h hf).node_other h.wf hlt ho).symm.trans ha⟩
  · have hlt' := Plan.lt_size_of_node ha
    cases r with
    | new m =>
      rw [Replacement.written, Plan.size_setForward, Plan.size_add] at hlt'
      obtain rfl := Nat.le_antisymm (Nat.le_of_lt_succ hlt') (Nat.le_of_not_lt hlt)
      exact htarget ha
    | existing id =>
      rw [Replacement.written, Plan.size_setForward] at hlt'
      exact absurd hlt' hlt

/-- Tables that conform to the scans of a plan conform to those of the written one. -/
theorem tablesConform (h : p.Good) (hf : p.forward? o = none) (hr : Rewrites p o r)
    (ht : p.TablesConform tables) : (r.written p o).TablesConform tables := by
  intro a table rt ha
  rcases hr.node_written h hf ha with ⟨b, hb⟩ | rfl
  · exact ht b table rt hb
  · cases hr

end Rewrites

/-! ## What nodes give -/

/-- A node with the same inputs gives the same in a plan where the inputs do. -/
theorem Plan.Gives.transfer {strict : Prop} {p q : Plan} {tables : Tables} {a b : NodeId} {n : Node}
    {out : List LazyRow} (hn : p.node a = .ok n) (hn' : q.node b = .ok n)
    (hi : ∀ i ∈ n.inputs, ∀ rows, p.Gives strict tables i rows → q.Gives strict tables i rows)
    (htypes : ∀ i ∈ n.inputs, ∀ ts, p.HasTypes i ts → q.HasTypes i ts)
    (h : p.Gives strict tables a out) : q.Gives strict tables b out := by
  cases h with
  | scan hm hr =>
    obtain rfl := Except.ok.inj (hn.symm.trans hm)
    exact .scan hn' hr
  | values hm =>
    obtain rfl := Except.ok.inj (hn.symm.trans hm)
    exact .values hn'
  | stage hm hr hin hk hs =>
    obtain rfl := Except.ok.inj (hn.symm.trans hm)
    exact .stage hn' hr (hi _ hr.mem_inputs _ hin) hk hs
  | join hm hl hr ht hj =>
    obtain rfl := Except.ok.inj (hn.symm.trans hm)
    exact .join hn' (hi _ (by simp [Node.inputs]) _ hl) (hi _ (by simp [Node.inputs]) _ hr)
      (htypes _ (by simp [Node.inputs]) _ ht) hj

namespace Rewrites

variable {p : Plan} {o id a : NodeId} {r : Replacement} {n : Node} {tables : Tables}
  {out : List LazyRow}

/-- The rows that a compute node gets conform to the input type of its program. -/
theorem lower_conform {strict : Prop} {lower : Program} {i j : NodeId} {rows : List LazyRow}
    (h : p.Good) (ht : p.TablesConform tables) (hm : p.node i = .ok (.compute j lower))
    (hj : p.Gives strict tables j rows) :
    ∀ row ∈ rows, LazyRow.Conforms row lower.inputType.types := by
  cases h.node_typed hm with
  | compute hin _ => exact h.gives_conform ht hin hj

/-- Merged stages leave the rows that the two stages leave one after the other. -/
theorem kept_merge_iff {lower : Program} {n : Node} {lc uc c : Option Expr} {ls us : List Expr}
    {i j : NodeId} {rows : List LazyRow}
    (h : p.Good) (hn : p.node o = .ok n) (hr : n.Runs i uc us)
    (hm : p.node i = .ok (.compute j lower)) (hl : lower.Means lc ls)
    (hc : Program.Guarded lc (uc.map (·.subst (columnTree ls) .temp)) c)
    (hrows : ∀ row ∈ rows, LazyRow.Conforms row lower.inputType.types) :
    Kept c (us.map (·.subst (columnTree ls) .temp)) rows out ↔
      ∃ mid, Kept lc ls rows mid ∧ Kept uc us mid out := by
  obtain ⟨rt, hi, huc, hus⟩ := (h.node_typed hn).runs hr
  cases h.node_typed hm with
  | compute _ hlv =>
    have tl := hlv.means_typed hl
    obtain htypes : rt.types = lower.outputType.types := hi.unique ⟨_, hm, rfl⟩
    have hwidth : rt.length = ls.length := by
      rw [← RowType.length_types, htypes, tl.columns.length_eq]
    exact Kept.merge_iff hc tl.condition
      (huc.subst (Program.columnTree_fits (htypes ▸ tl.columns))) (hwidth ▸ huc.lt)
      (hwidth ▸ Program.ColumnsTyped.lt hus) hrows

/-- Where lower nodes give no less than before, the new node gives no less than the old one. -/
theorem gives_target {strict : Prop} (h : p.Good) (ht : p.TablesConform tables)
    (hf : p.forward? o = none) (hr : Rewrites p o r)
    (hlower : ∀ i < p.size, p.height i < p.height o → ∀ rows, p.Gives strict tables i rows →
      (r.written p o).Gives strict tables i rows)
    (ho : p.Gives strict tables o out) : (r.written p o).Gives strict tables (r.target p) out := by
  have hr' := hr
  cases hr with
  | convert hn _ hstage hm _ hv hmeans _ _ =>
    obtain ⟨⟨rows, hi, hk⟩, hs⟩ := (Plan.gives_stage_iff hn hstage).mp ho
    obtain ⟨hlt, -, hheight⟩ := (hr'.new_typed h).2.2 _ List.mem_cons_self
    refine (Plan.gives_stage_iff (hr'.node_new h hf) (.compute hmeans)).mpr ⟨⟨rows, ?_, hk⟩, hs⟩
    exact hlower _ hlt hheight rows (h.wf.gives_resolve.mpr hi)
  | merge hn hstage hm hl hv _ _ hc hmeans =>
    obtain ⟨⟨mid, hi, hk⟩, hs⟩ := (Plan.gives_stage_iff hn hstage).mp ho
    obtain ⟨⟨rows, hj, hk'⟩, -⟩ := (Plan.gives_stage_iff hm (.compute hl)).mp hi
    obtain ⟨hlt, -, hheight⟩ := (hr'.new_typed h).2.2 _ List.mem_cons_self
    refine (Plan.gives_stage_iff (hr'.node_new h hf) (.compute hmeans)).mpr ⟨⟨rows, ?_, ?_⟩, hs⟩
    · exact hlower _ hlt hheight rows (h.wf.gives_resolve.mpr hj)
    · rw [kept_merge_iff h hn hstage hm hl hc (lower_conform h ht hm hj)]
      exact ⟨mid, hk', hk⟩
  | remove hn htrivial _ =>
    obtain ⟨⟨rows, hi, hk⟩, -⟩ :=
      (Plan.gives_stage_iff hn (.compute (Program.Means.of_isTrivial htrivial))).mp ho
    obtain rfl := (Kept.refs_iff (lower_conform h ht hn hi)).mp hk
    obtain ⟨_, _, hid, _, hheight⟩ := hr'.existing_typed h
    exact hlower _ hid.lt_size hheight out (h.wf.gives_resolve.mpr hi)

/-- Evaluated by need, the new node gives no more than the old one, where lower nodes give no more
than before. -/
theorem givesByNeed_old (h : p.Good) (ht : p.TablesConform tables)
    (hf : p.forward? o = none) (hr : Rewrites p o r)
    (hlower : ∀ i < p.size, p.height i < p.height o → ∀ rows,
      (r.written p o).Gives False tables i rows → p.Gives False tables i rows)
    (ho : (r.written p o).Gives False tables (r.target p) out) : p.Gives False tables o out := by
  have hr' := hr
  cases hr with
  | convert hn _ hstage hm _ hv hmeans _ _ =>
    obtain ⟨⟨rows, hi, hk⟩, -⟩ :=
      (Plan.gives_stage_iff (hr'.node_new h hf) (.compute hmeans)).mp ho
    obtain ⟨hlt, -, hheight⟩ := (hr'.new_typed h).2.2 _ List.mem_cons_self
    have hi := h.wf.gives_resolve.mp (hlower _ hlt hheight rows hi)
    exact (Plan.gives_stage_iff hn hstage).mpr ⟨⟨rows, hi, hk⟩, False.elim⟩
  | merge hn hstage hm hl hv _ _ hc hmeans =>
    obtain ⟨⟨rows, hj, hk⟩, -⟩ :=
      (Plan.gives_stage_iff (hr'.node_new h hf) (.compute hmeans)).mp ho
    obtain ⟨hlt, -, hheight⟩ := (hr'.new_typed h).2.2 _ List.mem_cons_self
    have hj := h.wf.gives_resolve.mp (hlower _ hlt hheight rows hj)
    rw [kept_merge_iff h hn hstage hm hl hc (lower_conform h ht hm hj)] at hk
    obtain ⟨mid, hk', hk⟩ := hk
    have hi := (Plan.gives_stage_iff hm (.compute hl)).mpr ⟨⟨rows, hj, hk'⟩, False.elim⟩
    exact (Plan.gives_stage_iff hn hstage).mpr ⟨⟨mid, hi, hk⟩, False.elim⟩
  | remove hn htrivial _ =>
    obtain ⟨_, _, hid, _, hheight⟩ := hr'.existing_typed h
    have hi := h.wf.gives_resolve.mp (hlower _ hid.lt_size hheight out ho)
    refine (Plan.gives_stage_iff hn (.compute (Program.Means.of_isTrivial htrivial))).mpr
      ⟨⟨out, hi, ?_⟩, False.elim⟩
    exact (Kept.refs_iff (lower_conform h ht hn hi)).mpr rfl

/-- A rewriting step takes nothing from what a node gives. -/
theorem gives_of_gives {strict : Prop} (h : p.Good) (ht : p.TablesConform tables)
    (hf : p.forward? o = none) (hr : Rewrites p o r) (ha : p.Gives strict tables a out) :
    (r.written p o).Gives strict tables a out := by
  have hlt := ha.lt_size
  induction hk : p.height a using Nat.strongRecOn generalizing a out with
  | ind k ih =>
    have hlower (i) (hi : i < p.size) (hheight : p.height i < k) (rows) :
        p.Gives strict tables i rows → (r.written p o).Gives strict tables i rows :=
      fun hg => ih _ hheight hg hi rfl
    by_cases ho : p.resolve a = o
    · have ha := h.wf.gives_resolve.mpr ha
      have hle := h.wf.height_resolve_le a
      rw [ho] at ha hle
      refine .congr (hr.node_old h hf ho).symm (hr.gives_target h ht hf (fun i hi hheight => ?_) ha)
      exact hlower i hi (by omega)
    · obtain ⟨n, hn⟩ := h.wf.exists_node hlt
      refine ha.transfer hn (((hr.redirects h hf).node_other h.wf hlt ho).trans hn)
        (fun i hi => hlower i (h.wf.input_lt hn hi) (hk ▸ h.wf.height_input_lt hn hi))
        fun i _ ts => (hr.good h hf).2 i ts

/-- Evaluated by need, a rewriting step adds nothing to what a node gives. -/
theorem givesByNeed_of_gives (h : p.Good) (ht : p.TablesConform tables)
    (hf : p.forward? o = none) (hr : Rewrites p o r) (hlt : a < p.size)
    (ha : (r.written p o).Gives False tables a out) : p.Gives False tables a out := by
  induction hk : p.height a using Nat.strongRecOn generalizing a out with
  | ind k ih =>
    have hlower (i) (hi : i < p.size) (hheight : p.height i < k) (rows) :
        (r.written p o).Gives False tables i rows → p.Gives False tables i rows :=
      fun hg => ih _ hheight hi hg rfl
    by_cases ho : p.resolve a = o
    · have hle := h.wf.height_resolve_le a
      rw [ho] at hle
      have ha := hr.givesByNeed_old h ht hf (fun i hi hheight => hlower i hi (by omega))
        (.congr (hr.node_old h hf ho) ha)
      exact h.wf.gives_resolve.mp (ho ▸ ha)
    · obtain ⟨n, hn⟩ := h.wf.exists_node hlt
      refine ha.transfer (((hr.redirects h hf).node_other h.wf hlt ho).trans hn) hn
        (fun i hi => hlower i (h.wf.input_lt hn hi) (hk ▸ h.wf.height_input_lt hn hi))
        fun i hi ts hts => ?_
      obtain ⟨us, hus⟩ := h.wf.exists_hasTypes (h.wf.input_lt hn hi)
      rwa [hts.unique ((hr.good h hf).2 i us hus)]

end Rewrites
end RelPlan
