import RelPlan.Proofs.Rewrite.Run

/-! # Settled nodes

A node is settled if it is no stage, or a compute node over a node that is none (`Plan.Settled`),
and normal if it is no removable compute node either (`Plan.Normal`). Where all rules for compute
nodes are tried, a visit settles a node over settled inputs (`Rewriter.Visited.settled`) and makes a
settled node normal (`Rewriter.Visited.normal`). Steps at other nodes undo neither. -/

namespace RelPlan

theorem Node.Runs.not_isBase {n : Node} (h : n.Runs i c es) : ¬ n.kind.isBase := by
  cases h <;> exact Bool.false_ne_true

namespace Plan

/-- A node that is no filter or projection, and over a base node if it is a compute node. -/
inductive Settled (p : Plan) (a : NodeId) : Prop where
  | base : p.node a = .ok n → n.kind.isBase → p.Settled a
  | compute {program : Program} : p.node a = .ok (.compute i program) → p.node i = .ok m →
      m.kind.isBase → p.Settled a

/-- A settled node that is no removable compute node. -/
structure Normal (p : Plan) (a : NodeId) : Prop where
  settled : p.Settled a
  not_removable : ¬ p.Removable a

variable {p : Plan} {a b i : NodeId} {n m : Node} {program : Program}

theorem Settled.congr (hab : p.node a = p.node b) (h : p.Settled a) : p.Settled b := by
  cases h with
  | base hn hb => exact .base (hab ▸ hn) hb
  | compute hn hm hb => exact .compute (hab ▸ hn) hm hb

theorem Normal.congr (hab : p.node a = p.node b) (h : p.Normal a) : p.Normal b :=
  ⟨h.settled.congr hab, fun ⟨i, program, hn, hrest⟩ =>
    h.not_removable ⟨i, program, hab ▸ hn, hrest⟩⟩

theorem Settled.lt_size (h : p.Settled a) : a < p.size := by
  cases h with
  | base hn | compute hn => exact lt_size_of_node hn

theorem Settled.exists_base (h : p.Settled a) (hn : p.node a = .ok (.compute i program)) :
    ∃ m, p.node i = .ok m ∧ m.kind.isBase := by
  cases h with
  | base hn' hb =>
    obtain rfl := Except.ok.inj (hn.symm.trans hn')
    exact absurd hb Bool.false_ne_true
  | compute hn' hm hb =>
    cases hn.symm.trans hn'
    exact ⟨_, hm, hb⟩

theorem Normal.of_base (hn : p.node a = .ok n) (hb : n.kind.isBase) : p.Normal a := by
  refine ⟨.base hn hb, ?_⟩
  rintro ⟨i, program, hn', -⟩
  obtain rfl := Except.ok.inj (hn.symm.trans hn')
  exact Bool.false_ne_true hb

end Plan

namespace Rewrites

variable {p : Plan} {o a i : NodeId} {r : Replacement} {n m : Node}

theorem not_isBase (hr : Rewrites p o r) (hn : p.node o = .ok n) : ¬ n.kind.isBase := by
  cases hr with
  | convert hn' _ hruns | merge hn' hruns =>
    obtain rfl := Except.ok.inj (hn.symm.trans hn')
    exact hruns.not_isBase
  | remove hn' =>
    obtain rfl := Except.ok.inj (hn.symm.trans hn')
    exact Bool.false_ne_true

/-- At a settled node the only step is the removal of a compute node over a base node. -/
theorem exists_of_settled (hr : Rewrites p o r) (hs : p.Settled o) :
    p.Removable o ∧ ∃ i m, r = .existing (p.resolve i) ∧ p.node i = .ok m ∧ m.kind.isBase := by
  cases hs with
  | base hn hb => exact absurd hb (hr.not_isBase hn)
  | compute hn hm hb =>
    cases hr with
    | convert hn' hkind =>
      obtain rfl := Except.ok.inj (hn.symm.trans hn')
      exact absurd rfl hkind
    | merge hn' hruns hlower =>
      obtain rfl := Except.ok.inj (hn.symm.trans hn')
      cases hruns
      obtain rfl := Except.ok.inj (hm.symm.trans hlower)
      exact absurd hb Bool.false_ne_true
    | remove hn' htrivial hrt =>
      cases hn.symm.trans hn'
      exact ⟨⟨_, _, hn, htrivial, hrt⟩, _, _, rfl, hm, hb⟩

theorem not_normal (hr : Rewrites p o r) : ¬ p.Normal o :=
  fun h => h.not_removable (hr.exists_of_settled h.settled).1

/-! ## What a step keeps -/

section
variable (h : p.Good) (hf : p.forward? o = none) (hr : Rewrites p o r)
include h hf hr

/-- Whatever stood for the old node has the node that stands for it now. -/
theorem node_replaced (ha : p.resolve a = o) : (r.written p o).node a = (r.written p o).node o := by
  rw [hr.node_old h hf ha, hr.node_old h hf (Plan.resolve_of_forward?_eq_none hf)]

theorem node_base (ha : p.node a = .ok m) (hb : m.kind.isBase) :
    (r.written p o).node a = .ok m := by
  rw [hr.node_other h hf (Plan.lt_size_of_node ha), ha]
  rintro rfl
  exact hr.not_isBase ((h.wf.node_resolve a).trans ha) hb

theorem settled_of_node (ha : (r.written p o).node a = p.node i) (hi : p.Settled i) :
    (r.written p o).Settled a := by
  cases hi with
  | base hn hb => exact .base (ha.trans hn) hb
  | compute hn hm hb => exact .compute (ha.trans hn) (hr.node_base h hf hm hb) hb

/-- A step at a node over settled ones settles it. -/
theorem settled_old (hin : ∀ c, p.Child o c → p.Settled c) : (r.written p o).Settled o := by
  have hold := hr.node_old h hf (Plan.resolve_of_forward?_eq_none hf)
  have hinput {n i} (hn : p.node o = .ok n) (hi : i ∈ n.inputs) : p.Settled i :=
    (hin _ (.intro hn hi)).congr (h.wf.node_resolve i)
  have hr' := hr
  cases hr' with
  | convert _ _ _ hm hb =>
    exact .compute (hold.trans (hr.node_new h hf))
      (hr.node_base h hf ((h.wf.node_resolve _).trans hm) hb) hb
  | merge hn hruns hlower =>
    obtain ⟨m, hm, hb⟩ := (hinput hn hruns.mem_inputs).exists_base hlower
    exact .compute (hold.trans (hr.node_new h hf))
      (hr.node_base h hf ((h.wf.node_resolve _).trans hm) hb) hb
  | remove hn =>
    exact hr.settled_of_node h hf
      ((hold.trans (hr.node_existing h hf)).trans (h.wf.node_resolve _))
      (hinput hn List.mem_cons_self)

theorem settled (ho : (r.written p o).Settled o) (ha : p.Settled a) :
    (r.written p o).Settled a := by
  by_cases hao : p.resolve a = o
  · exact ho.congr (hr.node_replaced h hf hao).symm
  · exact hr.settled_of_node h hf (hr.node_other h hf ha.lt_size hao) ha

theorem normal (ha : p.Normal a) : (r.written p o).Normal a := by
  have hne : p.resolve a ≠ o := by
    rintro rfl
    exact hr.not_normal (ha.congr (h.wf.node_resolve a).symm)
  have hnode := hr.node_other h hf ha.settled.lt_size hne
  refine ⟨hr.settled_of_node h hf hnode ha.settled, ?_⟩
  rintro ⟨i, program, hn, htrivial, hrt⟩
  rw [hnode] at hn
  obtain ⟨m, hm, hb⟩ := ha.settled.exists_base hn
  refine ha.not_removable ⟨i, program, hn, htrivial, ?_⟩
  rwa [Plan.rowType, hm, ← hr.node_base h hf hm hb]

end
end Rewrites

namespace Rewriter

/-! ## What a visit does -/

variable {p q : Plan} {rules : List Rule} {id : NodeId}

/-- A visit to a node over settled ones settles it. -/
theorem Visited.settled (h : Visited rules p id b q) (hp : p.Good) (hlt : id < p.size)
    (hid : p.resolve id = id) (hrules : ∀ rule ∈ Rule.computeRules, rule ∈ rules)
    (hin : ∀ c, p.Child id c → p.Settled c) : q.Settled id := by
  cases h with
  | changed hf hr => exact hr.settled_old hp hf hin
  | unchanged hno =>
    obtain ⟨n, hn⟩ := hp.wf.exists_node hlt
    have hinput {i} (hi : i ∈ n.inputs) : p.Settled i :=
      (hin _ (.intro hn hi)).congr (hp.wf.node_resolve i)
    have hf : p.forward? id = none := hid ▸ hp.wf.forward?_resolve id
    have hnot {rule : Rule} {At} (hrule : rule ∈ Rule.computeRules) (hreacts : rule.Reacts At) :
        ¬ At p id := mt (hreacts.applies_iff hp hlt hf).mpr (hno hf rule (hrules rule hrule))
    cases n with
    | scan | values | join => exact .base hn rfl
    | filter i =>
      cases hinput List.mem_cons_self with
      | base hm hb =>
        exact absurd ⟨_, i, [], _, hn, rfl, rfl, hm, hb⟩
          (hnot (by simp [Rule.computeRules]) Rule.filterToCompute_reacts)
      | compute hm =>
        exact absurd ⟨_, i, [], _, hn, rfl, rfl, hm, rfl⟩
          (hnot (by simp [Rule.computeRules]) Rule.mergeFilter_reacts)
    | project i =>
      cases hinput List.mem_cons_self with
      | base hm hb =>
        exact absurd ⟨_, i, [], _, hn, rfl, rfl, hm, hb⟩
          (hnot (by simp [Rule.computeRules]) Rule.projectToCompute_reacts)
      | compute hm =>
        exact absurd ⟨_, i, [], _, hn, rfl, rfl, hm, rfl⟩
          (hnot (by simp [Rule.computeRules]) Rule.mergeProject_reacts)
    | compute i =>
      cases hinput List.mem_cons_self with
      | base hm hb => exact .compute hn hm hb
      | compute hm =>
        exact absurd ⟨_, i, [], _, hn, rfl, rfl, hm, rfl⟩
          (hnot (by simp [Rule.computeRules]) Rule.mergeCompute_reacts)

/-- A visit to a settled node makes it normal. -/
theorem Visited.normal (h : Visited rules p id b q) (hp : p.Good) (hid : p.resolve id = id)
    (hrules : ∀ rule ∈ Rule.computeRules, rule ∈ rules) (hs : p.Settled id) : q.Normal id := by
  cases h with
  | changed hf hr =>
    obtain ⟨-, i, m, rfl, hm, hb⟩ := hr.exists_of_settled hs
    have hold := hr.node_old hp hf hid
    refine .of_base (hold.trans (hr.node_existing hp hf |>.trans ?_)) hb
    rw [hp.wf.node_resolve, hm]
  | unchanged hno =>
    have hf : p.forward? id = none := hid ▸ hp.wf.forward?_resolve id
    exact ⟨hs, mt (Rule.removeCompute_reacts.applies_iff hp hs.lt_size hf).mpr
      (hno hf _ (hrules _ (by simp [Rule.computeRules])))⟩

end Rewriter
end RelPlan
