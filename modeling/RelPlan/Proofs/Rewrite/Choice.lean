import RelPlan.Proofs.Rewrite.Dispatch
import RelPlan.Proofs.Rewrite.Refiring

/-! # Which rules compete

The kinds of a node and of its input tell which rule converts or merges the node (`Rule.forKinds`).
The rule that removes compute nodes looks at their programs instead, and competes with the one that
merges them where a compute node that changes nothing lies on another one (`Plan.Contested`). At all
other nodes at most one rule has something to propose, so that it does not matter in which order
they are tried (`Rule.choice_iff`). -/

namespace RelPlan

variable {p : Plan} {a : NodeId} {k k' l l' : NodeKind} {test test' : KindTest} {rule rule' : Rule}

namespace Plan

/-- The kinds of a node and of the first of its inputs. -/
def HasKinds (p : Plan) (a : NodeId) (k k' : NodeKind) : Prop :=
  ∃ n i rest m, p.node a = .ok n ∧ n.inputs = i :: rest ∧ p.node i = .ok m ∧
    n.kind = k ∧ m.kind = k'

/-- A compute node that changes nothing, on top of another compute node. -/
def Contested (p : Plan) (a : NodeId) : Prop :=
  p.Over (.single .compute) (.single .compute) a ∧ p.Removable a

theorem HasKinds.unique (h : p.HasKinds a k k') (h' : p.HasKinds a l l') : k = l ∧ k' = l' := by
  obtain ⟨n, i, rest, m, hn, hin, hm, rfl, rfl⟩ := h
  obtain ⟨n', i', rest', m', hn', hin', hm', rfl, rfl⟩ := h'
  obtain rfl := Except.ok.inj (hn.symm.trans hn')
  obtain ⟨rfl, -⟩ := List.cons.inj (hin.symm.trans hin')
  obtain rfl := Except.ok.inj (hm.symm.trans hm')
  exact ⟨rfl, rfl⟩

theorem over_iff_hasKinds :
    p.Over test test' a ↔ ∃ k k', p.HasKinds a k k' ∧ test.admits k ∧ test'.admits k' := by
  constructor
  · rintro ⟨n, i, rest, m, hn, ht, hin, hm, ht'⟩
    exact ⟨_, _, ⟨n, i, rest, m, hn, hin, hm, rfl, rfl⟩, ht, ht'⟩
  · rintro ⟨k, k', ⟨n, i, rest, m, hn, hin, hm, rfl, rfl⟩, ht, ht'⟩
    exact ⟨n, i, rest, m, hn, ht, hin, hm, ht'⟩

theorem WF.removable_resolve (h : p.WF) : p.Removable (p.resolve a) ↔ p.Removable a := by
  rw [Removable, Removable, h.node_resolve]

theorem Removable.kind_eq (h : p.Removable a) (hk : p.HasKinds a k k') : k = .compute := by
  obtain ⟨i, program, hn, -⟩ := h
  obtain ⟨n, _, _, _, hn', -, -, rfl, -⟩ := hk
  rw [Except.ok.inj (hn'.symm.trans hn), Node.kind]

end Plan

namespace Rule

/-- The rule fires at the node and proposes a replacement. -/
def Proposes (rule : Rule) (p : Plan) (a : NodeId) : Prop :=
  ∃ o r, (rule.fire p a).result = .ok (.replaced o r)

/-- The rule that converts or merges a node of the first kind over one of the second kind. -/
def forKinds : NodeKind → NodeKind → Option Rule
  | .filter, .compute => some mergeFilter
  | .project, .compute => some mergeProject
  | .compute, .compute => some mergeCompute
  | .filter, .scan | .filter, .values | .filter, .join => some filterToCompute
  | .project, .scan | .project, .values | .project, .join => some projectToCompute
  | _, _ => none

/-! ## Where rules propose -/

theorem Proposes.lt_size (h : rule.Proposes p a) : a < p.size := by
  obtain ⟨o, r, hr⟩ := h
  exact lt_size_of_fire hr

theorem Reacts.proposes_iff {At : Plan → NodeId → Prop} (hrule : rule.Reacts At) (h : p.Good)
    (ha : a < p.size) : rule.Proposes p a ↔ At p (p.resolve a) := by
  rw [Proposes, ← rule.fire_resolve h.wf]
  rcases hrule p _ h (h.wf.resolve_lt ha) (h.wf.forward?_resolve a) with ⟨hat, r, hr, -⟩ | ⟨hat, hr⟩
    <;> simp [hr, hat]

/-- Rules for compute nodes do not fail, so what they do not decline they propose. -/
theorem applies_iff_proposes (h : p.Good) (hrule : rule ∈ computeRules) :
    rule.Applies p a ↔ rule.Proposes p a := by
  constructor
  · intro ha
    have hlt := ha.lt_size
    obtain ⟨At, hreacts⟩ := exists_reacts hrule
    rw [hreacts.proposes_iff h hlt]
    exact Classical.not_not.mp (mt (hreacts.declined_iff h hlt).mpr ha)
  · rintro ⟨o, r, hr⟩
    exact applies_of_fire hr

/-- The rules that go by kinds propose where the kinds call for them. -/
theorem Reacts.forKinds_of_proposes (hrule : rule.Reacts (·.Over test test')) (h : p.Good)
    (hprop : rule.Proposes p a)
    (hfor : ∀ k k', test.admits k → test'.admits k' → forKinds k k' = some rule) :
    ∃ k k', p.HasKinds a k k' ∧ forKinds k k' = some rule := by
  rw [hrule.proposes_iff h hprop.lt_size, h.wf.over_resolve, Plan.over_iff_hasKinds] at hprop
  obtain ⟨k, k', hk, ht, ht'⟩ := hprop
  exact ⟨k, k', hk, hfor k k' ht ht'⟩

theorem Proposes.cases (hprop : rule.Proposes p a) (h : p.Good) (hrule : rule ∈ computeRules) :
    (∃ k k', p.HasKinds a k k' ∧ forKinds k k' = some rule) ∨
      rule = removeCompute ∧ p.Removable a := by
  simp only [computeRules, List.mem_cons, List.not_mem_nil, or_false] at hrule
  -- All but the last rule admit only kinds for which `forKinds` gives them.
  rcases hrule with rfl | rfl | rfl | rfl | rfl | rfl
  · refine .inl (filterToCompute_reacts.forKinds_of_proposes h hprop fun k k' hk hk' => ?_)
    obtain rfl := of_decide_eq_true hk
    cases k' <;> first | rfl | exact absurd hk' (by decide)
  · refine .inl (projectToCompute_reacts.forKinds_of_proposes h hprop fun k k' hk hk' => ?_)
    obtain rfl := of_decide_eq_true hk
    cases k' <;> first | rfl | exact absurd hk' (by decide)
  · refine .inl (mergeFilter_reacts.forKinds_of_proposes h hprop fun k k' hk hk' => ?_)
    obtain rfl := of_decide_eq_true hk
    obtain rfl := of_decide_eq_true hk'
    rfl
  · refine .inl (mergeProject_reacts.forKinds_of_proposes h hprop fun k k' hk hk' => ?_)
    obtain rfl := of_decide_eq_true hk
    obtain rfl := of_decide_eq_true hk'
    rfl
  · refine .inl (mergeCompute_reacts.forKinds_of_proposes h hprop fun k k' hk hk' => ?_)
    obtain rfl := of_decide_eq_true hk
    obtain rfl := of_decide_eq_true hk'
    rfl
  · rw [removeCompute_reacts.proposes_iff h hprop.lt_size, h.wf.removable_resolve] at hprop
    exact .inr ⟨rfl, hprop⟩

/-! ## Competition -/

/-- A rule that goes by kinds competes with removing only by merging compute nodes. -/
theorem eq_mergeCompute_of_forKinds (hk : p.HasKinds a k k') (hfor : forKinds k k' = some rule)
    (hrem : p.Removable a) : rule = mergeCompute ∧ p.Contested a := by
  obtain rfl := hrem.kind_eq hk
  cases k' with
  | compute =>
    exact ⟨(Option.some.inj hfor).symm, Plan.over_iff_hasKinds.mpr ⟨_, _, hk, rfl, rfl⟩, hrem⟩
  | _ => cases hfor

/-- Two rules compete only at contested nodes. -/
theorem Proposes.unique (hprop : rule.Proposes p a) (hprop' : rule'.Proposes p a) (h : p.Good)
    (hrule : rule ∈ computeRules) (hrule' : rule' ∈ computeRules) (hno : ¬ p.Contested a) :
    rule = rule' := by
  rcases hprop.cases h hrule with ⟨k, k', hk, hfor⟩ | ⟨rfl, hrem⟩ <;>
    rcases hprop'.cases h hrule' with ⟨l, l', hl, hfor'⟩ | ⟨rfl, hrem'⟩
  · obtain ⟨rfl, rfl⟩ := hk.unique hl
    exact Option.some.inj (hfor.symm.trans hfor')
  · exact absurd (eq_mergeCompute_of_forKinds hk hfor hrem').2 hno
  · exact absurd (eq_mergeCompute_of_forKinds hl hfor' hrem).2 hno
  · rfl

/-- At a contested node exactly two rules propose a replacement. -/
theorem proposes_of_contested (h : p.Good) (hrule : rule ∈ computeRules) (hcon : p.Contested a) :
    rule.Proposes p a ↔ rule = mergeCompute ∨ rule = removeCompute := by
  obtain ⟨hover, hrem⟩ := hcon
  have ha : a < p.size := by
    obtain ⟨_, _, hn, -⟩ := hrem
    exact Plan.lt_size_of_node hn
  constructor
  · intro hprop
    rcases hprop.cases h hrule with ⟨k, k', hk, hfor⟩ | ⟨rfl, -⟩
    · exact .inl (eq_mergeCompute_of_forKinds hk hfor hrem).1
    · exact .inr rfl
  · rintro (rfl | rfl)
    · exact (mergeCompute_reacts.proposes_iff h ha).mpr (h.wf.over_resolve.mpr hover)
    · exact (removeCompute_reacts.proposes_iff h ha).mpr (h.wf.removable_resolve.mpr hrem)

/-- At most one rule for compute nodes proposes a replacement, and the order in which the rules are
tried does not matter, exactly if the node is not a compute node that changes nothing on top of
another one. There two rules propose one each. -/
theorem choice_iff (hp : p.Built) (a : NodeId) :
    ((∀ rule ∈ computeRules, ∀ rule' ∈ computeRules,
      rule.Proposes p a → rule'.Proposes p a → rule = rule') ↔ ¬ p.Contested a) ∧
    ((∀ rules rules', (∀ rule ∈ rules, rule ∈ computeRules) → rules.Perm rules' →
      fireFirst p a rules = fireFirst p a rules') ↔ ¬ p.Contested a) ∧
    (p.Contested a → ∀ rule ∈ computeRules,
      (rule.Proposes p a ↔ rule = mergeCompute ∨ rule = removeCompute)) := by
  have h := hp.good
  have hmerge : mergeCompute ∈ computeRules := by simp [computeRules]
  have hremove : removeCompute ∈ computeRules := by simp [computeRules]
  have hne : mergeCompute ≠ removeCompute := fun heq => absurd (congrArg Rule.name heq) (by decide)
  refine ⟨⟨fun hall hcon => ?_, fun hno rule hrule rule' hrule' hprop hprop' =>
      hprop.unique hprop' h hrule hrule' hno⟩,
    ⟨fun hall hcon => ?_, fun hno rules rules' hrules hperm =>
      fireFirst_perm hperm fun rule hrule rule' hrule' happlies happlies' => ?_⟩,
    fun hcon rule hrule => proposes_of_contested h hrule hcon⟩
  · refine hne (hall _ hmerge _ hremove ?_ ?_)
    · exact (proposes_of_contested h hmerge hcon).mpr (.inl rfl)
    · exact (proposes_of_contested h hremove hcon).mpr (.inr rfl)
  · -- Whichever of the two rules is tried first is the one that is chosen.
    have hmerges := (applies_iff_proposes h hmerge).mpr
      ((proposes_of_contested h hmerge hcon).mpr (.inl rfl))
    have hremoves := (applies_iff_proposes h hremove).mpr
      ((proposes_of_contested h hremove hcon).mpr (.inr rfl))
    have heq := hall [mergeCompute, removeCompute] [removeCompute, mergeCompute]
      (by simp [computeRules]) (.swap _ _ [])
    rw [fireFirst_of_applies hmerges, fireFirst_of_applies hremoves] at heq
    exact hne (Prod.ext_iff.mp (Option.some.inj heq)).1
  · have hrule := hrules rule hrule
    have hrule' := hrules rule' hrule'
    exact ((applies_iff_proposes h hrule).mp happlies).unique
      ((applies_iff_proposes h hrule').mp happlies') h hrule hrule' hno

/-- Of three stacked compute nodes the upper one can only be merged, however the rules are
ordered. -/
theorem choice_at_stacked :
    (∀ rule ∈ computeRules, rule.Proposes stacked 3 → rule = mergeCompute) ∧
    ∀ rules, computeRules.Perm rules →
      fireFirst stacked 3 rules = fireFirst stacked 3 computeRules := by
  have hno : ¬ stacked.Contested 3 := by
    rintro ⟨-, i, program, hn, htrivial, -⟩
    obtain ⟨-, rfl⟩ := Node.compute.inj (Except.ok.inj hn)
    cases htrivial
  have hmerges : mergeCompute.Proposes stacked 3 :=
    ⟨3, .new (.compute 1 positiveTwice), by decide +kernel⟩
  obtain ⟨hone, horder, -⟩ := choice_iff stacked_built 3
  constructor
  · intro rule hrule hprop
    exact hone.mpr hno rule hrule mergeCompute (by simp [computeRules]) hprop hmerges
  · intro rules hperm
    exact (horder.mpr hno computeRules rules (fun _ hrule => hrule) hperm).symm

/-- Puts out each row as it is. -/
def keepRows : Program where
  inputType := [⟨"y", .int⟩]
  entries := [.input 0]
  columns := [⟨0, "y"⟩]
  condition := none
  outputType := [⟨"y", .int⟩]

/-- A compute node that changes nothing over one that drops rows. -/
def padded : Plan where
  slots := [
    ⟨.scan "t" [⟨"x", .int⟩], none⟩,
    ⟨.compute 0 .positive, none⟩,
    ⟨.compute 1 keepRows, none⟩]

/-- Two rules propose a replacement for the upper compute node, and the one that is tried first is
chosen. -/
theorem merge_and_remove_compete : padded.Built ∧
    (mergeCompute.fire padded 2).result = .ok (.replaced 2 (.new (.compute 0 .positive))) ∧
    (removeCompute.fire padded 2).result = .ok (.replaced 2 (.existing 1)) ∧
    (fireFirst padded 2 computeRules).map (·.1.name) = some "CalcMergeRule" ∧
    (fireFirst padded 2 computeRules.reverse).map (·.1.name) = some "CalcRemoveRule" := by
  have hpositive : Program.positive.Valid := rfl
  have hkeep : keepRows.Valid := rfl
  refine ⟨?_, by decide +kernel, by decide +kernel, by decide +kernel, by decide +kernel⟩
  exact Plan.Built.empty.add .scan
    |>.add (.compute hpositive (show Plan.newCompute _ 0 .positive = .ok _ from rfl))
    |>.add (.compute hkeep (show Plan.newCompute _ 1 keepRows = .ok _ from rfl))

end Rule
end RelPlan
