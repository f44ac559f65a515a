import RelPlan.Proofs.Rewrite.Run

/-! # Firing a rule again

A rule that has fired at a node and is fired there again meets what it has written over what lay
below the node it has replaced. It fires again exactly if it would have fired at the input of that
node before (`Rule.fire_again_iff`). Rules that turn filters and projections into compute nodes never
do; merging goes on below a merged compute node (`Rule.merge_fires_again`), and so does removing. -/

namespace RelPlan

variable {p q : Plan} {o a i j : NodeId} {n m : Node} {r : Replacement} {rule : Rule}
  {test test' : KindTest}

/-! ## Where rules fire -/

theorem Rule.fire_resolve (h : p.WF) (a : NodeId) : rule.fire p (p.resolve a) = rule.fire p a := by
  rw [fire, fire, Pattern.bind, Pattern.bind, h.resolve_resolve]

/-- All rules decline where there is no node. -/
theorem Rule.Applies.lt_size (h : rule.Applies p a) : a < p.size := by
  by_contra hlt
  refine h ?_
  have hnode : ∃ e, p.node (p.resolve a) = .error e := by
    cases hn : p.node (p.resolve a) with
    | error e => exact ⟨e, rfl⟩
    | ok n => exact absurd (Plan.lt_size_of_resolve (Plan.lt_size_of_node hn)) hlt
  obtain ⟨e, hnode⟩ := hnode
  have hbind : rule.pattern.bind p a = none := by
    cases rule.pattern
    simp [Pattern.bind, Pattern.bindBelow, hnode]
  rw [fire, hbind]
  rfl

theorem Rule.applies_of_fire (h : (rule.fire p a).result = .ok (.replaced o r)) :
    rule.Applies p a := by
  intro hdeclined
  cases h.symm.trans hdeclined

theorem Rule.lt_size_of_fire (h : (rule.fire p a).result = .ok (.replaced o r)) : a < p.size :=
  (applies_of_fire h).lt_size

theorem Rule.Reacts.declined_iff {At : Plan → NodeId → Prop} (hrule : rule.Reacts At) (h : p.Good)
    (ha : a < p.size) : (rule.fire p a).result = .ok .declined ↔ ¬ At p (p.resolve a) := by
  rw [← rule.fire_resolve h.wf]
  rcases hrule p _ h (h.wf.resolve_lt ha) (h.wf.forward?_resolve a) with ⟨hat, r, hr, -⟩ | ⟨hat, hr⟩
    <;> simp [hr, hat]

theorem Plan.WF.over_resolve (h : p.WF) : p.Over test test' (p.resolve o) ↔ p.Over test test' o := by
  rw [Over, Over, h.node_resolve]

theorem Plan.over_iff_of_node (hn : p.node o = .ok n) (hin : n.inputs = [i])
    (ht : test.admits n.kind) :
    p.Over test test' o ↔ ∃ m, p.node i = .ok m ∧ test'.admits m.kind := by
  constructor
  · rintro ⟨n', i', rest, m, hn', -, hin', hm, ht'⟩
    obtain rfl := Except.ok.inj (hn.symm.trans hn')
    cases hin.symm.trans hin'
    exact ⟨m, hm, ht'⟩
  · rintro ⟨m, hm, ht'⟩
    exact ⟨n, i, [], m, hn, ht, hin, hm, ht'⟩

theorem Plan.removable_iff_of_node {program : Program} (hn : p.node o = .ok (.compute i program)) :
    p.Removable o ↔ program.isTrivial ∧ p.rowType i = .ok program.outputType := by
  constructor
  · rintro ⟨i', program', hn', htrivial, hrt⟩
    cases hn.symm.trans hn'
    exact ⟨htrivial, hrt⟩
  · exact fun ⟨htrivial, hrt⟩ => ⟨i, program, hn, htrivial, hrt⟩

/-! ## After a step -/

namespace Rewrites

/-- Steps are made at nodes with one input. -/
theorem exists_input (hr : Rewrites p o r) : ∃ n i, p.node o = .ok n ∧ n.inputs = [i] := by
  cases hr with
  | convert hn _ hruns | merge hn hruns => exact ⟨_, _, hn, hruns.inputs_eq⟩
  | remove hn => exact ⟨_, _, hn, rfl⟩

variable (h : p.Good) (hf : p.forward? o = none) (hr : Rewrites p o r)
include h hf hr

/-- What a step writes in place of a filter or a projection is a compute node. -/
theorem not_over_written {k : NodeKind} (hk : k ≠ .compute) (hn : p.node o = .ok n)
    (hnk : n.kind = k) : ¬ (r.written p o).Over (.single k) test' (r.target p) := by
  rintro ⟨m, -, -, -, hm, ht, -⟩
  have hm' : m.kind = .compute := by
    cases r with
    | new w =>
      obtain rfl := Except.ok.inj ((hr.node_new h hf).symm.trans hm)
      cases hr <;> rfl
    | existing id =>
      cases hr with
      | remove hn' =>
        obtain rfl := Except.ok.inj (hn.symm.trans hn')
        exact absurd hnk.symm hk
  exact hk ((of_decide_eq_true ht).symm.trans hm')

/-- A merged compute node lies on what the lower of the two has been on. -/
theorem over_compute_written {upper : Program} (hn : p.node o = .ok (.compute i upper))
    {lower : Program} (hm : p.node i = .ok (.compute j lower)) :
    (r.written p o).Over (.single .compute) (.single .compute) (r.target p) ↔
      p.Over (.single .compute) (.single .compute) i := by
  have hi := h.wf.input_lt hn List.mem_cons_self
  have hj := h.wf.input_lt hm List.mem_cons_self
  have hlow : p.height j < p.height o :=
    Nat.lt_trans (h.wf.height_input_lt hm List.mem_cons_self)
      (h.wf.height_input_lt hn List.mem_cons_self)
  have hr' := hr
  rw [Plan.over_iff_of_node hm rfl rfl]
  cases hr' with
  | convert hn' hkind =>
    obtain rfl := Except.ok.inj (hn.symm.trans hn')
    exact absurd rfl hkind
  | merge hn' hruns hm' =>
    obtain rfl := Except.ok.inj (hn.symm.trans hn')
    cases hruns
    obtain ⟨rfl, rfl⟩ := Node.compute.inj (Except.ok.inj (hm.symm.trans hm'))
    rw [Replacement.target, Plan.over_iff_of_node (hr.node_new h hf) rfl rfl,
      hr.node_lower h hf (h.wf.resolve_lt hj)
        (Nat.lt_of_le_of_lt (h.wf.height_resolve_le j) hlow), h.wf.node_resolve]
  | remove hn' =>
    obtain ⟨rfl, rfl⟩ := Node.compute.inj (Except.ok.inj (hn.symm.trans hn'))
    have htarget := (hr.node_existing h hf).trans ((h.wf.node_resolve _).trans hm)
    rw [Replacement.target, Plan.over_iff_of_node htarget rfl rfl, hr.node_lower h hf hj hlow]

omit hr in
/-- What a removed compute node gives way to changes nothing exactly if it did not before. -/
theorem removable_written (hr : Rewrites p o (.existing a)) :
    (Replacement.written p o (.existing a)).Removable a ↔ p.Removable a := by
  have hnode := hr.node_existing h hf
  obtain ⟨_, _, ⟨n, hn, -⟩, -, hlow⟩ := hr.existing_typed h
  cases n with
  | compute i program =>
    have hi := h.wf.input_lt hn List.mem_cons_self
    have hrt : (Replacement.written p o (.existing a)).rowType i = p.rowType i := by
      rw [Plan.rowType, Plan.rowType, hr.node_lower h hf hi
        (Nat.lt_trans (h.wf.height_input_lt hn List.mem_cons_self) hlow)]
    rw [Plan.removable_iff_of_node (hnode.trans hn), Plan.removable_iff_of_node hn, hrt]
  | _ =>
    constructor
    · rintro ⟨_, _, hn', -⟩
      cases (hnode.trans hn).symm.trans hn'
    · rintro ⟨_, _, hn', -⟩
      cases hn.symm.trans hn'

end Rewrites

/-! ## The rules -/

namespace Rule

variable {At : Plan → NodeId → Prop}

/-- A rule that fires proposes a step at the node that stands for the given one. -/
theorem Reacts.of_fire (hrule : rule.Reacts At) (h : p.Good)
    (hfire : (rule.fire p a).result = .ok (.replaced o r)) :
    p.resolve a = o ∧ p.forward? o = none ∧ At p o ∧ Rewrites p o r := by
  have hlt := lt_size_of_fire hfire
  rw [← rule.fire_resolve h.wf] at hfire
  have hf := h.wf.forward?_resolve a
  rcases hrule p _ h (h.wf.resolve_lt hlt) hf with ⟨hat, r', hr, hrew⟩ | ⟨-, hr⟩
  · obtain ⟨rfl, rfl⟩ := Outcome.replaced.inj (Except.ok.inj (hr.symm.trans hfire))
    exact ⟨rfl, hf, hat, hrew⟩
  · cases hr.symm.trans hfire

/-- Whether a rule fires again is up to the node that its step has put in place of the old one. -/
theorem Reacts.again_iff (hrule : rule.Reacts At) (h : p.Good)
    (hfire : (rule.fire p a).result = .ok (.replaced o r)) :
    (rule.fire (r.written p o) a).result = .ok .declined ↔ ¬ At (r.written p o) (r.target p) := by
  obtain ⟨ho, hf, -, hr⟩ := hrule.of_fire h hfire
  have hlt := lt_size_of_fire hfire
  have hred := hr.redirects h hf
  rw [hrule.declined_iff (hr.good h hf).1 (Nat.lt_of_lt_of_le hlt hred.size_le),
    hred.resolve_old hlt ho]

/-- A rule for filters or projections does not fire at what it has written, nor would it have fired
one node further down. -/
theorem Reacts.declines_again {k : NodeKind} (hrule : rule.Reacts (·.Over (.single k) test'))
    (hk : k ≠ .compute) (hbelow : test'.admits k = false) (h : p.Good)
    (hfire : (rule.fire p a).result = .ok (.replaced o r)) (hn : p.node o = .ok n)
    (hin : n.inputs = [i]) :
    (rule.fire (r.written p o) a).result = .ok .declined ∧
      (rule.fire p i).result = .ok .declined := by
  obtain ⟨-, hf, ⟨n', i', rest, m, hn', ht, hin', hm, ht'⟩, hr⟩ := hrule.of_fire h hfire
  obtain rfl := Except.ok.inj (hn.symm.trans hn')
  cases hin.symm.trans hin'
  constructor
  · rw [hrule.again_iff h hfire]
    exact hr.not_over_written h hf hk hn (of_decide_eq_true ht)
  · rw [hrule.declined_iff h (Plan.lt_size_of_node hm), h.wf.over_resolve]
    rintro ⟨m', -, -, -, hm', hkind, -⟩
    obtain rfl := Except.ok.inj (hm.symm.trans hm')
    rw [of_decide_eq_true hkind, hbelow] at ht'
    cases ht'

theorem mergeCompute_again (h : p.Good)
    (hfire : (mergeCompute.fire p a).result = .ok (.replaced o r)) (hn : p.node o = .ok n)
    (hin : n.inputs = [i]) :
    (mergeCompute.fire (r.written p o) a).result = .ok .declined ↔
      (mergeCompute.fire p i).result = .ok .declined := by
  obtain ⟨-, hf, ⟨n', i', rest, m, hn', ht, hin', hm, ht'⟩, hr⟩ :=
    mergeCompute_reacts.of_fire h hfire
  obtain rfl := Except.ok.inj (hn.symm.trans hn')
  cases hin.symm.trans hin'
  rw [mergeCompute_reacts.again_iff h hfire,
    mergeCompute_reacts.declined_iff h (Plan.lt_size_of_node hm), h.wf.over_resolve]
  cases n with
  | compute _ upper =>
    cases m with
    | compute j lower =>
      obtain rfl := List.singleton_inj.mp hin
      rw [hr.over_compute_written h hf hn hm]
    | _ => simp [KindTest.admits, Node.kind] at ht'
  | _ => simp [KindTest.admits, Node.kind] at ht

/-- What removing puts in place of a compute node is the node below it. -/
theorem removeCompute_existing {program : Program} (h : p.Good)
    (hfire : (removeCompute.fire p a).result = .ok (.replaced o r))
    (hn : p.node o = .ok (.compute i program)) : r = .existing (p.resolve i) := by
  obtain ⟨ho, hf, hat, -⟩ := removeCompute_reacts.of_fire h hfire
  obtain ⟨htrivial, hrt⟩ := (Plan.removable_iff_of_node hn).mp hat
  have hexisting := removeCompute_fire h hf hn htrivial hrt
  rw [← ho, removeCompute.fire_resolve h.wf, hfire, ho] at hexisting
  exact (Outcome.replaced.inj (Except.ok.inj hexisting)).2

theorem removeCompute_again (h : p.Good)
    (hfire : (removeCompute.fire p a).result = .ok (.replaced o r)) (hn : p.node o = .ok n)
    (hin : n.inputs = [i]) :
    (removeCompute.fire (r.written p o) a).result = .ok .declined ↔
      (removeCompute.fire p i).result = .ok .declined := by
  obtain ⟨-, hf, ⟨i', program, hn', -⟩, hr⟩ := removeCompute_reacts.of_fire h hfire
  obtain rfl := removeCompute_existing h hfire hn'
  obtain rfl := Except.ok.inj (hn.symm.trans hn')
  obtain rfl := List.singleton_inj.mp hin
  rw [removeCompute_reacts.again_iff h hfire,
    removeCompute_reacts.declined_iff h (h.wf.input_lt hn List.mem_cons_self)]
  exact not_congr (hr.removable_written h hf)

/-- What a rule proposes can be written, and then the rule fires again at the same node exactly if
it would have fired at the input of that node in the first place. Only the rules that merge compute
nodes or remove them do so. -/
theorem fire_again_iff (hp : p.Built) (hrule : rule ∈ computeRules)
    (hfire : (rule.fire p a).result = .ok (.replaced o r)) :
    ∃ i c q, p.inputs a = .ok [i] ∧ (Outcome.replaced o r).commit p = .ok (some c, q) ∧
      ((rule.fire q a).result = .ok .declined ↔ (rule.fire p i).result = .ok .declined) ∧
      (rule ≠ mergeCompute → rule ≠ removeCompute → (rule.fire q a).result = .ok .declined) := by
  have h := hp.good
  obtain ⟨At, hreacts⟩ := exists_reacts hrule
  obtain ⟨rfl, hf, -, hr⟩ := hreacts.of_fire h hfire
  obtain ⟨n, i, hn, hin⟩ := hr.exists_input
  have hinputs : p.inputs a = .ok [p.resolve i] := by
    rw [Plan.inputs, ← h.wf.node_resolve, hn]
    simp [hin]
  refine ⟨p.resolve i, _, _, hinputs, hr.commit_eq h hf, ?_⟩
  rw [rule.fire_resolve h.wf]
  simp only [computeRules, List.mem_cons, List.not_mem_nil, or_false] at hrule
  rcases hrule with rfl | rfl | rfl | rfl | rfl | rfl
  · obtain ⟨hq, hi⟩ := filterToCompute_reacts.declines_again (by decide) rfl h hfire hn hin
    exact ⟨iff_of_true hq hi, fun _ _ => hq⟩
  · obtain ⟨hq, hi⟩ := projectToCompute_reacts.declines_again (by decide) rfl h hfire hn hin
    exact ⟨iff_of_true hq hi, fun _ _ => hq⟩
  · obtain ⟨hq, hi⟩ := mergeFilter_reacts.declines_again (by decide) rfl h hfire hn hin
    exact ⟨iff_of_true hq hi, fun _ _ => hq⟩
  · obtain ⟨hq, hi⟩ := mergeProject_reacts.declines_again (by decide) rfl h hfire hn hin
    exact ⟨iff_of_true hq hi, fun _ _ => hq⟩
  · exact ⟨mergeCompute_again h hfire hn hin, fun hne => absurd rfl hne⟩
  · exact ⟨removeCompute_again h hfire hn hin, fun _ hne => absurd rfl hne⟩

/-- Three compute nodes, one on top of the other. -/
def stacked : Plan where
  slots := [
    ⟨.scan "t" [⟨"x", .int⟩], none⟩,
    ⟨.compute 0 .positive, none⟩,
    ⟨.compute 1 .positive, none⟩,
    ⟨.compute 2 .positive, none⟩]

theorem stacked_built : stacked.Built :=
  have hv : Program.positive.Valid := rfl
  Plan.Built.empty.add .scan
    |>.add (.compute hv (show Plan.newCompute _ 0 .positive = .ok _ from rfl))
    |>.add (.compute hv (show Plan.newCompute _ 1 .positive = .ok _ from rfl))
    |>.add (.compute hv (show Plan.newCompute _ 2 .positive = .ok _ from rfl))

/-- The program of two positive filters, one after the other. -/
def positiveTwice : Program := (Program.merge .positive .positive).toOption.getD .positive

/-- Merging the two lower compute nodes leaves nothing to merge there. -/
theorem merge_rests_at_two : ∃ c q,
    (mergeCompute.fire stacked 2).result = .ok (.replaced 2 (.new (.compute 0 positiveTwice))) ∧
      (Outcome.replaced 2 (.new (.compute 0 positiveTwice))).commit stacked = .ok (some c, q) ∧
      (mergeCompute.fire q 2).result = .ok .declined := by
  have hfire : (mergeCompute.fire stacked 2).result =
      .ok (.replaced 2 (.new (.compute 0 positiveTwice))) := by decide +kernel
  obtain ⟨i, c, q, hi, hcommit, hagain, -⟩ :=
    fire_again_iff stacked_built (by simp [computeRules]) hfire
  obtain rfl : i = 1 := List.singleton_inj.mp (Except.ok.inj (hi.symm.trans (by decide +kernel)))
  exact ⟨c, q, hfire, hcommit, hagain.mpr (by decide +kernel)⟩

/-- Merging the two upper compute nodes leaves them on the lowest one, where the rule that has
merged them fires again. -/
theorem merge_fires_again : ∃ c q,
    stacked.Built ∧ mergeCompute ∈ computeRules ∧
      (mergeCompute.fire stacked 3).result = .ok (.replaced 3 (.new (.compute 1 positiveTwice))) ∧
      (Outcome.replaced 3 (.new (.compute 1 positiveTwice))).commit stacked = .ok (some c, q) ∧
      (mergeCompute.fire q 3).result ≠ .ok .declined :=
  ⟨⟨3, 4⟩, _, stacked_built, by simp [computeRules], by decide +kernel, rfl, by decide +kernel⟩

end Rule
end RelPlan
