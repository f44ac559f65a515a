import RelPlan.Proofs.Plan.Replacement
import RelPlan.Proofs.Rewrite.Results
import RelPlan.Proofs.Rewrite.Safety

/-! # Field names

A plan compares types only when a node is replaced, so that field names are kept by what the rules
propose. A filter passes on the names of its input; as long as every filter says so itself
(`Plan.FiltersAgree`), which only a replacement with other names can spoil (`Plan.Unrenamed.agree`),
each rewriting step keeps the row types of all ids, names included (`Rewrites.keepsRowTypes`), and so
do any number of runs (`Rewriter.rowType_rewriteAll`). -/

namespace RelPlan
namespace Plan

/-- Every filter has the fields of its input, names included. -/
def FiltersAgree (p : Plan) : Prop :=
  ∀ a i c rt, p.node a = .ok (.filter i c rt) → p.rowType i = .ok rt

/-- The second plan gives the row types of the first one to all its ids, names included. -/
def KeepsRowTypes (p q : Plan) : Prop := ∀ a rt, p.rowType a = .ok rt → q.rowType a = .ok rt

/-- The plan can be reached from the empty one by adding nodes and by replacements that rename no
field. -/
inductive Unrenamed : Plan → Prop where
  | empty : Unrenamed empty
  | add {p : Plan} {n : Node} : Unrenamed p → p.Constructed n → Unrenamed (p.add n).2
  | replace {p q : Plan} {old new : NodeId} : Unrenamed p → p.replace old new = .ok q →
      p.rowType old = p.rowType new → Unrenamed q
  | replaceWith {p q : Plan} {old new : NodeId} {n : Node} : Unrenamed p → p.Constructed n →
      p.replaceWith old n = .ok (new, q) → p.rowType old = .ok n.rowType → Unrenamed q

variable {p q : Plan} {a b i old new : NodeId} {n m : Node} {rt : RowType}

theorem KeepsRowTypes.refl (p : Plan) : p.KeepsRowTypes p := fun _ _ => id

theorem KeepsRowTypes.trans {r : Plan} (h : p.KeepsRowTypes q) (h' : q.KeepsRowTypes r) :
    p.KeepsRowTypes r := fun a rt ha => h' a rt (h a rt ha)

theorem rowType_of_node (hn : p.node a = .ok n) : p.rowType a = .ok n.rowType :=
  rowType_eq_ok_iff.mpr ⟨n, hn, rfl⟩

theorem WF.rowType_resolve (h : p.WF) (a : NodeId) : p.rowType (p.resolve a) = p.rowType a := by
  rw [rowType, rowType, h.node_resolve]

/-- A redirection keeps row types if the new node has that of the old one. -/
theorem Redirects.keepsRowTypes (h : p.Redirects q old new) (hp : p.WF) (hq : q.WF)
    (hold : p.rowType old = .ok rt) (hnew : q.rowType new = .ok rt) : p.KeepsRowTypes q := by
  intro a rt' ha
  obtain ⟨n, hn, rfl⟩ := rowType_eq_ok_iff.mp ha
  have hlt := lt_size_of_node hn
  by_cases ho : p.resolve a = old
  · rw [← ha, ← hp.rowType_resolve, ho, hold, ← hq.rowType_resolve, h.resolve_old hlt ho, hnew]
  · exact rowType_of_node ((h.node_other hp hlt ho).trans hn)

/-- Filters go on agreeing if no new one comes in that does not. -/
theorem FiltersAgree.of_keepsRowTypes (h : p.KeepsRowTypes q)
    (hq : ∀ a i c rt, q.node a = .ok (.filter i c rt) → p.rowType i = .ok rt) : q.FiltersAgree :=
  fun a i c rt ha => h i rt (hq a i c rt ha)

theorem newProject_eq_ok {es : List Expr} {names : List String}
    (h : p.newProject i es names = .ok n) : ∃ rt, n = .project i es rt := by
  simp only [newProject] at h
  split at h
  · cases h
  obtain ⟨_, _, h⟩ := Except.bind_eq_ok_iff.mp h
  obtain ⟨fields, _, h⟩ := Except.bind_eq_ok_iff.mp h
  exact ⟨fields, (Except.ok.inj h).symm⟩

/-- A filter is made with the fields of its input. -/
theorem Constructed.filter_agrees {c : Expr} (h : p.Constructed n) (hn : n = .filter i c rt) :
    p.rowType i = .ok rt := by
  subst hn
  generalize hn : Node.filter i c rt = n at h
  cases h with
  | scan => cases hn
  | values h =>
    obtain ⟨_, _, h⟩ := Except.bind_eq_ok_iff.mp h
    cases hn.trans (Except.ok.inj h).symm
  | filter h =>
    obtain ⟨rt', hrt, h⟩ := Except.bind_eq_ok_iff.mp h
    obtain ⟨_, _, h⟩ := Except.bind_eq_ok_iff.mp h
    split at h
    · cases hn.trans (Except.ok.inj h).symm
      exact hrt
    · cases h
  | project h =>
    obtain ⟨_, rfl⟩ := newProject_eq_ok h
    cases hn
  | projectFields h =>
    obtain ⟨_, _, h⟩ := Except.bind_eq_ok_iff.mp h
    obtain ⟨_, _, h⟩ := Except.bind_eq_ok_iff.mp h
    obtain ⟨_, rfl⟩ := newProject_eq_ok h
    cases hn
  | compute _ h =>
    obtain ⟨_, _, h⟩ := Except.bind_eq_ok_iff.mp h
    split at h
    · cases hn.trans (Except.ok.inj h).symm
    · cases h
  | join h =>
    obtain ⟨_, _, h⟩ := Except.bind_eq_ok_iff.mp h
    obtain ⟨_, _, h⟩ := Except.bind_eq_ok_iff.mp h
    split at h
    · cases hn.trans (Except.ok.inj h).symm
    · obtain ⟨_, _, h⟩ := Except.bind_eq_ok_iff.mp h
      split at h
      · cases hn.trans (Except.ok.inj h).symm
      · cases h

theorem Unrenamed.built (h : p.Unrenamed) : p.Built := by
  induction h with
  | empty => exact .empty
  | add _ hn ih => exact ih.add hn
  | replace _ hq _ ih => exact ih.replace hq
  | replaceWith _ hn hq _ ih => exact ih.replaceWith hn hq

/-- What a replacement leaves are the nodes of the plan and those in new slots. -/
theorem Replaced.node_cases (h : p.Replaced q old new) (ha : q.node a = .ok n) :
    (∃ b, p.node b = .ok n) ∨ p.size ≤ q.resolve a := by
  by_cases hlt : q.resolve a < p.size
  · left
    refine ⟨q.resolve a, ?_⟩
    have hf : p.forward? (q.resolve a) = none := by
      cases hf : p.forward? (q.resolve a) with
      | none => rfl
      | some b => cases (h.wf.forward?_resolve a).symm.trans (h.forward _ b hf)
    rw [node, resolve_of_forward?_eq_none hf, ← h.rawNode _ hlt, ← ha, node]
  · exact .inr (Nat.le_of_not_lt hlt)

theorem Unrenamed.agree (h : p.Unrenamed) : p.FiltersAgree := by
  induction h with
  | empty => exact fun a i c rt ha => absurd (lt_size_of_node ha) (Nat.not_lt_zero _)
  | @add p n hp hn ih =>
    have hwf := hp.built.good.wf
    have hkeep : p.KeepsRowTypes (p.add n).2 := by
      intro a rt ha
      obtain ⟨m, hm, rfl⟩ := rowType_eq_ok_iff.mp ha
      apply rowType_of_node
      rw [node, hwf.resolve_add, rawNode_add_of_lt (lt_size_of_rawNode hm)]
      exact hm
    refine .of_keepsRowTypes hkeep fun a i c rt ha => ?_
    rw [node, hwf.resolve_add] at ha
    have hlt := lt_size_of_rawNode ha
    rw [size_add] at hlt
    rcases Nat.lt_or_eq_of_le (Nat.le_of_lt_succ hlt) with hlt | heq
    · rw [rawNode_add_of_lt hlt] at ha
      exact ih a i c rt ha
    · rw [heq, rawNode_add_size] at ha
      exact hn.filter_agrees (Except.ok.inj ha)
  | @replace p q old new hp hq hrt ih =>
    have hwf := hp.built.good.wf
    obtain ⟨hrep, hsize⟩ := hwf.replace_replaced hq
    obtain ⟨_, _, -, ⟨m, hm, -⟩, ⟨-, rfl⟩ | ⟨hne, -⟩⟩ := hwf.replace_eq_ok_iff.mp hq
    · exact ih
    have hnew : q.rowType (p.resolve new) = .ok m.rowType := by
      apply rowType_of_node
      rw [hrep.redirects.node_other hwf (hwf.resolve_lt (lt_size_of_node hm))
        (by rw [hwf.resolve_resolve]; exact hne.symm), hwf.node_resolve, hm]
    refine .of_keepsRowTypes (hrep.redirects.keepsRowTypes hwf hrep.wf ?_ hnew) fun a i c rt ha => ?_
    · rw [hwf.rowType_resolve, hrt, rowType_of_node hm]
    · rcases hrep.node_cases ha with ⟨b, hb⟩ | hge
      · exact ih b i c rt hb
      · exact absurd (lt_size_of_rawNode ha) (Nat.not_lt_of_ge (hsize ▸ hge))
  | @replaceWith p q old new n hp hn hq hrt ih =>
    have hwf := hp.built.good.wf
    obtain ⟨hrep, rfl, hsize, hnode⟩ := hwf.replaceWith_replaced hq
    refine .of_keepsRowTypes (hrep.redirects.keepsRowTypes hwf hrep.wf ?_ (rowType_of_node hnode))
      fun a i c rt ha => ?_
    · rw [hwf.rowType_resolve, hrt]
    · rcases hrep.node_cases ha with ⟨b, hb⟩ | hge
      · exact ih b i c rt hb
      · have hlt := lt_size_of_rawNode ha
        rw [hsize] at hlt
        rw [← hrep.wf.node_resolve, Nat.le_antisymm (Nat.le_of_lt_succ hlt) hge, hnode] at ha
        exact hn.filter_agrees (Except.ok.inj ha)

end Plan

/-! ## Rewriting -/

variable {p q : Plan} {o i : NodeId} {n m : Node} {r : Replacement} {rt : RowType}

/-- Where filters agree with their inputs, a stage puts out the fields that its row type says. -/
theorem Plan.FiltersAgree.fieldsOver_eq (h : p.FiltersAgree) (hn : p.node o = .ok n)
    (hr : n.Runs i c es) (hi : p.rowType i = .ok rt) : n.fieldsOver rt = n.rowType := by
  cases hr with
  | filter => exact Except.ok.inj (hi.symm.trans (h _ _ _ _ hn))
  | project | compute => rfl

namespace Rewrites

/-- What a rule proposes has the fields of the node that it replaces, names included. -/
theorem rowType_target (h : p.Good) (hf : p.forward? o = none) (hagree : p.FiltersAgree)
    (hr : Rewrites p o r) :
    ∃ rt, p.rowType o = .ok rt ∧ (r.written p o).rowType (r.target p) = .ok rt := by
  have hr' := hr
  cases hr with
  | convert hn _ hruns hm _ _ _ _ _ hfields =>
    refine ⟨_, Plan.rowType_of_node hn, ?_⟩
    rw [← hagree.fieldsOver_eq hn hruns (Plan.rowType_of_node hm), ← hfields]
    exact Plan.rowType_of_node (hr'.node_new h hf)
  | merge hn hruns hm _ _ _ _ _ _ hfields =>
    refine ⟨_, Plan.rowType_of_node hn, ?_⟩
    rw [← hagree.fieldsOver_eq hn hruns (Plan.rowType_of_node hm)]
    exact (Plan.rowType_of_node (hr'.node_new h hf)).trans (congrArg _ hfields)
  | remove hn _ hrt =>
    refine ⟨_, Plan.rowType_of_node hn, ?_⟩
    rw [Replacement.target, Plan.rowType, hr'.node_existing h hf, ← Plan.rowType,
      h.wf.rowType_resolve, hrt]
    rfl

/-- A rewriting step keeps the row types of all ids, and filters agree with their inputs. -/
theorem keepsRowTypes (h : p.Good) (hf : p.forward? o = none) (hagree : p.FiltersAgree)
    (hr : Rewrites p o r) : p.KeepsRowTypes (r.written p o) ∧ (r.written p o).FiltersAgree := by
  obtain ⟨rt, hold, hnew⟩ := hr.rowType_target h hf hagree
  have hkeep := (hr.redirects h hf).keepsRowTypes h.wf (hr.good h hf).1.wf hold hnew
  refine ⟨hkeep, .of_keepsRowTypes hkeep fun a i c rt ha => ?_⟩
  rcases hr.node_written h hf ha with ⟨b, hb⟩ | rfl
  · exact hagree b i c rt hb
  · cases hr

end Rewrites

theorem Steps.keepsRowTypes (h : Steps p q) (hp : p.Good) (hagree : p.FiltersAgree) :
    q.Good ∧ q.FiltersAgree ∧ p.KeepsRowTypes q := by
  induction h with
  | refl => exact ⟨hp, hagree, .refl p⟩
  | step _ hf hr ih =>
    obtain ⟨hq, hagree', hkeep⟩ := ih
    obtain ⟨hstep, hagree''⟩ := hr.keepsRowTypes hq hf hagree'
    exact ⟨(hr.good hq hf).1, hagree'', hkeep.trans hstep⟩

namespace Rewriter

variable {rules : List Rule} {fs : List Firing} {run : Rewriter}

/-- A firing of a rule for compute nodes writes a rewriting step or nothing. -/
theorem after_of_computeRules (run : Rewriter) {f : Firing} (hrule : f.rule ∈ Rule.computeRules)
    (h : f.plan.Good) (hlt : f.node < f.plan.size) (hf : f.plan.forward? f.node = none) :
    f.after run = f.plan ∨
      ∃ r, Rewrites f.plan f.node r ∧ f.after run = r.written f.plan f.node := by
  rw [Firing.after_eq, Firing.result, Firing.outcome]
  rcases Rule.exists_rewrites hrule h hlt hf with ⟨r, hr, hrew⟩ | ⟨-, hr⟩
  · refine .inr ⟨r, hrew, ?_⟩
    simp [hr, hrew.commit_eq h hf]
  · refine .inl ?_
    simp [hr, Outcome.commit]

/-- Firings of rules for compute nodes make rewriting steps. -/
theorem Fired.steps {q' : Plan} (h : run.Fired q fs q') (hg : run.registry.Registers rules)
    (hrules : ∀ rule ∈ rules, rule ∈ Rule.computeRules) (hgood : q.Good) (hq : Steps p q) :
    Steps p q' := by
  induction h with
  | nil => exact hq
  | @cons n q' f fs hid hn hrule _ ih =>
    rw [hg.candidates_eq] at hrule
    have hf := Plan.isReplaced_eq_false_iff.mp hid
    rcases after_of_computeRules run (hrules _ (List.mem_filter.mp hrule).1) hgood
      (Plan.lt_size_of_node hn) hf with heq | ⟨r, hr, heq⟩
    · exact ih (heq ▸ hgood) (heq ▸ hq)
    · exact ih (heq ▸ (hr.good hgood hf).1) (heq ▸ hq.step hf hr)

/-- Rewrites a plan with one rewriter after the other, each from a root of its own. -/
def rewriteAll (runs : List (Rewriter × NodeId)) (p : Plan) : Plan :=
  runs.foldl (fun p run => (run.1.rewrite p run.2).2.plan) p

/-- One run keeps row types, whatever it ends with, and also where there is no root. -/
theorem rewrite_keepsRowTypes (hp : p.Good) (hagree : p.FiltersAgree)
    (hg : run.registry.Registers rules) (hrules : ∀ rule ∈ rules, rule ∈ Rule.computeRules)
    (root : NodeId) :
    (run.rewrite p root).2.plan.Good ∧ (run.rewrite p root).2.plan.FiltersAgree ∧
      p.KeepsRowTypes (run.rewrite p root).2.plan := by
  obtain ⟨fs, hleads⟩ := run.rewrite_leads p root
  exact (hleads.fired.steps hg hrules hp .refl).keepsRowTypes hp hagree

theorem rewriteAll_keepsRowTypes {runs : List (Rewriter × NodeId)} (hp : p.Good)
    (hagree : p.FiltersAgree) (hruns : ∀ run ∈ runs, ∃ rules, run.1.registry.Registers rules ∧
      ∀ rule ∈ rules, rule ∈ Rule.computeRules) : p.KeepsRowTypes (rewriteAll runs p) := by
  induction runs generalizing p with
  | nil => exact .refl p
  | cons run runs ih =>
    obtain ⟨⟨rules, hg, hrules⟩, hruns⟩ := List.forall_mem_cons.mp hruns
    obtain ⟨hgood, hagree', hkeep⟩ := rewrite_keepsRowTypes hp hagree hg hrules run.2
    exact hkeep.trans (ih hgood hagree' hruns)

/-- Field names survive rewriting: if every filter has the fields of its input, any sequence of runs
with any of the rules for compute nodes leaves each id its row type, names and types both. -/
theorem rowType_rewriteAll {runs : List (Rewriter × NodeId)} (hp : p.Built)
    (hagree : p.FiltersAgree) (hruns : ∀ run ∈ runs, ∃ rules, run.1.registry.Registers rules ∧
      ∀ rule ∈ rules, rule ∈ Rule.computeRules) :
    ∀ a < p.size, (rewriteAll runs p).rowType a = p.rowType a := by
  intro a ha
  obtain ⟨n, hn⟩ := hp.good.wf.exists_node ha
  rw [Plan.rowType_of_node hn]
  exact rewriteAll_keepsRowTypes hp.good hagree hruns a _ (Plan.rowType_of_node hn)

/-- Renames the fields of a table and drops rows, below a projection that changes nothing. -/
def renamed : Plan where
  slots := [
    ⟨.scan "t" [⟨"a", .int⟩, ⟨"b", .int⟩], none⟩,
    ⟨.project 0 [.input 0, .input 1] [⟨"x", .int⟩, ⟨"y", .int⟩], none⟩,
    ⟨.filter 1 (.binary (.input 0) .gt (.literal (.int 0))) [⟨"x", .int⟩, ⟨"y", .int⟩], none⟩,
    ⟨.project 2 [.input 0, .input 1] [⟨"x", .int⟩, ⟨"y", .int⟩], none⟩]

theorem renamed_unrenamed : renamed.Unrenamed :=
  Plan.Unrenamed.empty.add .scan
    |>.add (.project (show Plan.newProject _ 0 [.input 0, .input 1] ["x", "y"] = .ok _ from rfl))
    |>.add (.filter (show Plan.newFilter _ 1 (.binary (.input 0) .gt (.literal (.int 0))) = .ok _
      from rfl))
    |>.add (.project (show Plan.newProject _ 2 [.input 0, .input 1] ["x", "y"] = .ok _ from rfl))

/-- The projection that only renames becomes a compute node and stays, whatever is rewritten. -/
theorem rowType_rewriteAll_renamed : ∃ q,
    rewriteAll [(.default, 1), (.default, 9), (.default, 3)] renamed = q ∧
      q.rowType 0 = .ok [⟨"a", .int⟩, ⟨"b", .int⟩] ∧ q.rowType 1 = .ok [⟨"x", .int⟩, ⟨"y", .int⟩] ∧
      q.rowType 3 = .ok [⟨"x", .int⟩, ⟨"y", .int⟩] ∧ q.resolve 1 = 4 ∧ q.resolve 3 = 6 := by
  have h : ∀ a < renamed.size,
      (rewriteAll [(.default, 1), (.default, 9), (.default, 3)] renamed).rowType a =
        renamed.rowType a :=
    rowType_rewriteAll renamed_unrenamed.built renamed_unrenamed.agree fun run hrun => by
      simp only [List.mem_cons, List.not_mem_nil, or_false] at hrun
      rcases hrun with rfl | rfl | rfl <;> exact ⟨_, Registry.default_registers, fun _ => id⟩
  exact ⟨_, rfl, h 0 (by decide), h 1 (by decide), h 3 (by decide), by decide +kernel,
    by decide +kernel⟩

end Rewriter
end RelPlan
