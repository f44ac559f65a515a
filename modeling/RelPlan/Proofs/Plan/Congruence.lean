import RelPlan.Proofs.Plan.Replacement

/-! # Results after a replacement

Evaluation only looks at what a node computes with. So a replacement that keeps the result of the
replaced node keeps the results of all nodes, and a replacement of a node that another one does not
compute with does not show there at all (`Plan.WF.replacement_congruent`). -/

namespace RelPlan
namespace Plan

open Relation

variable {p q : Plan} {tables : Tables} {a b old new : NodeId} {n : Node} {rows : List Row}
  {f g : NodeId → Except ExecutionError (List Row)}

theorem node_of_size_le (h : p.size ≤ a) : p.node a = .error (.nodeNotFound a) := by
  rw [node, resolve_of_forward?_eq_none (forward?_of_size_le h), rawNode,
    List.getElem?_eq_none h]

theorem evaluate_of_size_le (h : p.size ≤ a) :
    p.evaluate tables a = .error (.plan (.nodeNotFound a)) := by
  rw [evaluate, depth, evaluateWithin, node_of_size_le h]
  rfl

theorem evaluate_congr (h : p.node a = p.node b) : p.evaluate tables a = p.evaluate tables b := by
  rw [evaluate, evaluate, depth, evaluateWithin, evaluateWithin, h]

/-- A node gives the same over two plans in which its inputs have the same types and give the same. -/
theorem evaluateNode_congr_plan (htypes : ∀ i ∈ n.inputs, ∃ ts, p.HasTypes i ts ∧ q.HasTypes i ts)
    (hf : ∀ i ∈ n.inputs, f i = g i) :
    p.evaluateNode tables f n = q.evaluateNode tables g n := by
  rw [evaluateNode_congr hf]
  cases n with
  | scan | values | filter | project | compute => rfl
  | join l r =>
    obtain ⟨ts, hp, hq⟩ := htypes r (by simp [Node.inputs])
    obtain ⟨rt, hrt, hts⟩ := hp.exists_rowType
    obtain ⟨rt', hrt', hts'⟩ := hq.exists_rowType
    have hwidth : rt.length = rt'.length := by
      rw [← RowType.length_types, hts, ← hts', RowType.length_types]
    simp only [evaluateNode, hrt, hrt', Except.mapError_ok, Except.ok_bind, hwidth]

/-- A node gives its rows also where its inputs give no less and have the same types. -/
theorem evaluateNode_mono (htypes : ∀ i ∈ n.inputs, ∀ ts, p.HasTypes i ts → q.HasTypes i ts)
    (hf : ∀ i ∈ n.inputs, ∀ rows, f i = .ok rows → g i = .ok rows)
    (h : p.evaluateNode tables f n = .ok rows) : q.evaluateNode tables g n = .ok rows := by
  cases n with
  | scan | values => exact h
  | filter i | project i | compute i =>
    obtain ⟨input, hinput, h⟩ := Except.bind_eq_ok_iff.mp h
    exact Except.bind_eq_ok_iff.mpr ⟨input, hf i List.mem_cons_self input hinput, h⟩
  | join l r =>
    have hr : r ∈ (Node.join l r ‹_› ‹_› ‹_›).inputs := by simp [Node.inputs]
    obtain ⟨left, hleft, h⟩ := Except.bind_eq_ok_iff.mp h
    obtain ⟨right, hright, h⟩ := Except.bind_eq_ok_iff.mp h
    obtain ⟨rt, hrt, h⟩ := Except.bind_eq_ok_iff.mp h
    have hts := htypes r hr _ (hasTypes_of_rowType (Except.mapError_eq_ok_iff.mp hrt))
    obtain ⟨rt', hrt', hlen⟩ := hts.exists_rowType
    have hwidth : rt'.length = rt.length := by
      rw [← RowType.length_types, hlen, RowType.length_types]
    simp only [evaluateNode, hf l List.mem_cons_self left hleft, hf r hr right hright, hrt',
      Except.ok_bind, Except.mapError_ok, hwidth]
    exact h

namespace Replaced

variable (h : p.WF) (hr : p.Replaced q old new)
include h hr

/-- A node gives the same as before if its inputs do. -/
theorem evaluateNode_eq (hn : p.node a = .ok n) (hf : ∀ i ∈ n.inputs, g i = f i) :
    q.evaluateNode tables g n = p.evaluateNode tables f n := by
  refine (evaluateNode_congr_plan (fun i hi => ?_) fun i hi => (hf i hi).symm).symm
  obtain ⟨ts, hts⟩ := h.exists_hasTypes (h.input_lt hn hi)
  exact ⟨ts, hts, hr.types i ts hts⟩

/-- Where the replaced node is not computed with, nothing has changed. -/
theorem evaluate_unreached (ha : a < p.size)
    (hno : ¬ ReflTransGen p.Child (p.resolve a) (p.resolve old)) :
    q.evaluate tables a = p.evaluate tables a := by
  induction hk : p.height a using Nat.strongRecOn generalizing a with
  | ind k ih =>
    obtain ⟨n, hn⟩ := h.exists_node ha
    have hnode {b} (hb : b < p.size) (hno : ¬ ReflTransGen p.Child (p.resolve b) (p.resolve old)) :
        q.node b = p.node b :=
      hr.redirects.node_other h hb fun heq => hno (heq ▸ .refl)
    have hinput (i) (hi : i ∈ n.inputs) : ¬ ReflTransGen p.Child (p.resolve i) (p.resolve old) :=
      fun hreach => hno (.head (.intro ((h.node_resolve a).trans hn) hi) hreach)
    rw [h.evaluate_eq hn, hr.wf.evaluate_eq ((hnode ha hno).trans hn)]
    exact hr.evaluateNode_eq h hn fun i hi =>
      ih _ (hk ▸ h.height_input_lt hn hi) (h.input_lt hn hi) (hinput i hi) rfl

/-- If the replaced node keeps its result, all nodes do. -/
theorem evaluate_eq_ok (hnew : ∀ rows, p.evaluate tables old = .ok rows →
    q.evaluate tables new = .ok rows) (ha : a < p.size) (hrows : p.evaluate tables a = .ok rows) :
    q.evaluate tables a = .ok rows := by
  induction hk : p.height a using Nat.strongRecOn generalizing a rows with
  | ind k ih =>
    by_cases heq : p.resolve a = p.resolve old
    · have hold : p.evaluate tables a = p.evaluate tables old :=
        evaluate_congr (by rw [node, node, heq])
      have hnode : q.node a = q.node new := by
        rw [node, node, hr.redirects.resolve_old ha heq, hr.redirects.resolve_new hr.wf ha heq]
      rw [evaluate_congr hnode]
      exact hnew rows (hold.symm.trans hrows)
    · obtain ⟨n, hn⟩ := h.exists_node ha
      rw [h.evaluate_eq hn] at hrows
      rw [hr.wf.evaluate_eq ((hr.redirects.node_other h ha heq).trans hn)]
      refine evaluateNode_mono (fun i _ ts => hr.types i ts) (fun i hi rows hi' => ?_) hrows
      exact ih _ (hk ▸ h.height_input_lt hn hi) (h.input_lt hn hi) hi' rfl

/-- If the new node has the result of the old one, be it an error, all nodes have the results that
they had. -/
theorem evaluate_eq (hnew : q.evaluate tables new = p.evaluate tables old) (ha : a < p.size) :
    q.evaluate tables a = p.evaluate tables a := by
  induction hk : p.height a using Nat.strongRecOn generalizing a with
  | ind k ih =>
    by_cases heq : p.resolve a = p.resolve old
    · have hnode : q.node a = q.node new := by
        rw [node, node, hr.redirects.resolve_old ha heq, hr.redirects.resolve_new hr.wf ha heq]
      rw [evaluate_congr hnode, hnew]
      exact evaluate_congr (by rw [node, node, heq])
    · obtain ⟨n, hn⟩ := h.exists_node ha
      rw [h.evaluate_eq hn, hr.wf.evaluate_eq ((hr.redirects.node_other h ha heq).trans hn)]
      exact hr.evaluateNode_eq h hn fun i hi =>
        ih _ (hk ▸ h.height_input_lt hn hi) (h.input_lt hn hi) rfl

end Replaced

/-- What holds of the results of two plans, the second of which has another node for `old`, if `found`
is the result of that node. -/
structure Congruent (tables : Tables) (p q : Plan) (old : NodeId)
    (found : Except ExecutionError (List Row)) : Prop where
  /-- If the new node keeps the result of the old one, every node keeps its result. -/
  keeps : (∀ rows, p.evaluate tables old = .ok rows → found = .ok rows) →
    ∀ a < p.size, ∀ rows, p.evaluate tables a = .ok rows → q.evaluate tables a = .ok rows
  /-- A node that does not compute with the old one has the same result or error as before. Only an
  id that has just come to name a slot is left out. -/
  frame : ∀ a, a < p.size ∨ q.size ≤ a → ¬ ReflTransGen p.Child (p.resolve a) (p.resolve old) →
    q.evaluate tables a = p.evaluate tables a

theorem Replaced.frame (h : p.WF) (hr : p.Replaced q old new) (ha : a < p.size ∨ q.size ≤ a)
    (hno : ¬ ReflTransGen p.Child (p.resolve a) (p.resolve old)) :
    q.evaluate tables a = p.evaluate tables a := by
  rcases ha with ha | ha
  · exact hr.evaluate_unreached h ha hno
  · rw [evaluate_of_size_le ha, evaluate_of_size_le (Nat.le_trans hr.size_le ha)]

/-- A replacement, by a node of the plan or by an added one, is a congruence with a frame. -/
theorem WF.replacement_congruent (h : p.WF) (tables : Tables) (old : NodeId) :
    (∀ new q, p.replace old new = .ok q →
      Congruent tables p q old (p.evaluate tables new)) ∧
    ∀ n new q, p.replaceWith old n = .ok (new, q) →
      Congruent tables p q old (q.evaluate tables new) := by
  constructor
  · intro new q hq
    obtain ⟨hr, -⟩ := h.replace_replaced hq
    refine ⟨fun hnew a ha rows hrows => ?_, fun a => hr.frame h⟩
    obtain ⟨_, _, -, hlt, ⟨-, rfl⟩ | ⟨-, -, hback, -⟩⟩ := h.replace_eq_ok_iff.mp hq
    · exact hrows
    · have hfound : q.evaluate tables (p.resolve new) = p.evaluate tables new := by
        rw [hr.evaluate_unreached h (h.resolve_lt hlt.lt_size) (by rwa [h.resolve_resolve])]
        exact evaluate_congr (h.node_resolve new)
      exact hr.evaluate_eq_ok h (fun rows hrows => hfound.trans (hnew rows hrows)) ha hrows
  · intro n new q hq
    obtain ⟨hr, -⟩ := h.replaceWith_replaced hq
    exact ⟨fun hnew a ha rows => hr.evaluate_eq_ok h hnew ha, fun a => hr.frame h⟩

/-- A table beside a list, a filter that divides by the table's field, and a longer list that is
filtered. -/
def paired : Plan where
  slots := [
    ⟨.scan "t" [⟨"a", .int⟩], none⟩,
    ⟨.values [⟨"x", .int⟩] [[.int 1], [.int 2]], none⟩,
    ⟨.join 0 1 .left (some (.binary (.input 0) .eq (.input 1))) [⟨"a", .int⟩, ⟨"x", .int⟩], none⟩,
    ⟨.filter 0 (.binary (.binary (.literal (.int 1)) .div (.input 0)) .gt (.literal (.int 0)))
      [⟨"a", .int⟩], none⟩,
    ⟨.values [⟨"y", .int⟩] [[.int 1], [.int 2], [.int 0]], none⟩,
    ⟨.filter 4 (.binary (.input 0) .gt (.literal (.int 0))) [⟨"y", .int⟩], none⟩]

def oneAndZero : Tables := Tables.none.insert "t" [[.int 1], [.int 0]]

theorem paired_edited : paired.Edited :=
  Edited.empty.edit (e := .add (.scan "t" [⟨"a", .int⟩])) (by decide)
    |>.edit (e := .add (.values [⟨"x", .int⟩] [[.int 1], [.int 2]])) (by decide)
    |>.edit (e := .add (.join 0 1 .left (some (.binary (.input 0) .eq (.input 1)))
      [⟨"a", .int⟩, ⟨"x", .int⟩])) (by decide)
    |>.edit (e := .add (.filter 0 (.binary (.binary (.literal (.int 1)) .div (.input 0)) .gt
      (.literal (.int 0))) [⟨"a", .int⟩])) (by decide)
    |>.edit (e := .add (.values [⟨"y", .int⟩] [[.int 1], [.int 2], [.int 0]])) (by decide)
    |>.edit (e := .add (.filter 4 (.binary (.input 0) .gt (.literal (.int 0))) [⟨"y", .int⟩]))
      (by decide)

theorem paired_unreached : ¬ ReflTransGen paired.Child (paired.resolve 3) (paired.resolve 1) := by
  obtain ⟨ids, hids, -, hmem⟩ := paired_edited.wf.exists_reachable (show 3 < paired.size by decide)
  obtain rfl : [0, 3] = ids := Except.ok.inj ((show paired.reachable 3 = .ok [0, 3] by
    decide +kernel).symm.trans hids)
  rw [← hmem]
  decide

/-- The join keeps its rows, one of them padded, when the list is replaced by the filtered one and
when it is replaced by a list of other names; the division fails as before. -/
theorem replacement_congruent_paired :
    (∃ q, paired.replace 1 5 = .ok q ∧
      q.evaluate oneAndZero 2 = .ok [[.int 1, .int 1], [.int 0, .null]] ∧
      q.evaluate oneAndZero 3 = .error (.program (.evaluation (.value .divisionByZero)))) ∧
    ∃ q, paired.replaceWith 1 (.values [⟨"z", .int⟩] [[.int 1], [.int 2]]) = .ok (6, q) ∧
      q.evaluate oneAndZero 2 = .ok [[.int 1, .int 1], [.int 0, .null]] ∧
      q.evaluate oneAndZero 3 = .error (.program (.evaluation (.value .divisionByZero))) := by
  obtain ⟨hexisting, hadded⟩ := paired_edited.wf.replacement_congruent oneAndZero 1
  have hjoin : paired.evaluate oneAndZero 2 = .ok [[.int 1, .int 1], [.int 0, .null]] := by
    decide +kernel
  have hfail : paired.evaluate oneAndZero 3 =
      .error (.program (.evaluation (.value .divisionByZero))) := by decide +kernel
  have hlist : paired.evaluate oneAndZero 1 = .ok [[.int 1], [.int 2]] := rfl
  constructor
  · have hq : paired.replace 1 5 = .ok (paired.setForward 1 5) := by decide +kernel
    have h := hexisting 5 _ hq
    have hfound : paired.evaluate oneAndZero 5 = .ok [[.int 1], [.int 2]] := by decide +kernel
    refine ⟨_, hq, h.keeps (fun rows hrows => ?_) 2 (by decide) _ hjoin,
      (h.frame 3 (.inl (by decide)) paired_unreached).trans hfail⟩
    rw [hfound, ← hlist, hrows]
  · have hq : paired.replaceWith 1 (.values [⟨"z", .int⟩] [[.int 1], [.int 2]]) =
        .ok (6, (paired.add (.values [⟨"z", .int⟩] [[.int 1], [.int 2]])).2.setForward 1 6) := by
      decide +kernel
    have h := hadded _ _ _ hq
    refine ⟨_, hq, h.keeps (fun rows hrows => ?_) 2 (by decide) _ hjoin,
      (h.frame 3 (.inl (by decide)) paired_unreached).trans hfail⟩
    rw [← hrows, hlist]
    rfl

end Plan
end RelPlan
