import RelPlan.Proofs.Plan.Traversal
import RelPlan.Proofs.Expr.Substitution

/-! # Redirections

A replacement that is let through redirects one slot: everything that resolved to the old node
resolves to the new one, and no other id changes (`Plan.Redirects`). When a replacement is let
through is said by `Plan.WF.replace_eq_ok_iff` and `Plan.WF.replaceWith_eq_ok_iff`, and plans stay
well formed by it. What would close a cycle is refused for that (`Plan.WF.replace_of_reaches`,
`Plan.WF.replaceWith_of_reaches`). -/

namespace RelPlan
namespace Plan

open Relation

/-- The id stands for a node whose fields have these types. -/
def HasTypes (p : Plan) (id : NodeId) (ts : List ScalarType) : Prop :=
  ∃ n, p.node id = .ok n ∧ n.rowType.types = ts

/-- The second plan has the slots of the first one, and what resolved to `old` resolves to `new`. -/
structure Redirects (p q : Plan) (old new : NodeId) : Prop where
  size_le : p.size ≤ q.size
  rawNode : ∀ a < p.size, q.rawNode a = p.rawNode a
  resolve : ∀ a < p.size, q.resolve a = if p.resolve a = old then new else p.resolve a

variable {p q : Plan} {a b old new : NodeId} {n : Node} {ts ts' : List ScalarType}

theorem HasTypes.unique (h : p.HasTypes a ts) (h' : p.HasTypes a ts') : ts = ts' := by
  obtain ⟨n, hn, rfl⟩ := h
  obtain ⟨m, hm, rfl⟩ := h'
  rw [Except.ok.inj (hn.symm.trans hm)]

theorem HasTypes.lt_size (h : p.HasTypes a ts) : a < p.size :=
  let ⟨_, hn, _⟩ := h
  lt_size_of_node hn

theorem WF.exists_hasTypes (h : p.WF) (ha : a < p.size) : ∃ ts, p.HasTypes a ts := by
  obtain ⟨n, hn⟩ := h.exists_node ha
  exact ⟨_, n, hn, rfl⟩

theorem WF.hasTypes_resolve (h : p.WF) : p.HasTypes (p.resolve a) ts ↔ p.HasTypes a ts := by
  rw [HasTypes, HasTypes, h.node_resolve]

theorem rowType_eq_ok_iff {rt : RowType} :
    p.rowType a = .ok rt ↔ ∃ n, p.node a = .ok n ∧ n.rowType = rt := by
  unfold rowType
  cases p.node a <;> simp

theorem WF.hasTypes_iff_rowType (h : p.WF) :
    p.HasTypes a ts ↔ ∃ rt, p.rowType (p.resolve a) = .ok rt ∧ rt.types = ts := by
  simp only [rowType_eq_ok_iff, h.node_resolve, HasTypes]
  constructor
  · rintro ⟨n, hn, hts⟩
    exact ⟨_, ⟨n, hn, rfl⟩, hts⟩
  · rintro ⟨_, ⟨n, hn, rfl⟩, hts⟩
    exact ⟨n, hn, hts⟩

namespace Redirects

theorem resolve_old (h : p.Redirects q old new) (ha : a < p.size) (ho : p.resolve a = old) :
    q.resolve a = new := by rw [h.resolve a ha, if_pos ho]

theorem resolve_other (h : p.Redirects q old new) (ha : a < p.size) (ho : p.resolve a ≠ old) :
    q.resolve a = p.resolve a := by rw [h.resolve a ha, if_neg ho]

/-- Ids that stood for one node still stand for one node. -/
theorem resolve_congr (h : p.Redirects q old new) (ha : a < p.size) (hb : b < p.size)
    (hab : p.resolve a = p.resolve b) : q.resolve a = q.resolve b := by
  rw [h.resolve a ha, h.resolve b hb, hab]

theorem node_other (h : p.Redirects q old new) (hp : p.WF) (ha : a < p.size)
    (ho : p.resolve a ≠ old) : q.node a = p.node a := by
  rw [node, h.resolve_other ha ho, h.rawNode _ (hp.resolve_lt ha), node]

/-- Types are kept if the new node has those of the old one. -/
theorem hasTypes (h : p.Redirects q old new) (hp : p.WF) (hold : p.HasTypes old ts)
    (hnew : q.rawNode new = .ok n) (hn : n.rowType.types = ts) (ha : p.HasTypes a ts') :
    q.HasTypes a ts' := by
  by_cases ho : p.resolve a = old
  · rw [← hp.hasTypes_resolve, ho] at ha
    obtain rfl := hold.unique ha
    exact ⟨n, by rw [node, h.resolve_old (lt_size_of_resolve (ho ▸ hold.lt_size)) ho, hnew], hn⟩
  · obtain ⟨m, hm, hts⟩ := ha
    exact ⟨m, by rw [h.node_other hp (lt_size_of_node hm) ho, hm], hts⟩

end Redirects

/-! ## Replacing -/

theorem WF.redirects_setForward (h : p.WF) (h' : (p.setForward old new).WF) (hold : old < p.size)
    (hf : p.forward? old = none) (hnew : p.resolve new = new) (hne : old ≠ new) :
    p.Redirects (p.setForward old new) old new where
  size_le := by simp
  rawNode a _ := rawNode_setForward
  resolve a _ := by rw [h.resolve_setForward h' hold hf (by rw [hnew]; exact hne.symm), hnew]

/-- Paths of the longer plan that begin in the shorter one are paths of it. -/
theorem WF.reaches_of_add (h : p.WF) (ha : a < p.size) (hab : ReflTransGen (p.add n).2.Next a b) :
    ReflTransGen p.Next a b := by
  have hlt : ReflTransGen p.Next a b ∧ b < p.size := by
    induction hab with
    | refl => exact ⟨.refl, ha⟩
    | tail _ hbc ih =>
      obtain ⟨hreach, hlt⟩ := ih
      rcases hbc.of_add with hbc | ⟨rfl, _⟩
      · exact ⟨hreach.tail hbc, h.closed hbc⟩
      · exact absurd hlt (Nat.lt_irrefl _)
  exact hlt.1

/-- Adding a node that does not compute with `old`, and redirecting `old` to it. -/
theorem WF.setForward_add (h : p.WF) (hold : old < p.size) (hf : p.forward? old = none)
    (hn : ∀ i ∈ n.inputs, i < p.size ∧ ¬ ReflTransGen p.Child (p.resolve i) old) :
    ((p.add n).2.setForward old p.size).WF ∧
      p.Redirects ((p.add n).2.setForward old p.size) old p.size := by
  have hadd := h.add fun i hi => (hn i hi).1
  have hold' : old < (p.add n).2.size := by rw [size_add]; exact Nat.lt_succ_of_lt hold
  have hnew' : p.size < (p.add n).2.size := by rw [size_add]; exact Nat.lt_succ_self _
  have hback : ¬ ReflTransGen (p.add n).2.Next p.size old := by
    intro hreach
    rcases hreach.cases_head with heq | ⟨i, hi, hreach⟩
    · exact absurd hold (by rw [← heq]; exact Nat.lt_irrefl _)
    · rcases hi.of_add with hi | ⟨-, hi⟩
      · exact absurd hi.lt_size (Nat.lt_irrefl _)
      · obtain ⟨hlt, hno⟩ := hn i hi
        exact hno (h.reaches_of_next (h.reaches_of_add hlt hreach) hf)
  have hf' : (p.add n).2.forward? old = none := by rw [forward?_add, hf]
  have hsize : (p.add n).2.resolve p.size = p.size := by
    rw [h.resolve_add]
    exact resolve_of_forward?_eq_none (forward?_of_size_le (Nat.le_refl _))
  have hwf := hadd.setForward hold' hnew' hback
  have hred := hadd.redirects_setForward hwf hold' hf' hsize (Nat.ne_of_lt hold)
  refine ⟨hwf, ⟨by simp, fun a ha => ?_, fun a ha => ?_⟩⟩
  · rw [rawNode_setForward, rawNode_add_of_lt ha]
  · rw [hred.resolve a (by rw [size_add]; exact Nat.lt_succ_of_lt ha), h.resolve_add]

theorem WF.setForward_existing (h : p.WF) (hold : old < p.size) (hnew : new < p.size)
    (hf : p.forward? old = none) (hf' : p.forward? new = none)
    (hback : ¬ ReflTransGen p.Child new old) :
    (p.setForward old new).WF ∧ p.Redirects (p.setForward old new) old new := by
  have hres := resolve_of_forward?_eq_none hf'
  have hwf := h.setForward hold hnew fun hreach => hback (by
    simpa [hres] using h.reaches_of_next hreach hf)
  refine ⟨hwf, h.redirects_setForward hwf hold hf hres ?_⟩
  rintro rfl
  exact hback .refl

/-- A replacement goes through if both nodes are there and are one, or have the same types and the
new one does not compute with the old one. -/
theorem WF.replace_eq_ok_iff (h : p.WF) :
    p.replace a b = .ok q ↔ ∃ ts us, p.HasTypes a ts ∧ p.HasTypes b us ∧
      (p.resolve a = p.resolve b ∧ q = p ∨ p.resolve a ≠ p.resolve b ∧ ts = us ∧
        ¬ ReflTransGen p.Child (p.resolve b) (p.resolve a) ∧
        q = p.setForward (p.resolve a) (p.resolve b)) := by
  have hreach (hb : b < p.size) : ∃ ids, p.reachable (p.resolve b) = .ok ids ∧
      (p.resolve a ∈ ids ↔ ReflTransGen p.Child (p.resolve b) (p.resolve a)) := by
    obtain ⟨ids, hids, -, hmem⟩ := h.exists_reachable (h.resolve_lt hb)
    refine ⟨ids, hids, ?_⟩
    rw [hmem, h.resolve_resolve]
  constructor
  · intro hq
    obtain ⟨rt, hrt, hq⟩ := Except.bind_eq_ok_iff.mp hq
    obtain ⟨rt', hrt', hq⟩ := Except.bind_eq_ok_iff.mp hq
    have hb : p.HasTypes b rt'.types := h.hasTypes_iff_rowType.mpr ⟨rt', hrt', rfl⟩
    refine ⟨rt.types, rt'.types, h.hasTypes_iff_rowType.mpr ⟨rt, hrt, rfl⟩, hb, ?_⟩
    split at hq
    · rename_i heq
      exact .inl ⟨heq, (Except.ok.inj hq).symm⟩
    · rename_i hne
      split at hq
      · cases hq
      · rename_i hshape
        obtain ⟨ids, hids, hmem⟩ := hreach hb.lt_size
        rw [hids, Except.ok_bind] at hq
        split at hq
        · cases hq
        · rename_i hno
          refine .inr ⟨hne, ?_, fun hr => hno (hmem.mpr hr), (Except.ok.inj hq).symm⟩
          simpa [RowType.sameShape] using hshape
  · rintro ⟨ts, us, ha, hb, hq⟩
    obtain ⟨ids, hids, hmem⟩ := hreach hb.lt_size
    obtain ⟨rt, hrt, rfl⟩ := h.hasTypes_iff_rowType.mp ha
    obtain ⟨rt', hrt', rfl⟩ := h.hasTypes_iff_rowType.mp hb
    rw [replace]
    simp only [hrt, hrt', Except.ok_bind]
    rcases hq with ⟨heq, rfl⟩ | ⟨hne, htypes, hno, rfl⟩
    · rw [if_pos heq]
      rfl
    · rw [if_neg hne, if_neg (by simp [RowType.sameShape, htypes]), hids, Except.ok_bind,
        if_neg (mt hmem.mp hno)]
      rfl

theorem WF.checkInput_eq_ok_iff (h : p.WF) :
    p.checkInput old a = .ok () ↔ a < p.size ∧ ¬ ReflTransGen p.Child (p.resolve a) old := by
  by_cases ha : a < p.size
  · obtain ⟨ids, hids, -, hmem⟩ := h.exists_reachable ha
    simp only [checkInput, contains, ha, decide_true, Bool.not_true, Bool.false_eq_true, if_false,
      hids, Except.ok_bind, true_and, ← hmem]
    split <;> simp_all
  · simp [checkInput, contains, ha]

/-- A new node goes through if it has the types of the old one and its inputs are there and do not
compute with the old one. -/
theorem WF.replaceWith_eq_ok_iff (h : p.WF) :
    p.replaceWith a n = .ok (new, q) ↔ p.HasTypes a n.rowType.types ∧
      (∀ i ∈ n.inputs, i < p.size ∧ ¬ ReflTransGen p.Child (p.resolve i) (p.resolve a)) ∧
      new = p.size ∧ q = (p.add n).2.setForward (p.resolve a) p.size := by
  have hinputs : n.inputs.forM (p.checkInput (p.resolve a)) = .ok () ↔
      ∀ i ∈ n.inputs, i < p.size ∧ ¬ ReflTransGen p.Child (p.resolve i) (p.resolve a) := by
    induction n.inputs with
    | nil => simp
    | cons i is ih =>
      show (do p.checkInput (p.resolve a) i; is.forM (p.checkInput (p.resolve a))) = _ ↔ _
      rw [List.forall_mem_cons, ← ih, ← h.checkInput_eq_ok_iff]
      cases p.checkInput (p.resolve a) i <;> simp
  rw [h.hasTypes_iff_rowType, ← hinputs, replaceWith]
  cases hrt : p.rowType (p.resolve a) with
  | error e => simp
  | ok rt =>
    by_cases hshape : rt.types = n.rowType.types
    · cases hi : n.inputs.forM (p.checkInput (p.resolve a)) with
      | error e => simp [RowType.sameShape, hshape]
      | ok =>
        simp only [RowType.sameShape, hshape, Except.ok_bind, decide_true, Bool.not_true,
          Bool.false_eq_true, if_false, Except.pure_eq_ok, Except.ok.injEq, Prod.mk.injEq,
          exists_eq_left', true_and]
        exact and_congr eq_comm eq_comm
    · simp [RowType.sameShape, hshape]

theorem WF.checkInput_of_reaches (h : p.WF) (ha : a < p.size)
    (hr : ReflTransGen p.Child (p.resolve a) old) :
    p.checkInput old a = .error (.cycleDetected old) := by
  obtain ⟨ids, hids, -, hmem⟩ := h.exists_reachable ha
  simp [checkInput, contains, ha, hids, (hmem old).mpr hr]

/-- The first input that computes with the old node is in the way. -/
theorem WF.forM_checkInput_of_reaches {is : List NodeId} (h : p.WF) (his : ∀ i ∈ is, i < p.size)
    (hr : ∃ i ∈ is, ReflTransGen p.Child (p.resolve i) old) :
    is.forM (p.checkInput old) = .error (.cycleDetected old) := by
  induction is with
  | nil => simp at hr
  | cons i is ih =>
    obtain ⟨hi, his⟩ := List.forall_mem_cons.mp his
    show (do p.checkInput old i; is.forM (p.checkInput old)) = _
    by_cases hfirst : ReflTransGen p.Child (p.resolve i) old
    · rw [h.checkInput_of_reaches hi hfirst, Except.error_bind]
    · obtain ⟨j, hj, hreach⟩ := hr
      rcases List.mem_cons.mp hj with rfl | hj
      · exact absurd hreach hfirst
      · rw [h.checkInput_eq_ok_iff.mpr ⟨hi, hfirst⟩, Except.ok_bind, ih his ⟨j, hj, hreach⟩]

/-- What computes with the node that it is to replace is refused for that. -/
theorem WF.replace_of_reaches (h : p.WF) (ha : p.HasTypes a ts) (hb : p.HasTypes b ts)
    (hne : p.resolve a ≠ p.resolve b) (hr : ReflTransGen p.Child (p.resolve b) (p.resolve a)) :
    p.replace a b = .error (.cycleDetected (p.resolve a)) := by
  obtain ⟨ids, hids, -, hmem⟩ := h.exists_reachable (h.resolve_lt hb.lt_size)
  have hin : p.resolve a ∈ ids := by
    rw [hmem, h.resolve_resolve]
    exact hr
  obtain ⟨rt, hrt, rfl⟩ := h.hasTypes_iff_rowType.mp ha
  obtain ⟨rt', hrt', hts⟩ := h.hasTypes_iff_rowType.mp hb
  simp [Plan.replace, hrt, hrt', hne, RowType.sameShape, hts, hids, hin]

theorem WF.replaceWith_of_reaches (h : p.WF) (ha : p.HasTypes a n.rowType.types)
    (hn : ∀ i ∈ n.inputs, i < p.size)
    (hr : ∃ i ∈ n.inputs, ReflTransGen p.Child (p.resolve i) (p.resolve a)) :
    p.replaceWith a n = .error (.cycleDetected (p.resolve a)) := by
  obtain ⟨rt, hrt, hts⟩ := h.hasTypes_iff_rowType.mp ha
  simp [Plan.replaceWith, hrt, RowType.sameShape, hts, h.forM_checkInput_of_reaches hn hr]

theorem WF.replace (h : p.WF) (hq : p.replace old new = .ok q) : q.WF := by
  obtain ⟨_, _, ha, hb, ⟨-, rfl⟩ | ⟨-, -, hback, rfl⟩⟩ := h.replace_eq_ok_iff.mp hq
  · exact h
  · exact (h.setForward_existing (h.resolve_lt ha.lt_size) (h.resolve_lt hb.lt_size)
      (h.forward?_resolve _) (h.forward?_resolve _) hback).1

theorem WF.replaceWith (h : p.WF) (hq : p.replaceWith old n = .ok (new, q)) : q.WF := by
  obtain ⟨ha, hinputs, -, rfl⟩ := h.replaceWith_eq_ok_iff.mp hq
  exact (h.setForward_add (h.resolve_lt ha.lt_size) (h.forward?_resolve _) hinputs).1

end Plan
end RelPlan
