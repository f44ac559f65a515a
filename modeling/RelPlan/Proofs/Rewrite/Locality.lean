import RelPlan.Proofs.Plan.Forwarding
import RelPlan.Proofs.Rewrite.NormalForm

/-! # Plans that share their slots

Several plans may be kept together and share what they compute with. Rewriting one of them redirects
slots that this one computes with, and slots of its own, but no other ones, and it attaches no other
ones to its root (`Rewriter.rewrite_local`). Nodes attached by one pass are visited by the next one,
so what a step keeps is about all that is local to the root (`Plan.Local`): what the root computed
with at the start, and whatever has been added since. -/

namespace RelPlan

open Relation

namespace Plan

/-- The traversal from the root comes to the slot. -/
def Reaches (p : Plan) (root a : NodeId) : Prop := ∃ ids, p.reachable root = .ok ids ∧ a ∈ ids

/-- The root computes with the slot, or the slot is yet to be added. -/
def Local (p : Plan) (root a : NodeId) : Prop :=
  ReflTransGen p.Child (p.resolve root) a ∨ p.size ≤ a

/-- The second plan comes from the first one by changes to what is local to the root. -/
structure Confined (p : Plan) (root : NodeId) (q : Plan) : Prop where
  size_le : p.size ≤ q.size
  child : ∀ a c, p.Local root a → q.Child a c → p.Local root c
  replaced : ∀ a, q.isReplaced a → p.isReplaced a ∨ p.Local root a
  root : p.Local root (q.resolve root)

variable {p q : Plan} {root a c o : NodeId}

theorem WF.reaches_iff (h : p.WF) (hroot : root < p.size) :
    p.Reaches root a ↔ ReflTransGen p.Child (p.resolve root) a := by
  obtain ⟨ids, hids, -, hmem⟩ := h.exists_reachable hroot
  rw [← hmem]
  constructor
  · rintro ⟨ids', hids', ha⟩
    exact Except.ok.inj (hids'.symm.trans hids) ▸ ha
  · exact fun ha => ⟨ids, hids, ha⟩

theorem Confined.refl (p : Plan) (root : NodeId) : p.Confined root p where
  size_le := Nat.le_refl _
  child := by
    rintro a c (ha | ha) hc
    · exact .inl (ha.tail hc)
    · obtain ⟨hn, -⟩ := hc
      exact absurd (lt_size_of_node hn) (Nat.not_lt_of_le ha)
  replaced _ := .inl
  root := .inl .refl

/-- The root computes with what is local to it. -/
theorem Confined.of_reaches (h : p.Confined root q)
    (ha : ReflTransGen q.Child (q.resolve root) a) : p.Local root a := by
  induction ha with
  | refl => exact h.root
  | tail _ hc ih => exact h.child _ _ ih hc

end Plan

/-! ## Steps at local nodes -/

/-- What the written plan adds has the node that stands for the old one. -/
theorem Rewrites.node_added {p : Plan} {o a : NodeId} {r : Replacement} (hr : Rewrites p o r)
    (h : p.Good) (hf : p.forward? o = none) (ha : p.size ≤ a) (hlt : a < (r.written p o).size) :
    (r.written p o).node a = (r.written p o).node o := by
  rw [hr.node_old h hf (Plan.resolve_of_forward?_eq_none hf)]
  cases r with
  | new n =>
    rw [Replacement.written, Plan.size_setForward, Plan.size_add] at hlt
    rw [Nat.le_antisymm (Nat.le_of_lt_succ hlt) ha, Replacement.target]
  | existing id =>
    rw [Replacement.written, Plan.size_setForward] at hlt
    exact absurd hlt (Nat.not_lt_of_le ha)

theorem Rewrites.replacedSlots_written {p : Plan} {o : NodeId} {r : Replacement}
    (hr : Rewrites p o r) : (r.written p o).replacedSlots = insert o p.replacedSlots := by
  cases r with
  | new n =>
    have hlt : o < (p.add n).2.size := by
      rw [Plan.size_add]
      exact Nat.lt_succ_of_lt hr.lt_size
    rw [Replacement.written, Plan.replacedSlots_setForward hlt, Plan.replacedSlots_add]
  | existing id => exact Plan.replacedSlots_setForward hr.lt_size

namespace Plan.Confined

variable {p q : Plan} {root a c o : NodeId} {r : Replacement}
variable (h : p.Confined root q) (hq : q.Good) (hf : q.forward? o = none) (hr : Rewrites q o r)
  (ho : p.Local root o)
include h hq hf hr ho

/-- Local nodes are looked up at local ones. -/
theorem local_resolve (ha : a < q.size) (hl : p.Local root (q.resolve a)) :
    p.Local root ((r.written q o).resolve a) := by
  by_cases hao : q.resolve a = o
  · rw [(hr.redirects hq hf).resolve_old ha hao]
    cases hr with
    | convert | merge => exact .inr h.size_le
    | remove hn => exact h.child o _ ho (.intro hn List.mem_cons_self)
  · rwa [(hr.redirects hq hf).resolve_other ha hao]

theorem local_resolve_child (hl : p.Local root a) (hc : q.Child a c) :
    p.Local root ((r.written q o).resolve c) := by
  refine h.local_resolve hq hf hr ho (hq.wf.child_lt hc) ?_
  rw [resolve_of_forward?_eq_none (hq.wf.forward?_child hc)]
  exact h.child a c hl hc

/-- What stands for the rewritten node computes with local nodes. -/
theorem local_child_old (hc : (r.written q o).Child o c) : p.Local root c := by
  obtain ⟨d, hd, rfl | ⟨e, he, rfl⟩⟩ := hr.child_old hq hf hc
  · exact h.local_resolve_child hq hf hr ho ho hd
  · exact h.local_resolve_child hq hf hr ho (h.child o d ho hd) he

theorem written (hroot : root < q.size) : p.Confined root (r.written q o) where
  size_le := Nat.le_trans h.size_le (hr.redirects hq hf).size_le
  child a c ha hc := by
    have hold (heq : (r.written q o).node a = (r.written q o).node o) : p.Local root c :=
      h.local_child_old hq hf hr ho (hc.congr heq)
    by_cases hlt : a < q.size
    · by_cases hao : q.resolve a = o
      · exact hold (hr.node_replaced hq hf hao)
      · obtain ⟨d, hd, rfl⟩ := hr.child_other hq hf hlt hao hc
        exact h.local_resolve_child hq hf hr ho ha hd
    · obtain ⟨hn, -⟩ := id hc
      exact hold (hr.node_added hq hf (Nat.le_of_not_lt hlt) (lt_size_of_node hn))
  replaced a ha := by
    rw [← mem_replacedSlots, hr.replacedSlots_written, Finset.mem_insert, mem_replacedSlots] at ha
    rcases ha with rfl | ha
    · exact .inr ho
    · exact h.replaced a ha
  root := h.local_resolve hq hf hr ho hroot h.root

end Plan.Confined

/-! ## Runs -/

namespace Rewriter

variable {p q q' : Plan} {rules : List Rule} {root : NodeId} {ids : List NodeId} {b fixed : Bool}
  {limit passes : Nat}

theorem Swept.confined (h : Swept rules ids q b q') (hq : q.Good) (hroot : root < q.size)
    (hids : ∀ a ∈ ids, p.Local root a) (hp : p.Confined root q) : p.Confined root q' := by
  induction h with
  | nil => exact hp
  | cons hv _ ih =>
    obtain ⟨hid, hids⟩ := List.forall_mem_cons.mp hids
    obtain ⟨hgood, hsize⟩ := hv.good_and_size hq
    refine ih hgood (Nat.lt_of_lt_of_le hroot hsize) hids ?_
    cases hv with
    | changed hf hr => exact hp.written hq hf hr hid hroot
    | unchanged => exact hp

theorem Ran.confined (h : Ran rules root limit q passes fixed q') (hq : q.Good)
    (hroot : root < q.size) (hp : p.Confined root q) : p.Confined root q' := by
  -- Each pass visits what the root computes with then, all of which is local.
  have hlocal {q : Plan} {ids} (hq : q.Good) (hroot : root < q.size)
      (hids : q.reachable root = .ok ids) (hp : p.Confined root q) : ∀ a ∈ ids, p.Local root a :=
    fun a ha => hp.of_reaches ((hq.wf.reaches_iff hroot).mp ⟨ids, hids, ha⟩)
  induction h with
  | limit => exact hp
  | fixpoint hids hs => exact hs.confined hq hroot (hlocal hq hroot hids hp) hp
  | pass hids hs _ ih =>
    obtain ⟨hgood, hsize⟩ := hs.good_and_size hq
    exact ih hgood (Nat.lt_of_lt_of_le hroot hsize)
      (hs.confined hq hroot (hlocal hq hroot hids hp) hp)

/-- Nothing is rewritten below a slot that is not there. -/
theorem rewrite_of_size_le {r : Rewriter} (hroot : p.size ≤ root) :
    (r.rewrite p root).2.plan = p := by
  cases hids : p.reachable root with
  | ok ids => exact absurd (Plan.lt_size_of_reachable hids) (Nat.not_lt_of_le hroot)
  | error e =>
    rw [rewrite]
    cases r.maxIterations with
    | zero => rfl
    | succ k => simp [runPasses, pass, hids]

/-- A rewriting with rules for compute nodes redirects only slots that the root computed with and
slots of its own, and the root computes with no others thereafter. -/
theorem rewrite_local {r : Rewriter} (hp : p.Built) (hg : r.registry.Registers rules)
    (hrules : ∀ rule ∈ rules, rule ∈ Rule.computeRules) (root : NodeId) :
    ∃ out s, r.rewrite p root = (out, s) ∧
      (∀ a, s.plan.isReplaced a →
        p.isReplaced a ∨ p.Reaches root a ∨ p.size ≤ a ∧ a < s.plan.size) ∧
      ∀ a, s.plan.Reaches root a → p.Reaches root a ∨ p.size ≤ a ∧ a < s.plan.size := by
  by_cases hroot : root < p.size
  · have hgood := hp.good
    obtain ⟨s, passes, fixed, hrun, hran, -⟩ := rewrite_spec hgood hroot hg hrules
    obtain ⟨hq, hsize⟩ := hran.good_and_size hgood
    have hroot' := Nat.lt_of_lt_of_le hroot hsize
    have hconf := hran.confined hgood hroot (.refl p root)
    have hlocal {a} (ha : p.Local root a) (hlt : a < s.plan.size) :
        p.Reaches root a ∨ p.size ≤ a ∧ a < s.plan.size :=
      ha.imp (hgood.wf.reaches_iff hroot).mpr fun hle => ⟨hle, hlt⟩
    refine ⟨_, s, hrun, fun a ha => ?_, fun a ha => ?_⟩
    · obtain ⟨b, hb⟩ := Option.isSome_iff_exists.mp ha
      exact (hconf.replaced a ha).imp_right fun ha => hlocal ha (Plan.lt_size_of_forward? hb)
    · rw [hq.wf.reaches_iff hroot'] at ha
      exact hlocal (hconf.of_reaches ha) (hq.wf.lt_size_of_child (hq.wf.resolve_lt hroot') ha)
  · have hplan := rewrite_of_size_le (r := r) (Nat.le_of_not_lt hroot)
    refine ⟨_, _, rfl, fun a ha => ?_, fun a ha => ?_⟩
    · exact .inl (hplan ▸ ha)
    · exact .inl (hplan ▸ ha)

/-- Two projections over one filter. -/
def branches : Plan where
  slots := [
    ⟨.scan "t" [⟨"a", .int⟩], none⟩,
    ⟨.filter 0 (.binary (.input 0) .gt (.literal (.int 0))) [⟨"a", .int⟩], none⟩,
    ⟨.project 1 [.binary (.input 0) .add (.input 0)] [⟨"sum", .int⟩], none⟩,
    ⟨.project 1 [.input 0] [⟨"b", .int⟩], none⟩]

theorem branches_built : branches.Built :=
  Plan.Built.empty.add .scan
    |>.add (.filter (show Plan.newFilter _ 0 (.binary (.input 0) .gt (.literal (.int 0))) = .ok _
      from rfl))
    |>.add (.project (show Plan.newProject _ 1 [.binary (.input 0) .add (.input 0)] ["sum"] = .ok _
      from rfl))
    |>.add (.project (show Plan.newProject _ 1 [.input 0] ["b"] = .ok _ from rfl))

/-- Rewriting the first projection replaces the filter as well, but not the other projection. -/
theorem rewrite_local_branches : ∃ out s, Rewriter.default.rewrite branches 2 = (out, s) ∧
    s.plan.isReplaced 1 ∧ ¬ s.plan.isReplaced 3 ∧ ¬ s.plan.Reaches 2 3 := by
  obtain ⟨out, s, hrun, hreplaced, hreached⟩ := rewrite_local (r := .default) branches_built
    Registry.default_registers (fun _ => id) 2
  have hother : ¬ (branches.Reaches 2 3 ∨ branches.size ≤ 3 ∧ 3 < s.plan.size) := by
    rintro (⟨ids, hids, hmem⟩ | ⟨hle, -⟩)
    · obtain rfl : [0, 1, 2] = ids := Except.ok.inj hids
      exact absurd hmem (by decide)
    · exact absurd hle (by decide)
  refine ⟨out, s, hrun, ?_, fun h => ?_, fun h => hother (hreached 3 h)⟩
  · have hs : s = (Rewriter.default.rewrite branches 2).2 := by rw [hrun]
    exact hs ▸ by decide +kernel
  · exact (hreplaced 3 h).elim (by decide) hother

end Rewriter
end RelPlan
