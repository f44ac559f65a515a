import RelPlan.Proofs.Rewrite.Settling

/-! # Normal forms

A pass visits the nodes below the root from the inputs up, so whatever visits achieve over inputs
where it has been achieved already, a pass achieves for all nodes below the root
(`Rewriter.Swept.establishes`). With all rules for compute nodes the first pass settles all nodes and
the second one makes them normal; the third one finds nothing to do
(`Rewriter.rewrite_normal`). -/

namespace RelPlan

open Relation

namespace Plan

/-- These ids name slots, and every node that one of them computes with is named by one of them. -/
structure Closed (p : Plan) (done : List NodeId) : Prop where
  lt_size : ∀ a ∈ done, a < p.size
  child : ∀ a ∈ done, ∀ c, p.Child a c → ∃ b ∈ done, p.resolve b = c

/-- The property holds at every node that the root computes with, the root included. -/
def AllBelow (p : Plan) (root : NodeId) (P : Plan → NodeId → Prop) : Prop :=
  ∀ a, ReflTransGen p.Child (p.resolve root) a → P p a

/-- Unreplaced nodes to visit, each of them once and after its inputs; some have been visited. -/
inductive Queue (p : Plan) : (done todo : List NodeId) → Prop where
  | nil : p.Queue done []
  | cons {id : NodeId} {todo : List NodeId} : id < p.size → p.resolve id = id → id ∉ todo →
      (∀ c, p.Child id c → ∃ b ∈ done, p.resolve b = c) → p.Queue (id :: done) todo →
      p.Queue done (id :: todo)

variable {p q : Plan} {a b c root : NodeId} {ids done todo : List NodeId}

/-- A bottom-up order is a queue. -/
theorem Ordered.queue (h : p.Ordered ids) (hp : p.WF) (htodo : p.Queue ids todo)
    (hdisj : ids.Disjoint todo) : p.Queue [] (ids.reverse ++ todo) := by
  induction h generalizing todo with
  | nil => exact htodo
  | @cons id ids hlt hf hid hchild _ ih =>
    rw [List.reverse_cons, List.append_assoc]
    obtain ⟨hnot, hdisj⟩ := List.disjoint_cons_left.mp hdisj
    refine ih (.cons hlt (resolve_of_forward?_eq_none hf) hnot (fun c hc => ?_) htodo)
      (List.disjoint_cons_right.mpr ⟨hid, hdisj⟩)
    exact ⟨c, hchild c hc, resolve_of_forward?_eq_none (hp.forward?_child hc)⟩

/-- The nodes below a root are a queue. -/
theorem WF.queue_reachable (h : p.WF) (hroot : root < p.size) (hids : p.reachable root = .ok ids) :
    p.Queue [] ids := by
  obtain ⟨ids', hids', hordered, -⟩ := h.exists_reachable hroot
  obtain rfl := Except.ok.inj (hids.symm.trans hids')
  simpa using hordered.queue h .nil (List.disjoint_nil_right _)

theorem Closed.cons (h : p.Closed done) (ha : a < p.size)
    (hchild : ∀ c, p.Child a c → ∃ b ∈ done, p.resolve b = c) : p.Closed (a :: done) := by
  refine ⟨List.forall_mem_cons.mpr ⟨ha, h.lt_size⟩, ?_⟩
  intro d hd c hc
  obtain ⟨b, hb, hbc⟩ : ∃ b ∈ done, p.resolve b = c := by
    rcases List.mem_cons.mp hd with rfl | hd
    · exact hchild c hc
    · exact h.child d hd c hc
  exact ⟨b, List.mem_cons_of_mem a hb, hbc⟩

/-- All that a node computes with is named in a closed list with the node. -/
theorem Closed.exists_of_reaches (h : p.Closed done) (hp : p.WF) (ha : a ∈ done)
    (hab : ReflTransGen p.Child (p.resolve a) b) : ∃ d ∈ done, p.resolve d = b := by
  induction hab with
  | refl => exact ⟨a, ha, rfl⟩
  | tail _ hc ih =>
    obtain ⟨d, hd, rfl⟩ := ih
    exact h.child d hd _ (hc.congr (hp.node_resolve d))

end Plan

/-! ## What a step keeps -/

namespace Rewrites

variable {p : Plan} {o a c : NodeId} {r : Replacement} {done todo : List NodeId}

section
variable (h : p.Good) (hf : p.forward? o = none) (hr : Rewrites p o r)
include h hf hr

theorem resolve_resolve (ha : a < p.size) :
    (r.written p o).resolve (p.resolve a) = (r.written p o).resolve a :=
  (hr.redirects h hf).resolve_congr (h.wf.resolve_lt ha) ha (h.wf.resolve_resolve a)

/-- Other nodes compute with what stands for their inputs now. -/
theorem child_other (ha : a < p.size) (hne : p.resolve a ≠ o) (hc : (r.written p o).Child a c) :
    ∃ d, p.Child a d ∧ (r.written p o).resolve d = c := by
  obtain ⟨hn, hi⟩ := hc
  rw [hr.node_other h hf ha hne] at hn
  exact ⟨_, .intro hn hi, hr.resolve_resolve h hf (h.wf.input_lt hn hi)⟩

/-- The node that stands for the old one computes with inputs of the old one or of its input. -/
theorem child_old (hc : (r.written p o).Child o c) : ∃ d, p.Child o d ∧
    ((r.written p o).resolve d = c ∨ ∃ e, p.Child d e ∧ (r.written p o).resolve e = c) := by
  have hold := hr.node_old h hf (Plan.resolve_of_forward?_eq_none hf)
  obtain ⟨hm, hk⟩ := hc
  have hr' := hr
  cases hr' with
  | convert hn _ hruns =>
    obtain rfl := Except.ok.inj (hm.symm.trans (hold.trans (hr.node_new h hf)))
    obtain rfl := List.mem_singleton.mp hk
    exact ⟨_, .intro hn hruns.mem_inputs, .inl rfl⟩
  | merge hn hruns hlower =>
    obtain rfl := Except.ok.inj (hm.symm.trans (hold.trans (hr.node_new h hf)))
    obtain rfl := List.mem_singleton.mp hk
    exact ⟨_, .intro hn hruns.mem_inputs,
      .inr ⟨_, .intro ((h.wf.node_resolve _).trans hlower) List.mem_cons_self, rfl⟩⟩
  | remove hn =>
    rw [hold, Replacement.target, hr.node_existing h hf] at hm
    exact ⟨_, .intro hn List.mem_cons_self,
      .inr ⟨_, .intro hm hk, hr.resolve_resolve h hf (h.wf.input_lt hm hk)⟩⟩

theorem closed (hdone : p.Closed done) (ho : ∀ c, p.Child o c → ∃ b ∈ done, p.resolve b = c) :
    (r.written p o).Closed (o :: done) := by
  have hres := Plan.resolve_of_forward?_eq_none hf
  have hcover {d} (hd : ∃ b ∈ done, p.resolve b = d) :
      ∃ b ∈ o :: done, (r.written p o).resolve b = (r.written p o).resolve d := by
    obtain ⟨b, hb, rfl⟩ := hd
    exact ⟨b, List.mem_cons_of_mem o hb, (hr.resolve_resolve h hf (hdone.lt_size b hb)).symm⟩
  have hlt : ∀ a ∈ o :: done, a < p.size := List.forall_mem_cons.mpr ⟨hr.lt_size, hdone.lt_size⟩
  refine ⟨fun a ha => Nat.lt_of_lt_of_le (hlt a ha) (hr.redirects h hf).size_le, ?_⟩
  intro a ha c hc
  by_cases hao : p.resolve a = o
  · rcases hr.child_old h hf (hc.congr (hr.node_replaced h hf hao)) with ⟨d, hd, rfl | ⟨e, he, rfl⟩⟩
    · exact hcover (ho d hd)
    · obtain ⟨b, hb, rfl⟩ := ho d hd
      exact hcover (hdone.child b hb e (he.congr (h.wf.node_resolve b)))
  · obtain ⟨d, hd, rfl⟩ := hr.child_other h hf (hlt a ha) hao hc
    rcases List.mem_cons.mp ha with rfl | ha
    · exact absurd hres hao
    · exact hcover (hdone.child a ha d hd)

theorem queue (hq : p.Queue done todo) (ho : o ∉ todo) : (r.written p o).Queue done todo := by
  induction hq with
  | nil => exact .nil
  | @cons done id todo hlt hid hnot hchild _ ih =>
    obtain ⟨hne, ho⟩ := not_or.mp (mt List.mem_cons.mpr ho)
    have hne : p.resolve id ≠ o := fun he => hne (he.symm.trans hid)
    refine .cons (Nat.lt_of_lt_of_le hlt (hr.redirects h hf).size_le)
      (((hr.redirects h hf).resolve_other hlt hne).trans hid) hnot (fun c hc => ?_) (ih ho)
    obtain ⟨d, hd, rfl⟩ := hr.child_other h hf hlt hne hc
    obtain ⟨b, hb, rfl⟩ := hchild d hd
    have hblt : b < p.size := Plan.lt_size_of_resolve (h.wf.child_lt hd)
    exact ⟨b, hb, (hr.resolve_resolve h hf hblt).symm⟩

end
end Rewrites

/-! ## Passes -/

namespace Rewriter

variable {p q : Plan} {rules : List Rule} {root : NodeId} {ids done todo : List NodeId}

/-- Where `Pre` holds, a visit to a node over nodes where `Goal` holds makes it hold there too, and
steps that do so undo neither of the two. -/
structure Establishes (rules : List Rule) (Pre Goal : Plan → NodeId → Prop) : Prop where
  congr : ∀ {p : Plan} {a b}, p.node a = p.node b → Goal p a → Goal p b
  visit : ∀ {p q : Plan} {id b}, p.Good → id < p.size → p.resolve id = id → Pre p id →
    (∀ c, p.Child id c → Goal p c) → Visited rules p id b q → Goal q id
  keeps_pre : ∀ {p : Plan} {o a r}, p.Good → p.forward? o = none → Rewrites p o r →
    Goal (r.written p o) o → Pre p a → Pre (r.written p o) a
  keeps_goal : ∀ {p : Plan} {o a r}, p.Good → p.forward? o = none → Rewrites p o r →
    Goal (r.written p o) o → Goal p a → Goal (r.written p o) a

variable {Pre Goal : Plan → NodeId → Prop}

/-- Visits to the nodes of a queue establish the goal at all of them. -/
theorem Swept.establishes (he : Establishes rules Pre Goal) (h : Swept rules todo p b q)
    (hp : p.Good) (hqueue : p.Queue done todo) (hclosed : p.Closed done)
    (hdone : ∀ a ∈ done, Goal p a) (htodo : ∀ a ∈ todo, Pre p a) :
    q.Closed (todo.reverse ++ done) ∧ ∀ a ∈ todo.reverse ++ done, Goal q a := by
  induction h generalizing done with
  | nil => exact ⟨hclosed, hdone⟩
  | @cons _ _ _ _ _ id todo hv _ ih =>
    cases hqueue with
    | cons hlt hid hnot hchild hqueue =>
      obtain ⟨hpre, htodo⟩ := List.forall_mem_cons.mp htodo
      have hgoal := he.visit hp hlt hid hpre (fun c hc => by
        obtain ⟨b, hb, rfl⟩ := hchild c hc
        exact he.congr (hp.wf.node_resolve b).symm (hdone b hb)) hv
      rw [List.reverse_cons, List.append_assoc]
      cases hv with
      | changed hf hr =>
        exact ih (hr.good hp hf).1 (hr.queue hp hf hqueue hnot) (hr.closed hp hf hclosed hchild)
          (List.forall_mem_cons.mpr ⟨hgoal, fun a ha => he.keeps_goal hp hf hr hgoal (hdone a ha)⟩)
          fun a ha => he.keeps_pre hp hf hr hgoal (htodo a ha)
      | unchanged =>
        exact ih hp hqueue (hclosed.cons hlt hchild)
          (List.forall_mem_cons.mpr ⟨hgoal, hdone⟩) htodo

theorem Swept.resolve_congr (h : Swept rules ids p b q) (hp : p.Good) (ha : a < p.size)
    (hc : c < p.size) (hac : p.resolve a = p.resolve c) : q.resolve a = q.resolve c := by
  induction h with
  | nil => exact hac
  | cons hv _ ih =>
    obtain ⟨hgood, hsize⟩ := hv.good_and_size hp
    apply ih hgood (Nat.lt_of_lt_of_le ha hsize) (Nat.lt_of_lt_of_le hc hsize)
    cases hv with
    | changed hf hr => exact (hr.redirects hp hf).resolve_congr ha hc hac
    | unchanged => exact hac

/-- A pass below a root establishes the goal at all that the root computes with. -/
theorem Swept.establishes_below (he : Establishes rules Pre Goal) (h : Swept rules ids p b q)
    (hp : p.Good) (hroot : root < p.size) (hids : p.reachable root = .ok ids)
    (hpre : p.AllBelow root Pre) : q.AllBelow root Goal := by
  obtain ⟨ids', hids', -, hmem⟩ := hp.wf.exists_reachable hroot
  obtain rfl := Except.ok.inj (hids.symm.trans hids')
  have hqueue := hp.wf.queue_reachable hroot hids
  obtain ⟨hclosed, hgoal⟩ := h.establishes he hp hqueue ⟨nofun, nofun⟩ nofun
    fun a ha => hpre a ((hmem a).mp ha)
  have hq := (h.good_and_size hp).1.wf
  intro x hx
  rw [← h.resolve_congr hp (hp.wf.resolve_lt hroot) hroot (hp.wf.resolve_resolve root)] at hx
  obtain ⟨d, hd, rfl⟩ := hclosed.exists_of_reaches hq
    (List.mem_append_left _ (List.mem_reverse.mpr ((hmem _).mpr .refl))) hx
  exact he.congr (hq.node_resolve d).symm (hgoal d hd)

theorem Swept.eq_of_unchanged (h : Swept rules ids p false q) : q = p := by
  generalize hb : false = b at h
  induction h with
  | nil => rfl
  | cons hv _ ih =>
    obtain ⟨rfl, rfl⟩ := Bool.or_eq_false_iff.mp hb.symm
    cases hv
    exact ih rfl

theorem Swept.unchanged_of_normal (h : Swept rules ids p b q) (hn : ∀ id ∈ ids, p.Normal id) :
    b = false := by
  induction h with
  | nil => rfl
  | cons hv _ ih =>
    obtain ⟨hid, hn⟩ := List.forall_mem_cons.mp hn
    cases hv with
    | changed _ hr => exact absurd hid hr.not_normal
    | unchanged => exact ih hn

/-! ## Runs -/

section
variable (hrules : ∀ rule ∈ Rule.computeRules, rule ∈ rules)
include hrules

theorem establishes_settled : Establishes rules (fun _ _ => True) Plan.Settled where
  congr := .congr
  visit hp hlt hid _ hin hv := hv.settled hp hlt hid hrules hin
  keeps_pre _ _ _ _ := id
  keeps_goal hp hf hr := hr.settled hp hf

theorem establishes_normal : Establishes rules Plan.Settled Plan.Normal where
  congr := .congr
  visit hp _ hid hs _ hv := hv.normal hp hid hrules hs
  keeps_pre hp hf hr ho := hr.settled hp hf ho.settled
  keeps_goal hp hf hr _ := hr.normal hp hf

end

variable {limit passes : Nat} {fixed : Bool}

/-- A run over normal nodes ends with its first pass. -/
theorem Ran.of_normal (h : Ran rules root (limit + 1) p passes fixed q) (hp : p.Good)
    (hroot : root < p.size) (hn : p.AllBelow root Plan.Normal) :
    fixed = true ∧ passes = 1 ∧ q = p := by
  obtain ⟨ids', hids', -, hmem⟩ := hp.wf.exists_reachable hroot
  cases h with
  | fixpoint _ hs => exact ⟨rfl, rfl, hs.eq_of_unchanged⟩
  | pass hids hs =>
    obtain rfl := Except.ok.inj (hids.symm.trans hids')
    cases hs.unchanged_of_normal fun id hid => hn id ((hmem id).mp hid)

/-- A run over settled nodes makes them normal with its first pass. -/
theorem Ran.of_settled (h : Ran rules root (limit + 2) p passes fixed q)
    (hrules : ∀ rule ∈ Rule.computeRules, rule ∈ rules) (hp : p.Good) (hroot : root < p.size)
    (hn : p.AllBelow root Plan.Settled) :
    fixed = true ∧ passes ≤ 2 ∧ q.AllBelow root Plan.Normal := by
  cases h with
  | fixpoint hids hs =>
    exact ⟨rfl, by decide, hs.establishes_below (establishes_normal hrules) hp hroot hids hn⟩
  | pass hids hs hran =>
    have hnormal := hs.establishes_below (establishes_normal hrules) hp hroot hids hn
    obtain ⟨hgood, hsize⟩ := hs.good_and_size hp
    obtain ⟨hfix, rfl, rfl⟩ := hran.of_normal hgood (Nat.lt_of_lt_of_le hroot hsize) hnormal
    exact ⟨hfix, Nat.le_refl 2, hnormal⟩

/-- A run settles all nodes with its first pass. -/
theorem Ran.normal (h : Ran rules root (limit + 3) p passes fixed q)
    (hrules : ∀ rule ∈ Rule.computeRules, rule ∈ rules) (hp : p.Good) (hroot : root < p.size) :
    fixed = true ∧ passes ≤ 3 ∧ q.AllBelow root Plan.Normal := by
  have hsettled {ids b q'} (hids : p.reachable root = .ok ids) (hs : Swept rules ids p b q') :=
    hs.establishes_below (establishes_settled hrules) hp hroot hids fun _ _ => trivial
  cases h with
  | fixpoint hids hs =>
    obtain rfl := hs.eq_of_unchanged
    exact ⟨rfl, by decide,
      hs.establishes_below (establishes_normal hrules) hp hroot hids (hsettled hids hs)⟩
  | pass hids hs hran =>
    obtain ⟨hgood, hsize⟩ := hs.good_and_size hp
    obtain ⟨hfix, hpasses, hnormal⟩ :=
      hran.of_settled hrules hgood (Nat.lt_of_lt_of_le hroot hsize) (hsettled hids hs)
    exact ⟨hfix, Nat.succ_le_succ hpasses, hnormal⟩

/-- Three passes with all rules for compute nodes bring any plan into normal form: no rule fails, the
last pass finds nothing to do, and below the new root there are but scans, values, joins, and compute
nodes over one of these that change rows or names. -/
theorem rewrite_normal {r : Rewriter} (hp : p.Built) (hroot : root < p.size)
    (hg : r.registry.Registers rules) (hrules : ∀ rule, rule ∈ rules ↔ rule ∈ Rule.computeRules)
    (hmax : 3 ≤ r.maxIterations) :
    ∃ s, r.rewrite p root = (.ok (s.plan.resolve root), s) ∧ s.stats.failures = 0 ∧
      s.stats.reachedFixpoint = true ∧ s.stats.passes ≤ 3 ∧
      ∃ ids, s.plan.reachable (s.plan.resolve root) = .ok ids ∧ s.plan.resolve root ∈ ids ∧
        ∀ id ∈ ids, s.plan.Normal id := by
  have hgood := hp.good
  obtain ⟨s, passes, fixed, hrun, hran, hfail, rfl, hfix⟩ :=
    rewrite_spec hgood hroot hg fun rule => (hrules rule).mp
  obtain ⟨limit, hlimit⟩ := Nat.exists_eq_add_of_le' hmax
  rw [hlimit] at hran
  obtain ⟨rfl, hpasses, hnormal⟩ := hran.normal (fun rule => (hrules rule).mpr) hgood hroot
  obtain ⟨hq, hsize⟩ := hran.good_and_size hgood
  have hroot' := hq.wf.resolve_lt (Nat.lt_of_lt_of_le hroot hsize)
  obtain ⟨ids, hids, -, hmem⟩ := hq.wf.exists_reachable hroot'
  rw [hq.wf.resolve_resolve] at hmem
  exact ⟨s, hrun, hfail, hfix rfl, hpasses, ids, hids, (hmem _).mpr .refl,
    fun id hid => hnormal id ((hmem id).mp hid)⟩

/-- Swaps two fields of a table twice. -/
def swaps : Plan where
  slots := [
    ⟨.scan "t" [⟨"a", .int⟩, ⟨"b", .int⟩], none⟩,
    ⟨.project 0 [.input 1, .input 0] [⟨"b", .int⟩, ⟨"a", .int⟩], none⟩,
    ⟨.project 1 [.input 1, .input 0] [⟨"a", .int⟩, ⟨"b", .int⟩], none⟩]

theorem swaps_built : swaps.Built :=
  Plan.Built.empty.add .scan
    |>.add (.project (show Plan.newProject _ 0 [.input 1, .input 0] ["b", "a"] = .ok _ from rfl))
    |>.add (.project (show Plan.newProject _ 1 [.input 1, .input 0] ["a", "b"] = .ok _ from rfl))

/-- The first pass merges the swaps, the second one removes what is left of them, and the third one
finds nothing to do. -/
theorem rewrite_normal_swaps : ∃ s,
    Rewriter.default.rewrite swaps 2 = (.ok (s.plan.resolve 2), s) ∧
      s.stats.reachedFixpoint = true ∧ s.stats.passes = 3 ∧ s.plan.resolve 2 = 0 ∧
      s.plan.Normal (s.plan.resolve 2) := by
  obtain ⟨s, hrun, -, hfix, -, ids, -, hroot, hnormal⟩ := rewrite_normal (r := .default)
    swaps_built (show 2 < swaps.size by decide) Registry.default_registers (fun _ => .rfl)
    (by decide)
  have hs : s = (Rewriter.default.rewrite swaps 2).2 := by rw [hrun]
  exact ⟨s, hrun, hfix, hs ▸ by decide +kernel, hs ▸ by decide +kernel, hnormal _ hroot⟩

end Rewriter
end RelPlan
