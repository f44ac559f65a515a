import RelPlan.Proofs.Rewrite.NormalForm
import RelPlan.Proofs.Rewrite.Safety

/-! # Rewriting terminates

Written out as a tree, in which a shared node occurs as often as it is read (`Plan.Unfolds`), a plan
has work for the rules: a filter or a projection can become a compute node, and a compute node can
go away (`Unfolding.work`). A rewriting step takes work from every tree in which the replaced node
occurs and adds none to the others (`Rewrites.eases`). A pass changes only nodes that the root
still computes with (`Plan.Awaited`), so the work below the root bounds the number of replacements
(`Rewriter.rewrite_terminates`). -/

namespace RelPlan

open Relation

/-! ## Work -/

/-- How often a node of the kind can be changed at most. -/
def NodeKind.work : NodeKind → Nat
  | filter | project => 2
  | compute => 1
  | scan | values | join => 0

/-- The kinds of a node and of all that it computes with, nothing being shared. -/
inductive Unfolding where
  | node (kind : NodeKind) (inputs : List Unfolding)

namespace Unfolding

mutual

/-- The work at all nodes of a tree. -/
def work : Unfolding → Nat
  | node kind inputs => kind.work + workAll inputs

def workAll : List Unfolding → Nat
  | [] => 0
  | t :: ts => t.work + workAll ts

end

theorem work_single (kind : NodeKind) (t : Unfolding) :
    (node kind [t]).work = kind.work + t.work := by
  rw [work, workAll, workAll, Nat.add_zero]

end Unfolding

/-- The tree that a node and all that it computes with make. -/
inductive Plan.Unfolds (p : Plan) : NodeId → Unfolding → Prop where
  | node {n : Node} {ts : List Unfolding} : p.node a = .ok n →
      List.Forall₂ p.Unfolds n.inputs ts → Unfolds p a (.node n.kind ts)

theorem Node.work_compute {program : Program} : (compute i program).kind.work = 1 := rfl

theorem Node.Runs.work_pos {n : Node} (h : n.Runs i c es) : 0 < n.kind.work := by
  cases h <;> exact Nat.succ_pos _

theorem Node.Runs.one_lt_work {n : Node} (h : n.Runs i c es) (hkind : n.kind ≠ .compute) :
    1 < n.kind.work := by
  cases h with
  | filter | project => exact Nat.lt_succ_self 1
  | compute => exact absurd rfl hkind

namespace Plan

variable {p q : Plan} {a b i root : NodeId} {n : Node} {t : Unfolding} {is : List NodeId}
  {ts : List Unfolding}

theorem Unfolds.congr (hab : p.node a = p.node b) (h : p.Unfolds a t) : p.Unfolds b t := by
  cases h with
  | node hn hts => exact .node (hab ▸ hn) hts

/-- The tree of a node with one input. -/
theorem unfolds_iff_of_inputs (hn : p.node a = .ok n) (hi : n.inputs = [i]) :
    p.Unfolds a t ↔ ∃ u, p.Unfolds i u ∧ t = .node n.kind [u] := by
  constructor
  · intro h
    cases h with
    | node hm hts =>
      obtain rfl := Except.ok.inj (hn.symm.trans hm)
      rw [hi] at hts
      cases hts with
      | cons hu hnil =>
        cases hnil
        exact ⟨_, hu, rfl⟩
  · rintro ⟨u, hu, rfl⟩
    exact .node hn (hi ▸ .cons hu .nil)

theorem exists_unfolds_inputs (h : ∀ i ∈ is, ∃ t, p.Unfolds i t) :
    ∃ ts, List.Forall₂ p.Unfolds is ts := by
  induction is with
  | nil => exact ⟨[], .nil⟩
  | cons i is ih =>
    obtain ⟨⟨t, ht⟩, h⟩ := List.forall_mem_cons.mp h
    obtain ⟨ts, hts⟩ := ih h
    exact ⟨t :: ts, .cons ht hts⟩

theorem WF.exists_unfolds (h : p.WF) (ha : a < p.size) : ∃ t, p.Unfolds a t := by
  induction hk : p.height a using Nat.strongRecOn generalizing a with
  | ind k ih =>
    obtain ⟨n, hn⟩ := h.exists_node ha
    obtain ⟨ts, hts⟩ := exists_unfolds_inputs fun i hi =>
      ih _ (hk ▸ h.height_input_lt hn hi) (h.input_lt hn hi) rfl
    exact ⟨_, .node hn hts⟩

/-! ## Steps take work away -/

/-- In the second plan the node has no more work below it than in the first one, and less of it
under the given condition. -/
def Eases (p q : Plan) (a : NodeId) (strictly : Prop) : Prop :=
  ∀ t, p.Unfolds a t → ∃ u, q.Unfolds a u ∧ u.work ≤ t.work ∧ (strictly → u.work < t.work)

theorem eases_inputs {R : NodeId → Prop} (h : ∀ i ∈ is, p.Eases q i (R i))
    (hts : List.Forall₂ p.Unfolds is ts) :
    ∃ us, List.Forall₂ q.Unfolds is us ∧ Unfolding.workAll us ≤ Unfolding.workAll ts ∧
      ((∃ i ∈ is, R i) → Unfolding.workAll us < Unfolding.workAll ts) := by
  induction hts with
  | nil => exact ⟨[], .nil, Nat.le_refl _, by simp⟩
  | @cons i t is ts ht _ ih =>
    obtain ⟨hi, h⟩ := List.forall_mem_cons.mp h
    obtain ⟨u, hu, hle, hlt⟩ := hi t ht
    obtain ⟨us, hus, hles, hlts⟩ := ih h
    refine ⟨u :: us, .cons hu hus, Nat.add_le_add hle hles, ?_⟩
    rintro ⟨j, hj, hr⟩
    rcases List.mem_cons.mp hj with rfl | hj
    · exact Nat.add_lt_add_of_lt_of_le (hlt hr) hles
    · exact Nat.add_lt_add_of_le_of_lt hle (hlts ⟨j, hj, hr⟩)

end Plan

namespace Rewrites

variable {p : Plan} {o a : NodeId} {r : Replacement}

section
variable (h : p.Good) (hf : p.forward? o = none) (hr : Rewrites p o r)
include h hf hr

/-- The node that stands for the old one has less work below it, where lower nodes have no more than
before. -/
theorem eases_old (hlower : ∀ i, p.height i < p.height o → p.Eases (r.written p o) i False) :
    p.Eases (r.written p o) o True := by
  intro t ht
  have hold := hr.node_old h hf (Plan.resolve_of_forward?_eq_none hf)
  -- The new node names the lower one by the id that stands for it.
  have hresolve {i u} (hi : i < p.size) (hu : (r.written p o).Unfolds i u) :
      (r.written p o).Unfolds (p.resolve i) u :=
    hu.congr (by rw [Plan.node, Plan.node, hr.resolve_resolve h hf hi])
  have hr' := hr
  cases hr' with
  | convert hn hkind hruns =>
    obtain ⟨ti, hti, rfl⟩ := (Plan.unfolds_iff_of_inputs hn hruns.inputs_eq).mp ht
    have hheight := h.wf.height_input_lt hn hruns.mem_inputs
    obtain ⟨u, hu, hle, -⟩ := hlower _ hheight ti hti
    have hu := hresolve (h.wf.input_lt hn hruns.mem_inputs) hu
    have hnew := hold.trans (hr.node_new h hf)
    refine ⟨_, (Plan.unfolds_iff_of_inputs hnew rfl).mpr ⟨u, hu, rfl⟩, ?_⟩
    have hwork := hruns.one_lt_work hkind
    rw [Unfolding.work_single, Unfolding.work_single, Node.work_compute, true_imp_iff]
    omega
  | merge hn hruns hm =>
    obtain ⟨ti, hti, rfl⟩ := (Plan.unfolds_iff_of_inputs hn hruns.inputs_eq).mp ht
    obtain ⟨tj, htj, rfl⟩ := (Plan.unfolds_iff_of_inputs hm rfl).mp hti
    have hheight := h.wf.height_input_lt hn hruns.mem_inputs
    have hheight' := h.wf.height_input_lt hm List.mem_cons_self
    obtain ⟨u, hu, hle, -⟩ := hlower _ (Nat.lt_trans hheight' hheight) tj htj
    have hu := hresolve (h.wf.input_lt hm List.mem_cons_self) hu
    have hnew := hold.trans (hr.node_new h hf)
    refine ⟨_, (Plan.unfolds_iff_of_inputs hnew rfl).mpr ⟨u, hu, rfl⟩, ?_⟩
    have hwork := hruns.work_pos
    simp only [Unfolding.work_single, Node.work_compute, true_imp_iff]
    omega
  | remove hn =>
    obtain ⟨ti, hti, rfl⟩ := (Plan.unfolds_iff_of_inputs hn rfl).mp ht
    have hheight := h.wf.height_input_lt hn List.mem_cons_self
    obtain ⟨u, hu, hle, -⟩ := hlower _ hheight ti hti
    have hu := hresolve (h.wf.input_lt hn List.mem_cons_self) hu
    refine ⟨u, hu.congr hold.symm, ?_⟩
    rw [Unfolding.work_single, Node.work_compute, true_imp_iff]
    omega

/-- A step adds no work anywhere, and takes work from all nodes that compute with the old one. -/
theorem eases (ha : a < p.size) :
    p.Eases (r.written p o) a (ReflTransGen p.Child (p.resolve a) o) := by
  induction hk : p.height a using Nat.strongRecOn generalizing a with
  | ind k ih =>
    by_cases hao : p.resolve a = o
    · have hle := h.wf.height_resolve_le a
      rw [hao] at hle
      intro t ht
      have hold := hr.eases_old h hf fun i hi t hti => by
        obtain ⟨n, hn⟩ : ∃ n, p.node i = .ok n := by
          cases hti with
          | node hn => exact ⟨_, hn⟩
        obtain ⟨u, hu, hle', -⟩ := ih _ (by omega) (Plan.lt_size_of_node hn) rfl t hti
        exact ⟨u, hu, hle', False.elim⟩
      have hto : p.Unfolds o t := ht.congr (by rw [← hao, h.wf.node_resolve])
      obtain ⟨u, hu, hle', hlt⟩ := hold t hto
      exact ⟨u, hu.congr (hr.node_replaced h hf hao).symm, hle', fun _ => hlt trivial⟩
    · intro t ht
      have hnode := hr.node_other h hf ha hao
      cases ht with
      | node hn hts =>
        obtain ⟨us, hus, hle, hlt⟩ := Plan.eases_inputs (fun i hi =>
          ih _ (hk ▸ h.wf.height_input_lt hn hi) (h.wf.input_lt hn hi) rfl) hts
        refine ⟨_, .node (hnode.trans hn) hus, Nat.add_le_add_left hle _, fun hreach => ?_⟩
        obtain heq | ⟨c, hc, hreach⟩ := hreach.cases_head
        · exact absurd heq hao
        obtain ⟨hm, hi⟩ := hc
        obtain rfl := Except.ok.inj (hn.symm.trans ((h.wf.node_resolve a).symm.trans hm))
        exact Nat.add_lt_add_left (hlt ⟨_, hi, hreach⟩) _

end
end Rewrites

/-! ## Passes visit what is below the root -/

theorem Rewrites.child_kept {p : Plan} {o a c : NodeId} {r : Replacement} (h : p.Good)
    (hf : p.forward? o = none) (hr : Rewrites p o r) (ha : a < p.size) (hne : p.resolve a ≠ o)
    (hc : p.Child a c) (hco : c ≠ o) : (r.written p o).Child a c := by
  obtain ⟨hn, hi⟩ := hc
  rw [← (hr.redirects h hf).resolve_other (h.wf.input_lt hn hi) hco]
  exact .intro ((hr.node_other h hf ha hne).trans hn) hi

namespace Plan

variable {p : Plan} {a o root : NodeId} {ids done todo : List NodeId} {r : Replacement}

/-- Each of the ids to visit is the root, or an input of one that is visited later. -/
inductive Awaited (p : Plan) (root : NodeId) : List NodeId → Prop where
  | nil : p.Awaited root []
  | cons {id : NodeId} {todo : List NodeId} : p.resolve root = id ∨ (∃ a ∈ todo, p.Child a id) →
      p.Awaited root todo → p.Awaited root (id :: todo)

theorem Awaited.reached (h : p.Awaited root todo) (ha : a ∈ todo) :
    ReflTransGen p.Child (p.resolve root) a := by
  induction h generalizing a with
  | nil => cases ha
  | cons hid _ ih =>
    rcases List.mem_cons.mp ha with rfl | ha
    · rcases hid with rfl | ⟨b, hb, hc⟩
      · exact .refl
      · exact (ih hb).tail hc
    · exact ih ha

/-- In a bottom-up order of the nodes below a root, each node comes before all that read it. -/
theorem Ordered.awaited (h : p.Ordered ids) (hp : p.WF)
    (hids : ∀ x ∈ ids, p.resolve root = x ∨ ∃ a ∈ ids ++ todo, p.Child a x)
    (htodo : p.Awaited root todo) : p.Awaited root (ids.reverse ++ todo) := by
  induction h generalizing todo with
  | nil => exact htodo
  | @cons id ids _ _ hid _ hids' ih =>
    rw [List.reverse_cons, List.append_assoc]
    obtain ⟨hhead, hids⟩ := List.forall_mem_cons.mp hids
    refine ih (fun x hx => (hids x hx).imp_right ?_) (.cons (hhead.imp_right ?_) htodo)
    · rintro ⟨a, ha, hc⟩
      exact ⟨a, by simpa [or_left_comm] using ha, hc⟩
    · rintro ⟨a, ha, hc⟩
      rcases List.mem_append.mp ha with ha | ha
      · rcases List.mem_cons.mp ha with rfl | ha
        · exact absurd (hp.height_child_lt hc) (Nat.lt_irrefl _)
        · exact absurd (hids'.child_mem ha hc) hid
      · exact ⟨a, ha, hc⟩

theorem WF.awaited_reachable (h : p.WF) (hroot : root < p.size)
    (hids : p.reachable root = .ok ids) : p.Awaited root ids := by
  obtain ⟨ids', hids', hordered, hmem⟩ := h.exists_reachable hroot
  obtain rfl := Except.ok.inj (hids.symm.trans hids')
  have hawaited : p.Awaited root (ids.reverse.reverse ++ []) :=
    hordered.awaited h (fun x hx => ?_) .nil
  · simpa using hawaited
  · rcases ((hmem x).mp (List.mem_reverse.mp hx)).cases_tail with heq | ⟨a, ha, hc⟩
    · exact .inl heq.symm
    · exact .inr ⟨a, by simpa using (hmem a).mpr ha, hc⟩

theorem Queue.mem (h : p.Queue done todo) (ha : a ∈ todo) : a < p.size ∧ p.resolve a = a := by
  induction h with
  | nil => cases ha
  | cons hlt hres _ _ _ ih =>
    rcases List.mem_cons.mp ha with rfl | ha
    · exact ⟨hlt, hres⟩
    · exact ih ha

/-- A step at a node that has been visited leaves the others awaited. -/
theorem Awaited.written (h : p.Awaited root todo) (hp : p.Good) (hf : p.forward? o = none)
    (hr : Rewrites p o r) (hq : p.Queue done todo) (ho : o ∉ todo) :
    (r.written p o).Awaited root todo := by
  induction h generalizing done with
  | nil => exact .nil
  | @cons id todo hid _ ih =>
    cases hq with
    | cons hlt hres _ _ hq =>
      obtain ⟨hne, ho⟩ := not_or.mp (mt List.mem_cons.mpr ho)
      have hid' : p.resolve id ≠ o := fun he => hne (he.symm.trans hres)
      refine .cons ?_ (ih hq ho)
      rcases hid with rfl | ⟨a, ha, hc⟩
      · rw [hres] at hid'
        exact .inl ((hr.redirects hp hf).resolve_other (lt_size_of_resolve hlt) hid')
      · obtain ⟨halt, hares⟩ := hq.mem ha
        refine .inr ⟨a, ha, hr.child_kept hp hf halt ?_ hc (hres ▸ hid')⟩
        rw [hares]
        exact fun he => ho (he ▸ ha)

end Plan

namespace Rewriter

/-! ## Runs -/

variable {r : Rewriter} {rule : Rule} {rules : List Rule} {s s' : Progress} {id root : NodeId}
  {ids done : List NodeId} {t : Unfolding} {b : Bool}

theorem attempt_firings (h : r.attempt rule id s = (.ok b, s')) :
    s'.stats.firings = s.stats.firings + b.toNat := by
  rw [Firing.attempt_eq] at h
  generalize Firing.result ⟨s.plan, rule, id⟩ = result at h
  rcases result with e | ⟨_ | c, q⟩
  · cases hfast : r.failFast <;> rw [hfast] at h <;> cases h
    rfl
  · cases h
    rfl
  · cases h
    rfl

/-- At most one of the rules that are tried at a node fires. -/
theorem tryRules_firings (h : r.tryRules id rules s = (.ok b, s')) :
    s'.stats.firings = s.stats.firings + b.toNat := by
  induction rules generalizing s with
  | nil =>
    cases h
    rfl
  | cons rule rules ih =>
    rw [tryRules] at h
    split at h
    · rename_i s₁ hfirst
      rw [ih h, attempt_firings hfirst]
      rfl
    · rename_i s₁ hfirst
      cases h
      exact attempt_firings hfirst
    · cases h

theorem visit_firings (h : r.visit id s = (.ok b, s')) :
    s'.stats.firings = s.stats.firings + b.toNat := by
  rw [visit] at h
  split at h
  · cases h
    rfl
  · split at h
    · exact tryRules_firings h
    · cases h

/-- Every replacement in a pass takes work from the tree below the root. -/
theorem visitAll_work (h : s.plan.Good) (hqueue : s.plan.Queue done ids)
    (hawaited : s.plan.Awaited root ids) (ht : s.plan.Unfolds root t)
    (hg : r.registry.Registers rules) (hrules : ∀ rule ∈ rules, rule ∈ Rule.computeRules)
    (hrun : r.visitAll ids s = (.ok b, s')) :
    ∃ u, s'.plan.Unfolds root u ∧ s'.stats.firings + u.work ≤ s.stats.firings + t.work := by
  induction ids generalizing s done t b with
  | nil =>
    cases hrun
    exact ⟨t, ht, Nat.le_refl _⟩
  | cons id ids ih =>
    have hreached := hawaited.reached List.mem_cons_self
    cases hqueue with
    | cons hlt _ hnot _ hqueue =>
      obtain ⟨b₁, s₁, hvisit, -, hvisited⟩ := visit_spec (r := r) h hlt hg hrules
      have hcount := visit_firings hvisit
      obtain ⟨b₂, hrest⟩ : ∃ b₂, r.visitAll ids s₁ = (.ok b₂, s') := by
        simp only [visitAll, hvisit] at hrun
        split at hrun
        · rename_i more s₂ hrest
          cases hrun
          exact ⟨more, hrest⟩
        · cases hrun
      cases hawaited with
      | cons _ hawaited =>
        generalize hq : s₁.plan = q at hvisited
        cases hvisited with
        | changed hf hr =>
          have hroot : root < s.plan.size := by
            cases ht with
            | node hn => exact Plan.lt_size_of_node hn
          obtain ⟨t₁, ht₁, -, hless⟩ := hr.eases h hf hroot t ht
          obtain ⟨u, hu, hle⟩ := ih (hq ▸ (hr.good h hf).1) (hq ▸ hr.queue h hf hqueue hnot)
            (hq ▸ hawaited.written h hf hr hqueue hnot) (hq ▸ ht₁) hrest
          have hless := hless hreached
          rw [hcount, Bool.toNat_true] at hle
          exact ⟨u, hu, by omega⟩
        | unchanged =>
          obtain ⟨u, hu, hle⟩ := ih (hq ▸ h) (hq ▸ hqueue) (hq ▸ hawaited) (hq ▸ ht) hrest
          rw [hcount] at hle
          exact ⟨u, hu, hle⟩

/-- A pass trades work for replacements, and makes one if it answers that it has changed the
plan. -/
theorem pass_work (h : s.plan.Good) (hroot : root < s.plan.size) (ht : s.plan.Unfolds root t)
    (hg : r.registry.Registers rules) (hrules : ∀ rule ∈ rules, rule ∈ Rule.computeRules) :
    ∃ b s' u, r.pass root s = (.ok b, s') ∧ s'.plan.Good ∧ root < s'.plan.size ∧
      s'.plan.Unfolds root u ∧ s'.stats.firings + u.work ≤ s.stats.firings + t.work ∧
      (b = true → s.stats.firings < s'.stats.firings) := by
  obtain ⟨ids, hids, -, -⟩ := h.wf.exists_reachable hroot
  have hqueue := h.wf.queue_reachable hroot hids
  have hlt : ∀ id ∈ ids, id < s.plan.size := fun id hid => (hqueue.mem hid).1
  obtain ⟨b, s', hrun, -, hswept⟩ := visitAll_spec (r := r) h hlt hg hrules
  obtain ⟨u, hu, hle⟩ :=
    visitAll_work h hqueue (h.wf.awaited_reachable hroot hids) ht hg hrules hrun
  obtain ⟨hgood, hsize⟩ := hswept.good_and_size h
  refine ⟨b, s', u, by simp only [pass, hids, hrun], hgood, Nat.lt_of_lt_of_le hroot hsize, hu, hle,
    ?_⟩
  rintro rfl
  obtain ⟨fs, hmakes⟩ := r.visitAll_makes ids s
  rw [hrun] at hmakes
  have hsome : 0 < fs.countP Firing.commits :=
    List.countP_pos_iff.mpr (List.any_eq_true.mp (hmakes.answer true rfl).symm)
  exact hmakes.firings ▸ Nat.lt_add_of_pos_right hsome

/-- Passes make no more replacements than there is work, and end where nothing changes if there may
be more of them than that. -/
theorem runPasses_work {limit : Nat} (h : s.plan.Good) (hroot : root < s.plan.size)
    (ht : s.plan.Unfolds root t) (hg : r.registry.Registers rules)
    (hrules : ∀ rule ∈ rules, rule ∈ Rule.computeRules) :
    ∃ s', r.runPasses root limit s = (.ok (), s') ∧
      s'.stats.firings ≤ s.stats.firings + t.work ∧
      (t.work < limit → s'.stats.reachedFixpoint = true) := by
  induction limit generalizing s t with
  | zero => exact ⟨s, rfl, Nat.le_add_right _ _, nofun⟩
  | succ limit ih =>
    generalize hs : { s with stats := { s.stats with passes := s.stats.passes + 1 } } = s₁
    have hplan : s₁.plan = s.plan := hs ▸ rfl
    have hfirings : s₁.stats.firings = s.stats.firings := hs ▸ rfl
    obtain ⟨b, s₂, u, hpass, hgood, hroot', hu, hle, hless⟩ :=
      pass_work (r := r) (s := s₁) (hplan ▸ h) (hplan ▸ hroot) (hplan ▸ ht) hg hrules
    rw [hfirings] at hle hless
    cases b with
    | false =>
      refine ⟨{ s₂ with stats := { s₂.stats with reachedFixpoint := true } }, ?_,
        Nat.le_trans (Nat.le_add_right _ _) hle, fun _ => rfl⟩
      simp only [runPasses, hs, hpass]
    | true =>
      obtain ⟨s₃, hrest, hbound, hfix⟩ := ih hgood hroot' hu
      have hless := hless rfl
      refine ⟨s₃, ?_, Nat.le_trans hbound hle, fun hlimit => hfix (by omega)⟩
      simp only [runPasses, hs, hpass, hrest]

/-- Whatever rules for compute nodes there are, they cannot feed each other forever: the work in the
tree below the root bounds the number of replacements that are written, whatever the limit on
passes, and with more passes than that the rewriting ends where no rule has anything to do. -/
theorem rewrite_terminates {p : Plan} (hp : p.Built) (hroot : root < p.size) :
    ∃ t, p.Unfolds root t ∧ ∀ (r : Rewriter) (rules : List Rule), r.registry.Registers rules →
      (∀ rule ∈ rules, rule ∈ Rule.computeRules) →
      ∃ s fs, r.rewrite p root = (.ok (s.plan.resolve root), s) ∧ r.Fired p fs s.plan ∧
        s.stats.firings = fs.countP Firing.commits ∧ fs.countP Firing.commits ≤ t.work ∧
        (t.work < r.maxIterations → s.stats.reachedFixpoint = true) := by
  have hgood := hp.good
  obtain ⟨t, ht⟩ := hgood.wf.exists_unfolds hroot
  refine ⟨t, ht, ?_⟩
  intro r rules hg hrules
  obtain ⟨s, hrun, hle, hfix⟩ : ∃ s, r.runPasses root r.maxIterations { plan := p } = (.ok (), s) ∧
      s.stats.firings ≤ 0 + t.work ∧
      (t.work < r.maxIterations → s.stats.reachedFixpoint = true) :=
    runPasses_work hgood hroot ht hg hrules
  obtain ⟨fs, hleads⟩ := r.rewrite_leads p root
  have hrewrite : r.rewrite p root = (.ok (s.plan.resolve root), s.note (r.summary s.stats)) := by
    simp only [rewrite, hrun]
  rw [hrewrite] at hleads
  have hcount : s.stats.firings = fs.countP Firing.commits :=
    hleads.firings.trans (Nat.zero_add _)
  exact ⟨s.note (r.summary s.stats), fs, hrewrite, hleads.fired, hcount,
    hcount ▸ Nat.le_trans hle (Nat.le_of_eq (Nat.zero_add _)), hfix⟩

/-- Two projections, one on top of the other, that change nothing. -/
def idle : Plan where
  slots := [
    ⟨.scan "t" [⟨"a", .int⟩], none⟩,
    ⟨.project 0 [.input 0] [⟨"a", .int⟩], none⟩,
    ⟨.project 1 [.input 0] [⟨"a", .int⟩], none⟩]

/-- A rewriter that turns projections into compute nodes and removes those, but merges nothing. -/
def unmerging : Rewriter where
  registry := (Registry.empty.registerEnabled [] [.projectToCompute, .removeCompute]).result
    |>.toOption.getD .empty
  maxIterations := 5
  failFast := true

theorem unmerging_registers :
    unmerging.registry.Registers [.projectToCompute, .removeCompute] := by
  dsimp only [unmerging]
  apply Registry.registers_getD
  rfl

theorem idle_built : idle.Built :=
  Plan.Built.empty.add .scan
    |>.add (.project (show Plan.newProject _ 0 [.input 0] ["a"] = .ok _ from rfl))
    |>.add (.project (show Plan.newProject _ 1 [.input 0] ["a"] = .ok _ from rfl))

/-- A projection over a compute node has to wait until that is removed, which makes for four passes
with changes and as many replacements as there is work. -/
theorem rewrite_terminates_idle : ∃ s fs, unmerging.rewrite idle 2 = (.ok 0, s) ∧
    unmerging.Fired idle fs s.plan ∧ fs.countP Firing.commits = 4 ∧
    s.stats.reachedFixpoint = true := by
  obtain ⟨t, ht, hruns⟩ := rewrite_terminates idle_built (show 2 < idle.size by decide)
  have hwork : t.work = 4 := by
    obtain ⟨t₁, ht₁, rfl⟩ := (Plan.unfolds_iff_of_inputs
      (n := .project 1 [.input 0] [⟨"a", .int⟩]) rfl rfl).mp ht
    obtain ⟨t₀, ht₀, rfl⟩ := (Plan.unfolds_iff_of_inputs
      (n := .project 0 [.input 0] [⟨"a", .int⟩]) rfl rfl).mp ht₁
    cases ht₀ with
    | node hn hts =>
      obtain rfl := Except.ok.inj hn
      cases hts
      rfl
  obtain ⟨s, fs, hrun, hfired, hcount, -, hfix⟩ := hruns unmerging _ unmerging_registers
    (by simp [Rule.computeRules])
  have hs : s = (unmerging.rewrite idle 2).2 := by rw [hrun]
  have hroot : s.plan.resolve 2 = 0 := hs ▸ by decide +kernel
  have hfour : s.stats.firings = 4 := hs ▸ by decide +kernel
  exact ⟨s, fs, hroot ▸ hrun, hfired, hcount.symm.trans hfour, hfix (hwork ▸ by decide)⟩

end Rewriter
end RelPlan
