import RelPlan.Proofs.Rewrite.Run
import RelPlan.Proofs.Rewrite.Safety

/-! # Fixpoints

A pass answers that nothing has changed exactly when at every node that it visits all candidates
decline, or fail and are passed over (`Rewriter.pass_false_iff`). The rules that are no candidates
decline as well, and the next pass sees what this one has seen. So nothing is left to do when a
rewriting has reached its fixpoint (`Rewriter.rewrite_fixpoint`). -/

namespace RelPlan

open Relation

/-! ## Rest -/

/-- The rule declines, or it or its proposal fails and the rewriter passes over that. -/
def Firing.Rests (r : Rewriter) (f : Firing) : Prop :=
  f.outcome = .ok .declined ∨ r.failFast = false ∧ f.fails

theorem Firing.Rests.after_eq {r : Rewriter} {f : Firing} (h : f.Rests r) : f.after r = f.plan := by
  rcases h with ho | ⟨-, hfails⟩
  · refine after_of_not_commits ?_
    rw [commits, result, ho]
    rfl
  · exact after_of_fails hfails

namespace Rewriter

/-- If the node has not been replaced, all candidates for it rest. -/
def AtRest (r : Rewriter) (p : Plan) (id : NodeId) : Prop :=
  p.isReplaced id = false → ∃ n, p.node id = .ok n ∧
    ∀ rule ∈ r.registry.candidates n.kind, Firing.Rests r ⟨p, rule, id⟩

/-- All candidates rest at all nodes that the root computes with. -/
def Quiet (r : Rewriter) (root : NodeId) (p : Plan) : Prop :=
  ∃ ids, p.reachable root = .ok ids ∧ ∀ id ∈ ids, r.AtRest p id

variable {r : Rewriter} {p : Plan} {s s' : Progress} {id root new : NodeId} {rule : Rule}
  {rules : List Rule}

theorem attempt_false_iff :
    (r.attempt rule id s).1 = .ok false ↔ Firing.Rests r ⟨s.plan, rule, id⟩ := by
  rw [Firing.attempt_eq, Firing.Rests]
  generalize Firing.mk s.plan rule id = f
  generalize hres : f.result = res
  cases hres ▸ f.comes_result with
  | declined ho => simp [ho]
  | added ho | redirected ho => simp [ho, Firing.fails, hres]
  | failed =>
    have ho : f.outcome ≠ .ok .declined := by
      intro ho
      rw [Firing.result, ho] at hres
      cases hres
    cases hfast : r.failFast <;> simp [ho, Firing.fails, hres]

/-- An attempt that answers that nothing has changed is right. -/
theorem attempt_plan_eq (h : r.attempt rule id s = (.ok false, s')) : s'.plan = s.plan := calc
  s'.plan = (r.attempt rule id s).2.plan := by rw [h]
  _ = Firing.after r ⟨s.plan, rule, id⟩ := Firing.attempt_after r rule id s
  _ = s.plan := (attempt_false_iff.mp (congrArg Prod.fst h)).after_eq

theorem tryRules_false_iff : (r.tryRules id rules s).1 = .ok false ↔
    ∀ rule ∈ rules, Firing.Rests r ⟨s.plan, rule, id⟩ := by
  induction rules generalizing s with
  | nil => simp [tryRules]
  | cons rule rules ih =>
    rw [List.forall_mem_cons, ← attempt_false_iff, tryRules]
    split
    · rename_i s₁ h
      rw [ih, attempt_plan_eq h, h]
      simp
    · rename_i s₁ h
      simp [h]
    · rename_i e s₁ h
      simp [h]

theorem visit_false_iff : (r.visit id s).1 = .ok false ↔ r.AtRest s.plan id := by
  rw [visit, AtRest]
  split
  · rename_i hid
    simp [hid]
  · rename_i hid
    split
    · rename_i n hn
      rw [tryRules_false_iff]
      simp [hid, hn]
    · rename_i e hn
      simp [hid, hn]

theorem visitAll_false_iff {ids : List NodeId} :
    (r.visitAll ids s).1 = .ok false ↔ ∀ id ∈ ids, r.AtRest s.plan id := by
  induction ids generalizing s with
  | nil => simp [visitAll]
  | cons id ids ih =>
    obtain ⟨fs, hfirst⟩ := r.visit_makes id s
    rw [List.forall_mem_cons, ← visit_false_iff, visitAll]
    split
    · rename_i e s₁ h
      simp [h]
    · rename_i changed s₁ h
      rw [h] at hfirst ⊢
      cases changed with
      | false =>
        rw [← hfirst.plan_eq, ← ih]
        split <;> simp_all
      | true => split <;> simp

/-- A pass changes nothing, and no failure ends it, exactly when all candidates rest. -/
theorem pass_false_iff : (r.pass root s).1 = .ok false ↔ r.Quiet root s.plan := by
  rw [pass, Quiet]
  split
  · rename_i ids hids
    rw [visitAll_false_iff]
    simp [hids]
  · rename_i e hids
    simp [hids]

/-! ## Fixpoints -/

/-- At rest, rules that are no candidates decline. -/
theorem AtRest.rests (h : r.AtRest p id) (hp : p.WF) (hf : p.forward? id = none)
    (hg : r.registry.Registers rules) (hrule : rule ∈ rules) : Firing.Rests r ⟨p, rule, id⟩ := by
  obtain ⟨n, hn, hcand⟩ := h (Plan.isReplaced_eq_false_iff.mpr hf)
  by_cases hkind : n.kind ∈ rule.pattern.rootKinds
  · apply hcand
    rw [hg.candidates_eq]
    exact List.mem_filter.mpr ⟨hrule, decide_eq_true hkind⟩
  · left
    rw [Firing.outcome, Rule.fire, Pattern.bind_eq_none hp hn (hg.test_ne_any hrule) hkind]
    rfl

/-- When the fixpoint has been reached, a last pass has been made in which nothing changed. -/
theorem quiet_of_runPasses {passes : Nat} (h : r.runPasses root passes s = (.ok (), s'))
    (hs : s.stats.reachedFixpoint = false) (hfix : s'.stats.reachedFixpoint = true) :
    passes ≠ 0 ∧ r.Quiet root s'.plan := by
  -- Passes leave the flag as it is, so a run sets it only after a pass without changes.
  induction passes generalizing s with
  | zero =>
    cases h
    cases hs.symm.trans hfix
  | succ passes ih =>
    refine ⟨nofun, ?_⟩
    rw [runPasses] at h
    generalize hs₀ : { s with stats := { s.stats with passes := s.stats.passes + 1 } } = s₀ at h
    obtain ⟨fs, hpass⟩ := r.pass_makes root s₀
    have hfix₀ : s₀.stats.reachedFixpoint = false := hs₀ ▸ hs
    split at h
    · rename_i s₁ hrun
      rw [hrun] at hpass
      exact (ih h (hpass.reachedFixpoint.trans hfix₀)).2
    · rename_i s₁ hrun
      rw [hrun] at hpass
      cases h
      have hquiet := pass_false_iff.mp (congrArg Prod.fst hrun)
      rwa [← hpass.plan_eq] at hquiet
    · cases h

theorem quiet_of_rewrite (h : r.rewrite p root = (.ok new, s))
    (hfix : s.stats.reachedFixpoint = true) :
    new = s.plan.resolve root ∧ r.maxIterations ≠ 0 ∧ r.Quiet root s.plan := by
  rw [rewrite] at h
  split at h
  · rename_i s₀ hrun
    cases h
    have hquiet := quiet_of_runPasses (s := { plan := p }) hrun rfl hfix
    exact ⟨rfl, hquiet⟩
  · cases h

/-- Where all is quiet, one pass is made, and it changes nothing. -/
theorem Quiet.runPasses (h : r.Quiet root s.plan) (passes : Nat) :
    ∃ s', r.runPasses root (passes + 1) s = (.ok (), s') ∧ s'.plan = s.plan ∧
      s'.stats.passes = s.stats.passes + 1 ∧ s'.stats.firings = s.stats.firings := by
  rw [Rewriter.runPasses]
  generalize hs₀ : { s with stats := { s.stats with passes := s.stats.passes + 1 } } = s₀
  obtain ⟨fs, hpass⟩ := r.pass_makes root s₀
  have hplan : s₀.plan = s.plan := hs₀ ▸ rfl
  have hanswer : (r.pass root s₀).1 = .ok false := pass_false_iff.mpr (hplan ▸ h)
  generalize r.pass root s₀ = step at hpass hanswer
  obtain ⟨out, s₁⟩ := step
  obtain rfl : out = .ok false := hanswer
  exact ⟨_, rfl, hpass.plan_eq.trans hplan, hpass.passes.trans (hs₀ ▸ rfl),
    hpass.firings_eq.trans (hs₀ ▸ rfl)⟩

/-- A rewriting where all is quiet. -/
theorem Quiet.rewrite (h : r.Quiet root p) (hmax : r.maxIterations ≠ 0) :
    ∃ s, r.rewrite p root = (.ok (p.resolve root), s) ∧ s.plan = p ∧ s.stats.passes = 1 ∧
      s.stats.firings = 0 := by
  obtain ⟨k, hk⟩ := Nat.exists_eq_succ_of_ne_zero hmax
  obtain ⟨s, hrun, rfl, hpasses, hfirings⟩ := h.runPasses (s := { plan := p }) k
  refine ⟨s.note (r.summary s.stats), ?_, rfl, hpasses, hfirings⟩
  rw [Rewriter.rewrite, hk, hrun]

/-- The root may also be named by the id that stands for it. -/
theorem Quiet.resolve (h : r.Quiet root p) (hp : p.WF) : r.Quiet (p.resolve root) p := by
  simpa only [Quiet, Plan.reachable, hp.resolve_resolve] using h

theorem Quiet.rests {a : NodeId} (h : r.Quiet root p) (hp : p.WF)
    (ha : ReflTransGen p.Child (p.resolve root) a) (hg : r.registry.Registers rules)
    (hrule : rule ∈ rules) : Firing.Rests r ⟨p, rule, a⟩ := by
  obtain ⟨ids, hids, hrest⟩ := h
  obtain ⟨ids', hids', -, hmem⟩ := hp.exists_reachable (Plan.lt_size_of_reachable hids)
  obtain rfl := Except.ok.inj (hids.symm.trans hids')
  have hf : p.forward? a = none := by
    rcases ha.cases_tail with rfl | ⟨_, _, hc⟩
    · exact hp.forward?_resolve root
    · exact hp.forward?_child hc
  exact (hrest a ((hmem a).mpr ha)).rests hp hf hg hrule

/-- At a fixpoint no rule, candidate or not, has anything to do below the root, but for failures that
are passed over, and rewriting again from the old or the new root takes one pass that changes
nothing. -/
theorem rewrite_fixpoint (hp : p.WF) (hg : r.registry.Registers rules)
    (h : r.rewrite p root = (.ok new, s)) (hfix : s.stats.reachedFixpoint = true) :
    (∀ a, ReflTransGen s.plan.Child (s.plan.resolve root) a →
      ∀ rule ∈ r.registry.rules, Firing.Rests r ⟨s.plan, rule, a⟩) ∧
    ∀ root' ∈ [root, new], ∃ s', r.rewrite s.plan root' = (.ok new, s') ∧ s'.plan = s.plan ∧
      s'.stats.passes = 1 ∧ s'.stats.firings = 0 := by
  have hwf : s.plan.WF := by
    obtain ⟨fs, hrun⟩ := r.rewrite_leads p root
    rw [h] at hrun
    exact (hrun.fired.retains hp).2.1
  obtain ⟨rfl, hmax, hquiet⟩ := quiet_of_rewrite h hfix
  refine ⟨fun a ha rule hrule => hquiet.rests hwf ha hg (hg.rules_eq ▸ hrule), ?_⟩
  intro root' hroot'
  rcases List.mem_pair.mp hroot' with rfl | rfl
  · exact hquiet.rewrite hmax
  · have hagain := (hquiet.resolve hwf).rewrite hmax
    rwa [hwf.resolve_resolve] at hagain

theorem meddling_registers :
    meddling.registry.Registers (relabel :: loop :: refuse :: Rule.computeRules) := by
  dsimp only [meddling]
  apply Registry.registers_getD
  rfl

/-- All rules rest at the new root, one of them by failing. -/
theorem rewrite_fixpoint_meddling : ∃ s, meddling.rewrite .positives 1 = (.ok 3, s) ∧
    (∀ rule ∈ meddling.registry.rules, Firing.Rests meddling ⟨s.plan, rule, 3⟩) ∧
    Firing.fails ⟨s.plan, refuse, 3⟩ ∧
    ∃ s', meddling.rewrite s.plan 1 = (.ok 3, s') ∧ s'.plan = s.plan ∧ s'.stats.passes = 1 ∧
      s'.stats.firings = 0 := by
  obtain ⟨s, hrun, -, hroot, -, hfix⟩ := exists_meddled
  obtain ⟨hrests, hagain⟩ := rewrite_fixpoint positives_edited.wf meddling_registers hrun hfix
  have hs : s = (meddling.rewrite .positives 1).2 := by rw [hrun]
  have hfails : Firing.fails ⟨s.plan, refuse, 3⟩ := hs ▸ by decide +kernel
  exact ⟨s, hrun, hrests 3 (hroot ▸ .refl), hfails, hagain 1 List.mem_cons_self⟩

end Rewriter
end RelPlan
