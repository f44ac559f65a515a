import RelPlan.Proofs.Plan.Replacement
import RelPlan.Rewrite.Rewriter

/-! # Rules cannot damage a plan

A rewriting changes the plan by firing rules, one after the other (`Rewriter.Fired`). Whatever a rule
does, its firing either leaves the plan as it is or writes one proposal (`Firing.Comes`), so a run
keeps what the plan held, also when it ends with an error (`Rewriter.rewrite_safe`). -/

namespace RelPlan

/-- A rule fired at a node of a plan. -/
structure Firing where
  plan : Plan
  rule : Rule
  node : NodeId

namespace Firing

/-- What the rule proposes. -/
def outcome (f : Firing) : Except RewriteError Outcome := (f.rule.fire f.plan f.node).result

/-- What comes of it when the proposal is written. -/
def result (f : Firing) : Except RewriteError (Option Committed × Plan) := do
  (← f.outcome).commit f.plan |>.mapError .plan

/-- The plan that a rewriter has after the firing. -/
def after (r : Rewriter) (f : Firing) : Plan := (r.attempt f.rule f.node { plan := f.plan }).2.plan

/-- Whether a proposal is written. -/
def commits (f : Firing) : Bool :=
  match f.result with
  | .ok (some _, _) => true
  | _ => false

/-- Whether a new node is written. -/
def adds (f : Firing) : Bool :=
  match f.outcome with
  | .ok (.replaced _ (.new _)) => f.commits
  | _ => false

/-- Whether the rule fails, or the proposal cannot be written. -/
def fails (f : Firing) : Bool :=
  match f.result with
  | .ok _ => false
  | .error _ => true

/-- What can come of a firing. -/
inductive Comes (f : Firing) : Except RewriteError (Option Committed × Plan) → Prop where
  | declined : f.outcome = .ok .declined → Comes f (.ok (none, f.plan))
  | added : f.outcome = .ok (.replaced root (.new n)) →
      f.plan.replaceWith root n = .ok (new, q) → Comes f (.ok (some ⟨root, new⟩, q))
  | redirected {id : NodeId} : f.outcome = .ok (.replaced root (.existing id)) →
      f.plan.replace root id = .ok q → Comes f (.ok (some ⟨root, q.resolve id⟩, q))
  | failed : Comes f (.error e)

variable {f : Firing} {r : Rewriter}

theorem comes_result (f : Firing) : f.Comes f.result := by
  unfold result
  cases ho : f.outcome with
  | error e => exact .failed
  | ok o =>
    rw [Except.ok_bind]
    cases o with
    | declined => exact .declined ho
    | replaced root repl =>
      cases repl with
      | new n =>
        rw [Outcome.commit]
        cases hw : f.plan.replaceWith root n with
        | error e => exact .failed
        | ok out => exact .added ho hw
      | existing id =>
        rw [Outcome.commit]
        cases hw : f.plan.replace root id with
        | error e => exact .failed
        | ok q => exact .redirected ho hw

/-! ## What a firing does to a rewriting -/

theorem attempt_eq (r : Rewriter) (rule : Rule) (id : NodeId) (s : Progress) :
    r.attempt rule id s =
      let noted := s.note (rule.fire s.plan id).log
      match result ⟨s.plan, rule, id⟩ with
      | .ok (some c, plan) => (.ok true, noted.commit plan rule.name c)
      | .ok (none, _) => (.ok false, noted.decline rule.name id)
      | .error e => if r.failFast then (.error e, noted) else (.ok false, noted.skip rule.name id e) :=
  rfl

theorem attempt_plan (r : Rewriter) (rule : Rule) (id : NodeId) (s : Progress) :
    (r.attempt rule id s).2.plan =
      match result ⟨s.plan, rule, id⟩ with
      | .ok (some _, q) => q
      | _ => s.plan := by
  rw [attempt_eq]
  rcases result ⟨s.plan, rule, id⟩ with e | ⟨_ | c, q⟩
  · cases r.failFast <;> rfl
  · rfl
  · rfl

theorem after_eq (r : Rewriter) (f : Firing) : f.after r =
    match f.result with
    | .ok (some _, q) => q
    | _ => f.plan :=
  attempt_plan r f.rule f.node { plan := f.plan }

/-- The plan after a firing depends on the plan before it only. -/
theorem attempt_after (r : Rewriter) (rule : Rule) (id : NodeId) (s : Progress) :
    (r.attempt rule id s).2.plan = after r ⟨s.plan, rule, id⟩ :=
  (attempt_plan r rule id s).trans (after_eq r ⟨s.plan, rule, id⟩).symm

theorem after_of_not_commits (h : f.commits = false) : f.after r = f.plan := by
  rw [after_eq]
  unfold commits at h
  split
  · rename_i hres
    rw [hres] at h
    cases h
  · rfl

/-- A firing that fails leaves the plan as it is. -/
theorem after_of_fails (h : f.fails) : f.after r = f.plan := by
  refine after_of_not_commits ?_
  unfold fails at h
  split at h
  · cases h
  · rename_i hres
    rw [commits, hres]

/-- A firing keeps what the plan holds, and makes it longer only by writing a new node. -/
theorem after_retains (r : Rewriter) (h : f.plan.WF) :
    f.plan.Retains (f.after r) ∧ (f.after r).WF ∧
      (f.after r).size = f.plan.size + if f.adds then 1 else 0 := by
  generalize hres : f.result = res
  cases hres ▸ f.comes_result with
  | declined ho =>
    rw [after_eq, hres]
    exact ⟨.refl _, h, by simp [adds, ho]⟩
  | added ho hw =>
    obtain ⟨hrep, -, hsize, -⟩ := h.replaceWith_replaced hw
    rw [after_eq, hres]
    exact ⟨hrep.toRetains, hrep.wf, by simp [adds, ho, commits, hres, hsize]⟩
  | redirected ho hw =>
    obtain ⟨hrep, hsize⟩ := h.replace_replaced hw
    rw [after_eq, hres]
    exact ⟨hrep.toRetains, hrep.wf, by simp [adds, ho, hsize]⟩
  | failed =>
    have hadds : f.adds = false := by
      unfold adds
      split <;> simp [commits, hres]
    rw [after_eq, hres]
    exact ⟨.refl _, h, by simp [hadds]⟩

end Firing

theorem Stats.sum_bump (name : String) (counts : List (String × Nat)) :
    ((bump name counts).map Prod.snd).sum = (counts.map Prod.snd).sum + 1 := by
  induction counts with
  | nil => rfl
  | cons c counts ih =>
    rw [bump]
    split
    · simp only [List.map_cons, List.sum_cons]
      omega
    · simp only [List.map_cons, List.sum_cons, ih, Nat.add_assoc]

namespace Rewriter

/-! ## Runs -/

/-- Rules are fired in order, each at an unreplaced node of a kind that it is a candidate for, and in
the plan that the one before it has left. -/
inductive Fired (r : Rewriter) : Plan → List Firing → Plan → Prop where
  | nil : Fired r p [] p
  | cons {f : Firing} {fs : List Firing} : f.plan.isReplaced f.node = false →
      f.plan.node f.node = .ok n → f.rule ∈ r.registry.candidates n.kind →
      Fired r (f.after r) fs q → Fired r f.plan (f :: fs) q

/-- The second progress comes from the first one by these firings, which it counts. -/
structure Leads (r : Rewriter) (s : Progress) (fs : List Firing) (s' : Progress) : Prop where
  fired : r.Fired s.plan fs s'.plan
  firings : s'.stats.firings = s.stats.firings + fs.countP Firing.commits
  ruleFirings : (s'.stats.ruleFirings.map Prod.snd).sum =
    (s.stats.ruleFirings.map Prod.snd).sum + fs.countP Firing.commits
  failures : s'.stats.failures = s.stats.failures + if r.failFast then 0 else fs.countP Firing.fails

/-- The firings of a step within a pass. If there is an answer, it tells whether one of them has
written a proposal. -/
structure Makes (r : Rewriter) (s : Progress) (fs : List Firing) (step : Step Bool) : Prop
    extends Leads r s fs step.2 where
  passes : step.2.stats.passes = s.stats.passes
  reachedFixpoint : step.2.stats.reachedFixpoint = s.stats.reachedFixpoint
  answer : ∀ b, step.1 = .ok b → b = fs.any Firing.commits

variable {r : Rewriter} {p q q' : Plan} {s s' s'' : Progress} {fs gs : List Firing}
  {id root : NodeId} {out : Except RewriteError Bool}

theorem Fired.append (h : r.Fired p fs q) (h' : r.Fired q gs q') : r.Fired p (fs ++ gs) q' := by
  induction h with
  | nil => exact h'
  | cons hid hn hrule _ ih => exact .cons hid hn hrule (ih h')

/-- Firings keep what the plan holds, and each new node that they write is one more slot. -/
theorem Fired.retains (h : r.Fired p fs q) (hp : p.WF) :
    p.Retains q ∧ q.WF ∧ q.size = p.size + fs.countP Firing.adds := by
  induction h with
  | nil => exact ⟨.refl _, hp, rfl⟩
  | @cons _ _ f fs _ _ _ _ ih =>
    obtain ⟨hkeep, hwf, hsize⟩ := f.after_retains r hp
    obtain ⟨hkeep', hwf', hsize'⟩ := ih hwf
    refine ⟨hkeep.trans hkeep', hwf', ?_⟩
    rw [hsize', hsize, List.countP_cons]
    omega

theorem Fired.plan_eq (h : r.Fired p fs q) (hfs : fs.any Firing.commits = false) : q = p := by
  induction h with
  | nil => rfl
  | cons _ _ _ _ ih =>
    rw [List.any_cons, Bool.or_eq_false_iff] at hfs
    rw [ih hfs.2, Firing.after_of_not_commits hfs.1]

theorem Leads.refl (r : Rewriter) (s : Progress) : r.Leads s [] s := ⟨.nil, rfl, rfl, by simp⟩

theorem Leads.trans (h : r.Leads s fs s') (h' : r.Leads s' gs s'') : r.Leads s (fs ++ gs) s'' where
  fired := h.fired.append h'.fired
  firings := by rw [h'.firings, h.firings, List.countP_append, Nat.add_assoc]
  ruleFirings := by rw [h'.ruleFirings, h.ruleFirings, List.countP_append, Nat.add_assoc]
  failures := by
    rw [h'.failures, h.failures, List.countP_append]
    split <;> omega

theorem Makes.none (r : Rewriter) (s : Progress) : r.Makes s [] (.ok false, s) :=
  ⟨.refl r s, rfl, rfl, fun _ h => (Except.ok.inj h).symm⟩

theorem Makes.error (r : Rewriter) (s : Progress) (e : RewriteError) : r.Makes s [] (.error e, s) :=
  ⟨.refl r s, rfl, rfl, nofun⟩

theorem Makes.trans {b : Bool} (h : r.Makes s fs (.ok b, s')) (h' : r.Makes s' gs (out, s'')) :
    r.Makes s (fs ++ gs) (out.map (b || ·), s'') where
  toLeads := h.toLeads.trans h'.toLeads
  passes := h'.passes.trans h.passes
  reachedFixpoint := h'.reachedFixpoint.trans h.reachedFixpoint
  answer := by
    intro b' hb'
    cases out with
    | error => cases hb'
    | ok more =>
      obtain rfl := Except.ok.inj hb'
      rw [List.any_append, ← h.answer b rfl, ← h'.answer more rfl]

/-- Firings do not depend on how many passes have been counted. -/
theorem Makes.leads_of_passes {step : Step Bool} {k : Nat}
    (h : r.Makes { s with stats := { s.stats with passes := k } } fs step) : r.Leads s fs step.2 :=
  ⟨h.fired, h.firings, h.ruleFirings, h.failures⟩

/-- A step that answers that nothing has changed is right. -/
theorem Makes.plan_eq (h : r.Makes s fs (.ok false, s')) : s'.plan = s.plan :=
  h.fired.plan_eq (h.answer false rfl).symm

theorem Makes.firings_eq (h : r.Makes s fs (.ok false, s')) :
    s'.stats.firings = s.stats.firings := by
  have hnone : fs.countP Firing.commits = 0 := by
    rw [List.countP_eq_zero, ← List.any_eq_false]
    exact (h.answer false rfl).symm
  rw [h.firings, hnone, Nat.add_zero]

/-- An attempt counts what comes of its firing. -/
theorem attempt_makes {rule : Rule} {n : Node} (hid : s.plan.isReplaced id = false)
    (hn : s.plan.node id = .ok n) (hrule : rule ∈ r.registry.candidates n.kind) :
    r.Makes s [⟨s.plan, rule, id⟩] (r.attempt rule id s) := by
  have hfired : r.Fired s.plan [⟨s.plan, rule, id⟩] (r.attempt rule id s).2.plan := by
    rw [Firing.attempt_after]
    exact .cons (f := ⟨s.plan, rule, id⟩) hid hn hrule .nil
  rw [Firing.attempt_eq] at hfired ⊢
  generalize Firing.mk s.plan rule id = f at hfired ⊢
  rcases hres : f.result with e | ⟨_ | c, q⟩ <;> rw [hres] at hfired
  · have hcommits : f.commits = false := by rw [Firing.commits, hres]
    have hfails : f.fails = true := by rw [Firing.fails, hres]
    cases hfast : r.failFast <;> rw [hfast] at hfired
    · exact ⟨⟨hfired, by simp [Progress.skip, Progress.note, hcommits],
        by simp [Progress.skip, Progress.note, hcommits],
        by simp [Progress.skip, Progress.note, hfails, hfast]⟩, rfl, rfl, by simp [hcommits]⟩
    · exact ⟨⟨hfired, by simp [Progress.note, hcommits], by simp [Progress.note, hcommits],
        by simp [Progress.note, hfast]⟩, rfl, rfl, nofun⟩
  · have hcommits : f.commits = false := by rw [Firing.commits, hres]
    have hfails : f.fails = false := by rw [Firing.fails, hres]
    exact ⟨⟨hfired, by simp [Progress.decline, Progress.note, hcommits],
      by simp [Progress.decline, Progress.note, hcommits],
      by simp [Progress.decline, Progress.note, hfails]⟩, rfl, rfl, by simp [hcommits]⟩
  · have hcommits : f.commits = true := by rw [Firing.commits, hres]
    have hfails : f.fails = false := by rw [Firing.fails, hres]
    exact ⟨⟨hfired, by simp [Progress.commit, Stats.record, Progress.note, hcommits],
      by simp [Progress.commit, Stats.record, Progress.note, hcommits, Stats.sum_bump],
      by simp [Progress.commit, Stats.record, Progress.note, hfails]⟩, rfl, rfl, by simp [hcommits]⟩

theorem tryRules_makes {rules : List Rule} {n : Node} (hid : s.plan.isReplaced id = false)
    (hn : s.plan.node id = .ok n) (hrules : ∀ rule ∈ rules, rule ∈ r.registry.candidates n.kind) :
    ∃ fs, r.Makes s fs (r.tryRules id rules s) := by
  induction rules generalizing s with
  | nil => exact ⟨[], .none r s⟩
  | cons rule rules ih =>
    obtain ⟨hrule, hrules⟩ := List.forall_mem_cons.mp hrules
    have hfirst := attempt_makes hid hn hrule
    rw [tryRules]
    split
    · rename_i s₁ h
      rw [h] at hfirst
      obtain ⟨gs, hrest⟩ := ih (s := s₁) (hfirst.plan_eq ▸ hid) (hfirst.plan_eq ▸ hn) hrules
      generalize r.tryRules id rules s₁ = step at hrest
      obtain ⟨out, s₂⟩ := step
      have hboth := hfirst.trans hrest
      cases out <;> exact ⟨_, hboth⟩
    · rename_i s₁ h
      exact ⟨_, h ▸ hfirst⟩
    · rename_i e s₁ h
      exact ⟨_, h ▸ hfirst⟩

theorem visit_makes (r : Rewriter) (id : NodeId) (s : Progress) :
    ∃ fs, r.Makes s fs (r.visit id s) := by
  rw [visit]
  split
  · exact ⟨[], .none r s⟩
  · rename_i hid
    split
    · rename_i n hn
      exact tryRules_makes (Bool.eq_false_iff.mpr hid) hn fun _ hrule => hrule
    · rename_i e _
      exact ⟨[], .error r s _⟩

theorem visitAll_makes (r : Rewriter) (ids : List NodeId) (s : Progress) :
    ∃ fs, r.Makes s fs (r.visitAll ids s) := by
  induction ids generalizing s with
  | nil => exact ⟨[], .none r s⟩
  | cons id ids ih =>
    obtain ⟨fs, hfirst⟩ := visit_makes r id s
    rw [visitAll]
    split
    · rename_i e s₁ h
      exact ⟨fs, h ▸ hfirst⟩
    · rename_i changed s₁ h
      rw [h] at hfirst
      obtain ⟨gs, hrest⟩ := ih s₁
      split
      · rename_i h'
        exact ⟨_, hfirst.trans (h' ▸ hrest)⟩
      · rename_i h'
        exact ⟨_, hfirst.trans (h' ▸ hrest)⟩

theorem pass_makes (r : Rewriter) (root : NodeId) (s : Progress) :
    ∃ fs, r.Makes s fs (r.pass root s) := by
  rw [pass]
  split
  · exact visitAll_makes r _ s
  · exact ⟨[], .error r s _⟩

theorem runPasses_leads (r : Rewriter) (root : NodeId) (passes : Nat) (s : Progress) :
    ∃ fs, r.Leads s fs (r.runPasses root passes s).2 := by
  induction passes generalizing s with
  | zero => exact ⟨[], .refl r s⟩
  | succ passes ih =>
    obtain ⟨fs, hpass⟩ := r.pass_makes root
      { s with stats := { s.stats with passes := s.stats.passes + 1 } }
    have hfirst := hpass.leads_of_passes
    rw [runPasses]
    split
    · rename_i s₁ h
      rw [h] at hfirst
      obtain ⟨gs, hrest⟩ := ih s₁
      exact ⟨_, hfirst.trans hrest⟩
    · rename_i s₁ h
      rw [h] at hfirst
      exact ⟨fs, hfirst.fired, hfirst.firings, hfirst.ruleFirings, hfirst.failures⟩
    · rename_i e s₁ h
      rw [h] at hfirst
      exact ⟨fs, hfirst⟩

/-- A rewriting is a run of firings, whatever it ends with. -/
theorem rewrite_leads (r : Rewriter) (p : Plan) (root : NodeId) :
    ∃ fs, r.Leads { plan := p } fs (r.rewrite p root).2 := by
  obtain ⟨fs, h⟩ := r.runPasses_leads root r.maxIterations { plan := p }
  rw [rewrite]
  split
  · rename_i s hs
    rw [hs] at h
    exact ⟨fs, h.fired, h.firings, h.ruleFirings, h.failures⟩
  · rename_i e s hs
    rw [hs] at h
    exact ⟨fs, h⟩

/-- Rules may propose any node or fail at any point, and the rewriting may end with an error: nodes,
forwards and the shapes of row types that were there stay, no cycle comes about, and there is one
more slot for each new node that has been written. A firing that fails changes nothing. -/
theorem rewrite_safe (r : Rewriter) (root : NodeId) (hp : p.Edited) :
    ∃ out s fs, r.rewrite p root = (out, s) ∧ r.Fired p fs s.plan ∧
      p.Retains s.plan ∧ (∀ a < p.size, ∃ rt rt', p.rowType a = .ok rt ∧
        s.plan.rowType a = .ok rt' ∧ rt.sameShape rt') ∧
      s.plan.Acyclic ∧ s.plan.size = p.size + fs.countP Firing.adds ∧
      s.stats.firings = fs.countP Firing.commits ∧
      s.stats.failures = (if r.failFast then 0 else fs.countP Firing.fails) ∧
      ∀ f ∈ fs, f.fails → f.after r = f.plan := by
  obtain ⟨fs, hrun⟩ := r.rewrite_leads p root
  obtain ⟨hkeep, hwf, hsize⟩ := hrun.fired.retains hp.wf
  refine ⟨_, _, fs, rfl, hrun.fired, hkeep, ?_, hwf.toAcyclic, hsize,
    hrun.firings.trans (Nat.zero_add _), hrun.failures.trans (Nat.zero_add _),
    fun f _ => Firing.after_of_fails⟩
  intro a ha
  obtain ⟨n, hn⟩ := hp.wf.exists_node ha
  have hrt : p.rowType a = .ok n.rowType := Plan.rowType_eq_ok_iff.mpr ⟨n, hn, rfl⟩
  obtain ⟨rt', hrt', hshape⟩ := hkeep.types.keepsShapes a _ hrt
  exact ⟨_, rt', hrt, hrt', hshape⟩

/-- Reads another table in place of the table `t`. -/
def relabel : Rule where
  name := "Relabel"
  pattern := .leaf (.single .scan)
  react c := do
    match ← c.node 0 with
    | .scan "t" rt => c.proposeNew (.scan "u" rt)
    | _ => return c

/-- Puts every filter on top of itself. -/
def loop : Rule where
  name := "Loop"
  pattern := .leaf (.single .filter)
  react c := do
    match ← c.node 0 with
    | .filter _ condition rt => c.proposeNew (.filter c.root condition rt)
    | _ => return c

/-- Fails at all nodes but filters. -/
def refuse : Rule where
  name := "Refuse"
  pattern := .leaf (.except [.filter])
  react _ := ⟨[], .error (.refused "never")⟩

/-- A rewriter that passes over failures, with rules that fail before those for compute nodes. -/
def meddling : Rewriter where
  registry :=
    (Registry.empty.registerEnabled [] (relabel :: loop :: refuse :: Rule.computeRules)).result
      |>.toOption.getD .empty
  maxIterations := 10
  failFast := false

theorem positives_edited : Plan.positives.Edited :=
  Plan.Edited.empty.edit (e := .add (.scan "t" [⟨"a", .int⟩, ⟨"b", .float⟩])) (by decide)
    |>.edit (e := .add (.filter 0 (.binary (.input 0) .gt (.literal (.int 0)))
      [⟨"a", .int⟩, ⟨"b", .float⟩])) (by decide)

/-- The first pass replaces both nodes and meets one failure, the second one meets two. -/
theorem exists_meddled : ∃ s, meddling.rewrite .positives 1 = (.ok 3, s) ∧ s.plan.size = 4 ∧
    s.plan.resolve 1 = 3 ∧ s.stats.failures = 3 ∧ s.stats.reachedFixpoint = true := by
  have hout : (meddling.rewrite .positives 1).1 = .ok 3 := by decide +kernel
  have hrest : (meddling.rewrite .positives 1).2.plan.size = 4 ∧
      (meddling.rewrite .positives 1).2.plan.resolve 1 = 3 ∧
      (meddling.rewrite .positives 1).2.stats.failures = 3 ∧
      (meddling.rewrite .positives 1).2.stats.reachedFixpoint = true := by decide +kernel
  generalize meddling.rewrite .positives 1 = step at hout hrest ⊢
  obtain ⟨out, s⟩ := step
  obtain rfl := hout
  exact ⟨s, rfl, hrest⟩

/-- What has been written in spite of three failures are two new nodes. -/
theorem rewrite_safe_meddling : ∃ s fs, meddling.rewrite .positives 1 = (.ok 3, s) ∧
    meddling.Fired .positives fs s.plan ∧ Plan.positives.Retains s.plan ∧ s.plan.Acyclic ∧
      s.plan.size = 4 ∧ fs.countP Firing.adds = 2 ∧ fs.countP Firing.fails = 3 := by
  obtain ⟨s, hrun, hlength, -, hfail, -⟩ := exists_meddled
  obtain ⟨out, s', fs, hrun', hfired, hkeep, -, hacyclic, hsize, -, hfails, -⟩ :=
    rewrite_safe meddling 1 positives_edited
  cases hrun.symm.trans hrun'
  rw [hlength] at hsize
  exact ⟨s, fs, hrun, hfired, hkeep, hacyclic, hlength, (Nat.add_left_cancel (n := 2) hsize).symm,
    hfails.symm.trans hfail⟩

end Rewriter
end RelPlan
