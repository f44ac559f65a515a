import RelPlan.Proofs.Rewrite.Dispatch
import RelPlan.Proofs.Rewrite.Fixpoint
import RelPlan.Proofs.Rewrite.Proposals

/-! # Rules that never get anything written

A rule may bind, fail, or propose what cannot be written. As long as nothing that it proposes gets
written, and the rewriter passes over its failures, it is idle (`Rewriter.Idle`), and a rewriting with
it runs beside the one without it: each attempt, visit and pass gives the same answer and leaves the
same plan and counts, but for the failures (`Rewriter.Mirrored`). So it does not matter whether such a
rule is registered, and where (`Rewriter.rewrite_insert`). -/

namespace RelPlan

/-- The second progress agrees with the first one in all but the failures and the records. -/
structure Progress.Mirrors (s s' : Progress) : Prop where
  plan : s'.plan = s.plan
  passes : s'.stats.passes = s.stats.passes
  firings : s'.stats.firings = s.stats.firings
  ruleFirings : s'.stats.ruleFirings = s.stats.ruleFirings
  reachedFixpoint : s'.stats.reachedFixpoint = s.stats.reachedFixpoint

theorem Progress.Mirrors.refl (s : Progress) : s.Mirrors s := ⟨rfl, rfl, rfl, rfl, rfl⟩

theorem Progress.Mirrors.trans {s s' s'' : Progress} (h : s.Mirrors s') (h' : s'.Mirrors s'') :
    s.Mirrors s'' :=
  ⟨h'.plan.trans h.plan, h'.passes.trans h.passes, h'.firings.trans h.firings,
    h'.ruleFirings.trans h.ruleFirings, h'.reachedFixpoint.trans h.reachedFixpoint⟩

/-! ## Registering among others -/

namespace Registry

/-- The registered rules determine the registry. -/
theorem Registers.unique {g g' : Registry} {rules : List Rule} (h : g.Registers rules)
    (h' : g'.Registers rules) : g = g' := by
  have hrules : g.rules = g'.rules := h.rules_eq.trans h'.rules_eq.symm
  have hcandidates : g.candidates = g'.candidates :=
    funext fun k => by rw [h.candidates_eq, h'.candidates_eq]
  cases g
  cases g'
  cases hrules
  cases hcandidates
  rfl

/-- Rules can be registered in order if their names differ and their patterns are of some use. -/
theorem exists_registers_iff {rules : List Rule} : (∃ g : Registry, g.Registers rules) ↔
    (rules.map Rule.name).Nodup ∧ ∀ rule ∈ rules, rule.pattern.validate = .ok () := by
  constructor
  · rintro ⟨g, hg⟩
    refine ⟨hg.names_nodup, ?_⟩
    induction hg with
    | empty => simp
    | register _ hg ih =>
      intro rule hrule
      rcases List.mem_append.mp hrule with hrule | hrule
      · exact ih rule hrule
      · exact List.mem_singleton.mp hrule ▸ (register_eq_ok hg).2.1
  · rintro ⟨hnames, hvalid⟩
    induction rules using List.reverseRecOn with
    | nil => exact ⟨.empty, .empty⟩
    | append_singleton rules rule ih =>
      rw [List.map_append, List.nodup_append] at hnames
      obtain ⟨hnames, -, hnew⟩ := hnames
      obtain ⟨g, hg⟩ := ih hnames fun x hx => hvalid x (List.mem_append_left _ hx)
      have hname : rule.name ∉ g.names := by
        rw [names, hg.rules_eq]
        exact fun hmem => hnew _ hmem _ (List.mem_singleton_self _) rfl
      obtain ⟨g', hg'⟩ := exists_register hname (hvalid rule (by simp))
      exact ⟨g', hg.register hg'⟩

end Registry

namespace Rewriter

/-! ## Idle rules -/

/-- Wherever the rule is fired, it declines, or fails and is passed over. -/
def Idle (r : Rewriter) (rule : Rule) : Prop :=
  ∀ p id, p.WF → Firing.Rests r ⟨p, rule, id⟩

/-- The second list has the rules of the first one in their order, and idle ones among them. -/
inductive Padded (r : Rewriter) : List Rule → List Rule → Prop where
  | nil : Padded r [] []
  | cons (rule : Rule) : Padded r rules rules' → Padded r (rule :: rules) (rule :: rules')
  | idle : r.Idle rule → Padded r rules rules' → Padded r rules (rule :: rules')

/-- Both rewriters have the same settings, and the second one has idle candidates besides those of
the first one. -/
structure Beside (r r' : Rewriter) : Prop where
  maxIterations : r'.maxIterations = r.maxIterations
  failFast : r'.failFast = r.failFast
  candidates : ∀ k, r'.Padded (r.registry.candidates k) (r'.registry.candidates k)

/-- Both steps give the same answer, and the progress of the second one mirrors that of the first. -/
structure Mirrored (step step' : Step α) : Prop where
  answer : step'.1 = step.1
  progress : step.2.Mirrors step'.2

variable {r r' : Rewriter} {p : Plan} {s s' : Progress} {rule : Rule} {rules rules' : List Rule}
  {id root : NodeId}

theorem Padded.refl (r : Rewriter) (rules : List Rule) : r.Padded rules rules := by
  induction rules with
  | nil => exact .nil
  | cons rule _ ih => exact .cons rule ih

theorem Padded.insert (h : r.Idle rule) (before after : List Rule) :
    r.Padded (before ++ after) (before ++ rule :: after) := by
  induction before with
  | nil => exact .idle h (.refl r after)
  | cons x _ ih => exact .cons x ih

theorem Padded.filter (h : r.Padded rules rules') (keep : Rule → Bool) :
    r.Padded (rules.filter keep) (rules'.filter keep) := by
  induction h with
  | nil => exact .nil
  | cons rule _ ih =>
    rw [List.filter_cons, List.filter_cons]
    split
    · exact .cons rule ih
    · exact ih
  | idle hidle _ ih =>
    rw [List.filter_cons]
    split
    · exact .idle hidle ih
    · exact ih

/-! ## Running side by side -/

/-- What an attempt does depends on the plan only, and on how failures are treated. -/
theorem attempt_mirrored (hfast : r'.failFast = r.failFast) (hs : s.Mirrors s') :
    Mirrored (r.attempt rule id s) (r'.attempt rule id s') := by
  rw [Firing.attempt_eq, Firing.attempt_eq, hs.plan, hfast]
  rcases Firing.result ⟨s.plan, rule, id⟩ with e | ⟨_ | c, q⟩
  · cases r.failFast
    · exact ⟨rfl, hs.plan, hs.passes, hs.firings, hs.ruleFirings, hs.reachedFixpoint⟩
    · exact ⟨rfl, hs.plan, hs.passes, hs.firings, hs.ruleFirings, hs.reachedFixpoint⟩
  · exact ⟨rfl, hs.plan, hs.passes, hs.firings, hs.ruleFirings, hs.reachedFixpoint⟩
  · exact ⟨rfl, rfl, hs.passes, congrArg (· + 1) hs.firings,
      congrArg (Stats.bump rule.name) hs.ruleFirings, hs.reachedFixpoint⟩

/-- Where a rule rests, an attempt leaves all as it is but the failures and the records. -/
theorem attempt_of_rests (h : Firing.Rests r ⟨s.plan, rule, id⟩) :
    ∃ s', r.attempt rule id s = (.ok false, s') ∧ s.Mirrors s' := by
  rw [← attempt_false_iff] at h
  rw [Firing.attempt_eq] at h ⊢
  generalize Firing.result ⟨s.plan, rule, id⟩ = result at h ⊢
  rcases result with e | ⟨_ | c, q⟩
  · cases hfast : r.failFast <;> rw [hfast] at h
    · exact ⟨_, rfl, rfl, rfl, rfl, rfl, rfl⟩
    · cases h
  · exact ⟨_, rfl, rfl, rfl, rfl, rfl, rfl⟩
  · cases h

theorem tryRules_mirrored (hfast : r'.failFast = r.failFast) (h : r'.Padded rules rules')
    (hp : s.plan.WF) (hs : s.Mirrors s') :
    Mirrored (r.tryRules id rules s) (r'.tryRules id rules' s') := by
  induction h generalizing s s' with
  | nil => exact ⟨rfl, hs⟩
  | cons rule _ ih =>
    have hfirst : Mirrored (r.attempt rule id s) (r'.attempt rule id s') :=
      attempt_mirrored hfast hs
    rw [tryRules, tryRules]
    generalize r'.attempt rule id s' = step' at hfirst
    cases hstep : r.attempt rule id s with
    | mk out s₁ =>
    obtain ⟨out', s₁'⟩ := step'
    rw [hstep] at hfirst
    obtain ⟨rfl, hs₁⟩ := hfirst
    rcases out' with e | _ | _
    · exact ⟨rfl, hs₁⟩
    · exact ih (attempt_plan_eq hstep ▸ hp) hs₁
    · exact ⟨rfl, hs₁⟩
  | @idle rule _ _ hidle _ ih =>
    obtain ⟨s₁, hattempt, hs₁⟩ :=
      attempt_of_rests (s := s') (hidle s'.plan id (hs.plan.symm ▸ hp))
    simp only [tryRules, hattempt]
    exact ih hp (hs.trans hs₁)

theorem visit_mirrored (h : r.Beside r') (hp : s.plan.WF) (hs : s.Mirrors s') :
    Mirrored (r.visit id s) (r'.visit id s') := by
  rw [visit, visit, hs.plan]
  split
  · exact ⟨rfl, hs⟩
  · split
    · exact tryRules_mirrored h.failFast (h.candidates _) hp hs
    · exact ⟨rfl, hs⟩

theorem visit_wf (r : Rewriter) (id : NodeId) (hp : s.plan.WF) : (r.visit id s).2.plan.WF := by
  obtain ⟨fs, hmakes⟩ := r.visit_makes id s
  exact (hmakes.fired.retains hp).2.1

theorem visitAll_mirrored {ids : List NodeId} (h : r.Beside r') (hp : s.plan.WF)
    (hs : s.Mirrors s') : Mirrored (r.visitAll ids s) (r'.visitAll ids s') := by
  induction ids generalizing s s' with
  | nil => exact ⟨rfl, hs⟩
  | cons id ids ih =>
    obtain ⟨hanswer, hs₁⟩ : Mirrored (r.visit id s) (r'.visit id s') := visit_mirrored h hp hs
    have hrest := ih (r.visit_wf id hp) hs₁
    rw [visitAll, visitAll]
    generalize r.visit id s = step, r'.visit id s' = step' at hanswer hs₁ hrest ⊢
    obtain ⟨out, s₁⟩ := step
    obtain ⟨out', s₁'⟩ := step'
    obtain rfl : out' = out := hanswer
    obtain ⟨hanswer, hs₂⟩ := hrest
    cases out' with
    | error e => exact ⟨rfl, hs₁⟩
    | ok changed =>
      dsimp only at hanswer hs₂ ⊢
      generalize r.visitAll ids s₁ = step, r'.visitAll ids s₁' = step' at hanswer hs₂ ⊢
      obtain ⟨out, s₂⟩ := step
      obtain ⟨out', s₂'⟩ := step'
      obtain rfl : out' = out := hanswer
      cases out' <;> exact ⟨rfl, hs₂⟩

theorem pass_mirrored (h : r.Beside r') (hp : s.plan.WF) (hs : s.Mirrors s') :
    Mirrored (r.pass root s) (r'.pass root s') := by
  rw [pass, pass, hs.plan]
  split
  · exact visitAll_mirrored h hp hs
  · exact ⟨rfl, hs⟩

theorem pass_wf (r : Rewriter) (root : NodeId) (hp : s.plan.WF) : (r.pass root s).2.plan.WF := by
  obtain ⟨fs, hmakes⟩ := r.pass_makes root s
  exact (hmakes.fired.retains hp).2.1

theorem runPasses_mirrored {passes : Nat} (h : r.Beside r') (hp : s.plan.WF) (hs : s.Mirrors s') :
    Mirrored (r.runPasses root passes s) (r'.runPasses root passes s') := by
  induction passes generalizing s s' with
  | zero => exact ⟨rfl, hs⟩
  | succ passes ih =>
    rw [runPasses, runPasses]
    generalize hs₀ : { s with stats := { s.stats with passes := s.stats.passes + 1 } } = s₀
    generalize hs₀' : { s' with stats := { s'.stats with passes := s'.stats.passes + 1 } } = s₀'
    have hmirrors : s₀.Mirrors s₀' := by
      subst hs₀ hs₀'
      exact ⟨hs.plan, congrArg (· + 1) hs.passes, hs.firings, hs.ruleFirings, hs.reachedFixpoint⟩
    have hp₀ : s₀.plan.WF := hs₀ ▸ hp
    obtain ⟨hanswer, hs₁⟩ : Mirrored (r.pass root s₀) (r'.pass root s₀') :=
      pass_mirrored h hp₀ hmirrors
    have hrest := ih (r.pass_wf root hp₀) hs₁
    generalize r.pass root s₀ = step, r'.pass root s₀' = step' at hanswer hs₁ hrest ⊢
    obtain ⟨out, s₁⟩ := step
    obtain ⟨out', s₁'⟩ := step'
    obtain rfl : out' = out := hanswer
    rcases out' with e | _ | _
    · exact ⟨rfl, hs₁⟩
    · exact ⟨rfl, hs₁.plan, hs₁.passes, hs₁.firings, hs₁.ruleFirings, rfl⟩
    · exact hrest

/-- Idle candidates change nothing about a rewriting but the failures. -/
theorem Beside.rewrite (h : r.Beside r') (hp : p.WF) (root : NodeId) :
    Mirrored (r.rewrite p root) (r'.rewrite p root) := by
  obtain ⟨hanswer, hs⟩ : Mirrored (r.runPasses root r.maxIterations { plan := p })
      (r'.runPasses root r.maxIterations { plan := p }) := runPasses_mirrored h hp (.refl _)
  rw [Rewriter.rewrite, Rewriter.rewrite, h.maxIterations]
  generalize r.runPasses root r.maxIterations { plan := p } = step,
    r'.runPasses root r.maxIterations { plan := p } = step' at hanswer hs ⊢
  obtain ⟨out, s⟩ := step
  obtain ⟨out', s'⟩ := step'
  obtain rfl : out' = out := hanswer
  have hplan : s'.plan = s.plan := hs.plan
  cases out' with
  | error e => exact ⟨rfl, hs⟩
  | ok =>
    refine ⟨?_, hs.plan, hs.passes, hs.firings, hs.ruleFirings, hs.reachedFixpoint⟩
    dsimp only
    rw [hplan]

theorem Beside.of_insert {g g' : Registry} {before after : List Rule} {limit : Nat}
    {failFast : Bool} (hg : g.Registers (before ++ after))
    (hg' : g'.Registers (before ++ rule :: after)) (h : Idle ⟨g', limit, failFast⟩ rule) :
    Beside ⟨g, limit, failFast⟩ ⟨g', limit, failFast⟩ where
  maxIterations := rfl
  failFast := rfl
  candidates k := by
    rw [hg.candidates_eq, hg'.candidates_eq]
    exact (Padded.insert h before after).filter _

/-- A rule of a new name may be put anywhere among the others. If it only ever declines, fails or
proposes what cannot be written, then a rewriter that passes over failures gives the same answer,
leaves the same plan and counts the same passes and firings with it as without it. If it only ever
declines, the same is true of a rewriter that ends with the first failure. -/
theorem rewrite_insert {g : Registry} {before after : List Rule} {extra : Rule}
    (hg : g.Registers (before ++ after)) (hname : extra.name ∉ g.names)
    (hvalid : extra.pattern.validate = .ok ()) :
    ∃ g' : Registry, g'.Registers (before ++ extra :: after) ∧
      ∀ (p : Plan) (root : NodeId) (limit : Nat), p.WF →
        ((∀ q id, q.WF → Firing.outcome ⟨q, extra, id⟩ = .ok .declined ∨
            Firing.fails ⟨q, extra, id⟩) →
          Mirrored (rewrite ⟨g, limit, false⟩ p root) (rewrite ⟨g', limit, false⟩ p root)) ∧
        ((∀ q id, q.WF → Firing.outcome ⟨q, extra, id⟩ = .ok .declined) →
          Mirrored (rewrite ⟨g, limit, true⟩ p root) (rewrite ⟨g', limit, true⟩ p root)) := by
  obtain ⟨hnames, hvalids⟩ := Registry.exists_registers_iff.mp ⟨g, hg⟩
  have hfresh : extra.name ∉ (before ++ after).map Rule.name := by
    rwa [← hg.rules_eq]
  have hnames' : ((before ++ extra :: after).map Rule.name).Nodup := by
    rw [List.map_append] at hnames hfresh
    rw [List.map_append, List.map_cons, List.nodup_middle]
    exact List.nodup_cons.mpr ⟨hfresh, hnames⟩
  have hvalids' : ∀ rule ∈ before ++ extra :: after, rule.pattern.validate = .ok () := by
    intro rule hrule
    rcases List.mem_cons.mp (List.perm_middle.mem_iff.mp hrule) with rfl | hrule
    · exact hvalid
    · exact hvalids rule hrule
  obtain ⟨g', hg'⟩ := Registry.exists_registers_iff.mpr ⟨hnames', hvalids'⟩
  refine ⟨g', hg', fun p root limit hp => ⟨fun hidle => ?_, fun hidle => ?_⟩⟩
  · exact (Beside.of_insert hg hg' fun q id hq => (hidle q id hq).imp_right (.intro rfl)).rewrite hp _
  · exact (Beside.of_insert hg hg' fun q id hq => .inl (hidle q id hq)).rewrite hp _

/-- The rewriter that passes over failures, without the rule that puts filters on themselves. -/
def sober : Rewriter where
  registry := (Registry.empty.registerEnabled [] (relabel :: refuse :: Rule.computeRules)).result
    |>.toOption.getD .empty
  maxIterations := 10
  failFast := false

theorem sober_registers : sober.registry.Registers (relabel :: refuse :: Rule.computeRules) := by
  dsimp only [sober]
  apply Registry.registers_getD
  rfl

/-- A filter on top of itself may be proposed, but not written. -/
theorem loop_rests {q : Plan} (id : NodeId) (hq : q.WF) :
    Firing.outcome ⟨q, loop, id⟩ = .ok .declined ∨ Firing.fails ⟨q, loop, id⟩ := by
  rw [Firing.fails, Firing.result, Firing.outcome, Rule.fire]
  cases loop.pattern.bind q id with
  | none => exact .inl rfl
  | some m =>
    simp only [Rule.fireMatched, loop, Traced.result_bind, Traced.result_lift]
    cases Call.node ⟨q, "Loop", m, none⟩ 0 with
    | error e => exact .inr rfl
    | ok n =>
      cases n with
      | filter i condition rt =>
        right
        cases hc : Call.propose ⟨q, "Loop", m, none⟩ (.new (.filter m.root condition rt)) with
        | error e =>
          rw [Call.propose] at hc
          simp [Call.root, hc]
        | ok c =>
          obtain ⟨-, hfits, rfl⟩ := Call.propose_eq_ok_iff.mp hc
          have hcommit := hfits.commit_of_loops hq ⟨m.root, List.mem_cons_self, .refl⟩
          rw [Call.propose] at hc
          simp only [Call.root] at hcommit
          simp [Call.root, Call.outcome, hc, hcommit]
      | _ => exact .inl rfl

theorem watch_declines (q : Plan) (id : NodeId) :
    Firing.outcome ⟨q, Registry.watch, id⟩ = .ok .declined := by
  rw [Firing.outcome, Rule.fire]
  split <;> rfl

/-- One of the three failures that the meddling rewriter passes over is that of the rule for filters.
The other rewriter ends with the first failure, and a rule that declines does not make for any. -/
theorem rewrite_insert_loop :
    Mirrored (sober.rewrite .positives 1) (meddling.rewrite .positives 1) ∧
    (sober.rewrite .positives 1).2.stats.failures = 2 ∧
    (meddling.rewrite .positives 1).2.stats.failures = 3 ∧
    ∃ g : Registry, g.Registers (Registry.watch :: Rule.computeRules) ∧
      Mirrored (default.rewrite .positives 1) (rewrite ⟨g, 100, true⟩ .positives 1) := by
  have hwf := positives_edited.wf
  have hsober : sober.registry.Registers ([relabel] ++ refuse :: Rule.computeRules) :=
    sober_registers
  obtain ⟨g, hg, hruns⟩ := rewrite_insert hsober (show loop.name ∉ _ by decide) rfl
  obtain rfl : meddling.registry = g := meddling_registers.unique hg
  have hdefault : Registry.default.Registers ([] ++ Rule.computeRules) := Registry.default_registers
  obtain ⟨g', hg', hruns'⟩ := rewrite_insert hdefault (show Registry.watch.name ∉ _ by decide) rfl
  exact ⟨(hruns .positives 1 10 hwf).1 fun _ id => loop_rests id, by decide +kernel,
    by decide +kernel, g', hg', (hruns' .positives 1 100 hwf).2 fun q id _ => watch_declines q id⟩

end Rewriter
end RelPlan
