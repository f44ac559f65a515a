import RelPlan.Proofs.Rewrite.Firing
import RelPlan.Rewrite.Rewriter

/-! # Runs of the rewriter

With rules for compute nodes only, a run on a built plan never fails. A visit changes the plan by one
rewriting step or leaves it as it is where no rule applies (`Rewriter.Visited`); a pass is a sequence
of visits (`Rewriter.Swept`), and a run a sequence of passes (`Rewriter.Ran`). -/

namespace RelPlan

/-! ## Registries -/

/-- The registry comes from the empty one by registering these rules in order. -/
inductive Registry.Registers : Registry → List Rule → Prop where
  | empty : Registers empty []
  | register {g g' : Registry} {rules : List Rule} {rule : Rule} : Registers g rules →
      g.register rule = .ok g' → Registers g' (rules ++ [rule])

/-- Registering a rule of a new name and of some use appends it. -/
theorem Registry.register_eq_ok {g g' : Registry} {rule : Rule} (h : g.register rule = .ok g') :
    rule.name ∉ g.names ∧ rule.pattern.validate = .ok () ∧ g' = ⟨g.rules ++ [rule], fun kind =>
      if kind ∈ rule.pattern.rootKinds then g.candidates kind ++ [rule] else g.candidates kind⟩ := by
  rw [register] at h
  split at h
  · cases h
  · rename_i hname
    obtain ⟨_, hvalid, h⟩ := Except.bind_eq_ok_iff.mp h
    refine ⟨?_, Except.mapError_eq_ok_iff.mp hvalid, (Except.ok.inj h).symm⟩
    simpa [find?, names] using hname

theorem Registry.Registers.rules_eq {g : Registry} {rules : List Rule} (h : g.Registers rules) :
    g.rules = rules := by
  induction h with
  | empty => rfl
  | @register g g' rules rule _ hg ih =>
    obtain ⟨-, -, rfl⟩ := register_eq_ok hg
    rw [ih]

theorem Registry.Registers.candidates_eq {g : Registry} {rules : List Rule}
    (h : g.Registers rules) (k : NodeKind) :
    g.candidates k = rules.filter (k ∈ ·.pattern.rootKinds) := by
  induction h with
  | empty => rfl
  | @register g g' rules rule _ hg ih =>
    obtain ⟨-, -, rfl⟩ := register_eq_ok hg
    rw [List.filter_append]
    by_cases hk : k ∈ rule.pattern.rootKinds <;> simp [hk, ih]

/-- No registered rule has a pattern for all nodes. -/
theorem Registry.Registers.test_ne_any {g : Registry} {rules : List Rule} {rule : Rule}
    (h : g.Registers rules) (hrule : rule ∈ rules) : rule.pattern.test ≠ .any := by
  induction h with
  | empty => cases hrule
  | @register g g' rules rule' _ hg ih =>
    rcases List.mem_append.mp hrule with hrule | hrule
    · exact ih hrule
    obtain rfl := List.mem_singleton.mp hrule
    have hvalid := (register_eq_ok hg).2.1
    intro hany
    simp [Pattern.validate, Pattern.rootKinds, hany] at hvalid

theorem Registry.registerEnabled_registers {g g' : Registry} {disabled : List String}
    {known rules : List Rule} (hg : g.Registers known)
    (h : (g.registerEnabled disabled rules).result = .ok g') :
    g'.Registers (known ++ rules.filter (·.name ∉ disabled)) := by
  induction rules generalizing g known with
  | nil =>
    obtain rfl := Except.ok.inj h
    simpa using hg
  | cons rule rules ih =>
    rw [registerEnabled] at h
    split at h
    · rename_i hd
      simpa [hd] using ih hg h
    · rename_i hd
      obtain ⟨g₁, hg₁, h⟩ := Except.bind_eq_ok_iff.mp ((Traced.result_bind _ _).symm.trans h)
      simpa [hd] using ih (hg.register hg₁) h

/-- The built-in registry registers the rules for compute nodes that are not disabled. -/
theorem Registry.builtin_registers {g : Registry} {disabled : List String}
    (h : (builtin disabled).result = .ok g) :
    g.Registers (Rule.computeRules.filter (·.name ∉ disabled)) :=
  registerEnabled_registers .empty h

/-- A registry in which rules have been registered without an error. -/
theorem Registry.registers_getD {rules : List Rule}
    (h : (empty.registerEnabled [] rules).result.toOption.isSome) :
    ((empty.registerEnabled [] rules).result.toOption.getD empty).Registers rules := by
  cases hg : (empty.registerEnabled [] rules).result with
  | error e =>
    rw [hg] at h
    cases h
  | ok g =>
    show g.Registers rules
    simpa using registerEnabled_registers .empty hg

theorem Registry.default_registers : default.Registers Rule.computeRules :=
  registers_getD (by rfl)

/-! ## Rules that never fail -/

/-- The rule does not decline at the node. -/
def Rule.Applies (rule : Rule) (p : Plan) (o : NodeId) : Prop :=
  (rule.fire p o).result ≠ .ok .declined

theorem Rule.Reacts.applies_iff {rule : Rule} {At : Plan → NodeId → Prop} {p : Plan} {o : NodeId}
    (hrule : rule.Reacts At) (h : p.Good) (hlt : o < p.size) (hf : p.forward? o = none) :
    rule.Applies p o ↔ At p o := by
  rcases hrule p o h hlt hf with ⟨hat, r, hr, _⟩ | ⟨hat, hr⟩ <;> simp [Applies, hr, hat]

theorem Rule.exists_reacts {rule : Rule} (h : rule ∈ computeRules) : ∃ At, rule.Reacts At := by
  simp only [computeRules, List.mem_cons, List.not_mem_nil, or_false] at h
  rcases h with rfl | rfl | rfl | rfl | rfl | rfl
  · exact ⟨_, filterToCompute_reacts⟩
  · exact ⟨_, projectToCompute_reacts⟩
  · exact ⟨_, mergeFilter_reacts⟩
  · exact ⟨_, mergeProject_reacts⟩
  · exact ⟨_, mergeCompute_reacts⟩
  · exact ⟨_, removeCompute_reacts⟩

/-- A rule for compute nodes that applies proposes a rewriting step. -/
theorem Rule.exists_rewrites {rule : Rule} {p : Plan} {o : NodeId} (hrule : rule ∈ computeRules)
    (h : p.Good) (hlt : o < p.size) (hf : p.forward? o = none) :
    (∃ r, (rule.fire p o).result = .ok (.replaced o r) ∧ Rewrites p o r) ∨
      ¬ rule.Applies p o ∧ (rule.fire p o).result = .ok .declined := by
  obtain ⟨At, hreacts⟩ := exists_reacts hrule
  rcases hreacts p o h hlt hf with ⟨-, hr⟩ | ⟨hat, hr⟩
  · exact .inl hr
  · exact .inr ⟨mt (hreacts.applies_iff h hlt hf).mp hat, hr⟩

theorem Rule.not_applies_of_kind {rule : Rule} {p : Plan} {o : NodeId} {n : Node} (h : p.WF)
    (hn : p.node o = .ok n) (hrule : rule ∈ computeRules)
    (hkind : n.kind ∉ rule.pattern.rootKinds) : ¬ rule.Applies p o := by
  have hany : rule.pattern.test ≠ .any := by
    simp only [computeRules, List.mem_cons, List.not_mem_nil, or_false] at hrule
    rcases hrule with rfl | rfl | rfl | rfl | rfl | rfl <;> exact nofun
  simp [Applies, fire, Pattern.bind_eq_none h hn hany hkind]

namespace Rewriter

/-! ## What a run does to the plan -/

/-- A visit to a node: a rewriting step there, or nothing where none of the rules applies. -/
inductive Visited (rules : List Rule) (p : Plan) (id : NodeId) : Bool → Plan → Prop where
  | changed {r : Replacement} : p.forward? id = none → Rewrites p id r →
      Visited rules p id true (r.written p id)
  | unchanged : (p.forward? id = none → ∀ rule ∈ rules, ¬ rule.Applies p id) →
      Visited rules p id false p

/-- Visits to nodes in order, and whether one of them has changed the plan. -/
inductive Swept (rules : List Rule) : List NodeId → Plan → Bool → Plan → Prop where
  | nil : Swept rules [] p false p
  | cons {id : NodeId} {ids : List NodeId} : Visited rules p id b q → Swept rules ids q b' q' →
      Swept rules (id :: ids) p (b || b') q'

/-- Passes below a root: how many there were, and whether the last one changed nothing. -/
inductive Ran (rules : List Rule) (root : NodeId) :
    (limit : Nat) → Plan → Nat → Bool → Plan → Prop where
  | limit : Ran rules root 0 p 0 false p
  | fixpoint : p.reachable root = .ok ids → Swept rules ids p false q →
      Ran rules root (k + 1) p 1 true q
  | pass : p.reachable root = .ok ids → Swept rules ids p true q →
      Ran rules root k q passes fixpoint q' → Ran rules root (k + 1) p (passes + 1) fixpoint q'

/-- The second progress comes from the first one by the given plan, firings and records. -/
structure Advanced (s s' : Progress) : Prop where
  failures : s'.stats.failures = s.stats.failures
  passes : s'.stats.passes = s.stats.passes
  reachedFixpoint : s'.stats.reachedFixpoint = s.stats.reachedFixpoint

variable {r : Rewriter} {rules : List Rule} {s : Progress} {id : NodeId}

theorem Advanced.refl (s : Progress) : Advanced s s := ⟨rfl, rfl, rfl⟩

theorem Advanced.trans {s s' s'' : Progress} (h : Advanced s s') (h' : Advanced s' s'') :
    Advanced s s'' :=
  ⟨h'.failures.trans h.failures, h'.passes.trans h.passes,
    h'.reachedFixpoint.trans h.reachedFixpoint⟩

theorem attempt_of_declined {rule : Rule} (h : (rule.fire s.plan id).result = .ok .declined) :
    r.attempt rule id s =
      (.ok false, (s.note (rule.fire s.plan id).log).decline rule.name id) := by
  simp [attempt, Progress.note, h, Outcome.commit]

theorem attempt_of_replaced {rule : Rule} {repl : Replacement}
    (h : (rule.fire s.plan id).result = .ok (.replaced id repl))
    (hc : (Outcome.replaced id repl).commit s.plan = .ok (some c, q)) :
    r.attempt rule id s =
      (.ok true, (s.note (rule.fire s.plan id).log).commit q rule.name c) := by
  simp [attempt, Progress.note, h, hc]

/-- Trying rules ends with the first one that applies. -/
theorem tryRules_spec (h : s.plan.Good) (hlt : id < s.plan.size) (hf : s.plan.forward? id = none)
    (hrules : ∀ rule ∈ rules, rule ∈ Rule.computeRules) :
    ∃ b s', r.tryRules id rules s = (.ok b, s') ∧ Advanced s s' ∧
      (b = true ∧ (∃ repl, Rewrites s.plan id repl ∧ s'.plan = repl.written s.plan id) ∨
        b = false ∧ s'.plan = s.plan ∧ ∀ rule ∈ rules, ¬ rule.Applies s.plan id) := by
  induction rules generalizing s with
  | nil => exact ⟨false, s, rfl, .refl s, .inr ⟨rfl, rfl, by simp⟩⟩
  | cons rule rules ih =>
    obtain ⟨hrule, hrules⟩ := List.forall_mem_cons.mp hrules
    rcases Rule.exists_rewrites hrule h hlt hf with ⟨repl, hr, hrew⟩ | ⟨hno, hr⟩
    · have hattempt := attempt_of_replaced (r := r) hr (hrew.commit_eq h hf)
      generalize hs : (s.note (rule.fire s.plan id).log).commit _ rule.name _ = s₁ at hattempt
      exact ⟨true, s₁, by simp only [tryRules, hattempt], hs ▸ ⟨rfl, rfl, rfl⟩,
        .inl ⟨rfl, repl, hrew, hs ▸ rfl⟩⟩
    · have hattempt := attempt_of_declined (r := r) hr
      generalize hs : (s.note (rule.fire s.plan id).log).decline rule.name id = s₁ at hattempt
      have hplan : s₁.plan = s.plan := hs ▸ rfl
      have hadv : Advanced s s₁ := hs ▸ ⟨rfl, rfl, rfl⟩
      obtain ⟨b, s', htry, hadv', hcases⟩ := ih (s := s₁) (hplan ▸ h) (hplan ▸ hlt)
        (hplan ▸ hf) hrules
      rw [hplan] at hcases
      refine ⟨b, s', by simp only [tryRules, hattempt, htry], hadv.trans hadv', ?_⟩
      exact hcases.imp_right fun ⟨hb, hp, hall⟩ => ⟨hb, hp, List.forall_mem_cons.mpr ⟨hno, hall⟩⟩

theorem visit_spec (h : s.plan.Good) (hlt : id < s.plan.size) (hg : r.registry.Registers rules)
    (hrules : ∀ rule ∈ rules, rule ∈ Rule.computeRules) :
    ∃ b s', r.visit id s = (.ok b, s') ∧ Advanced s s' ∧ Visited rules s.plan id b s'.plan := by
  rw [visit]
  split
  · rename_i hrep
    refine ⟨false, s, rfl, .refl s, .unchanged ?_⟩
    intro hf
    rw [Plan.isReplaced, hf] at hrep
    cases hrep
  · rename_i hrep
    have hf := Plan.isReplaced_eq_false_iff.mp (Bool.eq_false_iff.mpr hrep)
    obtain ⟨n, hn⟩ := h.wf.exists_node hlt
    have hcand : ∀ rule ∈ r.registry.candidates n.kind, rule ∈ Rule.computeRules := by
      rw [hg.candidates_eq]
      exact fun rule hrule => hrules rule (List.mem_filter.mp hrule).1
    obtain ⟨b, s', htry, hadv, ⟨rfl, repl, hrew, hp⟩ | ⟨rfl, hp, hall⟩⟩ :=
      tryRules_spec (r := r) h hlt hf hcand
    · exact ⟨true, s', by simp only [hn, htry], hadv, hp ▸ .changed hf hrew⟩
    · refine ⟨false, s', by simp only [hn, htry], hadv, ?_⟩
      rw [hp]
      refine .unchanged ?_
      intro _ rule hrule
      by_cases hkind : n.kind ∈ rule.pattern.rootKinds
      · apply hall rule
        rw [hg.candidates_eq]
        exact List.mem_filter.mpr ⟨hrule, decide_eq_true hkind⟩
      · exact Rule.not_applies_of_kind h.wf hn (hrules rule hrule) hkind

theorem Visited.good_and_size {p q : Plan} (h : Visited rules p id b q) (hp : p.Good) :
    q.Good ∧ p.size ≤ q.size := by
  cases h with
  | changed hf hrew => exact ⟨(hrew.good hp hf).1, (hrew.redirects hp hf).size_le⟩
  | unchanged => exact ⟨hp, Nat.le_refl _⟩

theorem visitAll_spec {ids : List NodeId} (h : s.plan.Good) (hids : ∀ id ∈ ids, id < s.plan.size)
    (hg : r.registry.Registers rules) (hrules : ∀ rule ∈ rules, rule ∈ Rule.computeRules) :
    ∃ b s', r.visitAll ids s = (.ok b, s') ∧ Advanced s s' ∧ Swept rules ids s.plan b s'.plan := by
  induction ids generalizing s with
  | nil => exact ⟨false, s, rfl, .refl s, .nil⟩
  | cons id ids ih =>
    obtain ⟨hid, hids⟩ := List.forall_mem_cons.mp hids
    obtain ⟨b, s₁, hv, hadv, hvis⟩ := visit_spec (r := r) h hid hg hrules
    obtain ⟨hgood, hsize⟩ := hvis.good_and_size h
    obtain ⟨b', s₂, hvs, hadv', hswept⟩ :=
      ih hgood fun i hi => Nat.lt_of_lt_of_le (hids i hi) hsize
    exact ⟨b || b', s₂, by simp only [visitAll, hv, hvs], hadv.trans hadv', .cons hvis hswept⟩

theorem Swept.good_and_size {p q : Plan} {ids : List NodeId} (h : Swept rules ids p b q)
    (hp : p.Good) : q.Good ∧ p.size ≤ q.size := by
  induction h with
  | nil => exact ⟨hp, Nat.le_refl _⟩
  | cons hv _ ih =>
    obtain ⟨hgood, hsize⟩ := hv.good_and_size hp
    obtain ⟨hgood', hsize'⟩ := ih hgood
    exact ⟨hgood', Nat.le_trans hsize hsize'⟩

theorem Ran.good_and_size {p q : Plan} {root : NodeId} {limit passes : Nat} {fixpoint : Bool}
    (h : Ran rules root limit p passes fixpoint q) (hp : p.Good) : q.Good ∧ p.size ≤ q.size := by
  induction h with
  | limit => exact ⟨hp, Nat.le_refl _⟩
  | fixpoint _ hs => exact hs.good_and_size hp
  | pass _ hs _ ih =>
    obtain ⟨hgood, hsize⟩ := hs.good_and_size hp
    obtain ⟨hgood', hsize'⟩ := ih hgood
    exact ⟨hgood', Nat.le_trans hsize hsize'⟩

/-- A run never fails. -/
theorem runPasses_spec {root : NodeId} {limit : Nat} (h : s.plan.Good) (hroot : root < s.plan.size)
    (hg : r.registry.Registers rules) (hrules : ∀ rule ∈ rules, rule ∈ Rule.computeRules) :
    ∃ s' passes fixpoint, r.runPasses root limit s = (.ok (), s') ∧
      Ran rules root limit s.plan passes fixpoint s'.plan ∧
      s'.stats.failures = s.stats.failures ∧ s'.stats.passes = s.stats.passes + passes ∧
      (fixpoint = true → s'.stats.reachedFixpoint = true) := by
  induction limit generalizing s with
  | zero => exact ⟨s, 0, false, rfl, .limit, rfl, rfl, by simp⟩
  | succ k ih =>
    obtain ⟨ids, hids, -, hmem⟩ := h.wf.exists_reachable hroot
    have hlt : ∀ id ∈ ids, id < s.plan.size := fun id hid =>
      h.wf.lt_size_of_child (h.wf.resolve_lt hroot) ((hmem id).mp hid)
    generalize hs : { s with stats := { s.stats with passes := s.stats.passes + 1 } } = s₁
    have hplan : s₁.plan = s.plan := hs ▸ rfl
    have hfail : s₁.stats.failures = s.stats.failures := hs ▸ rfl
    have hpass : s₁.stats.passes = s.stats.passes + 1 := hs ▸ rfl
    obtain ⟨b, s₂, hv, hadv, hswept⟩ :=
      visitAll_spec (r := r) (s := s₁) (hplan ▸ h) (hplan ▸ hlt) hg hrules
    rw [hplan] at hswept
    have hrun : r.pass root s₁ = (.ok b, s₂) := by simp only [pass, hplan, hids, hv]
    cases b with
    | false =>
      refine ⟨{ s₂ with stats := { s₂.stats with reachedFixpoint := true } }, 1, true, ?_,
        .fixpoint hids hswept, hadv.failures.trans hfail, hadv.passes.trans hpass, fun _ => rfl⟩
      simp only [runPasses, hs, hrun]
    | true =>
      obtain ⟨hgood, hsize⟩ := hswept.good_and_size h
      obtain ⟨s₃, passes, fixpoint, hrest, hran, hfail', hpass', hfix⟩ :=
        ih hgood (Nat.lt_of_lt_of_le hroot hsize)
      refine ⟨s₃, passes + 1, fixpoint, ?_, .pass hids hswept hran,
        hfail'.trans (hadv.failures.trans hfail), ?_, hfix⟩
      · simp only [runPasses, hs, hrun, hrest]
      · rw [hpass', hadv.passes, hpass]
        omega

/-- A run of the rewriter gives the id that stands for the root in the plan it leaves. -/
theorem rewrite_spec {p : Plan} {root : NodeId} (h : p.Good) (hroot : root < p.size)
    (hg : r.registry.Registers rules) (hrules : ∀ rule ∈ rules, rule ∈ Rule.computeRules) :
    ∃ s passes fixpoint, r.rewrite p root = (.ok (s.plan.resolve root), s) ∧
      Ran rules root r.maxIterations p passes fixpoint s.plan ∧
      s.stats.failures = 0 ∧ s.stats.passes = passes ∧
      (fixpoint = true → s.stats.reachedFixpoint = true) := by
  obtain ⟨s, passes, fixpoint, hrun, hran, hfail, hpass, hfix⟩ :=
    runPasses_spec (r := r) (s := { plan := p }) h hroot hg hrules
  refine ⟨s.note (r.summary s.stats), passes, fixpoint, ?_, hran, hfail, ?_, hfix⟩
  · simp only [rewrite, hrun]
    rfl
  · exact hpass.trans (Nat.zero_add passes)

end Rewriter
end RelPlan
