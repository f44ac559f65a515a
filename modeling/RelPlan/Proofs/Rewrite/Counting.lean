import RelPlan.Proofs.Plan.Forwarding
import RelPlan.Proofs.Rewrite.Safety

/-! # What a rewriting counts

A rewriting counts the proposals that it writes, and goes on with another pass as long as a pass
writes any. Writing one makes for one more replaced slot, unless it proposes the very node that
already stands for the root and so leaves the plan as it is (`Firing.redirects`). But for such
proposals the count is the number of slots that have been replaced, and each pass before the last
one has changed the plan (`Rewriter.rewrite_counts`). -/

namespace RelPlan

theorem Plan.Retains.replacedSlots_subset {p q : Plan} (h : p.Retains q) :
    p.replacedSlots ⊆ q.replacedSlots := by
  intro a ha
  rw [mem_replacedSlots, isReplaced, Option.isSome_iff_exists] at ha ⊢
  obtain ⟨b, hb⟩ := ha
  exact ⟨b, h.forward a b hb⟩

/-! ## Redirecting firings -/

namespace Firing

/-- Whether a proposal is written other than the node that stands for the root already. -/
def redirects (f : Firing) : Bool :=
  match f.outcome with
  | .ok (.replaced root (.existing id)) => f.commits && f.plan.resolve root != f.plan.resolve id
  | _ => f.commits

variable {f : Firing} {r : Rewriter}

theorem commits_of_redirects (h : f.redirects) : f.commits := by
  unfold redirects at h
  split at h
  · exact (Bool.and_eq_true_iff.mp h).1
  · exact h

/-- As many firings redirect as write a proposal only if they are the same ones. -/
theorem countP_commits_eq_iff {fs : List Firing} :
    fs.countP commits = fs.countP redirects ↔ ∀ f ∈ fs, f.commits → f.redirects := by
  have hred : fs.countP redirects = (fs.filter commits).countP redirects := by
    rw [List.countP_filter]
    refine List.countP_congr fun f _ => ?_
    rw [Bool.and_eq_true_iff]
    exact ⟨fun h => ⟨h, commits_of_redirects h⟩, And.left⟩
  rw [hred, List.countP_eq_length_filter, eq_comm, List.countP_eq_length]
  simp only [List.mem_filter, and_imp]

/-- A firing redirects one slot more, or leaves the plan as it is. -/
theorem after_cases (r : Rewriter) (h : f.plan.WF) :
    f.redirects = true ∧ (f.after r).replacedSlots.card = f.plan.replacedSlots.card + 1 ∨
      f.redirects = false ∧ f.after r = f.plan := by
  cases hcommits : f.commits with
  | false =>
    refine .inr ⟨?_, after_of_not_commits hcommits⟩
    exact Bool.eq_false_iff.mpr fun hred => by
      rw [commits_of_redirects hred] at hcommits
      cases hcommits
  | true =>
    generalize hres : f.result = res
    have hafter := f.after_eq (r := r)
    rw [hres] at hafter
    cases hres ▸ f.comes_result with
    | declined | failed => simp [commits, hres] at hcommits
    | @added root n _ _ ho hw =>
      obtain ⟨hroot, -, -, rfl⟩ := h.replaceWith_eq_ok_iff.mp hw
      have hlt : f.plan.resolve root < (f.plan.add n).2.size := by
        rw [Plan.size_add]
        exact Nat.lt_succ_of_lt (h.resolve_lt hroot.lt_size)
      have hf : (f.plan.add n).2.forward? (f.plan.resolve root) = none := by
        rw [Plan.forward?_add, h.forward?_resolve]
      refine .inl ⟨by simp [redirects, ho, hcommits], ?_⟩
      rw [hafter, Plan.card_replacedSlots_setForward hlt hf, Plan.replacedSlots_add]
    | redirected ho hw =>
      -- Replacing a node by the one that stands for it goes through, too.
      obtain ⟨_, _, hroot, -, ⟨heq, rfl⟩ | ⟨hne, -, -, rfl⟩⟩ := h.replace_eq_ok_iff.mp hw
      · exact .inr ⟨by simp [redirects, ho, heq], hafter⟩
      · refine .inl ⟨by simp [redirects, ho, hcommits, hne], ?_⟩
        rw [hafter, Plan.card_replacedSlots_setForward (h.resolve_lt hroot.lt_size)
          (h.forward?_resolve _)]

end Firing

namespace Rewriter

/-! ## Rounds -/

/-- A rewriter with rules of any kind, set up in one of the ways that there are. -/
inductive Configured : Rewriter → Prop where
  | ofRegistry (g : Registry) : Configured (ofRegistry g)
  | ofSettings {settings : RewriteSettings} : (ofSettings settings).result = .ok r → Configured r
  | withMaxIterations (n : Nat) : Configured r → Configured (r.withMaxIterations n)
  | withFailFast (failFast : Bool) : Configured r → Configured (r.withFailFast failFast)
  | addRule : Configured r → r.addRule rule = .ok r' → Configured r'

/-- The plan after at most so many passes. -/
def planAfter (r : Rewriter) (root : NodeId) (s : Progress) (passes : Nat) : Plan :=
  (r.runPasses root passes s).2.plan

/-- The second progress comes from the first one by passes with these firings, each but the last of
which has written a proposal. -/
structure Rounds (r : Rewriter) (root : NodeId) (s : Progress) (rounds : List (List Firing))
    (s' : Progress) : Prop extends Leads r s rounds.flatten s' where
  passes : s'.stats.passes = s.stats.passes + rounds.length
  plan : s'.plan = r.planAfter root s rounds.length
  pass : ∀ k fs, rounds[k]? = some fs →
    r.Fired (r.planAfter root s k) fs (r.planAfter root s (k + 1))
  goesOn : ∀ k fs, rounds[k]? = some fs → k + 1 < rounds.length → fs.any Firing.commits

variable {r : Rewriter} {p q : Plan} {s s' s₁ : Progress} {root new : NodeId} {fs : List Firing}
  {rounds : List (List Firing)}

theorem Configured.maxIterations_pos (h : r.Configured) : 0 < r.maxIterations := by
  induction h with
  | ofRegistry => exact Nat.succ_pos _
  | ofSettings hr =>
    rw [Rewriter.ofSettings, Traced.result_bind] at hr
    obtain ⟨g, -, hg⟩ := Except.bind_eq_ok_iff.mp hr
    cases hg
    exact Nat.lt_of_lt_of_le Nat.one_pos (Nat.le_max_right _ _)
  | withMaxIterations n _ _ => exact Nat.lt_of_lt_of_le Nat.one_pos (Nat.le_max_right _ _)
  | withFailFast _ _ ih => exact ih
  | addRule _ hr ih =>
    obtain ⟨g, -, hg⟩ := Except.bind_eq_ok_iff.mp hr
    cases hg
    exact ih

/-- There is one more replaced slot for each firing that redirects. -/
theorem Fired.card_replacedSlots (h : r.Fired p fs q) (hp : p.WF) :
    q.replacedSlots.card = p.replacedSlots.card + fs.countP Firing.redirects := by
  induction h with
  | nil => rfl
  | @cons _ _ f fs _ _ _ _ ih =>
    rw [ih (f.after_retains r hp).2.1, List.countP_cons]
    rcases f.after_cases r hp with ⟨hred, hcard⟩ | ⟨hred, heq⟩
    · rw [hcard, hred, if_pos rfl]
      omega
    · rw [heq, hred, if_neg Bool.false_ne_true, Nat.add_zero]

theorem Fired.eq_of_not_redirects (h : r.Fired p fs q) (hp : p.WF)
    (hfs : fs.any Firing.redirects = false) : q = p := by
  induction h with
  | nil => rfl
  | @cons _ _ f fs _ _ _ _ ih =>
    rw [List.any_cons, Bool.or_eq_false_iff] at hfs
    rcases f.after_cases r hp with ⟨hred, -⟩ | ⟨-, heq⟩
    · cases hred.symm.trans hfs.1
    · exact (ih (f.after_retains r hp).2.1 hfs.2).trans heq

theorem Fired.ne_iff_redirects (h : r.Fired p fs q) (hp : p.WF) :
    q ≠ p ↔ fs.any Firing.redirects := by
  refine ⟨fun hne => Bool.not_eq_false _ ▸ mt (h.eq_of_not_redirects hp) hne, ?_⟩
  rintro hany rfl
  have hpos : 0 < fs.countP Firing.redirects := List.countP_pos_iff.mpr (List.any_eq_true.mp hany)
  have hcard := h.card_replacedSlots hp
  omega

theorem Rounds.none (h : r.Leads s [] s') (hpasses : s'.stats.passes = s.stats.passes)
    (hplan : s'.plan = s.plan) : r.Rounds root s [] s' where
  toLeads := h
  passes := hpasses
  plan := hplan
  pass k fs hk := by simp at hk
  goesOn k fs hk := by simp at hk

/-- A pass goes before the rounds that come after it. If there are any, it has written a proposal. -/
theorem Rounds.cons {b : Bool} (h : r.Rounds root s₁ rounds s')
    (hpass : r.Makes { s with stats := { s.stats with passes := s.stats.passes + 1 } } fs
      (.ok b, s₁))
    (hplan : ∀ k ≤ rounds.length, r.planAfter root s (k + 1) = r.planAfter root s₁ k)
    (hb : 0 < rounds.length → b = true) : r.Rounds root s (fs :: rounds) s' where
  toLeads := hpass.leads_of_passes.trans h.toLeads
  passes := by
    have hone : s₁.stats.passes = s.stats.passes + 1 := hpass.passes
    rw [h.passes, hone, List.length_cons]
    omega
  plan := by rw [h.plan, List.length_cons, hplan _ (Nat.le_refl _)]
  pass k gs hk := by
    have hlt : k < rounds.length + 1 := (List.getElem?_eq_some_iff.mp hk).1
    rw [hplan k (Nat.le_of_lt_succ hlt)]
    cases k with
    | zero =>
      obtain rfl := Option.some.inj hk
      exact hpass.fired
    | succ k =>
      rw [hplan k (by omega)]
      exact h.pass k gs hk
  goesOn k gs hk hlt := by
    cases k with
    | zero =>
      obtain rfl := Option.some.inj hk
      exact (hpass.answer b rfl).symm.trans (hb (Nat.lt_of_succ_lt_succ hlt))
    | succ k => exact h.goesOn k gs hk (Nat.lt_of_succ_lt_succ hlt)

theorem runPasses_rounds {limit : Nat} (h : r.runPasses root limit s = (.ok (), s')) :
    ∃ rounds, r.Rounds root s rounds s' ∧ rounds.length ≤ limit ∧
      (0 < limit → 0 < rounds.length) := by
  induction limit generalizing s with
  | zero =>
    cases h
    exact ⟨[], .none (.refl r _) rfl rfl, Nat.le_refl _, id⟩
  | succ limit ih =>
    obtain ⟨fs, hpass⟩ := r.pass_makes root
      { s with stats := { s.stats with passes := s.stats.passes + 1 } }
    rw [runPasses] at h
    split at h
    · rename_i s₁ hs₁
      rw [hs₁] at hpass
      obtain ⟨rounds, hrounds, hle, -⟩ := ih h
      refine ⟨fs :: rounds, hrounds.cons hpass (fun k _ => ?_) fun _ => rfl,
        Nat.succ_le_succ hle, fun _ => Nat.succ_pos _⟩
      rw [planAfter, planAfter, runPasses, hs₁]
    · rename_i s₁ hs₁
      rw [hs₁] at hpass
      cases h
      have hend : r.Rounds root s₁ []
          { s₁ with stats := { s₁.stats with reachedFixpoint := true } } :=
        .none ⟨.nil, rfl, rfl, by simp⟩ rfl rfl
      refine ⟨[fs], hend.cons hpass (fun k hk => ?_) fun hlt => absurd hlt (Nat.lt_irrefl 0),
        Nat.succ_le_succ (Nat.zero_le _), fun _ => Nat.one_pos⟩
      obtain rfl := Nat.le_zero.mp hk
      rw [planAfter, runPasses, hs₁]
      rfl
    · cases h

theorem rewrite_rounds (h : r.rewrite p root = (.ok new, s)) :
    ∃ rounds, r.Rounds root { plan := p } rounds s ∧ rounds.length ≤ r.maxIterations ∧
      (0 < r.maxIterations → 0 < rounds.length) := by
  rw [rewrite] at h
  split at h
  · rename_i s₀ hrun
    obtain ⟨rounds, hrounds, hlength⟩ := runPasses_rounds hrun
    cases h
    have hleads := hrounds.toLeads
    exact ⟨rounds, ⟨⟨hleads.fired, hleads.firings, hleads.ruleFirings, hleads.failures⟩,
      hrounds.passes, hrounds.plan, hrounds.pass, hrounds.goesOn⟩, hlength⟩
  · cases h

theorem planAfter_wf (r : Rewriter) (root : NodeId) (hs : s.plan.WF) (k : Nat) :
    (r.planAfter root s k).WF := by
  obtain ⟨fs, hleads⟩ := r.runPasses_leads root k s
  exact (hleads.fired.retains hs).2.1

/-- What is counted, for all rules together and for each of them, are the proposals that have been
written. They are as many as the slots that have been replaced exactly if each of them redirects a
slot. A pass changes the plan exactly if it has a proposal that does, and each pass before the last
one has written a proposal. -/
theorem rewrite_counts (hr : r.Configured) (hp : p.WF) (h : r.rewrite p root = (.ok new, s)) :
    s.stats.firings = (s.stats.ruleFirings.map Prod.snd).sum ∧
    1 ≤ s.stats.passes ∧ s.stats.passes ≤ r.maxIterations ∧
    ∃ rounds, r.Rounds root { plan := p } rounds s ∧
      s.stats.firings = rounds.flatten.countP Firing.commits ∧
      (s.plan.replacedSlots \ p.replacedSlots).card = rounds.flatten.countP Firing.redirects ∧
      (s.stats.firings = (s.plan.replacedSlots \ p.replacedSlots).card ↔
        ∀ f ∈ rounds.flatten, f.commits → f.redirects) ∧
      ∀ k fs, rounds[k]? = some fs →
        (r.planAfter root { plan := p } (k + 1) ≠ r.planAfter root { plan := p } k ↔
          fs.any Firing.redirects) ∧
        (k + 1 < s.stats.passes → fs.any Firing.commits) := by
  obtain ⟨rounds, hrounds, hle, hpos⟩ := rewrite_rounds h
  have hpasses : s.stats.passes = rounds.length := hrounds.passes.trans (Nat.zero_add _)
  have hfirings : s.stats.firings = rounds.flatten.countP Firing.commits :=
    hrounds.firings.trans (Nat.zero_add _)
  have hrules : (s.stats.ruleFirings.map Prod.snd).sum = rounds.flatten.countP Firing.commits :=
    hrounds.ruleFirings.trans (Nat.zero_add _)
  have hnew : (s.plan.replacedSlots \ p.replacedSlots).card =
      rounds.flatten.countP Firing.redirects := by
    have hfired : r.Fired p rounds.flatten s.plan := hrounds.fired
    rw [Finset.card_sdiff_of_subset (hfired.retains hp).1.replacedSlots_subset,
      hfired.card_replacedSlots hp, Nat.add_sub_cancel_left]
  refine ⟨hfirings.trans hrules.symm, hpasses ▸ hpos hr.maxIterations_pos, hpasses ▸ hle, rounds,
    hrounds, hfirings, hnew, ?_, fun k fs hk => ⟨?_, fun hlt => ?_⟩⟩
  · rw [hfirings, hnew]
    exact Firing.countP_commits_eq_iff
  · exact (hrounds.pass k fs hk).ne_iff_redirects (planAfter_wf r root hp k)
  · exact hrounds.goesOn k fs hk (hpasses ▸ hlt)

/-- The two proposals that are written in spite of three failures redirect a slot each. -/
theorem rewrite_counts_meddling : ∃ s rounds, meddling.rewrite .positives 1 = (.ok 3, s) ∧
    meddling.Rounds 1 { plan := .positives } rounds s ∧ s.stats.firings = 2 ∧
    (s.stats.ruleFirings.map Prod.snd).sum = 2 ∧ rounds.flatten.countP Firing.redirects = 2 ∧
    ∀ f ∈ rounds.flatten, f.commits → f.redirects := by
  obtain ⟨s, hrun, -⟩ := exists_meddled
  have hs : s = (meddling.rewrite .positives 1).2 := by rw [hrun]
  have hfirings : s.stats.firings = 2 := hs ▸ by decide +kernel
  have hcard : (s.plan.replacedSlots \ Plan.positives.replacedSlots).card = 2 :=
    hs ▸ by decide +kernel
  have hconfigured : meddling.Configured :=
    ((Configured.ofRegistry meddling.registry).withMaxIterations 10).withFailFast false
  obtain ⟨hsum, -, -, rounds, hrounds, -, hnew, hexact, -⟩ :=
    rewrite_counts hconfigured positives_edited.wf hrun
  exact ⟨s, rounds, hrun, hrounds, hfirings, hsum.symm.trans hfirings, hnew.symm.trans hcard,
    hexact.mp (hfirings.trans hcard.symm)⟩

/-- Proposes for a scan the scan itself. -/
def stay : Rule where
  name := "Stay"
  pattern := .leaf (.single .scan)
  react c := return ← c.proposeExisting c.root

/-- A rewriter with that rule only, which makes at most two passes. -/
def idling : Rewriter :=
  (ofRegistry ((Registry.empty.register stay).toOption.getD .empty)).withMaxIterations 2

/-- Two firings are counted, and both passes say that they have changed something, but no slot has
been replaced and the plan is as it was. -/
theorem rewrite_counts_idling : idling.Configured ∧ Plan.positives.WF ∧
    (idling.registry.names = ["Stay"] ∧ idling.maxIterations = 2) ∧
    ∃ s, idling.rewrite .positives 1 = (.ok 1, s) ∧ s.plan = .positives ∧ s.stats.firings = 2 ∧
      (s.plan.replacedSlots \ Plan.positives.replacedSlots).card = 0 ∧ s.stats.passes = 2 ∧
      s.stats.reachedFixpoint = false ∧
      idling.planAfter 1 { plan := .positives } 1 = .positives := by
  have hout : (idling.rewrite .positives 1).1 = .ok 1 := by decide +kernel
  refine ⟨(Configured.ofRegistry _).withMaxIterations 2, positives_edited.wf, by decide,
    (idling.rewrite .positives 1).2, Prod.ext hout rfl, ?_⟩
  decide +kernel

end Rewriter
end RelPlan
