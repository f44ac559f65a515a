import RelPlan.Proofs.Plan.Forwarding
import RelPlan.Proofs.Rewrite.Safety
import RelPlan.Proofs.Rewrite.Run

/-! # Choosing rules by kind

Whatever rules are offered to a registry, the ones that it takes have different names, and its
candidates for a kind are those of them that admit the kind at the root of their pattern. The others
decline at a node of that kind, so it is enough to fire the candidates
(`Registry.dispatch_by_kind`). A rule is checked before the registry is changed, so a refused one
leaves no trace in a registry that is changed in place (`Registry.run_registerInPlace`). -/

namespace RelPlan

variable {p : Plan} {id : NodeId} {n : Node} {rule : Rule} {rules rules' : List Rule}

/-! ## Firing in order -/

namespace Rule

/-- Fires rules at a node in order, up to the first one that does not decline. -/
def fireFirst (p : Plan) (id : NodeId) : List Rule → Option (Rule × Except RewriteError Outcome)
  | [] => none
  | rule :: rules =>
    match (rule.fire p id).result with
    | .ok .declined => fireFirst p id rules
    | answer => some (rule, answer)

theorem fireFirst_of_not_applies (h : ¬ rule.Applies p id) :
    fireFirst p id (rule :: rules) = fireFirst p id rules := by
  rw [fireFirst, Classical.not_not.mp h]

theorem fireFirst_of_applies (h : rule.Applies p id) :
    fireFirst p id (rule :: rules) = some (rule, (rule.fire p id).result) := by
  rw [fireFirst]
  split
  · rename_i hdeclined
    exact absurd hdeclined h
  · rfl

/-- Rules that decline may be left out. -/
theorem fireFirst_filter {keep : Rule → Bool}
    (h : ∀ rule ∈ rules, keep rule = false → ¬ rule.Applies p id) :
    fireFirst p id (rules.filter keep) = fireFirst p id rules := by
  induction rules with
  | nil => rfl
  | cons rule rules ih =>
    obtain ⟨hrule, hrules⟩ := List.forall_mem_cons.mp h
    cases hkeep : keep rule with
    | false =>
      rw [List.filter_cons_of_neg (by simp [hkeep]), fireFirst_of_not_applies (hrule hkeep),
        ih hrules]
    | true =>
      rw [List.filter_cons_of_pos hkeep]
      by_cases ha : rule.Applies p id
      · rw [fireFirst_of_applies ha, fireFirst_of_applies ha]
      · rw [fireFirst_of_not_applies ha, fireFirst_of_not_applies ha, ih hrules]

/-- The order of rules does not matter if no two of them compete. -/
theorem fireFirst_perm (hperm : rules.Perm rules') (h : ∀ rule ∈ rules, ∀ rule' ∈ rules,
    rule.Applies p id → rule'.Applies p id → rule = rule') :
    fireFirst p id rules = fireFirst p id rules' := by
  induction hperm with
  | nil => rfl
  | cons rule _ ih =>
    have ih := ih fun x hx y hy => h x (List.mem_cons_of_mem _ hx) y (List.mem_cons_of_mem _ hy)
    by_cases ha : rule.Applies p id
    · rw [fireFirst_of_applies ha, fireFirst_of_applies ha]
    · rw [fireFirst_of_not_applies ha, fireFirst_of_not_applies ha, ih]
  | swap x y rules =>
    by_cases hx : x.Applies p id
    · by_cases hy : y.Applies p id
      · rw [h x (by simp) y (by simp) hx hy]
      · rw [fireFirst_of_not_applies hy, fireFirst_of_applies hx, fireFirst_of_applies hx]
    · rw [fireFirst_of_not_applies hx]
      by_cases hy : y.Applies p id
      · rw [fireFirst_of_applies hy, fireFirst_of_applies hy]
      · rw [fireFirst_of_not_applies hy, fireFirst_of_not_applies hy, fireFirst_of_not_applies hx]
  | trans hperm _ ih ih' =>
    refine (ih h).trans (ih' fun x hx y hy => ?_)
    exact h x (hperm.mem_iff.mpr hx) y (hperm.mem_iff.mpr hy)

/-- A rule declines at nodes of kinds that its pattern does not admit. -/
theorem not_applies_of_not_admits (hn : p.node (p.resolve id) = .ok n)
    (h : rule.pattern.test.admits n.kind = false) : ¬ rule.Applies p id := by
  simp [Applies, fire, Pattern.bind_of_not_admits hn h]

end Rule

/-! ## Registering -/

theorem Pattern.rootKinds_nodup (pattern : Pattern) : pattern.rootKinds.Nodup := by
  unfold rootKinds
  split
  · exact .nil
  · exact List.Nodup.filter _ (by decide)

namespace Registry

variable {g : Registry}

/-- Adds a rule to the candidates for a kind. -/
def addCandidate (g : Registry) (kind : NodeKind) (rule : Rule) : Registry :=
  { g with candidates := Function.update g.candidates kind (g.candidates kind ++ [rule]) }

/-- `register` on a registry that is changed in place: what is done before a failure is not taken
back. -/
def registerInPlace (rule : Rule) : EStateM RewriteError Registry Unit := do
  if ((← get).find? rule.name).isSome then throw (.duplicateRule rule.name)
  else
    ofExcept (rule.pattern.validate.mapError (RewriteError.invalidPattern rule.name))
    rule.pattern.rootKinds.forM fun kind => modify (·.addCandidate kind rule)
    modify fun g => { g with rules := g.rules ++ [rule] }

/-- A rule that is added for some kinds, each of them once, is one more candidate for these. -/
theorem run_forM_addCandidate {kinds : List NodeKind} (g : Registry) (hkinds : kinds.Nodup) :
    (kinds.forM fun kind => modify (·.addCandidate kind rule) :
        EStateM RewriteError Registry Unit).run g =
      .ok () ⟨g.rules, fun kind =>
        if kind ∈ kinds then g.candidates kind ++ [rule] else g.candidates kind⟩ := by
  induction kinds generalizing g with
  | nil => rfl
  | cons kind kinds ih =>
    obtain ⟨hkind, hkinds⟩ := List.nodup_cons.mp hkinds
    refine (ih (g.addCandidate kind rule) hkinds).trans ?_
    congr 2
    funext k
    by_cases hk : k = kind
    · subst hk
      simp [addCandidate, hkind]
    · simp [addCandidate, hk]

/-- All that can fail comes before the first change. -/
theorem run_registerInPlace (g : Registry) (rule : Rule) :
    (registerInPlace rule).run g =
      match g.register rule with
      | .ok g' => .ok () g'
      | .error e => .error e g := by
  simp only [registerInPlace, register, EStateM.run_bind, EStateM.run_get]
  split
  case isTrue => rfl
  simp only [EStateM.run_bind, EStateM.run_ofExcept]
  cases rule.pattern.validate with
  | error => rfl
  | ok =>
    simp only [Except.mapError_ok, run_forM_addCandidate g rule.pattern.rootKinds_nodup]
    rfl

/-- Offers rules to the registry in order, whatever becomes of it when a rule is refused. -/
def offer (g : Registry) : List Rule → Registry
  | [] => g
  | rule :: rules =>
    match (registerInPlace rule).run g with
    | .ok () g' => g'.offer rules
    | .error _ g' => g'.offer rules

/-- A rule that is refused leaves the registry as it is. -/
theorem offer_cons (g : Registry) (rule : Rule) (rules : List Rule) :
    g.offer (rule :: rules) =
      match g.register rule with
      | .ok g' => g'.offer rules
      | .error _ => g.offer rules := by
  rw [offer, run_registerInPlace]
  cases g.register rule <;> rfl

/-- The rules on offer that are not refused are registered in their order. -/
theorem Registers.offer (h : g.Registers rules) (offered : List Rule) :
    ∃ taken, taken.Sublist offered ∧ (g.offer offered).Registers (rules ++ taken) := by
  induction offered generalizing g rules with
  | nil => exact ⟨[], .slnil, by simpa [Registry.offer] using h⟩
  | cons rule offered ih =>
    rw [offer_cons]
    split
    · rename_i g' hg
      obtain ⟨taken, hsub, hregisters⟩ := ih (h.register hg)
      exact ⟨rule :: taken, hsub.cons_cons rule, by simpa using hregisters⟩
    · obtain ⟨taken, hsub, hregisters⟩ := ih h
      exact ⟨taken, hsub.cons rule, hregisters⟩

theorem Registers.names_nodup (h : g.Registers rules) : (rules.map Rule.name).Nodup := by
  induction h with
  | empty => exact .nil
  | @register g g' rules rule h hg ih =>
    obtain ⟨hname, -, -⟩ := register_eq_ok hg
    rw [names, h.rules_eq] at hname
    rw [List.map_append, List.nodup_append]
    refine ⟨ih, List.nodup_singleton _, fun a ha b hb => ?_⟩
    rintro rfl
    exact hname (List.mem_singleton.mp hb ▸ ha)

/-- The candidates for a kind are the registered rules that admit it. -/
theorem Registers.candidates_eq_admitted (h : g.Registers rules) (k : NodeKind) :
    g.candidates k = rules.filter (·.pattern.test.admits k) := by
  rw [h.candidates_eq]
  refine List.filter_congr fun rule hrule => ?_
  simp [Pattern.mem_rootKinds (h.test_ne_any hrule)]

theorem exists_register (hname : rule.name ∉ g.names) (hvalid : rule.pattern.validate = .ok ()) :
    ∃ g', g.register rule = .ok g' := by
  have hnew : (g.find? rule.name).isSome = false := by simpa [find?, names] using hname
  rw [register, hnew, hvalid]
  exact ⟨_, rfl⟩

/-- A name gets taken by the first rule on offer that has it and is of some use. -/
theorem mem_names_offer : name ∈ (g.offer rules).names ↔
    name ∈ g.names ∨ ∃ rule ∈ rules, rule.name = name ∧ rule.pattern.validate = .ok () := by
  induction rules generalizing g with
  | nil => simp [offer]
  | cons rule rules ih =>
    rw [offer_cons, List.exists_mem_cons_iff]
    split
    · rename_i g' hg
      obtain ⟨-, hvalid, rfl⟩ := register_eq_ok hg
      rw [ih]
      simp [names, hvalid, or_assoc, eq_comm]
    · rename_i e hg
      rw [ih]
      -- A rule of some use is refused only if its name is there already.
      have hknown : rule.name = name ∧ rule.pattern.validate = .ok () → name ∈ g.names := by
        rintro ⟨rfl, hvalid⟩
        by_contra hname
        obtain ⟨g', hg'⟩ := exists_register hname hvalid
        cases hg.symm.trans hg'
      constructor
      · exact Or.imp_right .inr
      · rintro (hname | hrule | hrules)
        · exact .inl hname
        · exact .inl (hknown hrule)
        · exact .inr hrules

/-- A registry to which any rules have been offered has rules of different names, in the order in
which they have been offered, one for each name of a rule of some use. Its candidates for a kind are,
each once and in that order, the rules whose patterns admit the kind at the root, and firing them at
a node of the kind gives the same first proposal or error as firing all rules. -/
theorem dispatch_by_kind (offered : List Rule) :
    (empty.offer offered).names.Nodup ∧ (empty.offer offered).rules.Sublist offered ∧
    (∀ name, name ∈ (empty.offer offered).names ↔
      ∃ rule ∈ offered, rule.name = name ∧ rule.pattern.validate = .ok ()) ∧
    (∀ k, ((empty.offer offered).candidates k).Nodup ∧ (empty.offer offered).candidates k =
      (empty.offer offered).rules.filter (·.pattern.test.admits k)) ∧
    ∀ (p : Plan) (id : NodeId) (n : Node), p.Assembled → p.node id = .ok n →
      Rule.fireFirst p id ((empty.offer offered).candidates n.kind) =
        Rule.fireFirst p id (empty.offer offered).rules := by
  have htaken (name) : name ∈ (empty.offer offered).names ↔
      ∃ rule ∈ offered, rule.name = name ∧ rule.pattern.validate = .ok () := by
    rw [mem_names_offer]
    exact or_iff_right List.not_mem_nil
  obtain ⟨taken, hsub, hregisters⟩ := Registers.empty.offer offered
  generalize empty.offer offered = g at hregisters htaken ⊢
  have hnames : g.names.Nodup := by
    rw [names, hregisters.rules_eq]
    exact hregisters.names_nodup
  have hcandidates (k) : g.candidates k = g.rules.filter (·.pattern.test.admits k) := by
    rw [hregisters.rules_eq]
    exact hregisters.candidates_eq_admitted k
  refine ⟨hnames, hregisters.rules_eq ▸ hsub, htaken, fun k => ⟨?_, hcandidates k⟩, ?_⟩
  · rw [hcandidates]
    exact (List.Nodup.of_map Rule.name hnames).filter _
  · intro p id n hp hn
    rw [hcandidates]
    refine Rule.fireFirst_filter fun rule _ hkind => Rule.not_applies_of_not_admits ?_ hkind
    rw [Plan.node, Plan.resolve_of_forward?_eq_none (hp.descends.forward?_resolve id)]
    exact hn

/-- Binds at filters and scans, and declines. -/
def watch : Rule where
  name := "Watch"
  pattern := .leaf (.multi [.filter, .scan, .filter])
  react c := return c

/-- Would bind anywhere. -/
def everywhere : Rule where
  name := "Everywhere"
  pattern := .leaf .any
  react c := return c

/-- Of these rules one has a pattern that is of no use and one is there twice. -/
def mixed : List Rule :=
  [watch, everywhere, .mergeFilter, watch, Rewriter.refuse, .filterToCompute]

/-- Of the four rules that have been taken, three are candidates at the filter, and the last of them
is the first one not to decline. -/
theorem dispatch_by_kind_mixed :
    (empty.offer mixed).names = ["Watch", "FilterCalcMergeRule", "Refuse", "FilterToCalcRule"] ∧
    ((empty.offer mixed).candidates .filter).map Rule.name =
      ["Watch", "FilterCalcMergeRule", "FilterToCalcRule"] ∧
    (Rule.fireFirst .positives 1 (empty.offer mixed).rules).map (·.1.name) =
      some "FilterToCalcRule" ∧
    Rule.fireFirst .positives 1 ((empty.offer mixed).candidates .filter) =
      Rule.fireFirst .positives 1 (empty.offer mixed).rules := by
  have hassembled : Plan.positives.Assembled := .add _ (.add _ .empty)
  refine ⟨by decide, by decide, by decide +kernel, ?_⟩
  exact (dispatch_by_kind mixed).2.2.2.2 .positives 1 _ hassembled rfl

end Registry
end RelPlan
