import RelPlan.Proofs.Rewrite.Run

/-! # Results of rewritten plans

However many rewriting steps have been made, a node whose evaluation had a result has the same one
(`Steps.preserves`, `Rewriter.evaluate_rewrite`). -/

namespace RelPlan

/-- The second plan comes from the first one by rewriting steps. -/
inductive Steps (p : Plan) : Plan → Prop where
  | refl : Steps p p
  | step {q : Plan} {o : NodeId} {r : Replacement} : Steps p q → q.forward? o = none →
      Rewrites q o r → Steps p (r.written q o)

variable {p q : Plan} {rules : List Rule} {tables : Tables} {root : NodeId} {r : Rewriter}

theorem Rewriter.Swept.steps {q' : Plan} {ids : List NodeId} (h : Swept rules ids q b q')
    (hq : Steps p q) : Steps p q' := by
  induction h with
  | nil => exact hq
  | cons hv _ ih =>
    cases hv with
    | changed hf hr => exact ih (hq.step hf hr)
    | unchanged => exact ih hq

theorem Rewriter.Ran.steps {q' : Plan} {limit : Nat} (h : Ran rules root limit q n fixed q')
    (hq : Steps p q) : Steps p q' := by
  induction h with
  | limit => exact hq
  | fixpoint _ hs => exact hs.steps hq
  | pass _ hs _ ih => exact ih (hs.steps hq)

/-- Rewriting steps keep a plan good, and what its nodes give. -/
theorem Steps.preserves (h : Steps p q) (hp : p.Good) (ht : p.TablesConform tables) :
    q.Good ∧ q.TablesConform tables ∧ p.size ≤ q.size ∧
      (∀ strict a out, p.Gives strict tables a out → q.Gives strict tables a out) ∧
      ∀ a < p.size, ∀ out, q.Gives False tables a out → p.Gives False tables a out := by
  induction h with
  | refl => exact ⟨hp, ht, Nat.le_refl _, fun _ _ _ => id, fun _ _ _ => id⟩
  | step _ hf hr ih =>
    obtain ⟨hq, hqt, hsize, hgives, hback⟩ := ih
    refine ⟨(hr.good hq hf).1, hr.tablesConform hq hf hqt,
      Nat.le_trans hsize (hr.redirects hq hf).size_le, fun strict a out ha => ?_,
      fun a ha out hout => ?_⟩
    · exact hr.gives_of_gives hq hqt hf (hgives strict a out ha)
    · exact hback a ha out
        (hr.givesByNeed_of_gives hq hqt hf (Nat.lt_of_lt_of_le ha hsize) hout)

namespace Rewriter

/-- Rewriting never changes a result: whatever subset of the rules for compute nodes is registered,
and whether or not a fixpoint is reached, every node that evaluates to rows still does. -/
theorem evaluate_rewrite (hp : p.Built) (hroot : root < p.size)
    (hg : r.registry.Registers rules) (hrules : ∀ rule ∈ rules, rule ∈ Rule.computeRules)
    (ht : p.TablesConform tables) :
    ∃ s, r.rewrite p root = (.ok (s.plan.resolve root), s) ∧
      ∀ a rows, p.evaluate tables a = .ok rows → s.plan.evaluate tables a = .ok rows := by
  have hgood := hp.good
  obtain ⟨s, _, _, hrun, hran, _⟩ := rewrite_spec hgood hroot hg hrules
  obtain ⟨hq, -, -, hgives, -⟩ := (hran.steps .refl).preserves hgood ht
  refine ⟨s, hrun, ?_⟩
  intro a rows ha
  rw [hgood.evaluate_eq_ok_iff] at ha
  exact hq.evaluate_eq_ok_iff.mpr (hgives True a _ ha)

/-- Divides two fields of a table and keeps the divisor only. -/
def divisors : Plan where
  slots := [
    ⟨.scan "t" [⟨"a", .int⟩, ⟨"b", .int⟩], none⟩,
    ⟨.project 0 [.binary (.input 0) .div (.input 1), .input 1] [⟨"q", .int⟩, ⟨"b", .int⟩], none⟩,
    ⟨.project 1 [.input 1] [⟨"b", .int⟩], none⟩]

/-- A table with one row. -/
def oneRow (a b : Int64) : Tables := Tables.none.insert "t" [[.int a, .int b]]

theorem divisors_built : divisors.Built :=
  Plan.Built.empty.add .scan
    |>.add (.project (show Plan.newProject _ 0 [.binary (.input 0) .div (.input 1), .input 1]
      ["q", "b"] = .ok _ from rfl))
    |>.add (.project (show Plan.newProject _ 1 [.input 1] ["b"] = .ok _ from rfl))

theorem divisors_conform (a b : Int64) : divisors.TablesConform (oneRow a b) :=
  Plan.tablesConform_of_slots rfl

/-- Both projections keep their rows, although the upper one reads the table itself afterwards. -/
theorem evaluate_rewrite_divisors : ∃ s,
    Rewriter.default.rewrite divisors 2 = (.ok (s.plan.resolve 2), s) ∧
      s.plan.evaluate (oneRow 6 3) 1 = .ok [[.int 2, .int 3]] ∧
      s.plan.evaluate (oneRow 6 3) 2 = .ok [[.int 3]] := by
  obtain ⟨s, hrun, h⟩ := evaluate_rewrite (r := .default) divisors_built
    (show 2 < divisors.size by decide) Registry.default_registers (fun _ => id)
    (divisors_conform 6 3)
  exact ⟨s, hrun, h 1 _ (by decide +kernel), h 2 _ (by decide +kernel)⟩

/-- What rewriting can hide: if a node has rows afterwards, the plan gave the same rows by need.
Evaluation found them too exactly if no column below the node fails; otherwise a column that nobody
reads has failed in arithmetic. -/
theorem evaluate_of_rewrite (hp : p.Built) (hroot : root < p.size)
    (hg : r.registry.Registers rules) (hrules : ∀ rule ∈ rules, rule ∈ Rule.computeRules)
    (ht : p.TablesConform tables) :
    ∃ s, r.rewrite p root = (.ok (s.plan.resolve root), s) ∧
      ∀ a < p.size, ∀ rows, s.plan.evaluate tables a = .ok rows → p.GivesByNeed tables a rows ∧
        (p.evaluate tables a = .ok rows ↔ p.ColumnsEvaluate tables a) ∧
        (p.evaluate tables a = .ok rows ∨
          ∃ e, p.evaluate tables a = .error (.program e) ∧ e.isArithmetic) := by
  have hgood := hp.good
  obtain ⟨s, _, _, hrun, hran, _⟩ := rewrite_spec hgood hroot hg hrules
  obtain ⟨hq, -, -, -, hback⟩ := (hran.steps .refl).preserves hgood ht
  refine ⟨s, hrun, ?_⟩
  intro a ha rows hrows
  have hneed : p.GivesByNeed tables a rows :=
    hback a ha _ (hq.evaluate_eq_ok_iff.mp hrows).byNeed
  obtain ⟨ts, hts⟩ := hgood.wf.exists_hasTypes ha
  exact ⟨hneed, hgood.evaluate_eq_ok_iff_columnsEvaluate hneed,
    hgood.evaluate_of_givesByNeed ht hts hneed⟩

theorem divisors_rewritten : ∃ s,
    Rewriter.default.rewrite divisors 2 = (.ok (s.plan.resolve 2), s) ∧
      s.plan.evaluate (oneRow 6 0) 2 = .ok [[.int 0]] := by
  obtain ⟨s, _, _, hrun, -⟩ := rewrite_spec (r := .default) divisors_built.good
    (show 2 < divisors.size by decide) Registry.default_registers fun _ => id
  refine ⟨s, hrun, ?_⟩
  rw [show s = (Rewriter.default.rewrite divisors 2).2 by rw [hrun]]
  decide +kernel

/-- A division by zero in the lower projection is no longer met after rewriting. -/
theorem rewrite_divisors_by_zero : divisors.Built ∧ divisors.TablesConform (oneRow 6 0) ∧
    divisors.evaluate (oneRow 6 0) 2 = .error (.program (.evaluation (.value .divisionByZero))) ∧
    ∃ s, Rewriter.default.rewrite divisors 2 = (.ok (s.plan.resolve 2), s) ∧
      s.plan.evaluate (oneRow 6 0) 2 = .ok [[.int 0]] :=
  ⟨divisors_built, divisors_conform 6 0, by decide +kernel, divisors_rewritten⟩

/-- The divisor is given by need, beside a quotient that has no value. -/
theorem divisors_by_need : divisors.GivesByNeed (oneRow 6 0) 2 [[.int 0]] ∧
    ¬ divisors.ColumnsEvaluate (oneRow 6 0) 2 := by
  obtain ⟨s, hrun, h⟩ := evaluate_of_rewrite (r := .default) divisors_built
    (show 2 < divisors.size by decide) Registry.default_registers (fun _ => id)
    (divisors_conform 6 0)
  obtain ⟨s', hrun', hrow⟩ := divisors_rewritten
  obtain rfl : s = s' := (Prod.mk.inj (hrun.symm.trans hrun')).2
  obtain ⟨hneed, hiff, -⟩ := h 2 (by decide) _ hrow
  have hfail : divisors.evaluate (oneRow 6 0) 2 ≠ .ok [[.int 0]] := by decide +kernel
  exact ⟨hneed, fun hc => hfail (hiff.mpr hc)⟩

end Rewriter
end RelPlan
