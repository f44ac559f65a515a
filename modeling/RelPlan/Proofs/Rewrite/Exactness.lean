import RelPlan.Proofs.Plan.Congruence
import RelPlan.Proofs.Rewrite.Refiring

/-! # Steps that hide no failure

Merging can hide failures: a column that nobody reads is not evaluated any more. The other steps
cannot. A filter or a projection runs the same condition and the same columns on the same rows as the
compute node that it becomes, and a compute node that changes nothing gives the rows of its input
(`Rewrites.evaluate_target`). So after them every node has the rows or the error that it had, whatever
rows the tables hold (`Rule.evaluate_fired`). -/

namespace RelPlan

open Relation

variable {p : Plan} {o a i : NodeId} {n : Node} {r : Replacement} {tables : Tables}
  {rows : List Row}

/-- A stage that changes nothing. -/
theorem runRows_refs {rt : RowType} (hrows : RowsHaveWidth rt.length rows) :
    runRows none rt.refs rows = .ok rows := by
  rw [runRows_eq_ok_iff, Kept.none_iff, List.map_map]
  refine List.map_congr_left fun row hrow => ?_
  rw [Function.comp_apply, Expr.delay_refs]
  rw [LazyRow.ofRow, List.length_map, hrows row hrow]

namespace Rewrites

/-- The step is no merge: over a compute node it is a removal. -/
def KeepsLower (p : Plan) (o : NodeId) (r : Replacement) : Prop :=
  ∀ n i j lower, p.node o = .ok n → n.inputs = [i] → p.node i = .ok (.compute j lower) →
    r = .existing (p.resolve i)

variable (h : p.Good) (hf : p.forward? o = none) (hr : Rewrites p o r)
include h hf hr

theorem replaced : p.Replaced (r.written p o) o (r.target p) := by
  cases r with
  | new n => exact (h.wf.replaceWith_replaced (hr.replaceWith_eq h hf)).1
  | existing id =>
    obtain ⟨_, _, _, hid, _⟩ := hr.existing_typed h
    have hreplaced := (h.wf.replace_replaced (hr.replace_eq h hf)).1
    rwa [hid] at hreplaced

/-- What the old node computes with has the results that it had. -/
theorem evaluate_lower (hi : i < p.size) (hlow : p.height i < p.height o) :
    (r.written p o).evaluate tables i = p.evaluate tables i := by
  refine (hr.replaced h hf).evaluate_unreached h.wf hi ?_
  rw [Plan.resolve_of_forward?_eq_none hf]
  exact h.wf.not_reaches (Nat.lt_of_le_of_lt (h.wf.height_resolve_le i) hlow)

/-- Where nothing is merged, the new node has the result of the old one. -/
theorem evaluate_target (hkeep : KeepsLower p o r) :
    (r.written p o).evaluate tables (r.target p) = p.evaluate tables o := by
  have hr' := hr
  cases hr with
  | @convert i _ _ _ _ _ hn _ hstage hm _ hv hmeans =>
    obtain ⟨hlt, -, hlow⟩ := (hr'.new_typed h).2.2 _ List.mem_cons_self
    rw [h.evaluate_stage hn hstage, Replacement.target,
      (hr'.good h hf).1.evaluate_stage (hr'.node_new h hf) (.compute hmeans),
      hr'.evaluate_lower h hf hlt hlow, Plan.evaluate_congr (h.wf.node_resolve i)]
  | merge hn hstage hm =>
    cases hkeep _ _ _ _ hn hstage.inputs_eq hm
  | @remove i program hn htrivial hrt =>
    obtain ⟨_, _, hid, _, hlow⟩ := hr'.existing_typed h
    rw [Replacement.target, hr'.evaluate_lower h hf hid.lt_size hlow,
      Plan.evaluate_congr (h.wf.node_resolve i),
      h.evaluate_stage hn (.compute (Program.Means.of_isTrivial htrivial))]
    cases hi : p.evaluate tables i with
    | error => rfl
    | ok rows =>
      have hwidth : RowsHaveWidth program.inputType.length rows := by
        cases h.node_typed hn with
        | compute hin _ => exact RowType.length_types _ ▸ h.rows_width hin hi
      rw [Except.ok_bind, runRows_refs hwidth]
      rfl

end Rewrites

namespace Rule

variable {rule : Rule} {test : KindTest}

/-- A rule for nodes over other ones than filters, projections and compute nodes merges nothing. -/
theorem keepsLower_of_over (hover : p.Over test (.except [.filter, .project, .compute]) o) :
    Rewrites.KeepsLower p o r := by
  intro n i j lower hn hin hi
  obtain ⟨n', i', rest, m, hn', -, hin', hm, hbase⟩ := hover
  obtain rfl := Except.ok.inj (hn.symm.trans hn')
  cases hin.symm.trans hin'
  obtain rfl := Except.ok.inj (hi.symm.trans hm)
  cases hbase

/-- The rules that convert filters and projections and remove compute nodes merge nothing. -/
theorem keepsLower_of_fire (h : p.Good) (hrule : rule ∈ [filterToCompute, projectToCompute,
    removeCompute]) (hfire : (rule.fire p a).result = .ok (.replaced o r)) :
    p.forward? o = none ∧ Rewrites p o r ∧ Rewrites.KeepsLower p o r := by
  simp only [List.mem_cons, List.not_mem_nil, or_false] at hrule
  rcases hrule with rfl | rfl | rfl
  · obtain ⟨-, hf, hover, hr⟩ := filterToCompute_reacts.of_fire h hfire
    exact ⟨hf, hr, keepsLower_of_over hover⟩
  · obtain ⟨-, hf, hover, hr⟩ := projectToCompute_reacts.of_fire h hfire
    exact ⟨hf, hr, keepsLower_of_over hover⟩
  · obtain ⟨-, hf, ⟨i, program, hn, -⟩, hr⟩ := removeCompute_reacts.of_fire h hfire
    refine ⟨hf, hr, fun m j _ _ hm hin _ => ?_⟩
    obtain rfl := Except.ok.inj (hn.symm.trans hm)
    obtain rfl := List.singleton_inj.mp hin
    exact removeCompute_existing h hfire hn

/-- The rules that convert filters and projections into compute nodes and those that remove compute
nodes are exact. Wherever one of them proposes a replacement, it can be written, and then every node
of the plan has the result that it had, down to the error, on any tables, also on rows that do not
conform to the types of the scans. -/
theorem evaluate_fired (hp : p.Built) (hrule : rule ∈ [filterToCompute, projectToCompute,
    removeCompute]) (hfire : (rule.fire p a).result = .ok (.replaced o r)) :
    ∃ c q, (Outcome.replaced o r).commit p = .ok (some c, q) ∧
      ∀ tables, ∀ b < p.size, q.evaluate tables b = p.evaluate tables b := by
  have h := hp.good
  obtain ⟨hf, hr, hkeep⟩ := keepsLower_of_fire h hrule hfire
  refine ⟨_, _, hr.commit_eq h hf, fun tables b hb => ?_⟩
  exact (hr.replaced h hf).evaluate_eq h.wf (hr.evaluate_target h hf hkeep) hb

/-- A filter that divides by the field of a table, beside the table itself. -/
def reciprocals : Plan where
  slots := [
    ⟨.scan "t" [⟨"a", .int⟩], none⟩,
    ⟨.filter 0 (.binary (.binary (.literal (.int 1)) .div (.input 0)) .gt (.literal (.int 0)))
      [⟨"a", .int⟩], none⟩,
    ⟨.join 1 0 .left none [⟨"a", .int⟩, ⟨"a", .int⟩], none⟩]

theorem reciprocals_built : reciprocals.Built :=
  Plan.Built.empty.add .scan
    |>.add (.filter (show Plan.newFilter _ 0 (.binary (.binary (.literal (.int 1)) .div (.input 0)) .gt
      (.literal (.int 0))) = .ok _ from rfl))
    |>.add (.join (show Plan.newJoin _ 1 0 .left none = .ok _ from rfl))

/-- A row that passes, one that does not, and one that holds no number. -/
def mistyped : Tables := Tables.none.insert "t" [[.int 1], [.null], [.string "one"]]

/-- The join over the filter fails at the same row for the same reason when the filter has become a
compute node. -/
theorem evaluate_fired_mistyped : ∃ r c q,
    (filterToCompute.fire reciprocals 1).result = .ok (.replaced 1 r) ∧
      (Outcome.replaced 1 r).commit reciprocals = .ok (some c, q) ∧
      ∃ e, reciprocals.evaluate mistyped 2 = .error (.program (.evaluation (.value e))) ∧
        q.evaluate mistyped 2 = .error (.program (.evaluation (.value e))) := by
  rcases filterToCompute_reacts reciprocals 1 reciprocals_built.good (by decide) rfl with
    ⟨-, r, hfire, -⟩ | ⟨hno, -⟩
  · obtain ⟨c, q, hcommit, hsame⟩ := evaluate_fired reciprocals_built List.mem_cons_self hfire
    obtain ⟨e, he⟩ : ∃ e, reciprocals.evaluate mistyped 2 =
        .error (.program (.evaluation (.value e))) := ⟨_, rfl⟩
    exact ⟨r, c, q, hfire, hcommit, e, he, (hsame mistyped 2 (by decide)).trans he⟩
  · exact absurd ⟨_, _, _, _, rfl, rfl, rfl, rfl, rfl⟩ hno

end Rule
end RelPlan
