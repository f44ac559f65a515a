import RelPlan.Proofs.Plan.Edits

/-! # Nodes and their inputs over time

A node is checked once, by its constructor, over the row types that its inputs have then. Later its
inputs may be replaced, before or after it has been added itself, and edits may be refused. All the
same it fits the row types that its inputs have at any time, and no id ever changes the shape of its
row type (`Plan.Chronicle.nodes_fit`). -/

namespace RelPlan

theorem Program.ConditionTyped.congr {rt rt' : RowType} {c : Option Expr} (h : ConditionTyped rt c)
    (hrt : rt.types = rt'.types) : ConditionTyped rt' c := by
  intro e he
  obtain ⟨t, ht, hcond⟩ := h e he
  exact ⟨t, Expr.type_of_types_eq ht hrt, hcond⟩

namespace Plan

/-- Expressions, programs and the row type of the node fit the row types that its inputs have now. -/
def FitsInputs (p : Plan) : Node → Prop
  | .scan .. | .values .. => True
  | .filter i c rt => ∃ irt, p.rowType i = .ok irt ∧ rt.sameShape irt ∧
      Program.ConditionTyped irt (some c)
  | .project i es rt => ∃ irt, p.rowType i = .ok irt ∧ Program.ColumnsTyped irt es rt.types
  | .compute i program => ∃ irt, p.rowType i = .ok irt ∧ program.inputType.sameShape irt
  | .join l r _ c rt => ∃ lrt rrt, p.rowType l = .ok lrt ∧ p.rowType r = .ok rrt ∧
      rt.sameShape (lrt ++ rrt) ∧ Program.ConditionTyped (lrt ++ rrt) c

/-- In the second plan the ids of the first one have row types of the same shapes. -/
def KeepsShapes (p q : Plan) : Prop :=
  ∀ a rt, p.rowType a = .ok rt → ∃ rt', q.rowType a = .ok rt' ∧ rt.sameShape rt'

variable {p q : Plan} {a i : NodeId} {n : Node} {ts : List ScalarType} {ps states : List Plan}

theorem HasTypes.exists_rowType (h : p.HasTypes a ts) : ∃ rt, p.rowType a = .ok rt ∧ rt.types = ts := by
  obtain ⟨n, hn, hts⟩ := h
  exact ⟨_, rowType_eq_ok_iff.mpr ⟨n, hn, rfl⟩, hts⟩

theorem Extends.keepsShapes (h : p.Extends q) : p.KeepsShapes q := by
  intro a rt hrt
  obtain ⟨rt', hrt', hts⟩ := (h a _ (hasTypes_of_rowType hrt)).exists_rowType
  exact ⟨rt', hrt', decide_eq_true hts.symm⟩

/-- What a node is typed over are the row types that its inputs have now, but for names. -/
theorem NodeTyped.fitsInputs (h : p.NodeTyped n) : p.FitsInputs n := by
  cases h with
  | scan | values => trivial
  | filter hi hc ht =>
    obtain ⟨irt, hirt, hts⟩ := hi.exists_rowType
    exact ⟨irt, hirt, decide_eq_true hts.symm,
      (Program.conditionTyped_some hc ht).congr hts.symm⟩
  | project hi hes =>
    obtain ⟨irt, hirt, hts⟩ := hi.exists_rowType
    exact ⟨irt, hirt, hes.imp fun _ _ he => Expr.type_of_types_eq he hts.symm⟩
  | compute hi _ =>
    obtain ⟨irt, hirt, hts⟩ := hi.exists_rowType
    exact ⟨irt, hirt, decide_eq_true hts.symm⟩
  | @join _ _ _ _ _ rt _ hl hr hrt hc =>
    obtain ⟨lrt, hlrt, rfl⟩ := hl.exists_rowType
    obtain ⟨rrt, hrrt, rfl⟩ := hr.exists_rowType
    have hts : rt.types = RowType.types (lrt ++ rrt) := hrt.trans List.map_append.symm
    exact ⟨lrt, rrt, hlrt, hrrt, decide_eq_true hts, hc.congr hts⟩

/-! ## Chronicles -/

/-- A node that the edit brings in comes from a constructor over one of these states. -/
def Edit.MadeOver (states : List Plan) : Edit → Prop
  | add n | replaceWith _ n => ∃ p ∈ states, p.Constructed n
  | replace .. => True

/-- The states of a plan after each of its edits, the last one first; a refused edit repeats the
state before it. -/
inductive Chronicle : List Plan → Prop where
  | empty : Chronicle [empty]
  | edit {p : Plan} {ps : List Plan} {e : Edit} : Chronicle (p :: ps) → e.MadeOver (p :: ps) →
      Chronicle (e.apply p :: p :: ps)

/-- Without the refused edits a chronicle is a history. -/
theorem Chronicle.exists_history (h : Chronicle (p :: ps)) :
    ∃ qs, History (p :: qs) ∧ p :: ps ⊆ p :: qs := by
  generalize hstates : p :: ps = states at h
  induction h generalizing p ps with
  | empty =>
    cases hstates
    exact ⟨[], .empty, List.Subset.refl _⟩
  | @edit p' ps' e _ he ih =>
    cases hstates
    obtain ⟨qs, hqs, hsub⟩ := ih rfl
    have hkeep (q : Plan) : q :: p' :: ps' ⊆ q :: p' :: qs := List.cons_subset_cons q hsub
    unfold Edit.apply
    split
    · rename_i q hq
      cases e with
      | add n =>
        obtain rfl := Except.ok.inj hq
        obtain ⟨p₀, hp₀, hn⟩ := he
        exact ⟨p' :: qs, hqs.add (hsub hp₀) hn, hkeep _⟩
      | replace old new => exact ⟨p' :: qs, hqs.replace hq, hkeep _⟩
      | replaceWith old n =>
        obtain ⟨⟨new, q'⟩, hq', hout⟩ := Except.bind_eq_ok_iff.mp hq
        obtain rfl := Except.ok.inj hout
        obtain ⟨p₀, hp₀, hn⟩ := he
        exact ⟨p' :: qs, hqs.replaceWith (hsub hp₀) hn hq', hkeep _⟩
    · exact ⟨qs, hqs, List.cons_subset.mpr ⟨List.mem_cons_self, hsub⟩⟩

/-- The last state, and what it keeps of the earlier ones. -/
theorem Chronicle.good (h : Chronicle (p :: ps)) : p.Good ∧ ∀ p₀ ∈ ps, p₀.Extends p := by
  obtain ⟨qs, hqs, hsub⟩ := h.exists_history
  obtain ⟨hgood, hext⟩ := hqs.good
  exact ⟨hgood, fun p₀ hp₀ => hext p₀ (hsub (List.mem_cons_of_mem p hp₀))⟩

/-- At any time every slot, replaced or not, holds a node that fits its inputs, and from any time to
any later one the ids keep the shapes of their row types. -/
theorem Chronicle.nodes_fit (h : Chronicle states) :
    (∀ p ∈ states, ∀ a n, p.rawNode a = .ok n → p.FitsInputs n) ∧
      states.Pairwise fun later earlier => earlier.KeepsShapes later := by
  have hlast {p : Plan} {ps : List Plan} (h : Chronicle (p :: ps)) :
      ∀ a n, p.rawNode a = .ok n → p.FitsInputs n :=
    fun a n ha => (h.good.1.typed a n ha).fitsInputs
  induction h with
  | empty => exact ⟨List.forall_mem_singleton.mpr (hlast .empty), List.pairwise_singleton _ _⟩
  | edit h he ih =>
    obtain ⟨hfits, hshapes⟩ := ih
    have h' := h.edit he
    exact ⟨List.forall_mem_cons.mpr ⟨hlast h', hfits⟩,
      List.pairwise_cons.mpr ⟨fun p₀ hp₀ => (h'.good.2 p₀ hp₀).keepsShapes, hshapes⟩⟩

/-- A filter over a table. -/
def positives : Plan where
  slots := [
    ⟨.scan "t" [⟨"a", .int⟩, ⟨"b", .float⟩], none⟩,
    ⟨.filter 0 (.binary (.input 0) .gt (.literal (.int 0))) [⟨"a", .int⟩, ⟨"b", .float⟩], none⟩]

/-- The table has been replaced twice, with other names, and only then a projection that had been made
before has been added, with a join of it and the table. -/
def relayed : Plan where
  slots := [
    ⟨.scan "t" [⟨"a", .int⟩, ⟨"b", .float⟩], some 2⟩,
    ⟨.filter 0 (.binary (.input 0) .gt (.literal (.int 0))) [⟨"a", .int⟩, ⟨"b", .float⟩], none⟩,
    ⟨.values [⟨"x", .int⟩, ⟨"y", .float⟩] [[.int 1, .int 2]], some 3⟩,
    ⟨.scan "u" [⟨"c", .int⟩, ⟨"d", .float⟩], none⟩,
    ⟨.project 1 [.binary (.input 0) .add (.input 1)] [⟨"sum", .float⟩], none⟩,
    ⟨.join 4 0 .left (some (.binary (.input 0) .lt (.input 1)))
      [⟨"sum", .float⟩, ⟨"c", .int⟩, ⟨"d", .float⟩], none⟩]

/-- Two of the edits are refused: one that would lead back, and one that changes the shape. -/
theorem relayed_chronicle : ∃ states, Chronicle (relayed :: states) ∧ positives ∈ states := by
  let sum : Node := .project 1 [.binary (.input 0) .add (.input 1)] [⟨"sum", .float⟩]
  have hsum : positives.Constructed sum :=
    .project (show positives.newProject 1 [.binary (.input 0) .add (.input 1)] ["sum"] = .ok _ from rfl)
  have hpositives : Chronicle (positives :: _) :=
    Chronicle.empty.edit (e := .add (.scan "t" [⟨"a", .int⟩, ⟨"b", .float⟩]))
        ⟨_, List.mem_cons_self, .scan⟩
      |>.edit (e := .add (.filter 0 (.binary (.input 0) .gt (.literal (.int 0)))
        [⟨"a", .int⟩, ⟨"b", .float⟩])) ⟨_, List.mem_cons_self, .filter (show newFilter _ 0
        (.binary (.input 0) .gt (.literal (.int 0))) = .ok _ from rfl)⟩
  have hrelayed : Chronicle (relayed :: _) :=
    hpositives.edit (e := .replaceWith 0 (.values [⟨"x", .int⟩, ⟨"y", .float⟩] [[.int 1, .int 2]]))
        ⟨_, List.mem_cons_self, .values (show newValues [⟨"x", .int⟩, ⟨"y", .float⟩]
          [[.int 1, .int 2]] = .ok _ from rfl)⟩
      |>.edit (e := .replaceWith 0 (.scan "u" [⟨"c", .int⟩, ⟨"d", .float⟩]))
        ⟨_, List.mem_cons_self, .scan⟩
      |>.edit (e := .replace 0 1) trivial
      |>.edit (e := .replaceWith 0 sum) ⟨_, by simp, hsum⟩
      |>.edit (e := .add sum) ⟨_, by simp, hsum⟩
      |>.edit (e := .add (.join 4 0 .left (some (.binary (.input 0) .lt (.input 1)))
        [⟨"sum", .float⟩, ⟨"c", .int⟩, ⟨"d", .float⟩])) ⟨_, List.mem_cons_self,
        .join (show newJoin _ 4 0 .left (some (.binary (.input 0) .lt (.input 1))) = .ok _ from rfl)⟩
  exact ⟨_, hrelayed, by simp⟩

/-- The filter, which was checked against another table, fits the last one. -/
theorem nodes_fit_relayed : (∀ a n, relayed.rawNode a = .ok n → relayed.FitsInputs n) ∧
    relayed.resolve 0 = 3 ∧ positives.KeepsShapes relayed := by
  obtain ⟨states, hrelayed, hpositives⟩ := relayed_chronicle
  obtain ⟨hfits, hshapes⟩ := hrelayed.nodes_fit
  exact ⟨hfits relayed List.mem_cons_self, rfl, (List.pairwise_cons.mp hshapes).1 _ hpositives⟩

end Plan
end RelPlan
