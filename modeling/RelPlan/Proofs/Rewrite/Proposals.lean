import RelPlan.Proofs.Rewrite.Safety

/-! # Proposals

A rule may try to propose as often as it wants to. Of all that it tries, a call takes the first
thing that fits the root, and nothing after it (`Call.single_use`). Its checks come before the
proposal is set, so a call that refuses stays as it is although it is changed in place
(`Call.run_proposeInPlace`). What has been taken can be written into the plan unless it computes
with the root (`Replacement.Fits.commit_cases`). -/

namespace RelPlan

open Relation

variable {p : Plan} {root : NodeId} {r : Replacement} {rs rs' : List Replacement} {c c' : Call}

/-! ## What fits -/

namespace Replacement

/-- What a replacement for the root has to be like in order to be taken: it has the shape of the
root, and an existing node its field names too; all inputs of a new node are there. -/
def Fits (p : Plan) (root : NodeId) : Replacement → Prop
  | new n => (∃ rt, p.rowType root = .ok rt ∧ rt.sameShape n.rowType) ∧ ∀ i ∈ n.inputs, i < p.size
  | existing id => ∃ rt, p.rowType root = .ok rt ∧ p.rowType id = .ok rt

/-- The replacement computes with the root, and is not the root itself. -/
def Loops (p : Plan) (root : NodeId) : Replacement → Prop
  | new n => ∃ i ∈ n.inputs, ReflTransGen p.Child (p.resolve i) (p.resolve root)
  | existing id => p.resolve root ≠ p.resolve id ∧
      ReflTransGen p.Child (p.resolve id) (p.resolve root)

theorem Fits.commit_of_loops (h : p.WF) (hfits : r.Fits p root) (hloops : r.Loops p root) :
    (Outcome.replaced root r).commit p = .error (.cycleDetected (p.resolve root)) := by
  cases r with
  | new n =>
    obtain ⟨⟨rt, hrt, hshape⟩, hinputs⟩ := hfits
    obtain ⟨m, hm, rfl⟩ := Plan.rowType_eq_ok_iff.mp hrt
    rw [Outcome.commit,
      h.replaceWith_of_reaches ⟨m, hm, of_decide_eq_true hshape⟩ hinputs hloops, Except.error_bind]
  | existing id =>
    obtain ⟨rt, hrt, hid⟩ := hfits
    obtain ⟨m, hm, rfl⟩ := Plan.rowType_eq_ok_iff.mp hrt
    obtain ⟨n, hn, hnm⟩ := Plan.rowType_eq_ok_iff.mp hid
    obtain ⟨hne, hreach⟩ := hloops
    rw [Outcome.commit, h.replace_of_reaches ⟨m, hm, rfl⟩ ⟨n, hn, congrArg RowType.types hnm⟩ hne
      hreach, Except.error_bind]

theorem Fits.exists_commit (h : p.WF) (hfits : r.Fits p root) (hno : ¬ r.Loops p root) :
    ∃ new q, (Outcome.replaced root r).commit p = .ok (some ⟨root, new⟩, q) := by
  cases r with
  | new n =>
    obtain ⟨⟨rt, hrt, hshape⟩, hinputs⟩ := hfits
    obtain ⟨m, hm, rfl⟩ := Plan.rowType_eq_ok_iff.mp hrt
    have hwrite := (h.replaceWith_eq_ok_iff (a := root) (n := n)).mpr
      ⟨⟨m, hm, of_decide_eq_true hshape⟩, fun i hi => ⟨hinputs i hi, fun hr => hno ⟨i, hi, hr⟩⟩,
        rfl, rfl⟩
    exact ⟨_, _, by rw [Outcome.commit, hwrite]; rfl⟩
  | existing id =>
    obtain ⟨rt, hrt, hid⟩ := hfits
    obtain ⟨m, hm, rfl⟩ := Plan.rowType_eq_ok_iff.mp hrt
    obtain ⟨n, hn, hnm⟩ := Plan.rowType_eq_ok_iff.mp hid
    have hwrite : ∃ q, p.replace root id = .ok q := by
      by_cases heq : p.resolve root = p.resolve id
      · exact ⟨p, h.replace_eq_ok_iff.mpr ⟨_, _, ⟨m, hm, rfl⟩, ⟨n, hn, rfl⟩, .inl ⟨heq, rfl⟩⟩⟩
      · exact ⟨_, h.replace_eq_ok_iff.mpr ⟨_, _, ⟨m, hm, rfl⟩, ⟨n, hn, rfl⟩,
          .inr ⟨heq, by rw [hnm], fun hr => hno ⟨heq, hr⟩, rfl⟩⟩⟩
    obtain ⟨q, hq⟩ := hwrite
    exact ⟨_, _, by rw [Outcome.commit, hq]; rfl⟩

/-- What fits the root can be written in its place, unless it computes with the root. Nothing else
is in the way. -/
theorem Fits.commit_cases (h : p.WF) (hfits : r.Fits p root) :
    ¬ r.Loops p root ∧
        (∃ new q, (Outcome.replaced root r).commit p = .ok (some ⟨root, new⟩, q)) ∨
      r.Loops p root ∧
        (Outcome.replaced root r).commit p = .error (.cycleDetected (p.resolve root)) := by
  by_cases hloops : r.Loops p root
  · exact .inr ⟨hloops, hfits.commit_of_loops h hloops⟩
  · exact .inl ⟨hloops, hfits.exists_commit h hloops⟩

end Replacement

/-! ## Trying to propose -/

namespace Call

/-- `proposeNew` on a call that is changed in place: what is done before a failure is not taken
back. -/
def proposeNewInPlace (n : Node) : EStateM RewriteError Call Unit := do
  ofExcept ((← get).checkProposal n.rowType)
  match n.inputs.find? (!(← get).plan.contains ·) with
  | some missing => throw (.missingInput missing)
  | none => modify ({ · with proposal := some (.new n) })

/-- `proposeExisting` on a call that is changed in place. -/
def proposeExistingInPlace (id : NodeId) : EStateM RewriteError Call Unit := do
  let rt ← ofExcept ((← get).rowType id)
  ofExcept ((← get).checkProposal rt)
  let expected ← ofExcept ((← get).rowType (← get).root)
  if expected = rt then modify ({ · with proposal := some (.existing id) })
  else throw (.rowTypeMismatch expected rt)

/-- `propose` on a call that is changed in place. -/
def proposeInPlace : Replacement → EStateM RewriteError Call Unit
  | .new n => proposeNewInPlace n
  | .existing id => proposeExistingInPlace id

/-- The proposal is set last. -/
theorem run_proposeInPlace (c : Call) (r : Replacement) :
    (proposeInPlace r).run c =
      match c.propose r with
      | .ok c' => .ok () c'
      | .error e => .error e c := by
  cases r with
  | new n =>
    simp only [proposeInPlace, proposeNewInPlace, propose, proposeNew, EStateM.run_bind,
      EStateM.run_get, EStateM.run_ofExcept]
    cases c.checkProposal n.rowType with
    | error => rfl
    | ok =>
      simp only [Except.ok_bind]
      cases n.inputs.find? (!c.plan.contains ·) <;> rfl
  | existing id =>
    simp only [proposeInPlace, proposeExistingInPlace, propose, proposeExisting, EStateM.run_bind,
      EStateM.run_get, EStateM.run_ofExcept]
    cases c.rowType id with
    | error => rfl
    | ok rt =>
      simp only [Except.ok_bind]
      cases c.checkProposal rt with
      | error => rfl
      | ok =>
        simp only [Except.ok_bind]
        cases c.rowType c.root with
        | error => rfl
        | ok expected =>
          simp only [Except.ok_bind]
          split <;> rfl

/-- Tries to make a proposal; gives the answer, and the call as it has become. -/
def offer (c : Call) (r : Replacement) : Except RewriteError Unit × Call :=
  match (proposeInPlace r).run c with
  | .ok () c' => (.ok (), c')
  | .error e c' => (.error e, c')

/-- A call that refuses stays as it is. -/
theorem offer_eq (c : Call) (r : Replacement) :
    c.offer r =
      match c.propose r with
      | .ok c' => (.ok (), c')
      | .error e => (.error e, c) := by
  rw [offer, run_proposeInPlace]
  cases c.propose r <;> rfl

/-- Tries to make proposals in order; gives the answers, and the call after all of them. -/
def offerAll (c : Call) : List Replacement → List (Except RewriteError Unit) × Call
  | [] => ([], c)
  | r :: rs =>
    let (answer, c) := c.offer r
    let (answers, c) := c.offerAll rs
    (answer :: answers, c)

theorem checkProposal_eq_ok_iff {rt : RowType} {u : Unit} : c.checkProposal rt = .ok u ↔
    c.proposal = none ∧ ∃ rt', c.plan.rowType c.root = .ok rt' ∧ rt'.sameShape rt := by
  rw [checkProposal, isTransformed]
  cases c.proposal with
  | some r => simp
  | none =>
    cases hrt : c.plan.rowType c.root with
    | error e => simp [Call.rowType, hrt]
    | ok rt' => by_cases hshape : rt'.sameShape rt <;> simp [Call.rowType, hrt, hshape]

/-- Exactly what fits the root is taken, unless there is a proposal already. -/
theorem propose_eq_ok_iff : c.propose r = .ok c' ↔
    c.proposal = none ∧ r.Fits c.plan c.root ∧ c' = { c with proposal := some r } := by
  cases r with
  | new n =>
    have hfind : n.inputs.find? (!c.plan.contains ·) = none ↔ ∀ i ∈ n.inputs, i < c.plan.size := by
      simp [Plan.contains]
    rw [propose, proposeNew, Except.bind_eq_ok_iff, Replacement.Fits, ← hfind]
    constructor
    · rintro ⟨_, hcheck, hrest⟩
      obtain ⟨hnone, hshape⟩ := checkProposal_eq_ok_iff.mp hcheck
      split at hrest
      · cases hrest
      · rename_i hinputs
        exact ⟨hnone, ⟨hshape, hinputs⟩, (Except.ok.inj hrest).symm⟩
    · rintro ⟨hnone, ⟨hshape, hinputs⟩, rfl⟩
      exact ⟨(), checkProposal_eq_ok_iff.mpr ⟨hnone, hshape⟩, by rw [hinputs]; rfl⟩
  | existing id =>
    have hrowType {a rt} : c.rowType a = .ok rt ↔ c.plan.rowType a = .ok rt :=
      Except.mapError_eq_ok_iff
    simp only [propose, proposeExisting, Except.bind_eq_ok_iff, hrowType, checkProposal_eq_ok_iff]
    constructor
    · rintro ⟨rt, hrt, -, ⟨hnone, -⟩, rt', hrt', hrest⟩
      split at hrest
      · rename_i heq
        exact ⟨hnone, ⟨rt', hrt', heq ▸ hrt⟩, (Except.ok.inj hrest).symm⟩
      · cases hrest
    · rintro ⟨hnone, ⟨rt, hroot, hrt⟩, rfl⟩
      exact ⟨rt, hrt, (), ⟨hnone, rt, hroot, by simp [RowType.sameShape]⟩, rt, hroot, by simp⟩

theorem offer_of_fits (hc : c.proposal = none) (hfits : r.Fits c.plan c.root) :
    c.offer r = (.ok (), { c with proposal := some r }) := by
  rw [offer_eq, propose_eq_ok_iff.mpr ⟨hc, hfits, rfl⟩]

theorem offer_of_refused (h : c.proposal ≠ none ∨ ¬ r.Fits c.plan c.root) :
    ∃ e, c.offer r = (.error e, c) := by
  cases hr : c.propose r with
  | error e => exact ⟨e, by rw [offer_eq, hr]⟩
  | ok c' =>
    obtain ⟨hnone, hfits, -⟩ := propose_eq_ok_iff.mp hr
    exact absurd h (by simp [hnone, hfits])

theorem offerAll_refused (h : ∀ r ∈ rs, c.proposal ≠ none ∨ ¬ r.Fits c.plan c.root) :
    .ok () ∉ (c.offerAll rs).1 ∧ (c.offerAll rs).2 = c := by
  induction rs with
  | nil => exact ⟨List.not_mem_nil, rfl⟩
  | cons r rs ih =>
    obtain ⟨hr, hrs⟩ := List.forall_mem_cons.mp h
    obtain ⟨e, he⟩ := offer_of_refused hr
    obtain ⟨hno, hsame⟩ := ih hrs
    rw [offerAll, he]
    exact ⟨by simpa using hno, hsame⟩

theorem offerAll_append : c.offerAll (rs ++ rs') =
    ((c.offerAll rs).1 ++ ((c.offerAll rs).2.offerAll rs').1,
      ((c.offerAll rs).2.offerAll rs').2) := by
  induction rs generalizing c with
  | nil => rfl
  | cons r rs ih => simp only [List.cons_append, offerAll, ih]

@[simp] theorem length_offerAll : (c.offerAll rs).1.length = rs.length := by
  induction rs generalizing c with
  | nil => rfl
  | cons r rs ih => simp [offerAll, ih]

theorem offerAll_cons : c.offerAll (r :: rs) =
    ((c.offer r).1 :: ((c.offer r).2.offerAll rs).1, ((c.offer r).2.offerAll rs).2) := rfl

/-- A refused attempt leaves the call as it is. -/
theorem offerAll_take_of_error (h : (c.offerAll rs).1[k]? = some (.error e)) :
    (c.offerAll (rs.take (k + 1))).2 = (c.offerAll (rs.take k)).2 := by
  have hk : k < rs.length := by
    rw [← c.length_offerAll]
    exact (List.getElem?_eq_some_iff.mp h).1
  have hlength : k = (c.offerAll (rs.take k)).1.length := by
    rw [length_offerAll, List.length_take, Nat.min_eq_left (Nat.le_of_lt hk)]
  rw [← List.take_append_drop k rs, List.drop_eq_getElem_cons hk, offerAll_append] at h
  rw [List.getElem?_append_right (Nat.le_of_eq hlength.symm), ← hlength, Nat.sub_self,
    offerAll_cons, List.getElem?_cons_zero] at h
  rw [List.take_succ_eq_append_getElem hk, offerAll_append, offerAll_cons]
  -- What is left to show is about the one attempt only.
  generalize (c.offerAll (rs.take k)).2 = last at h ⊢
  rw [offer_eq] at h ⊢
  split at h
  · cases h
  · rfl

/-- A call refuses what a rule tries to propose up to the first thing that fits the root, takes that
and refuses everything after it. What it refuses leaves it as it is, although it is changed in
place. The outcome is what has been taken, and the only thing that can be in the way of writing that
into the plan is a cycle. -/
theorem single_use (h : c.plan.WF) (hc : c.proposal = none) (rs : List Replacement) :
    (c.offerAll rs).1.length = rs.length ∧
    (∀ k e, (c.offerAll rs).1[k]? = some (.error e) →
      (c.offerAll (rs.take (k + 1))).2 = (c.offerAll (rs.take k)).2) ∧
    ((∀ r ∈ rs, ¬ r.Fits c.plan c.root) ∧ .ok () ∉ (c.offerAll rs).1 ∧
        (c.offerAll rs).2.outcome = .declined ∨
      ∃ before r after refused refused', rs = before ++ r :: after ∧
        (∀ r' ∈ before, ¬ r'.Fits c.plan c.root) ∧ r.Fits c.plan c.root ∧
        (c.offerAll rs).1 = refused ++ .ok () :: refused' ∧ refused.length = before.length ∧
        .ok () ∉ refused ∧ .ok () ∉ refused' ∧
        (c.offerAll rs).2.outcome = .replaced c.root r ∧
        ((∃ new q, (c.offerAll rs).2.outcome.commit c.plan = .ok (some ⟨c.root, new⟩, q)) ∨
          (c.offerAll rs).2.outcome.commit c.plan =
            .error (.cycleDetected (c.plan.resolve c.root)))) := by
  refine ⟨length_offerAll, fun k e => offerAll_take_of_error, ?_⟩
  classical
  cases hfind : rs.find? (·.Fits c.plan c.root) with
  | none =>
    have hno : ∀ r ∈ rs, ¬ r.Fits c.plan c.root := fun r hr hfits =>
      List.find?_eq_none.mp hfind r hr (decide_eq_true hfits)
    obtain ⟨hrefused, hsame⟩ := offerAll_refused fun r hr => .inr (hno r hr)
    exact .inl ⟨hno, hrefused, by rw [hsame, outcome, hc]⟩
  | some r =>
    obtain ⟨hfits, before, after, rfl, hbefore⟩ := List.find?_eq_some_iff_append.mp hfind
    have hfits := of_decide_eq_true hfits
    have hno : ∀ r' ∈ before, ¬ r'.Fits c.plan c.root := fun r' hr' => by
      simpa using hbefore r' hr'
    obtain ⟨hrefused, hsame⟩ := offerAll_refused fun r' hr' => .inr (hno r' hr')
    have htaken : ∀ r' ∈ after, some r ≠ none ∨ ¬ r'.Fits c.plan c.root := fun _ _ => .inl nofun
    obtain ⟨hrefused', hsame'⟩ := offerAll_refused (c := { c with proposal := some r }) htaken
    have hall : c.offerAll (before ++ r :: after) = ((c.offerAll before).1 ++ .ok () ::
        (offerAll { c with proposal := some r } after).1, { c with proposal := some r }) := by
      rw [offerAll_append, hsame, offerAll_cons, offer_of_fits hc hfits, hsame']
    refine .inr ⟨before, r, after, _, _, rfl, hno, hfits, congrArg Prod.fst hall, length_offerAll,
      hrefused, hrefused', ?_, ?_⟩
    · rw [hall]
      rfl
    · rw [hall]
      exact (hfits.commit_cases h).imp And.right And.right

/-- A match of a filter over a scan. -/
def filtering : Call where
  plan := .positives
  rule := "Try"
  matched := ⟨1, [0]⟩

/-- The filter on top of itself. -/
def doubled : Replacement :=
  .new (.filter 1 (.binary (.input 0) .gt (.literal (.int 0))) [⟨"a", .int⟩, ⟨"b", .float⟩])

/-- A node that is not there, one of another shape, one with an input that is not there, one that
computes with the filter, and the scan, which would do. -/
def attempts : List Replacement :=
  [.existing 7, .new (.scan "u" [⟨"a", .int⟩]),
    .new (.filter 9 (.literal (.bool true)) [⟨"a", .int⟩, ⟨"b", .float⟩]), doubled, .existing 0]

/-- What is taken is the filter on top of itself, and that cannot be written. -/
theorem single_use_doubled :
    (filtering.offerAll attempts).1.map Except.toOption = [none, none, none, some (), none] ∧
    (filtering.offerAll (attempts.take 5)).2 = (filtering.offerAll (attempts.take 4)).2 ∧
    doubled.Fits .positives 1 ∧ (filtering.offerAll attempts).2.outcome = .replaced 1 doubled ∧
    (filtering.offerAll attempts).2.outcome.commit .positives = .error (.cycleDetected 1) := by
  have hanswers : (filtering.offerAll attempts).1.map Except.toOption =
      [none, none, none, some (), none] := by decide +kernel
  have hlast : (filtering.offerAll attempts).1[4]? =
      some (.error (.alreadyTransformed "Try")) := by decide +kernel
  have houtcome : (filtering.offerAll attempts).2.outcome = .replaced 1 doubled := by
    decide +kernel
  obtain ⟨-, hstate, hcases⟩ :=
    single_use (c := filtering) Rewriter.positives_edited.wf rfl attempts
  have hfits : doubled.Fits .positives 1 := by
    rcases hcases with ⟨-, -, hdeclined⟩ | ⟨_, r, _, _, _, -, -, hfits, -, -, -, -, hreplaced, -⟩
    · cases houtcome.symm.trans hdeclined
    · cases houtcome.symm.trans hreplaced
      exact hfits
  refine ⟨hanswers, hstate 4 _ hlast, hfits, houtcome, ?_⟩
  rw [houtcome]
  decide +kernel

end Call
end RelPlan
