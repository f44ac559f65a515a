import RelPlan.Proofs.Plan.Replacement

/-! # Replacing is all or nothing

A replacement is let through exactly if it is safe: what is to stand for a node is there, has its
shape and does not compute with it (`Plan.Replaceable`, `Plan.ReplaceableBy`). Then one unreplaced
slot gets a forward, and nothing else that was there changes (`Plan.HandsOver`). All checks come
before the first change, so a refused replacement leaves the plan as it was even where it is changed
in place (`Plan.run_replaceInPlace`, `Plan.run_replaceWithInPlace`). -/

namespace RelPlan
namespace Plan

open Relation

/-! ## Safe replacements -/

/-- Both ids name slots, and the second one stands for the same node as the first one, or for a node
of the same shape that does not compute with it. -/
def Replaceable (p : Plan) (old new : NodeId) : Prop :=
  old < p.size ∧ new < p.size ∧ (p.resolve old = p.resolve new ∨
    (∃ rt rt', p.rowType old = .ok rt ∧ p.rowType new = .ok rt' ∧ rt.sameShape rt') ∧
      ¬ ReflTransGen p.Child (p.resolve new) (p.resolve old))

/-- The id names a slot whose node has the shape of the new one, and the inputs of the new node name
slots that do not compute with it. -/
def ReplaceableBy (p : Plan) (old : NodeId) (n : Node) : Prop :=
  old < p.size ∧ (∃ rt, p.rowType old = .ok rt ∧ rt.sameShape n.rowType) ∧
    ∀ i ∈ n.inputs, i < p.size ∧ ¬ ReflTransGen p.Child (p.resolve i) (p.resolve old)

/-- What resolved to the same slot as `old` resolves to `new`, whatever else resolves as it did, and
the forwards and nodes that were there are there. -/
structure HandsOver (p q : Plan) (old new : NodeId) : Prop where
  resolve_old : ∀ a, p.resolve a = p.resolve old → q.resolve a = new
  resolve_other : ∀ a, p.resolve a ≠ p.resolve old → q.resolve a = p.resolve a
  forward : ∀ a b, p.forward? a = some b → q.forward? a = some b
  rawNode : ∀ a < p.size, q.rawNode a = p.rawNode a

variable {p q : Plan} {a old new : NodeId} {n : Node}

theorem hasTypes_iff_sameShape {rt : RowType} :
    p.HasTypes a rt.types ↔ ∃ rt', p.rowType a = .ok rt' ∧ rt'.sameShape rt := by
  constructor
  · intro ha
    obtain ⟨rt', hrt', hts⟩ := ha.exists_rowType
    exact ⟨rt', hrt', decide_eq_true hts⟩
  · rintro ⟨rt', hrt', hshape⟩
    have hts : rt'.types = rt.types := of_decide_eq_true hshape
    exact hts ▸ hasTypes_of_rowType hrt'

theorem sameShapes_iff_hasTypes :
    (∃ rt rt', p.rowType old = .ok rt ∧ p.rowType new = .ok rt' ∧ rt.sameShape rt') ↔
      ∃ ts, p.HasTypes old ts ∧ p.HasTypes new ts := by
  constructor
  · rintro ⟨rt, rt', hold, hnew, hshape⟩
    exact ⟨_, hasTypes_iff_sameShape.mpr ⟨rt, hold, hshape⟩, hasTypes_of_rowType hnew⟩
  · rintro ⟨ts, hold, hnew⟩
    obtain ⟨rt', hrt', rfl⟩ := hnew.exists_rowType
    obtain ⟨rt, hrt, hshape⟩ := hasTypes_iff_sameShape.mp hold
    exact ⟨rt, rt', hrt, hrt', hshape⟩

theorem WF.exists_replace_iff (h : p.WF) :
    (∃ q, p.replace old new = .ok q) ↔ p.Replaceable old new := by
  simp only [h.replace_eq_ok_iff, Replaceable, sameShapes_iff_hasTypes]
  constructor
  · rintro ⟨_, ts, us, hold, hnew, ⟨heq, -⟩ | ⟨-, rfl, hback, -⟩⟩
    · exact ⟨hold.lt_size, hnew.lt_size, .inl heq⟩
    · exact ⟨hold.lt_size, hnew.lt_size, .inr ⟨⟨ts, hold, hnew⟩, hback⟩⟩
  · rintro ⟨hold, hnew, heq | ⟨⟨ts, hts, hts'⟩, hback⟩⟩
    · obtain ⟨ts, hts⟩ := h.exists_hasTypes hold
      obtain ⟨us, hus⟩ := h.exists_hasTypes hnew
      exact ⟨p, ts, us, hts, hus, .inl ⟨heq, rfl⟩⟩
    · refine ⟨_, ts, ts, hts, hts', .inr ⟨fun heq => ?_, rfl, hback, rfl⟩⟩
      exact hback (heq ▸ .refl)

theorem WF.exists_replaceWith_iff (h : p.WF) :
    (∃ new q, p.replaceWith old n = .ok (new, q)) ↔ p.ReplaceableBy old n := by
  simp only [h.replaceWith_eq_ok_iff, ReplaceableBy, ← hasTypes_iff_sameShape]
  constructor
  · rintro ⟨_, _, hold, hinputs, -, -⟩
    exact ⟨hold.lt_size, hold, hinputs⟩
  · rintro ⟨-, hold, hinputs⟩
    exact ⟨_, _, hold, hinputs, rfl, rfl⟩

/-- Ids that named no slot are not affected, be it that the new node has been given one of them. -/
theorem Replaced.handsOver (h : p.WF) (hr : p.Replaced q old new) (hold : old < p.size)
    (hadded : ∀ a, p.size ≤ a → a < q.size → a = new) : p.HandsOver q old new where
  resolve_old a ha :=
    hr.redirects.resolve_old (lt_size_of_resolve (ha ▸ h.resolve_lt hold)) ha
  resolve_other a ha := by
    by_cases hlt : a < p.size
    · exact hr.redirects.resolve_other hlt ha
    · have hle := Nat.le_of_not_lt hlt
      rw [resolve_of_forward?_eq_none (forward?_of_size_le hle)]
      by_cases hlt' : a < q.size
      · rw [hadded a hle hlt', hr.redirects.resolve_new hr.wf hold rfl]
      · exact resolve_of_forward?_eq_none (forward?_of_size_le (Nat.le_of_not_lt hlt'))
  forward := hr.forward
  rawNode := hr.rawNode

/-! ## Changes in place -/

/-- `replace` on a plan that is changed in place: what is done before a failure is not taken back. -/
def replaceInPlace (old new : NodeId) : EStateM PlanError Plan Unit := do
  let old := (← get).resolve old
  let new := (← get).resolve new
  let oldType ← ofExcept ((← get).rowType old)
  let newType ← ofExcept ((← get).rowType new)
  if old = new then return ()
  else if !oldType.sameShape newType then throw (.rowTypeMismatch oldType newType)
  else if old ∈ (← ofExcept ((← get).reachable new)) then throw (.cycleDetected old)
  else modify (·.setForward old new)

/-- `replaceWith` on a plan that is changed in place. -/
def replaceWithInPlace (old : NodeId) (n : Node) : EStateM PlanError Plan NodeId := do
  let old := (← get).resolve old
  let oldType ← ofExcept ((← get).rowType old)
  if !oldType.sameShape n.rowType then throw (.rowTypeMismatch oldType n.rowType)
  else
    n.inputs.forM fun i => do ofExcept ((← get).checkInput old i)
    let new ← modifyGet (·.add n)
    modify (·.setForward old new)
    return new

/-- The one change is the last step. -/
theorem run_replaceInPlace (p : Plan) (old new : NodeId) :
    (replaceInPlace old new).run p =
      match p.replace old new with
      | .ok q => .ok () q
      | .error e => .error e p := by
  simp only [replaceInPlace, replace, EStateM.run_bind, EStateM.run_get, EStateM.run_ofExcept]
  cases p.rowType (p.resolve old) with
  | error => rfl
  | ok oldType =>
    simp only [Except.ok_bind]
    cases p.rowType (p.resolve new) with
    | error => rfl
    | ok newType =>
      simp only [Except.ok_bind]
      split
      case isTrue => rfl
      split
      case isTrue => rfl
      simp only [EStateM.run_bind, EStateM.run_get, EStateM.run_ofExcept]
      cases p.reachable (p.resolve new) with
      | error => rfl
      | ok ids =>
        simp only [Except.ok_bind]
        split <;> rfl

/-- Checking inputs changes nothing. -/
theorem run_forM_checkInput (p : Plan) (old : NodeId) (is : List NodeId) :
    EStateM.run (is.forM fun i => do ofExcept ((← get).checkInput old i)) p =
      match is.forM (p.checkInput old) with
      | .ok () => .ok () p
      | .error e => .error e p := by
  induction is with
  | nil => rfl
  | cons i is ih =>
    simp only [List.forM, EStateM.run_bind, EStateM.run_get, EStateM.run_ofExcept]
    cases p.checkInput old i with
    | error => rfl
    | ok => exact ih

/-- All that can fail comes before the node is added. -/
theorem run_replaceWithInPlace (p : Plan) (old : NodeId) (n : Node) :
    (replaceWithInPlace old n).run p =
      match p.replaceWith old n with
      | .ok (new, q) => .ok new q
      | .error e => .error e p := by
  simp only [replaceWithInPlace, replaceWith, EStateM.run_bind, EStateM.run_get,
    EStateM.run_ofExcept]
  cases p.rowType (p.resolve old) with
  | error => rfl
  | ok oldType =>
    simp only [Except.ok_bind]
    split
    case isTrue => rfl
    simp only [EStateM.run_bind, run_forM_checkInput]
    cases n.inputs.forM (p.checkInput (p.resolve old)) with
    | error => rfl
    | ok => rfl

/-! ## Exactness -/

/-- Replacing is exact and all or nothing. A node of the plan is let through exactly if it is a safe
replacement, and so is a new node; what resolved to the old slot then resolves to the replacement, all
else resolves as before, and no forward and no node is overwritten. A refusal changes nothing, although
the plan is changed in place. -/
theorem WF.replacement_exact (h : p.WF) (old : NodeId) :
    (∀ new,
      ((∃ q, p.replace old new = .ok q) ↔ p.Replaceable old new) ∧
      (∀ q, p.replace old new = .ok q →
        p.HandsOver q old (p.resolve new) ∧ q.size = p.size) ∧
      (∀ q, (replaceInPlace old new).run p = .ok () q ↔ p.replace old new = .ok q) ∧
      ∀ e q, (replaceInPlace old new).run p = .error e q → q = p) ∧
    ∀ n,
      ((∃ new q, p.replaceWith old n = .ok (new, q)) ↔ p.ReplaceableBy old n) ∧
      (∀ new q, p.replaceWith old n = .ok (new, q) →
        p.HandsOver q old new ∧ new = p.size ∧ q.size = p.size + 1 ∧ q.rawNode new = .ok n) ∧
      (∀ new q, (replaceWithInPlace old n).run p = .ok new q ↔ p.replaceWith old n = .ok (new, q)) ∧
      ∀ e q, (replaceWithInPlace old n).run p = .error e q → q = p := by
  constructor
  · intro new
    refine ⟨h.exists_replace_iff, fun q hq => ?_, fun q => ?_, fun e q hrun => ?_⟩
    · obtain ⟨hr, hsize⟩ := h.replace_replaced hq
      obtain ⟨hold, -⟩ := h.exists_replace_iff.mp ⟨q, hq⟩
      refine ⟨hr.handsOver h hold fun a hle hlt => ?_, hsize⟩
      omega
    · rw [run_replaceInPlace]
      cases p.replace old new <;> simp
    · rw [run_replaceInPlace] at hrun
      cases hq : p.replace old new with
      | ok => rw [hq] at hrun; cases hrun
      | error => rw [hq] at hrun; cases hrun; rfl
  · intro n
    refine ⟨h.exists_replaceWith_iff, fun new q hq => ?_, fun new q => ?_, fun e q hrun => ?_⟩
    · obtain ⟨hr, rfl, hsize, hn⟩ := h.replaceWith_replaced hq
      obtain ⟨hold, -⟩ := h.exists_replaceWith_iff.mp ⟨_, q, hq⟩
      rw [node, hr.redirects.resolve_new hr.wf hold rfl] at hn
      refine ⟨hr.handsOver h hold fun a hle hlt => ?_, rfl, hsize, hn⟩
      omega
    · rw [run_replaceWithInPlace]
      cases p.replaceWith old n <;> simp [Prod.ext_iff]
    · rw [run_replaceWithInPlace] at hrun
      cases hq : p.replaceWith old n with
      | ok => rw [hq] at hrun; cases hrun
      | error => rw [hq] at hrun; cases hrun; rfl

/-- A replaced projection gives way to a scan by way of stale ids of both, and its forward stays. A
replacement is refused because the filter computes with the scan, and a new node because its input is
the slot that it would get itself. -/
theorem replacement_exact_shuffled : shuffled.WF ∧
    (∃ q, shuffled.replace 2 0 = .ok q ∧ q.resolve 2 = 3 ∧ q.resolve 1 = 3 ∧
      q.forward? 2 = some 1) ∧
    (∃ e, (replaceInPlace 0 2).run shuffled = .error e shuffled) ∧
    ∃ e, (replaceWithInPlace 2 (.project 4 [.input 0] [⟨"d", .int⟩])).run shuffled =
      .error e shuffled := by
  have hwf := shuffled_edited.wf
  obtain ⟨hreplace, hadd⟩ := hwf.replacement_exact 2
  obtain ⟨hrefuse, -⟩ := hwf.replacement_exact 0
  refine ⟨hwf, ?_, ?_, ?_⟩
  · obtain ⟨-, hdone, -⟩ := hreplace 0
    obtain ⟨q, hq⟩ : ∃ q, shuffled.replace 2 0 = .ok q := ⟨shuffled.setForward 1 3, by decide +kernel⟩
    obtain ⟨hover, -⟩ := hdone q hq
    exact ⟨q, hq, hover.resolve_old 2 rfl, hover.resolve_old 1 rfl, hover.forward 2 1 rfl⟩
  · obtain ⟨-, -, hok, herror⟩ := hrefuse 2
    cases hrun : (replaceInPlace 0 2).run shuffled with
    | ok _ q =>
      have hq : shuffled.replace 0 2 = .ok q := (hok q).mp hrun
      cases (show shuffled.replace 0 2 = .error (.cycleDetected 3) by decide +kernel).symm.trans hq
    | error e q => exact ⟨e, by rw [herror e q hrun]⟩
  · obtain ⟨hiff, -, hok, herror⟩ := hadd (.project 4 [.input 0] [⟨"d", .int⟩])
    cases hrun : (replaceWithInPlace 2 (.project 4 [.input 0] [⟨"d", .int⟩])).run shuffled with
    | ok new q =>
      obtain ⟨-, -, hinputs⟩ := hiff.mp ⟨new, q, (hok new q).mp hrun⟩
      exact absurd (hinputs 4 (by simp [Node.inputs])).1 (by decide)
    | error e q => exact ⟨e, by rw [herror e q hrun]⟩

end Plan
end RelPlan
