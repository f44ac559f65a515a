import RelPlan.Proofs.Plan.Evaluation
import RelPlan.Rewrite.Pattern

/-! # Edited plans

A plan may be edited by adding nodes over those that it has, and by trying to replace any node by
any other one, of whatever origin and type. However often this is done, and whichever attempts are
refused, forwards come to an end, no node computes with itself, and all that goes down the plan
terminates (`Plan.Edited.isAcyclic`). -/

namespace RelPlan

/-! ## Binding patterns -/

namespace Pattern

mutual

/-- `bindBelow` with no more than so many forwards followed at a time. -/
def bindBelowWithin (plan : Plan) (steps : Nat) : Pattern → NodeId → Option (List NodeId)
  | node test inputs, id =>
    match plan.rawNode (plan.follow steps id) with
    | .ok n =>
      if test.admits n.kind then
        bindInputsWithin plan steps inputs (n.inputs.map (plan.follow steps))
      else none
    | .error _ => none

def bindInputsWithin (plan : Plan) (steps : Nat) : List Pattern → List NodeId →
    Option (List NodeId)
  | [], _ => some []
  | _ :: _, [] => none
  | p :: ps, id :: ids => do
    let below ← bindBelowWithin plan steps p id
    let rest ← bindInputsWithin plan steps ps ids
    return id :: below ++ rest

end

/-- `bind` with no more than so many forwards followed at a time. -/
def bindWithin (plan : Plan) (steps : Nat) (p : Pattern) (id : NodeId) : Option Match :=
  let root := plan.follow steps id
  (p.bindBelowWithin plan steps root).map (Match.mk root)

variable {plan : Plan}

mutual

theorem bindBelowWithin_eq (h : plan.follow steps = plan.resolve) : ∀ (p : Pattern) (id : NodeId),
    p.bindBelowWithin plan steps id = p.bindBelow plan id
  | .node test inputs, id => by
    rw [bindBelowWithin, bindBelow, Plan.node, h]
    cases plan.rawNode (plan.resolve id) with
    | error => rfl
    | ok n => simp only [bindInputsWithin_eq h inputs]

theorem bindInputsWithin_eq (h : plan.follow steps = plan.resolve) :
    ∀ (ps : List Pattern) (ids : List NodeId),
      bindInputsWithin plan steps ps ids = bindInputs plan ps ids
  | [], _ => by simp only [bindInputsWithin, bindInputs]
  | _ :: _, [] => by simp only [bindInputsWithin, bindInputs]
  | p :: ps, id :: ids => by
    simp only [bindInputsWithin, bindInputs, bindBelowWithin_eq h p, bindInputsWithin_eq h ps]

end

theorem bindWithin_eq (h : plan.follow steps = plan.resolve) (p : Pattern) (id : NodeId) :
    p.bindWithin plan steps id = p.bind plan id := by
  simp only [bindWithin, bind, h, bindBelowWithin_eq h]

end Pattern

namespace Plan

open Relation

variable {p q : Plan} {a b old new : NodeId} {n : Node}

/-! ## Acyclic plans -/

/-- Forwards come to an end, no node computes with itself, and no recursion down the plan meets its
bound, wherever it starts. -/
structure Acyclic (p : Plan) : Prop where
  forwards : WellFounded fun b a => p.forward? a = some b
  /-- `resolve` finds the end. -/
  follows : ∀ a, ReflTransGen (fun b c => p.forward? b = some c) a (p.resolve a)
  resolved : ∀ a, p.isReplaced (p.resolve a) = false
  exists_resolved : ∀ a < p.size, p.resolve a < p.size
  child : ∀ a, ¬ TransGen p.Child a a
  reachable : ∀ root, p.Terminates .cycleDetected (p.visit · ⟨[], []⟩ (p.resolve root))
  explain : ∀ root, p.Terminates .cycleDetected (p.explainWithin · 0 (p.resolve root))
  bind : ∀ (pattern : Pattern) root steps, p.size ≤ steps →
    pattern.bindWithin p steps root = pattern.bind p root
  evaluate : ∀ tables root,
    p.Terminates (fun id => .plan (.cycleDetected id)) (p.evaluateWithin tables · root)

theorem WF.toAcyclic (h : p.WF) : p.Acyclic where
  forwards := Subrelation.wf (fun hab => h.height_lt (.forward hab)) (measure p.height).wf
  follows := p.follow_forwards p.size
  resolved a := isReplaced_eq_false_iff.mpr (h.forward?_resolve a)
  exists_resolved _ := h.resolve_lt
  child _ haa := Nat.lt_irrefl _ (h.height_lt_of_child haa)
  reachable _ := p.visit_terminates _
  explain root _ _ hd hd' :=
    h.explainWithin_agrees (height_lt_of_depth_le hd _) (height_lt_of_depth_le hd' _) _
  bind pattern root steps hs := by
    refine pattern.bindWithin_eq ?_ root
    funext a
    exact h.follow_eq (Nat.le_trans (p.height_le a) hs) (p.height_le a)
  evaluate tables root _ _ hd hd' :=
    h.evaluateWithin_agrees (height_lt_of_depth_le hd _) (height_lt_of_depth_le hd' _)

/-! ## Edits -/

inductive Edit where
  | add (n : Node)
  | replace (old new : NodeId)
  | replaceWith (old : NodeId) (n : Node)

namespace Edit

def run (p : Plan) : Edit → Except PlanError Plan
  | add n => .ok (p.add n).2
  | replace old new => p.replace old new
  | replaceWith old n => return (← p.replaceWith old n).2

/-- The plan after the edit, which is the same plan if the edit is refused. -/
def apply (p : Plan) (e : Edit) : Plan :=
  match e.run p with
  | .ok q => q
  | .error _ => p

/-- A node that is added computes with nodes of the plan. Replacements are not restricted. -/
def Admissible (p : Plan) : Edit → Prop
  | add n => ∀ i ∈ n.inputs, i < p.size
  | replace .. | replaceWith .. => True

instance (p : Plan) : (e : Edit) → Decidable (e.Admissible p)
  | add n => inferInstanceAs (Decidable (∀ i ∈ n.inputs, i < p.size))
  | replace .. | replaceWith .. => inferInstanceAs (Decidable True)

end Edit

/-- The plan comes from the empty one by admissible edits, some of which may have been refused. -/
inductive Edited : Plan → Prop where
  | empty : Edited empty
  | edit {p : Plan} {e : Edit} : Edited p → e.Admissible p → Edited (e.apply p)

/-- No edit leads back. -/
theorem WF.edit {e : Edit} (h : p.WF) (he : e.Admissible p) : (e.apply p).WF := by
  unfold Edit.apply
  split
  · rename_i q hq
    cases e with
    | add n =>
      obtain rfl := Except.ok.inj hq
      exact h.add he
    | replace old new => exact h.replace hq
    | replaceWith old n =>
      obtain ⟨⟨new, q'⟩, hq', hout⟩ := Except.bind_eq_ok_iff.mp hq
      obtain rfl := Except.ok.inj hout
      exact h.replaceWith hq'
  · exact h

theorem Edited.wf (h : p.Edited) : p.WF := by
  induction h with
  | empty => exact good_empty.wf
  | edit _ he ih => exact ih.edit he

/-- A plan stays acyclic, whatever edits are tried. -/
theorem Edited.isAcyclic (h : p.Edited) : p.Acyclic := h.wf.toAcyclic

/-- A projection that forwards to the filter below it, which reads a scan that forwards to a later
one. -/
def shuffled : Plan where
  slots := [
    ⟨.scan "t" [⟨"a", .int⟩], some 3⟩,
    ⟨.filter 0 (.unary .isNull (.input 0)) [⟨"a", .int⟩], none⟩,
    ⟨.project 1 [.input 0] [⟨"b", .int⟩], some 1⟩,
    ⟨.scan "u" [⟨"c", .int⟩], none⟩]

/-- Two attempts that would have led back, and one with an input that is not there, leave no
trace. -/
theorem shuffled_edited : shuffled.Edited :=
  Edited.empty.edit (e := .add (.scan "t" [⟨"a", .int⟩])) (by decide)
    |>.edit (e := .add (.filter 0 (.unary .isNull (.input 0)) [⟨"a", .int⟩])) (by decide)
    |>.edit (e := .add (.project 1 [.input 0] [⟨"b", .int⟩])) (by decide)
    |>.edit (e := .replace 0 2) trivial
    |>.edit (e := .replaceWith 0 (.project 2 [.input 0] [⟨"b", .int⟩])) trivial
    |>.edit (e := .replaceWith 1 (.project 9 [.input 0] [⟨"b", .int⟩])) trivial
    |>.edit (e := .replaceWith 0 (.scan "u" [⟨"c", .int⟩])) trivial
    |>.edit (e := .replace 2 1) trivial

theorem shuffled_isAcyclic : shuffled.Acyclic ∧
    shuffled.resolve 0 = 3 ∧ shuffled.resolve 2 = 1 ∧
      shuffled.replace 0 2 = .error (.cycleDetected 3) :=
  ⟨shuffled_edited.isAcyclic, by decide +kernel⟩

end Plan
end RelPlan
