import RelPlan.Proofs.Plan.Forwarding
import RelPlan.Proofs.Plan.Soundness

/-! # Bottom-up orders

In a well-formed plan the traversal lists all that the root computes with, each node once, after its
inputs and the root last. Whatever the plan is, it comes to an end where forwards do, since each
level of the recursion meets one more slot (`Plan.reachable_postOrder`). -/

namespace RelPlan
namespace Plan

open Relation

/-- The ids are those of the nodes that the root computes with, bottom-up. -/
structure PostOrder (p : Plan) (root : NodeId) (ids : List NodeId) : Prop where
  mem_iff : ∀ x, x ∈ ids ↔ ReflTransGen p.Child (p.resolve root) x
  nodup : ids.Nodup
  unreplaced : ∀ x ∈ ids, p.isReplaced x = false
  inputs_before : ∀ before x after, ids = before ++ x :: after → ∀ c, p.Child x c → c ∈ before
  last : ids.getLast? = some (p.resolve root)

/-- From every id the forwards lead to an end. -/
def ForwardsEnd (p : Plan) : Prop :=
  ∀ a, ∃ b, ReflTransGen (fun b c => p.forward? b = some c) a b ∧ p.forward? b = none

variable {p : Plan} {a b root : NodeId} {ids ids' : List NodeId}

/-! ## Ids in order -/

theorem Ordered.of_append (h : p.Ordered (ids' ++ ids)) : p.Ordered ids := by
  induction ids' with
  | nil => exact h
  | cons id ids' ih =>
    cases h with
    | cons _ _ _ _ h => exact ih h

theorem Ordered.nodup (h : p.Ordered ids) : ids.Nodup := by
  induction h with
  | nil => exact .nil
  | cons _ _ hid _ _ ih => exact List.nodup_cons.mpr ⟨hid, ih⟩

theorem Ordered.forward?_eq_none (h : p.Ordered ids) (ha : a ∈ ids) : p.forward? a = none := by
  induction h with
  | nil => cases ha
  | cons _ hf _ _ _ ih =>
    rcases List.mem_cons.mp ha with rfl | ha
    · exact hf
    · exact ih ha

theorem Ordered.postOrder (h : p.Ordered ids.reverse)
    (hmem : ∀ x, x ∈ ids ↔ ReflTransGen p.Child (p.resolve root) x) : p.PostOrder root ids where
  mem_iff := hmem
  nodup := List.nodup_reverse.mp h.nodup
  unreplaced x hx := isReplaced_eq_false_iff.mpr (h.forward?_eq_none (List.mem_reverse.mpr hx))
  inputs_before := by
    rintro before x after rfl c hc
    rw [List.reverse_append, List.reverse_cons, List.append_assoc] at h
    cases h.of_append with
    | cons _ _ _ hcs => exact List.mem_reverse.mp (hcs c hc)
  last := by
    have hroot : p.resolve root ∈ ids.reverse := List.mem_reverse.mpr ((hmem _).mpr .refl)
    rw [← List.head?_reverse]
    cases hrev : ids.reverse with
    | nil =>
      rw [hrev] at hroot
      cases hroot
    | cons x rest =>
      rw [hrev] at h hroot
      cases h with
      | cons _ _ hx _ hrest =>
        -- Otherwise the root would come earlier, with all that it computes with, `x` included.
        refine congrArg some (Eq.symm ?_)
        refine (List.mem_cons.mp hroot).resolve_right fun hroot => hx (hrest.reached_mem hroot ?_)
        refine (hmem x).mp (List.mem_reverse.mp ?_)
        rw [hrev]
        exact List.mem_cons_self

/-! ## Where forwards end -/

theorem ForwardsEnd.wellFounded (h : p.ForwardsEnd) :
    WellFounded fun b a => p.forward? a = some b := by
  refine ⟨fun a => ?_⟩
  obtain ⟨b, hab, hb⟩ := h a
  induction hab using ReflTransGen.head_induction_on with
  | refl => exact ⟨_, fun c hc => nomatch hb.symm.trans hc⟩
  | head hac _ ih => exact ⟨_, fun c hc => Option.some.inj (hac.symm.trans hc) ▸ ih⟩

theorem Descends.forwardsEnd (h : p.Descends) : p.ForwardsEnd :=
  fun a => ⟨p.resolve a, p.follow_forwards _ a, h.forward?_resolve a⟩

/-- The replaced slots on the way give the level. -/
theorem ForwardsEnd.descends (h : p.ForwardsEnd) : p.Descends := by
  classical
  refine ⟨fun a => (p.replacedSlots.filter
    (ReflTransGen (fun b c => p.forward? b = some c) a)).card, fun a b hab => ?_,
    fun a => Finset.card_filter_le _ _⟩
  refine Finset.card_lt_card (Finset.ssubset_iff_of_subset ?_ |>.mpr ⟨a, ?_, ?_⟩)
  · exact Finset.monotone_filter_right _ fun x _ hx => .head hab hx
  · rw [Finset.mem_filter, mem_replacedSlots, isReplaced, hab]
    exact ⟨rfl, .refl⟩
  · intro ha
    have hloop : TransGen (fun b c => p.forward? b = some c) a a :=
      .head' hab (Finset.mem_filter.mp ha).2
    exact h.wellFounded.transGen.irrefl.irrefl a (transGen_swap.mpr hloop)

/-- The traversal is a bottom-up order of the plan, and it comes to an end even where the plan
computes with itself. -/
theorem reachable_postOrder (p : Plan) (root : NodeId) :
    (p.WF → root < p.size → ∃ ids, p.reachable root = .ok ids ∧ p.PostOrder root ids) ∧
    (p.ForwardsEnd →
      (∀ a, ReflTransGen (fun b c => p.forward? b = some c) a (p.resolve a) ∧
        p.forward? (p.resolve a) = none) ∧
      p.Terminates .cycleDetected (p.visit · ⟨[], []⟩ (p.resolve root))) := by
  constructor
  · intro h hroot
    obtain ⟨ids, hids, hord, hmem⟩ := h.exists_reachable hroot
    exact ⟨ids, hids, hord.postOrder hmem⟩
  · intro h
    exact ⟨fun a => ⟨p.follow_forwards _ a, h.descends.forward?_resolve a⟩, p.visit_terminates _⟩

/-- Two filters that read each other, beside a table that has been replaced. -/
def looped : Plan where
  slots := [
    ⟨.scan "t" [⟨"a", .int⟩], some 3⟩,
    ⟨.filter 2 (.unary .isNull (.input 0)) [⟨"a", .int⟩], none⟩,
    ⟨.filter 1 (.unary .isNull (.input 0)) [⟨"a", .int⟩], none⟩,
    ⟨.scan "u" [⟨"b", .int⟩], none⟩]

theorem looped_assembled : looped.Assembled :=
  Assembled.empty.add (.scan "t" [⟨"a", .int⟩])
    |>.add (.filter 2 (.unary .isNull (.input 0)) [⟨"a", .int⟩])
    |>.add (.filter 1 (.unary .isNull (.input 0)) [⟨"a", .int⟩])
    |>.replaceWith (show replaceWith _ 0 (.scan "u" [⟨"b", .int⟩]) = .ok (3, looped) from rfl)

/-- Both tables come by way of their replacements. Of the two filters each is visited once. -/
theorem reachable_postOrder_priced :
    (∃ ids, priced.reachable 3 = .ok ids ∧ ids = [4, 5, 2, 3] ∧ priced.PostOrder 3 ids) ∧
      looped.Child 1 2 ∧ looped.Child 2 1 ∧ looped.reachable 1 = .ok [2, 1] ∧
      looped.Terminates .cycleDetected (looped.visit · ⟨[], []⟩ (looped.resolve 1)) := by
  obtain ⟨ids, hids, hpost⟩ :=
    (reachable_postOrder priced 3).1 priced_built.good.wf (by decide)
  have hlist : priced.reachable 3 = .ok [4, 5, 2, 3] := by decide +kernel
  refine ⟨⟨ids, hids, Except.ok.inj (hids.symm.trans hlist), hpost⟩, ?_, ?_, by decide +kernel,
    ((reachable_postOrder looped 1).2 looped_assembled.descends.forwardsEnd).2⟩
  · exact .intro (show looped.node 1 = .ok _ from rfl) List.mem_cons_self
  · exact .intro (show looped.node 2 = .ok _ from rfl) List.mem_cons_self

end Plan
end RelPlan
