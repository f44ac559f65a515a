import RelPlan.Proofs.Plan.Chronicle

/-! # What a replacement changes

A replacement that goes through gives one unreplaced slot a forward, and may add one slot at the end
(`Plan.WF.replace_replaced`, `Plan.WF.replaceWith_replaced`). Nodes, forwards and types that were
there stay (`Plan.Retains`). -/

namespace RelPlan
namespace Plan

open Relation

/-- Nodes, forwards and types of the first plan are those of the second one too. -/
structure Retains (p q : Plan) : Prop where
  size_le : p.size ≤ q.size
  rawNode : ∀ a < p.size, q.rawNode a = p.rawNode a
  forward : ∀ a b, p.forward? a = some b → q.forward? a = some b
  types : p.Extends q

/-- The second plan is the first one, possibly with more slots, in which what resolved to the same slot
as `old` resolves to `new`. -/
structure Replaced (p q : Plan) (old new : NodeId) : Prop extends Retains p q where
  wf : q.WF
  redirects : p.Redirects q (p.resolve old) new

variable {p q r : Plan} {a b old new : NodeId} {n : Node} {ts : List ScalarType}

theorem Retains.refl (p : Plan) : p.Retains p :=
  ⟨Nat.le_refl _, fun _ _ => rfl, fun _ _ => id, .refl p⟩

theorem Retains.trans (h : p.Retains q) (h' : q.Retains r) : p.Retains r where
  size_le := Nat.le_trans h.size_le h'.size_le
  rawNode a ha := (h'.rawNode a (Nat.lt_of_lt_of_le ha h.size_le)).trans (h.rawNode a ha)
  forward a b hab := h'.forward a b (h.forward a b hab)
  types := h.types.trans h'.types

theorem Redirects.refl (p : Plan) (old : NodeId) : p.Redirects p old old where
  size_le := Nat.le_refl _
  rawNode _ _ := rfl
  resolve a _ := by
    split
    · assumption
    · rfl

/-- What stands for another slot has no forward itself. -/
theorem Redirects.resolve_new (h : p.Redirects q old new) (hq : q.WF) (ha : a < p.size)
    (ho : p.resolve a = old) : q.resolve new = new := by
  rw [← h.resolve_old ha ho, hq.resolve_resolve]

/-- Forwards stay when an unreplaced slot gets one. -/
theorem forward?_setForward_of_some (hold : old < p.size) (hf : p.forward? old = none)
    (hab : p.forward? a = some b) : (p.setForward old new).forward? a = some b := by
  rw [forward?_setForward hold, if_neg ?_, hab]
  rintro rfl
  cases hf.symm.trans hab

theorem WF.replace_replaced (h : p.WF) (hq : p.replace old new = .ok q) :
    p.Replaced q old (p.resolve new) ∧ q.size = p.size := by
  obtain ⟨ts, us, ha, hb, ⟨heq, rfl⟩ | ⟨-, rfl, hback, rfl⟩⟩ := h.replace_eq_ok_iff.mp hq
  · exact ⟨⟨.refl q, h, heq ▸ .refl q _⟩, rfl⟩
  rw [← h.hasTypes_resolve] at ha hb
  have hf := h.forward?_resolve old
  obtain ⟨hwf, hred⟩ := h.setForward_existing ha.lt_size hb.lt_size hf (h.forward?_resolve new) hback
  obtain ⟨n, hn, hts⟩ := hb
  rw [h.node_resolve, node, ← rawNode_setForward] at hn
  exact ⟨⟨⟨hred.size_le, hred.rawNode, fun _ _ => forward?_setForward_of_some ha.lt_size hf,
    fun _ _ => hred.hasTypes h ha hn hts⟩, hwf, hred⟩, size_setForward⟩

theorem WF.replaceWith_replaced (h : p.WF) (hq : p.replaceWith old n = .ok (new, q)) :
    p.Replaced q old new ∧ new = p.size ∧ q.size = p.size + 1 ∧ q.node new = .ok n := by
  obtain ⟨ha, hinputs, rfl, rfl⟩ := h.replaceWith_eq_ok_iff.mp hq
  rw [← h.hasTypes_resolve] at ha
  have hf := h.forward?_resolve old
  obtain ⟨hwf, hred⟩ := h.setForward_add ha.lt_size hf hinputs
  have hlt : p.resolve old < (p.add n).2.size := size_add ▸ Nat.lt_succ_of_lt ha.lt_size
  have hraw : ((p.add n).2.setForward (p.resolve old) p.size).rawNode p.size = .ok n := by
    rw [rawNode_setForward, rawNode_add_size]
  have hnew := hred.resolve_new hwf ha.lt_size (h.resolve_resolve old)
  refine ⟨⟨⟨hred.size_le, hred.rawNode, fun a b hab => ?_, fun _ _ => hred.hasTypes h ha hraw rfl⟩,
    hwf, hred⟩, rfl, by simp, by rw [node, hnew, hraw]⟩
  exact forward?_setForward_of_some hlt (forward?_add.trans hf) (forward?_add.trans hab)

end Plan
end RelPlan
