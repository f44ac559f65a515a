import RelPlan.Proofs.Plan.Graph

/-! # Replaced slots

A node may be added whatever its inputs are: slots that are not there, or slots that compute with the
new one. Even so forwards come to an end, since a replacement redirects a slot that is not replaced
to another one that is not (`Plan.Assembled.isReplaced_resolve`). -/

namespace RelPlan
namespace Plan

/-- The slots that forward to another one. -/
def replacedSlots (p : Plan) : Finset NodeId := (Finset.range p.size).filter (p.isReplaced ·)

/-- The plan comes from the empty one by adding nodes and replacing them, with any nodes at all. -/
inductive Assembled : Plan → Prop where
  | empty : Assembled empty
  | add {p : Plan} (n : Node) : Assembled p → Assembled (p.add n).2
  | replace : Assembled p → p.replace old new = .ok q → Assembled q
  | replaceWith : Assembled p → p.replaceWith old n = .ok (new, q) → Assembled q

/-- Forwards lead down, from as many levels as there are replaced slots. -/
def Descends (p : Plan) : Prop :=
  ∃ rank : NodeId → Nat, (∀ a b, p.forward? a = some b → rank b < rank a) ∧
    ∀ a, rank a ≤ p.replacedSlots.card

variable {p q : Plan} {a old new : NodeId} {n : Node}

/-! ## Which slots are replaced -/

@[simp] theorem mem_replacedSlots : a ∈ p.replacedSlots ↔ p.isReplaced a := by
  rw [replacedSlots, Finset.mem_filter, Finset.mem_range]
  refine and_iff_right_of_imp fun ha => ?_
  obtain ⟨b, hb⟩ := Option.isSome_iff_exists.mp ha
  exact lt_size_of_forward? hb

theorem card_replacedSlots_le (p : Plan) : p.replacedSlots.card ≤ p.size :=
  (Finset.card_filter_le _ _).trans_eq (Finset.card_range _)

@[simp] theorem replacedSlots_add : (p.add n).2.replacedSlots = p.replacedSlots := by
  ext a
  simp [isReplaced]

theorem replacedSlots_setForward (hold : old < p.size) :
    (p.setForward old new).replacedSlots = insert old p.replacedSlots := by
  ext a
  rw [mem_replacedSlots, Finset.mem_insert, mem_replacedSlots, isReplaced, forward?_setForward hold]
  split <;> simp_all [isReplaced]

/-- Redirecting an unreplaced slot makes for one more replaced slot. -/
theorem card_replacedSlots_setForward (hold : old < p.size) (hf : p.forward? old = none) :
    (p.setForward old new).replacedSlots.card = p.replacedSlots.card + 1 := by
  rw [replacedSlots_setForward hold, Finset.card_insert_of_notMem]
  rw [mem_replacedSlots, isReplaced, hf]
  exact Bool.false_ne_true

/-! ## Where forwards lead -/

theorem Descends.forward?_resolve (h : p.Descends) (a : NodeId) :
    p.forward? (p.resolve a) = none := by
  obtain ⟨rank, hrank, hle⟩ := h
  exact forward?_follow_of_rank hrank ((hle a).trans p.card_replacedSlots_le)

theorem Descends.add (h : p.Descends) : (p.add n).2.Descends := by
  simpa only [Descends, forward?_add, replacedSlots_add] using h

theorem Descends.setForward (h : p.Descends) (hold : old < p.size) (hf : p.forward? old = none)
    (hf' : p.forward? new = none) (hne : old ≠ new) : (p.setForward old new).Descends := by
  obtain ⟨rank, hrank, hle⟩ := h
  -- `new` forwards to nothing, so it can go below all the others.
  refine ⟨fun a => if a = new then 0 else rank a + 1, fun a b hab => ?_, fun a => ?_⟩
  · rw [forward?_setForward hold] at hab
    split at hab
    · rename_i ha
      obtain rfl := Option.some.inj hab
      simp [ha, hne]
    · have ha : a ≠ new := by
        rintro rfl
        cases hf'.symm.trans hab
      have hlt := hrank a b hab
      simp only [if_neg ha]
      split <;> omega
  · rw [card_replacedSlots_setForward hold hf]
    have hle := hle a
    dsimp only
    split <;> omega

/-- A replacement that goes through redirects the slot that stands for `old`, if it does anything. -/
theorem eq_setForward_of_replace (h : p.replace old new = .ok q) :
    q = p ∨ p.resolve old ≠ p.resolve new ∧ p.resolve old < p.size ∧
      q = p.setForward (p.resolve old) (p.resolve new) := by
  obtain ⟨rt, hrt, h⟩ := Except.bind_eq_ok_iff.mp h
  obtain ⟨rt', -, h⟩ := Except.bind_eq_ok_iff.mp h
  obtain ⟨n, hn, -⟩ := Except.bind_eq_ok_iff.mp hrt
  split at h
  · exact .inl (Except.ok.inj h).symm
  · rename_i hne
    refine .inr ⟨hne, lt_size_of_node hn, ?_⟩
    split at h
    · cases h
    · obtain ⟨ids, -, h⟩ := Except.bind_eq_ok_iff.mp h
      split at h
      · cases h
      · exact (Except.ok.inj h).symm

theorem eq_setForward_of_replaceWith (h : p.replaceWith old n = .ok (new, q)) :
    p.resolve old < p.size ∧ q = (p.add n).2.setForward (p.resolve old) p.size := by
  obtain ⟨rt, hrt, h⟩ := Except.bind_eq_ok_iff.mp h
  obtain ⟨m, hm, -⟩ := Except.bind_eq_ok_iff.mp hrt
  refine ⟨lt_size_of_node hm, ?_⟩
  split at h
  · cases h
  · obtain ⟨_, -, h⟩ := Except.bind_eq_ok_iff.mp h
    cases h
    rfl

theorem Assembled.descends (h : p.Assembled) : p.Descends := by
  induction h with
  | empty => exact ⟨fun _ => 0, nofun, fun _ => Nat.zero_le _⟩
  | add n _ ih => exact ih.add
  | @replace p old new q _ hq ih =>
    rcases eq_setForward_of_replace hq with rfl | ⟨hne, hlt, rfl⟩
    · exact ih
    · exact ih.setForward hlt (ih.forward?_resolve old) (ih.forward?_resolve new) hne
  | @replaceWith p old n new q _ hq ih =>
    obtain ⟨hlt, rfl⟩ := eq_setForward_of_replaceWith hq
    refine ih.add.setForward ?_ ?_ ?_ (Nat.ne_of_lt hlt)
    · rw [size_add]
      exact Nat.lt_succ_of_lt hlt
    · rw [forward?_add, ih.forward?_resolve]
    · rw [forward?_add, forward?_of_size_le (Nat.le_refl _)]

/-- In any plan, what stands for a slot has not been replaced. -/
theorem Assembled.isReplaced_resolve (h : p.Assembled) (a : NodeId) :
    p.isReplaced (p.resolve a) = false :=
  isReplaced_eq_false_iff.mpr (h.descends.forward?_resolve a)

end Plan
end RelPlan
