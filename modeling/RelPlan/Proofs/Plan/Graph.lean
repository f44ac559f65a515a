import Mathlib.Data.Finset.Card
import Mathlib.Logic.Relation
import RelPlan.Plan.Replace
import RelPlan.Proofs.Result

/-! # Plans as graphs

A slot leads to the one it forwards to, or to the inputs of its node (`Plan.Next`). In a well-formed
plan no edge leaves the plan and no path comes back. Then `resolve` finds the slot that a chain of
forwards ends in (`WF.resolve_forward`, `WF.forward?_resolve`), and `height` bounds the recursions
that go down
the graph. Adding nodes and redirecting slots keep plans well formed. -/

namespace RelPlan
namespace Plan

open Relation

/-- An edge from a slot to the slot that stands for it or that its node computes with. -/
inductive Next (p : Plan) : NodeId → NodeId → Prop where
  | forward : p.forward? a = some b → p.Next a b
  | input : p.forward? a = none → p.rawNode a = .ok n → b ∈ n.inputs → p.Next a b

/-- Edges stay in the plan, and no path comes back. -/
structure WF (p : Plan) : Prop where
  closed : ∀ {a b}, p.Next a b → b < p.size
  ranked : ∃ rank : NodeId → Nat, ∀ a b, p.Next a b → rank b < rank a

variable {p q : Plan} {a b x y old new : NodeId}

/-! ## Slots -/

theorem rawNode_eq_ok_iff : p.rawNode a = .ok n ↔ p.slots[a]?.map Slot.node = some n := by
  unfold rawNode
  cases p.slots[a]? <;> simp

theorem lt_size_of_rawNode (h : p.rawNode a = .ok n) : a < p.size := by
  obtain ⟨slot, hs, _⟩ := Option.map_eq_some_iff.mp (rawNode_eq_ok_iff.mp h)
  exact (List.getElem?_eq_some_iff.mp hs).1

theorem exists_rawNode (h : a < p.size) : ∃ n, p.rawNode a = .ok n := by
  have h : a < p.slots.length := h
  exact ⟨p.slots[a].node, by simp [rawNode, List.getElem?_eq_getElem h]⟩

theorem lt_size_of_forward? (h : p.forward? a = some b) : a < p.size := by
  obtain ⟨slot, hs, _⟩ := Option.bind_eq_some_iff.mp h
  exact (List.getElem?_eq_some_iff.mp hs).1

theorem forward?_of_size_le (h : p.size ≤ a) : p.forward? a = none := by
  cases hb : p.forward? a with
  | none => rfl
  | some b => exact absurd (lt_size_of_forward? hb) (Nat.not_lt_of_le h)

theorem Next.lt_size (h : p.Next a b) : a < p.size := by
  cases h with
  | forward h => exact lt_size_of_forward? h
  | input _ h _ => exact lt_size_of_rawNode h

theorem isReplaced_eq_false_iff : p.isReplaced a = false ↔ p.forward? a = none := by
  simp [isReplaced]

/-! ## Heights -/

open Classical in
/-- The number of slots that a slot leads to. -/
noncomputable def height (p : Plan) (a : NodeId) : Nat :=
  ((Finset.range p.size).filter (TransGen p.Next a)).card

theorem height_le (p : Plan) (a : NodeId) : p.height a ≤ p.size := by
  classical
  rw [height]
  exact (Finset.card_filter_le _ _).trans_eq (Finset.card_range _)

theorem WF.acyclic (h : p.WF) : ¬ TransGen p.Next a a := by
  obtain ⟨rank, hrank⟩ := h.ranked
  have hlt {a b} (hab : TransGen p.Next a b) : rank b < rank a := by
    induction hab with
    | single h => exact hrank _ _ h
    | tail _ h ih => exact Nat.lt_trans (hrank _ _ h) ih
  exact fun haa => Nat.lt_irrefl _ (hlt haa)

theorem WF.height_lt (h : p.WF) (hab : p.Next a b) : p.height b < p.height a := by
  classical
  refine Finset.card_lt_card (Finset.ssubset_iff_of_subset ?_ |>.mpr ⟨b, ?_, ?_⟩)
  · intro x hx
    simp only [Finset.mem_filter] at hx ⊢
    exact ⟨hx.1, .head hab hx.2⟩
  · simpa using ⟨h.closed hab, TransGen.single hab⟩
  · simpa using fun _ => h.acyclic

theorem WF.height_le_of_reaches (h : p.WF) (hab : ReflTransGen p.Next a b) :
    p.height b ≤ p.height a := by
  induction hab with
  | refl => exact Nat.le_refl _
  | tail _ hbc ih => exact Nat.le_trans (Nat.le_of_lt (h.height_lt hbc)) ih

/-! ## Resolving -/

theorem resolve_of_forward?_eq_none (h : p.forward? a = none) : p.resolve a = a := by
  unfold resolve
  cases p.size <;> simp [follow, h]

theorem follow_forwards (p : Plan) (k : Nat) (a : NodeId) :
    ReflTransGen (fun b c => p.forward? b = some c) a (p.follow k a) := by
  induction k generalizing a with
  | zero => exact .refl
  | succ k ih =>
    simp only [follow]
    split
    · rename_i b hb
      exact .head hb (ih b)
    · exact .refl

theorem follow_reaches (p : Plan) (n : Nat) (a : NodeId) :
    ReflTransGen p.Next a (p.follow n a) :=
  (p.follow_forwards n a).lift id fun _ _ => .forward

theorem resolve_reaches (p : Plan) (a : NodeId) : ReflTransGen p.Next a (p.resolve a) :=
  p.follow_reaches _ a

/-- Enough steps lead to the end of a chain of forwards, if each of them leads down. -/
theorem forward?_follow_of_rank {rank : NodeId → Nat}
    (hrank : ∀ a b, p.forward? a = some b → rank b < rank a) (hn : rank a ≤ n) :
    p.forward? (p.follow n a) = none := by
  induction n generalizing a with
  | zero =>
    cases hb : p.forward? a with
    | none => exact hb
    | some b =>
      have := hrank a b hb
      omega
  | succ n ih =>
    simp only [follow]
    split
    · rename_i b hb
      have := hrank a b hb
      exact ih (by omega)
    · assumption

theorem WF.forward?_follow (h : p.WF) (hn : p.height a ≤ n) : p.forward? (p.follow n a) = none :=
  forward?_follow_of_rank (fun _ _ hab => h.height_lt (.forward hab)) hn

theorem WF.follow_eq (h : p.WF) (hn : p.height a ≤ n) (hm : p.height a ≤ m) :
    p.follow n a = p.follow m a := by
  induction n generalizing a m with
  | zero =>
    cases hb : p.forward? a with
    | none => cases m <;> simp [follow, hb]
    | some b =>
      have := h.height_lt (.forward hb)
      omega
  | succ n ih =>
    cases hb : p.forward? a with
    | none => cases m <;> simp [follow, hb]
    | some b =>
      have := h.height_lt (.forward hb)
      cases m with
      | zero => omega
      | succ m =>
        simp only [follow, hb]
        exact ih (by omega) (by omega)

theorem WF.forward?_resolve (h : p.WF) (a : NodeId) : p.forward? (p.resolve a) = none :=
  h.forward?_follow (p.height_le a)

@[simp] theorem WF.resolve_resolve (h : p.WF) (a : NodeId) :
    p.resolve (p.resolve a) = p.resolve a :=
  resolve_of_forward?_eq_none (h.forward?_resolve a)

theorem WF.resolve_forward (h : p.WF) (hab : p.forward? a = some b) :
    p.resolve a = p.resolve b := by
  have hlt := h.height_lt (.forward hab)
  have hle := p.height_le a
  obtain ⟨n, hn⟩ : ∃ n, p.size = n + 1 := ⟨p.size - 1, by omega⟩
  rw [resolve, resolve, h.follow_eq (a := b) (m := n) (p.height_le b) (by omega), hn]
  simp only [follow, hab]

theorem WF.resolve_lt (h : p.WF) (ha : a < p.size) : p.resolve a < p.size := by
  rcases (p.resolve_reaches a).cases_tail with heq | ⟨b, _, hb⟩
  · rw [heq]; exact ha
  · exact h.closed hb

theorem lt_size_of_resolve (ha : p.resolve a < p.size) : a < p.size := by
  rcases (p.resolve_reaches a).cases_head with heq | ⟨b, hb, _⟩
  · rw [heq]; exact ha
  · exact hb.lt_size

theorem lt_size_of_node (h : p.node a = .ok n) : a < p.size :=
  lt_size_of_resolve (lt_size_of_rawNode h)

theorem WF.exists_node (h : p.WF) (ha : a < p.size) : ∃ n, p.node a = .ok n :=
  exists_rawNode (h.resolve_lt ha)

theorem WF.node_resolve (h : p.WF) (a : NodeId) : p.node (p.resolve a) = p.node a := by
  rw [node, node, h.resolve_resolve]

theorem WF.height_resolve_le (h : p.WF) (a : NodeId) : p.height (p.resolve a) ≤ p.height a :=
  h.height_le_of_reaches (p.resolve_reaches a)

theorem WF.input_lt (h : p.WF) (ha : p.node a = .ok n) (hb : b ∈ n.inputs) : b < p.size :=
  h.closed (.input (h.forward?_resolve a) ha hb)

/-- What a node computes with is lower than it. -/
theorem WF.height_input_lt (h : p.WF) (ha : p.node a = .ok n) (hb : b ∈ n.inputs) :
    p.height b < p.height a :=
  Nat.lt_of_lt_of_le (h.height_lt (.input (h.forward?_resolve a) ha hb)) (h.height_resolve_le a)

/-! ## Adding nodes -/

section
variable {n : Node}

@[simp] theorem size_add : (p.add n).2.size = p.size + 1 := by simp [add, size]

theorem rawNode_add_of_lt (h : a < p.size) : (p.add n).2.rawNode a = p.rawNode a := by
  simp only [rawNode, add, List.getElem?_append_left (show a < p.slots.length from h)]

theorem rawNode_add_size : (p.add n).2.rawNode p.size = .ok n := by
  simp [rawNode, add, size]

@[simp] theorem forward?_add : (p.add n).2.forward? a = p.forward? a := by
  rcases Nat.lt_trichotomy a p.slots.length with h | rfl | h
  · simp only [forward?, add, List.getElem?_append_left h]
  · simp [forward?, add]
  · simp only [forward?, add]
    rw [List.getElem?_eq_none (by simp; omega), List.getElem?_eq_none (Nat.le_of_lt h)]

theorem Next.of_add (h : (p.add n).2.Next a b) : p.Next a b ∨ a = p.size ∧ b ∈ n.inputs := by
  cases h with
  | forward h => exact .inl (.forward (by simpa using h))
  | @input m _ hf ha hb =>
    rw [forward?_add] at hf
    have hlt := lt_size_of_rawNode ha
    rw [size_add] at hlt
    rcases Nat.lt_or_eq_of_le (Nat.le_of_lt_succ hlt) with hlt | rfl
    · rw [rawNode_add_of_lt hlt] at ha
      exact .inl (.input hf ha hb)
    · rw [rawNode_add_size] at ha
      exact .inr ⟨rfl, Except.ok.inj ha ▸ hb⟩

theorem WF.add (h : p.WF) (hn : ∀ i ∈ n.inputs, i < p.size) : (p.add n).2.WF where
  closed hab := by
    rw [size_add]
    rcases hab.of_add with hab | ⟨-, hb⟩
    · exact Nat.lt_succ_of_lt (h.closed hab)
    · exact Nat.lt_succ_of_lt (hn _ hb)
  ranked := by
    refine ⟨fun a => if a = p.size then p.size + 1 else p.height a, ?_⟩
    intro a b hab
    rcases hab.of_add with hab | ⟨rfl, hb⟩
    · simpa [Nat.ne_of_lt hab.lt_size, Nat.ne_of_lt (h.closed hab)] using h.height_lt hab
    · simpa [Nat.ne_of_lt (hn _ hb)] using Nat.lt_succ_of_le (p.height_le b)

theorem follow_add (k : Nat) (a : NodeId) : (p.add n).2.follow k a = p.follow k a := by
  induction k generalizing a with
  | zero => rfl
  | succ k ih =>
    simp only [follow, forward?_add]
    split
    · exact ih _
    · rfl

theorem WF.resolve_add (h : p.WF) (a : NodeId) : (p.add n).2.resolve a = p.resolve a := by
  rw [resolve, resolve, size_add, follow_add]
  exact h.follow_eq (Nat.le_succ_of_le (p.height_le a)) (p.height_le a)

theorem WF.node_add (h : p.WF) (ha : a < p.size) : (p.add n).2.node a = p.node a := by
  rw [node, node, h.resolve_add, rawNode_add_of_lt (h.resolve_lt ha)]

theorem WF.node_add_size (h : p.WF) : (p.add n).2.node p.size = .ok n := by
  have hf : p.forward? p.size = none := forward?_of_size_le (Nat.le_refl _)
  rw [node, h.resolve_add, resolve_of_forward?_eq_none hf, rawNode_add_size]

end

/-! ## Redirecting slots -/

@[simp] theorem size_setForward : (p.setForward old new).size = p.size := by
  simp [setForward, size]

@[simp] theorem rawNode_setForward : (p.setForward old new).rawNode a = p.rawNode a := by
  simp only [rawNode, setForward, List.getElem?_modify]
  cases p.slots[a]? with
  | none => rfl
  | some slot => by_cases h : old = a <;> simp [h]

theorem forward?_setForward (h : old < p.size) :
    (p.setForward old new).forward? a = if a = old then some new else p.forward? a := by
  simp only [forward?, setForward, List.getElem?_modify]
  by_cases ha : a = old
  · subst ha
    simp [List.getElem?_eq_getElem (show a < p.slots.length from h)]
  · cases p.slots[a]? <;> simp [ha, Ne.symm ha]

theorem Next.of_setForward (hold : old < p.size) (h : (p.setForward old new).Next a b) :
    a = old ∧ b = new ∨ a ≠ old ∧ p.Next a b := by
  by_cases ha : a = old
  · subst ha
    cases h with
    | forward h => exact .inl ⟨rfl, by simpa [forward?_setForward hold, eq_comm] using h⟩
    | input h => simp [forward?_setForward hold] at h
  · refine .inr ⟨ha, ?_⟩
    cases h with
    | forward h => exact .forward (by simpa [forward?_setForward hold, ha] using h)
    | input h hn hb =>
      rw [rawNode_setForward] at hn
      exact .input (by simpa [forward?_setForward hold, ha] using h) hn hb

/-- Redirecting a slot to one that does not lead back to it. -/
theorem WF.setForward (h : p.WF) (hold : old < p.size) (hnew : new < p.size)
    (hback : ¬ ReflTransGen p.Next new old) : (p.setForward old new).WF where
  closed hab := by
    rw [size_setForward]
    rcases hab.of_setForward hold with ⟨-, rfl⟩ | ⟨-, hab⟩
    · exact hnew
    · exact h.closed hab
  ranked := by
    classical
    -- All that does not lie behind `new` is raised above it.
    let rank a := if ReflTransGen p.Next new a then p.height a else p.height a + p.height new + 1
    refine ⟨rank, ?_⟩
    intro a b hab
    rcases hab.of_setForward hold with ⟨rfl, rfl⟩ | ⟨-, hab⟩
    · simp only [rank, if_pos ReflTransGen.refl, if_neg hback]
      omega
    · have hlt := h.height_lt hab
      by_cases ha : ReflTransGen p.Next new a
      · simp only [rank, if_pos ha, if_pos (ha.tail hab)]
        exact hlt
      · simp only [rank, if_neg ha]
        split <;> omega

/-- After redirecting an unreplaced slot, what resolved to it resolves to where the new one does. -/
theorem WF.resolve_setForward (h : p.WF) (h' : (p.setForward old new).WF) (hold : old < p.size)
    (hf : p.forward? old = none) (hnew : p.resolve new ≠ old) (a : NodeId) :
    (p.setForward old new).resolve a = if p.resolve a = old then p.resolve new else p.resolve a := by
  have hforward {b c} (hb : p.forward? b = some c) : (p.setForward old new).forward? b = some c := by
    have : b ≠ old := by
      rintro rfl
      simp [hf] at hb
    rw [forward?_setForward hold, if_neg this, hb]
  have hkeep (b) (hb : p.resolve b ≠ old) : (p.setForward old new).resolve b = p.resolve b := by
    induction hn : p.height b using Nat.strongRecOn generalizing b with
    | ind n ih =>
      cases hc : p.forward? b with
      | none =>
        rw [resolve_of_forward?_eq_none hc] at hb ⊢
        exact resolve_of_forward?_eq_none (by rw [forward?_setForward hold, if_neg hb, hc])
      | some c =>
        rw [h.resolve_forward hc] at hb ⊢
        rw [h'.resolve_forward (hforward hc)]
        exact ih _ (hn ▸ h.height_lt (.forward hc)) c hb rfl
  split
  · rename_i ha
    induction hn : p.height a using Nat.strongRecOn generalizing a with
    | ind n ih =>
      cases hc : p.forward? a with
      | none =>
        rw [resolve_of_forward?_eq_none hc] at ha
        have : (p.setForward old new).forward? a = some new := by
          rw [forward?_setForward hold, if_pos ha]
        rw [h'.resolve_forward this, hkeep new hnew]
      | some c =>
        rw [h.resolve_forward hc] at ha
        rw [h'.resolve_forward (hforward hc)]
        exact ih _ (hn ▸ h.height_lt (.forward hc)) c ha rfl
  · rename_i ha
    exact hkeep a ha

end Plan
end RelPlan
