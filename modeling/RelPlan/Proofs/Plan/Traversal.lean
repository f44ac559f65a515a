import RelPlan.Proofs.Plan.Graph

/-! # Traversing plans

In a well-formed plan the traversal from a root succeeds: it lists exactly the nodes that the root
computes with, each once and after its inputs (`Plan.WF.exists_reachable`). -/

namespace RelPlan
namespace Plan

open Relation

/-- The second node stands for an input of the first one. -/
inductive Child (p : Plan) (a : NodeId) : NodeId → Prop where
  | intro : p.node a = .ok n → i ∈ n.inputs → p.Child a (p.resolve i)

/-- The ids are unreplaced slots, each of them once and, read from the end, after its inputs. -/
inductive Ordered (p : Plan) : List NodeId → Prop where
  | nil : p.Ordered []
  | cons {id : NodeId} {ids : List NodeId} : id < p.size → p.forward? id = none → id ∉ ids →
      (∀ c, p.Child id c → c ∈ ids) → p.Ordered ids → p.Ordered (id :: ids)

variable {p : Plan} {a b c id root : NodeId} {ids : List NodeId}

theorem WF.child_lt (h : p.WF) (hc : p.Child a c) : c < p.size := by
  obtain ⟨hn, hi⟩ := hc
  exact h.resolve_lt (h.input_lt hn hi)

theorem WF.forward?_child (h : p.WF) (hc : p.Child a c) : p.forward? c = none := by
  obtain ⟨hn, hi⟩ := hc
  exact h.forward?_resolve _

theorem Child.congr (hab : p.node a = p.node b) (h : p.Child a c) : p.Child b c := by
  obtain ⟨hn, hi⟩ := h
  exact .intro (hab ▸ hn) hi

theorem WF.height_child_lt (h : p.WF) (hc : p.Child a c) : p.height c < p.height a := by
  obtain ⟨hn, hi⟩ := hc
  exact Nat.lt_of_le_of_lt (h.height_resolve_le _) (h.height_input_lt hn hi)

theorem WF.height_le_of_child (h : p.WF) (hab : ReflTransGen p.Child a b) :
    p.height b ≤ p.height a := by
  induction hab with
  | refl => exact Nat.le_refl _
  | tail _ hbc ih => exact Nat.le_trans (Nat.le_of_lt (h.height_child_lt hbc)) ih

theorem WF.lt_size_of_child (h : p.WF) (ha : a < p.size) (hab : ReflTransGen p.Child a b) :
    b < p.size := by
  rcases hab.cases_tail with rfl | ⟨_, _, hc⟩
  · exact ha
  · exact h.child_lt hc

theorem WF.height_lt_of_child (h : p.WF) (hab : TransGen p.Child a b) : p.height b < p.height a := by
  induction hab with
  | single hc => exact h.height_child_lt hc
  | tail _ hc ih => exact Nat.lt_trans (h.height_child_lt hc) ih

/-- A path of edges to an unreplaced slot is a path over inputs. -/
theorem WF.reaches_of_next (h : p.WF) (hab : ReflTransGen p.Next a b) (hb : p.forward? b = none) :
    ReflTransGen p.Child (p.resolve a) b := by
  induction hab using ReflTransGen.head_induction_on with
  | refl => rw [resolve_of_forward?_eq_none hb]
  | head hac _ ih =>
    cases hac with
    | forward hf => rwa [h.resolve_forward hf]
    | input hf hn hi =>
      rw [resolve_of_forward?_eq_none hf]
      refine .head (.intro ?_ hi) ih
      rw [node, resolve_of_forward?_eq_none hf, hn]

theorem WF.inputs_eq (h : p.WF) (hid : id < p.size) :
    ∃ cs, p.inputs id = .ok cs ∧ ∀ c, c ∈ cs ↔ p.Child id c := by
  obtain ⟨n, hn⟩ := h.exists_node hid
  refine ⟨n.inputs.map p.resolve, by simp [inputs, hn], ?_⟩
  intro c
  rw [List.mem_map]
  constructor
  · rintro ⟨i, hi, rfl⟩
    exact .intro hn hi
  · rintro ⟨hm, hi⟩
    obtain rfl := Except.ok.inj (hn.symm.trans hm)
    exact ⟨_, hi, rfl⟩

/-! ## Visits -/

/-- A traversal in which the finished ids are in order, and which ids lower than `k` have finished
if they have been met. -/
structure Traversal.Sound (p : Plan) (t : Traversal) (k : Nat) : Prop where
  ordered : p.Ordered t.finished
  met_of_finished : t.finished ⊆ t.met
  pending : ∀ x ∈ t.met, x ∈ t.finished ∨ k ≤ p.height x

/-- The second traversal comes from the first one by finishing ids that the roots compute with. -/
structure Traversal.Advances (p : Plan) (roots : List NodeId) (t t' : Traversal) : Prop where
  finished : t.finished ⊆ t'.finished
  met_mono : t.met ⊆ t'.met
  met : ∀ x ∈ t'.met, x ∈ t.met ∨ x ∈ t'.finished
  reached : ∀ x ∈ t'.finished, x ∈ t.finished ∨ ∃ r ∈ roots, ReflTransGen p.Child r x

theorem Traversal.Advances.refl (t : Traversal) : t.Advances p ids t :=
  ⟨List.Subset.refl _, List.Subset.refl _, fun _ hx => .inl hx, fun _ hx => .inl hx⟩

theorem Ordered.child_mem (h : p.Ordered ids) (ha : a ∈ ids) (hc : p.Child a c) : c ∈ ids := by
  induction h with
  | nil => simp at ha
  | cons _ _ _ hcs _ ih =>
    rcases List.mem_cons.mp ha with rfl | ha
    · exact List.mem_cons_of_mem _ (hcs c hc)
    · exact List.mem_cons_of_mem _ (ih ha)

theorem Ordered.reached_mem (h : p.Ordered ids) (ha : a ∈ ids) (hab : ReflTransGen p.Child a b) :
    b ∈ ids := by
  induction hab with
  | refl => exact ha
  | tail _ hc ih => exact h.child_mem ih hc

/-- What a visit does to one id, a sequence of visits does to all its ids. -/
theorem foldlM_visit {d k : Nat}
    (hvisit : ∀ id ∈ ids, ∀ t : Traversal, t.Sound p k → ∃ t', p.visit d t id = .ok t' ∧
      id ∈ t'.finished ∧ t.Advances p [id] t' ∧ t'.Sound p k)
    {t : Traversal} (ht : t.Sound p k) :
    ∃ t', ids.foldlM (p.visit d) t = .ok t' ∧ ids ⊆ t'.finished ∧ t.Advances p ids t' ∧
      t'.Sound p k := by
  induction ids generalizing t with
  | nil => exact ⟨t, rfl, List.nil_subset _, .refl t, ht⟩
  | cons id ids ih =>
    obtain ⟨t₁, hv, hid, ha₁, hs₁⟩ := hvisit id List.mem_cons_self t ht
    obtain ⟨t₂, hf, hids, ha₂, hs₂⟩ := ih (fun x hx => hvisit x (List.mem_cons_of_mem _ hx)) hs₁
    refine ⟨t₂, ?_, List.cons_subset.mpr ⟨ha₂.finished hid, hids⟩, ⟨?_, ?_, ?_, ?_⟩, hs₂⟩
    · rw [List.foldlM_cons, hv, Except.ok_bind, hf]
    · exact List.Subset.trans ha₁.finished ha₂.finished
    · exact List.Subset.trans ha₁.met_mono ha₂.met_mono
    · intro x hx
      rcases ha₂.met x hx with hx | hx
      · exact (ha₁.met x hx).imp_right fun hx => ha₂.finished hx
      · exact .inr hx
    · intro x hx
      rcases ha₂.reached x hx with hx | ⟨r, hr, hx⟩
      · refine (ha₁.reached x hx).imp_right ?_
        rintro ⟨r, hr, hx⟩
        exact ⟨r, List.mem_cons.mpr (.inl (List.mem_singleton.mp hr)), hx⟩
      · exact .inr ⟨r, List.mem_cons_of_mem _ hr, hx⟩

theorem WF.visit_spec (h : p.WF) {d k : Nat} (hd : p.height id < d) (hk : p.height id < k)
    (hid : id < p.size) (hf : p.forward? id = none) {t : Traversal} (ht : t.Sound p k) :
    ∃ t', p.visit d t id = .ok t' ∧ id ∈ t'.finished ∧ t.Advances p [id] t' ∧ t'.Sound p k := by
  induction d generalizing id k t with
  | zero => cases hd
  | succ d ih =>
    by_cases hmet : id ∈ t.met
    · have hfin := (ht.pending id hmet).resolve_right (Nat.not_le_of_lt hk)
      exact ⟨t, by simp [visit, hmet], hfin, .refl t, ht⟩
    obtain ⟨cs, hcs, hchild⟩ := h.inputs_eq hid
    have hlt (c) (hc : c ∈ cs) : p.height c < p.height id := h.height_child_lt ((hchild c).mp hc)
    -- While the inputs are visited, `id` is pending above them.
    have hopen : Traversal.Sound p { t with met := id :: t.met } (p.height id) := by
      refine ⟨ht.ordered, fun x hx => List.mem_cons_of_mem _ (ht.met_of_finished hx), ?_⟩
      intro x hx
      rcases List.mem_cons.mp hx with rfl | hx
      · exact .inr (Nat.le_refl _)
      · exact (ht.pending x hx).imp_right (Nat.le_trans (Nat.le_of_lt hk))
    obtain ⟨t', hfold, hcsub, ha, hs⟩ := foldlM_visit (d := d) (fun c hc t hs =>
      ih (Nat.lt_of_lt_of_le (hlt c hc) (Nat.le_of_lt_succ hd)) (hlt c hc)
        (h.child_lt ((hchild c).mp hc)) (h.forward?_child ((hchild c).mp hc)) hs) hopen
    have hidm : id ∉ t'.finished := by
      intro hmem
      rcases ha.reached id hmem with hmem | ⟨r, hr, hreach⟩
      · exact hmet (ht.met_of_finished hmem)
      · exact Nat.lt_irrefl _ (Nat.lt_of_le_of_lt (h.height_le_of_child hreach) (hlt r hr))
    refine ⟨{ t' with finished := id :: t'.finished }, ?_, List.mem_cons_self, ⟨?_, ?_, ?_, ?_⟩,
      ⟨?_, ?_, ?_⟩⟩
    · rw [visit, if_neg hmet, hcs, Except.ok_bind, hfold]
      rfl
    · exact fun x hx => List.mem_cons_of_mem _ (ha.finished hx)
    · exact fun x hx => ha.met_mono (List.mem_cons_of_mem _ hx)
    · intro x hx
      rcases ha.met x hx with hx | hx
      · rcases List.mem_cons.mp hx with rfl | hx
        · exact .inr List.mem_cons_self
        · exact .inl hx
      · exact .inr (List.mem_cons_of_mem _ hx)
    · intro x hx
      rcases List.mem_cons.mp hx with rfl | hx
      · exact .inr ⟨x, List.mem_singleton_self x, .refl⟩
      · refine (ha.reached x hx).imp_right ?_
        rintro ⟨r, hr, hx⟩
        exact ⟨id, List.mem_singleton_self id, .head ((hchild r).mp hr) hx⟩
    · exact .cons hid hf hidm (fun c hc => hcsub ((hchild c).mpr hc)) hs.ordered
    · refine List.cons_subset.mpr ⟨?_, hs.met_of_finished⟩
      exact ha.met_mono List.mem_cons_self
    · intro x hx
      rcases ha.met x hx with hx | hx
      · rcases List.mem_cons.mp hx with rfl | hx
        · exact .inl List.mem_cons_self
        · exact (ht.pending x hx).imp_left fun hx => List.mem_cons_of_mem _ (ha.finished hx)
      · exact .inl (List.mem_cons_of_mem _ hx)

theorem lt_size_of_inputs (h : p.inputs a = .ok cs) : a < p.size := by
  obtain ⟨n, hn, -⟩ := Except.bind_eq_ok_iff.mp h
  exact lt_size_of_node hn

theorem lt_size_of_reachable (h : p.reachable root = .ok ids) : root < p.size := by
  obtain ⟨t, ht, _⟩ := Except.bind_eq_ok_iff.mp h
  rw [depth, visit, if_neg List.not_mem_nil] at ht
  obtain ⟨cs, hcs, _⟩ := Except.bind_eq_ok_iff.mp ht
  exact lt_size_of_resolve (lt_size_of_inputs hcs)

/-- The traversal from a root. -/
theorem WF.exists_reachable (h : p.WF) (hroot : root < p.size) :
    ∃ ids, p.reachable root = .ok ids ∧ p.Ordered ids.reverse ∧
      ∀ x, x ∈ ids ↔ ReflTransGen p.Child (p.resolve root) x := by
  have hd : p.height (p.resolve root) < p.depth := Nat.lt_succ_of_le (p.height_le _)
  obtain ⟨t, hv, hmem, ha, hs⟩ := h.visit_spec hd (Nat.lt_succ_self _) (h.resolve_lt hroot)
    (h.forward?_resolve root) (t := ⟨[], []⟩) ⟨.nil, List.nil_subset _, by simp⟩
  refine ⟨t.finished.reverse, by simp [reachable, hv], by simpa using hs.ordered, ?_⟩
  intro x
  rw [List.mem_reverse]
  constructor
  · intro hx
    obtain ⟨r, hr, hx⟩ := (ha.reached x hx).resolve_left (by simp)
    exact List.mem_singleton.mp hr ▸ hx
  · exact hs.ordered.reached_mem hmem

end Plan
end RelPlan
