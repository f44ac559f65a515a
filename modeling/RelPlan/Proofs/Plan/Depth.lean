import RelPlan.Proofs.Plan.Traversal

/-! # Recursion down a plan

A recursion that goes from nodes to their inputs is given a bound on its depth. In a well-formed plan
no bound above the height of the node is ever met, so that all such bounds give one answer
(`Plan.bounded_induction`), and the recursion would end without any (`Plan.Terminates`). A traversal,
which visits no slot twice, would end in any plan (`Plan.visit_terminates`). -/

namespace RelPlan
namespace Plan

variable {p : Plan} {a b id root : NodeId} {ε α β γ : Type} {met : NodeId → ε}

/-- The computations have one answer, and it is not that a bound on depth has been met. -/
def Agrees (met : NodeId → ε) (x y : Except ε α) : Prop := x = y ∧ ∀ id, x ≠ .error (met id)

namespace Agrees

theorem ok (a : α) : Agrees met (.ok a) (.ok a) := ⟨rfl, by simp⟩

theorem error {e : ε} (h : ∀ id, e ≠ met id) : Agrees met (.error e : Except ε α) (.error e) :=
  ⟨rfl, by simpa using h⟩

theorem bind {x y : Except ε α} {f g : α → Except ε β} (hx : Agrees met x y)
    (hf : ∀ a, x = .ok a → Agrees met (f a) (g a)) : Agrees met (x >>= f) (y >>= g) := by
  obtain ⟨rfl, hx⟩ := hx
  cases x with
  | ok a => exact hf a rfl
  | error e => exact .error fun id he => hx id (by rw [he])

theorem mapM {f g : α → Except ε β} {as : List α} (h : ∀ a ∈ as, Agrees met (f a) (g a)) :
    Agrees met (as.mapM f) (as.mapM g) := by
  induction as with
  | nil => exact .ok []
  | cons a as ih =>
    rw [List.mapM_cons_except, List.mapM_cons_except]
    obtain ⟨ha, has⟩ := List.forall_mem_cons.mp h
    exact ha.bind fun b _ => (ih has).bind fun bs _ => .ok _

/-- The folds need only agree where the first one can come. -/
theorem foldlM {P : β → Prop} {f g : β → α → Except ε β} {as : List α}
    (h : ∀ a ∈ as, ∀ b, P b → Agrees met (f b a) (g b a))
    (hP : ∀ a ∈ as, ∀ b b', P b → f b a = .ok b' → P b') {b : β} (hb : P b) :
    Agrees met (as.foldlM f b) (as.foldlM g b) := by
  induction as generalizing b with
  | nil => exact .ok b
  | cons a as ih =>
    rw [List.foldlM_cons, List.foldlM_cons]
    obtain ⟨ha, has⟩ := List.forall_mem_cons.mp h
    obtain ⟨hPa, hPas⟩ := List.forall_mem_cons.mp hP
    exact (ha b hb).bind fun b' hb' => ih has hPas (hPa b b' hb hb')

end Agrees

/-- Above the height of a node, bounds on depth can be compared by going down the plan. -/
theorem bounded_induction {P : Nat → Nat → NodeId → Prop}
    (step : ∀ d d' id, (∀ c, p.height c < p.height id → P d d' c) → P (d + 1) (d' + 1) id)
    (hd : p.height id < d) (hd' : p.height id < d') : P d d' id := by
  induction d generalizing id d' with
  | zero => cases hd
  | succ d ih =>
    obtain ⟨d', rfl⟩ : ∃ k, d' = k + 1 := ⟨d' - 1, by omega⟩
    exact step d d' id fun c hc => ih (by omega) (by omega)

/-- The recursion gives one answer under all bounds from the depth of the plan on, and never meets
them. -/
def Terminates (p : Plan) (met : NodeId → ε) (f : Nat → Except ε α) : Prop :=
  ∀ d d', p.depth ≤ d → p.depth ≤ d' → Agrees met (f d) (f d')

theorem height_lt_of_depth_le (h : p.depth ≤ d) (a : NodeId) : p.height a < d :=
  Nat.lt_of_lt_of_le (Nat.lt_succ_of_le (p.height_le a)) h

/-! ## Looking up -/

theorem node_agrees (p : Plan) (a : NodeId) : Agrees .cycleDetected (p.node a) (p.node a) := by
  unfold node rawNode
  split
  · exact .ok _
  · exact .error (by simp)

theorem inputs_agrees (p : Plan) (a : NodeId) :
    Agrees .cycleDetected (p.inputs a) (p.inputs a) :=
  (p.node_agrees a).bind fun _ _ => .ok _

theorem rowType_agrees (p : Plan) (a : NodeId) :
    Agrees .cycleDetected (p.rowType a) (p.rowType a) :=
  (p.node_agrees a).bind fun _ _ => .ok _

theorem WF.height_lt_of_inputs (h : p.WF) {cs : List NodeId} (hcs : p.inputs a = .ok cs)
    (hc : c ∈ cs) : p.height c < p.height a := by
  obtain ⟨n, hn, hcs⟩ := Except.bind_eq_ok_iff.mp hcs
  obtain rfl := Except.ok.inj hcs
  obtain ⟨i, hi, rfl⟩ := List.mem_map.mp hc
  exact h.height_child_lt (.intro hn hi)

/-! ## Visiting -/

/-- The slots that a traversal has not met. -/
def unmet (p : Plan) (t : Traversal) : Finset NodeId := (Finset.range p.size).filter (· ∉ t.met)

theorem unmet_subset {t t' : Traversal} (h : t.met ⊆ t'.met) : p.unmet t' ⊆ p.unmet t :=
  Finset.monotone_filter_right _ fun _ _ hx ht => hx (h ht)

theorem card_unmet_lt {t : Traversal} (hid : id < p.size) (hmet : id ∉ t.met) :
    (p.unmet { t with met := id :: t.met }).card < (p.unmet t).card := by
  refine Finset.card_lt_card (Finset.ssubset_iff_of_subset ?_ |>.mpr ⟨id, ?_, ?_⟩)
  · exact unmet_subset (List.subset_cons_of_subset id (List.Subset.refl t.met))
  · simp [unmet, hid, hmet]
  · simp [unmet]

theorem met_subset_of_visit {t t' : Traversal} (h : p.visit d t id = .ok t') : t.met ⊆ t'.met := by
  induction d generalizing id t t' with
  | zero =>
    rw [visit] at h
    split at h
    · exact Except.ok.inj h ▸ List.Subset.refl _
    · cases h
  | succ d ih =>
    rw [visit] at h
    split at h
    · exact Except.ok.inj h ▸ List.Subset.refl _
    · obtain ⟨cs, -, h⟩ := Except.bind_eq_ok_iff.mp h
      obtain ⟨t₁, hfold, h⟩ := Except.bind_eq_ok_iff.mp h
      obtain rfl := Except.ok.inj h
      have hid : t.met ⊆ id :: t.met := List.subset_cons_of_subset id (List.Subset.refl t.met)
      exact List.foldlM_keeps (P := fun t₁ => t.met ⊆ t₁.met)
        (fun c _ _ _ ht hv => List.Subset.trans ht (ih hv)) hid hfold

/-- Each level of a visit meets one more slot, so that no more levels are needed than there are slots
to meet, whatever the plan is. -/
theorem visit_agrees {t : Traversal} (hd : (p.unmet t).card < d) (hd' : (p.unmet t).card < d') :
    Agrees .cycleDetected (p.visit d t id) (p.visit d' t id) := by
  induction d generalizing d' t id with
  | zero => cases hd
  | succ d ih =>
    obtain ⟨d', rfl⟩ : ∃ k, d' = k + 1 := ⟨d' - 1, by omega⟩
    simp only [visit]
    split
    · exact .ok t
    · rename_i hmet
      refine (p.inputs_agrees id).bind fun cs hcs => ?_
      have hlt := card_unmet_lt (lt_size_of_inputs hcs) hmet
      have hfold : Agrees .cycleDetected (cs.foldlM (p.visit d) { t with met := id :: t.met })
          (cs.foldlM (p.visit d') { t with met := id :: t.met }) := by
        refine .foldlM (P := fun t => (p.unmet t).card < d ∧ (p.unmet t).card < d')
          (fun c _ t ht => ih ht.1 ht.2) (fun c _ t t' ht hv => ?_) ⟨by omega, by omega⟩
        have hle := Finset.card_le_card (unmet_subset (p := p) (met_subset_of_visit hv))
        exact ⟨Nat.lt_of_le_of_lt hle ht.1, Nat.lt_of_le_of_lt hle ht.2⟩
      exact hfold.bind fun t' _ => .ok _

theorem visit_terminates (p : Plan) (id : NodeId) :
    p.Terminates .cycleDetected (p.visit · ⟨[], []⟩ id) := by
  have hlt {d} (hd : p.depth ≤ d) : (p.unmet ⟨[], []⟩).card < d := by
    refine Nat.lt_of_le_of_lt (Finset.card_filter_le _ _) ?_
    rw [Finset.card_range]
    exact hd
  exact fun d d' hd hd' => visit_agrees (hlt hd) (hlt hd')

/-! ## Explaining -/

theorem WF.explainWithin_agrees (h : p.WF) (hd : p.height a < d) (hd' : p.height a < d') :
    ∀ indent, Agrees .cycleDetected (p.explainWithin d indent a) (p.explainWithin d' indent a) := by
  refine bounded_induction (P := fun d d' id => ∀ indent,
    Agrees .cycleDetected (p.explainWithin d indent id) (p.explainWithin d' indent id)) ?_ hd hd'
  intro d d' id ih indent
  simp only [explainWithin]
  refine (p.node_agrees id).bind fun n _ => (p.inputs_agrees id).bind fun cs hcs => ?_
  have hbelow := Agrees.mapM fun c hc => ih c (h.height_lt_of_inputs hcs hc) (indent + 1)
  exact hbelow.bind fun below _ => .ok _

end Plan
end RelPlan
