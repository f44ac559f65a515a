import RelPlan.Plan.Construct
import RelPlan.Proofs.Plan.Redirect
import RelPlan.Proofs.Program.Expansion

/-! # Built plans

A plan is built from the empty one by adding nodes and replacing them, where every node comes from
its constructor over the plan or an earlier state of it (`Plan.Built`). Built plans are well formed
and well typed (`Plan.Built.good`), and replacing keeps the types that ids have
(`Plan.Extends`). -/

namespace RelPlan
namespace Plan

open Relation

/-- The node comes from a constructor over the plan. -/
inductive Constructed (p : Plan) : Node → Prop where
  | scan : p.Constructed (.scan table rt)
  | values : newValues rt rows = .ok n → p.Constructed n
  | filter : p.newFilter i c = .ok n → p.Constructed n
  | project : p.newProject i es names = .ok n → p.Constructed n
  | projectFields : p.newProjectFields i names = .ok n → p.Constructed n
  | compute : program.Valid → p.newCompute i program = .ok n → p.Constructed n
  | join : p.newJoin l r kind c = .ok n → p.Constructed n

/-- The states that a plan has gone through, the last one first. -/
inductive History : List Plan → Prop where
  | empty : History [empty]
  | add {n : Node} : History (p :: ps) → p₀ ∈ p :: ps → p₀.Constructed n →
      History ((p.add n).2 :: p :: ps)
  | replace : History (p :: ps) → p.replace old new = .ok q → History (q :: p :: ps)
  | replaceWith {n : Node} : History (p :: ps) → p₀ ∈ p :: ps → p₀.Constructed n →
      p.replaceWith old n = .ok (new, q) → History (q :: p :: ps)

/-- The plan can be reached from the empty one. -/
def Built (p : Plan) : Prop := ∃ ps, History (p :: ps)

/-! ## Types of nodes -/

/-- Expressions and programs of the node fit the types of its inputs. -/
inductive NodeTyped (p : Plan) : Node → Prop where
  | scan : p.NodeTyped (.scan table rt)
  | values : (∀ row ∈ rows, Row.conforms row rt.types) → p.NodeTyped (.values rt rows)
  | filter {c : Expr} : p.HasTypes i rt.types → c.type rt [] = .ok t → t.isCondition →
      p.NodeTyped (.filter i c rt)
  | project {rt out : RowType} : p.HasTypes i rt.types →
      Program.ColumnsTyped rt es out.types →
      p.NodeTyped (.project i es out)
  | compute {program : Program} : p.HasTypes i program.inputType.types → program.Valid →
      p.NodeTyped (.compute i program)
  | join {rt : RowType} {c : Option Expr} : p.HasTypes l ts → p.HasTypes r us →
      rt.types = ts ++ us → Program.ConditionTyped rt c →
      p.NodeTyped (.join l r kind c rt)

/-- Well formed and well typed. -/
structure Good (p : Plan) : Prop where
  wf : p.WF
  typed : ∀ a n, p.rawNode a = .ok n → p.NodeTyped n

/-- The second plan gives the types of the first one to all its ids. -/
def Extends (p q : Plan) : Prop := ∀ a ts, p.HasTypes a ts → q.HasTypes a ts

variable {p q : Plan} {a b i old new : NodeId} {n : Node} {ts : List ScalarType}

theorem Extends.refl (p : Plan) : p.Extends p := fun _ _ => id

theorem Extends.trans {r : Plan} (h : p.Extends q) (h' : q.Extends r) : p.Extends r :=
  fun a ts ha => h' a ts (h a ts ha)

theorem NodeTyped.mono (h : p.NodeTyped n) (hpq : p.Extends q) : q.NodeTyped n := by
  cases h with
  | scan => exact .scan
  | values hrows => exact .values hrows
  | filter hi hc ht => exact .filter (hpq _ _ hi) hc ht
  | project hi hes => exact .project (hpq _ _ hi) hes
  | compute hi hp => exact .compute (hpq _ _ hi) hp
  | join hl hr hrt hc => exact .join (hpq _ _ hl) (hpq _ _ hr) hrt hc

theorem NodeTyped.exists_types (h : p.NodeTyped n) (hi : i ∈ n.inputs) : ∃ ts, p.HasTypes i ts := by
  cases h with
  | scan | values => simp [Node.inputs] at hi
  | filter h _ _ | project h _ | compute h _ =>
    obtain rfl := List.mem_singleton.mp hi
    exact ⟨_, h⟩
  | join hl hr _ _ =>
    simp only [Node.inputs, List.mem_cons, List.not_mem_nil, or_false] at hi
    rcases hi with rfl | rfl
    · exact ⟨_, hl⟩
    · exact ⟨_, hr⟩

theorem hasTypes_of_rowType {rt : RowType} (h : p.rowType a = .ok rt) : p.HasTypes a rt.types := by
  obtain ⟨n, hn, rfl⟩ := rowType_eq_ok_iff.mp h
  exact ⟨n, hn, rfl⟩

theorem Good.node_typed (h : p.Good) (ha : p.node a = .ok n) : p.NodeTyped n := h.typed _ _ ha

/-! ## Constructors -/

theorem exprType_eq_ok_iff {rt : RowType} {e : Expr} :
    exprType rt e = .ok t ↔ e.type rt [] = .ok t := Except.mapError_eq_ok_iff

theorem checkRows_eq_ok {rt : RowType} {rows : List Row} (h : checkRows rt i rows = .ok ()) :
    ∀ row ∈ rows, row.conforms rt.types := by
  induction rows generalizing i with
  | nil => simp
  | cons row rows ih =>
    simp only [checkRows] at h
    split at h
    · rename_i hrow
      exact List.forall_mem_cons.mpr ⟨hrow, ih h⟩
    · cases h

theorem newProject_typed {es : List Expr} {names : List String}
    (h : p.newProject i es names = .ok n) : p.NodeTyped n := by
  simp only [newProject] at h
  split at h
  · cases h
  rename_i hlen
  obtain ⟨rt, hrt, h⟩ := Except.bind_eq_ok_iff.mp h
  obtain ⟨out, hout, h⟩ := Except.bind_eq_ok_iff.mp h
  obtain rfl := Except.ok.inj h
  refine .project (hasTypes_of_rowType hrt) ?_
  have hlen : (es.zip names).map Prod.fst = es := List.map_fst_zip (by omega)
  rw [← hlen, Program.ColumnsTyped, List.forall₂_map_left_iff, RowType.types,
    List.forall₂_map_right_iff]
  refine (List.mapM_eq_ok_iff.mp hout).imp ?_
  intro c f hf
  obtain ⟨t, ht, hf⟩ := Except.bind_eq_ok_iff.mp hf
  obtain rfl := Except.ok.inj hf
  exact exprType_eq_ok_iff.mp ht

/-- What a constructor makes is well typed. -/
theorem Constructed.typed (h : p.Constructed n) : p.NodeTyped n := by
  cases h with
  | scan => exact .scan
  | values h =>
    obtain ⟨_, hrows, h⟩ := Except.bind_eq_ok_iff.mp h
    obtain rfl := Except.ok.inj h
    exact .values (checkRows_eq_ok hrows)
  | filter h =>
    obtain ⟨rt, hrt, h⟩ := Except.bind_eq_ok_iff.mp h
    obtain ⟨t, ht, h⟩ := Except.bind_eq_ok_iff.mp h
    split at h
    · rename_i hcond
      obtain rfl := Except.ok.inj h
      exact .filter (hasTypes_of_rowType hrt) (exprType_eq_ok_iff.mp ht) hcond
    · cases h
  | project h => exact newProject_typed h
  | projectFields h =>
    obtain ⟨_, _, h⟩ := Except.bind_eq_ok_iff.mp h
    obtain ⟨_, _, h⟩ := Except.bind_eq_ok_iff.mp h
    exact newProject_typed h
  | compute hp h =>
    obtain ⟨rt, hrt, h⟩ := Except.bind_eq_ok_iff.mp h
    split at h
    · rename_i hshape
      obtain rfl := Except.ok.inj h
      have hshape : RowType.types _ = rt.types := of_decide_eq_true hshape
      exact .compute (hshape ▸ hasTypes_of_rowType hrt) hp
    · cases h
  | join h =>
    obtain ⟨lrt, hl, h⟩ := Except.bind_eq_ok_iff.mp h
    obtain ⟨rrt, hr, h⟩ := Except.bind_eq_ok_iff.mp h
    have htypes : RowType.types (lrt ++ rrt) = lrt.types ++ rrt.types := List.map_append
    split at h
    · obtain rfl := Except.ok.inj h
      exact .join (hasTypes_of_rowType hl) (hasTypes_of_rowType hr) htypes
        Program.conditionTyped_none
    · obtain ⟨t, ht, h⟩ := Except.bind_eq_ok_iff.mp h
      split at h
      · rename_i hcond
        obtain rfl := Except.ok.inj h
        exact .join (hasTypes_of_rowType hl) (hasTypes_of_rowType hr) htypes
          (Program.conditionTyped_some (exprType_eq_ok_iff.mp ht) hcond)
      · cases h

/-! ## Steps -/

theorem WF.extends_add (h : p.WF) : p.Extends (p.add n).2 := by
  rintro a ts ⟨m, hm, hts⟩
  exact ⟨m, (h.node_add (lt_size_of_node hm)).trans hm, hts⟩

theorem Good.add (h : p.Good) (hn : p.NodeTyped n) : (p.add n).2.Good where
  wf := h.wf.add fun i hi => (hn.exists_types hi).choose_spec.lt_size
  typed a m ha := by
    have hlt := lt_size_of_rawNode ha
    rw [size_add] at hlt
    rcases Nat.lt_or_eq_of_le (Nat.le_of_lt_succ hlt) with hlt | rfl
    · rw [rawNode_add_of_lt hlt] at ha
      exact (h.typed a m ha).mono h.wf.extends_add
    · rw [rawNode_add_size] at ha
      exact Except.ok.inj ha ▸ hn.mono h.wf.extends_add

/-- A redirection to a node of the same types keeps a plan well typed. -/
theorem Good.redirect (h : p.Good) (hwf : q.WF) (hred : p.Redirects q old new)
    (hold : p.HasTypes old ts) (hnew : q.rawNode new = .ok n) (hn : n.rowType.types = ts)
    (hold_or : ∀ a m, q.rawNode a = .ok m → a < p.size ∨ p.NodeTyped m) :
    q.Good ∧ p.Extends q := by
  have hext : p.Extends q := fun a ts ha => hred.hasTypes h.wf hold hnew hn ha
  refine ⟨⟨hwf, fun a m ha => ?_⟩, hext⟩
  rcases hold_or a m ha with hlt | hm
  · rw [hred.rawNode a hlt] at ha
    exact (h.typed a m ha).mono hext
  · exact hm.mono hext

theorem Good.replace (h : p.Good) (hq : p.replace old new = .ok q) : q.Good ∧ p.Extends q := by
  rcases h.wf.replace_eq_ok_iff.mp hq with ⟨ts, us, ha, hb, ⟨-, rfl⟩ | ⟨-, rfl, hback, rfl⟩⟩
  · exact ⟨h, .refl _⟩
  · rw [← h.wf.hasTypes_resolve] at ha hb
    obtain ⟨hwf, hred⟩ := h.wf.setForward_existing ha.lt_size hb.lt_size (h.wf.forward?_resolve _)
      (h.wf.forward?_resolve _) hback
    obtain ⟨n, hn, hts⟩ := hb
    rw [h.wf.node_resolve, node, ← rawNode_setForward] at hn
    refine h.redirect hwf hred ha hn hts fun a m hm => .inl ?_
    simpa using lt_size_of_rawNode hm

theorem Good.replaceWith (h : p.Good) (hn : p.NodeTyped n)
    (hq : p.replaceWith old n = .ok (new, q)) : q.Good ∧ p.Extends q := by
  obtain ⟨ha, hinputs, rfl, rfl⟩ := h.wf.replaceWith_eq_ok_iff.mp hq
  rw [← h.wf.hasTypes_resolve] at ha
  obtain ⟨hwf, hred⟩ := h.wf.setForward_add ha.lt_size (h.wf.forward?_resolve _) hinputs
  have hnew : ((p.add n).2.setForward (p.resolve old) p.size).rawNode p.size = .ok n := by
    rw [rawNode_setForward, rawNode_add_size]
  apply h.redirect hwf hred ha hnew rfl
  intro a m hm
  have hlt := lt_size_of_rawNode hm
  rw [size_setForward, size_add] at hlt
  rcases Nat.lt_or_eq_of_le (Nat.le_of_lt_succ hlt) with hlt | rfl
  · exact .inl hlt
  · exact .inr (Except.ok.inj (hnew.symm.trans hm) ▸ hn)

theorem good_empty : empty.Good where
  wf := ⟨fun h => absurd h.lt_size (Nat.not_lt_zero _), fun _ => 0,
    fun _ _ h => absurd h.lt_size (Nat.not_lt_zero _)⟩
  typed _ _ h := absurd (lt_size_of_rawNode h) (Nat.not_lt_zero _)

/-- Every state of a plan is well formed and well typed, and its types are kept. -/
theorem History.good {ps : List Plan} (h : History (p :: ps)) :
    p.Good ∧ ∀ p₀ ∈ p :: ps, p₀.Extends p := by
  generalize hps : p :: ps = states at h
  induction h generalizing p ps with
  | empty =>
    cases hps
    exact ⟨good_empty, by simpa using .refl _⟩
  | @add p' ps' p₀ n _ hp₀ hn ih =>
    cases hps
    obtain ⟨hgood, hext⟩ := ih rfl
    refine ⟨hgood.add (hn.typed.mono (hext _ hp₀)), List.forall_mem_cons.mpr ⟨.refl _, ?_⟩⟩
    exact fun p₁ hp₁ => (hext p₁ hp₁).trans hgood.wf.extends_add
  | replace _ hq ih =>
    cases hps
    obtain ⟨hgood, hext⟩ := ih rfl
    obtain ⟨hgood', hext'⟩ := hgood.replace hq
    exact ⟨hgood', List.forall_mem_cons.mpr ⟨.refl _, fun p₁ hp₁ => (hext p₁ hp₁).trans hext'⟩⟩
  | replaceWith _ hp₀ hn hq ih =>
    cases hps
    obtain ⟨hgood, hext⟩ := ih rfl
    obtain ⟨hgood', hext'⟩ := hgood.replaceWith (hn.typed.mono (hext _ hp₀)) hq
    exact ⟨hgood', List.forall_mem_cons.mpr ⟨.refl _, fun p₁ hp₁ => (hext p₁ hp₁).trans hext'⟩⟩

theorem Built.empty : Built empty := ⟨_, .empty⟩

theorem Built.add (h : p.Built) (hn : p.Constructed n) : (p.add n).2.Built :=
  let ⟨_, hps⟩ := h
  ⟨_, hps.add List.mem_cons_self hn⟩

theorem Built.replace (h : p.Built) (hq : p.replace old new = .ok q) : q.Built :=
  let ⟨_, hps⟩ := h
  ⟨_, hps.replace hq⟩

theorem Built.replaceWith (h : p.Built) (hn : p.Constructed n)
    (hq : p.replaceWith old n = .ok (new, q)) : q.Built :=
  let ⟨_, hps⟩ := h
  ⟨_, hps.replaceWith List.mem_cons_self hn hq⟩

theorem Built.good (h : p.Built) : p.Good :=
  let ⟨_, h⟩ := h
  h.good.1

end Plan
end RelPlan
