import RelPlan.Proofs.Rewrite.Firing
import RelPlan.Proofs.Rewrite.Positions

/-! # Patterns that bind somewhere

No node has more inputs than its kind takes, so a pattern that asks for more binds nowhere
(`Pattern.Embeds.checkArity`). Any other pattern, if each of its tests can be passed, binds in a plan
that is put together for it, inputs first (`Pattern.attainable`). Hence validation refuses exactly
those patterns that bind nowhere (`Pattern.validate_eq_ok_iff`). -/

namespace RelPlan

/-- Each part of the pattern has a test that some kind of node passes. -/
def Pattern.Passable (pattern : Pattern) : Prop :=
  ∀ path q, pattern.at? path = some q → ∃ k, q.test.admits k

namespace Plan

/-- A plan with a node, to which nodes have been added only. -/
structure Grown (p : Plan) : Prop where
  built : p.Built
  pos : 0 < p.size
  forward : ∀ a, p.forward? a = none

/-- Ids of the first plan stand for the same nodes in the second one. -/
structure Keeps (p q : Plan) : Prop where
  node : ∀ a n, p.node a = .ok n → q.node a = .ok n
  resolve : ∀ a, q.resolve a = p.resolve a

end Plan

/-- Any plan can be extended so that the pattern embeds in it. -/
def Pattern.Attainable (pattern : Pattern) : Prop :=
  ∀ p : Plan, p.Grown → ∃ q id, q.Grown ∧ p.Keeps q ∧ Embeds q pattern id

variable {p q r : Plan} {a id : NodeId} {ids : List NodeId} {n : Node} {k : NodeKind}
  {path : Position} {pattern : Pattern} {test : KindTest} {inputs ps : List Pattern}

/-! ## Arities -/

theorem le_foldl_max_iff {b i : Nat} {bs : List Nat} :
    b ≤ bs.foldl max i ↔ b ≤ i ∨ ∃ c ∈ bs, b ≤ c := by
  induction bs generalizing i with
  | nil => simp
  | cons c bs ih => simp [ih, or_assoc]

/-- The greatest arity of the admitted kinds is that of one of them. -/
theorem KindTest.le_maxArity_iff (hk : test.admits k) {b : Nat} :
    b ≤ test.maxArity ↔ ∃ k, test.admits k ∧ b ≤ k.arity := by
  rw [maxArity, le_foldl_max_iff]
  simp only [List.mem_map, exists_exists_and_eq_and, mem_kinds]
  exact or_iff_right_of_imp fun hb => ⟨k, hk, Nat.le_trans hb (Nat.zero_le _)⟩

namespace Pattern

theorem checkArities_eq_ok_iff :
    checkArities ps = .ok () ↔ ∀ pattern ∈ ps, pattern.checkArity = .ok () := by
  induction ps with
  | nil => simp [checkArities]
  | cons pattern ps ih =>
    rw [checkArities, Except.bind_eq_ok_iff, List.forall_mem_cons, ih]
    exact ⟨fun ⟨_, h⟩ => h, fun h => ⟨(), h⟩⟩

theorem checkArity_node_eq_ok_iff : (node test inputs).checkArity = .ok () ↔
    inputs.length ≤ test.maxArity ∧ ∀ pattern ∈ inputs, pattern.checkArity = .ok () := by
  rw [checkArity, ← checkArities_eq_ok_iff]
  split
  · simp; omega
  · simp; omega

/-- A pattern that embeds asks nowhere for more inputs than there can be. -/
theorem Embeds.checkArity (h : Embeds p pattern id) : pattern.checkArity = .ok () := by
  induction pattern generalizing id with
  | node test inputs ih =>
    obtain ⟨n, hn, ht, hinputs⟩ := embeds_node.mp h
    refine checkArity_node_eq_ok_iff.mpr ⟨(KindTest.le_maxArity_iff ht).mpr ⟨n.kind, ht, ?_⟩, ?_⟩
    · rw [← n.length_inputs]
      by_contra hlt
      obtain ⟨i, hi, -⟩ := hinputs n.inputs.length _ (List.getElem?_eq_getElem (by omega))
      simp at hi
    · intro pattern hmem
      obtain ⟨j, hj⟩ := List.mem_iff_getElem?.mp hmem
      obtain ⟨i, -, hembeds⟩ := hinputs j pattern hj
      exact ih pattern hmem hembeds

theorem Embeds.lt_size (h : Embeds p pattern id) : id < p.size := by
  obtain ⟨a, n, ha, hn, -⟩ := h [] pattern rfl
  obtain rfl : id = a := Option.some.inj ha
  exact Plan.lt_size_of_node hn

theorem passable_node_iff : (node test inputs).Passable ↔
    (∃ k, test.admits k) ∧ ∀ pattern ∈ inputs, pattern.Passable := by
  constructor
  · intro h
    refine ⟨h [] _ rfl, fun pattern hmem path q hq => ?_⟩
    obtain ⟨j, hj⟩ := List.mem_iff_getElem?.mp hmem
    exact h (j :: path) q (by rw [at?_node_cons, hj, Option.bind_some, hq])
  · rintro ⟨htest, hinputs⟩ path q hq
    cases path with
    | nil =>
      obtain rfl := Option.some.inj hq
      exact htest
    | cons j path =>
      rw [at?_node_cons, Option.bind_eq_some_iff] at hq
      obtain ⟨pattern, hj, hq⟩ := hq
      exact hinputs pattern (List.mem_of_getElem? hj) path q hq

end Pattern

/-! ## Growing plans -/

namespace Plan

theorem Keeps.refl (p : Plan) : p.Keeps p := ⟨fun _ _ h => h, fun _ => rfl⟩

theorem Keeps.trans (h : p.Keeps q) (h' : q.Keeps r) : p.Keeps r where
  node a n hn := h'.node a n (h.node a n hn)
  resolve a := (h'.resolve a).trans (h.resolve a)

theorem WF.keeps_add (h : p.WF) : p.Keeps (p.add n).2 where
  node _ _ hm := (h.node_add (lt_size_of_node hm)).trans hm
  resolve := h.resolve_add

theorem Keeps.descend? (h : p.Keeps q) (ha : p.descend? id path = some a) :
    q.descend? id path = some a := by
  induction path generalizing id with
  | nil => exact ha
  | cons k path ih =>
    cases hn : p.node id with
    | error e => simp [Plan.descend?, Plan.inputs, hn, Except.toOption] at ha
    | ok n =>
      rw [Pattern.descend?_cons hn, Option.bind_eq_some_iff] at ha
      obtain ⟨i, hi, ha⟩ := ha
      rw [Pattern.descend?_cons (h.node id n hn), funext h.resolve, hi, Option.bind_some]
      exact ih ha

theorem Keeps.embeds (h : p.Keeps q) (hp : Pattern.Embeds p pattern id) :
    Pattern.Embeds q pattern id := fun path part hpart =>
  let ⟨a, n, ha, hn, ht⟩ := hp path part hpart
  ⟨a, n, h.descend? ha, h.node a n hn, ht⟩

/-- For each kind there is a node over any inputs, if there are as many as the kind takes. -/
theorem Good.exists_constructed (h : p.Good) (k : NodeKind) (hlength : ids.length = k.arity)
    (hids : ∀ i ∈ ids, i < p.size) : ∃ n, p.Constructed n ∧ n.kind = k ∧ n.inputs = ids := by
  have hrow : ∀ i ∈ ids, ∃ rt, p.rowType i = .ok rt := fun i hi =>
    let ⟨n, hn⟩ := h.wf.exists_node (hids i hi)
    ⟨n.rowType, rowType_eq_ok_iff.mpr ⟨n, hn, rfl⟩⟩
  match k, ids, hlength with
  | .scan, [], _ => exact ⟨.scan "" [], .scan, rfl, rfl⟩
  | .values, [], _ => exact ⟨_, .values (show newValues [] [] = .ok _ from rfl), rfl, rfl⟩
  | .filter, [i], _ =>
    obtain ⟨rt, hrt⟩ := hrow i List.mem_cons_self
    have hnew : p.newFilter i (.literal (.bool true)) =
        .ok (.filter i (.literal (.bool true)) rt) := by
      rw [newFilter, hrt]
      rfl
    exact ⟨_, .filter hnew, rfl, rfl⟩
  | .project, [i], _ =>
    obtain ⟨rt, hrt⟩ := hrow i List.mem_cons_self
    have hnew : p.newProject i [] [] = .ok (.project i [] []) := by
      rw [newProject, hrt]
      rfl
    exact ⟨_, .project hnew, rfl, rfl⟩
  | .compute, [i], _ =>
    obtain ⟨rt, hrt⟩ := hrow i List.mem_cons_self
    let program : Program := ⟨rt, [], [], none, []⟩
    have hnew : p.newCompute i program = .ok (.compute i program) := by
      simp [newCompute, hrt, program, RowType.sameShape]
    exact ⟨_, .compute (show program.Valid from rfl) hnew, rfl, rfl⟩
  | .join, [l, r], _ =>
    obtain ⟨lrt, hl⟩ := hrow l List.mem_cons_self
    obtain ⟨rrt, hr⟩ := hrow r (List.mem_cons_of_mem _ List.mem_cons_self)
    have hnew : p.newJoin l r .inner none = .ok (.join l r .inner none (lrt ++ rrt)) := by
      rw [newJoin, hl, hr]
      rfl
    exact ⟨_, .join hnew, rfl, rfl⟩

theorem Grown.add (h : p.Grown) (hn : p.Constructed n) : (p.add n).2.Grown where
  built := h.built.add hn
  pos := by simp
  forward a := forward?_add.trans (h.forward a)

theorem Grown.resolve (h : p.Grown) (a : NodeId) : p.resolve a = a :=
  resolve_of_forward?_eq_none (h.forward a)

theorem exists_grown : ∃ p : Plan, p.Grown :=
  ⟨(empty.add (.scan "" [])).2, Built.empty.add .scan, by simp,
    fun _ => forward?_add.trans rfl⟩

/-- A node of a kind over the given inputs and, if the kind takes more, any others. -/
theorem Grown.exists_node (h : p.Grown) (k : NodeKind) (hlength : ids.length ≤ k.arity)
    (hids : ∀ i ∈ ids, i < p.size) :
    ∃ n, p.Constructed n ∧ n.kind = k ∧ ∃ others, n.inputs = ids ++ others := by
  let others := List.replicate (k.arity - ids.length) 0
  have hall : (ids ++ others).length = k.arity := by
    rw [List.length_append, List.length_replicate, Nat.add_sub_cancel' hlength]
  have hothers : ∀ i ∈ others, i < p.size := fun i hi => List.eq_of_mem_replicate hi ▸ h.pos
  obtain ⟨n, hn, hk, hinputs⟩ := h.built.good.exists_constructed k hall
    (List.forall_mem_append.mpr ⟨hids, hothers⟩)
  exact ⟨n, hn, hk, others, hinputs⟩

end Plan

/-! ## Plans for patterns -/

namespace Pattern

/-- Patterns embed side by side, each after those before it. -/
theorem exists_embeds (h : ∀ pattern ∈ ps, pattern.Attainable) (hp : p.Grown) :
    ∃ q ids, q.Grown ∧ p.Keeps q ∧ List.Forall₂ (Embeds q) ps ids := by
  induction ps generalizing p with
  | nil => exact ⟨p, [], hp, .refl p, .nil⟩
  | cons pattern ps ih =>
    obtain ⟨hpattern, hps⟩ := List.forall_mem_cons.mp h
    obtain ⟨q, id, hq, hpq, hid⟩ := hpattern p hp
    obtain ⟨r, ids, hr, hqr, hids⟩ := ih hps hq
    exact ⟨r, id :: ids, hr, hpq.trans hqr, .cons (hqr.embeds hid) hids⟩

/-- A pattern whose tests can be passed embeds somewhere if it asks for no more inputs than there can
be: over its inputs stands a node of an admitted kind that takes so many. -/
theorem attainable (hpass : pattern.Passable) (harity : pattern.checkArity = .ok ()) :
    pattern.Attainable := by
  induction pattern with
  | node test inputs ih =>
    intro p hp
    obtain ⟨hlength, harity⟩ := checkArity_node_eq_ok_iff.mp harity
    obtain ⟨⟨_, hadmits⟩, hpass⟩ := passable_node_iff.mp hpass
    obtain ⟨k, hk, hle⟩ := (KindTest.le_maxArity_iff hadmits).mp hlength
    obtain ⟨q, ids, hq, hpq, hids⟩ := exists_embeds
      (fun pattern hmem => ih pattern hmem (hpass pattern hmem) (harity pattern hmem)) hp
    have hlt : ∀ i ∈ ids, i < q.size := by
      intro i hi
      obtain ⟨pattern, -, hembeds⟩ := hids.flip.exists_of_mem_left hi
      exact Embeds.lt_size hembeds
    obtain ⟨n, hn, rfl, others, hinputs⟩ := hq.exists_node k (hids.length_eq ▸ hle) hlt
    have hwf := hq.built.good.wf
    have hkeeps : q.Keeps (q.add n).2 := hwf.keeps_add
    refine ⟨(q.add n).2, q.size, hq.add hn, hpq.trans hkeeps, ?_⟩
    refine embeds_node.mpr ⟨n, hwf.node_add_size, hk, fun j pattern hj => ?_⟩
    have hresolve : n.inputs.map (q.add n).2.resolve = ids ++ others := by
      rw [funext (hq.add hn).resolve, List.map_id', hinputs]
    obtain ⟨hlt, rfl⟩ := List.getElem?_eq_some_iff.mp hj
    have hlt' : j < ids.length := hids.length_eq ▸ hlt
    refine ⟨ids[j], ?_, hkeeps.embeds (hids.get hlt hlt')⟩
    rw [hresolve, List.getElem?_append_left hlt', List.getElem?_eq_getElem hlt']

/-- Apart from the check of the root, validation is the check of the arities. -/
theorem Passable.validate_eq (hpass : pattern.Passable) (hany : pattern.test ≠ .any) :
    pattern.validate = pattern.checkArity := by
  obtain ⟨k, hk⟩ := hpass [] pattern rfl
  have hroot : k ∈ pattern.rootKinds := (mem_rootKinds hany).mpr hk
  rw [validate, if_neg (by simpa using List.ne_nil_of_mem hroot)]

/-- Validation accepts a pattern with a test for certain kinds at its root, and with tests that can be
passed, exactly if the pattern binds at some node of some plan, be it one that can be built or any
other. In particular, a pattern that asks for too many inputs binds nowhere. -/
theorem validate_eq_ok_iff (pattern : Pattern) (hany : pattern.test ≠ .any)
    (hpass : pattern.Passable) :
    (pattern.validate = .ok () ↔ ∃ p id, (pattern.bind p id).isSome) ∧
    (pattern.validate = .ok () → ∃ p id, p.Built ∧ id < p.size ∧ (pattern.bind p id).isSome) ∧
    ∀ test count max, pattern.validate = .error (.tooManyInputs test count max) →
      ∀ p id, pattern.bind p id = none := by
  rw [hpass.validate_eq hany]
  have hok (h : pattern.checkArity = .ok ()) :
      ∃ p id, p.Built ∧ id < p.size ∧ (pattern.bind p id).isSome := by
    obtain ⟨p, hp⟩ := Plan.exists_grown
    obtain ⟨q, id, hq, -, hembeds⟩ := attainable hpass h p hp
    exact ⟨q, id, hq.built, hembeds.lt_size, bind_isSome_iff.mpr ((hq.resolve id).symm ▸ hembeds)⟩
  refine ⟨⟨fun h => ?_, fun ⟨p, id, h⟩ => (bind_isSome_iff.mp h).checkArity⟩, hok, ?_⟩
  · obtain ⟨p, id, -, -, h⟩ := hok h
    exact ⟨p, id, h⟩
  · intro test count max herror p id
    by_contra hsome
    have hembeds : Embeds p pattern (p.resolve id) :=
      bind_isSome_iff.mp (Option.isSome_iff_ne_none.mpr hsome)
    cases herror.symm.trans hembeds.checkArity

/-- A pattern for any node first, and for a node over any other second. -/
def withTwoInputs (test : KindTest) : Pattern :=
  .node test [.leaf .any, .node (.except [.join]) [.leaf .any]]

theorem withTwoInputs_passable (hk : test.admits k) : (withTwoInputs test).Passable := by
  have hany : (leaf .any).Passable := passable_node_iff.mpr ⟨⟨.scan, rfl⟩, by simp⟩
  refine passable_node_iff.mpr ⟨⟨k, hk⟩, List.forall_mem_cons.mpr ⟨hany, ?_⟩⟩
  exact List.forall_mem_singleton.mpr
    (passable_node_iff.mpr ⟨⟨.scan, rfl⟩, List.forall_mem_singleton.mpr hany⟩)

/-- Two inputs are too many for a filter, but not for a filter or a join. -/
theorem validate_eq_ok_iff_withTwoInputs :
    (∃ p id, p.Built ∧ id < p.size ∧
      ((withTwoInputs (.multi [.filter, .join])).bind p id).isSome) ∧
    ∀ p id, (withTwoInputs (.single .filter)).bind p id = none := by
  obtain ⟨-, hbinds, -⟩ := validate_eq_ok_iff (withTwoInputs (.multi [.filter, .join]))
    (by simp [withTwoInputs, Pattern.test]) (withTwoInputs_passable (k := .join) rfl)
  obtain ⟨-, -, hnever⟩ := validate_eq_ok_iff (withTwoInputs (.single .filter))
    (by simp [withTwoInputs, Pattern.test]) (withTwoInputs_passable (k := .filter) rfl)
  exact ⟨hbinds rfl, hnever (.single .filter) 2 1 rfl⟩

end Pattern
end RelPlan
