import Mathlib.Data.List.Lex
import RelPlan.Proofs.Result
import RelPlan.Rewrite.Rule

/-! # Positions of patterns

A position says which inputs lead to a part of a pattern (`Pattern.at?`), and by the same inputs to
a node of a plan (`Plan.descend?`). A pattern binds exactly where this takes each of its positions to
a node of a kind that is admitted there (`Pattern.Embeds`), and then the match lists these nodes by
position, in the order in which the pattern is written (`Pattern.bind_embeds`). -/

namespace RelPlan

/-- Which inputs lead to a place from the root, the first one first. -/
abbrev Position := List Nat

/-- The node to which the inputs lead, as they are replaced now. -/
def Plan.descend? (p : Plan) : NodeId → Position → Option NodeId
  | id, [] => some id
  | id, k :: path => do
    let i ← (← (p.inputs id).toOption)[k]?
    p.descend? i path

namespace Pattern

def inputs : Pattern → List Pattern
  | node _ inputs => inputs

/-- The part of the pattern at a position. -/
def at? : Pattern → Position → Option Pattern
  | p, [] => some p
  | p, k :: path => do
    let q ← p.inputs[k]?
    q.at? path

mutual

/-- The positions of the pattern: each part before its inputs, and these in their order. -/
def positions : Pattern → List Position
  | node _ inputs => [] :: positionsFrom inputs 0

/-- The positions in patterns for the inputs from number `k` on. -/
def positionsFrom : List Pattern → (k : Nat) → List Position
  | [], _ => []
  | p :: ps, k => p.positions.map (k :: ·) ++ positionsFrom ps (k + 1)

end

/-- Each position of the pattern leads from the node to one of a kind that is admitted there. -/
def Embeds (plan : Plan) (p : Pattern) (id : NodeId) : Prop :=
  ∀ path q, p.at? path = some q →
    ∃ a n, plan.descend? id path = some a ∧ plan.node a = .ok n ∧ q.test.admits n.kind

/-- What holds of a pattern if it holds of its inputs holds of all patterns. -/
@[induction_eliminator]
theorem induct {P : Pattern → Prop}
    (node : ∀ test inputs, (∀ p ∈ inputs, P p) → P (.node test inputs)) (p : Pattern) : P p :=
  Pattern.rec (motive_1 := P) (motive_2 := fun ps => ∀ p ∈ ps, P p) node (List.forall_mem_nil P)
    (fun _ _ hp hps => List.forall_mem_cons.mpr ⟨hp, hps⟩) p

variable {plan : Plan} {p q : Pattern} {test : KindTest} {inputs ps : List Pattern}
  {path : Position} {k : Nat} {n : Node} {id : NodeId} {ids below : List NodeId}

theorem at?_node_cons :
    (node test inputs).at? (k :: path) = inputs[k]?.bind fun q => q.at? path := rfl

/-! ## Order -/

theorem mem_positionsFrom : path ∈ positionsFrom ps k ↔
    ∃ j q rest, path = (k + j) :: rest ∧ ps[j]? = some q ∧ rest ∈ q.positions := by
  induction ps generalizing k with
  | nil => simp [positionsFrom]
  | cons p ps ih =>
    rw [positionsFrom, List.mem_append, List.mem_map, ih]
    constructor
    · rintro (⟨rest, hrest, rfl⟩ | ⟨j, q, rest, rfl, hj, hrest⟩)
      · exact ⟨0, p, rest, rfl, rfl, hrest⟩
      · exact ⟨j + 1, q, rest, by rw [Nat.add_assoc, Nat.add_comm 1 j], hj, hrest⟩
    · rintro ⟨j, q, rest, rfl, hj, hrest⟩
      cases j with
      | zero =>
        obtain rfl := Option.some.inj hj
        exact .inl ⟨rest, hrest, rfl⟩
      | succ j => exact .inr ⟨j, q, rest, by rw [Nat.add_assoc, Nat.add_comm 1 j], hj, hrest⟩

/-- Every part of the pattern has its position. -/
theorem mem_positions : path ∈ p.positions ↔ ∃ q, p.at? path = some q := by
  induction p generalizing path with
  | node test inputs ih =>
    rw [positions, List.mem_cons, mem_positionsFrom]
    cases path with
    | nil => simp [at?]
    | cons k path =>
      simp only [at?_node_cons, Option.bind_eq_some_iff]
      constructor
      · rintro (h | ⟨j, q, rest, h, hj, hrest⟩)
        · cases h
        · rw [Nat.zero_add] at h
          obtain ⟨rfl, rfl⟩ := List.cons.inj h
          obtain ⟨r, hr⟩ := (ih q (List.mem_of_getElem? hj)).mp hrest
          exact ⟨r, q, hj, hr⟩
      · rintro ⟨r, q, hq, hr⟩
        exact .inr ⟨k, q, path, by rw [Nat.zero_add], hq,
          (ih q (List.mem_of_getElem? hq)).mpr ⟨r, hr⟩⟩

theorem pairwise_positionsFrom (h : ∀ p ∈ ps, p.positions.Pairwise (· < ·)) :
    (positionsFrom ps k).Pairwise (· < ·) := by
  induction ps generalizing k with
  | nil => exact .nil
  | cons p ps ih =>
    obtain ⟨hp, hps⟩ := List.forall_mem_cons.mp h
    rw [positionsFrom, List.pairwise_append, List.pairwise_map]
    refine ⟨hp.imp fun hab => List.cons_lt_cons_iff.mpr (.inr ⟨rfl, hab⟩), ih hps, ?_⟩
    intro a ha b hb
    obtain ⟨rest, -, rfl⟩ := List.mem_map.mp ha
    obtain ⟨j, q, rest', rfl, -, -⟩ := mem_positionsFrom.mp hb
    exact List.cons_lt_cons_iff.mpr (.inl (by omega))

/-- Positions come in lexicographic order, so none of them comes twice. -/
theorem pairwise_positions (p : Pattern) : p.positions.Pairwise (· < ·) := by
  induction p with
  | node test inputs ih =>
    rw [positions, List.pairwise_cons]
    refine ⟨fun path hpath => ?_, pairwise_positionsFrom ih⟩
    obtain ⟨j, q, rest, rfl, -, -⟩ := mem_positionsFrom.mp hpath
    exact List.nil_lt_cons _ _

/-! ## Embeddings -/

/-- The first input on the way, and then the rest of the way. -/
theorem descend?_cons (hn : plan.node id = .ok n) : plan.descend? id (k :: path) =
    (n.inputs.map plan.resolve)[k]?.bind (plan.descend? · path) := by
  simp [Plan.descend?, Plan.inputs, hn, Except.toOption]

/-- A pattern embeds at a node that passes its test if its inputs embed at those of the node. -/
theorem embeds_node : Embeds plan (.node test inputs) id ↔
    ∃ n, plan.node id = .ok n ∧ test.admits n.kind ∧
      ∀ (k : Nat) q, inputs[k]? = some q →
        ∃ i, (n.inputs.map plan.resolve)[k]? = some i ∧ Embeds plan q i := by
  constructor
  · intro h
    obtain ⟨a, n, ha, hn, ht⟩ := h [] _ rfl
    obtain rfl : id = a := Option.some.inj ha
    refine ⟨n, hn, ht, fun k q hq => ?_⟩
    have hat (path : Position) : at? (.node test inputs) (k :: path) = q.at? path := by
      rw [at?_node_cons, hq, Option.bind_some]
    obtain ⟨i, -, hi, -⟩ := h [k] q (hat [])
    rw [descend?_cons hn, Option.bind_eq_some_iff] at hi
    obtain ⟨i, hi, -⟩ := hi
    refine ⟨i, hi, fun path r hr => ?_⟩
    have hsub := h (k :: path) r ((hat path).trans hr)
    rwa [descend?_cons hn, hi, Option.bind_some] at hsub
  · rintro ⟨n, hn, ht, h⟩ path r hr
    cases path with
    | nil =>
      obtain rfl := Option.some.inj hr
      exact ⟨id, n, rfl, hn, ht⟩
    | cons k path =>
      rw [at?_node_cons, Option.bind_eq_some_iff] at hr
      obtain ⟨q, hq, hr⟩ := hr
      obtain ⟨i, hi, hembeds⟩ := h k q hq
      obtain ⟨a, m, ha, hm, ht'⟩ := hembeds path r hr
      exact ⟨a, m, by rw [descend?_cons hn, hi, Option.bind_some, ha], hm, ht'⟩

/-- Patterns bind to inputs if each of them binds to its own. -/
theorem bindInputs_isSome_iff : (bindInputs plan ps ids).isSome ↔
    ∀ (k : Nat) q, ps[k]? = some q → ∃ i, ids[k]? = some i ∧ (q.bindBelow plan i).isSome := by
  induction ps generalizing ids with
  | nil => simp [bindInputs]
  | cons p ps ih =>
    cases ids with
    | nil => exact iff_of_false Bool.false_ne_true fun h => by simpa using h 0 p rfl
    | cons i ids =>
      have hcons : (bindInputs plan (p :: ps) (i :: ids)).isSome ↔
          (p.bindBelow plan i).isSome ∧ (bindInputs plan ps ids).isSome := by
        cases h : p.bindBelow plan i <;> cases h' : bindInputs plan ps ids <;>
          simp [bindInputs, h, h']
      rw [hcons, ih]
      constructor
      · rintro ⟨hp, hps⟩ k q hq
        cases k with
        | zero =>
          obtain rfl := Option.some.inj hq
          exact ⟨i, rfl, hp⟩
        | succ k => exact hps k q hq
      · intro h
        obtain ⟨j, hj, hp⟩ := h 0 p rfl
        obtain rfl := Option.some.inj hj
        exact ⟨hp, fun k q hq => h (k + 1) q hq⟩

/-- A pattern binds to a node that passes its test if its inputs bind to those of the node. -/
theorem bindBelow_node_eq_some_iff : (node test inputs).bindBelow plan id = some below ↔
    ∃ n, plan.node id = .ok n ∧ test.admits n.kind ∧
      bindInputs plan inputs (n.inputs.map plan.resolve) = some below := by
  rw [bindBelow]
  cases plan.node id with
  | error e => simp
  | ok n => cases h : test.admits n.kind <;> simp [h]

/-- Patterns bind exactly where they embed. -/
theorem bindBelow_isSome_iff : (p.bindBelow plan id).isSome ↔ Embeds plan p id := by
  induction p generalizing id with
  | node test inputs ih =>
    simp only [Option.isSome_iff_exists, bindBelow_node_eq_some_iff, embeds_node]
    constructor
    · rintro ⟨below, n, hn, ht, hbelow⟩
      refine ⟨n, hn, ht, fun k q hq => ?_⟩
      obtain ⟨i, hi, hbind⟩ := bindInputs_isSome_iff.mp (Option.isSome_of_eq_some hbelow) k q hq
      exact ⟨i, hi, (ih q (List.mem_of_getElem? hq)).mp hbind⟩
    · rintro ⟨n, hn, ht, hinputs⟩
      have hbind : (bindInputs plan inputs (n.inputs.map plan.resolve)).isSome := by
        refine bindInputs_isSome_iff.mpr fun k q hq => ?_
        obtain ⟨i, hi, hembeds⟩ := hinputs k q hq
        exact ⟨i, hi, (ih q (List.mem_of_getElem? hq)).mpr hembeds⟩
      obtain ⟨below, hbelow⟩ := Option.isSome_iff_exists.mp hbind
      exact ⟨below, n, hn, ht, hbelow⟩

theorem bind_isSome_iff : (p.bind plan id).isSome ↔ Embeds plan p (plan.resolve id) := by
  rw [bind, Option.isSome_map, bindBelow_isSome_iff]

/-! ## Matches -/

/-- A match of the pattern lists, from its root on, what its positions lead to. -/
def Lists (plan : Plan) (p : Pattern) : Prop :=
  ∀ id below, p.bindBelow plan id = some below →
    (id :: below).map some = p.positions.map (plan.descend? id)

/-- Patterns for the inputs from number `k` on list what their positions lead to from the node. -/
theorem map_bindInputs (hn : plan.node id = .ok n) (h : ∀ p ∈ ps, Lists plan p)
    (hbelow : bindInputs plan ps ((n.inputs.map plan.resolve).drop k) = some below) :
    below.map some = (positionsFrom ps k).map (plan.descend? id) := by
  induction ps generalizing k below with
  | nil =>
    obtain rfl := Option.some.inj hbelow
    rfl
  | cons p ps ih =>
    obtain ⟨hp, hps⟩ := List.forall_mem_cons.mp h
    cases hdrop : (n.inputs.map plan.resolve).drop k with
    | nil => simp [hdrop, bindInputs] at hbelow
    | cons i ids =>
      have hi : (n.inputs.map plan.resolve)[k]? = some i := by
        rw [← List.head?_drop, hdrop, List.head?_cons]
      have hids : (n.inputs.map plan.resolve).drop (k + 1) = ids := by
        rw [← List.tail_drop, hdrop, List.tail_cons]
      rw [hdrop, bindInputs] at hbelow
      simp only [Option.bind_eq_bind, Option.bind_eq_some_iff] at hbelow
      obtain ⟨below', hbelow', rest, hrest, heq⟩ := hbelow
      obtain rfl := Option.some.inj heq
      have hdescend : plan.descend? id ∘ (k :: ·) = plan.descend? i := by
        funext path
        rw [Function.comp_apply, descend?_cons hn, hi, Option.bind_some]
      rw [positionsFrom, List.map_append, List.map_append, List.map_map, hdescend, hp i _ hbelow',
        ih hps (hids ▸ hrest)]

theorem lists (p : Pattern) : Lists plan p := by
  induction p with
  | node test inputs ih =>
    intro id below hbelow
    obtain ⟨n, hn, -, hbelow⟩ := bindBelow_node_eq_some_iff.mp hbelow
    have hmap : below.map some = (positionsFrom inputs 0).map (plan.descend? id) :=
      map_bindInputs hn ih (by rw [List.drop_zero, hbelow])
    rw [positions, List.map_cons, List.map_cons, hmap, Plan.descend?]

/-- A pattern binds at a node exactly if each of its positions leads from there to a node that is
admitted at the position, and the match lists these nodes by position: from the root on, a part
before its inputs, and these in order. A call can ask for them by exactly the numbers below that of
the positions. -/
theorem bind_embeds (plan : Plan) (p : Pattern) (id : NodeId) :
    ((p.bind plan id).isSome ↔ Embeds plan p (plan.resolve id)) ∧
    (∀ path, path ∈ p.positions ↔ ∃ q, p.at? path = some q) ∧
    p.positions.Pairwise (· < ·) ∧
    ∀ m, p.bind plan id = some m →
      m.nodes.map some = p.positions.map (plan.descend? (plan.resolve id)) ∧
      ∀ (c : Call) (i : Nat), c.matched = m →
        ((∃ a, c.nodeId i = .ok a) ↔ i < p.positions.length) := by
  refine ⟨bind_isSome_iff, fun path => mem_positions, pairwise_positions p, fun m hm => ?_⟩
  obtain ⟨below, hbelow, rfl⟩ := Option.map_eq_some_iff.mp hm
  have hnodes : (Match.mk (plan.resolve id) below).nodes.map some =
      p.positions.map (plan.descend? (plan.resolve id)) := lists p _ below hbelow
  refine ⟨hnodes, fun c i hc => ?_⟩
  have hlength : c.matched.nodes.length = p.positions.length := by
    rw [hc, ← List.length_map some, hnodes, List.length_map]
  rw [← hlength, Call.nodeId]
  cases h : c.matched.nodes[i]? with
  | none => simpa using h
  | some a => simpa using (List.getElem?_eq_some_iff.mp h).1

/-- A join of a filter over a replaced scan and another scan. -/
def lopsided : Plan where
  slots := [
    ⟨.scan "t" [⟨"a", .int⟩], some 4⟩,
    ⟨.filter 0 (.literal (.bool true)) [⟨"a", .int⟩], none⟩,
    ⟨.scan "u" [⟨"b", .int⟩], none⟩,
    ⟨.join 1 2 .inner none [⟨"a", .int⟩, ⟨"b", .int⟩], none⟩,
    ⟨.scan "v" [⟨"a", .int⟩], none⟩]

/-- A join of a filter of any node and of what is not a join. -/
def filterInJoin : Pattern :=
  .node (.single .join) [.node (.single .filter) [.leaf .any], .leaf (.except [.join])]

/-- The replacement of the scan comes before the right side of the join. -/
theorem bind_embeds_lopsided : ∃ m, filterInJoin.bind lopsided 3 = some m ∧
    Embeds lopsided filterInJoin 3 ∧ m.nodes = [3, 1, 4, 2] ∧
    ∀ (c : Call) (i : Nat), c.matched = m → ((∃ a, c.nodeId i = .ok a) ↔ i < 4) := by
  have hm : filterInJoin.bind lopsided 3 = some ⟨3, [1, 4, 2]⟩ := by decide +kernel
  obtain ⟨hiff, -, -, hmatch⟩ := bind_embeds lopsided filterInJoin 3
  exact ⟨_, hm, hiff.mp (Option.isSome_of_eq_some hm), rfl, (hmatch _ hm).2⟩

end Pattern
end RelPlan
