import RelPlan.Proofs.Plan.Chronicle
import RelPlan.Proofs.Plan.Congruence

/-! # Joins

An inner join is a filter over the product of its sides, failures included. A left join gives, for
each left row in turn, the rows that the inner join gives for it, or the row beside nulls if there are
none (`Plan.WF.evaluate_joins`). -/

namespace RelPlan

/-- The rows that a left row is part of in an inner join, in the order of the right ones. -/
def partners (c : Option Expr) (right : List Row) (l : Row) : List Row :=
  (right.map (l ++ ·)).filter fun row => Expr.passes row.field c = .ok true

/-- The rows that a left row is part of in a left join, each with whether it is filled up with
nulls. -/
def keptRows (c : Option Expr) (width : Nat) (right : List Row) (l : Row) : List (Row × Bool) :=
  match partners c right l with
  | [] => [(l ++ List.replicate width .null, true)]
  | pairs => pairs.map (·, false)

section
variable {c : Option Expr} {width : Nat} {l row : Row} {left right rows out pairs : List Row}

/-! ## Filters -/

theorem filterRows_append (c : Expr) (rows rows' : List Row) :
    filterRows c (rows ++ rows') =
      (do return (← filterRows c rows) ++ (← filterRows c rows')) := by
  induction rows with
  | nil => cases h : filterRows c rows' <;> simp [filterRows, h]
  | cons row rows ih =>
    simp only [List.cons_append, filterRows, ih]
    cases c.holds row with
    | error => rfl
    | ok passes =>
      cases filterRows c rows with
      | error => rfl
      | ok => cases filterRows c rows' <;> cases passes <;> rfl

/-- The rows that are left are those on which the condition is true. -/
theorem eq_filter_of_filterRows {c : Expr} (h : filterRows c rows = .ok out) :
    out = rows.filter fun row => c.holds row = .ok true := by
  induction rows generalizing out with
  | nil => exact (Except.ok.inj h).symm
  | cons row rows ih =>
    obtain ⟨passes, hpasses, h⟩ := Except.bind_eq_ok_iff.mp h
    obtain ⟨rest, hrest, h⟩ := Except.bind_eq_ok_iff.mp h
    obtain rfl := Except.ok.inj h
    rw [List.filter_cons, hpasses, ← ih hrest]
    cases passes <;> rfl

/-! ## Pairs -/

/-- The product of the two sides is all pairs. -/
theorem joinRows_product :
    joinRows .inner none width right left = .ok (left.flatMap fun l => right.map (l ++ ·)) := by
  induction left with
  | nil => rfl
  | cons l left ih =>
    rw [joinRows, joinRow, Except.ok_bind, ih]
    simp

/-- An inner join is a filter over the product. -/
theorem joinRows_filtered (c : Expr) :
    joinRows .inner (some c) width right left =
      filterRows c (left.flatMap fun l => right.map (l ++ ·)) := by
  induction left with
  | nil => rfl
  | cons l left ih =>
    rw [joinRows, joinRow, ih, List.flatMap_cons, filterRows_append]
    simp

theorem eq_partners_of_joinRow (h : joinRow c l right = .ok pairs) : pairs = partners c right l := by
  cases c with
  | none =>
    obtain rfl := Except.ok.inj h
    simp [partners, Expr.passes]
  | some c => exact eq_filter_of_filterRows h

/-- No left row is lost: it begins each of the rows that it is part of, and there is one. -/
theorem keptRows_spec (c : Option Expr) (width : Nat) (right : List Row) (l : Row) :
    keptRows c width right l ≠ [] ∧ ∀ kept ∈ keptRows c width right l, l <+: kept.1 := by
  rw [keptRows]
  split
  · exact ⟨List.cons_ne_nil _ _, by simp⟩
  · rename_i hne
    refine ⟨by simpa using hne, fun kept hkept => ?_⟩
    obtain ⟨row, hrow, rfl⟩ := List.mem_map.mp hkept
    obtain ⟨r, -, rfl⟩ := List.mem_map.mp (List.mem_of_mem_filter hrow)
    exact List.prefix_append l r

/-- Without the rows that are filled up a left row has its partners. -/
theorem filter_keptRows (c : Option Expr) (width : Nat) (right : List Row) (l : Row) :
    ((keptRows c width right l).filter (!·.2)).map Prod.fst = partners c right l := by
  rw [keptRows]
  split
  · rename_i hnil
    rw [hnil]
    rfl
  · rw [List.filter_map, List.map_map]
    exact (congrArg _ (List.filter_eq_self.mpr fun _ _ => rfl)).trans (List.map_id _)

/-- A left join under a condition that has a value on all pairs, and the inner join beside it. -/
theorem joinRows_left (h : joinRows .left c width right left = .ok out) :
    out = (left.flatMap (keptRows c width right)).map Prod.fst ∧
      joinRows .inner c width right left = .ok (left.flatMap (partners c right)) := by
  induction left generalizing out with
  | nil =>
    obtain rfl := Except.ok.inj h
    exact ⟨rfl, rfl⟩
  | cons l left ih =>
    obtain ⟨pairs, hpairs, h⟩ := Except.bind_eq_ok_iff.mp h
    obtain ⟨rest, hrest, h⟩ := Except.bind_eq_ok_iff.mp h
    obtain rfl := Except.ok.inj h
    obtain ⟨hleft, hinner⟩ := ih hrest
    have hpartners := eq_partners_of_joinRow hpairs
    constructor
    · rw [List.flatMap_cons, List.map_append, ← hleft, keptRows, ← hpartners]
      cases pairs with
      | nil => rfl
      | cons => simp [Function.comp_def]
    · rw [joinRows, hpairs, hinner, Except.ok_bind, Except.ok_bind, List.flatMap_cons, ← hpartners]
      simp

end

namespace Plan

/-- The node is a join of the kind, under the condition, of the nodes that stand for the two ids. -/
def Joins (p : Plan) (a : NodeId) (kind : JoinKind) (c : Option Expr) (l r : NodeId) : Prop :=
  ∃ l' r' rt, p.node a = .ok (.join l' r' kind c rt) ∧
    p.resolve l' = p.resolve l ∧ p.resolve r' = p.resolve r

variable {p : Plan} {tables : Tables} {a l r : NodeId} {kind : JoinKind} {c : Option Expr} {n : Node}

theorem Joins.exists_width (h : p.WF) (ha : p.Joins a kind c l r) : ∃ rt, p.rowType r = .ok rt := by
  obtain ⟨l', r', rt, hn, -, hr⟩ := ha
  obtain ⟨m, hm⟩ := h.exists_node (h.input_lt hn (b := r') (by simp [Node.inputs]))
  have hnode : p.node r = .ok m := by rw [node, ← hr, ← node, hm]
  exact ⟨m.rowType, rowType_eq_ok_iff.mpr ⟨m, hnode, rfl⟩⟩

/-- A join is evaluated from the rows of its sides and the width of the right one. -/
theorem Joins.evaluate_eq {rt : RowType} (h : p.WF) (ha : p.Joins a kind c l r)
    (hrt : p.rowType r = .ok rt) :
    p.evaluate tables a =
      p.evaluate tables l >>= fun left => p.evaluate tables r >>= fun right =>
        (joinRows kind c rt.length right left).mapError .program := by
  obtain ⟨l', r', rt', hn, hl, hr⟩ := ha
  have hnode {i i'} (hi : p.resolve i' = p.resolve i) : p.node i' = p.node i := by rw [node, node, hi]
  have hwidth : p.rowType r' = .ok rt := by rw [rowType, hnode hr, ← rowType, hrt]
  rw [h.evaluate_eq hn, evaluateNode, hwidth, evaluate_congr (hnode hl), evaluate_congr (hnode hr)]
  rfl

/-- A filter over the product gives what the inner join gives, be it an error. -/
theorem WF.evaluate_filtered_product {e : Expr} {product f : NodeId} {rt : RowType} (h : p.WF)
    (ha : p.Joins a .inner (some e) l r) (hproduct : p.Joins product .inner none l r)
    (hf : p.node f = .ok (.filter product e rt)) : p.evaluate tables f = p.evaluate tables a := by
  obtain ⟨rrt, hrrt⟩ := ha.exists_width h
  rw [h.evaluate_eq hf, evaluateNode, hproduct.evaluate_eq h hrrt, ha.evaluate_eq h hrrt]
  cases p.evaluate tables l with
  | error => rfl
  | ok left =>
    cases p.evaluate tables r with
    | error => rfl
    | ok right =>
      rw [Except.ok_bind, Except.ok_bind, Except.ok_bind, Except.ok_bind, joinRows_product,
        joinRows_filtered]
      rfl

/-- What a left join gives, if it gives rows, and the inner joins of the same sides. -/
structure LeftJoined (p : Plan) (tables : Tables) (c : Option Expr) (l r : NodeId)
    (rows : List Row) (left right : List Row) (rrt : RowType) : Prop where
  left_eq : p.evaluate tables l = .ok left
  right_eq : p.evaluate tables r = .ok right
  type_eq : p.rowType r = .ok rrt
  rows_eq : rows = (left.flatMap (keptRows c rrt.length right)).map Prod.fst
  inner_eq : ∀ b, p.Joins b .inner c l r →
    p.evaluate tables b = .ok (left.flatMap (partners c right))
  /-- Dropping the rows that are filled up leaves those of the inner join. -/
  dropped : ((left.flatMap (keptRows c rrt.length right)).filter (!·.2)).map Prod.fst =
    left.flatMap (partners c right)
  /-- No left row is lost. -/
  kept : ∀ row ∈ left, ∃ out ∈ rows, row <+: out

theorem WF.exists_leftJoined {rows : List Row} (h : p.WF) (ha : p.Joins a .left c l r)
    (hrows : p.evaluate tables a = .ok rows) :
    ∃ left right rrt, p.LeftJoined tables c l r rows left right rrt := by
  obtain ⟨rrt, hrrt⟩ := ha.exists_width h
  rw [ha.evaluate_eq h hrrt] at hrows
  obtain ⟨left, hleft, hrows⟩ := Except.bind_eq_ok_iff.mp hrows
  obtain ⟨right, hright, hrows⟩ := Except.bind_eq_ok_iff.mp hrows
  obtain ⟨hout, hinner⟩ := joinRows_left (Except.mapError_eq_ok_iff.mp hrows)
  refine ⟨left, right, rrt, hleft, hright, hrrt, hout, fun b hb => ?_, ?_, fun row hrow => ?_⟩
  · rw [hb.evaluate_eq h hrrt, hleft, hright, Except.ok_bind, Except.ok_bind, hinner]
    rfl
  · rw [List.filter_flatMap, List.map_flatMap]
    exact congrArg (left.flatMap ·) (funext fun l => filter_keptRows c rrt.length right l)
  · obtain ⟨hne, hpre⟩ := keptRows_spec c rrt.length right row
    obtain ⟨out, hmem⟩ := List.exists_mem_of_ne_nil _ hne
    exact ⟨out.1, hout ▸ List.mem_map_of_mem (List.mem_flatMap.mpr ⟨row, hrow, hmem⟩), hpre out hmem⟩

/-- An inner join gives what a filter over the product gives, be it an error, and a left join gives
the rows of the inner one and the left rows that it leaves out, in their places and with as many nulls
as the right side has fields. -/
theorem WF.evaluate_joins (h : p.WF) (tables : Tables) (l r : NodeId) :
    (∀ a product f e rt, p.Joins a .inner (some e) l r → p.Joins product .inner none l r →
      p.node f = .ok (.filter product e rt) → p.evaluate tables f = p.evaluate tables a) ∧
    ∀ a c rows, p.Joins a .left c l r → p.evaluate tables a = .ok rows →
      ∃ left right rrt, p.LeftJoined tables c l r rows left right rrt :=
  ⟨fun _ _ _ _ _ ha hproduct hf => h.evaluate_filtered_product ha hproduct hf,
    fun _ _ _ ha hrows => h.exists_leftJoined ha hrows⟩

/-- Whether a field is one divided by the field before it. -/
def isInverse : Expr := .binary (.binary (.literal (.int 1)) .div (.input 0)) .eq (.input 1)

/-- A left join, an inner one and a filter over the product, all of the same sides under the same
condition, which divides by the left one. The list that they were made for has been replaced. -/
def inverses : Plan where
  slots := [
    ⟨.scan "t" [⟨"a", .int⟩], none⟩,
    ⟨.values [⟨"x", .int⟩] [], some 6⟩,
    ⟨.join 0 1 .left (some isInverse) [⟨"a", .int⟩, ⟨"x", .int⟩], none⟩,
    ⟨.join 0 1 .inner (some isInverse) [⟨"a", .int⟩, ⟨"x", .int⟩], none⟩,
    ⟨.join 0 1 .inner none [⟨"a", .int⟩, ⟨"x", .int⟩], none⟩,
    ⟨.filter 4 isInverse [⟨"a", .int⟩, ⟨"x", .int⟩], none⟩,
    ⟨.values [⟨"y", .int⟩] [[.int 1], [.null], [.int 1]], none⟩]

theorem inverses_built : inverses.Built :=
  Plan.Built.empty.add (show Constructed _ (.scan "t" [⟨"a", .int⟩]) from .scan)
    |>.add (.values (show newValues [⟨"x", .int⟩] [] = .ok _ from rfl))
    |>.add (.join (show newJoin _ 0 1 .left (some isInverse) = .ok _ from rfl))
    |>.add (.join (show newJoin _ 0 1 .inner (some isInverse) = .ok _ from rfl))
    |>.add (.join (show newJoin _ 0 1 .inner none = .ok _ from rfl))
    |>.add (.filter (show newFilter _ 4 isInverse = .ok _ from rfl))
    |>.add (.values (show newValues [⟨"y", .int⟩] [[.int 1], [.null], [.int 1]] = .ok _ from rfl))
    |>.replace (show replace _ 1 6 = .ok inverses from rfl)

/-- The left rows are 1, which is its own inverse, 2, null and another one. -/
def numbers (last : Int64) : Tables :=
  Tables.none.insert "t" [[.int 1], [.int 2], [.null], [.int last]]

/-- Two, null and three stay without partners. Zero has no inverse, and the filter fails on it as the
inner join does. -/
theorem evaluate_joins_inverses :
    inverses.evaluate (numbers 0) 5 = inverses.evaluate (numbers 0) 3 ∧
      inverses.evaluate (numbers 0) 3 =
        .error (.program (.evaluation (.value .divisionByZero))) ∧
      ∃ left right rrt, inverses.LeftJoined (numbers 3) (some isInverse) 0 1
        [[.int 1, .int 1], [.int 1, .int 1], [.int 2, .null], [.null, .null], [.int 3, .null]]
        left right rrt := by
  have hwf := inverses_built.good.wf
  refine ⟨(hwf.evaluate_joins (numbers 0) 0 1).1 3 4 5 _ _ ⟨0, 1, _, rfl, rfl, rfl⟩
    ⟨0, 1, _, rfl, rfl, rfl⟩ rfl, by decide +kernel, ?_⟩
  exact (hwf.evaluate_joins (numbers 3) 0 1).2 2 _ _ ⟨0, 1, _, rfl, rfl, rfl⟩ (by decide +kernel)

end Plan
end RelPlan
