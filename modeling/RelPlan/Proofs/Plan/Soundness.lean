import RelPlan.Proofs.Plan.Failures

/-! # Type soundness of plans

Evaluating a node of a built plan ends, with rows of the row type that the plan states for the node,
unless a table is missing or an operator fails on integers that it has just got as the values of its
operands (`Plan.evaluate_sound`). -/

namespace RelPlan

namespace Plan

variable {p : Plan} {tables : Tables} {root : NodeId}

/-- Type soundness: evaluating a node of a built plan on conforming tables ends. It gives rows of the
row type of the node, or lacks a table, or comes to an operator with two integers on which it fails,
by an overflow or a zero divisor. -/
theorem evaluate_sound (hp : p.Built) (hroot : root < p.size) (ht : p.TablesConform tables) :
    p.Terminates (fun id => .plan (.cycleDetected id)) (p.evaluateWithin tables · root) ∧
      ∃ rt, p.rowType root = .ok rt ∧
        ((∃ rows, p.evaluate tables root = .ok rows ∧
            ∀ row ∈ rows, row.length = rt.length ∧ row.conforms rt.types) ∨
          (∃ table, p.evaluate tables root = .error (.tableNotFound table) ∧
            tables table = none) ∨
          ∃ cause, p.evaluate tables root = .error (.program (.evaluation (.value cause))) ∧
            p.FailsOnInts tables root cause) := by
  have hgood := hp.good
  refine ⟨fun d d' hd hd' => hgood.wf.evaluateWithin_agrees (height_lt_of_depth_le hd root)
    (height_lt_of_depth_le hd' root), ?_⟩
  obtain ⟨n, hn⟩ := hgood.wf.exists_node hroot
  refine ⟨n.rowType, rowType_eq_ok_iff.mpr ⟨n, hn, rfl⟩, ?_⟩
  have h := hgood.evaluate_delivers ht ⟨n, hn, rfl⟩
  cases hr : p.evaluate tables root with
  | ok rows =>
    rw [hr] at h
    refine .inl ⟨rows, rfl, fun row hrow => ⟨?_, h row hrow⟩⟩
    rw [Row.length_of_conforms (h row hrow), RowType.length_types]
  | error e =>
    rw [hr] at h
    cases e with
    | tableNotFound table => exact .inr (.inl ⟨table, rfl, h⟩)
    | program e =>
      obtain ⟨cause, rfl, hfails⟩ := hgood.failsOnInts_of_error ht hroot hr
      exact .inr (.inr ⟨cause, rfl, hfails⟩)
    | plan => exact h.elim

/-- Divides two fields of a table, beside a price for the divisor if there is one. Both tables that
the join was made for have been replaced, by another table and by a list, with other names. -/
def priced : Plan where
  slots := [
    ⟨.scan "old" [⟨"a", .int⟩, ⟨"b", .int⟩], some 4⟩,
    ⟨.scan "prices" [⟨"price", .float⟩], some 5⟩,
    ⟨.join 0 1 .left (some (.binary (.input 1) .eq (.input 2)))
      [⟨"a", .int⟩, ⟨"b", .int⟩, ⟨"price", .float⟩], none⟩,
    ⟨.project 2 [.binary (.input 0) .div (.input 1), .input 2] [⟨"q", .int⟩, ⟨"price", .float⟩],
      none⟩,
    ⟨.scan "sales" [⟨"total", .int⟩, ⟨"count", .int⟩], none⟩,
    ⟨.values [⟨"list", .float⟩] [[.int 3]], none⟩]

def sales (count : Int64) : Tables :=
  Tables.none.insert "sales" [[.int 6, .int 3], [.int 8, .int count]]

theorem priced_built : priced.Built :=
  Plan.Built.empty.add (show Constructed _ (.scan "old" [⟨"a", .int⟩, ⟨"b", .int⟩]) from .scan)
    |>.add (show Constructed _ (.scan "prices" [⟨"price", .float⟩]) from .scan)
    |>.add (.join (show newJoin _ 0 1 .left (some (.binary (.input 1) .eq (.input 2))) = .ok _
      from rfl))
    |>.add (.project (show newProject _ 2 [.binary (.input 0) .div (.input 1), .input 2]
      ["q", "price"] = .ok _ from rfl))
    |>.replaceWith (show Constructed _ (.scan "sales" [⟨"total", .int⟩, ⟨"count", .int⟩]) from .scan)
      (show replaceWith _ 0 _ = .ok (4, _) from rfl)
    |>.add (.values (show newValues [⟨"list", .float⟩] [[.int 3]] = .ok _ from rfl))
    |>.replace (show replace _ 1 5 = .ok priced from rfl)

theorem priced_conforms (count : Int64) : priced.TablesConform (sales count) :=
  tablesConform_of_slots rfl

/-- The second sale has no price, and no quotient if its count is zero. Nobody misses the tables that
have been replaced. -/
theorem evaluate_sound_priced :
    priced.Terminates (fun id => .plan (.cycleDetected id))
        (priced.evaluateWithin (sales 2) · 3) ∧
      (∃ rows, priced.evaluate (sales 2) 3 = .ok rows ∧
        rows = [[.int 2, .int 3], [.int 4, .null]] ∧
        ∀ row ∈ rows, row.length = 2 ∧ row.conforms [.int, .float]) ∧
      ∃ cause, priced.evaluate (sales 0) 3 = .error (.program (.evaluation (.value cause))) ∧
        priced.FailsOnInts (sales 0) 3 cause := by
  have hroot : 3 < priced.size := by decide
  have hrows : priced.evaluate (sales 2) 3 = .ok [[.int 2, .int 3], [.int 4, .null]] := by
    decide +kernel
  have hfail : priced.evaluate (sales 0) 3 =
      .error (.program (.evaluation (.value .divisionByZero))) := by decide +kernel
  obtain ⟨hterm, rt, hrt, h⟩ := evaluate_sound priced_built hroot (priced_conforms 2)
  obtain ⟨-, _, -, h'⟩ := evaluate_sound priced_built hroot (priced_conforms 0)
  obtain rfl : [⟨"q", .int⟩, ⟨"price", .float⟩] = rt := Except.ok.inj hrt
  refine ⟨hterm, ?_, ?_⟩
  · rcases h with ⟨rows, hr, h⟩ | ⟨_, hr, -⟩ | ⟨_, hr, -⟩
    · exact ⟨rows, hr, Except.ok.inj (hr.symm.trans hrows), h⟩
    · cases hr.symm.trans hrows
    · cases hr.symm.trans hrows
  · rcases h' with ⟨_, hr, -⟩ | ⟨_, hr, -⟩ | h'
    · cases hr.symm.trans hfail
    · cases hr.symm.trans hfail
    · exact h'

end Plan
end RelPlan
