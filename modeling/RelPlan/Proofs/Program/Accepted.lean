import RelPlan.Program.Builder
import RelPlan.Program.Json
import RelPlan.Proofs.Program.Memo

/-! # Accepted programs

A program comes from a builder or from a saved text, and both ways lead through `Program.check`. So
every program that is let in runs as its expansions are evaluated
(`Program.Accepted.run_eq_runAll`). -/

namespace RelPlan
namespace Program

variable {p : Program} {row : Row}

/-- A builder has given the program, or it has been read from a text. -/
inductive Accepted (p : Program) : Prop where
  | built {b : Builder} : b.program = .ok p → Accepted p
  | loaded {saved : String} : load saved = .ok p → Accepted p

theorem Valid.of_checkLists {es : List Expr} {projects : List Nat} {names : List String}
    (h : checkLists rt es projects names c = .ok p) : p.Valid := by
  obtain ⟨_, _, h⟩ := Except.bind_eq_ok_iff.mp h
  split at h
  · cases h
  · exact .of_check h

theorem Valid.of_load {saved : String} (h : load saved = .ok p) : p.Valid := by
  simp only [load, Option.getD_eq_iff] at h
  obtain h | ⟨-, h⟩ := h
  · obtain ⟨j, -, h⟩ := Option.bind_eq_some_iff.mp h
    obtain ⟨⟨nesting, fields⟩, -, h⟩ := Option.bind_eq_some_iff.mp h
    split at h
    · obtain ⟨rt, -, h⟩ := Option.bind_eq_some_iff.mp h
      obtain ⟨es, -, h⟩ := Option.bind_eq_some_iff.mp h
      obtain ⟨projects, -, h⟩ := Option.bind_eq_some_iff.mp h
      obtain ⟨names, -, h⟩ := Option.bind_eq_some_iff.mp h
      obtain ⟨c, -, h⟩ := Option.bind_eq_some_iff.mp h
      exact .of_checkLists (Option.some.inj h)
    · cases h
  · cases h

theorem Accepted.valid (h : p.Accepted) : p.Valid := by
  cases h with
  | built h => exact .of_check h
  | loaded h => exact .of_load h

/-- Nothing that a run remembers shows: an accepted program has expansions, and gives on a row what
evaluating the condition and then, if it is true, the columns one after the other gives. -/
theorem Accepted.run_eq_runAll (h : p.Accepted) (hrow : row.length = p.inputType.length) :
    ∃ c columns, p.expandedCondition = .ok c ∧ p.expandedColumns = .ok columns ∧
      p.run row = Expr.runAll row c (columns.map Prod.fst) := by
  obtain ⟨c, es, hm, -⟩ := h.valid.exists_means
  refine ⟨c, _, hm.expandedCondition h.valid, hm.expandedColumns h.valid, ?_⟩
  have hlen : es.length = (p.columns.map Column.name).length := by
    rw [List.length_map, hm.columns.length_eq]
  rw [List.map_fst_zip (Nat.le_of_eq hlen), hm.run_eq h.valid hrow]

/-- Shows a quotient that the condition has asked for unless the divisor is zero, and a product with
it. -/
def ratios : Program where
  inputType := [⟨"a", .int⟩, ⟨"b", .int⟩]
  entries := [
    .input 1, .literal (.int 0), .binary (.temp 0) .ne (.temp 1),
    .input 0, .binary (.temp 3) .div (.temp 0), .literal (.int 1),
    .binary (.temp 4) .gt (.temp 5), .binary (.temp 2) .and (.temp 6),
    .binary (.temp 4) .mul (.temp 3)]
  columns := [⟨4, "ratio"⟩, ⟨8, "product"⟩]
  condition := some 7
  outputType := [⟨"ratio", .int⟩, ⟨"product", .int⟩]

def ratio : Expr := .binary (.input 0) .div (.input 1)

def ratioCondition : Expr :=
  .binary (.binary (.input 1) .ne (.literal (.int 0))) .and (.binary ratio .gt (.literal (.int 1)))

def ratioColumns : List Expr := [ratio, .binary ratio .mul (.input 0)]

theorem ratios_accepted : ratios.Accepted := by
  have hb : (do
      let b ← Builder.addCondition { inputType := ratios.inputType } ratioCondition
      (b.addColumnExprs (ratioColumns.zip ["ratio", "product"])).program) = .ok ratios := rfl
  obtain ⟨b, -, h⟩ := Except.bind_eq_ok_iff.mp hb
  exact .built h

/-- A row that passes, one that is spared the division, and one whose product is out of range. -/
theorem run_eq_runAll_ratios :
    Expr.runAll [.int 7, .int 2] ratioCondition ratioColumns = .ok (some [.int 3, .int 21]) ∧
      Expr.runAll [.int 7, .int 0] ratioCondition ratioColumns = .ok none ∧
      Expr.runAll [.int 4611686018427387904, .int 1] ratioCondition ratioColumns =
        .error (.evaluation (.value (.overflow .mul))) := by
  have hrun (row : Row) (hrow : row.length = 2) :
      Expr.runAll row ratioCondition ratioColumns = ratios.run row := by
    obtain ⟨c, columns, hc, hcs, h⟩ := ratios_accepted.run_eq_runAll hrow
    obtain rfl : some ratioCondition = c := Except.ok.inj hc
    obtain rfl : ratioColumns.zip ["ratio", "product"] = columns := Except.ok.inj hcs
    exact h.symm
  rw [hrun _ rfl, hrun _ rfl, hrun _ rfl]
  decide +kernel

end Program
end RelPlan
