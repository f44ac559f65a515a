import RelPlan.Program.Basic
import RelPlan.Expr.Eval

/-! # Running programs

An entry is evaluated when it is first asked for and remembered for the rest of the row, so shared
entries cost once and entries that nobody needs are never evaluated. -/

namespace RelPlan
namespace Program

/-- The values of the entries that have been evaluated on the current row. -/
abbrev Memo := List (Option Value)

/-- A computation on one row, which remembers the entries it evaluates. -/
abbrev RowM := StateT Memo (Except ProgramError)

/-- A field of the current row. -/
def field (row : Row) (i : Nat) : RowM Value :=
  match row[i]? with
  | some v => pure v
  | none => throw (.evaluation (.missingField i))

/-- The value of an entry, remembered or evaluated with references at most `depth` deep. -/
def entryWithin (entries : List Expr) (row : Row) : (depth : Nat) → Nat → RowM Value
  | 0, i => throw (.evaluation (.missingEntry i))
  | depth + 1, i => do
    match (← get)[i]? with
    | some (some v) => return v
    | _ =>
      match entries[i]? with
      | none => throw (.evaluation (.missingEntry i))
      | some e =>
        let v ← e.evalM (field row) (entryWithin entries row depth)
        modify (·.set i (some v))
        return v

/-- The value of an entry. -/
def entry (p : Program) (row : Row) (i : Nat) : RowM Value :=
  entryWithin p.entries row p.entries.length i

/-- Whether the row passes the condition. -/
def passes (p : Program) (row : Row) : RowM Bool :=
  match p.condition with
  | some c => return (← p.entry row c).isTrue
  | none => return true

/-- The output row, or none if the row does not pass the condition. -/
def outputM (p : Program) (row : Row) : RowM (Option Row) := do
  if ← p.passes row then
    return some (← p.columns.mapM fun c => p.entry row c.entry)
  else
    return none

/-- Runs the program on a row of the right width. -/
def run (p : Program) (row : Row) : Except ProgramError (Option Row) :=
  if row.length = p.inputType.length then
    (p.outputM row).run' (List.replicate p.entries.length none)
  else
    .error (.evaluation (.rowWidth row.length p.inputType.length))

end Program
end RelPlan
