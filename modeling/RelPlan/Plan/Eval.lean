import RelPlan.Plan.Basic
import RelPlan.Program.Eval

/-! # Evaluating plans

A plan is evaluated on named tables, from the inputs up, row by row and in order. The first error
met is the result. -/

namespace RelPlan

/-- The tables that scans read. -/
abbrev Tables := String → Option (List Row)

namespace Tables

def none : Tables := fun _ => .none

def insert (ts : Tables) (table : String) (rows : List Row) : Tables :=
  fun name => if name = table then some rows else ts name

end Tables

/-- Whether a condition is true on a row. -/
def Expr.holds (row : Row) (condition : Expr) : Except ProgramError Bool :=
  return (← condition.eval row).isTrue

/-- The rows on which a condition is true. -/
def filterRows (condition : Expr) : List Row → Except ProgramError (List Row)
  | [] => .ok []
  | row :: rows => do
    let passes ← condition.holds row
    let rest ← filterRows condition rows
    return if passes then row :: rest else rest

/-- The output rows of a program for those rows that pass. -/
def computeRows (program : Program) : List Row → Except ProgramError (List Row)
  | [] => .ok []
  | row :: rows => do
    let output ← program.run row
    let rest ← computeRows program rows
    return output.toList ++ rest

/-- A left row paired with those right rows on which the condition, if any, is true. -/
def joinRow (condition : Option Expr) (l : Row) (right : List Row) :
    Except ProgramError (List Row) :=
  let pairs := right.map (l ++ ·)
  match condition with
  | none => .ok pairs
  | some c => filterRows c pairs

/-- All left rows with their partners; a row without any is kept only by a left join, beside
`width` nulls. -/
def joinRows (kind : JoinKind) (condition : Option Expr) (width : Nat) (right : List Row) :
    List Row → Except ProgramError (List Row)
  | [] => .ok []
  | l :: left => do
    let pairs ← joinRow condition l right
    let rest ← joinRows kind condition width right left
    let alone := pairs.isEmpty && kind = .left
    return (if alone then [l ++ List.replicate width .null] else pairs) ++ rest

/-- The rows of a table for a scan of the row type. -/
def scanRows (tables : Tables) (table : String) (rt : RowType) :
    Except ExecutionError (List Row) :=
  match tables table with
  | none => .error (.tableNotFound table)
  | some rows =>
    match rows.find? (·.length ≠ rt.length) with
    | some row => .error (.plan (.rowWidthMismatch rt row.length))
    | none => .ok rows

namespace Plan

/-- Evaluates a node whose inputs are evaluated by `evalInput`. -/
def evaluateNode (p : Plan) (tables : Tables)
    (evalInput : NodeId → Except ExecutionError (List Row)) :
    Node → Except ExecutionError (List Row)
  | .scan table rt => scanRows tables table rt
  | .values _ rows => .ok rows
  | .filter input c _ => do (filterRows c (← evalInput input)).mapError .program
  | .project input es _ => do ((← evalInput input).mapM (Expr.evalAll · es)).mapError .program
  | .compute input program => do (computeRows program (← evalInput input)).mapError .program
  | .join left right kind c _ => do
    let leftRows ← evalInput left
    let rightRows ← evalInput right
    let width ← (p.rowType right).mapError .plan
    (joinRows kind c width.length rightRows leftRows).mapError .program

/-- Evaluates an id on a path of at most `depth` nodes. -/
def evaluateWithin (p : Plan) (tables : Tables) :
    (depth : Nat) → NodeId → Except ExecutionError (List Row)
  | 0, id => .error (.plan (.cycleDetected id))
  | depth + 1, id => do
    let n ← (p.node id).mapError .plan
    p.evaluateNode tables (p.evaluateWithin tables depth) n

/-- The rows of a node. -/
def evaluate (p : Plan) (tables : Tables) (root : NodeId) : Except ExecutionError (List Row) :=
  p.evaluateWithin tables p.depth root

end Plan
end RelPlan
