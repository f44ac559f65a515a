import RelPlan.Plan.Basic

/-! # Constructing nodes

Each constructor checks its node against the row types that its inputs have in the plan. -/

namespace RelPlan
namespace Plan

/-- The type of an expression over a row type, in a node. -/
def exprType (rt : RowType) (e : Expr) : Except PlanError ScalarType :=
  (e.type rt []).mapError .program

/-- Whether the rows conform to the row type, the first being number `i`. -/
def checkRows (rt : RowType) (i : Nat) : List Row → Except PlanError Unit
  | [] => .ok ()
  | row :: rows =>
    if row.conforms rt.types then checkRows rt (i + 1) rows
    else .error (.invalidNode (.valuesRow i rt))

/-- A node with the given rows. -/
def newValues (rt : RowType) (rows : List Row) : Except PlanError Node := do
  checkRows rt 0 rows
  return .values rt rows

/-- A node that keeps the rows on which a condition is true. -/
def newFilter (p : Plan) (input : NodeId) (condition : Expr) : Except PlanError Node := do
  let rt ← p.rowType input
  let t ← exprType rt condition
  if t.isCondition then return .filter input condition rt
  else throw (.invalidNode (.conditionType t condition))

/-- A node that computes columns. -/
def newProject (p : Plan) (input : NodeId) (exprs : List Expr) (names : List String) :
    Except PlanError Node := do
  if exprs.length ≠ names.length then throw (.invalidNode (.columnCount exprs.length names.length))
  else
    let rt ← p.rowType input
    let fields ← (exprs.zip names).mapM fun (e, name) => return ⟨name, ← exprType rt e⟩
    return .project input exprs fields

/-- A node that keeps the named fields. -/
def newProjectFields (p : Plan) (input : NodeId) (names : List String) : Except PlanError Node := do
  let rt ← p.rowType input
  let exprs ← names.mapM fun name =>
    match rt.ref? name with
    | some e => .ok e
    | none => .error (.invalidNode (.missingField name rt))
  p.newProject input exprs names

/-- A node that runs a program. -/
def newCompute (p : Plan) (input : NodeId) (program : Program) : Except PlanError Node := do
  let rt ← p.rowType input
  if program.inputType.sameShape rt then return .compute input program
  else throw (.rowTypeMismatch rt program.inputType)

/-- A node that pairs left and right rows. -/
def newJoin (p : Plan) (left right : NodeId) (kind : JoinKind) (condition : Option Expr) :
    Except PlanError Node := do
  let rt : RowType := (← p.rowType left) ++ (← p.rowType right)
  match condition with
  | none => return .join left right kind none rt
  | some c =>
    let t ← exprType rt c
    if t.isCondition then return .join left right kind (some c) rt
    else throw (.invalidNode (.joinConditionType t))

/-- The number of fields that the left side of a join gives. -/
def leftWidth (p : Plan) (left : NodeId) : Except PlanError Nat :=
  return (← p.rowType left).length

end Plan
end RelPlan
