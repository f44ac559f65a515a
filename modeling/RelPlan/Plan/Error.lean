import RelPlan.Plan.Node

/-! # Errors of plans -/

namespace RelPlan

/-- Why a node cannot be built. -/
inductive InvalidNode where
  | valuesRow (i : Nat) (rt : RowType)
  | conditionType (t : ScalarType) (condition : Expr)
  | columnCount (exprs names : Nat)
  | missingField (name : String) (rt : RowType)
  | joinConditionType (t : ScalarType)
  deriving DecidableEq

def InvalidNode.message : InvalidNode → String
  | valuesRow i rt => s!"第 {i} 行不符合行类型 {rt.text}"
  | conditionType t c => s!"过滤条件必须是布尔类型，实际为 {t.name}: {c.text}"
  | columnCount exprs names => s!"投影表达式数量 {exprs} 与名称数量 {names} 不一致"
  | missingField name rt => s!"字段 {name} 不在 {rt.text} 中"
  | joinConditionType t => s!"连接条件必须是布尔类型，实际为 {t.name}"

inductive PlanError where
  | invalidNode (cause : InvalidNode)
  | nodeNotFound (id : NodeId)
  /-- A node would become, or is, an input of itself. -/
  | cycleDetected (id : NodeId)
  | rowTypeMismatch (expected actual : RowType)
  /-- A table has a row of the wrong width. -/
  | rowWidthMismatch (expected : RowType) (width : Nat)
  | program (e : ProgramError)
  deriving DecidableEq

def PlanError.message : PlanError → String
  | invalidNode cause => s!"无效的计划节点: {cause.message}"
  | nodeNotFound id => s!"节点不存在: {NodeId.text id}"
  | cycleDetected id => s!"循环检测: 节点 {NodeId.text id}"
  | rowTypeMismatch expected actual => s!"行类型不匹配: 期望 {expected.text}, 实际 {actual.text}"
  | rowWidthMismatch expected width => s!"行类型不匹配: 期望 {expected.text}, 实际 {width} 个字段的行"
  | program e => s!"程序错误: {e.message}"

/-- Why evaluating a plan has no result. -/
inductive ExecutionError where
  | tableNotFound (table : String)
  | plan (e : PlanError)
  | program (e : ProgramError)
  deriving DecidableEq

def ExecutionError.message : ExecutionError → String
  | tableNotFound table => s!"表不存在: {table}"
  | plan e => s!"计划错误: {e.message}"
  | program e => s!"程序错误: {e.message}"

end RelPlan
