import RelPlan.Program.Merge
import RelPlan.Rewrite.Rule

/-! # Rules for compute nodes

Filters and projections over anything else become compute nodes (`filterToCompute`,
`projectToCompute`); filters, projections and compute nodes over a compute node are merged into it
(`mergeFilter`, `mergeProject`, `mergeCompute`); a compute node that changes nothing goes away
(`removeCompute`). -/

namespace RelPlan

namespace Program

/-- The program of a filter over the row type. -/
def ofFilter (rt : RowType) (condition : Expr) : Except ProgramError Program := do
  (← (Builder.keepFields { inputType := rt }).addCondition condition).program

/-- The program of a projection over the row type. -/
def ofProject (rt : RowType) (columns : List (Expr × String)) : Except ProgramError Program :=
  (Builder.addColumnExprs { inputType := rt } columns).program

end Program

namespace Call

/-- The program of a filter over the node at the second position. -/
def filterProgram (c : Call) (condition : Expr) : Except RewriteError Program := do
  (Program.ofFilter (← c.builder 1).inputType condition).mapError .program

/-- The program of a projection over the node at the second position. -/
def projectProgram (c : Call) (exprs : List Expr) (names : List String) :
    Except RewriteError Program := do
  (Program.ofProject (← c.builder 1).inputType (exprs.zip names)).mapError .program

/-- Proposes to run `upper` and `lower` as one program on the input of the lower node. -/
def proposeMerged (c : Call) (upper : Program) (input : NodeId) (lower : Program)
    (record : String) : Traced Call := do
  let merged ← (Program.merge upper lower).mapError RewriteError.program
  Traced.note .debug record
  c.proposeCompute (c.plan.resolve input) merged

end Call

namespace Rule

/-- A node that is no filter, no projection and no compute node. -/
def otherInput : Pattern := .leaf (.except [.filter, .project, .compute])

def overOther (kind : NodeKind) : Pattern := .node (.single kind) [otherInput]

def overCompute (kind : NodeKind) : Pattern := .node (.single kind) [.leaf (.single .compute)]

/-- Turns a filter into a compute node. -/
def filterToCompute : Rule where
  name := "FilterToCalcRule"
  pattern := overOther .filter
  react c := do
    match ← c.node 0 with
    | .filter _ condition _ =>
      let input ← c.nodeId 1
      let program ← c.filterProgram condition
      Traced.note .debug
        s!"FilterToCalcRule: Filter {NodeId.text c.root} 转换为 Calc({program.text})"
      c.proposeCompute input program
    | _ => return c

/-- Turns a projection into a compute node. -/
def projectToCompute : Rule where
  name := "ProjectToCalcRule"
  pattern := overOther .project
  react c := do
    match ← c.node 0 with
    | .project _ exprs rt =>
      let input ← c.nodeId 1
      let program ← c.projectProgram exprs rt.names
      Traced.note .debug
        s!"ProjectToCalcRule: Project {NodeId.text c.root} 转换为 Calc({program.text})"
      c.proposeCompute input program
    | _ => return c

/-- Whether a filter can be merged into the node below it. -/
def canMergeFilter (upper lower : Node) : Bool := upper.kind = .filter && lower.kind = .compute

/-- Merges a filter into the compute node below it. -/
def mergeFilter : Rule where
  name := "FilterCalcMergeRule"
  pattern := overCompute .filter
  react c := do
    let upper ← c.node 0
    let lower ← c.node 1
    if canMergeFilter upper lower then
      match upper, lower with
      | .filter _ condition _, .compute input lower =>
        let upper ← c.filterProgram condition
        let lowerId ← c.nodeId 1
        c.proposeMerged upper input lower
          s!"FilterCalcMergeRule: Filter {NodeId.text c.root} 合并入 Calc {NodeId.text lowerId}"
      | _, _ => return c
    else return c

/-- Whether a projection can be merged into the node below it. -/
def canMergeProject (upper lower : Node) : Bool := upper.kind = .project && lower.kind = .compute

/-- Merges a projection into the compute node below it. -/
def mergeProject : Rule where
  name := "ProjectCalcMergeRule"
  pattern := overCompute .project
  react c := do
    let upper ← c.node 0
    let lower ← c.node 1
    if canMergeProject upper lower then
      match upper, lower with
      | .project _ exprs rt, .compute input lower =>
        let upper ← c.projectProgram exprs rt.names
        let lowerId ← c.nodeId 1
        c.proposeMerged upper input lower
          s!"ProjectCalcMergeRule: Project {NodeId.text c.root} 合并入 Calc {NodeId.text lowerId}"
      | _, _ => return c
    else return c

/-- Whether a node and the one below it are compute nodes. -/
def canMergeCompute (upper lower : Node) : Bool := upper.kind = .compute && lower.kind = .compute

/-- Merges a compute node into the one below it. -/
def mergeCompute : Rule where
  name := "CalcMergeRule"
  pattern := overCompute .compute
  react c := do
    let upper ← c.node 0
    let lower ← c.node 1
    if canMergeCompute upper lower then
      match upper, lower with
      | .compute _ upper, .compute input lower =>
        let lowerId ← c.nodeId 1
        c.proposeMerged upper input lower
          s!"CalcMergeRule: Calc {NodeId.text c.root} 与 Calc {NodeId.text lowerId} 合并"
      | _, _ => return c
    else return c

/-- Whether a node is a compute node that puts out every row as it is. -/
def canRemove : Node → Bool
  | .compute _ program => program.isTrivial
  | _ => false

/-- Removes a trivial compute node, unless it renames fields. -/
def removeCompute : Rule where
  name := "CalcRemoveRule"
  pattern := .leaf (.single .compute)
  react c := do
    let n ← c.node 0
    if canRemove n then
      match n with
      | .compute input program =>
        let input := c.plan.resolve input
        if (← c.rowType input) = program.outputType then
          Traced.note .debug s!"CalcRemoveRule: 移除平凡 Calc {NodeId.text c.root}"
          c.proposeExisting input
        else
          Traced.note .trace s!"CalcRemoveRule: Calc {NodeId.text c.root} 改变了字段名，保留"
          return c
      | _ => return c
    else return c

/-- All rules for compute nodes, in the order in which they are tried. -/
def computeRules : List Rule :=
  [filterToCompute, projectToCompute, mergeFilter, mergeProject, mergeCompute, removeCompute]

end Rule
end RelPlan
