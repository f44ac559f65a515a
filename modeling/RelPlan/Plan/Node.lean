import RelPlan.Program.Basic

/-! # Plan nodes

A node computes rows from the rows of its inputs, which it names by their ids in a plan. Each node
carries its row type. -/

namespace RelPlan

abbrev NodeId := Nat

/-- The text of a node id. -/
def NodeId.text (id : NodeId) : String := s!"#{id}"

inductive NodeKind where
  | scan
  | values
  | filter
  | project
  | compute
  | join
  deriving DecidableEq, Repr

namespace NodeKind

def all : List NodeKind := [scan, values, filter, project, compute, join]

def name : NodeKind → String
  | scan => "Scan"
  | values => "Values"
  | filter => "Filter"
  | project => "Project"
  | compute => "Calc"
  | join => "Join"

/-- The number of inputs. -/
def arity : NodeKind → Nat
  | scan | values => 0
  | filter | project | compute => 1
  | join => 2

def isLeaf (k : NodeKind) : Bool := k.arity = 0

end NodeKind

inductive JoinKind where
  | inner
  /-- Left rows without a partner are kept and filled up with `null`. -/
  | left
  deriving DecidableEq, Repr

def JoinKind.name : JoinKind → String
  | inner => "inner"
  | left => "left"

/-- Columns of a projection take their names from its row type. -/
inductive Node where
  | scan (table : String) (rowType : RowType)
  | values (rowType : RowType) (rows : List Row)
  | filter (input : NodeId) (condition : Expr) (rowType : RowType)
  | project (input : NodeId) (exprs : List Expr) (rowType : RowType)
  | compute (input : NodeId) (program : Program)
  | join (left right : NodeId) (kind : JoinKind) (condition : Option Expr) (rowType : RowType)
  deriving DecidableEq

namespace Node

def kind : Node → NodeKind
  | scan .. => .scan
  | values .. => .values
  | filter .. => .filter
  | project .. => .project
  | compute .. => .compute
  | join .. => .join

def inputs : Node → List NodeId
  | scan .. | values .. => []
  | filter input .. | project input .. | compute input .. => [input]
  | join left right .. => [left, right]

def rowType : Node → RowType
  | scan _ rt | values rt _ | filter _ _ rt | project _ _ rt | join _ _ _ _ rt => rt
  | compute _ p => p.outputType

/-- The node on one line, without its inputs. -/
def text : Node → String
  | scan table _ => s!"Scan(table=[{table}])"
  | values _ rows => s!"Values(rows=[{rows.length}])"
  | filter _ c _ => s!"Filter(condition=[{c.text}])"
  | project _ es rt =>
    let columns := List.zipWith (fun name (e : Expr) => s!"{name}=[{e.text}]") rt.names es
    "Project(" ++ ", ".intercalate columns ++ ")"
  | compute _ p => s!"Calc({p.text})"
  | join _ _ kind (some c) _ => s!"Join(type=[{kind.name}], condition=[{c.text}])"
  | join _ _ kind none _ => s!"Join(type=[{kind.name}])"

theorem length_inputs (n : Node) : n.inputs.length = n.kind.arity := by cases n <;> rfl

end Node
end RelPlan
