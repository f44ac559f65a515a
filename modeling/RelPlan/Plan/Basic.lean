import RelPlan.Plan.Error

/-! # Plans

A plan is a growing table of nodes. Nodes never change and never go away; a replaced node keeps its
slot and forwards to the node that stands for it now. `Plan.resolve` follows the forwards, and all
look-ups go through it, so whoever names a replaced node gets its replacement. -/

namespace RelPlan

structure Slot where
  node : Node
  /-- The node that this one has been replaced by. -/
  forward : Option NodeId
  deriving DecidableEq

structure Plan where
  slots : List Slot
  deriving DecidableEq

namespace Plan

def empty : Plan := ⟨[]⟩

def size (p : Plan) : Nat := p.slots.length

/-- Appends a node; its id is the number of nodes before it. -/
def add (p : Plan) (n : Node) : NodeId × Plan := (p.size, ⟨p.slots ++ [⟨n, none⟩]⟩)

/-- Whether the id names a slot. -/
def contains (p : Plan) (id : NodeId) : Bool := id < p.size

def forward? (p : Plan) (id : NodeId) : Option NodeId := p.slots[id]?.bind Slot.forward

def isReplaced (p : Plan) (id : NodeId) : Bool := (p.forward? id).isSome

/-- Follows at most so many forwards. -/
def follow (p : Plan) : (steps : Nat) → NodeId → NodeId
  | 0, id => id
  | steps + 1, id =>
    match p.forward? id with
    | some next => p.follow steps next
    | none => id

/-- The id that stands for this one now. No chain of forwards is longer than the plan. -/
def resolve (p : Plan) (id : NodeId) : NodeId := p.follow p.size id

/-- The node in a slot, replaced or not. -/
def rawNode (p : Plan) (id : NodeId) : Except PlanError Node :=
  match p.slots[id]? with
  | some slot => .ok slot.node
  | none => .error (.nodeNotFound id)

/-- The node that stands for the id now. -/
def node (p : Plan) (id : NodeId) : Except PlanError Node := p.rawNode (p.resolve id)

/-- The ids that stand for the inputs of the node now. -/
def inputs (p : Plan) (id : NodeId) : Except PlanError (List NodeId) :=
  return (← p.node id).inputs.map p.resolve

def rowType (p : Plan) (id : NodeId) : Except PlanError RowType := return (← p.node id).rowType

/-- A bound on the length of paths through a plan without cycles, which includes an id at its end
that names no slot. -/
def depth (p : Plan) : Nat := p.size + 1

/-! ## Traversal -/

/-- A traversal under way: the ids met, and the finished ones, the last first. -/
structure Traversal where
  met : List NodeId
  finished : List NodeId

/-- Visits an id that no forward leads away from, and its inputs before it, unless it has been met. -/
def visit (p : Plan) : (depth : Nat) → Traversal → NodeId → Except PlanError Traversal
  | 0, t, id => if id ∈ t.met then .ok t else .error (.cycleDetected id)
  | depth + 1, t, id =>
    if id ∈ t.met then .ok t
    else do
      let t ← (← p.inputs id).foldlM (p.visit depth) { t with met := id :: t.met }
      return { t with finished := id :: t.finished }

/-- The nodes that the root computes with, each once, inputs first and the root last. -/
def reachable (p : Plan) (root : NodeId) : Except PlanError (List NodeId) :=
  return (← p.visit p.depth ⟨[], []⟩ (p.resolve root)).finished.reverse

/-! ## Text -/

/-- The line of a node and, indented, the lines of its inputs. -/
def explainWithin (p : Plan) : (depth indent : Nat) → NodeId → Except PlanError String
  | 0, _, id => .error (.cycleDetected id)
  | depth + 1, indent, id => do
    let line := String.ofList (List.replicate (2 * indent) ' ') ++ (← p.node id).text ++ "\n"
    let below ← (← p.inputs id).mapM (p.explainWithin depth (indent + 1))
    return line ++ String.join below

/-- The plan below a node as an indented tree, one line for a node. -/
def explain (p : Plan) (root : NodeId) : Except PlanError String :=
  p.explainWithin p.depth 0 (p.resolve root)

end Plan
end RelPlan
