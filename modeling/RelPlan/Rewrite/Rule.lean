import RelPlan.Plan.Construct
import RelPlan.Plan.Replace
import RelPlan.Program.Builder
import RelPlan.Rewrite.Trace

/-! # Rules

A rule reacts to a match of its pattern by proposing a replacement for the root of the match, or by
leaving the call as it is. Each call takes one proposal, which has the shape of the root; an existing
node must also have its field names. Firing a rule only reads the plan; `Outcome.commit` writes the
proposal. -/

namespace RelPlan

inductive Replacement where
  | new (n : Node)
  | existing (id : NodeId)
  deriving DecidableEq

/-- A match that a rule reacts to. -/
structure Call where
  plan : Plan
  rule : String
  matched : Match
  proposal : Option Replacement := none

namespace Call

def root (c : Call) : NodeId := c.matched.root

/-- The node id at a position of the pattern. -/
def nodeId (c : Call) (position : Nat) : Except RewriteError NodeId :=
  match c.matched.nodes[position]? with
  | some id => .ok id
  | none => .error (.noPosition c.rule position)

def node (c : Call) (position : Nat) : Except RewriteError Node := do
  (c.plan.node (← c.nodeId position)).mapError .plan

/-- A builder for programs that run on the rows of the node at a position. -/
def builder (c : Call) (position : Nat) : Except RewriteError Builder := do
  return { inputType := (← c.node position).rowType }

def isTransformed (c : Call) : Bool := c.proposal.isSome

def rowType (c : Call) (id : NodeId) : Except RewriteError RowType :=
  (c.plan.rowType id).mapError .plan

/-- Whether a proposal of the row type may be made now. -/
def checkProposal (c : Call) (rt : RowType) : Except RewriteError Unit := do
  if c.isTransformed then throw (.alreadyTransformed c.rule)
  else
    let expected ← c.rowType c.root
    if expected.sameShape rt then return else throw (.rowTypeMismatch expected rt)

/-- Proposes a node that is not in the plan. -/
def proposeNew (c : Call) (n : Node) : Except RewriteError Call := do
  c.checkProposal n.rowType
  match n.inputs.find? (!c.plan.contains ·) with
  | some missing => throw (.missingInput missing)
  | none => return { c with proposal := some (.new n) }

/-- Proposes a node of the plan. -/
def proposeExisting (c : Call) (id : NodeId) : Except RewriteError Call := do
  let rt ← c.rowType id
  c.checkProposal rt
  let expected ← c.rowType c.root
  if expected = rt then return { c with proposal := some (.existing id) }
  else throw (.rowTypeMismatch expected rt)

/-- Makes a proposal. -/
def propose (c : Call) : Replacement → Except RewriteError Call
  | .new n => c.proposeNew n
  | .existing id => c.proposeExisting id

/-- Proposes to run a program on a node. -/
def proposeCompute (c : Call) (input : NodeId) (program : Program) : Except RewriteError Call := do
  c.proposeNew (← (c.plan.newCompute input program).mapError .plan)

end Call

/-- What firing a rule comes to. -/
inductive Outcome where
  | declined
  | replaced (root : NodeId) (replacement : Replacement)
  deriving DecidableEq

def Call.outcome (c : Call) : Outcome :=
  match c.proposal with
  | some r => .replaced c.root r
  | none => .declined

structure Rule where
  name : String
  pattern : Pattern
  react : Call → Traced Call

namespace Rule

/-- Fires the rule on a match. -/
def fireMatched (r : Rule) (plan : Plan) (m : Match) : Traced Outcome := do
  let c ← r.react { plan, rule := r.name, matched := m }
  return c.outcome

/-- Fires the rule at a node; where its pattern does not bind, it declines. -/
def fire (r : Rule) (plan : Plan) (id : NodeId) : Traced Outcome :=
  match r.pattern.bind plan id with
  | some m => r.fireMatched plan m
  | none => pure .declined

end Rule

/-- A replacement that has been written: what was replaced, and by what. -/
structure Committed where
  root : NodeId
  new : NodeId
  deriving DecidableEq, Repr

/-- Writes a proposal into the plan. -/
def Outcome.commit (plan : Plan) :
    Outcome → Except PlanError (Option Committed × Plan)
  | declined => .ok (none, plan)
  | replaced root (.new n) => do
    let (new, plan) ← plan.replaceWith root n
    return (some ⟨root, new⟩, plan)
  | replaced root (.existing id) => do
    let plan ← plan.replace root id
    return (some ⟨root, plan.resolve id⟩, plan)

end RelPlan
