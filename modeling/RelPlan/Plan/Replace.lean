import RelPlan.Plan.Basic

/-! # Replacing nodes

A replacement has the shape of what it replaces and does not compute with it, so that everything
above stays well typed and no plan computes with itself. A refused replacement changes nothing. -/

namespace RelPlan
namespace Plan

/-- Makes a slot forward to another one. -/
def setForward (p : Plan) (old new : NodeId) : Plan :=
  ⟨p.slots.modify old fun slot => { slot with forward := some new }⟩

/-- Lets the node `new` stand for `old` from now on. -/
def replace (p : Plan) (old new : NodeId) : Except PlanError Plan := do
  let old := p.resolve old
  let new := p.resolve new
  let oldType ← p.rowType old
  let newType ← p.rowType new
  if old = new then return p
  else if !oldType.sameShape newType then throw (.rowTypeMismatch oldType newType)
  else if old ∈ (← p.reachable new) then throw (.cycleDetected old)
  else return p.setForward old new

/-- Whether an input for a replacement of `old` exists and does not compute with `old`. -/
def checkInput (p : Plan) (old input : NodeId) : Except PlanError Unit := do
  if !p.contains input then throw (.nodeNotFound input)
  else if old ∈ (← p.reachable input) then throw (.cycleDetected old)
  else return

/-- Appends a node and lets it stand for `old` from now on; gives its id. -/
def replaceWith (p : Plan) (old : NodeId) (n : Node) : Except PlanError (NodeId × Plan) := do
  let old := p.resolve old
  let oldType ← p.rowType old
  if !oldType.sameShape n.rowType then throw (.rowTypeMismatch oldType n.rowType)
  else
    n.inputs.forM (p.checkInput old)
    let (new, p) := p.add n
    return (new, p.setForward old new)

end Plan
end RelPlan
