import RelPlan.Plan.Basic

/-! # Patterns

A pattern describes the top of a plan: a test on the kind of a node and patterns for its first
inputs. Binding it at a node gives the ids of all nodes that it describes, in the order in which the
pattern is written. -/

namespace RelPlan

/-- A test on the kind of a node. -/
inductive KindTest where
  | any
  | single (kind : NodeKind)
  | multi (kinds : List NodeKind)
  | except (kinds : List NodeKind)
  deriving DecidableEq, Repr

namespace KindTest

def admits : KindTest → NodeKind → Bool
  | any, _ => true
  | single kind, k => k = kind
  | multi kinds, k => k ∈ kinds
  | except kinds, k => k ∉ kinds

/-- The kinds that pass. -/
def kinds (t : KindTest) : List NodeKind := NodeKind.all.filter t.admits

/-- The greatest number of inputs that a node of an admitted kind has. -/
def maxArity (t : KindTest) : Nat := (t.kinds.map NodeKind.arity).foldl max 0

def text : KindTest → String
  | any => "Any"
  | single kind => s!"Single({kind.name})"
  | multi kinds => "Multi([" ++ ", ".intercalate (kinds.map NodeKind.name) ++ "])"
  | except kinds => "Except([" ++ ", ".intercalate (kinds.map NodeKind.name) ++ "])"

end KindTest

inductive Pattern where
  | node (test : KindTest) (inputs : List Pattern)

/-- Why a pattern cannot be used. -/
inductive PatternError where
  | noKinds (test : KindTest)
  | tooManyInputs (test : KindTest) (inputs maxArity : Nat)
  deriving DecidableEq, Repr

def PatternError.message : PatternError → String
  | noKinds test => s!"根模式必须匹配具体的节点种类: {test.text}"
  | tooManyInputs test n max => s!"模式 {test.text} 声明了 {n} 个子模式，但最多只有 {max} 个输入"

/-- The nodes that a pattern has been bound to. -/
structure Match where
  root : NodeId
  /-- The nodes at the other positions of the pattern, in order. -/
  below : List NodeId
  deriving DecidableEq, Repr

def Match.nodes (m : Match) : List NodeId := m.root :: m.below

namespace Pattern

def test : Pattern → KindTest
  | node test _ => test

/-- A pattern that says nothing about inputs. -/
def leaf (test : KindTest) : Pattern := .node test []

/-- The kinds of node at which the pattern is tried; a pattern for any node is not tried at all. -/
def rootKinds (p : Pattern) : List NodeKind :=
  match p.test with
  | .any => []
  | test => test.kinds

mutual

/-- The ids bound below a node that is bound to the root of the pattern. -/
def bindBelow (plan : Plan) : Pattern → NodeId → Option (List NodeId)
  | node test inputs, id =>
    match plan.node id with
    | .ok n => if test.admits n.kind then bindInputs plan inputs (n.inputs.map plan.resolve) else none
    | .error _ => none

/-- The ids bound for patterns of the first of some inputs, and below them. -/
def bindInputs (plan : Plan) : List Pattern → List NodeId → Option (List NodeId)
  | [], _ => some []
  | _ :: _, [] => none
  | p :: ps, id :: ids => do
    let below ← bindBelow plan p id
    let rest ← bindInputs plan ps ids
    return id :: below ++ rest

end

/-- Binds the pattern at a node. -/
def bind (plan : Plan) (p : Pattern) (id : NodeId) : Option Match :=
  let root := plan.resolve id
  (p.bindBelow plan root).map (Match.mk root)

mutual

/-- Whether no part of the pattern has more inputs than its nodes can have. -/
def checkArity : Pattern → Except PatternError Unit
  | node test inputs =>
    if test.maxArity < inputs.length then
      .error (.tooManyInputs test inputs.length test.maxArity)
    else checkArities inputs

def checkArities : List Pattern → Except PatternError Unit
  | [] => .ok ()
  | p :: ps => do
    checkArity p
    checkArities ps

end

/-- Whether a rule may have the pattern. -/
def validate (p : Pattern) : Except PatternError Unit :=
  if p.rootKinds.isEmpty then .error (.noKinds p.test) else p.checkArity

end Pattern
end RelPlan
