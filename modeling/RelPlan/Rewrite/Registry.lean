import RelPlan.Rewrite.ComputeRules

/-! # Registries

A registry holds rules in the order in which they are tried, under names of their own, and knows for
each kind of node the rules that can bind there. -/

namespace RelPlan

structure Registry where
  rules : List Rule
  /-- The rules to try at a node of a kind. -/
  candidates : NodeKind → List Rule

namespace Registry

def empty : Registry := ⟨[], fun _ => []⟩

def names (r : Registry) : List String := r.rules.map Rule.name

/-- The rule of that name. -/
def find? (r : Registry) (name : String) : Option Rule := r.rules.find? (·.name = name)

/-- Appends a rule, unless its name is taken or its pattern is of no use. -/
def register (r : Registry) (rule : Rule) : Except RewriteError Registry := do
  if (r.find? rule.name).isSome then throw (.duplicateRule rule.name)
  else
    rule.pattern.validate.mapError (RewriteError.invalidPattern rule.name)
    return {
      rules := r.rules ++ [rule]
      candidates := fun kind =>
        if kind ∈ rule.pattern.rootKinds then r.candidates kind ++ [rule] else r.candidates kind }

/-- Registers rules in order, passing over the disabled ones. -/
def registerEnabled (disabled : List String) (r : Registry) : List Rule → Traced Registry
  | [] => pure r
  | rule :: rules =>
    if rule.name ∈ disabled then do
      Traced.note .info s!"规则 {rule.name} 已禁用"
      registerEnabled disabled r rules
    else do
      let r ← r.register rule
      registerEnabled disabled r rules

/-- The rules for compute nodes without the disabled ones. -/
def builtin (disabled : List String) : Traced Registry :=
  registerEnabled disabled empty Rule.computeRules

/-- All rules for compute nodes. -/
def default : Registry := ((builtin []).result.toOption).getD empty

end Registry
end RelPlan
