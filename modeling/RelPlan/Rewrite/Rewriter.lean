import RelPlan.Config.Basic
import RelPlan.Rewrite.Registry

/-! # Rewriting plans

The rewriter walks the nodes below a root from the inputs up and tries at each the rules for its
kind, up to the first one whose proposal is written. It repeats such passes until one of them changes
nothing, or until it has made the allowed number of passes. What has been written stays written,
also when a rule fails and the rewriting ends with its error. -/

namespace RelPlan

structure Stats where
  passes : Nat := 0
  firings : Nat := 0
  /-- How often each rule has fired, in the order of the first firings. -/
  ruleFirings : List (String × Nat) := []
  failures : Nat := 0
  reachedFixpoint : Bool := false
  deriving DecidableEq, Repr

namespace Stats

/-- Adds one to the count of a name. -/
def bump (name : String) : List (String × Nat) → List (String × Nat)
  | [] => [(name, 1)]
  | (other, n) :: counts =>
    if other = name then (other, n + 1) :: counts else (other, n) :: bump name counts

/-- Counts a firing of a rule. -/
def record (s : Stats) (rule : String) : Stats :=
  { s with firings := s.firings + 1, ruleFirings := bump rule s.ruleFirings }

/-- How often a rule has fired. -/
def fired (s : Stats) (rule : String) : Nat := (s.ruleFirings.lookup rule).getD 0

end Stats

/-- A rewriting under way. -/
structure Progress where
  plan : Plan
  stats : Stats := {}
  log : List Record := []

namespace Progress

def note (s : Progress) (records : List Record) : Progress := { s with log := s.log ++ records }

/-- Writes a firing: the new plan, the count and the record. -/
def commit (s : Progress) (plan : Plan) (rule : String) (c : Committed) : Progress :=
  { s.note [⟨.debug, s!"规则 {rule} 将节点 {NodeId.text c.root} 替换为 {NodeId.text c.new}"⟩] with
    plan, stats := s.stats.record rule }

/-- Writes that a rule has declined. -/
def decline (s : Progress) (rule : String) (id : NodeId) : Progress :=
  s.note [⟨.trace, s!"规则 {rule} 在节点 {NodeId.text id} 上放弃"⟩]

/-- Writes that a rule has failed and is passed over. -/
def skip (s : Progress) (rule : String) (id : NodeId) (e : RewriteError) : Progress :=
  { s.note [⟨.error, s!"规则 {rule} 在节点 {NodeId.text id} 上触发失败，已跳过: {e.message}"⟩] with
    stats := { s.stats with failures := s.stats.failures + 1 } }

end Progress

/-- A step of a rewriting: an answer or an error, and the progress in both cases. -/
abbrev Step (α : Type) := Except RewriteError α × Progress

structure Rewriter where
  registry : Registry
  maxIterations : Nat
  failFast : Bool

namespace Rewriter

/-- A rewriter with the settings that hold unless others are given. -/
def ofRegistry (registry : Registry) : Rewriter :=
  let settings : RewriteSettings := {}
  { registry, maxIterations := settings.maxIterations, failFast := settings.failFast }

/-- A rewriter with the given settings; at least one pass is made. -/
def ofSettings (settings : RewriteSettings) : Traced Rewriter := do
  let registry ← Registry.builtin settings.disabledRules
  return { registry, maxIterations := max settings.maxIterations 1, failFast := settings.failFast }

/-- The rewriter with all rules for compute nodes. -/
def default : Rewriter := ofRegistry .default

def withMaxIterations (r : Rewriter) (n : Nat) : Rewriter := { r with maxIterations := max n 1 }

def withFailFast (r : Rewriter) (failFast : Bool) : Rewriter := { r with failFast }

/-- Adds a rule behind the others. -/
def addRule (r : Rewriter) (rule : Rule) : Except RewriteError Rewriter :=
  return { r with registry := ← r.registry.register rule }

/-- Fires a rule at a node and writes its proposal; tells whether there was one. -/
def attempt (r : Rewriter) (rule : Rule) (id : NodeId) (s : Progress) : Step Bool :=
  let fired := rule.fire s.plan id
  let s := s.note fired.log
  match (do (← fired.result).commit s.plan |>.mapError .plan : Except RewriteError _) with
  | .ok (some c, plan) => (.ok true, s.commit plan rule.name c)
  | .ok (none, _) => (.ok false, s.decline rule.name id)
  | .error e => if r.failFast then (.error e, s) else (.ok false, s.skip rule.name id e)

/-- Tries rules at a node up to the first one that changes the plan. -/
def tryRules (r : Rewriter) (id : NodeId) : List Rule → Progress → Step Bool
  | [], s => (.ok false, s)
  | rule :: rules, s =>
    match r.attempt rule id s with
    | (.ok false, s) => r.tryRules id rules s
    | (.ok true, s) => (.ok true, s)
    | (.error e, s) => (.error e, s)

/-- Tries the rules for a node, unless it has been replaced in this pass. -/
def visit (r : Rewriter) (id : NodeId) (s : Progress) : Step Bool :=
  if s.plan.isReplaced id then (.ok false, s)
  else
    match s.plan.node id with
    | .ok n => r.tryRules id (r.registry.candidates n.kind) s
    | .error e => (.error (.plan e), s)

/-- Visits nodes in order; tells whether any of them changed the plan. -/
def visitAll (r : Rewriter) : List NodeId → Progress → Step Bool
  | [], s => (.ok false, s)
  | id :: ids, s =>
    match r.visit id s with
    | (.error e, s) => (.error e, s)
    | (.ok changed, s) =>
      match r.visitAll ids s with
      | (.ok more, s) => (.ok (changed || more), s)
      | (.error e, s) => (.error e, s)

/-- One pass over the nodes below the root, as they are when it begins. -/
def pass (r : Rewriter) (root : NodeId) (s : Progress) : Step Bool :=
  match s.plan.reachable root with
  | .ok ids => r.visitAll ids s
  | .error e => (.error (.plan e), s)

/-- At most so many passes, the last of which may be one that changes nothing. -/
def runPasses (r : Rewriter) (root : NodeId) : (passes : Nat) → Progress → Step Unit
  | 0, s => (.ok (), s)
  | passes + 1, s =>
    match r.pass root { s with stats := { s.stats with passes := s.stats.passes + 1 } } with
    | (.ok true, s) => r.runPasses root passes s
    | (.ok false, s) => (.ok (), { s with stats := { s.stats with reachedFixpoint := true } })
    | (.error e, s) => (.error e, s)

/-- The records at the end of a rewriting. -/
def summary (r : Rewriter) (stats : Stats) : List Record :=
  (if stats.reachedFixpoint then []
    else [⟨.warn, s!"计划重写在 {r.maxIterations} 轮后仍未到达不动点，停止重写"⟩])
    ++ [⟨.info, s!"计划重写完成: {stats.passes} 轮, {stats.firings} 次替换, {stats.failures} 次失败"⟩]

/-- Rewrites the plan below a root; the answer is the id that stands for the root in the end. -/
def rewrite (r : Rewriter) (plan : Plan) (root : NodeId) : Step NodeId :=
  match r.runPasses root r.maxIterations { plan } with
  | (.ok (), s) => (.ok (s.plan.resolve root), s.note (r.summary s.stats))
  | (.error e, s) => (.error e, s)

end Rewriter
end RelPlan
