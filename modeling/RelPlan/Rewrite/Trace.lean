import RelPlan.Rewrite.Pattern

/-! # Errors and records of rewriting

`Traced α` is a result or an error together with the records written on the way, which survive an
error. The records never influence a result: `Traced.result` takes computations to computations in
`Except`, as `result_pure` and `result_bind` say. -/

namespace RelPlan

inductive RewriteError where
  /-- A rule asks for a position that its pattern does not have. -/
  | noPosition (rule : String) (position : Nat)
  | missingInput (id : NodeId)
  /-- A rule refuses a match with words of its own. -/
  | refused (message : String)
  | duplicateRule (rule : String)
  | invalidPattern (rule : String) (e : PatternError)
  | alreadyTransformed (rule : String)
  | rowTypeMismatch (expected actual : RowType)
  | plan (e : PlanError)
  | program (e : ProgramError)
  deriving DecidableEq

def RewriteError.message : RewriteError → String
  | noPosition rule i => s!"无效的计划节点: 规则 {rule} 的模式没有第 {i} 个位置"
  | missingInput id => s!"无效的计划节点: 替换节点引用了不存在的输入 {NodeId.text id}"
  | refused message => s!"无效的计划节点: {message}"
  | duplicateRule rule => s!"无效的规则: 规则 {rule} 重复注册"
  | invalidPattern rule e => s!"无效的规则: {rule}: {e.message}"
  | alreadyTransformed rule => s!"规则 {rule} 在一次触发中重复提交替换"
  | rowTypeMismatch expected actual =>
    s!"替换节点的行类型不匹配: 期望 {expected.text}, 实际 {actual.text}"
  | plan e => s!"计划错误: {e.message}"
  | program e => s!"程序错误: {e.message}"

inductive Level where
  | error
  | warn
  | info
  | debug
  | trace
  deriving DecidableEq, Repr

def Level.name : Level → String
  | error => "ERROR"
  | warn => "WARN"
  | info => "INFO"
  | debug => "DEBUG"
  | trace => "TRACE"

structure Record where
  level : Level
  text : String
  deriving DecidableEq, Repr

structure Traced (α : Type) where
  log : List Record
  result : Except RewriteError α

namespace Traced

instance : Monad Traced where
  pure a := ⟨[], .ok a⟩
  bind t f :=
    match t.result with
    | .error e => ⟨t.log, .error e⟩
    | .ok a => ⟨t.log ++ (f a).log, (f a).result⟩

instance : MonadLift (Except RewriteError) Traced where
  monadLift r := ⟨[], r⟩

/-- Writes a record. -/
def note (level : Level) (text : String) : Traced Unit := ⟨[⟨level, text⟩], .ok ()⟩

@[simp] theorem result_pure (a : α) : (pure a : Traced α).result = pure a := rfl

@[simp] theorem result_bind (t : Traced α) (f : α → Traced β) :
    (t >>= f).result = t.result >>= fun a => (f a).result := by
  show (match t.result with | .error e => _ | .ok a => _ : Traced β).result = _
  cases t.result <;> rfl

@[simp] theorem result_lift (r : Except RewriteError α) : (liftM r : Traced α).result = r := rfl

@[simp] theorem result_note (level : Level) (text : String) :
    (note level text).result = .ok () := rfl

end Traced
end RelPlan
