import RelPlan.Expr.Basic
import RelPlan.Value.Arithmetic

/-! # Errors of expressions and programs

`Invalid` says why an expression or program is refused before it runs, `EvalError` why running it
on a row has no result. -/

namespace RelPlan

inductive Invalid where
  | fieldRange (i width : Nat)
  | undefinedTemp (i : Nat)
  | operandTypes (op : BinaryOp) (left right : ScalarType)
  | operandType (op : UnaryOp) (operand : ScalarType)
  /-- An entry is nothing but a reference to another one. -/
  | bareTemp (position i : Nat)
  /-- An operand of an entry is not a reference. -/
  | nestedOperand (position : Nat) (e : Expr)
  /-- An entry refers to itself or to a later one. -/
  | laterTemp (position i : Nat)
  | columnCount (columns names : Nat)
  | missingColumn (name : String) (i : Nat)
  | conditionType (t : ScalarType)
  | conditionExprType (t : ScalarType) (e : Expr)
  | missingCondition (i : Nat)
  | missingEntry (i : Nat)
  | unreachableEntry (i : Nat)
  /-- The input of the upper program is not what the lower one puts out. -/
  | unfitting (upper lower : RowType)
  | unreadable
  deriving DecidableEq

def Invalid.message : Invalid → String
  | fieldRange i width => s!"输入字段引用 ${i} 越界，输入只有 {width} 个字段"
  | undefinedTemp i => s!"引用了未定义的表达式 $t{i}"
  | operandTypes op l r => s!"操作符 {op.name} 不能作用于 {l.name} 和 {r.name}"
  | operandType op t => s!"操作符 {op.name} 不能作用于 {t.name}"
  | bareTemp p i => s!"expr#{p} 不能直接是局部引用 $t{i}"
  | nestedOperand p e => s!"expr#{p} 的操作数必须是局部引用: {e.text}"
  | laterTemp p i => s!"expr#{p} 引用了 $t{i}，只能引用之前的表达式"
  | columnCount a b => s!"投影数量 {a} 与名称数量 {b} 不一致"
  | missingColumn name i => s!"投影 {name} 引用了不存在的表达式 $t{i}"
  | conditionType t => s!"条件必须是布尔类型，实际为 {t.name}"
  | conditionExprType t e => s!"条件必须是布尔类型，实际为 {t.name}: {e.text}"
  | missingCondition i => s!"条件引用了不存在的表达式 $t{i}"
  | missingEntry i => s!"表达式 $t{i} 不存在"
  | unreachableEntry i => s!"表达式 $t{i} 不可达"
  | unfitting upper lower => s!"无法组合程序: 上层输入 {upper.text} 与下层输出 {lower.text} 不一致"
  | unreadable => "程序 JSON 解析失败"

inductive EvalError where
  | value (e : ValueError)
  | notLogical (v : Value)
  /-- A logical operator is asked for its value on two operands that are both evaluated. -/
  | needsShortCircuit (op : BinaryOp)
  | notBoolean (op : UnaryOp) (v : Value)
  | fieldRange (i width : Nat)
  /-- A lone row has no earlier entries. -/
  | noTemps (i : Nat)
  | missingField (i : Nat)
  | missingEntry (i : Nat)
  | rowWidth (actual expected : Nat)
  deriving DecidableEq

def EvalError.message : EvalError → String
  | value e => e.message
  | notLogical v => s!"逻辑运算的操作数必须是布尔值，实际为 {v.text}"
  | needsShortCircuit op => s!"逻辑运算 {op.name} 需要短路求值"
  | notBoolean op v => s!"{op.name} 不能作用于 {v.text}"
  | fieldRange i width => s!"输入字段 ${i} 越界，输入行只有 {width} 个字段"
  | noTemps i => s!"单行上下文不支持局部表达式引用 $t{i}"
  | missingField i => s!"输入字段 ${i} 越界"
  | missingEntry i => s!"表达式 $t{i} 不存在"
  | rowWidth actual expected => s!"输入行有 {actual} 个字段，程序期望 {expected} 个"

inductive ProgramError where
  | invalid (cause : Invalid)
  | evaluation (cause : EvalError)
  deriving DecidableEq

def ProgramError.message : ProgramError → String
  | invalid cause => s!"无效的程序: {cause.message}"
  | evaluation cause => s!"表达式求值错误: {cause.message}"

end RelPlan
