import RelPlan.Program.Error

/-! # Types of expressions

`Expr.type` finds the type of an expression over an input row type and the types of the earlier
entries. Operands are typed from left to right, and the first failure is the answer. -/

namespace RelPlan

/-- The result type of a binary operator; `null` is allowed beside any operand that is. -/
def BinaryOp.resultType (op : BinaryOp) (l r : ScalarType) : Except ProgramError ScalarType :=
  let mismatch := .error (.invalid (.operandTypes op l r))
  let both (admits : ScalarType → Bool) (t : ScalarType) :=
    if admits l && admits r then .ok t else mismatch
  if op.isArithmetic then both (fun t => t.isNumeric || t = .null) (l.arithmeticResult r)
  else if op.isComparison then if l.isComparable r then .ok .bool else mismatch
  else if op.isLogical then both ScalarType.isCondition .bool
  else both (fun t => t = .string || t = .null) .string

/-- The result type of a unary operator. -/
def UnaryOp.resultType (op : UnaryOp) (t : ScalarType) : Except ProgramError ScalarType :=
  let mismatch := .error (.invalid (.operandType op t))
  match op with
  | minus => if t.isNumeric || t = .null then .ok t else mismatch
  | not | isTrue => if t.isCondition then .ok .bool else mismatch
  | isNull | isNotNull => .ok .bool

namespace Expr

/-- The type of an expression over the fields of `rt` and earlier entries of the types `temps`. -/
def type (rt : RowType) (temps : List ScalarType) : Expr → Except ProgramError ScalarType
  | input i =>
    match rt.type? i with
    | some t => .ok t
    | none => .error (.invalid (.fieldRange i rt.length))
  | temp i =>
    match temps[i]? with
    | some t => .ok t
    | none => .error (.invalid (.undefinedTemp i))
  | literal v => .ok v.type
  | binary l op r => do op.resultType (← l.type rt temps) (← r.type rt temps)
  | unary op x => do op.resultType (← x.type rt temps)

end Expr
end RelPlan
