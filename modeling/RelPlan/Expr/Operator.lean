/-! # Operators -/

namespace RelPlan

inductive BinaryOp where
  | add
  | sub
  | mul
  | div
  | rem
  | eq
  | ne
  | lt
  | le
  | gt
  | ge
  | and
  | or
  | concat
  deriving DecidableEq, Repr

namespace BinaryOp

def all : List BinaryOp := [add, sub, mul, div, rem, eq, ne, lt, le, gt, ge, and, or, concat]

/-- The operator as it stands in the text of an expression. -/
def name : BinaryOp → String
  | add => "+"
  | sub => "-"
  | mul => "*"
  | div => "/"
  | rem => "%"
  | eq => "="
  | ne => "<>"
  | lt => "<"
  | le => "<="
  | gt => ">"
  | ge => ">="
  | and => "AND"
  | or => "OR"
  | concat => "||"

/-- The operator in a saved program. -/
def tag : BinaryOp → String
  | add => "Add"
  | sub => "Subtract"
  | mul => "Multiply"
  | div => "Divide"
  | rem => "Modulo"
  | eq => "Equal"
  | ne => "NotEqual"
  | lt => "LessThan"
  | le => "LessThanOrEqual"
  | gt => "GreaterThan"
  | ge => "GreaterThanOrEqual"
  | and => "And"
  | or => "Or"
  | concat => "StringConcat"

def isArithmetic : BinaryOp → Bool
  | add | sub | mul | div | rem => true
  | _ => false

def isComparison : BinaryOp → Bool
  | eq | ne | lt | le | gt | ge => true
  | _ => false

/-- The operand that decides a logical operator alone: `FALSE` for `AND`, `TRUE` for `OR`. -/
def absorbing? : BinaryOp → Option Bool
  | and => some false
  | or => some true
  | _ => none

def isLogical (op : BinaryOp) : Bool := op.absorbing?.isSome

end BinaryOp

inductive UnaryOp where
  | minus
  | not
  | isNull
  | isNotNull
  | isTrue
  deriving DecidableEq, Repr

namespace UnaryOp

def all : List UnaryOp := [minus, not, isNull, isNotNull, isTrue]

/-- The operator as it stands in the text of an expression. -/
def name : UnaryOp → String
  | minus => "-"
  | not => "NOT"
  | isNull => "IS NULL"
  | isNotNull => "IS NOT NULL"
  | isTrue => "IS TRUE"

/-- The operator in a saved program. -/
def tag : UnaryOp → String
  | minus => "Minus"
  | not => "Not"
  | isNull => "IsNull"
  | isNotNull => "IsNotNull"
  | isTrue => "IsTrue"

end UnaryOp
end RelPlan
