import RelPlan.Expr.Operator
import RelPlan.RowType

/-! # Scalar expressions

An expression reads the fields of an input row (`input i`, written `$i`) and, inside a program,
the results of earlier entries (`temp i`, written `$ti`). -/

namespace RelPlan

inductive Expr where
  | input (i : Nat)
  | temp (i : Nat)
  | literal (v : Value)
  | binary (left : Expr) (op : BinaryOp) (right : Expr)
  | unary (op : UnaryOp) (operand : Expr)
  deriving DecidableEq

namespace Expr

def text : Expr → String
  | input i => s!"${i}"
  | temp i => s!"$t{i}"
  | literal v => v.text
  | binary l op r => op.name ++ "(" ++ l.text ++ ", " ++ r.text ++ ")"
  | unary op x => op.name ++ "(" ++ x.text ++ ")"

def isLiteral : Expr → Bool
  | literal _ => true
  | _ => false

def input? : Expr → Option Nat
  | input i => some i
  | _ => none

def temp? : Expr → Option Nat
  | temp i => some i
  | _ => none

def children : Expr → List Expr
  | binary l _ r => [l, r]
  | unary _ x => [x]
  | _ => []

/-- The references to earlier entries, from left to right, each as often as it occurs. -/
def temps : Expr → List Nat
  | temp i => [i]
  | binary l _ r => l.temps ++ r.temps
  | unary _ x => x.temps
  | _ => []

/-- The greatest input field that is read. -/
def maxInput? : Expr → Option Nat
  | input i => some i
  | binary l _ r => max l.maxInput? r.maxInput?
  | unary _ x => x.maxInput?
  | _ => none

/-- Puts expressions in place of the references, from left to right; the first failure of a
replacement is the failure of the whole. -/
def substM {m : Type → Type} [Monad m] (onInput onTemp : Nat → m Expr) : Expr → m Expr
  | input i => onInput i
  | temp i => onTemp i
  | literal v => pure (literal v)
  | binary l op r => do
    let l ← l.substM onInput onTemp
    let r ← r.substM onInput onTemp
    return binary l op r
  | unary op x => do
    let x ← x.substM onInput onTemp
    return unary op x

/-- Puts expressions in place of the references. -/
def subst (onInput onTemp : Nat → Expr) : Expr → Expr
  | input i => onInput i
  | temp i => onTemp i
  | literal v => literal v
  | binary l op r => binary (l.subst onInput onTemp) op (r.subst onInput onTemp)
  | unary op x => unary op (x.subst onInput onTemp)

/-- The conjunction of conditions, the first ones innermost; there is none of no conditions. -/
def conj? : List Expr → Option Expr
  | [] => none
  | c :: cs => some (cs.foldl (binary · .and ·) c)

/-- Equality of expressions whose literals are `Value.alike`. -/
def alike : Expr → Expr → Bool
  | input i, input j => i == j
  | temp i, temp j => i == j
  | literal v, literal w => v.alike w
  | binary l op r, binary l' op' r' => l.alike l' && op = op' && r.alike r'
  | unary op x, unary op' x' => op = op' && x.alike x'
  | _, _ => false

end Expr

/-- The reference to the first field of that name. -/
def RowType.ref? (rt : RowType) (name : String) : Option Expr := (rt.position? name).map .input

end RelPlan
