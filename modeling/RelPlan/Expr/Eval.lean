import RelPlan.Program.Error

/-! # Evaluation of expressions

Logic has three values. `AND` and `OR` look at their right operand only if the left one does not
decide; every other operator evaluates its operands from left to right. `Expr.evalM` leaves open
where references get their values, so that a single row and a running program share it. -/

namespace RelPlan

namespace BinaryOp

/-- Whether a comparison accepts an order. -/
def accepts (op : BinaryOp) (o : Ordering) : Bool :=
  match op with
  | eq => o.isEq
  | ne => o.isNe
  | lt => o.isLT
  | le => o.isLE
  | gt => o.isGT
  | ge => o.isGE
  | _ => false

/-- A comparison of values; those without an order compare to `null`. -/
def comparison (op : BinaryOp) (a b : Value) : Value :=
  match a.compare? b with
  | some o => .bool (op.accepts o)
  | none => .null

/-- The value of an operator that needs both operands. -/
def apply (op : BinaryOp) (a b : Value) : Except ProgramError Value :=
  let lift (r : Except ValueError Value) := r.mapError fun e => .evaluation (.value e)
  match op with
  | add => lift (a.add b)
  | sub => lift (a.sub b)
  | mul => lift (a.mul b)
  | div => lift (a.div b)
  | rem => lift (a.rem b)
  | concat => lift (a.concat b)
  | eq | ne | lt | le | gt | ge => .ok (op.comparison a b)
  | and | or => .error (.evaluation (.needsShortCircuit op))

end BinaryOp

/-- The value of a unary operator. -/
def UnaryOp.apply (op : UnaryOp) (v : Value) : Except ProgramError Value :=
  match op, v with
  | minus, v => v.neg.mapError fun e => .evaluation (.value e)
  | not, .null => .ok .null
  | not, .bool b => .ok (.bool !b)
  | isTrue, .null => .ok (.bool false)
  | isTrue, .bool b => .ok (.bool b)
  | not, v | isTrue, v => .error (.evaluation (.notBoolean op v))
  | isNull, v => .ok (.bool v.isNull)
  | isNotNull, v => .ok (.bool !v.isNull)

/-- A truth value, unknown for `null`. -/
def Value.truth : Value → Except ProgramError (Option Bool)
  | .null => .ok none
  | .bool b => .ok (some b)
  | v => .error (.evaluation (.notLogical v))

/-- Two truth values under the logical operator that `absorbing` decides. -/
def connect (absorbing : Bool) (a b : Option Bool) : Value :=
  if b = some absorbing then .bool absorbing
  else if a = some !absorbing ∧ b = some !absorbing then .bool !absorbing
  else .null

namespace Expr

variable {m : Type → Type} [Monad m] [MonadLiftT (Except ProgramError) m]

/-- Evaluates an expression, asking for the values of input fields and earlier entries. -/
def evalM (onInput onTemp : Nat → m Value) : Expr → m Value
  | input i => onInput i
  | temp i => onTemp i
  | literal v => pure v
  | binary l op r => do
    let a ← l.evalM onInput onTemp
    match op.absorbing? with
    | some absorbing =>
      let p ← liftM a.truth
      if p = some absorbing then
        return .bool absorbing
      else
        let b ← r.evalM onInput onTemp
        let q ← liftM b.truth
        return connect absorbing p q
    | none =>
      let b ← r.evalM onInput onTemp
      liftM (op.apply a b)
  | unary op x => do
    let a ← x.evalM onInput onTemp
    liftM (op.apply a)

end Expr

/-- A field of a lone row. -/
def Row.field (row : Row) (i : Nat) : Except ProgramError Value :=
  match row[i]? with
  | some v => .ok v
  | none => .error (.evaluation (.fieldRange i row.length))

/-- An earlier entry, if its value is given beside the row. -/
def Row.temp (temps : Row) (i : Nat) : Except ProgramError Value :=
  match temps[i]? with
  | some v => .ok v
  | none => .error (.evaluation (.noTemps i))

namespace Expr

/-- The value of an expression on a row beside which the first entries have given values. -/
def evalWith (row temps : Row) (e : Expr) : Except ProgramError Value :=
  e.evalM row.field temps.temp

/-- The value of an expression on a lone row. -/
def eval (row : Row) (e : Expr) : Except ProgramError Value := e.evalWith row []

/-- The values of expressions on a row, or the first failure. -/
def evalAll (row : Row) (es : List Expr) : Except ProgramError Row := es.mapM (eval row)

end Expr
end RelPlan
