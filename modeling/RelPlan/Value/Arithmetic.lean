import RelPlan.Value.Basic

/-! # Arithmetic and comparison of values

`null` on either side gives `null` before anything else is looked at. Integers are exact or an
error, never wrapped; an integer beside a float is rounded to the nearest float first. -/

namespace RelPlan

/-- The arithmetic operations on numbers. -/
inductive Arithmetic where
  | add
  | sub
  | mul
  | div
  | rem
  | neg
  deriving DecidableEq, Repr

/-- Why an operation on values has no result. -/
inductive ValueError where
  | overflow (op : Arithmetic)
  | divisionByZero
  | notNumeric (op : Arithmetic)
  | notText
  deriving DecidableEq, Repr

namespace ValueError

def message : ValueError → String
  | overflow .add => "整数加法溢出"
  | overflow .sub => "整数减法溢出"
  | overflow .mul => "整数乘法溢出"
  | overflow .div => "整数除法溢出"
  | overflow .rem => "整数取模溢出"
  | overflow .neg => "整数取负溢出"
  | divisionByZero => "除数为零"
  | notNumeric .add => "无法对这些类型的值进行加法运算"
  | notNumeric .sub => "无法对这些值进行减法运算"
  | notNumeric .mul => "无法对这些值进行乘法运算"
  | notNumeric .div => "无法对这些值进行除法运算"
  | notNumeric .rem => "无法对这些值进行取模运算"
  | notNumeric .neg => "无法对该值取负"
  | notText => "只能连接字符串"

end ValueError

/-- Whether an integer has a 64-bit form. -/
def fitsInt64 (r : Int) : Bool := Int64.minValue.toInt ≤ r && r ≤ Int64.maxValue.toInt

namespace Value

/-- The exact result of an integer operation, if it fits. -/
def exactInt (op : Arithmetic) (r : Int) : Except ValueError Value :=
  if fitsInt64 r then .ok (.int (.ofInt r)) else .error (.overflow op)

/-- Applies an operation to two numbers, as integers if both are. -/
def arithmetic (op : Arithmetic) (onInts : Int → Int → Except ValueError Value)
    (onFloats : Float → Float → Float) : Value → Value → Except ValueError Value
  | null, _ | _, null => .ok null
  | int a, int b => onInts a.toInt b.toInt
  | float a, float b => .ok (float (onFloats a b))
  | int a, float b => .ok (float (onFloats (nearestFloat a) b))
  | float a, int b => .ok (float (onFloats a (nearestFloat b)))
  | _, _ => .error (.notNumeric op)

def add : Value → Value → Except ValueError Value :=
  arithmetic .add (fun a b => exactInt .add (a + b)) (· + ·)

def sub : Value → Value → Except ValueError Value :=
  arithmetic .sub (fun a b => exactInt .sub (a - b)) (· - ·)

def mul : Value → Value → Except ValueError Value :=
  arithmetic .mul (fun a b => exactInt .mul (a * b)) (· * ·)

/-- The quotient, truncated for integers. -/
def div : Value → Value → Except ValueError Value :=
  arithmetic .div
    (fun a b => if b = 0 then .error .divisionByZero else exactInt .div (a.tdiv b)) (· / ·)

/-- The remainder, with the sign of the dividend; for integers it overflows with the quotient. -/
def rem : Value → Value → Except ValueError Value :=
  arithmetic .rem
    (fun a b =>
      if b = 0 then .error .divisionByZero
      else if fitsInt64 (a.tdiv b) then exactInt .rem (a.tmod b)
      else .error (.overflow .rem))
    truncatedRemainder

def neg : Value → Except ValueError Value
  | null => .ok null
  | int a => exactInt .neg (-a.toInt)
  | float x => .ok (float (-x))
  | _ => .error (.notNumeric .neg)

def concat : Value → Value → Except ValueError Value
  | null, _ | _, null => .ok null
  | string a, string b => .ok (string (a ++ b))
  | _, _ => .error .notText

/-- The order of two floats; `NaN` has none. -/
def compareFloats (a b : Float) : Option Ordering :=
  if a < b then some .lt else if a == b then some .eq else if b < a then some .gt else none

/-- The order of two values of one kind, numbers being one kind; strings are ordered by their code
points. -/
def compare? : Value → Value → Option Ordering
  | bool a, bool b => some (compare a b)
  | int a, int b => some (compare a.toInt b.toInt)
  | float a, float b => compareFloats a b
  | int a, float b => compareFloats (nearestFloat a) b
  | float a, int b => compareFloats a (nearestFloat b)
  | string a, string b => some (compareOfLessAndEq a b)
  | _, _ => none

end Value
end RelPlan
