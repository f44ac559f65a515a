import RelPlan.Number.Numeral

/-! # Values and their types

A `Value` is one cell of a row; `null` belongs to every type. Equality `=` of values tells floats
apart by their bits, with one `NaN`; `Value.alike` is equality of the numbers themselves. -/

namespace RelPlan

/-- The type of a cell. `null` is the type of the lone literal `null`. -/
inductive ScalarType where
  | null
  | bool
  | int
  | float
  | string
  deriving DecidableEq, Repr

namespace ScalarType

def name : ScalarType → String
  | null => "NULL"
  | bool => "BOOLEAN"
  | int => "INTEGER"
  | float => "DOUBLE"
  | string => "VARCHAR"

def isNumeric : ScalarType → Bool
  | int | float => true
  | _ => false

def isBoolean : ScalarType → Bool
  | bool => true
  | _ => false

/-- Conditions are boolean; the literal `null` is a condition that is never true. -/
def isCondition : ScalarType → Bool
  | bool | null => true
  | _ => false

/-- Whether values of the two types can be compared. -/
def isComparable (a b : ScalarType) : Bool :=
  a = b || a = null || b = null || (a.isNumeric && b.isNumeric)

/-- The type of an arithmetic result: `null` takes the other side's type, and a float on either
side makes the result a float. -/
def arithmeticResult : ScalarType → ScalarType → ScalarType
  | null, t | t, null => t
  | int, int => int
  | _, _ => float

end ScalarType

inductive Value where
  | null
  | bool (b : Bool)
  | int (i : Int64)
  | float (x : Float)
  | string (s : String)
  deriving DecidableEq

abbrev Row := List Value

/-- Floats in messages and plans: no exponent for `0.0001` up to sixteen digits before the point,
no plus sign, and the upper of two equally near decimals. -/
def displayFloats : FloatStyle := ⟨-3, 16, false, .up⟩

/-- The text of a float in messages and plans. -/
def floatText (x : Float) : String :=
  match Numeral.ofFloat? displayFloats x with
  | some n => n.text displayFloats.plus
  | none => if x.isNaN then "NaN" else if x < 0 then "-inf" else "inf"

namespace Value

def type : Value → ScalarType
  | null => .null
  | bool _ => .bool
  | int _ => .int
  | float _ => .float
  | string _ => .string

def isNull : Value → Bool
  | null => true
  | _ => false

/-- Only `TRUE` is true: a filter drops a row for `FALSE` and for `NULL`. -/
def isTrue : Value → Bool
  | bool b => b
  | _ => false

def bool? : Value → Option Bool
  | bool b => some b
  | _ => none

/-- Whether a cell of type `t` may hold the value: `null` fits everywhere and an integer also
where a float is declared. -/
def conforms (v : Value) (t : ScalarType) : Bool :=
  match v with
  | null => true
  | int _ => t.isNumeric
  | v => v.type = t

/-- Equality of numbers: `NaN` is unlike itself and the two zeros are alike; an integer is never
alike to a float. -/
def alike : Value → Value → Bool
  | null, null => true
  | bool a, bool b => a == b
  | int a, int b => a == b
  | float a, float b => a == b
  | string a, string b => a == b
  | _, _ => false

/-- The text of a value; strings stand between single quotes as they are. -/
def text : Value → String
  | null => "null"
  | bool b => if b then "true" else "false"
  | int i => (Numeral.ofInt i.toInt).text false
  | float x => floatText x
  | string s => "'" ++ s ++ "'"

end Value

/-- Whether the row has one conforming value for each of the types. -/
def Row.conforms : Row → List ScalarType → Bool
  | [], [] => true
  | v :: row, t :: types => v.conforms t && Row.conforms row types
  | _, _ => false

end RelPlan
