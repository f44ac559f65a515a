import RelPlan.Value.Basic

/-! # Row types

The fields of a row in order. Two row types have the same shape when they differ in field names
only. -/

namespace RelPlan

structure Field where
  name : String
  type : ScalarType
  deriving DecidableEq, Repr

abbrev RowType := List Field

namespace RowType

def names (rt : RowType) : List String := rt.map Field.name

def types (rt : RowType) : List ScalarType := rt.map Field.type

/-- The type of the field at a position. -/
def type? (rt : RowType) (i : Nat) : Option ScalarType := rt[i]?.map Field.type

/-- The position of the first field of that name. -/
def position? (rt : RowType) (name : String) : Option Nat := rt.findIdx? (·.name = name)

/-- Whether the types agree, field by field. -/
def sameShape (a b : RowType) : Bool := a.types = b.types

def text (rt : RowType) : String :=
  "RecordType(" ++ ", ".intercalate (rt.map fun f => s!"{f.type.name} {f.name}") ++ ")"

end RowType
end RelPlan
