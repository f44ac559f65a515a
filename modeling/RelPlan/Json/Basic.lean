import RelPlan.Number.Numeral

/-! # JSON trees -/

namespace RelPlan

/-- A JSON value. A string is `none` when it spells half a surrogate pair, which names no
character; such a string is well formed, but it has no value. -/
inductive Json where
  | null
  | bool (b : Bool)
  | number (n : Numeral)
  | string (s : Option String)
  | array (items : List Json)
  | object (members : List (Option String × Json))

namespace Json

/-- A string with a value. -/
def ofString (s : String) : Json := .string (some s)

/-- A natural number. -/
def ofNat (n : Nat) : Json := .number (.ofInt n)

/-- An object with the given members. -/
def record (members : List (String × Json)) : Json :=
  .object (members.map fun (name, value) => (some name, value))

end Json
end RelPlan
