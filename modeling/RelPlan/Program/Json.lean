import RelPlan.Program.Basic
import RelPlan.Number.Scaled
import RelPlan.Json.Reader
import RelPlan.Json.Printer

/-! # Saved programs

A program is saved as a JSON object without its output row type, which is derived again when the
program is read back and checked. A structure may also be read from an array of its fields in
order, and a bare tag also as an object with the member `null`. Fields that are not known are passed
over. -/

namespace RelPlan

/-! ## Writing -/

namespace ScalarType

def all : List ScalarType := [null, bool, int, float, string]

/-- The type in a saved program. -/
def tag : ScalarType → String
  | null => "Null"
  | bool => "Bool"
  | int => "Int"
  | float => "Float"
  | string => "String"

end ScalarType

/-- Floats in saved programs: no exponent for `0.00001` up to sixteen digits before the point, a
plus sign on other positive exponents, and the even one of two equally near decimals. -/
def savedFloats : FloatStyle := ⟨-4, 16, true, .even⟩

/-- A float that is not finite is saved as `null`. -/
def Value.toJson : Value → Json
  | null => .ofString "Null"
  | bool b => .record [("Bool", .bool b)]
  | int i => .record [("Int", .number (.ofInt i.toInt))]
  | float x => .record [("Float", ((Numeral.ofFloat? savedFloats x).map Json.number).getD .null)]
  | string s => .record [("String", .ofString s)]

def Expr.toJson : Expr → Json
  | input i => .record [("InputRef", .ofNat i)]
  | temp i => .record [("LocalRef", .ofNat i)]
  | literal v => .record [("Literal", v.toJson)]
  | binary l op r =>
    .record [("Binary", .record
      [("left", l.toJson), ("op", .ofString op.tag), ("right", r.toJson)])]
  | unary op x =>
    .record [("Unary", .record [("op", .ofString op.tag), ("operand", x.toJson)])]

def Field.toJson (f : Field) : Json :=
  .record [("name", .ofString f.name), ("data_type", .ofString f.type.tag)]

def conditionToJson : Option Nat → Json
  | none => .null
  | some i => .ofNat i

def Program.toJson (p : Program) : Json :=
  .record [
    ("input_row_type", .record [("fields", .array (p.inputType.map Field.toJson))]),
    ("exprs", .array (p.entries.map Expr.toJson)),
    ("projects", .array (p.columns.map fun c => .ofNat c.entry)),
    ("project_names", .array (p.columns.map fun c => .ofString c.name)),
    ("condition", conditionToJson p.condition)]

/-- The text of a saved program. -/
def Program.save (p : Program) : String := p.toJson.pretty

/-! ## Reading -/

namespace Json

/-- How many arrays and objects may lie inside each other. -/
def maxNesting : Nat := 127

/-- A natural number of at most 64 bits. -/
def index? : Json → Option Nat
  | number n =>
    let i := Numeral.value n.whole
    if n.isWhole ∧ n.negative = false ∧ i < UInt64.size then some i else none
  | _ => none

def int64? : Json → Option Int64
  | number n =>
    let i := n.wholeValue
    if n.isWhole ∧ (i = 0 → n.negative = false) ∧ Int64.minValue.toInt ≤ i
        ∧ i ≤ Int64.maxValue.toInt then
      some (.ofInt i)
    else none
  | _ => none

def float? : Json → Option Float
  | number n => n.scaled?
  | _ => none

def bool? : Json → Option Bool
  | bool b => some b
  | _ => none

def string? : Json → Option String
  | string s => s
  | _ => none

/-- The items of an array, each read one level further down. -/
def items? (item : Nat → Json → Option α) : (nesting : Nat) → Json → Option (List α)
  | nesting + 1, array items => items.mapM (item nesting)
  | _, _ => none

/-- The one member of an object, which is one level further down. -/
def variant? : (nesting : Nat) → Json → Option (String × Nat × Json)
  | nesting + 1, object [(some tag, payload)] => some (tag, nesting, payload)
  | _, _ => none

/-- A tag without a payload. -/
def tag? (nesting : Nat) : Json → Option String
  | string s => s
  | j =>
    match variant? nesting j with
    | some (tag, _, null) => some tag
    | _ => none

/-- The values of the named fields: at most one for each in an object, exactly one in an array. -/
def fields? (names : List String) : Json → Option (List (Option Json))
  | object members => do
    let members ← members.mapM fun (name, value) => return (← name, value)
    names.mapM fun name =>
      match members.filter (·.1 = name) with
      | [] => some none
      | [(_, value)] => some (some value)
      | _ => none
  | array items => if items.length = names.length then some (items.map some) else none
  | _ => none

/-- The fields of a structure with the nesting left inside it. -/
def structure? (names : List String) : (nesting : Nat) → Json →
    Option (Nat × List (Option Json))
  | 0, _ => none
  | nesting + 1, j => (fields? names j).map (nesting, ·)

end Json

open Json

def ScalarType.ofJson? (nesting : Nat) (j : Json) : Option ScalarType := do
  let tag ← tag? nesting j
  ScalarType.all.find? (·.tag = tag)

def BinaryOp.ofJson? (nesting : Nat) (j : Json) : Option BinaryOp := do
  let tag ← tag? nesting j
  BinaryOp.all.find? (·.tag = tag)

def UnaryOp.ofJson? (nesting : Nat) (j : Json) : Option UnaryOp := do
  let tag ← tag? nesting j
  UnaryOp.all.find? (·.tag = tag)

def Value.ofJson? (nesting : Nat) (j : Json) : Option Value :=
  if tag? nesting j = some "Null" then some .null
  else do
    let (tag, _, payload) ← variant? nesting j
    match tag with
    | "Bool" => payload.bool?.map .bool
    | "Int" => payload.int64?.map .int
    | "Float" => payload.float?.map .float
    | "String" => payload.string?.map .string
    | _ => none

/-- Reads an expression that may still nest so many levels. -/
def Expr.ofJson? : (nesting : Nat) → Json → Option Expr
  | 0, _ => none
  | nesting + 1, j => do
    let (tag, _, payload) ← variant? (nesting + 1) j
    match tag with
    | "InputRef" => payload.index?.map .input
    | "LocalRef" => payload.index?.map .temp
    | "Literal" => (Value.ofJson? nesting payload).map .literal
    | "Binary" =>
      match nesting with
      | 0 => none
      | inner + 1 =>
        match ← fields? ["left", "op", "right"] payload with
        | [some l, some op, some r] =>
          return .binary (← ofJson? inner l) (← BinaryOp.ofJson? inner op) (← ofJson? inner r)
        | _ => none
    | "Unary" =>
      match nesting with
      | 0 => none
      | inner + 1 =>
        match ← fields? ["op", "operand"] payload with
        | [some op, some x] => return .unary (← UnaryOp.ofJson? inner op) (← ofJson? inner x)
        | _ => none
    | _ => none

def Field.ofJson? (nesting : Nat) (j : Json) : Option Field := do
  match ← structure? ["name", "data_type"] nesting j with
  | (nesting, [some name, some type]) => return ⟨← name.string?, ← ScalarType.ofJson? nesting type⟩
  | _ => none

def RowType.ofJson? (nesting : Nat) (j : Json) : Option RowType := do
  match ← structure? ["fields"] nesting j with
  | (nesting, [some fields]) => items? Field.ofJson? nesting fields
  | _ => none

/-- A condition may be absent or `null`. -/
def conditionOfJson? : Option Json → Option (Option Nat)
  | none | some .null => some none
  | some j => j.index?.map some

/-- Reads a saved program; what is read is checked like any other parts. -/
def Program.load (text : String) : Except ProgramError Program :=
  let parts : Option (Except ProgramError Program) := do
    match ← structure? ["input_row_type", "exprs", "projects", "project_names", "condition"]
        maxNesting (← Json.read? text) with
    | (nesting, [some inputType, some entries, some projects, some names, condition]) =>
      return checkLists
        (← RowType.ofJson? nesting inputType)
        (← items? Expr.ofJson? nesting entries)
        (← items? (fun _ => index?) nesting projects)
        (← items? (fun _ => string?) nesting names)
        (← conditionOfJson? condition)
    | _ => none
  parts.getD (.error (.invalid .unreadable))

end RelPlan
