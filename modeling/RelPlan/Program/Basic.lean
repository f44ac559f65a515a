import RelPlan.Expr.Typing

/-! # Calculator programs

A program filters and projects rows. Its entries are numbered expressions: a leaf, or one operator
whose operands refer to earlier entries. A row passes if the condition entry is true on it, and
each column of the output is the value of an entry. `Program.check` is the only way to a program
from parts that nobody vouches for; it types the entries in order and derives the output row
type. -/

namespace RelPlan

/-- An output column: the entry that it shows, and its name. -/
structure Column where
  entry : Nat
  name : String
  deriving DecidableEq, Repr

structure Program where
  inputType : RowType
  entries : List Expr
  columns : List Column
  condition : Option Nat
  /-- Derived from the columns and the types of their entries. -/
  outputType : RowType
  deriving DecidableEq

/-- Whether `e` may be the entry at a position: operands are references to earlier entries. -/
def Expr.checkEntry (position : Nat) (e : Expr) : Except ProgramError Unit :=
  match e with
  | .temp i => .error (.invalid (.bareTemp position i))
  | .input _ | .literal _ => .ok ()
  | .binary .. | .unary .. =>
    if e.children.any (·.temp?.isNone) then .error (.invalid (.nestedOperand position e))
    else match e.temps.find? (position ≤ ·) with
      | some i => .error (.invalid (.laterTemp position i))
      | none => .ok ()

namespace Program

/-- Types entries in order, each over the types `known` of those before it. -/
def entryTypesFrom (rt : RowType) (known : List ScalarType) :
    List Expr → Except ProgramError (List ScalarType)
  | [] => .ok known
  | e :: es => do
    e.checkEntry known.length
    let t ← e.type rt known
    entryTypesFrom rt (known ++ [t]) es

/-- The types of the entries of a program. -/
def entryTypes (rt : RowType) (entries : List Expr) : Except ProgramError (List ScalarType) :=
  entryTypesFrom rt [] entries

/-- The field that a column makes of the typed entries. -/
def columnField (types : List ScalarType) (c : Column) : Except ProgramError Field :=
  match types[c.entry]? with
  | some t => .ok ⟨c.name, t⟩
  | none => .error (.invalid (.missingColumn c.name c.entry))

/-- Whether the condition is an entry of a type that conditions have. -/
def checkCondition (types : List ScalarType) : Option Nat → Except ProgramError Unit
  | none => .ok ()
  | some i =>
    match types[i]? with
    | some t => if t.isCondition then .ok () else .error (.invalid (.conditionType t))
    | none => .error (.invalid (.missingCondition i))

/-- The program of these parts, if its entries, columns and condition are in order. -/
def check (inputType : RowType) (entries : List Expr) (columns : List Column)
    (condition : Option Nat) : Except ProgramError Program := do
  let types ← entryTypes inputType entries
  let outputType ← columns.mapM (columnField types)
  checkCondition types condition
  return { inputType, entries, columns, condition, outputType }

/-- The program of these parts with the columns in two lists, which have to be of one length. -/
def checkLists (inputType : RowType) (entries : List Expr) (projects : List Nat)
    (names : List String) (condition : Option Nat) : Except ProgramError Program := do
  discard (entryTypes inputType entries)
  if projects.length ≠ names.length then
    throw (.invalid (.columnCount projects.length names.length))
  else
    check inputType entries (List.zipWith Column.mk projects names) condition

/-- Whether the columns are exactly the input fields in order, names apart. -/
def keepsFields (p : Program) : Bool :=
  p.columns.length = p.inputType.length &&
    p.columns.zipIdx.all fun (c, i) => p.entries[c.entry]? = some (.input i)

/-- Whether the program puts out every row as it is. -/
def isTrivial (p : Program) : Bool := p.condition.isNone && p.keepsFields

/-- The entry `i` with all references replaced by what they refer to, at most `depth` references
deep. -/
def expandWithin (entries : List Expr) : (depth : Nat) → Nat → Except ProgramError Expr
  | 0, i => .error (.invalid (.missingEntry i))
  | depth + 1, i =>
    match entries[i]? with
    | none => .error (.invalid (.missingEntry i))
    | some e => e.substM (fun i => .ok (.input i)) (expandWithin entries depth)

/-- The entry `i` as one expression over the input fields. References go to earlier entries, so no
chain of them is longer than the program. -/
def expand (p : Program) (i : Nat) : Except ProgramError Expr :=
  expandWithin p.entries p.entries.length i

/-- The condition as one expression over the input fields. -/
def expandedCondition (p : Program) : Except ProgramError (Option Expr) := p.condition.mapM p.expand

/-- The columns as expressions over the input fields. -/
def expandedColumns (p : Program) : Except ProgramError (List (Expr × String)) :=
  p.columns.mapM fun c => return (← p.expand c.entry, c.name)

/-- Entries, columns and condition on one line. -/
def text (p : Program) : String :=
  let entries := p.entries.zipIdx.map fun (e, i) => s!"expr#{i}=[{e.text}]"
  let columns := p.columns.map fun c => s!"{c.name}=[$t{c.entry}]"
  let condition := p.condition.toList.map fun i => s!"$condition=[$t{i}]"
  ", ".intercalate (entries ++ columns ++ condition)

/-- Equality of programs whose literals are `Value.alike`. -/
def alike (p q : Program) : Bool :=
  p.inputType = q.inputType
    && p.entries.length = q.entries.length && (p.entries.zip q.entries).all (fun (a, b) => a.alike b)
    && p.columns = q.columns && p.condition = q.condition && p.outputType = q.outputType

end Program
end RelPlan
