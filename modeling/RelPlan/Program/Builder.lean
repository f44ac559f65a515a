import RelPlan.Program.Basic

/-! # Building programs

A `Builder` grows the entries of a program. Expressions of any nesting are flattened into entries,
and an entry whose text is there already is used again. Nothing is checked before
`Builder.program`, except that a condition has to be one when it is added. -/

namespace RelPlan

/-- The positions of entries by their texts. -/
abbrev Digests := List (String × Nat)

/-- Enters a position under a text that has none. -/
def Digests.enter (ds : Digests) (text : String) (i : Nat) : Digests :=
  match ds.lookup text with
  | some _ => ds
  | none => (text, i) :: ds

/-- Each text with the position of the first entry that has it. -/
def Digests.of (entries : List Expr) : Digests :=
  entries.zipIdx.foldl (fun ds (e, i) => ds.enter e.text i) []

structure Builder where
  inputType : RowType
  entries : List Expr := []
  columns : List Column := []
  condition : Option Nat := none
  digests : Digests := []
  deriving DecidableEq

namespace Builder

/-- A builder that starts from the parts of a program. -/
def ofProgram (p : Program) : Builder where
  inputType := p.inputType
  entries := p.entries
  columns := p.columns
  condition := p.condition
  digests := .of p.entries

/-- The position of an entry, which is appended unless its text is there already. -/
def register (b : Builder) (e : Expr) : Nat × Builder :=
  match b.digests.lookup e.text with
  | some i => (i, b)
  | none => (b.entries.length,
      { b with
        entries := b.entries ++ [e], digests := (e.text, b.entries.length) :: b.digests })

/-- Flattens an expression into entries and gives the position of its value. -/
def addExpr (b : Builder) : Expr → Nat × Builder
  | .temp i => (i, b)
  | .input i => b.register (.input i)
  | .literal v => b.register (.literal v)
  | .binary l op r =>
    let (l, b) := b.addExpr l
    let (r, b) := b.addExpr r
    b.register (.binary (.temp l) op (.temp r))
  | .unary op x =>
    let (x, b) := b.addExpr x
    b.register (.unary op (.temp x))

/-- Types the entries in order, whatever they are. -/
def typesFrom (rt : RowType) (known : List ScalarType) :
    List Expr → Except ProgramError (List ScalarType)
  | [] => .ok known
  | e :: es => do
    let t ← e.type rt known
    typesFrom rt (known ++ [t]) es

/-- The types of the entries so far. -/
def types (b : Builder) : Except ProgramError (List ScalarType) := typesFrom b.inputType [] b.entries

/-- The conjunction of two entries; an entry is its own conjunction with itself. -/
def conjunction (b : Builder) (first second : Nat) : Nat × Builder :=
  if first = second then (second, b)
  else b.register (.binary (.temp first) .and (.temp second))

/-- Demands a condition in addition to those demanded before. -/
def addCondition (b : Builder) (e : Expr) : Except ProgramError Builder := do
  let t ← e.type b.inputType (← b.types)
  if t.isCondition then
    let (i, b) := b.addExpr e
    let (i, b) := match b.condition with
      | some earlier => b.conjunction earlier i
      | none => (i, b)
    return { b with condition := some i }
  else
    throw (.invalid (.conditionExprType t e))

/-- Appends a column. -/
def addColumn (b : Builder) (entry : Nat) (name : String) : Builder :=
  { b with columns := b.columns ++ [⟨entry, name⟩] }

/-- Appends a column that shows an expression. -/
def addColumnExpr (b : Builder) (e : Expr) (name : String) : Builder :=
  let (i, b) := b.addExpr e
  b.addColumn i name

/-- Appends a column for each expression. -/
def addColumnExprs (b : Builder) (es : List (Expr × String)) : Builder :=
  es.foldl (fun b (e, name) => b.addColumnExpr e name) b

def clearColumns (b : Builder) : Builder := { b with columns := [] }

def clearCondition (b : Builder) : Builder := { b with condition := none }

/-- Makes the columns the input fields in order. -/
def keepFields (b : Builder) : Builder :=
  b.clearColumns.addColumnExprs (b.inputType.zipIdx.map fun (f, i) => (.input i, f.name))

/-- The name of a column that has none of its own: that of the input field it shows, or one made
from its position. -/
def columnName (b : Builder) (entry position : Nat) : String :=
  match (b.entries[entry]?.bind Expr.input?).bind (b.inputType[·]?) with
  | some f => f.name
  | none => s!"$f{position}"

/-- Makes the columns these entries, under names of their own. -/
def setColumns (b : Builder) (entries : List Nat) : Builder :=
  { b with columns := entries.zipIdx.map fun (e, i) => ⟨e, b.columnName e i⟩ }

/-- The program, if it is in order. -/
def program (b : Builder) : Except ProgramError Program :=
  Program.check b.inputType b.entries b.columns b.condition

end Builder
end RelPlan
