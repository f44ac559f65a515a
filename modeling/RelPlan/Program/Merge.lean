import RelPlan.Program.Builder

/-! # Normal forms and composition

`Program.normalize` drops the entries that no column and no condition needs and unites equal ones.
`Program.merge` makes one program of two that run one after the other. Its condition guards the
upper condition by `IS TRUE` of the lower one, so that the upper one is looked at on exactly those
rows that the lower program would have let through. -/

namespace RelPlan
namespace Program

/-- Where the entries of a program have gone in another one; those left behind have no place. -/
abbrev Placement := List (Option Nat)

/-- The place of an entry. -/
def Placement.find (places : Placement) (i : Nat) : Except ProgramError Nat :=
  match places[i]? with
  | some (some j) => .ok j
  | _ => .error (.invalid (.unreachableEntry i))

/-- The entry with its references moved to their places. -/
def Placement.move (places : Placement) (e : Expr) : Except ProgramError Expr :=
  e.substM (fun i => .ok (.input i)) fun i => return .temp (← places.find i)

/-- Moves columns to the places of their entries. -/
def Placement.moveColumns (places : Placement) (columns : List Column) :
    Except ProgramError (List Column) :=
  columns.mapM fun c => return { c with entry := ← places.find c.entry }

/-- The entries that are needed by the given ones. References go to earlier entries, so one sweep
from the last entry to the first meets every entry after those that need it. -/
def needed (entries : List Expr) (roots : List Nat) : List Nat :=
  entries.zipIdx.foldr (fun (e, i) need => if i ∈ need then e.temps ++ need else need) roots

/-- Registers the needed ones of the entries that follow `places`, in order. -/
def keepFrom (need : List Nat) (b : Builder) (places : Placement) :
    List Expr → Except ProgramError (Builder × Placement)
  | [] => .ok (b, places)
  | e :: es =>
    if places.length ∈ need then do
      let (i, b) := b.register (← places.move e)
      keepFrom need b (places ++ [some i]) es
    else keepFrom need b (places ++ [none]) es

/-- The program without unneeded and repeated entries, the others in their order. -/
def normalize (p : Program) : Except ProgramError Program := do
  let roots := p.columns.map Column.entry ++ p.condition.toList
  let (b, places) ← keepFrom (needed p.entries roots) { inputType := p.inputType } [] p.entries
  let columns ← places.moveColumns p.columns
  let condition ← p.condition.mapM places.find
  Builder.program { b with columns, condition }

/-- Copies entries into a builder; `column i` is the place that stands for the input field `i`, if
there is one. -/
def copyFrom (column : Nat → Option Nat) (b : Builder) (places : Placement) :
    List Expr → Except ProgramError (Builder × Placement)
  | [] => .ok (b, places)
  | e :: es => do
    match e.input?.bind column with
    | some i => copyFrom column b (places ++ [some i]) es
    | none =>
      let (i, b) := b.register (← places.move e)
      copyFrom column b (places ++ [some i]) es

/-- The condition of `lower` and then `upper`, both of which are entries of the builder. -/
def guarded (b : Builder) : Option Nat → Option Nat → Option Nat × Builder
  | some lower, some upper =>
    if lower = upper then (some lower, b)
    else
      let (guard, b) := b.register (.unary .isTrue (.temp lower))
      let (both, b) := b.register (.binary (.temp guard) .and (.temp upper))
      (some both, b)
  | some lower, none => (some lower, b)
  | none, upper => (upper, b)

/-- The program that gives what `upper` gives on the output of `lower`. -/
def merge (upper lower : Program) : Except ProgramError Program := do
  if upper.inputType.sameShape lower.outputType then
    let (b, lowerPlaces) ← copyFrom (fun _ => none) { inputType := lower.inputType } [] lower.entries
    let fields ← lowerPlaces.moveColumns lower.columns
    let (b, upperPlaces) ← copyFrom (fun i => fields[i]?.map Column.entry) b [] upper.entries
    let lowerCondition ← lower.condition.mapM lowerPlaces.find
    let upperCondition ← upper.condition.mapM upperPlaces.find
    let (condition, b) := guarded b lowerCondition upperCondition
    let columns ← upperPlaces.moveColumns upper.columns
    (← Builder.program { b with columns, condition }).normalize
  else
    throw (.invalid (.unfitting upper.inputType lower.outputType))

end Program
end RelPlan
