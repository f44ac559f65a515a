/-! # TOML documents

A document is a tree of tables. While it is read, each table remembers how it came to be, because
that decides what may still be added to it: a table opened by a header is finished by hand below
that header only, one made by dotted keys may get more dotted keys, one that is merely on the way to
a header may still be opened itself, and a table written as a value is closed. -/

namespace RelPlan

/-- How a table of a document came to be. -/
inductive TableOrigin where
  /-- on the way to another table's header -/
  | implied
  | header
  | dotted
  /-- written as a value -/
  | closed
  deriving DecidableEq, Repr

inductive Toml where
  | string (s : String)
  | integer (i : Int)
  /-- The value of a float is not kept, only whether there is a float that large. -/
  | float (inRange : Bool)
  | boolean (b : Bool)
  /-- The value of a date or time is not kept. -/
  | datetime
  | array (items : List Toml)
  | table (origin : TableOrigin) (members : List (String × Toml))
  /-- The tables under headers in double brackets. -/
  | tables (elements : List (List (String × Toml)))

namespace Toml

abbrev Members := List (String × Toml)

/-- How many arrays and tables written as values may lie inside each other, and how many parts a key
may have. -/
def maxDepth : Nat := 80

/-! ## Numbers in range -/

mutual

/-- Whether the numbers in a value are in range: integers that have 128 bits, with a sign or
without, and floats that are not too large. -/
def inRange : Toml → Bool
  | integer i => -2 ^ 127 ≤ i && i < 2 ^ 128
  | float inRange => inRange
  | array items => itemsInRange items
  | table _ ms => membersInRange ms
  | tables elements => elementsInRange elements
  | string _ | boolean _ | datetime => true

def itemsInRange : List Toml → Bool
  | [] => true
  | t :: ts => inRange t && itemsInRange ts

def membersInRange : List (String × Toml) → Bool
  | [] => true
  | (_, t) :: ms => inRange t && membersInRange ms

def elementsInRange : List (List (String × Toml)) → Bool
  | [] => true
  | ms :: elements => membersInRange ms && elementsInRange elements

end

/-! ## Members -/

/-- The member of that name. -/
def find? (ms : Members) (name : String) : Option Toml := ms.lookup name

/-- Changes the member of a name or appends one. -/
def update (name : String) (f : Option Toml → Option Toml) : Members → Option Members
  | [] => (f none).map fun t => [(name, t)]
  | (other, t) :: ms =>
    if other = name then (f (some t)).map fun t => (other, t) :: ms
    else (update name f ms).map ((other, t) :: ·)

/-- Adds a value under a dotted key. The tables on the way are those that dotted keys or longer
headers have made. -/
def assign (v : Toml) : List String → Members → Option Members
  | [], _ => none
  | [name], ms => update name (fun t => if t.isSome then none else some v) ms
  | name :: names, ms => update name (fun
      | none => (assign v names []).map (table .dotted)
      | some (table origin inner) =>
        if origin = .dotted ∨ origin = .implied then (assign v names inner).map (table origin)
        else none
      | some _ => none) ms

/-- Changes the table that a header names; of tables in double brackets, the last one. Tables that
are missing on the way are implied. -/
def within (f : Members → Option Members) : List String → Members → Option Members
  | [], ms => f ms
  | name :: names, ms => update name (fun
      | none => (within f names []).map (table .implied)
      | some (table origin inner) =>
        if origin = .closed then none else (within f names inner).map (table origin)
      | some (tables elements) =>
        match elements.getLast? with
        | some last => (within f names last).map fun last => tables (elements.dropLast ++ [last])
        | none => none
      | some _ => none) ms

/-- Opens the table of a header in single brackets. -/
def openTable (path : List String) (ms : Members) : Option Members :=
  match path.getLast? with
  | none => none
  | some name => within (update name fun
      | none => some (table .header [])
      | some (table .implied inner) => some (table .header inner)
      | some _ => none) path.dropLast ms

/-- Opens one more table of a header in double brackets. -/
def openElement (path : List String) (ms : Members) : Option Members :=
  match path.getLast? with
  | none => none
  | some name => within (update name fun
      | none => some (tables [[]])
      | some (tables elements) => some (tables (elements ++ [[]]))
      | some _ => none) path.dropLast ms

end Toml
end RelPlan
