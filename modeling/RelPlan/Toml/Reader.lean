import RelPlan.Toml.Scalar

/-! # Reading TOML

`Toml.read?` reads a document line by line into its root table. The functions that call each other
are bounded by the length of the text, which they never exhaust; values nest at most `maxDepth`
levels. -/

namespace RelPlan
namespace Toml

/-- Takes a comment up to the line end, if one starts here. -/
def skipComment (cs : List Char) : Option (List Char) :=
  match cs with
  | '#' :: cs =>
    let text := cs.takeWhile fun c => !isControl c
    let rest := cs.drop text.length
    if rest.isEmpty ∨ (newline? rest).isSome then some rest else none
  | cs => some cs

/-- Takes blanks, line ends and comments. -/
def skipSpace : (fuel : Nat) → List Char → Option (List Char)
  | 0, cs => some cs
  | fuel + 1, cs => do
    let cs ← skipComment (skipBlanks cs)
    match newline? cs with
    | some cs => skipSpace fuel cs
    | none => return cs

mutual

/-- Takes a value that lies at most so deep. -/
def scanValue : (fuel depth : Nat) → List Char → Option (Toml × List Char)
  | 0, _, _ => none
  | fuel + 1, depth, cs =>
    match cs with
    | '"' :: '"' :: '"' :: cs => (scanTextBlock '"' cs).map fun (s, cs) => (.string s, cs)
    | '\x27' :: '\x27' :: '\x27' :: cs => (scanTextBlock '\x27' cs).map fun (s, cs) => (.string s, cs)
    | '"' :: _ | '\x27' :: _ => (scanString cs).map fun (s, cs) => (.string s, cs)
    | '[' :: cs =>
      if depth = 0 then none
      else (scanItems fuel (depth - 1) cs).map fun (items, cs) => (.array items, cs)
    | '\x7b' :: cs =>
      if depth = 0 then none
      else (scanInline fuel (depth - 1) [] cs).map fun (ms, cs) => (.table .closed ms, cs)
    | cs =>
      let (token, cs) := scanToken cs
      (scalar? token).map (·, cs)
termination_by structural fuel => fuel

/-- Takes the items of an array up to its closing bracket. -/
def scanItems : (fuel depth : Nat) → List Char → Option (List Toml × List Char)
  | 0, _, _ => none
  | fuel + 1, depth, cs => do
    match ← skipSpace cs.length cs with
    | ']' :: cs => return ([], cs)
    | cs =>
      let (item, cs) ← scanValue fuel depth cs
      match ← skipSpace cs.length cs with
      | ',' :: cs => (scanItems fuel depth cs).map fun (items, cs) => (item :: items, cs)
      | ']' :: cs => return ([item], cs)
      | _ => none

/-- Takes the members of a table written as a value up to its closing brace. -/
def scanInline : (fuel depth : Nat) → Members → List Char → Option (Members × List Char)
  | 0, _, _, _ => none
  | fuel + 1, depth, ms, cs => do
    match ← skipSpace cs.length cs with
    | '\x7d' :: cs => return (ms, cs)
    | cs =>
      let (names, cs) ← scanKey maxDepth cs
      match ← skipSpace cs.length cs with
      | '=' :: cs =>
        let (v, cs) ← scanValue fuel depth (← skipSpace cs.length cs)
        let ms ← assign v names ms
        match ← skipSpace cs.length cs with
        | ',' :: cs => scanInline fuel depth ms cs
        | '\x7d' :: cs => return (ms, cs)
        | _ => none
      | _ => none

end

/-- Takes the end of a line, which may hold a comment. -/
def endLine (cs : List Char) : Option (List Char) := do
  match ← skipComment (skipBlanks cs) with
  | [] => return []
  | cs => newline? cs

/-- Reads lines into the root table; `path` names the table whose header came last. -/
def readLines (path : List String) (root : Members) : (fuel : Nat) → List Char → Option Members
  | 0, _ => none
  | fuel + 1, cs => do
    match ← skipSpace cs.length cs with
    | [] => return root
    | '[' :: '[' :: cs =>
      match ← scanKey maxDepth cs with
      | (path, ']' :: ']' :: cs) => readLines path (← openElement path root) fuel (← endLine cs)
      | _ => none
    | '[' :: cs =>
      match ← scanKey maxDepth cs with
      | (path, ']' :: cs) => readLines path (← openTable path root) fuel (← endLine cs)
      | _ => none
    | cs =>
      match ← scanKey maxDepth cs with
      | (names, '=' :: cs) =>
        let (v, cs) ← scanValue (2 * cs.length + 2) maxDepth (skipBlanks cs)
        readLines path (← within (assign v names) path root) fuel (← endLine cs)
      | _ => none

/-- The root table of a document; a byte order mark in front is passed over. -/
def read? (text : String) : Option Members :=
  let cs := match text.toList with
    | '\ufeff' :: cs => cs
    | cs => cs
  readLines [] [] (cs.length + 1) cs

end Toml
end RelPlan
