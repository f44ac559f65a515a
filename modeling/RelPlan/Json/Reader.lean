import RelPlan.Json.Basic

/-! # Reading JSON

`Json.read?` accepts one value with blanks around it. All functions here take characters from the
head of a list and return what is left; those that call each other are bounded by the length of the
text, which they never exhaust. -/

namespace RelPlan
namespace Json

def isBlank (c : Char) : Bool := c = ' ' || c = '\n' || c = '\t' || c = '\r'

def skipBlanks (cs : List Char) : List Char := cs.dropWhile isBlank

/-- The value of a hexadecimal digit. -/
def hexDigit? (c : Char) : Option Nat :=
  if c.isDigit then some (c.toNat - '0'.toNat)
  else if 'a' ≤ c ∧ c ≤ 'f' then some (c.toNat - 'a'.toNat + 10)
  else if 'A' ≤ c ∧ c ≤ 'F' then some (c.toNat - 'A'.toNat + 10)
  else none

/-- The value of a row of hexadecimal digits. -/
def hexValue? (cs : List Char) : Option Nat :=
  cs.foldlM (fun n c => (hexDigit? c).map (16 * n + ·)) 0

/-- The character that a letter after a backslash stands for. -/
def escaped? : Char → Option Char
  | '"' => some '"'
  | '\\' => some '\\'
  | '/' => some '/'
  | 'b' => some '\x08'
  | 'f' => some '\x0c'
  | 'n' => some '\n'
  | 'r' => some '\r'
  | 't' => some '\t'
  | _ => none

/-- A piece of a string: a character, or a 16-bit unit given by its number. -/
inductive Piece where
  | char (c : Char)
  | unit (n : Nat)
  deriving DecidableEq, Repr

def isHighSurrogate (n : Nat) : Bool := 0xD800 ≤ n && n < 0xDC00

def isLowSurrogate (n : Nat) : Bool := 0xDC00 ≤ n && n < 0xE000

/-- The characters of a string; a high unit and the low one after it are one character. -/
def joinPieces : List Piece → Option (List Char)
  | [] => some []
  | .char c :: ps => (joinPieces ps).map (c :: ·)
  | .unit high :: .unit low :: ps =>
    if isHighSurrogate high then
      if isLowSurrogate low then
        (joinPieces ps).map (Char.ofNat (0x10000 + (high - 0xD800) * 0x400 + (low - 0xDC00)) :: ·)
      else none
    else if isLowSurrogate high then none
    else (joinPieces (.unit low :: ps)).map (Char.ofNat high :: ·)
  | .unit n :: ps =>
    if isHighSurrogate n || isLowSurrogate n then none
    else (joinPieces ps).map (Char.ofNat n :: ·)

/-- Takes the rest of a string after its opening quote. -/
def scanPieces : List Char → Option (List Piece × List Char)
  | [] => none
  | '"' :: cs => some ([], cs)
  | '\\' :: 'u' :: a :: b :: c :: d :: cs => do
    let n ← hexValue? [a, b, c, d]
    let (ps, cs) ← scanPieces cs
    return (.unit n :: ps, cs)
  | '\\' :: c :: cs => do
    let c ← escaped? c
    let (ps, cs) ← scanPieces cs
    return (.char c :: ps, cs)
  | c :: cs =>
    if c < ' ' then none
    else do
      let (ps, cs) ← scanPieces cs
      return (.char c :: ps, cs)

/-- Takes the rest of a string after its opening quote, joined. -/
def scanString (cs : List Char) : Option (Option String × List Char) :=
  (scanPieces cs).map fun (ps, cs) => ((joinPieces ps).map String.ofList, cs)

/-- Takes a number; digits before the point do not start with a needless zero. -/
def scanNumber (cs : List Char) : Option (Numeral × List Char) :=
  match Numeral.scan cs with
  | some (n, cs) => if n.whole.head? = some '0' ∧ 1 < n.whole.length then none else some (n, cs)
  | none => none

/-- Takes a member name with the colon after it. -/
def scanName (cs : List Char) : Option (Option String × List Char) := do
  match skipBlanks cs with
  | '"' :: cs =>
    let (name, cs) ← scanString cs
    match skipBlanks cs with
    | ':' :: cs => return (name, cs)
    | _ => none
  | _ => none

mutual

/-- Takes a value. -/
def scanValue : (fuel : Nat) → List Char → Option (Json × List Char)
  | 0, _ => none
  | fuel + 1, cs =>
    match skipBlanks cs with
    | 'n' :: 'u' :: 'l' :: 'l' :: cs => some (.null, cs)
    | 't' :: 'r' :: 'u' :: 'e' :: cs => some (.bool true, cs)
    | 'f' :: 'a' :: 'l' :: 's' :: 'e' :: cs => some (.bool false, cs)
    | '"' :: cs => (scanString cs).map fun (s, cs) => (.string s, cs)
    | '[' :: cs =>
      match skipBlanks cs with
      | ']' :: cs => some (.array [], cs)
      | cs => (scanItems fuel cs).map fun (items, cs) => (.array items, cs)
    | '\x7b' :: cs =>
      match skipBlanks cs with
      | '\x7d' :: cs => some (.object [], cs)
      | cs => (scanMembers fuel cs).map fun (members, cs) => (.object members, cs)
    | cs => (scanNumber cs).map fun (n, cs) => (.number n, cs)

/-- Takes the items of an array up to its closing bracket. -/
def scanItems : (fuel : Nat) → List Char → Option (List Json × List Char)
  | 0, _ => none
  | fuel + 1, cs => do
    let (item, cs) ← scanValue fuel cs
    match skipBlanks cs with
    | ',' :: cs => (scanItems fuel cs).map fun (items, cs) => (item :: items, cs)
    | ']' :: cs => return ([item], cs)
    | _ => none

/-- Takes the members of an object up to its closing brace. -/
def scanMembers : (fuel : Nat) → List Char → Option (List (Option String × Json) × List Char)
  | 0, _ => none
  | fuel + 1, cs => do
    let (name, cs) ← scanName cs
    let (value, cs) ← scanValue fuel cs
    match skipBlanks cs with
    | ',' :: cs => (scanMembers fuel cs).map fun (members, cs) => ((name, value) :: members, cs)
    | '\x7d' :: cs => return ([(name, value)], cs)
    | _ => none

end

/-- The value that a text holds. -/
def read? (text : String) : Option Json :=
  let cs := text.toList
  match scanValue (2 * cs.length + 2) cs with
  | some (j, rest) => if skipBlanks rest = [] then some j else none
  | none => none

end Json
end RelPlan
