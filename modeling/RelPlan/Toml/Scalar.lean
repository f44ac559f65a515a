import RelPlan.Number.Numeral
import RelPlan.Toml.Basic

/-! # TOML keys, strings and scalars

The functions take characters from the head of a list and return what is left. -/

namespace RelPlan
namespace Toml

/-- Control characters stand in no text as they are, the tab apart. -/
def isControl (c : Char) : Bool := (c < ' ' && c ≠ '\t') || c = '\x7f'

def isBlank (c : Char) : Bool := c = ' ' || c = '\t'

def skipBlanks (cs : List Char) : List Char := cs.dropWhile isBlank

/-- Takes a line end. -/
def newline? : List Char → Option (List Char)
  | '\n' :: cs => some cs
  | '\r' :: '\n' :: cs => some cs
  | _ => none

/-! ## Digits -/

/-- The value of a digit in a base up to 16. -/
def digit? (base : Nat) (c : Char) : Option Nat :=
  let n :=
    if c.isDigit then c.toNat - '0'.toNat
    else if 'a' ≤ c ∧ c ≤ 'f' then c.toNat - 'a'.toNat + 10
    else if 'A' ≤ c ∧ c ≤ 'F' then c.toNat - 'A'.toNat + 10
    else base
  if n < base then some n else none

/-- The value of a row of digits. -/
def digits? (base : Nat) (cs : List Char) : Option Nat :=
  cs.foldlM (fun n c => (digit? base c).map (base * n + ·)) 0

/-- Drops the underscores between digits; there is at least one digit, and each underscore stands
between two. -/
def ungroup (base : Nat) : List Char → Option (List Char)
  | [] => none
  | [c] => (digit? base c).map fun _ => [c]
  | c :: '_' :: cs => do
    discard (digit? base c)
    return c :: (← ungroup base cs)
  | c :: cs => do
    discard (digit? base c)
    return c :: (← ungroup base cs)

/-- The value of grouped digits. -/
def grouped? (base : Nat) (cs : List Char) : Option Nat := do digits? base (← ungroup base cs)

/-- The digits of a grouped decimal without a needless zero in front. -/
def decimalDigits? (cs : List Char) : Option (List Char) :=
  if cs.head? = some '0' ∧ 1 < cs.length then none else ungroup 10 cs

/-- The value of a grouped decimal without a needless zero in front. -/
def decimal? (cs : List Char) : Option Nat := do digits? 10 (← decimalDigits? cs)

/-! ## Strings -/

/-- The character with the given number, if there is one. -/
def charOf? (n : Nat) : Option Char := if n.isValidChar then some (.ofNat n) else none

/-- Takes the rest of an escape after its backslash. -/
def scanEscape : List Char → Option (Char × List Char)
  | 'b' :: cs => some ('\x08', cs)
  | 't' :: cs => some ('\t', cs)
  | 'n' :: cs => some ('\n', cs)
  | 'f' :: cs => some ('\x0c', cs)
  | 'r' :: cs => some ('\r', cs)
  | 'e' :: cs => some ('\x1b', cs)
  | '"' :: cs => some ('"', cs)
  | '\\' :: cs => some ('\\', cs)
  | 'x' :: cs => hex 2 cs
  | 'u' :: cs => hex 4 cs
  | 'U' :: cs => hex 8 cs
  | _ => none
where
  /-- Takes so many hexadecimal digits that number a character. -/
  hex (count : Nat) (cs : List Char) : Option (Char × List Char) := do
    if cs.length < count then none
    else
      let c ← charOf? (← digits? 16 (cs.take count))
      return (c, cs.drop count)

/-- Takes the rest of a string in double quotes after the opening one. -/
def scanBasic : (fuel : Nat) → List Char → Option (List Char × List Char)
  | 0, _ | _, [] => none
  | _, '"' :: cs => some ([], cs)
  | fuel + 1, '\\' :: cs => do
    let (c, cs) ← scanEscape cs
    let (s, cs) ← scanBasic fuel cs
    return (c :: s, cs)
  | fuel + 1, c :: cs =>
    if isControl c then none
    else do
      let (s, cs) ← scanBasic fuel cs
      return (c :: s, cs)

/-- Takes the rest of a string in single quotes after the opening one. -/
def scanLiteral : List Char → Option (List Char × List Char)
  | [] => none
  | '\x27' :: cs => some ([], cs)
  | c :: cs =>
    if isControl c then none
    else do
      let (s, cs) ← scanLiteral cs
      return (c :: s, cs)

/-- Takes the quotes at the end of a string of several lines, of which up to two belong to it. -/
def scanClosing (quote : Char) (cs : List Char) : Option (List Char × List Char) :=
  let run := cs.takeWhile (· = quote)
  if run.length < 3 ∨ 5 < run.length then none else some (run.drop 3, cs.drop run.length)

/-- Drops blanks and line ends after a backslash at the end of a line. -/
def skipFolded : List Char → List Char
  | ' ' :: cs | '\t' :: cs | '\n' :: cs | '\r' :: '\n' :: cs => skipFolded cs
  | cs => cs

/-- Takes the rest of a string of several lines in double or single quotes after the opening ones.
Escapes have a meaning only between double quotes; line ends are kept as they are. -/
def scanLines (quote : Char) : (fuel : Nat) → List Char → Option (List Char × List Char)
  | 0, _ | _, [] => none
  | fuel + 1, c :: cs =>
    if c = quote ∧ [quote, quote].isPrefixOf cs then scanClosing quote (c :: cs)
    else if c = '\\' ∧ quote = '"' then
      if (newline? (skipBlanks cs)).isSome then scanLines quote fuel (skipFolded cs)
      else do
        let (c, cs) ← scanEscape cs
        let (s, cs) ← scanLines quote fuel cs
        return (c :: s, cs)
    else
      match newline? (c :: cs) with
      | some rest => do
        let (s, rest') ← scanLines quote fuel rest
        return ((c :: cs).take ((c :: cs).length - rest.length) ++ s, rest')
      | none =>
        if isControl c then none
        else do
          let (s, cs) ← scanLines quote fuel cs
          return (c :: s, cs)

/-- Takes a string of one line. -/
def scanString : List Char → Option (String × List Char)
  | '"' :: cs => (scanBasic cs.length.succ cs).map fun (s, cs) => (.ofList s, cs)
  | '\x27' :: cs => (scanLiteral cs).map fun (s, cs) => (.ofList s, cs)
  | _ => none

/-- Takes the rest of a string of several lines, without a line end right after its opening. -/
def scanTextBlock (quote : Char) (cs : List Char) : Option (String × List Char) :=
  let cs := (newline? cs).getD cs
  (scanLines quote cs.length.succ cs).map fun (s, cs) => (.ofList s, cs)

/-! ## Keys -/

def isBare (c : Char) : Bool := c.isAlphanum || c = '_' || c = '-'

/-- Takes one part of a key. -/
def scanKeyPart (cs : List Char) : Option (String × List Char) :=
  match cs.takeWhile isBare with
  | [] => scanString cs
  | name => some (.ofList name, cs.dropWhile isBare)

/-- Takes a key of at most so many parts, which are separated by points. -/
def scanKey : (parts : Nat) → List Char → Option (List String × List Char)
  | 0, _ => none
  | parts + 1, cs => do
    let (name, cs) ← scanKeyPart (skipBlanks cs)
    match skipBlanks cs with
    | '.' :: cs =>
      let (names, cs) ← scanKey parts cs
      return (name :: names, cs)
    | cs => return ([name], cs)

/-! ## Numbers, dates and times -/

/-- The whole number that the characters are. -/
def integer? : List Char → Option Int
  | '0' :: 'x' :: cs => (grouped? 16 cs).map Int.ofNat
  | '0' :: 'o' :: cs => (grouped? 8 cs).map Int.ofNat
  | '0' :: 'b' :: cs => (grouped? 2 cs).map Int.ofNat
  | '-' :: cs => (decimal? cs).map fun n => -(n : Int)
  | '+' :: cs => (decimal? cs).map Int.ofNat
  | cs => (decimal? cs).map Int.ofNat

def dropSign : List Char → List Char
  | '+' :: cs | '-' :: cs => cs
  | cs => cs

/-- The exponent that the characters after its letter are. -/
def exponent? : List Char → Option Int
  | '-' :: cs => (grouped? 10 cs).map fun n => -(n : Int)
  | '+' :: cs => (grouped? 10 cs).map Int.ofNat
  | cs => (grouped? 10 cs).map Int.ofNat

def isGroupedDigit (c : Char) : Bool := c.isDigit || c = '_'

/-- The numeral that the characters are, which has a fraction, an exponent or both, but no sign. -/
def numeral? (cs : List Char) : Option Numeral := do
  let whole ← decimalDigits? (cs.takeWhile isGroupedDigit)
  match cs.dropWhile isGroupedDigit with
  | 'e' :: cs | 'E' :: cs => return ⟨false, whole, [], some (← exponent? cs)⟩
  | '.' :: cs =>
    let fraction ← ungroup 10 (cs.takeWhile isGroupedDigit)
    match cs.dropWhile isGroupedDigit with
    | [] => return ⟨false, whole, fraction, none⟩
    | 'e' :: cs | 'E' :: cs => return ⟨false, whole, fraction, some (← exponent? cs)⟩
    | _ => none
  | _ => none

/-- The float that the characters are. One that is infinite by name is not too large. -/
def float? (cs : List Char) : Option Toml :=
  match dropSign cs with
  | ['i', 'n', 'f'] | ['n', 'a', 'n'] => some (.float true)
  | cs => (numeral? cs).map fun n => .float !n.toFloat.isInf

/-- The days of a month. -/
def daysOf (year month : Nat) : Nat :=
  if month = 2 then if year % 4 = 0 ∧ (year % 100 ≠ 0 ∨ year % 400 = 0) then 29 else 28
  else if month ∈ [4, 6, 9, 11] then 30 else 31

/-- Whether the characters are a date. -/
def isDate : List Char → Bool
  | [y1, y2, y3, y4, '-', m1, m2, '-', d1, d2] =>
    match digits? 10 [y1, y2, y3, y4], digits? 10 [m1, m2], digits? 10 [d1, d2] with
    | some year, some month, some day =>
      1 ≤ month && month ≤ 12 && 1 ≤ day && day ≤ daysOf year month
    | _, _, _ => false
  | _ => false

/-- Whether two digits are a number below a bound. -/
def isBelow (bound : Nat) (a b : Char) : Bool :=
  match digits? 10 [a, b] with
  | some n => n < bound
  | none => false

/-- Whether the characters are seconds, or nothing. -/
def isSeconds : List Char → Bool
  | [] => true
  | [':', a, b] => isBelow 61 a b
  | ':' :: a :: b :: '.' :: fraction =>
    isBelow 61 a b && !fraction.isEmpty && fraction.all Char.isDigit
  | _ => false

/-- Whether the characters are a time of day. -/
def isTime : List Char → Bool
  | h1 :: h2 :: ':' :: m1 :: m2 :: cs => isBelow 24 h1 h2 && isBelow 60 m1 m2 && isSeconds cs
  | _ => false

/-- Whether the characters are a time zone, or nothing. -/
def isZone : List Char → Bool
  | [] | ['Z'] | ['z'] => true
  | [sign, h1, h2, ':', m1, m2] =>
    (sign = '+' || sign = '-') && isBelow 24 h1 h2 && isBelow 60 m1 m2
  | _ => false

/-- Whether the characters are a date, a time or both. -/
def isDatetime (cs : List Char) : Bool :=
  isDate cs || isTime cs ||
    (isDate (cs.take 10) &&
      match cs.drop 10 with
      | c :: cs =>
        let isClock (c : Char) := c.isDigit || c = ':' || c = '.'
        (c = 'T' || c = 't' || c = ' ') && isTime (cs.takeWhile isClock)
          && isZone (cs.dropWhile isClock)
      | [] => false)

def isScalarChar (c : Char) : Bool := c.isAlphanum || c ∈ ['_', '+', '-', '.', ':']

/-- Takes the characters of a scalar; a blank can separate the time from the date. -/
def scanToken (cs : List Char) : List Char × List Char :=
  let token := cs.takeWhile isScalarChar
  match isDate token, cs.dropWhile isScalarChar with
  | true, ' ' :: c :: cs =>
    if c.isDigit then
      (token ++ ' ' :: c :: cs.takeWhile isScalarChar, cs.dropWhile isScalarChar)
    else (token, ' ' :: c :: cs)
  | _, rest => (token, rest)

/-- The value of a scalar that is no string. -/
def scalar? (token : List Char) : Option Toml :=
  if token = ['t', 'r', 'u', 'e'] then some (.boolean true)
  else if token = ['f', 'a', 'l', 's', 'e'] then some (.boolean false)
  else match integer? token with
    | some i => some (.integer i)
    | none => float? token <|> if isDatetime token then some .datetime else none

end Toml
end RelPlan
