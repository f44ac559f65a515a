import RelPlan.Toml.Scalar

/-! # Writing TOML

A string is written in one of four styles, of which `TextStyle.of` takes the plainest that needs no
escapes: double quotes, else single quotes, else one of the two kinds of blocks. Control characters
can only be escaped. A list is written with one item a line, indented by four blanks and followed by
a comma; an empty one is kept together. -/

namespace RelPlan
namespace Toml

/-- How a string is written. -/
inductive TextStyle where
  /-- on one line between double quotes -/
  | basic
  /-- on one line between single quotes, where nothing is escaped -/
  | literal
  /-- between triple double quotes -/
  | basicBlock
  /-- between triple single quotes, where nothing is escaped -/
  | literalBlock
  deriving DecidableEq, Repr

/-- Whether a quote stands three times in a row. -/
def hasTriple (quote : Char) : List Char → Bool
  | [] => false
  | c :: cs => [quote, quote, quote].isPrefixOf (c :: cs) || hasTriple quote cs

/-- The style of a string. -/
def TextStyle.of (cs : List Char) : TextStyle :=
  if cs.any fun c => isControl c && c ≠ '\n' then if '\n' ∈ cs then basicBlock else basic
  else if '\\' ∉ cs ∧ '"' ∉ cs ∧ '\n' ∉ cs then basic
  else if '\x27' ∉ cs ∧ '\n' ∉ cs then literal
  else if '\\' ∉ cs ∧ !hasTriple '"' cs then basicBlock
  else if !hasTriple '\x27' cs then literalBlock
  else if '\n' ∈ cs then basicBlock
  else basic

/-- An upper-case hexadecimal digit. -/
def hexDigit (n : Nat) : Char := ((Nat.toDigits 16 n).headD '0').toUpper

/-- A character between double quotes: quotes, backslashes and control characters are escaped. -/
def escape (c : Char) : List Char :=
  match c with
  | '"' => ['\\', '"']
  | '\\' => ['\\', '\\']
  | '\x08' => ['\\', 'b']
  | '\t' => ['\\', 't']
  | '\n' => ['\\', 'n']
  | '\x0c' => ['\\', 'f']
  | '\r' => ['\\', 'r']
  | c =>
    if isControl c then
      ['\\', 'u', '0', '0', hexDigit (c.toNat / 16), hexDigit (c.toNat % 16)]
    else [c]

/-- The characters between triple double quotes, after so many quotes that are not escaped. Line ends
stand for themselves, and so do two quotes in a row. -/
def escapeBlock : (quotes : Nat) → List Char → List Char
  | _, [] => []
  | _, '\n' :: cs => '\n' :: escapeBlock 0 cs
  | 0, '"' :: cs => '"' :: escapeBlock 1 cs
  | 1, '"' :: cs => '"' :: escapeBlock 2 cs
  | _, c :: cs => escape c ++ escapeBlock 0 cs

/-- What follows the opening of a block: a string with line ends begins on a line of its own. -/
def blockStart (cs : List Char) : List Char := if '\n' ∈ cs then ['\n'] else []

/-- The characters of a string with its quotes. -/
def quoted (s : String) : List Char :=
  let cs := s.toList
  match TextStyle.of cs with
  | .basic => '"' :: cs.flatMap escape ++ ['"']
  | .literal => '\x27' :: cs ++ ['\x27']
  | .basicBlock => ['"', '"', '"'] ++ blockStart cs ++ escapeBlock 0 cs ++ ['"', '"', '"']
  | .literalBlock => ['\x27', '\x27', '\x27'] ++ blockStart cs ++ cs ++ ['\x27', '\x27', '\x27']

def booleanText (b : Bool) : List Char := if b then ['t', 'r', 'u', 'e'] else ['f', 'a', 'l', 's', 'e']

/-- The characters of a list of strings. -/
def strings : List String → List Char
  | [] => ['[', ']']
  | items =>
    '[' :: '\n' :: items.flatMap (fun s => [' ', ' ', ' ', ' '] ++ quoted s ++ [',', '\n']) ++ [']']

/-- The line that gives a key its value. -/
def line (name : String) (value : List Char) : List Char :=
  name.toList ++ [' ', '=', ' '] ++ value ++ ['\n']

/-- The line that opens a table. -/
def header (name : String) : List Char := '[' :: name.toList ++ [']', '\n']

end Toml
end RelPlan
