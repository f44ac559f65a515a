import RelPlan.Json.Basic

/-! # Writing JSON

The layout puts every item and every member on a line of its own, indented by two blanks for each
level, and keeps empty arrays and objects together. -/

namespace RelPlan
namespace Json

/-- A lower-case hexadecimal digit. -/
def hexDigit (n : Nat) : Char := (Nat.toDigits 16 n).headD '0'

/-- A character inside a string: quotes, backslashes and control characters are escaped. -/
def escape (c : Char) : List Char :=
  match c with
  | '"' => ['\\', '"']
  | '\\' => ['\\', '\\']
  | '\x08' => ['\\', 'b']
  | '\x0c' => ['\\', 'f']
  | '\n' => ['\\', 'n']
  | '\r' => ['\\', 'r']
  | '\t' => ['\\', 't']
  | c => if c < ' ' then ['\\', 'u', '0', '0', hexDigit (c.toNat / 16), hexDigit (c.toNat % 16)]
    else [c]

/-- A string between quotes. -/
def quoted (s : String) : List Char := '"' :: s.toList.flatMap escape ++ ['"']

/-- The start of a line at a level. -/
def newline (level : Nat) : List Char := '\n' :: List.replicate (2 * level) ' '

mutual

/-- The characters of a value that stands at a level. -/
def chars (level : Nat) : Json → List Char
  | null => ['n', 'u', 'l', 'l']
  | bool true => ['t', 'r', 'u', 'e']
  | bool false => ['f', 'a', 'l', 's', 'e']
  | number n => n.chars true
  | string s => quoted (s.getD "")
  | array [] => ['[', ']']
  | array (item :: items) =>
    '[' :: newline (level + 1) ++ item.chars (level + 1) ++ itemChars (level + 1) items
      ++ newline level ++ [']']
  | object [] => ['\x7b', '\x7d']
  | object ((name, value) :: members) =>
    '\x7b' :: newline (level + 1) ++ quoted (name.getD "") ++ [':', ' '] ++ value.chars (level + 1)
      ++ memberChars (level + 1) members ++ newline level ++ ['\x7d']

/-- The characters of the items after the first. -/
def itemChars (level : Nat) : List Json → List Char
  | [] => []
  | item :: items => ',' :: newline level ++ item.chars level ++ itemChars level items

/-- The characters of the members after the first. -/
def memberChars (level : Nat) : List (Option String × Json) → List Char
  | [] => []
  | (name, value) :: members =>
    ',' :: newline level ++ quoted (name.getD "") ++ [':', ' '] ++ value.chars level
      ++ memberChars level members

end

/-- The text of a value on lines of its own. -/
def pretty (j : Json) : String := .ofList (j.chars 0)

end Json
end RelPlan
