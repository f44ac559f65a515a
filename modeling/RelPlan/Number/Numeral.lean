import RelPlan.Number.Shortest

/-! # Written numbers

A `Numeral` is a decimal number as it is written: a sign, the digits before and after the point,
and a power of ten. It is the common form between a float and its text. `Numeral.ofFloat?` writes
the shortest decimal of a float in a given `FloatStyle`, `Numeral.text` spells it, `Numeral.scan`
reads the longest numeral at the head of a text, and `Numeral.toFloat` rounds to nearest. -/

namespace RelPlan

/-- A number as written; no fraction and an absent exponent are not the same as `.0` and `e0`. -/
structure Numeral where
  negative : Bool
  whole : List Char
  fraction : List Char
  exponent : Option Int
  deriving DecidableEq, Repr

/-- How floats are written. -/
structure FloatStyle where
  /-- The least position of the point before the first digit for which no exponent is written:
  `0` for `0.1`, `-3` for `0.0001`. -/
  leastPoint : Int
  /-- The greatest such position: `16` for sixteen digits before the point. -/
  greatestPoint : Int
  /-- Whether a positive exponent has a plus sign. -/
  plus : Bool
  /-- The choice between two shortest decimals that are equally near. -/
  tie : Decimal.Tie

namespace Numeral

/-- The value of a row of digits. -/
def value (digits : List Char) : Nat := Nat.ofDigitChars 10 digits 0

/-- A numeral for a whole number. -/
def ofInt (i : Int) : Numeral := ⟨i < 0, Nat.toDigits 10 i.natAbs, [], none⟩

/-- Writes `± 0.d₁d₂… · 10 ^ point` in the given style; at least one digit follows a point, and a
single digit before an exponent stands without a point. -/
def ofDigits (style : FloatStyle) (negative : Bool) (digits : List Char) (point : Int) : Numeral :=
  if style.leastPoint ≤ point ∧ point ≤ style.greatestPoint then
    if point ≤ 0 then ⟨negative, ['0'], List.replicate (-point).toNat '0' ++ digits, none⟩
    else if point < digits.length then
      ⟨negative, digits.take point.toNat, digits.drop point.toNat, none⟩
    else ⟨negative, digits ++ List.replicate (point - digits.length).toNat '0', ['0'], none⟩
  else ⟨negative, digits.take 1, digits.drop 1, some (point - 1)⟩

/-- The shortest numeral of a float, which has one if it is finite. -/
def ofFloat? (style : FloatStyle) (x : Float) : Option Numeral :=
  match Binary64.ofFloat x with
  | .finite negative 0 _ => some ⟨negative, ['0'], ['0'], none⟩
  | .finite negative m q =>
    let d := Decimal.shortest style.tie m q
    let digits := Nat.toDigits 10 d.digits
    some (ofDigits style negative digits (digits.length + d.exponent))
  | _ => none

/-- The characters of an exponent after the letter. -/
def exponentText (plus : Bool) (e : Int) : List Char :=
  (if e < 0 then ['-'] else if plus then ['+'] else []) ++ Nat.toDigits 10 e.natAbs

/-- The characters of a numeral. -/
def chars (plus : Bool) (n : Numeral) : List Char :=
  (if n.negative then ['-'] else []) ++ n.whole
    ++ (if n.fraction = [] then [] else '.' :: n.fraction)
    ++ (match n.exponent with
      | none => []
      | some e => 'e' :: exponentText plus e)

/-- The text of a numeral. -/
def text (plus : Bool) (n : Numeral) : String := .ofList (n.chars plus)

/-- Takes a row of at least one digit. -/
def scanDigits (cs : List Char) : Option (List Char × List Char) :=
  match cs.takeWhile Char.isDigit with
  | [] => none
  | ds => some (ds, cs.dropWhile Char.isDigit)

/-- Takes a fraction, if a point follows. -/
def scanFraction : List Char → Option (List Char × List Char)
  | '.' :: cs => scanDigits cs
  | cs => some ([], cs)

/-- Takes a signed whole number. -/
def scanSigned : List Char → Option (Int × List Char)
  | '-' :: cs => (scanDigits cs).map fun (ds, rest) => (-(value ds : Int), rest)
  | '+' :: cs => (scanDigits cs).map fun (ds, rest) => ((value ds : Int), rest)
  | cs => (scanDigits cs).map fun (ds, rest) => ((value ds : Int), rest)

/-- Takes an exponent, if its letter follows. -/
def scanExponent : List Char → Option (Option Int × List Char)
  | 'e' :: cs => (scanSigned cs).map fun (e, rest) => (some e, rest)
  | 'E' :: cs => (scanSigned cs).map fun (e, rest) => (some e, rest)
  | cs => some (none, cs)

/-- Takes a numeral without its sign. -/
def scanUnsigned (negative : Bool) (cs : List Char) : Option (Numeral × List Char) := do
  let (whole, cs) ← scanDigits cs
  let (fraction, cs) ← scanFraction cs
  let (exponent, cs) ← scanExponent cs
  return (⟨negative, whole, fraction, exponent⟩, cs)

/-- Takes the numeral at the head of a text; a point or an exponent letter must be followed by
digits. -/
def scan : List Char → Option (Numeral × List Char)
  | '-' :: cs => scanUnsigned true cs
  | cs => scanUnsigned false cs

/-- Whether the numeral is written as a whole number. -/
def isWhole (n : Numeral) : Bool := n.fraction = [] && n.exponent.isNone

/-- The whole number that the digits before the point give. -/
def wholeValue (n : Numeral) : Int := if n.negative then -(value n.whole : Int) else value n.whole

/-- The float nearest to the numeral, a tie going to the even neighbour. Magnitudes of more than
`10 ^ 400` are infinite and those below `10 ^ (-400)` zero, whatever the exponent. -/
def toFloat (n : Numeral) : Float :=
  let digits := value (n.whole ++ n.fraction)
  let exponent := n.exponent.getD 0 - n.fraction.length
  let point := Decimal.digitCount digits + exponent
  let magnitude : Float :=
    if digits = 0 ∨ point < -400 then 0.0
    else if 400 < point then 1.0 / 0.0
    else .ofScientific digits (exponent < 0) exponent.natAbs
  if n.negative then -magnitude else magnitude

end Numeral

/-- The float that a text names: a decimal numeral, `inf` or `NaN`, each possibly negative. -/
def readFloat? (text : String) : Option Float :=
  match text.toList with
  | ['N', 'a', 'N'] | ['-', 'N', 'a', 'N'] => some (0.0 / 0.0)
  | ['i', 'n', 'f'] => some (1.0 / 0.0)
  | ['-', 'i', 'n', 'f'] => some (-1.0 / 0.0)
  | cs =>
    match Numeral.scan cs with
    | some (n, []) => some n.toFloat
    | _ => none

end RelPlan
