import RelPlan.Number.Binary64

/-! # The shortest decimal of a float

`Decimal.shortest` finds the decimal with the fewest digits among those that a reader rounding to
nearest takes back to the given float, and among these the nearest to it. A float `m · 2 ^ q` owns
an interval of reals: half a unit in the last place to each side (a quarter below a power of two),
the ends included when `m` is even. The decimals `c · 10 ^ e` with one `e` form a grid, and a
coarser grid has fewer digits; the search therefore runs from coarse grids to fine ones and stops
at the first grid that has a point in the interval. Only the two grid points next to the float can
be nearest, so only these are tested. -/

namespace RelPlan

/-- The magnitude `digits · 10 ^ exponent`. -/
structure Decimal where
  digits : Nat
  exponent : Int
  deriving DecidableEq, Repr

namespace Decimal

/-- Which of two equally near neighbours is taken. -/
inductive Tie where
  | up
  | even
  deriving DecidableEq, Repr

/-- A float and the ends of its interval over one denominator. -/
structure Span where
  low : Nat
  value : Nat
  high : Nat
  denominator : Nat
  /-- Whether the ends belong to the interval. -/
  closed : Bool

namespace Span

/-- The interval of `m · 2 ^ q`, in quarters of the last place. Below a power of two that is not
the smallest normal one the floats lie twice as dense. -/
def ofBinary (m : Nat) (q : Int) : Span :=
  let below := if m = Nat.pow 2 52 ∧ Binary64.minExponent < q then 1 else 2
  let scale := Nat.pow 2 (q - 2).toNat
  { low := (4 * m - below) * scale
    value := 4 * m * scale
    high := (4 * m + 2) * scale
    denominator := Nat.pow 2 (2 - q).toNat
    closed := m % 2 == 0 }

/-- The same interval in units of `10 ^ e`. -/
def inUnits (s : Span) (e : Int) : Span :=
  let up := Nat.pow 10 (-e).toNat
  { s with
    low := s.low * up
    value := s.value * up
    high := s.high * up
    denominator := s.denominator * Nat.pow 10 e.toNat }

/-- Whether the whole number `c` lies in the interval. -/
def holds (s : Span) (c : Nat) : Bool :=
  let n := c * s.denominator
  if s.closed then s.low ≤ n && n ≤ s.high else s.low < n && n < s.high

/-- The whole number in the interval nearest to the value, if there is one. -/
def nearest? (s : Span) (tie : Tie) : Option Nat :=
  let c := s.value / s.denominator
  let rest := s.value % s.denominator
  match s.holds c, s.holds (c + 1) with
  | false, false => none
  | true, false => some c
  | false, true => some (c + 1)
  | true, true =>
    if 2 * rest < s.denominator then some c
    else if s.denominator < 2 * rest then some (c + 1)
    else match tie with
      | .up => some (c + 1)
      | .even => some (if c % 2 = 0 then c else c + 1)

end Span

/-- The number of decimal digits of `n`. -/
def digitCount (n : Nat) : Nat := (Nat.toDigits 10 n).length

/-- An exponent whose grid is too coarse to have a positive point below the end of the interval. -/
def coarsest (s : Span) : Int :=
  if s.denominator ≤ s.high then digitCount (s.high / s.denominator)
  else 1 - (digitCount ((s.denominator - 1) / s.high) : Int) + 1

/-- The first hit on the grids `10 ^ e, 10 ^ (e - 1), …`. -/
def search (tie : Tie) (s : Span) : Nat → Int → Decimal
  | 0, e => ⟨(s.inUnits e).value / (s.inUnits e).denominator, e⟩
  | grids + 1, e =>
    match (s.inUnits e).nearest? tie with
    | some c => if c = 0 then search tie s grids (e - 1) else ⟨c, e⟩
    | none => search tie s grids (e - 1)

/-- The shortest decimal that reads back as `m · 2 ^ q`, for `m` positive. Seventeen digits are
enough for any float. -/
def shortest (tie : Tie) (m : Nat) (q : Int) : Decimal :=
  let s := Span.ofBinary m q
  search tie s 20 (coarsest s)

end Decimal
end RelPlan
