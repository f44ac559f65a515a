/-! # Floats taken apart

A 64-bit float is a sign, a mantissa and a power of two, or one of the three values that are no
number. `Binary64.ofFloat` reads these off the bits and `Binary64.toFloat` puts them together
again; everything exact that the library does with floats (shortest digits, remainders) works on
this form in plain `Nat` arithmetic. -/

namespace RelPlan

/-- What the bits of a float stand for. -/
inductive Binary64 where
  | nan
  | infinite (negative : Bool)
  /-- `± mantissa · 2 ^ exponent` -/
  | finite (negative : Bool) (mantissa : Nat) (exponent : Int)
  deriving DecidableEq, Repr

namespace Binary64

/-- The exponent of the last place of the smallest floats. -/
def minExponent : Int := -1074

/-- The sign, the mantissa and the exponent of a float. A normal float has its leading mantissa
bit `2 ^ 52` put back; a subnormal one has none and sits at `minExponent`. -/
def ofFloat (x : Float) : Binary64 :=
  let bits := x.toBits.toNat
  let negative := bits / Nat.pow 2 63 == 1
  let biased := bits / Nat.pow 2 52 % Nat.pow 2 11
  let fraction := bits % Nat.pow 2 52
  if biased = 2047 then
    if fraction = 0 then .infinite negative else .nan
  else if biased = 0 then .finite negative fraction minExponent
  else .finite negative (Nat.pow 2 52 + fraction) ((biased : Int) - 1075)

/-- The float of a sign and bits without the sign. -/
def signed (negative : Bool) (bits : Nat) : Float :=
  .ofBits (.ofNat (if negative then Nat.pow 2 63 + bits else bits))

/-- The float that is exactly `± mantissa · 2 ^ exponent`. The mantissa is shifted up until its
leading bit is `2 ^ 52` or the exponent is the least one; it has to fit into 53 bits. -/
def toFloat : Binary64 → Float
  | nan => 0.0 / 0.0
  | infinite negative => signed negative (2047 * Nat.pow 2 52)
  | finite negative mantissa exponent =>
    let shift := min (52 - mantissa.log2) (exponent - minExponent).toNat
    let m := mantissa * Nat.pow 2 shift
    let biased := exponent - shift + 1075
    signed negative (if m < Nat.pow 2 52 then m
      else biased.toNat * Nat.pow 2 52 + (m - Nat.pow 2 52))

end Binary64

/-- The float nearest to an integer, a tie going to the even neighbour. -/
def nearestFloat (i : Int64) : Float :=
  let magnitude := i.toInt.natAbs.toUInt64.toFloat
  if i.toInt < 0 then -magnitude else magnitude

/-- The remainder of a float division that truncates its quotient, exactly: it has the sign of the
dividend and is smaller than the divisor. -/
def truncatedRemainder (x y : Float) : Float :=
  match Binary64.ofFloat x, Binary64.ofFloat y with
  | .nan, _ | _, .nan | .infinite _, _ | _, .finite _ 0 _ => 0.0 / 0.0
  | .finite .., .infinite _ => x
  | .finite negative m p, .finite _ n q =>
    let exponent := min p q
    let dividend := m * Nat.pow 2 (p - exponent).toNat
    let divisor := n * Nat.pow 2 (q - exponent).toNat
    Binary64.toFloat (.finite negative (dividend % divisor) exponent)

end RelPlan
