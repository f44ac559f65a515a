import RelPlan.Number.Numeral

/-! # Reading numerals by scaling

Saved programs are read with a rule that is quicker than rounding to nearest: the leading digits
that fit into 64 bits become a float, which is then multiplied or divided by a power of ten. Both
steps round, so the result can miss the nearest float by a unit in the last place. -/

namespace RelPlan
namespace Numeral

/-- Appends digits to a number as long as it has 64 bits; counts those appended. -/
def absorb (n : Nat) : List Char → Nat × Nat
  | [] => (n, 0)
  | c :: cs =>
    let n' := 10 * n + (c.toNat - '0'.toNat)
    if n' < UInt64.size then
      let (r, count) := absorb n' cs
      (r, count + 1)
    else (n, 0)

/-- Scales a float by `10 ^ exponent`, in steps of `10 ^ 308` if need be; there is no float that
large for a positive exponent beyond that. Three steps down leave nothing of a 64-bit number. -/
def scale (x : Float) : (steps : Nat) → (exponent : Int) → Option Float
  | 0, _ => some x
  | steps + 1, exponent =>
    if exponent.natAbs ≤ 308 then
      let power := Float.ofScientific 1 false exponent.natAbs
      if exponent < 0 then some (x / power)
      else if (x * power).isInf then none
      else some (x * power)
    else if x == 0 then some x
    else if 0 ≤ exponent then none
    else scale (x / 1e308) steps (exponent + 308)

/-- The float of a numeral by scaling its leading digits; none if it is too large. -/
def scaled? (n : Numeral) : Option Float := do
  let (leading, used) := absorb 0 n.whole
  let signed (x : Float) := if n.negative then -x else x
  if n.isWhole ∧ used = n.whole.length then
    return signed leading.toUInt64.toFloat
  else
    let (leading, places) := absorb leading n.fraction
    let exponent := (n.whole.length - used : Nat) - (places : Int) + n.exponent.getD 0
    return signed (← scale leading.toUInt64.toFloat 4 exponent)

end Numeral
end RelPlan
