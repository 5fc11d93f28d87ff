/-!
# Whole numbers and doubles

`floor` and `round` send a double to a whole double, `round` taking halves away from zero. Both
keep NaN, the infinities and every double that is whole already, signed zeros included. `toNat`
and `toInt` read a whole number off a double, and `ofCount` writes one. `larger` is the maximum
that passes over NaN.
-/

namespace ToneScore.Binary64

/-- `2^52`, from which on every double is whole. -/
def wholeFrom : Float := 4503599627370496.0

/-- The whole part of `|x|`, for `|x| < 2^52`. -/
def wholePart (x : Float) : Float :=
  x.abs.toUInt64.toFloat

/-- The largest whole double that is at most `x`. -/
def floor (x : Float) : Float :=
  if x.abs < wholeFrom then
    let w := wholePart x
    if w == x.abs then x
    else if x < 0.0 then -(w + 1.0)
    else w
  else x

/-- The whole double nearest to `x`, halves going away from zero. -/
def round (x : Float) : Float :=
  if x.abs < wholeFrom then
    let w := wholePart x
    if w == x.abs then x
    else
      let r := if x.abs - w < 0.5 then w else w + 1.0
      if x < 0.0 then -r else r
  else x

/-- `x` without its fraction, held inside `[0, 2^64)`; NaN is 0. -/
def toNat (x : Float) : Nat :=
  x.toUInt64.toNat

/-- `x` without its fraction, held inside `[-2^31, 2^31)`; NaN is 0. -/
def toInt (x : Float) : Int :=
  max (-2147483648) (min (if x < 0.0 then -(toNat x.abs : Int) else toNat x) 2147483647)

/-- The double nearest to a count below `2^64`. -/
def ofCount (n : Nat) : Float :=
  n.toUInt64.toFloat

/-- The larger of two doubles, or the other one where one is NaN. -/
def larger (x y : Float) : Float :=
  if x.isNaN then y else if x < y then y else x

end ToneScore.Binary64
