/-!
# Printing a double in decimal

`plain` prints the fewest digits that read back as the same double, the nearest such number and of
two equally near the larger, without an exponent. `fixed` prints the exact value rounded to a
number of places, a tie going to the even digit. Both write `inf` and `NaN`, and a minus sign for
every negative double, zero included.
-/

namespace ToneScore.Decimal

/-- `num / den` rounded to the nearest number, a tie going to the even one. -/
def divRound (num den : Nat) : Nat :=
  let q := num / den
  let r := 2 * (num % den)
  if r < den then q else if den < r then q + 1 else q + q % 2

/-- The decimal digits of `n / 10^places`, with the point. -/
def pointed (places n : Nat) : String :=
  let ds := Nat.toDigits 10 n
  let ds := List.replicate (places + 1 - ds.length) '0' ++ ds
  let whole := String.ofList (ds.take (ds.length - places))
  if places = 0 then whole else whole ++ "." ++ String.ofList (ds.drop (ds.length - places))

/-- `10^n` for `n ≥ 0`, and 1 otherwise. -/
def powTen (n : Int) : Nat := Nat.pow 10 n.toNat

/-- `2^n` for `n ≥ 0`, and 1 otherwise. -/
def powTwo (n : Int) : Nat := Nat.pow 2 n.toNat

/-- The exponent of the leading decimal digit of `m * 2^e`, for a double `m * 2^e`. -/
def leadingExponent (m : Nat) (e : Int) : Int :=
  let scaled := m * powTwo e * powTen 400 / powTwo (-e)
  (Nat.toDigits 10 scaled).length - 401

/--
The numbers that round to the double `m * 2^e` are those between the midpoints to its two
neighbours, the midpoints themselves included if `m` is even. In quarters of the last binary place
they lie between `lowQuarters m e` and `4 * m + 2`; the neighbour below a power of two is nearer.
-/
def lowQuarters (m : Nat) (e : Int) : Nat :=
  if m = 4503599627370496 ∧ -1074 < e then 4 * m - 1 else 4 * m - 2

/-- A multiple of `10^k` that rounds to `m * 2^e`, the nearest one, if there is one. -/
def onGrid? (m : Nat) (e k : Int) : Option Nat :=
  -- One decimal step and one quarter of a binary place, over a common denominator.
  let step := powTen k * powTwo (2 - e)
  let quarter := powTwo (e - 2) * powTen (-k)
  let value := 4 * m * quarter
  let low := lowQuarters m e * quarter
  let high := (4 * m + 2) * quarter
  let rounds (c : Nat) : Bool :=
    if m % 2 = 0 then low ≤ c * step && c * step ≤ high else low < c * step && c * step < high
  let below := value / step
  match rounds below, rounds (below + 1) with
  | true, true =>
    if value - below * step < (below + 1) * step - value then some below else some (below + 1)
  | true, false => some below
  | false, true => some (below + 1)
  | false, false => none

/-- Digits `d` and an exponent `k` for which `d * 10^k` is the shortest decimal of `m * 2^e`. -/
def shortest (m : Nat) (e : Int) : Nat × Int :=
  let top := leadingExponent m e
  let found := (List.range 17).findSome? fun (n : Nat) =>
    (onGrid? m e (top - n)).map fun d => (d, top - n)
  let (d, k) := found.getD (m * powTwo e, 0)
  if d % 10 = 0 then (d / 10, k + 1) else (d, k)

/-- A printer of doubles from one of the finite positive ones. -/
def printWith (zero : String) (positive : Nat → Int → String) (x : Float) : String :=
  match x.toModel.unpack with
  | .notANumber => "NaN"
  | .infinity .positive => "inf"
  | .infinity .negative => "-inf"
  | .zero .positive => zero
  | .zero .negative => "-" ++ zero
  | .finite .positive m e _ => positive m e
  | .finite .negative m e _ => "-" ++ positive m e

/-- The shortest decimal that reads back as `x`. -/
def plain : Float → String :=
  printWith "0" fun m e =>
    let (d, k) := shortest m e
    pointed (-k).toNat (d * powTen k)

/-- The value of `x` rounded to `places` decimal places. -/
def fixed (places : Nat) : Float → String :=
  printWith (pointed places 0) fun m e =>
    pointed places (divRound (m * powTwo e * powTen places) (powTwo (-e)))

end ToneScore.Decimal
