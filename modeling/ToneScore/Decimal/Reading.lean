import ToneScore.Text.Numeral

/-!
# Reading a double from decimal text

The text is an optional sign and then `inf`, `infinity` or `nan` in any case, or digits with at
most one point among them and an optional exponent. The digits denote a rational number, and the
double nearest to it is the answer, an overflow going to infinity.
-/

namespace ToneScore.Decimal

open ToneScore.Text

/-- The double nearest to `n * 10^e`. -/
def ofDigits (n : Nat) (e : Int) : Float :=
  Float.ofScientific n (e < 0) e.natAbs

/-- An exponent mark with a signed numeral, or nothing. -/
def exponent? : List Char → Option Int
  | [] => some 0
  | c :: cs => if c = 'e' ∨ c = 'E' then signed? cs else none

/-- Digits with at most one point among them. The point needs a digit on one of its sides. -/
def number? (cs : List Char) : Option Float :=
  let whole := cs.takeWhile Char.isDigit
  let rest := cs.dropWhile Char.isDigit
  let (places, tail) := match rest with
    | '.' :: r => (r.takeWhile Char.isDigit, r.dropWhile Char.isDigit)
    | r => ([], r)
  if whole.isEmpty && places.isEmpty then none
  else (exponent? tail).map fun e => ofDigits (digitsValue (whole ++ places)) (e - places.length)

/-- The names of the doubles that no digits denote. -/
def named? (cs : List Char) : Option Float :=
  let name := String.ofList (cs.map Char.toLower)
  if name = "inf" ∨ name = "infinity" then some (1.0 / 0.0)
  else if name = "nan" then some (0.0 / 0.0)
  else none

def magnitude? (cs : List Char) : Option Float :=
  (number? cs).or (named? cs)

def read? (s : String) : Option Float :=
  match s.toList with
  | '-' :: cs => (magnitude? cs).map (- ·)
  | '+' :: cs => magnitude? cs
  | cs => magnitude? cs

end ToneScore.Decimal
