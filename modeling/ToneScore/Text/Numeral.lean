/-!
# Whole numbers in decimal

A numeral is one or more ASCII digits, with leading zeros allowed. `unsigned?` takes a plus sign
in front of it, `signed?` either sign.
-/

namespace ToneScore.Text

def digitsValue (ds : List Char) : Nat :=
  ds.foldl (fun n d => 10 * n + (d.toNat - '0'.toNat)) 0

def numeral? (cs : List Char) : Option Nat :=
  if !cs.isEmpty && cs.all Char.isDigit then some (digitsValue cs) else none

/-- A numeral after at most one plus sign. -/
def unsigned? : List Char → Option Nat
  | '+' :: cs => numeral? cs
  | cs => numeral? cs

/-- A numeral after at most one sign. -/
def signed? : List Char → Option Int
  | '-' :: cs => (numeral? cs).map fun n => -(n : Int)
  | '+' :: cs => (numeral? cs).map Int.ofNat
  | cs => (numeral? cs).map Int.ofNat

/-- An unsigned numeral of a number below `2^32`. -/
def word32? (s : String) : Option UInt32 :=
  match unsigned? s.toList with
  | some n => if n < UInt32.size then some (UInt32.ofNat n) else none
  | none => none

end ToneScore.Text
