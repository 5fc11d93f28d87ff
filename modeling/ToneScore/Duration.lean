import ToneScore.Text.Numeral

/-!
# Durations

A duration is counted in ticks, sixteenths of a beat. It is written as an abbreviation or as a
number of ticks, which is at least one.
-/

namespace ToneScore.Duration

open Text

/-- The abbreviations and their ticks. The dotted values, marked `D`, last half as long again. -/
def abbreviations : List (String × UInt32) :=
  [("TS", 2), ("DTS", 3), ("S", 4), ("DS", 6), ("E", 8), ("DE", 12), ("Q", 16), ("DQ", 24),
    ("H", 32), ("DH", 48), ("W", 64)]

def ticks? (token : String) : Option UInt32 :=
  match abbreviations.lookup token with
  | some n => some n
  | none => (word32? token).filter (0 < ·)

end ToneScore.Duration
