import ToneScore.Decimal.Printing
import ToneScore.Mixer

/-!
# Plotting samples

A plot shows a window of samples over time: a caption, the samples as a line, and the two limits of
full scale. The window is asked for in seconds and held inside the samples.
-/

namespace ToneScore.Plot

open Binary64 Decimal

/-- The samples from a time, as many as there are in a number of seconds or all of the rest. -/
structure Request where
  start : Float := 0.0
  seconds : Option Float := none

/-- The sample at a time, a time before 0 being 0. -/
def sampleAt (rate : UInt32) (seconds : Float) : Nat :=
  toNat (larger seconds 0.0 * rate.toFloat)

/-- The samples asked for among `count` ones, if the end asked for is addressable. -/
def window? (count : Nat) (rate : UInt32) (request : Request) : Option Span :=
  let start := min (sampleAt rate request.start) count
  match request.seconds with
  | none => some ⟨start, count⟩
  | some seconds =>
    let stop := start + sampleAt rate seconds
    if stop < UInt64.size then some ⟨start, min stop count⟩ else none

/-- The times at which a window starts and stops, at least a sample apart. -/
def times (rate : UInt32) (window : Span) : Float × Float :=
  let first := ofCount window.start / rate.toFloat
  (first, larger (ofCount window.stop / rate.toFloat) (first + 1.0 / rate.toFloat))

def caption (title : String) (bpm : Float) (first last : Float) : String :=
  s!"{title}: {plain bpm} BPM, {fixed 3 first}s-{fixed 3 last}s"

inductive Colour where
  | blue | red
  deriving DecidableEq, Repr

/-- What is to be drawn: lines in a range of times, and of levels up to `highest` on both sides of 0. -/
structure Figure where
  caption : String
  first : Float
  last : Float
  highest : Float
  /-- Each line with its points, a time and a level each. -/
  lines : List (Colour × List (Float × Float))

def figure (title : String) (bpm : Float) (rate : UInt32) (samples : Array Float) (window : Span) :
    Figure :=
  let (first, last) := times rate window
  let visible := samples.extract window.start window.stop
  let line := visible.toList.zipIdx.map fun (level, i) =>
    (ofCount (window.start + i) / rate.toFloat, level)
  { caption := caption title bpm first last
    first, last
    highest := larger (peak visible) 1.0 * 1.1
    lines := [(.blue, line), (.red, [(first, 1.0), (last, 1.0)]),
      (.red, [(first, -1.0), (last, -1.0)])] }

end ToneScore.Plot
