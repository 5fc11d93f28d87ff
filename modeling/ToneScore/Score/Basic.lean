import ToneScore.Waveform

/-!
# Scores

A score is a tempo and its notes in the order in which they are written. Positions and lengths are
counted in ticks, sixteen to the beat.
-/

namespace ToneScore

open Binary64

structure Note where
  /-- The first tick. -/
  start : UInt32
  /-- The length in ticks. -/
  duration : UInt32
  /-- The frequency in hertz. -/
  frequency : Float
  amplitude : Float
  waveform : Waveform

namespace Note

def stop (n : Note) : Nat :=
  n.start.toNat + n.duration.toNat

end Note

structure Score where
  /-- Beats in a minute. -/
  bpm : Float
  notes : List Note

namespace Score

/-- The length of a tick in seconds, at `bpm` beats in a minute. -/
def tickSeconds (bpm : Float) : Float :=
  60.0 / (bpm * 16.0)

def secondsPerTick (s : Score) : Float :=
  tickSeconds s.bpm

/-- The tick at which the last note stops, 0 without notes. -/
def stop (s : Score) : Nat :=
  (s.notes.map Note.stop).foldl max 0

def seconds (s : Score) : Float :=
  ofCount s.stop * s.secondsPerTick

end Score

end ToneScore
