import ToneScore.Score.Basic
import ToneScore.Tone

/-!
# Mixing a score

Every note takes up a span of samples on one timeline. Start and length of a span are rounded to
whole samples one by one, so notes that touch in the score can overlap or part by a sample. The
mix is the sum of all notes in the order of the score, as long as the last span reaches; nothing
is scaled down. A position is addressable if it is below `2^64`, but no buffer is as long as that:
the length of a score has to be checked before it is mixed.
-/

namespace ToneScore

open Binary64

/-- The samples from `start` up to `stop`. -/
structure Span where
  start : Nat
  stop : Nat
  deriving DecidableEq, Repr

def Span.length (s : Span) : Nat := s.stop - s.start

structure Mixer where
  /-- Samples in a second. -/
  sampleRate : UInt32
  /-- The level of a note of amplitude 1. -/
  baseAmplitude : Float

namespace Mixer

/-- The sample nearest to a tick, if it is addressable. -/
def sampleOf? (m : Mixer) (tick : UInt64) (bpm : Float) : Option Nat :=
  let position := round (tick.toFloat * Score.tickSeconds bpm * m.sampleRate.toFloat)
  if position.isFinite && 0.0 ≤ position && position < 18446744073709551616.0 then
    some (toNat position)
  else none

def span? (m : Mixer) (note : Note) (bpm : Float) : Option Span := do
  let start ← m.sampleOf? note.start.toUInt64 bpm
  let length ← m.sampleOf? note.duration.toUInt64 bpm
  if start + length < UInt64.size then some ⟨start, start + length⟩ else none

/-- The sample at which the last note stops, if all notes are addressable. -/
def length? (m : Mixer) (score : Score) : Option Nat :=
  score.notes.foldlM (fun longest note => (m.span? note score.bpm).map (max longest ·.stop)) 0

def placements? (m : Mixer) (score : Score) : Option (List (Note × Span)) :=
  score.notes.mapM fun note => (m.span? note score.bpm).map (note, ·)

def tone (m : Mixer) (note : Note) : Tone :=
  ⟨note.waveform, note.frequency, m.baseAmplitude * note.amplitude, m.sampleRate⟩

def place (m : Mixer) (buffer : Array Float) (placed : Note × Span) : Array Float :=
  (m.tone placed.1).addInto buffer placed.2.start placed.2.length

/-- The samples that a buffer can take: 8 bytes each, and fewer than `2^63` bytes in all. -/
def capacity : Nat := Int64.maxValue.toNatClampNeg / 8

inductive Fault where
  /-- The score has no length. -/
  | unaddressable
  /-- The run has broken off at a buffer that is too large. -/
  | capacity
  deriving DecidableEq, Repr

/-- The sum of all notes, in a buffer as long as the score. -/
def mix (m : Mixer) (score : Score) : Except Fault (Array Float) :=
  match m.length? score with
  | none => .error .unaddressable
  | some length =>
    if capacity < length then .error .capacity
    else
      match m.placements? score with
      | none => .error .unaddressable
      | some placed => .ok (placed.foldl m.place (Array.replicate length 0.0))

end Mixer

/-- The largest absolute value, NaN passed over; 0 without samples. -/
def peak (samples : Array Float) : Float :=
  samples.foldl (fun highest s => larger highest s.abs) 0.0

end ToneScore
