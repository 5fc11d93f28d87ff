import ToneScore.Mixer
import ToneScore.Wave.Format

/-!
# Settings of a render

The format of the file, the level of a note of amplitude 1 and the longest render that is
accepted.
-/

namespace ToneScore

structure Config where
  /-- Samples in a second. -/
  sampleRate : UInt32 := 44100
  bitsPerSample : UInt16 := 16
  channels : UInt16 := 1
  /-- The level of a note of amplitude 1, full scale being 1. -/
  baseAmplitude : Float := 0.0625
  /-- The longest render in seconds. -/
  maxSeconds : UInt32 := 1800

namespace Config

/-- One channel of 16 bits at 44100 Hz, a sixteenth of full scale for a note, half an hour. -/
def standard : Config := {}

def format (c : Config) : Wave.Format :=
  ⟨c.sampleRate, c.channels, c.bitsPerSample⟩

def mixer (c : Config) : Mixer :=
  ⟨c.sampleRate, c.baseAmplitude⟩

def maxFrames (c : Config) : Nat :=
  c.sampleRate.toNat * c.maxSeconds.toNat

end Config

end ToneScore
