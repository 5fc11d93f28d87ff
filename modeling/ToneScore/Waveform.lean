import ToneScore.Binary64.Rounding

/-!
# Waveforms

The four periodic shapes, each with a value for every number of periods since its start. The sine
and the sawtooth start at 0, the square at its upper level, the triangle at its lowest point.
-/

namespace ToneScore

inductive Waveform where
  | sine | square | sawtooth | triangle
  deriving DecidableEq, Repr

namespace Waveform

open Binary64

def name : Waveform → String
  | sine => "Sine"
  | square => "Square"
  | sawtooth => "Sawtooth"
  | triangle => "Triangle"

def ofToken? : String → Option Waveform
  | "S" => some sine
  | "Q" => some square
  | "A" => some sawtooth
  | "T" => some triangle
  | _ => none

def turn : Float := 6.283185307179586

/-- How far `cycles` lies from the nearest whole number of periods, negative before it. -/
def offset (cycles : Float) : Float :=
  cycles - floor (cycles + 0.5)

def value (w : Waveform) (cycles : Float) : Float :=
  match w with
  | sine => (turn * cycles).sin
  | square => if 0.0 ≤ (turn * cycles).sin then 1.0 else -1.0
  | sawtooth => 2.0 * offset cycles
  | triangle => 4.0 * (offset cycles).abs - 1.0

end Waveform

end ToneScore
