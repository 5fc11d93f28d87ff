import ToneScore.Decimal.Printing
import ToneScore.Mixer

/-!
# The log of a render

What happens in a render, in order: the notes that are accepted, the spans that they are mixed
into, the finished mix, and the warning that it is louder than full scale.
-/

namespace ToneScore

open Decimal

inductive Level where
  | debug | info | warn
  deriving DecidableEq, Repr

def Level.name : Level → String
  | debug => "DEBUG"
  | info => "INFO"
  | warn => "WARN"

inductive LogEntry where
  /-- A note of a score, with the number of its line. -/
  | accepted (line : Nat) (note : Note)
  /-- A note with the span that it is mixed into. -/
  | mixing (note : Note) (span : Span)
  /-- A finished mix. -/
  | rendered (notes : Nat) (bpm : Float) (samples : Nat) (seconds peak : Float)
  /-- A mix louder than full scale. -/
  | clipping (peak : Float)

namespace LogEntry

def level : LogEntry → Level
  | accepted .. | mixing .. => .debug
  | rendered .. => .info
  | clipping .. => .warn

def message : LogEntry → String
  | accepted line note =>
    s!"line {line}: tick {note.start} +{note.duration} at {fixed 3 note.frequency} Hz " ++
      s!"x{plain note.amplitude} {note.waveform.name}"
  | mixing note span =>
    s!"mixing {note.waveform.name} {fixed 3 note.frequency} Hz into samples " ++
      s!"{span.start}..{span.stop}"
  | rendered notes bpm samples seconds peak =>
    s!"rendered {notes} notes at {plain bpm} BPM: {samples} samples ({fixed 3 seconds}s), " ++
      s!"peak {fixed 3 peak}"
  | clipping peak => s!"mix peaks at {fixed 3 peak} of full scale; output will clip"

def line (e : LogEntry) : String :=
  s!"{e.level.name} {e.message}"

end LogEntry

end ToneScore
