/-!
# Faults in a score

Why a line of a score is refused, with the text at fault, and the number of that line.
-/

namespace ToneScore.Score

/-- Why a line is refused. Each cause carries the text at fault as it was written. -/
inductive Fault where
  | tempo (token : String)
  /-- The line has not five fields. -/
  | shape (line : String)
  | start (token : String)
  | duration (token : String)
  | pitch (token : String)
  | amplitude (token : String)
  | waveform (token : String)
  deriving DecidableEq, Repr

namespace Fault

def token : Fault → String
  | tempo t | shape t | start t | duration t | pitch t | amplitude t | waveform t => t

def message : Fault → String
  | tempo t => s!"invalid tempo: \"{t}\""
  | shape t => s!"malformed line (expected 5 fields): \"{t}\""
  | start t => s!"invalid start tick: \"{t}\""
  | duration t => s!"invalid duration: \"{t}\""
  | pitch t => s!"invalid pitch: \"{t}\""
  | amplitude t => s!"invalid amplitude: \"{t}\""
  | waveform t => s!"invalid waveform abbreviation: \"{t}\""

end Fault

/-- A fault at a line, counted from 1. -/
structure LineFault where
  line : Nat
  fault : Fault
  deriving DecidableEq, Repr

def LineFault.message (e : LineFault) : String :=
  s!"syntax error (line {e.line}): {e.fault.message}"

end ToneScore.Score
