import ToneScore.Decimal.Reading
import ToneScore.Duration
import ToneScore.Pitch
import ToneScore.Score.Basic
import ToneScore.Score.Fault
import ToneScore.Text.Blank
import ToneScore.Text.Lines

/-!
# Reading scores

The first line of a score is its tempo, and every other line is a note: start tick, duration,
pitch, amplitude and waveform between blanks. The fields of a note are judged from left to right
and the lines from top to bottom, and the first fault is the answer.
-/

namespace ToneScore.Score

open Text

/-- A finite positive tempo, with blanks around it. -/
def readTempo (line : String) : Except Fault Float :=
  let token := trim line
  match Decimal.read? token with
  | some bpm => if bpm.isFinite && 0.0 < bpm then .ok bpm else .error (.tempo token)
  | none => .error (.tempo token)

def readStart (token : String) : Except Fault UInt32 :=
  match word32? token with
  | some tick => .ok tick
  | none => .error (.start token)

def readDuration (token : String) : Except Fault UInt32 :=
  match Duration.ticks? token with
  | some ticks => .ok ticks
  | none => .error (.duration token)

def readPitch (token : String) : Except Fault Pitch :=
  match Pitch.ofToken? token with
  | some p => .ok p
  | none => .error (.pitch token)

/-- The frequency of a pitch under given ratios of semitones, where it is a finite positive double. -/
def readTuned (ratio : Nat → Float) (token : String) : Except Fault Float :=
  match readPitch token with
  | .error fault => .error fault
  | .ok p =>
    let frequency := Pitch.tuning ratio p.midi
    if frequency.isFinite && 0.0 < frequency then .ok frequency else .error (.pitch token)

def readFrequency (token : String) : Except Fault Float :=
  readTuned Pitch.semitoneRatio token

def readAmplitude (token : String) : Except Fault Float :=
  match Decimal.read? token with
  | some a => if a.isFinite && 0.0 ≤ a then .ok a else .error (.amplitude token)
  | none => .error (.amplitude token)

def readWaveform (token : String) : Except Fault Waveform :=
  match Waveform.ofToken? token with
  | some w => .ok w
  | none => .error (.waveform token)

def readNote (line : String) : Except Fault Note :=
  match words line with
  | [start, duration, pitch, amplitude, waveform] => do
    let start ← readStart start
    let duration ← readDuration duration
    let frequency ← readFrequency pitch
    let amplitude ← readAmplitude amplitude
    let waveform ← readWaveform waveform
    pure ⟨start, duration, frequency, amplitude, waveform⟩
  | _ => .error (.shape line)

/-- Notes with the numbers of their lines, up to the first refused line, and why it was refused. -/
def readNotes (number : Nat) : List String → List (Nat × Note) × Option LineFault
  | [] => ([], none)
  | line :: rest =>
    match readNote line with
    | .error fault => ([], some ⟨number, fault⟩)
    | .ok note =>
      let (notes, stop) := readNotes (number + 1) rest
      ((number, note) :: notes, stop)

/--
What reading a score gives: the notes accepted before the first fault, with the numbers of their
lines, and then the score or the fault.
-/
structure Reading where
  accepted : List (Nat × Note)
  result : Except LineFault Score

/-- The text without any line has an empty tempo. -/
def reading (text : String) : Reading :=
  let ls := lines text
  match readTempo (ls.headD "") with
  | .error fault => ⟨[], .error ⟨1, fault⟩⟩
  | .ok bpm =>
    match readNotes 2 ls.tail with
    | (notes, some fault) => ⟨notes, .error fault⟩
    | (notes, none) => ⟨notes, .ok ⟨bpm, notes.map (·.2)⟩⟩

def read (text : String) : Except LineFault Score :=
  (reading text).result

end ToneScore.Score
