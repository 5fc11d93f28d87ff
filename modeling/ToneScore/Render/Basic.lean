import ToneScore.Render.Config
import ToneScore.Render.Log
import ToneScore.Score.Reading
import ToneScore.Wave.Encoder

/-!
# Rendering scores

`render` turns the text of a score into the bytes of a wave file. The format is checked first,
then the score is read, then its length is checked against what can be addressed, what the file
can hold and what the settings allow. Nothing is mixed before all of this holds.
-/

namespace ToneScore

open Binary64

inductive RenderError where
  | score (fault : Score.LineFault)
  | wave (error : Wave.Error)
  | tooLong (frames maxFrames : Nat)
  /-- The run has broken off at a buffer that is too large. -/
  | capacity
  deriving DecidableEq, Repr

def RenderError.message : RenderError → String
  | score fault => fault.message
  | wave error => error.message
  | tooLong frames maxFrames =>
    s!"score renders {frames} sample frames, over the limit of {maxFrames}"
  | capacity => "capacity overflow"

structure Rendering where
  log : List LogEntry
  result : Except RenderError ByteArray

/-- A score that cannot be addressed is longer than any file. -/
def RenderError.unaddressable : RenderError :=
  .wave (.dataTooLarge 18446744073709551615)

def acceptedEntries (reading : Score.Reading) : List LogEntry :=
  reading.accepted.map fun (line, note) => .accepted line note

def mixEntries (c : Config) (score : Score) (samples : Array Float) : List LogEntry :=
  let highest := peak samples
  let seconds := ofCount samples.size / c.sampleRate.toFloat
  let done := .rendered score.notes.length score.bpm samples.size seconds highest
  if 1.0 < highest then [done, .clipping highest] else [done]

/-- The rendering of a score in a format that has been checked. -/
def renderScore (o : Overflow) (c : Config) (score : Score) : Rendering :=
  match c.mixer.length? score with
  | none => ⟨[], .error .unaddressable⟩
  | some frames =>
    match c.format.dataSize o frames with
    | .error e => ⟨[], .error (.wave e)⟩
    | .ok _ =>
      if c.maxFrames < frames then ⟨[], .error (.tooLong frames c.maxFrames)⟩
      else
        let placed := (c.mixer.placements? score).getD []
        let mixing := placed.map fun (note, span) => LogEntry.mixing note span
        match c.mixer.mix score with
        | .error .unaddressable => ⟨mixing, .error .unaddressable⟩
        | .error .capacity => ⟨[], .error .capacity⟩
        | .ok samples =>
          ⟨mixing ++ mixEntries c score samples,
            (Wave.encode o c.format samples).mapError RenderError.wave⟩

def render (o : Overflow) (c : Config) (text : String) : Rendering :=
  match c.format.check o with
  | .error e => ⟨[], .error (.wave e)⟩
  | .ok () =>
    let reading := Score.reading text
    match reading.result with
    | .error fault => ⟨acceptedEntries reading, .error (.score fault)⟩
    | .ok score =>
      let rendering := renderScore o c score
      { rendering with log := acceptedEntries reading ++ rendering.log }

end ToneScore
