import ToneScore.Command.Exit
import ToneScore.Plot
import ToneScore.Render.Basic

/-!
# The plotting command

Mixes the score in a file with the standard settings and has a window of the mix drawn. How a figure
is drawn is left to whoever runs the command.
-/

namespace ToneScore.Command

open Decimal

structure PlotOptions where
  input : String
  output : String
  request : Plot.Request

inductive PlotError where
  | score (fault : Score.LineFault)
  /-- The score has no length. -/
  | unaddressable
  | tooLong (frames maxFrames : Nat)
  /-- The score has a length and no mix. -/
  | unmixable
  /-- The run has broken off at a buffer that is too large. -/
  | capacity
  deriving DecidableEq, Repr

def PlotError.message : PlotError → String
  | score fault => fault.message
  | unaddressable | unmixable => "score is too long to plot"
  | tooLong frames maxFrames => (RenderError.tooLong frames maxFrames).message
  | capacity => RenderError.capacity.message

/-- The score and its mix, if the mix is no longer than the settings allow. -/
def mixForPlot (c : Config) (text : String) : Except PlotError (Score × Array Float) :=
  match Score.read text with
  | .error fault => .error (.score fault)
  | .ok score =>
    match c.mixer.length? score with
    | none => .error .unaddressable
    | some frames =>
      if c.maxFrames < frames then .error (.tooLong frames c.maxFrames)
      else
        match c.mixer.mix score with
        | .error .unaddressable => .error .unmixable
        | .error .capacity => .error .capacity
        | .ok samples => .ok (score, samples)

/-- What is said about a mix before it is drawn. -/
def summary (score : Score) (samples : Array Float) : String :=
  "Score Plot\n==========\n" ++
    s!"  Notes: {score.notes.length}\n" ++
    s!"  Tempo: {plain score.bpm} BPM\n" ++
    s!"  Duration: {fixed 3 score.seconds}s ({samples.size} samples)\n" ++
    s!"  Peak: {fixed 3 (peak samples)}\n"

/--
The command, with figures drawn by `draw`. A window whose end is not addressable breaks the command
off and leaves a drawing without a figure.
-/
def runPlot {m : Type → Type} [Monad m] [Files m] (draw : Option Plot.Figure → String)
    (options : PlotOptions) : m Exit := do
  match ← readText options.input with
  | .error fault =>
    return .failure "" s!"failed to read {options.input}\n\nCaused by:\n    {fault.message}"
  | .ok text =>
    match mixForPlot .standard text with
    | .error .capacity => return .brokenOff "" PlotError.capacity.message
    | .error error => return .failure "" error.message
    | .ok (score, samples) =>
      let out := summary score samples
      let rate := Config.standard.sampleRate
      match Plot.window? samples.size rate options.request with
      | none =>
        let _ ← Files.write options.output (draw none).toUTF8
        return .brokenOff out "the end of the window is not addressable"
      | some window =>
        let figure := Plot.figure options.input score.bpm rate samples window
        match ← Files.write options.output (draw (some figure)).toUTF8 with
        | .error fault =>
          return .failure out s!"backend error: Drawing backend error: {fault.message}"
        | .ok () => return { code := 0, out := out ++ s!"\nOutput: {options.output}\n" }

/-- The plotting command. What its arguments ask for, or how it ends without, is read by `parse`. -/
def plotMain {m : Type → Type} [Monad m] [Files m] (draw : Option Plot.Figure → String)
    (parse : List String → Except Exit PlotOptions) (args : List String) : m Exit :=
  match parse args with
  | .error ending => pure ending
  | .ok options => runPlot draw options

end ToneScore.Command
