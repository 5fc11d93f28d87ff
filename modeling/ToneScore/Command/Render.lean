import ToneScore.Command.Exit
import ToneScore.Render.Basic

/-!
# The rendering command

Renders the score in a file with the standard settings and writes the wave file beside the score,
or where it is told to. Nothing is written unless the render succeeds.
-/

namespace ToneScore.Command

open Decimal

structure RenderOptions where
  input : String
  /-- Where the wave file goes, if not beside the score. -/
  output : Option String
  /-- Show every note that is accepted and mixed. -/
  verbose : Bool

def RenderOptions.target (o : RenderOptions) : String :=
  o.output.getD (o.input ++ ".wav")

def settings (c : Config) : String :=
  "Configuration:\n" ++
    s!"  Sample rate: {c.sampleRate} Hz\n" ++
    s!"  Bit depth: {c.bitsPerSample} bits\n" ++
    s!"  Base amplitude: {plain c.baseAmplitude}\n\n"

/-- The end of a command whose score is not rendered, after printing `out`. -/
def refusal (input out : String) (error : RenderError) : Exit :=
  match error with
  | .score fault => .failure out s!"{input}: {fault.message}"
  | .wave .overflow | .capacity => .brokenOff out error.message
  | .wave _ | .tooLong .. => .failure out error.message

def runRender {m : Type → Type} [Monad m] [Files m] (o : Overflow) (options : RenderOptions) :
    m Exit := do
  match ← readText options.input with
  | .error fault => return .failure "" s!"failed to read {options.input}: {fault.message}"
  | .ok text =>
    let out := settings .standard
    let rendering := render o .standard text
    let log := rendering.log.filter fun entry => options.verbose || entry.level != .debug
    match rendering.result with
    | .error error => return { refusal options.input out error with log }
    | .ok file =>
      match ← Files.write options.target file with
      | .error fault =>
        let message := s!"failed to write {options.target}: {fault.message}"
        return { Exit.failure out message with log }
      | .ok () =>
        let done := s!"✓ Generated {options.target} ({file.size} bytes)\n"
        return { code := 0, out := out ++ done, log }

/-- The rendering command. What its arguments ask for, or how it ends without, is read by `parse`. -/
def renderMain {m : Type → Type} [Monad m] [Files m] (o : Overflow)
    (parse : List String → Except Exit RenderOptions) (args : List String) : m Exit :=
  match parse args with
  | .error ending => pure ending
  | .ok options => runRender o options

end ToneScore.Command
