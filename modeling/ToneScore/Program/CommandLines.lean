import ToneScore.Command.Plot
import ToneScore.Command.Render
import ToneScore.Program.Arguments

/-!
# The two command lines

What the rendering and the plotting command can be asked for, with the help that tells so.
-/

namespace ToneScore.Command

namespace RenderOptions

def spec : Spec where
  name := "wav-maker"
  version := "0.1.0"
  help := "Render a text score to an uncompressed WAV file\n\n" ++
    "Usage: wav-maker [OPTIONS] <INPUT>\n\n" ++
    "Arguments:\n" ++
    "  <INPUT>  Path to the score file\n\n" ++
    "Options:\n" ++
    "  -o, --output <OUTPUT>  Output WAV file path (defaults to <input>.wav)\n" ++
    "  -v, --verbose          Log every parsed and mixed note\n" ++
    "  -h, --help             Print help\n" ++
    "  -V, --version          Print version\n"
  plain := ["<INPUT>"]
  options := [⟨"output", some 'o', .path⟩, ⟨"verbose", some 'v', .switch⟩]

def parse (args : List String) : Except Exit RenderOptions :=
  match Scan.ofArgs spec args with
  | .error stop => .error (stop.exit spec)
  | .ok s => .ok ⟨s.plain.headD "", s.value? "output", (s.value? "verbose").isSome⟩

end RenderOptions

namespace PlotOptions

def spec : Spec where
  name := "plot-score"
  version := "0.1.0"
  help := "Plot the mixed waveform of a score as an SVG\n\n" ++
    "Usage: plot-score [OPTIONS] <INPUT> <OUTPUT>\n\n" ++
    "Arguments:\n" ++
    "  <INPUT>   Path to the score file\n" ++
    "  <OUTPUT>  Output SVG path\n\n" ++
    "Options:\n" ++
    "      --start <START>      Start of the plotted window in seconds [default: 0]\n" ++
    "      --seconds <SECONDS>  Length of the plotted window in seconds " ++
    "(whole score if omitted)\n" ++
    "  -h, --help               Print help\n" ++
    "  -V, --version            Print version\n"
  plain := ["<INPUT>", "<OUTPUT>"]
  options := [⟨"start", none, .number⟩, ⟨"seconds", none, .number⟩]

def parse (args : List String) : Except Exit PlotOptions :=
  match Scan.ofArgs spec args with
  | .error stop => .error (stop.exit spec)
  | .ok s =>
    let start := ((s.value? "start").bind Decimal.read?).getD 0.0
    let seconds := (s.value? "seconds").bind Decimal.read?
    .ok ⟨s.plain.headD "", s.plain.getD 1 "", ⟨start, seconds⟩⟩

end PlotOptions

end ToneScore.Command
