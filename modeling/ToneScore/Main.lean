import ToneScore.Program.CommandLines
import ToneScore.Program.Drawing

/-!
# The program

Renders a score, or plots it if the first argument is `plot`.
-/

namespace ToneScore.Command

open Storage

/-- The number of a system error, which may come negated. -/
def errorNumber (code : UInt32) : UInt32 :=
  min code (0 - code)

def faultOf (e : IO.Error) : Fault :=
  match e with
  | .noFileOrDirectory .. => .notFound
  | .inappropriateType _ code _ => if errorNumber code = 20 then .notDirectory else .isDirectory
  | .invalidArgument _ code _ =>
    if errorNumber code = 36 then .nameTooLong else .other (toString e)
  | e => .other (toString e)

instance : Files IO where
  read path := do
    try return .ok (← IO.FS.readBinFile path)
    catch e => return .error (faultOf e)
  write path bytes := do
    try
      IO.FS.writeBinFile path bytes
      return .ok ()
    catch e => return .error (faultOf e)

def run (args : List String) : IO UInt32 := do
  let ending ← match args with
    | "plot" :: rest => plotMain Plot.svg PlotOptions.parse rest
    | _ => renderMain .halts RenderOptions.parse args
  for entry in ending.log do
    IO.eprintln s!"[{entry.level.name}] {entry.message}"
  IO.print ending.out
  IO.eprint ending.err
  return ending.code

end ToneScore.Command

def main (args : List String) : IO UInt32 :=
  ToneScore.Command.run args
