import ToneScore.Render.Log
import ToneScore.Storage.Folder

/-!
# Running a command

A command reads and writes files and ends with an exit code and the text for its two outputs.
-/

namespace ToneScore.Command

open Storage

class Files (m : Type → Type) where
  read : String → m (Except Fault ByteArray)
  write : String → ByteArray → m (Except Fault Unit)

instance : Files (StateM Folder) where
  read path := fun folder => (folder.read path, folder)
  write path bytes := fun folder => folder.write path bytes

def readText {m : Type → Type} [Monad m] [Files m] (path : String) : m (Except Fault String) := do
  match ← Files.read path with
  | .error fault => return .error fault
  | .ok bytes =>
    match String.fromUTF8? bytes with
    | some text => return .ok text
    | none => return .error .notText

structure Exit where
  code : UInt32
  out : String := ""
  err : String := ""
  /-- The log entries to show. -/
  log : List LogEntry := []

/-- A command that has failed, after printing `out`. -/
def Exit.failure (out message : String) : Exit :=
  { code := 1, out := out, err := s!"Error: {message}\n" }

/-- A command that has broken off, after printing `out`. -/
def Exit.brokenOff (out message : String) : Exit :=
  { code := 101, out := out, err := s!"{message}\n" }

end ToneScore.Command
