/-!
# Storage faults

Why bytes cannot be read or written.
-/

namespace ToneScore.Storage

inductive Fault where
  /-- The sink takes no more bytes. -/
  | full
  | notFound
  | notDirectory
  | isDirectory
  | nameTooLong
  /-- The path holds a character that no name can hold. -/
  | badName
  /-- The bytes are not UTF-8. -/
  | notText
  /-- Any other cause, in the words of the system. -/
  | other (message : String)
  deriving DecidableEq, Repr

def Fault.message : Fault → String
  | full => "failed to write whole buffer"
  | notFound => "No such file or directory (os error 2)"
  | notDirectory => "Not a directory (os error 20)"
  | isDirectory => "Is a directory (os error 21)"
  | nameTooLong => "File name too long (os error 36)"
  | badName => "file name contained an unexpected NUL byte"
  | notText => "stream did not contain valid UTF-8"
  | other m => m

end ToneScore.Storage
