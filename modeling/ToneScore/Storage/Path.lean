import ToneScore.Storage.Fault

/-!
# Paths

A path is names with slashes between them, read from the root if a slash stands first and from the
working directory otherwise. The names `.` and `..` are directories wherever they stand, so a path
that ends in one of them, or in no name at all, has no last name of its own.
-/

namespace ToneScore.Storage

def longestPath : Nat := 4095

def longestName : Nat := 255

structure Path where
  /-- The path is read from the root. -/
  rooted : Bool
  /-- The names in front of the last one. -/
  parents : List String
  /-- The last name, unless the path ends in a directory by its form. -/
  last : Option String
  /-- A slash follows the last name. -/
  slash : Bool
  deriving DecidableEq, Repr

namespace Path

def ofNames (rooted : Bool) (names : List String) (slash : Bool) : Path :=
  match names.getLast? with
  | none => ⟨rooted, [], none, slash⟩
  | some name =>
    if name = "." ∨ name = ".." then ⟨rooted, names, none, slash⟩
    else ⟨rooted, names.dropLast, some name, slash⟩

def ofString (s : String) : Except Fault Path :=
  let cs := s.toList
  if cs.contains '\x00' then .error .badName
  else if cs.isEmpty then .error .notFound
  else if longestPath < s.utf8ByteSize then .error .nameTooLong
  else
    let names := (s.splitOn "/").filter (· ≠ "")
    .ok (ofNames (cs.head? = some '/') names (cs.getLast? = some '/'))

end Path

end ToneScore.Storage
