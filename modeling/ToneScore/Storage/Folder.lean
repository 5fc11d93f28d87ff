import ToneScore.Storage.Path

/-!
# Folders

A folder is a tree of files, given by the files' places and contents, seen from a working
directory. A place is the list of the names that lead to it from the root. A place is a directory
if a file lies below it, and so are the working directory, directories of which nothing else is
known, and all that lies above them; the root is its own parent. Whether a place can be entered,
read or written is up to the folder (`denial`): permissions are not followed further than that.
-/

namespace ToneScore.Storage

inductive Access where
  | enter | read | write
  deriving DecidableEq, Repr

structure Folder where
  /-- The place of the working directory. -/
  home : List String
  /-- The place of each file, and its bytes. -/
  files : List (List String × ByteArray)
  /-- The places of directories, which may be empty. -/
  directories : List (List String) := []
  /-- Why a place cannot be opened, if it cannot. -/
  denial : Access → List String → Option Fault := fun _ _ => none

inductive Entry where
  | directory
  | file (bytes : ByteArray)
  | vacant

namespace Folder

def empty (home : List String) : Folder := { home, files := [] }

def get? (f : Folder) (place : List String) : Option ByteArray :=
  f.files.lookup place

def put (f : Folder) (place : List String) (bytes : ByteArray) : Folder :=
  { f with files := (place, bytes) :: f.files.filter (·.1 != place) }

def isDirectory (f : Folder) (place : List String) : Bool :=
  place.isPrefixOf f.home || f.directories.any place.isPrefixOf ||
    f.files.any fun file => place.isPrefixOf file.1 && file.1 != place

def look (f : Folder) (here : List String) (name : String) : Except Fault Entry :=
  let place := here ++ [name]
  if longestName < name.utf8ByteSize then .error .nameTooLong
  else if f.isDirectory place then .ok .directory
  else match f.get? place with
    | some bytes => .ok (.file bytes)
    | none => .ok .vacant

def opened (f : Folder) (access : Access) (place : List String) : Except Fault (List String) :=
  match f.denial access place with
  | some fault => .error fault
  | none => .ok place

/-- The directory to which names lead from the directory `here`. -/
def walk (f : Folder) (here : List String) : List String → Except Fault (List String)
  | [] => f.opened .enter here
  | name :: rest =>
    match f.opened .enter here with
    | .error fault => .error fault
    | .ok here =>
      if name = "." then f.walk here rest
      else if name = ".." then f.walk here.dropLast rest
      else
        match f.look here name with
        | .error fault => .error fault
        | .ok .directory => f.walk (here ++ [name]) rest
        | .ok (.file _) => .error .notDirectory
        | .ok .vacant => .error .notFound

/-- The directory in which the last name of a path stands. -/
def directoryOf (f : Folder) (p : Path) : Except Fault (List String) :=
  f.walk (if p.rooted then [] else f.home) p.parents

def read (f : Folder) (path : String) : Except Fault ByteArray := do
  let p ← Path.ofString path
  let here ← f.directoryOf p
  match p.last with
  | none => .error .isDirectory
  | some name =>
    match ← f.look here name with
    | .directory => .error .isDirectory
    | .vacant => .error .notFound
    | .file bytes =>
      if p.slash then .error .notDirectory
      else (f.opened .read (here ++ [name])).map fun _ => bytes

/-- The place of the file that writing to a path makes. A slash at the end asks for a directory. -/
def slot (f : Folder) (path : String) : Except Fault (List String) := do
  let p ← Path.ofString path
  let here ← f.directoryOf p
  match p.last with
  | none => .error .isDirectory
  | some name =>
    if p.slash then .error .isDirectory
    else
      match ← f.look here name with
      | .directory => .error .isDirectory
      | .file _ | .vacant => f.opened .write (here ++ [name])

/-- Makes the file at a path hold `bytes`, whatever it held. -/
def write (f : Folder) (path : String) (bytes : ByteArray) : Except Fault Unit × Folder :=
  match f.slot path with
  | .error fault => (.error fault, f)
  | .ok place => (.ok (), f.put place bytes)

end Folder

end ToneScore.Storage
