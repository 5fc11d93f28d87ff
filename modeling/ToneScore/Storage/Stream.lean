import ToneScore.Storage.Folder
import ToneScore.Storage.Sink

/-!
# Streams into files

A file is made empty (`Folder.create`) and then takes bytes at its end (`Folder.file`). A buffer in
front of a sink gathers short runs of bytes: it is emptied before a run that no longer fits, and a
run as long as the buffer goes past it (`Sink.buffered`). What is left in it at the end is sent with
`Sink.flush`.
-/

namespace ToneScore.Storage

namespace Folder

/-- The place of a new, empty file at a path. A file that is there loses what it held. -/
def create (f : Folder) (path : String) : Except Fault (List String × Folder) :=
  match f.slot path with
  | .error fault => .error fault
  | .ok place => .ok (place, f.put place .empty)

/-- The sink that adds to the end of the file at a place. -/
def file (place : List String) : Sink Folder where
  accept f bytes :=
    (bytes.length, f.put place (Sink.extend ((f.get? place).getD .empty) bytes))

end Folder

structure Buffered (σ : Type) where
  /-- The bytes that have not been sent on. -/
  held : ByteArray
  /-- The state of the sink. -/
  behind : σ

namespace Sink

/-- Offers what a buffer held until all of it is taken. What a full sink leaves stays held. -/
def drain {σ : Type} (sink : Sink σ) (s : σ) (held : List UInt8) :
    Except Fault Unit × Buffered σ :=
  if held = [] then (.ok (), ⟨.empty, s⟩)
  else
    let taken := sink.accept s held
    if taken.1 = 0 then (.error .full, ⟨held.toByteArray, taken.2⟩)
    else drain sink taken.2 (held.drop taken.1)
  termination_by held.length
  decreasing_by
    have hheld : 0 < held.length := List.length_pos_iff.mpr (by assumption)
    have htaken : (sink.accept s held).1 ≠ 0 := by assumption
    simp only [List.length_drop]
    omega

def flush {σ : Type} (sink : Sink σ) : ExceptT Fault (StateM (Buffered σ)) Unit :=
  fun s => sink.drain s.behind s.held.data.toList

/-- The sink behind a buffer of `capacity` bytes. It is full if the buffer cannot be emptied. -/
def buffered {σ : Type} (capacity : Nat) (sink : Sink σ) : Sink (Buffered σ) where
  accept s bytes :=
    match if capacity < s.held.size + bytes.length then sink.flush s else (.ok (), s) with
    | (.error _, s) => (0, s)
    | (.ok (), s) =>
      if capacity ≤ bytes.length then
        let taken := sink.accept s.behind bytes
        (taken.1, { s with behind := taken.2 })
      else (bytes.length, { s with held := extend s.held bytes })

end Sink

end ToneScore.Storage
