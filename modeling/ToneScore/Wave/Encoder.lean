import ToneScore.Storage.Stream
import ToneScore.Wave.Format
import ToneScore.Wave.Quantize

/-!
# Writing wave files

A wave file is a header of 44 bytes, the samples frame by frame, and a padding byte if their bytes
are odd in number. `write` sends it to a sink piece by piece, `encode` builds it in memory and
`writeFile` streams it through a buffer into a file of a folder. All three check the format and the
size before anything is written, so `writeFile` makes no file that it would not fill.
-/

namespace ToneScore.Wave

open Storage

def tag (s : String) : List UInt8 :=
  s.toUTF8.data.toList

/-- The bytes behind the field for the size of the file, which `size` bytes of samples make. -/
def remaining (o : Overflow) (size : UInt32) : Except Error UInt32 :=
  keep o UInt32.size (36 + size.toNat + Format.padding size.toNat) (36 + size + (size &&& 1))

def header (o : Overflow) (f : Format) (size : UInt32) : Except Error (List (List UInt8)) := do
  let remaining ← remaining o size
  let rate ← f.byteRate o
  let align ← f.blockAlign o
  return [tag "RIFF", lowBytes 4 remaining.toNat, tag "WAVE",
    tag "fmt ", lowBytes 4 16, lowBytes 2 1, lowBytes 2 f.channels.toNat,
    lowBytes 4 f.sampleRate.toNat, lowBytes 4 rate.toNat, lowBytes 2 align.toNat,
    lowBytes 2 f.bitsPerSample.toNat,
    tag "data", lowBytes 4 size.toNat]

/-- Writing to a sink, which may be refused. -/
abbrev Writer (σ : Type) := ExceptT Error (StateM σ)

def put {σ : Type} (sink : Sink σ) (bytes : List UInt8) : Writer σ Unit :=
  ExceptT.adapt Error.storage (sink.send bytes)

def putFrame {σ : Type} (sink : Sink σ) (f : Format) (sample : Float) : Writer σ Unit :=
  let bytes := sampleBytes sample f.bitsPerSample
  (List.replicate f.channels.toNat bytes).forM (put sink)

def write {σ : Type} (o : Overflow) (sink : Sink σ) (f : Format) (samples : Array Float) :
    Writer σ Unit := do
  liftM (f.check o)
  let size ← liftM (f.dataSize o samples.size)
  let fields ← liftM (header o f size)
  fields.forM (put sink)
  samples.forM (putFrame sink f)
  if Format.padding size.toNat = 1 then put sink [0]

def encode (o : Overflow) (f : Format) (samples : Array Float) : Except Error ByteArray :=
  match f.check o with
  | .error e => .error e
  | .ok () =>
    match f.fileSize o samples.size with
    | .error e => .error e
    | .ok size =>
      match write o Sink.memory f samples (ByteArray.emptyWithCapacity size) with
      | (.error e, _) => .error e
      | (.ok (), bytes) => .ok bytes

def bufferSize : Nat := 8192

/-- Sends the whole file to a sink through a buffer, and the rest of the buffer at the end. -/
def writeBuffered {σ : Type} (o : Overflow) (sink : Sink σ) (f : Format) (samples : Array Float) :
    Writer (Buffered σ) Unit := do
  write o (sink.buffered bufferSize) f samples
  ExceptT.adapt Error.storage sink.flush

/-- Makes the file at a path the whole file. -/
def writeFile (o : Overflow) (folder : Folder) (path : String) (f : Format)
    (samples : Array Float) : Except Error Unit × Folder :=
  match f.check o with
  | .error e => (.error e, folder)
  | .ok () =>
    match f.dataSize o samples.size with
    | .error e => (.error e, folder)
    | .ok _ =>
      match folder.create path with
      | .error fault => (.error (.storage fault), folder)
      | .ok (place, created) =>
        let (outcome, s) := writeBuffered o (Folder.file place) f samples ⟨.empty, created⟩
        (outcome, s.behind)

end ToneScore.Wave
