import ToneScore.Storage.Fault

/-!
# The format of a wave file

A wave file holds whole-number samples of 8, 16, 24 or 32 bits in frames of one sample per
channel. Its header keeps the number of bytes in a second and in the file in fields of 32 bits,
which limits the rate and the length.

Sizes are multiplied in words of 16, 32 and 64 bits. What becomes of a product that is too large
for its word (`Overflow`) is settled when the program is built, so everything that multiplies takes
it as an argument.
-/

namespace ToneScore

/-- What becomes of a product that is too large for its word. -/
inductive Overflow where
  /-- The run breaks off. -/
  | halts
  /-- The high bits are lost. -/
  | wraps
  deriving DecidableEq, Repr

namespace Wave

structure Format where
  /-- Frames in a second. -/
  sampleRate : UInt32
  channels : UInt16
  bitsPerSample : UInt16
  deriving DecidableEq, Repr

inductive Error where
  | unsupportedBitDepth (bits : UInt16)
  | invalidChannelCount (channels : UInt16)
  | invalidSampleRate (rate : UInt32)
  | dataTooLarge (bytes : UInt64)
  | storage (fault : Storage.Fault)
  /-- The run has broken off at a product that is too large. -/
  | overflow
  deriving DecidableEq, Repr

def Error.message : Error → String
  | unsupportedBitDepth bits => s!"unsupported bit depth: {bits} (expected 8, 16, 24 or 32)"
  | invalidChannelCount channels => s!"invalid channel count: {channels}"
  | invalidSampleRate rate => s!"invalid sample rate: {rate}"
  | dataTooLarge bytes => s!"audio data too large for a WAV container: {bytes} bytes"
  | storage fault => s!"I/O error: {fault.message}"
  | overflow => "attempt to multiply with overflow"

/-- A result in a word that takes numbers below `size`, where `exact` is the number meant. -/
def keep {α : Type} (o : Overflow) (size exact : Nat) (word : α) : Except Error α :=
  if o = .halts ∧ size ≤ exact then .error .overflow else .ok word

namespace Format

def mono (sampleRate : UInt32) (bitsPerSample : UInt16) : Format :=
  ⟨sampleRate, 1, bitsPerSample⟩

def bytesPerSample (f : Format) : UInt16 :=
  f.bitsPerSample / 8

def blockAlign (o : Overflow) (f : Format) : Except Error UInt16 :=
  keep o UInt16.size (f.channels.toNat * f.bytesPerSample.toNat) (f.channels * f.bytesPerSample)

def byteRate (o : Overflow) (f : Format) : Except Error UInt32 := do
  let align ← f.blockAlign o
  keep o UInt32.size (f.sampleRate.toNat * align.toNat) (f.sampleRate * align.toUInt32)

/-- The bytes in a second fit their field. -/
def check (o : Overflow) (f : Format) : Except Error Unit :=
  if f.bitsPerSample ∉ [8, 16, 24, 32] then .error (.unsupportedBitDepth f.bitsPerSample)
  else if f.channels = 0 then .error (.invalidChannelCount f.channels)
  else if f.sampleRate = 0 then .error (.invalidSampleRate f.sampleRate)
  else do
    let align ← f.blockAlign o
    let rate ← keep o UInt64.size (f.sampleRate.toNat * align.toNat)
      (f.sampleRate.toUInt64 * align.toUInt64)
    if 4294967295 < rate then .error (.invalidSampleRate f.sampleRate) else .ok ()

def headerSize : Nat := 44

/-- An odd number of bytes is padded by one. -/
def padding (size : Nat) : Nat :=
  size % 2

/--
The bytes of `frames` frames. With the rest of the header and a padding byte they fit the field for
the size of the file.
-/
def dataSize (o : Overflow) (f : Format) (frames : Nat) : Except Error UInt32 := do
  let align ← f.blockAlign o
  let bytes ← keep o UInt64.size (frames * align.toNat) (frames.toUInt64 * align.toUInt64)
  if 4294967295 - 37 < bytes then .error (.dataTooLarge bytes) else .ok bytes.toUInt32

def fileSize (o : Overflow) (f : Format) (frames : Nat) : Except Error Nat := do
  let size ← f.dataSize o frames
  return headerSize + size.toNat + padding size.toNat

theorem bits_eq_mul {bits : UInt16} (h : bits ∈ [8, 16, 24, 32]) :
    ∃ width, 0 < width ∧ width ≤ 4 ∧ bits.toNat = 8 * width := by
  simp only [List.mem_cons, List.not_mem_nil, or_false] at h
  rcases h with rfl | rfl | rfl | rfl
  · exact ⟨1, by decide, by decide, rfl⟩
  · exact ⟨2, by decide, by decide, rfl⟩
  · exact ⟨3, by decide, by decide, rfl⟩
  · exact ⟨4, by decide, by decide, rfl⟩

end Format

/-! ## Results in words -/

variable {α : Type} {o : Overflow} {size exact : Nat} {word w : α}

theorem keep_eq_ok_iff :
    keep o size exact word = .ok w ↔ (o = .halts → exact < size) ∧ word = w := by
  unfold keep
  split
  · next h => exact ⟨nofun, fun ⟨hlt, _⟩ => absurd (hlt h.1) (Nat.not_lt.mpr h.2)⟩
  · next h =>
    rw [Except.ok.injEq]
    exact ⟨fun heq => ⟨fun ho => Nat.not_le.mp fun hle => h ⟨ho, hle⟩, heq⟩, fun h => h.2⟩

theorem keep_eq_error_iff {e : Error} :
    keep o size exact word = .error e ↔ o = .halts ∧ size ≤ exact ∧ e = .overflow := by
  unfold keep
  split
  · next h => simp [h, eq_comm]
  · next h => exact ⟨nofun, fun ⟨ho, hle, _⟩ => absurd ⟨ho, hle⟩ h⟩

/-- The number meant counts only where the run would break off. -/
theorem keep_congr {exact' : Nat} (h : o = .halts → exact = exact') (word : α) :
    keep o size exact word = keep o size exact' word := by
  cases o with
  | halts => rw [h rfl]
  | wraps => rfl

theorem keep_of_lt (h : exact < size) : keep o size exact word = .ok word :=
  keep_eq_ok_iff.mpr ⟨fun _ => h, rfl⟩

end Wave

end ToneScore
