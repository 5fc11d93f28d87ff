import ToneScore.Waveform

/-!
# Tones

A tone is a waveform at a frequency and an amplitude, sampled at a fixed rate. Sample `i` depends
on `i` alone, so a tone rendered in pieces is the tone rendered in one pass. `fill` writes the
first samples of a tone over a stretch of a buffer, `addInto` adds them to what is there.
-/

namespace ToneScore

open Binary64

structure Tone where
  waveform : Waveform
  /-- The frequency in hertz. -/
  frequency : Float
  /-- The peak level. -/
  amplitude : Float
  /-- Samples in a second. -/
  sampleRate : UInt32

namespace Tone

/-- Sample `i`, counted from the start of the tone. -/
def sampleAt (t : Tone) (i : Nat) : Float :=
  let seconds := ofCount i / t.sampleRate.toFloat
  t.amplitude * t.waveform.value (t.frequency * seconds)

/-- The buffer with the first `count` samples in place of those from `start` on. -/
def fill (t : Tone) (buffer : Array Float) (start count : Nat) : Array Float :=
  count.fold (fun i _ b => b.setIfInBounds (start + i) (t.sampleAt i)) buffer

/-- The buffer with the first `count` samples added to those from `start` on. -/
def addInto (t : Tone) (buffer : Array Float) (start count : Nat) : Array Float :=
  count.fold (fun i _ b => b.modify (start + i) (· + t.sampleAt i)) buffer

def samples (t : Tone) (count : Nat) : Array Float :=
  t.fill (Array.replicate count 0.0) 0 count

/-! ## Samples of a rendered buffer -/

@[simp] theorem addInto_zero (t : Tone) (buffer : Array Float) (start : Nat) :
    t.addInto buffer start 0 = buffer := rfl

theorem addInto_succ (t : Tone) (buffer : Array Float) (start count : Nat) :
    t.addInto buffer start (count + 1) =
      (t.addInto buffer start count).modify (start + count) (· + t.sampleAt count) := by
  simp [addInto, Nat.fold_succ]

@[simp] theorem size_addInto (t : Tone) (buffer : Array Float) (start count : Nat) :
    (t.addInto buffer start count).size = buffer.size := by
  induction count with
  | zero => rfl
  | succ n ih => rw [addInto_succ, Array.size_modify, ih]

theorem getElem?_addInto (t : Tone) (buffer : Array Float) (start count j : Nat) :
    (t.addInto buffer start count)[j]? =
      if start ≤ j ∧ j < start + count then buffer[j]?.map (· + t.sampleAt (j - start))
      else buffer[j]? := by
  induction count with
  | zero => rw [if_neg (by omega), addInto_zero]
  | succ n ih =>
    rw [addInto_succ, Array.getElem?_modify, ih]
    by_cases hj : start + n = j
    · subst hj
      simp
    · rw [if_neg hj]
      grind

@[simp] theorem fill_zero (t : Tone) (buffer : Array Float) (start : Nat) :
    t.fill buffer start 0 = buffer := rfl

theorem fill_succ (t : Tone) (buffer : Array Float) (start count : Nat) :
    t.fill buffer start (count + 1) =
      (t.fill buffer start count).setIfInBounds (start + count) (t.sampleAt count) := by
  simp [fill, Nat.fold_succ]

@[simp] theorem size_fill (t : Tone) (buffer : Array Float) (start count : Nat) :
    (t.fill buffer start count).size = buffer.size := by
  induction count with
  | zero => rfl
  | succ n ih => rw [fill_succ, Array.size_setIfInBounds, ih]

theorem getElem?_fill (t : Tone) (buffer : Array Float) (start count j : Nat) :
    (t.fill buffer start count)[j]? =
      if start ≤ j ∧ j < start + count ∧ j < buffer.size then some (t.sampleAt (j - start))
      else buffer[j]? := by
  induction count with
  | zero => rw [if_neg (by omega), fill_zero]
  | succ n ih =>
    rw [fill_succ, Array.getElem?_setIfInBounds, ih, size_fill]
    by_cases hj : start + n = j
    · subst hj
      by_cases hsize : start + n < buffer.size
      · simp [hsize]
      · simp [hsize]
    · rw [if_neg hj]
      grind

@[simp] theorem size_samples (t : Tone) (count : Nat) : (t.samples count).size = count := by
  simp [samples]

theorem getElem?_samples (t : Tone) (count j : Nat) :
    (t.samples count)[j]? = if j < count then some (t.sampleAt j) else none := by
  rw [samples, getElem?_fill]
  by_cases hj : j < count
  · simp [hj]
  · simp [hj]

end Tone

/-- The first `count` samples of a tone whose amplitude is `scale` times `base`. -/
def generate (waveform : Waveform) (frequency scale : Float) (count : Nat) (sampleRate : UInt32)
    (base : Float) : Array Float :=
  Tone.samples ⟨waveform, frequency, base * scale, sampleRate⟩ count

end ToneScore
