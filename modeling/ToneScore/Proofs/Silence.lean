import ToneScore.Mixer
import ToneScore.Proofs.Binary64.Zeros
import ToneScore.Proofs.Score.Fields
import ToneScore.Score.Reading

/-!
# Tones on silence

A tone can be written over a buffer or added to one. On silence both should come to the same samples,
and as numbers they do. Bit for bit they do not where a sample is the negative zero, which the sum
makes positive (`addInto_silence`). A silent triangle consists of such samples at its lowest points,
and silent notes are accepted (`addInto_silence_ne_generate`).
-/

namespace ToneScore

open Binary64

namespace Tone

variable (t : Tone) (count : ℕ)

theorem fill_eq_samples {buffer : Array Float} (h : buffer.size = count) :
    t.fill buffer 0 count = t.samples count := by
  apply Array.ext_getElem?
  intro i
  rw [getElem?_fill, getElem?_samples]
  split
  · next hi => rw [if_pos (by omega), Nat.sub_zero]
  · next hi => rw [if_neg (by omega), Array.getElem?_eq_none (by omega)]

/-- Added to silence, a tone is itself but for the signs of its zeros. -/
theorem addInto_silence :
    t.addInto (Array.replicate count 0.0) 0 count = (t.samples count).map clearZero := by
  apply Array.ext_getElem?
  intro i
  rw [getElem?_addInto, Array.getElem?_map, getElem?_samples, Array.getElem?_replicate]
  rcases Nat.lt_or_ge i count with hi | hi
  · rw [if_pos ⟨Nat.zero_le i, by omega⟩, if_pos hi, if_pos hi]
    exact congrArg some (zero_add (t.sampleAt i))
  · rw [if_neg (by omega), if_neg (by omega), if_neg (by omega)]
    rfl

/-- Clearing the signs of zeros shows if there is a negative one. -/
theorem map_clearZero_samples_eq_iff :
    (t.samples count).map clearZero = t.samples count ↔ ∀ i < count, t.sampleAt i ≠ -0.0 := by
  have hcell : ∀ i, ((t.samples count).map clearZero)[i]? = (t.samples count)[i]? ↔
      (i < count → t.sampleAt i ≠ -0.0) := by
    intro i
    rw [Array.getElem?_map, getElem?_samples]
    split
    · next hi => simp [hi, clearZero_eq_self_iff]
    · next hi => simp [hi]
  exact ⟨fun h i => (hcell i).mp (congrArg (·[i]?) h),
    fun h => Array.ext_getElem? fun i => (hcell i).mpr (h i)⟩

end Tone

/--
Added to silence, a tone comes to the samples that `generate` gives with the signs of their zeros
cleared, so to the same samples bit for bit exactly if none of them is the negative zero. Written over
a buffer it comes to the same samples, whatever the buffer holds.
-/
theorem addInto_silence_eq_generate_iff (w : Waveform) (frequency scale base : Float) (rate : UInt32)
    (count : ℕ) :
    Tone.addInto ⟨w, frequency, base * scale, rate⟩ (Array.replicate count 0.0) 0 count =
      (generate w frequency scale count rate base).map clearZero ∧
    (Tone.addInto ⟨w, frequency, base * scale, rate⟩ (Array.replicate count 0.0) 0 count =
        generate w frequency scale count rate base ↔
      ∀ i < count, Tone.sampleAt ⟨w, frequency, base * scale, rate⟩ i ≠ -0.0) ∧
    ∀ buffer : Array Float, Tone.fill ⟨w, frequency, base * scale, rate⟩ buffer 0 buffer.size =
      generate w frequency scale buffer.size rate base := by
  unfold generate
  refine ⟨Tone.addInto_silence _ count, ?_, fun buffer => Tone.fill_eq_samples _ _ rfl⟩
  rw [Tone.addInto_silence, Tone.map_clearZero_samples_eq_iff]

/-- One note of an accepted score, a silent triangle, starts with the negative zero, and it starts with
the positive one when it is added to silence. -/
theorem addInto_silence_ne_generate :
    (¬ ∀ (w : Waveform) (frequency scale base : Float) (rate : UInt32) (count : ℕ),
      Tone.addInto ⟨w, frequency, base * scale, rate⟩ (Array.replicate count 0.0) 0 count =
        generate w frequency scale count rate base) ∧
    ∃ score, Score.read "120\n0 Q A4 0 T" = .ok score ∧ ∃ note ∈ score.notes,
      (Mixer.tone ⟨44100, 0.0625⟩ note).addInto (Array.replicate 1 0.0) 0 1 ≠
        generate note.waveform note.frequency note.amplitude 1 44100 0.0625 := by
  constructor
  · intro h
    exact absurd (h .triangle 440.0 0.0 0.5 44100 1) (by decide +kernel)
  · have hdiffers : (Score.read "120\n0 Q A4 0 T").toOption.any (fun score =>
        score.notes.any fun note => decide
          ((Mixer.tone ⟨44100, 0.0625⟩ note).addInto (Array.replicate 1 0.0) 0 1 ≠
            generate note.waveform note.frequency note.amplitude 1 44100 0.0625)) = true := by
      decide +kernel
    obtain ⟨score, hread, hany⟩ := exists_ok_of_any hdiffers
    obtain ⟨note, hnote, hne⟩ := List.any_eq_true.mp hany
    exact ⟨score, hread, note, hnote, of_decide_eq_true hne⟩

end ToneScore
