import ToneScore.Proofs.Pitch.Enharmonic
import ToneScore.Proofs.Pitch.Tuning

/-!
# Octaves

An octave up is twelve semitones more, and the exact frequency doubles (`exactFrequency_octave`).
As a frequency that can be sounded is rounded once and stays clear of the subnormal doubles, the
rounded frequency doubles too, whatever the ratios of the semitones are.
-/

namespace ToneScore.Pitch

open Binary64

/-- The ratios of fewer than twelve semitones lie within an octave. -/
def WithinOctave (ratio : Nat → Float) : Prop :=
  ∀ r < 12, (ratio r).isFinite = true ∧ 1 ≤ value (ratio r) ∧ value (ratio r) < 2

/-- Read with the octave above, a pitch has exactly twice the frequency. -/
def DoublesOctaves (read : String → Except Score.Fault Float) : Prop :=
  ∀ low high p q f g, Score.readPitch low = .ok p → Score.readPitch high = .ok q →
    q.letter = p.letter → q.accidental = p.accidental → q.octave.toInt = p.octave.toInt + 1 →
    read low = .ok f → read high = .ok g → value g = 2 * value f ∧ (g == 2.0 * f) = true

theorem moderate_of_withinOctave {ratio : Nat → Float} (h : WithinOctave ratio) : Moderate ratio :=
  fun r hr => ⟨(h r hr).1, by linarith [(h r hr).2.1]⟩

theorem withinOctave_semitoneRatio : WithinOctave semitoneRatio := by
  have h : ∀ r < 12, (semitoneRatio r).isFinite = true ∧ 1.0 ≤ semitoneRatio r ∧
      semitoneRatio r < 2.0 := by decide +kernel
  intro r hr
  obtain ⟨hfinite, hlow, hhigh⟩ := h r hr
  rw [le_iff_value_le rfl hfinite, value_one] at hlow
  rw [lt_iff_value_lt hfinite rfl, value_two] at hhigh
  exact ⟨hfinite, hlow, hhigh⟩

theorem exactFrequency_octave (ratio : Nat → Float) (n : ℤ) :
    exactFrequency ratio (n + 12) = 2 * exactFrequency ratio n := by
  have hoctaves : octavesAbove (n + 12) = octavesAbove n + 1 := by
    unfold octavesAbove
    omega
  have hsemitones : semitonesAbove (n + 12) = semitonesAbove n := by
    unfold semitonesAbove
    omega
  rw [exactFrequency, exactFrequency, hoctaves, hsemitones, zpow_add_one₀ two_ne_zero]
  ring

section
variable {ratio : Nat → Float} {n : ℤ} (hratio : Moderate ratio)
include hratio

theorem value_of_sounds (h : Sounds (tuning ratio n)) :
    value (tuning ratio n) = rounded (exactFrequency ratio n) := by
  obtain ⟨hlow, hhigh⟩ := octavesAbove_mem hratio h.1 h.2
  exact (rounds_tuning hratio hlow hhigh).value_of_isFinite h.1

theorem value_tuning_octave (h : Sounds (tuning ratio n)) (hup : Sounds (tuning ratio (n + 12))) :
    value (tuning ratio (n + 12)) = 2 * value (tuning ratio n) := by
  have hnormal := two_pow_le_exactFrequency hratio (octavesAbove_mem hratio h.1 h.2).1
  have habs := hnormal.trans (le_abs_self _)
  rw [value_of_sounds hratio h, value_of_sounds hratio hup, exactFrequency_octave,
    rounded_two_mul habs]

end

theorem doublesOctaves_readTuned {ratio : Nat → Float} (h : WithinOctave ratio) :
    DoublesOctaves (Score.readTuned ratio) := by
  intro low high p q f g hp hq hletter haccidental hoctave hf hg
  have hmidi : q.midi = p.midi + 12 := by
    unfold midi
    rw [hletter, haccidental, hoctave]
    ring
  obtain ⟨rfl, hsp⟩ := sounds_of_readTuned hp hf
  obtain ⟨rfl, hsq⟩ := sounds_of_readTuned hq hg
  rw [hmidi] at hsq ⊢
  have hvalue := value_tuning_octave (moderate_of_withinOctave h) hsp hsq
  have hdouble : IsDouble (value 2.0 * value (tuning ratio p.midi)) := by
    rw [value_two, ← hvalue]
    exact ⟨_, denotes_parts hsq.1⟩
  obtain ⟨hfinite, hproduct⟩ := value_mul_of_exact rfl hsp.1 hdouble
  refine ⟨hvalue, ?_⟩
  rw [beq_iff_value_eq hsq.1 hfinite, hvalue, hproduct, value_two]

/-- Frequencies double from octave to octave without rounding, whatever ratios within an octave the
semitones have. -/
theorem readFrequency_octave :
    DoublesOctaves Score.readFrequency ∧
      ∀ ratio, WithinOctave ratio → DoublesOctaves (Score.readTuned ratio) :=
  ⟨doublesOctaves_readTuned withinOctave_semitoneRatio, fun _ => doublesOctaves_readTuned⟩

/-- The lowest two octaves of A and the highest two of B. -/
theorem readFrequency_octave_ends :
    (∃ f g, Score.readFrequency "A-1019" = .ok f ∧ Score.readFrequency "A-1018" = .ok g ∧
      value g = 2 * value f) ∧
    ∃ f g, Score.readTuned semitoneRatio "B1018" = .ok f ∧
      Score.readTuned semitoneRatio "B1019" = .ok g ∧ value g = 2 * value f := by
  obtain ⟨hown, hany⟩ := readFrequency_octave
  have hany := hany semitoneRatio withinOctave_semitoneRatio
  constructor
  · obtain ⟨f, hf⟩ : ∃ f, Score.readFrequency "A-1019" = .ok f := exists_ok (by decide +kernel)
    obtain ⟨g, hg⟩ : ∃ g, Score.readFrequency "A-1018" = .ok g := exists_ok (by decide +kernel)
    have hp : Score.readPitch "A-1019" = .ok ⟨.A, .natural, -1019⟩ := by decide +kernel
    have hq : Score.readPitch "A-1018" = .ok ⟨.A, .natural, -1018⟩ := by decide +kernel
    exact ⟨f, g, hf, hg, (hown _ _ _ _ _ _ hp hq rfl rfl (by decide) hf hg).1⟩
  · obtain ⟨f, hf⟩ : ∃ f, Score.readTuned semitoneRatio "B1018" = .ok f :=
      exists_ok (by decide +kernel)
    obtain ⟨g, hg⟩ : ∃ g, Score.readTuned semitoneRatio "B1019" = .ok g :=
      exists_ok (by decide +kernel)
    have hp : Score.readPitch "B1018" = .ok ⟨.B, .natural, 1018⟩ := by decide +kernel
    have hq : Score.readPitch "B1019" = .ok ⟨.B, .natural, 1019⟩ := by decide +kernel
    exact ⟨f, g, hf, hg, (hany _ _ _ _ _ _ hp hq rfl rfl (by decide) hf hg).1⟩

end ToneScore.Pitch
