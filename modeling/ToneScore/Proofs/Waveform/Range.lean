import ToneScore.Mixer
import ToneScore.Proofs.Waveform.Offset
import ToneScore.Score.Reading

/-!
# The range of waveforms

A waveform swings between -1 and 1, so that the amplitude of a tone is its peak. With a sine that
does, the square always stays in range, and the sine as long as a turn times the number of periods is
finite. The sawtooth and the triangle leave the range at the odd whole numbers between `2^52` and
`2^53` and nowhere else (`inRange_iff_regular`): there the number of periods plus a half is a tie that
goes to the next whole number, so the offset is -1, the sawtooth -2 and the triangle 3. Notes of very
high octaves get there within seconds (`not_inRange_of_high_pitch`).
-/

namespace ToneScore

open Binary64 hiding value

namespace Waveform

/-- From -1 to 1, where the values of a waveform belong. -/
def InRange (x : Float) : Prop := -1.0 ≤ x ∧ x ≤ 1.0

instance (x : Float) : Decidable (InRange x) := inferInstanceAs (Decidable (_ ∧ _))

/-- The waveforms as they follow from a sine. -/
def shape (sin : Float → Float) (w : Waveform) (cycles : Float) : Float :=
  match w with
  | sine => sin (turn * cycles)
  | square => if 0.0 ≤ sin (turn * cycles) then 1.0 else -1.0
  | sawtooth => 2.0 * offset cycles
  | triangle => 4.0 * (offset cycles).abs - 1.0

theorem value_eq_shape (w : Waveform) : w.value = w.shape Float.sin := by
  cases w <;> rfl

/-- An odd whole number of periods so large that half a period more is no double. -/
def Misplaced (cycles : Float) : Prop :=
  ∃ n : ℤ, Binary64.value cycles = n ∧ Odd n ∧ 2 ^ 52 < |n| ∧ |n| < 2 ^ 53

variable {x : Float}

theorem inRange_iff_abs_value_le (hx : x.isFinite = true) : InRange x ↔ |Binary64.value x| ≤ 1 := by
  have hneg : (-1.0 : Float).isFinite = true := rfl
  rw [InRange, le_iff_value_le hneg hx, le_iff_value_le hx rfl, value_neg, value_one, abs_le]

theorem isFinite_of_inRange (h : InRange x) : x.isFinite = true := by
  rcases finite_or_infinity (isNaN_of_le h.1).2 with hfinite | ⟨s, hs⟩
  · exact hfinite
  · have hs : parts x = .infinity s := hs
    obtain ⟨hlow, hhigh⟩ := h
    rw [le_iff_compare, hs] at hlow hhigh
    cases s
    · exact absurd hlow (by decide)
    · exact absurd hhigh (by decide)

theorem abs_value_le_of_inRange (h : InRange x) : |Binary64.value x| ≤ 1 :=
  (inRange_iff_abs_value_le (isFinite_of_inRange h)).mp h

/-! ## The offset -/

section
variable (hx : x.isFinite = true)
include hx

theorem value_offset_of_misplaced (h : Misplaced x) :
    (offset x).isFinite = true ∧ Binary64.value (offset x) = -1 := by
  obtain ⟨n, hn, hodd, hlow, hhigh⟩ := h
  obtain ⟨hoffset, hvalue⟩ := value_offset_whole hx hn hlow.le
  rw [if_pos hhigh, Int.odd_iff.mp hodd] at hvalue
  exact ⟨hoffset, by rw [hvalue]; rfl⟩

theorem abs_value_offset_le (h : ¬ Misplaced x) :
    (offset x).isFinite = true ∧ |Binary64.value (offset x)| ≤ 1 / 2 := by
  rcases lt_or_ge |Binary64.value x| (2 ^ 52) with hlt | hge
  · by_cases hne : Binary64.value x = 1 / 2 - 1 / 2 ^ 54
    · obtain ⟨hoffset, hvalue⟩ := value_offset_before_half hx hne
      exact ⟨hoffset, by rw [hvalue]; norm_num⟩
    · obtain ⟨hoffset, hvalue⟩ := value_offset hx hlt hne
      have hlow := Int.floor_le (Binary64.value x + 1 / 2)
      have hhigh := Int.lt_floor_add_one (Binary64.value x + 1 / 2)
      refine ⟨hoffset, ?_⟩
      rw [hvalue, abs_le]
      constructor <;> linarith
  · obtain ⟨n, hn⟩ := exists_whole hx hge
    have hge : 2 ^ 52 ≤ |n| := by
      rw [hn] at hge
      exact_mod_cast hge
    obtain ⟨hoffset, hvalue⟩ := value_offset_whole hx hn hge
    refine ⟨hoffset, ?_⟩
    have hzero : (if |n| < 2 ^ 53 then n % 2 else 0) = 0 := by
      split
      · next hlt =>
        by_contra hodd
        have hodd : n % 2 = 1 := by omega
        refine h ⟨n, hn, Int.odd_iff.mpr hodd, lt_of_le_of_ne hge fun heq => ?_, hlt⟩
        rcases abs_choice n with habs | habs <;> omega
      · rfl
    rw [hvalue, hzero]
    norm_num

end

/-! ## The waveforms -/

def Regular (w : Waveform) (cycles : Float) : Prop :=
  match w with
  | sine => (turn * cycles).isFinite = true
  | square => True
  | sawtooth | triangle => ¬ Misplaced cycles

section
variable {cycles : Float} (hcycles : cycles.isFinite = true)
include hcycles

theorem value_of_misplaced (h : Misplaced cycles) :
    Binary64.value (sawtooth.value cycles) = -2 ∧ Binary64.value (triangle.value cycles) = 3 := by
  obtain ⟨hoffset, hvalue⟩ := value_offset_of_misplaced hcycles h
  have hle : |Binary64.value (offset cycles)| ≤ 1 := by
    rw [hvalue]
    norm_num
  have hthree : IsDouble ((3 : ℤ) : ℚ) := isDouble_intCast (by decide)
  rw [(value_sawtooth hoffset hle).2, (value_triangle hoffset hle).2, hvalue]
  norm_num
  exact_mod_cast rounded_of_isDouble hthree

theorem not_inRange_of_misplaced (h : Misplaced cycles) :
    ¬ InRange (sawtooth.value cycles) ∧ ¬ InRange (triangle.value cycles) := by
  obtain ⟨hsawtooth, htriangle⟩ := value_of_misplaced hcycles h
  constructor
  · intro hrange
    have hle := abs_value_le_of_inRange hrange
    rw [hsawtooth] at hle
    norm_num at hle
  · intro hrange
    have hle := abs_value_le_of_inRange hrange
    rw [htriangle] at hle
    norm_num at hle

theorem inRange_of_not_misplaced (h : ¬ Misplaced cycles) :
    InRange (sawtooth.value cycles) ∧ InRange (triangle.value cycles) := by
  obtain ⟨hoffset, hhalf⟩ := abs_value_offset_le hcycles h
  have hle : |Binary64.value (offset cycles)| ≤ 1 := by linarith
  obtain ⟨hsawtooth, hsawtoothValue⟩ := value_sawtooth hoffset hle
  obtain ⟨htriangle, htriangleValue⟩ := value_triangle hoffset hle
  have hnonneg := abs_nonneg (Binary64.value (offset cycles))
  rw [inRange_iff_abs_value_le hsawtooth, inRange_iff_abs_value_le htriangle, hsawtoothValue,
    htriangleValue]
  constructor
  · rw [abs_mul, abs_two]
    linarith
  · exact abs_le.mpr ⟨le_rounded (by linarith) isDouble_one.neg, rounded_le (by linarith) isDouble_one⟩

/-- A waveform is in range where it is regular, whatever the sine is elsewhere. -/
theorem inRange_of_regular {sin : Float → Float}
    (hsin : ∀ x : Float, x.isFinite = true → InRange (sin x)) {w : Waveform}
    (h : w.Regular cycles) : InRange (w.shape sin cycles) := by
  cases w with
  | sine => exact hsin _ h
  | square =>
    show InRange (if 0.0 ≤ sin (turn * cycles) then 1.0 else -1.0)
    split <;> decide
  | sawtooth => exact (inRange_of_not_misplaced hcycles h).1
  | triangle => exact (inRange_of_not_misplaced hcycles h).2

/-- It leaves the range elsewhere, if the sine is not a number where its argument is not finite. -/
theorem regular_of_inRange {sin : Float → Float}
    (hsin : ∀ x : Float, x.isFinite = false → (sin x).isNaN = true) {w : Waveform}
    (h : InRange (w.shape sin cycles)) : w.Regular cycles := by
  cases w with
  | sine =>
    by_contra hnot
    have hnan := hsin _ (Bool.eq_false_iff.mpr hnot)
    have hnumber := isNaN_of_isFinite (isFinite_of_inRange h)
    exact absurd (hnumber.symm.trans hnan) (by decide)
  | square => trivial
  | sawtooth => exact fun hmisplaced => (not_inRange_of_misplaced hcycles hmisplaced).1 h
  | triangle => exact fun hmisplaced => (not_inRange_of_misplaced hcycles hmisplaced).2 h

end

end Waveform

/-! ## Amplitudes -/

namespace Tone

open Waveform (InRange)

def cycles (t : Tone) (i : Nat) : Float :=
  t.frequency * (ofCount i / t.sampleRate.toFloat)

def sampleWith (sin : Float → Float) (t : Tone) (i : Nat) : Float :=
  t.amplitude * t.waveform.shape sin (t.cycles i)

theorem sampleAt_eq_sampleWith : sampleAt = sampleWith Float.sin := by
  funext t i
  rw [sampleWith, ← Waveform.value_eq_shape]
  rfl

theorem abs_value_mul_le {x y : Float} (hx : x.isFinite = true) (hy : InRange y) :
    (x * y).isFinite = true ∧ |Binary64.value (x * y)| ≤ |Binary64.value x| := by
  have hfinite := Waveform.isFinite_of_inRange hy
  have hle := Waveform.abs_value_le_of_inRange hy
  have hdouble : IsDouble |Binary64.value x| := by
    rw [← value_abs]
    exact isDouble_value ((isFinite_abs x).trans hx)
  have hproduct : |Binary64.value x * Binary64.value y| ≤ |Binary64.value x| := by
    rw [abs_mul]
    exact mul_le_of_le_one_right (abs_nonneg _) hle
  obtain ⟨hlow, hhigh⟩ := abs_le.mp hproduct
  obtain ⟨hmul, -, hbelow, habove⟩ := (rounds_mul hx hfinite).between hlow hhigh hdouble.neg hdouble
  exact ⟨hmul, abs_le.mpr ⟨hbelow, habove⟩⟩

end Tone

namespace Waveform

/--
With a sine that is in range at finite arguments, a waveform is in range wherever it is regular, and
there a tone is no louder than its amplitude. Elsewhere it is out of range: the sine where a turn
times the number of periods overflows, the sawtooth and the triangle at the odd whole numbers between
`2^52` and `2^53`, where they are -2 and 3.
-/
theorem inRange_iff_regular {sin : Float → Float}
    (hsin : ∀ x : Float, x.isFinite = true → InRange (sin x)) {cycles : Float}
    (hcycles : cycles.isFinite = true) :
    (value = shape Float.sin ∧ Tone.sampleAt = Tone.sampleWith Float.sin) ∧
    (∀ w : Waveform, w.Regular cycles → InRange (w.shape sin cycles)) ∧
    ((∀ x : Float, x.isFinite = false → (sin x).isNaN = true) →
      ∀ w : Waveform, InRange (w.shape sin cycles) → w.Regular cycles) ∧
    (Misplaced cycles →
      Binary64.value (sawtooth.value cycles) = -2 ∧ Binary64.value (triangle.value cycles) = 3) ∧
    ∀ (t : Tone) i, t.amplitude.isFinite = true → t.cycles i = cycles → t.waveform.Regular cycles →
      |Binary64.value (t.sampleWith sin i)| ≤ |Binary64.value t.amplitude| := by
  refine ⟨⟨funext value_eq_shape, Tone.sampleAt_eq_sampleWith⟩, fun w => inRange_of_regular hcycles hsin,
    fun hnan w => regular_of_inRange hcycles hnan, value_of_misplaced hcycles, ?_⟩
  rintro t i hamplitude rfl hregular
  exact (Tone.abs_value_mul_le hamplitude (inRange_of_regular hcycles hsin hregular)).2

/-- A sine that is right at one point, a turn times `2^52 + 1`. -/
def steadySine (x : Float) : Float :=
  if x.isFinite then 0.5759378564016665 else 0.0 / 0.0

/-- At `2^52 + 1` periods the sine and the square are in range, the sawtooth and the triangle are not. -/
theorem inRange_iff_regular_misplaced :
    (∀ x : Float, x.isFinite = true → InRange (steadySine x)) ∧
    (4503599627370497.0 : Float).isFinite = true ∧ Misplaced 4503599627370497.0 ∧
    InRange (sine.shape steadySine 4503599627370497.0) ∧
    InRange (square.shape steadySine 4503599627370497.0) ∧
    (Binary64.value (sawtooth.value 4503599627370497.0) = -2 ∧
      Binary64.value (triangle.value 4503599627370497.0) = 3) ∧
    Tone.cycles ⟨.sine, 4503599627370497.0, 0.0625, 44100⟩ 44100 = 4503599627370497.0 ∧
    |Binary64.value (Tone.sampleWith steadySine ⟨.sine, 4503599627370497.0, 0.0625, 44100⟩ 44100)| ≤
      |Binary64.value 0.0625| := by
  have hsin : ∀ x : Float, x.isFinite = true → InRange (steadySine x) := by
    intro x hx
    rw [steadySine, if_pos hx]
    decide +kernel
  have hfinite : (4503599627370497.0 : Float).isFinite = true := by decide +kernel
  have hmisplaced : Misplaced 4503599627370497.0 := by
    have hparts : parts 4503599627370497.0 =
        .finite .positive (2 ^ 52 + 1) 0 (by decide) := rfl
    refine ⟨2 ^ 52 + 1, ?_, by decide, by decide, by decide⟩
    rw [Binary64.value, hparts, number_positive]
    norm_num
  have hturn : (turn * 4503599627370497.0).isFinite = true := by decide +kernel
  have hcycles : Tone.cycles ⟨.sine, 4503599627370497.0, 0.0625, 44100⟩ 44100 = 4503599627370497.0 := by
    decide +kernel
  obtain ⟨-, hregular, -, hvalues, hquiet⟩ := inRange_iff_regular hsin hfinite
  exact ⟨hsin, hfinite, hmisplaced, hregular sine hturn, hregular square trivial,
    hvalues hmisplaced, hcycles, hquiet ⟨.sine, _, 0.0625, _⟩ _ (by decide +kernel) hcycles hturn⟩

/--
One note of an accepted score, a sawtooth in the 48th octave, is twice as loud as its amplitude after
a second.
-/
theorem not_inRange_of_high_pitch :
    (¬ ∀ (w : Waveform) (cycles : Float), cycles.isFinite = true → InRange (w.value cycles)) ∧
    ∃ score, Score.read "60\n0 32 D48 1.0 A" = .ok score ∧ ∃ note ∈ score.notes,
      ∃ span, Mixer.span? ⟨44100, 0.0625⟩ note score.bpm = some span ∧ 44100 < span.length ∧
        (Mixer.tone ⟨44100, 0.0625⟩ note).amplitude <
          ((Mixer.tone ⟨44100, 0.0625⟩ note).sampleAt 44100).abs := by
  constructor
  · intro h
    exact absurd (h sawtooth 4503599627370497.0 (by decide +kernel)) (by decide +kernel)
  · have hloud : (Score.read "60\n0 32 D48 1.0 A").toOption.any (fun score =>
        score.notes.any fun note =>
          (Mixer.span? ⟨44100, 0.0625⟩ note score.bpm).any (fun span => decide (44100 < span.length)) &&
            decide ((Mixer.tone ⟨44100, 0.0625⟩ note).amplitude <
              ((Mixer.tone ⟨44100, 0.0625⟩ note).sampleAt 44100).abs)) = true := by
      decide +kernel
    cases hread : Score.read "60\n0 32 D48 1.0 A" with
    | error fault =>
      rw [hread] at hloud
      cases hloud
    | ok score =>
      rw [hread] at hloud
      obtain ⟨note, hnote, hboth⟩ := List.any_eq_true.mp hloud
      rw [Bool.and_eq_true, Option.any_eq_true] at hboth
      obtain ⟨⟨span, hspan, hlength⟩, hlt⟩ := hboth
      exact ⟨score, rfl, note, hnote, span, hspan, of_decide_eq_true hlength, of_decide_eq_true hlt⟩

end Waveform

end ToneScore
