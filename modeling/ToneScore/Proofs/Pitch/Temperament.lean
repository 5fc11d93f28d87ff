import ToneScore.Proofs.Pitch.Tuning

/-!
# Equal temperament

Twelve equal steps make an octave: with `semitone = 2^(1/12)`, the ratio of `r` semitones is
`semitone ^ r`. Ratios that are within a unit in the last place of these (`Tempered`) grow by at
least a twentieth from one semitone to the next, and from the eleventh to the next octave
(`Tempered.step`, `Tempered.wrap`). The ratios in use are such (`tempered_semitoneRatio`).
-/

namespace ToneScore.Pitch

open Binary64

/-- The ratio of a semitone. -/
noncomputable def semitone : ℝ := 2 ^ ((1 : ℝ) / 12)

/-- The ratios are within a unit in the last place of the powers of two that they stand for. -/
def Tempered (ratio : Nat → Float) : Prop :=
  ∀ r < 12, (ratio r).isFinite = true ∧
    |(value (ratio r) : ℝ) - 2 ^ ((r : ℝ) / 12)| ≤ 2 ^ (-52 : ℤ)

theorem semitone_pow (r : Nat) : semitone ^ r = 2 ^ ((r : ℝ) / 12) := by
  rw [semitone, ← Real.rpow_natCast, ← Real.rpow_mul (by norm_num)]
  congr 1
  ring

theorem semitone_pow_twelve : semitone ^ 12 = 2 := by
  rw [semitone_pow]
  norm_num

theorem semitone_pos : 0 < semitone := Real.rpow_pos_of_pos two_pos _

theorem semitone_bounds : 1.059 ≤ semitone ∧ semitone ≤ 1.06 := by
  have hpos := semitone_pos
  constructor
  · rw [← pow_le_pow_iff_left₀ (by norm_num) hpos.le (by decide : 12 ≠ 0), semitone_pow_twelve]
    norm_num
  · rw [← pow_le_pow_iff_left₀ hpos.le (by norm_num) (by decide : 12 ≠ 0), semitone_pow_twelve]
    norm_num

/-! ## Ratios within a unit in the last place -/

namespace Tempered

variable {ratio : Nat → Float} (h : Tempered ratio)
include h

theorem close {r : Nat} (hr : r < 12) : semitone ^ r - 1 / 1000000 ≤ (value (ratio r) : ℝ) ∧
    (value (ratio r) : ℝ) ≤ semitone ^ r + 1 / 1000000 := by
  have hclose := (h r hr).2
  rw [← semitone_pow] at hclose
  obtain ⟨hlow, hhigh⟩ := abs_le.mp hclose
  norm_num at hlow hhigh
  constructor <;> linarith

theorem low {r : Nat} (hr : r < 12) : 99 / 100 ≤ value (ratio r) := by
  have hone : 1 ≤ semitone ^ r := one_le_pow₀ (by linarith [semitone_bounds.1])
  have hlow := (h.close hr).1
  have : ((99 / 100 : ℚ) : ℝ) ≤ value (ratio r) := by
    push_cast
    linarith
  exact_mod_cast this

theorem moderate : Moderate ratio :=
  fun r hr => ⟨(h r hr).1, by linarith [h.low hr]⟩

/-- A semitone more is a twentieth more. -/
theorem step {r : Nat} (hr : r + 1 < 12) : 21 / 20 * value (ratio r) ≤ value (ratio (r + 1)) := by
  have hone : 1 ≤ semitone ^ r := one_le_pow₀ (by linarith [semitone_bounds.1])
  have hnext := (h.close hr).1
  have hhigh := (h.close (show r < 12 by omega)).2
  have hstep : 1.059 * semitone ^ r ≤ semitone ^ (r + 1) := by
    rw [pow_succ']
    gcongr
    exact semitone_bounds.1
  have : ((21 / 20 : ℚ) : ℝ) * value (ratio r) ≤ value (ratio (r + 1)) := by
    push_cast
    linarith
  exact_mod_cast this

/-- So it is where an octave ends and the next one begins. -/
theorem wrap : 21 / 20 * value (ratio 11) ≤ 2 * value (ratio 0) := by
  have hlow := (h.close (show 0 < 12 by decide)).1
  have hhigh := (h.close (show 11 < 12 by decide)).2
  have hone : 1 ≤ semitone ^ 11 := one_le_pow₀ (by linarith [semitone_bounds.1])
  have hstep : 1.059 * semitone ^ 11 ≤ 2 := by
    rw [← semitone_pow_twelve, pow_succ' semitone 11]
    gcongr
    exact semitone_bounds.1
  rw [pow_zero] at hlow
  have : ((21 / 20 : ℚ) : ℝ) * value (ratio 11) ≤ ((2 : ℚ) : ℝ) * value (ratio 0) := by
    push_cast
    linarith
  exact_mod_cast this

theorem ratio_two_le : value (ratio 2) ≤ 113 / 100 := by
  have hhigh := (h.close (show 2 < 12 by decide)).2
  have hpow : semitone ^ 2 ≤ 1.06 ^ 2 := pow_le_pow_left₀ semitone_pos.le semitone_bounds.2 2
  have : (value (ratio 2) : ℝ) ≤ ((113 / 100 : ℚ) : ℝ) := by
    push_cast
    norm_num at hpow
    linarith
  exact_mod_cast this

theorem le_ratio_three : 118 / 100 ≤ value (ratio 3) := by
  have hlow := (h.close (show 3 < 12 by decide)).1
  have hpow : 1.059 ^ 3 ≤ semitone ^ 3 := pow_le_pow_left₀ (by norm_num) semitone_bounds.1 3
  have : ((118 / 100 : ℚ) : ℝ) ≤ value (ratio 3) := by
    push_cast
    norm_num at hpow
    linarith
  exact_mod_cast this

end Tempered

/-! ## The ratios in use -/

def ratioSignificands : List Nat :=
  [4503599627370496, 4771397596969315, 5055119662503616, 5355712719992597, 5674179970822795,
    6011584269839454, 6369051672525773, 6747775193108400, 7149018786131516, 7574121564787629,
    8024502270083369, 8501664005755715]

theorem value_semitoneRatio {r : Nat} (hr : r < 12) : (semitoneRatio r).isFinite = true ∧
    value (semitoneRatio r) = ratioSignificands.getD r 0 / 2 ^ 52 := by
  have hparts : ∃ hm, parts (semitoneRatio r) =
      .finite .positive (ratioSignificands.getD r 0) (-52) hm := by
    interval_cases r <;> exact ⟨by decide, rfl⟩
  obtain ⟨hm, hparts⟩ := hparts
  constructor
  · show (parts _).isFinite = true
    rw [hparts]
    rfl
  · rw [value, hparts, number_positive, zpow_neg]
    rfl

/-- No significand is more than 1 from the twelfth root of its power of two. -/
theorem ratioSignificands_pow {r : Nat} (hr : r < 12) :
    0 < ratioSignificands.getD r 0 ∧
      (ratioSignificands.getD r 0 - 1) ^ 12 ≤ 2 ^ r * (2 ^ 52) ^ 12 ∧
      2 ^ r * (2 ^ 52) ^ 12 ≤ (ratioSignificands.getD r 0 + 1) ^ 12 := by
  have h : ∀ r < 12, 0 < ratioSignificands.getD r 0 ∧
      (ratioSignificands.getD r 0 - 1) ^ 12 ≤ 2 ^ r * (2 ^ 52) ^ 12 ∧
      2 ^ r * (2 ^ 52) ^ 12 ≤ (ratioSignificands.getD r 0 + 1) ^ 12 := by decide +kernel
  exact h r hr

theorem tempered_semitoneRatio : Tempered semitoneRatio := by
  intro r hr
  obtain ⟨hfinite, hvalue⟩ := value_semitoneRatio hr
  obtain ⟨hm, hlow, hhigh⟩ := ratioSignificands_pow hr
  refine ⟨hfinite, ?_⟩
  rw [hvalue, ← semitone_pow]
  generalize ratioSignificands.getD r 0 = m at *
  have hpos := semitone_pos
  -- Both bounds are compared after raising to the twelfth power.
  have hroot : (semitone ^ r * 2 ^ 52) ^ 12 = ((2 ^ r * (2 ^ 52) ^ 12 : Nat) : ℝ) := by
    rw [mul_pow, ← pow_mul, mul_comm r 12, pow_mul, semitone_pow_twelve]
    push_cast
    ring
  have hbelow : (m : ℝ) - 1 ≤ semitone ^ r * 2 ^ 52 := by
    rw [← Nat.cast_pred hm, ← pow_le_pow_iff_left₀ (by positivity) (by positivity)
      (by decide : 12 ≠ 0), hroot]
    exact_mod_cast hlow
  have habove : semitone ^ r * 2 ^ 52 ≤ (m : ℝ) + 1 := by
    rw [← Nat.cast_succ, ← pow_le_pow_iff_left₀ (by positivity) (by positivity)
      (by decide : 12 ≠ 0), hroot]
    exact_mod_cast hhigh
  push_cast
  rw [abs_le]
  norm_num
  constructor <;> linarith

end ToneScore.Pitch
