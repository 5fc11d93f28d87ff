import ToneScore.Proofs.Waveform.Offset

/-!
# The accuracy of straight lines

The triangle is a line in the distance from the nearest whole number of periods (`distance`), and the
sawtooth is a line in the number of periods itself, up to whole periods. Below `2^52` periods their
values are within `2^-52` of these lines however many periods have passed (`triangle_sawtooth_close`):
the offset is exact, so the only errors are that of the last subtraction, at most `2^-53`, and that of
the last double below a half, whose offset is half a unit of the last place off.
-/

namespace ToneScore.Waveform

open Binary64 hiding round round_eq value

/-- How far `q` is from the nearest whole number. -/
def distance (q : ℚ) : ℚ := |q - round q|

theorem distance_eq (q : ℚ) : distance q = |q - ⌊q + 1 / 2⌋| := by
  rw [distance, round_eq]

theorem isLeast_distance (q : ℚ) : IsLeast (Set.range fun n : ℤ => |q - n|) (distance q) :=
  ⟨⟨round q, rfl⟩, by rintro _ ⟨n, rfl⟩; exact round_le q n⟩

theorem distance_le_half (q : ℚ) : distance q ≤ 1 / 2 := abs_sub_round q

theorem distance_before_half {q : ℚ} (h : q = 1 / 2 - 1 / 2 ^ 54) : distance q = q := by
  have hfloor : ⌊q + 1 / 2⌋ = 0 := by
    rw [h]
    norm_num
  rw [distance_eq, hfloor, Int.cast_zero, sub_zero, abs_of_pos]
  rw [h]
  norm_num

section
variable {x : Float} (hx : x.isFinite = true)
include hx

section
variable (h : |Binary64.value x| < 2 ^ 52) (hne : Binary64.value x ≠ 1 / 2 - 1 / 2 ^ 54)
include h hne

theorem triangle_close : (triangle.value x).isFinite = true ∧
    |Binary64.value (triangle.value x) - (4 * distance (Binary64.value x) - 1)| ≤ 1 / 2 ^ 52 := by
  obtain ⟨hoffset, hvalue⟩ := value_offset hx h hne
  have hdistance : |Binary64.value (offset x)| = distance (Binary64.value x) := by
    rw [hvalue, distance_eq]
  have hhalf := distance_le_half (Binary64.value x)
  have hnonneg : 0 ≤ distance (Binary64.value x) := abs_nonneg _
  obtain ⟨hfinite, htriangle⟩ := value_triangle hoffset (by rw [hdistance]; linarith)
  refine ⟨hfinite, ?_⟩
  rw [htriangle, hdistance]
  refine (abs_rounded_sub_le_of_abs_le_one ?_).trans (by norm_num)
  rw [abs_le]
  constructor <;> linarith

theorem sawtooth_close : (sawtooth.value x).isFinite = true ∧
    ∃ k : ℤ, Binary64.value (sawtooth.value x) - 2 * Binary64.value x = 2 * k := by
  obtain ⟨hoffset, hvalue⟩ := value_offset hx h hne
  have hhalf := distance_le_half (Binary64.value x)
  rw [distance_eq, ← hvalue] at hhalf
  obtain ⟨hfinite, hsawtooth⟩ := value_sawtooth hoffset (by linarith)
  refine ⟨hfinite, -⌊Binary64.value x + 1 / 2⌋, ?_⟩
  rw [hsawtooth, hvalue]
  push_cast
  ring

end

section
variable (h : Binary64.value x = 1 / 2 - 1 / 2 ^ 54)
include h

/-- The last double below a half is taken for a half. -/
theorem triangle_before_half :
    (triangle.value x).isFinite = true ∧ Binary64.value (triangle.value x) = 1 := by
  obtain ⟨hoffset, hvalue⟩ := value_offset_before_half hx h
  obtain ⟨hfinite, htriangle⟩ := value_triangle hoffset (by rw [hvalue]; norm_num)
  refine ⟨hfinite, ?_⟩
  rw [htriangle, hvalue]
  norm_num
  exact rounded_of_isDouble isDouble_one

theorem sawtooth_before_half :
    (sawtooth.value x).isFinite = true ∧ Binary64.value (sawtooth.value x) = -1 := by
  obtain ⟨hoffset, hvalue⟩ := value_offset_before_half hx h
  obtain ⟨hfinite, hsawtooth⟩ := value_sawtooth hoffset (by rw [hvalue]; norm_num)
  exact ⟨hfinite, by rw [hsawtooth, hvalue]; norm_num⟩

end

end

/--
Phase errors do not build up. Below `2^52` periods, wherever they are, the triangle is within `2^-52`
of four times the distance from the nearest whole number, less 1, and the sawtooth is as close to
twice the number of periods on the line of some period.
-/
theorem triangle_sawtooth_close {cycles : Float} (h : cycles.abs < wholeFrom) :
    (triangle.value cycles).isFinite = true ∧ (sawtooth.value cycles).isFinite = true ∧
    |Binary64.value (triangle.value cycles) - (4 * distance (Binary64.value cycles) - 1)| ≤
      1 / 2 ^ 52 ∧
    ∃ k : ℤ, |Binary64.value (sawtooth.value cycles) - 2 * Binary64.value cycles - 2 * k| ≤
      1 / 2 ^ 52 := by
  have hx := isFinite_of_abs_lt h
  have hlt := (abs_lt_wholeFrom_iff hx).mp h
  by_cases hne : Binary64.value cycles = 1 / 2 - 1 / 2 ^ 54
  · obtain ⟨htriangle, hpeak⟩ := triangle_before_half hx hne
    obtain ⟨hsawtooth, hstep⟩ := sawtooth_before_half hx hne
    refine ⟨htriangle, hsawtooth, ?_, -1, ?_⟩
    · rw [hpeak, distance_before_half hne, hne]
      norm_num
    · rw [hstep, hne]
      norm_num
  · obtain ⟨htriangle, hclose⟩ := triangle_close hx hlt hne
    obtain ⟨hsawtooth, k, hk⟩ := sawtooth_close hx hlt hne
    refine ⟨htriangle, hsawtooth, hclose, k, ?_⟩
    rw [hk, sub_self, abs_zero]
    positivity

/-- The last double below a half is taken for the peak, as far from the line as it can be. -/
theorem triangle_sawtooth_close_before_half :
    (0.49999999999999994 : Float).abs < wholeFrom ∧
    Binary64.value (triangle.value 0.49999999999999994) -
      (4 * distance (Binary64.value 0.49999999999999994) - 1) = 1 / 2 ^ 52 ∧
    |Binary64.value (triangle.value 0.49999999999999994) -
      (4 * distance (Binary64.value 0.49999999999999994) - 1)| ≤ 1 / 2 ^ 52 := by
  have h : (0.49999999999999994 : Float).abs < wholeFrom := by decide +kernel
  have hparts : parts 0.49999999999999994 =
      .finite .positive (2 ^ 53 - 1) (-54) (by decide) := rfl
  have hvalue : Binary64.value 0.49999999999999994 = 1 / 2 - 1 / 2 ^ 54 := by
    rw [Binary64.value, hparts, number_positive]
    norm_num
  refine ⟨h, ?_, (triangle_sawtooth_close h).2.2.1⟩
  rw [(triangle_before_half rfl hvalue).2, distance_before_half hvalue, hvalue]
  norm_num

end ToneScore.Waveform
