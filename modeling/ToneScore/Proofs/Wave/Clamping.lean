import ToneScore.Proofs.Binary64.Nearest
import ToneScore.Proofs.Binary64.Scaling
import ToneScore.Wave.Format
import ToneScore.Wave.Quantize

/-!
# The code of a sample

The product of a sample and the full scale is exact, or so large that it counts as an infinity. So
the code of a finite sample is the whole number nearest to the exact product, held inside the range
of codes (`quantize_of_isFinite`). Past full scale a sample has the code at that end of the range,
infinite or not (`quantize_of_one_lt`, `quantize_of_lt_neg_one`), and up to full scale its code is
close to the exact product (`abs_quantize_sub_le`). NaN has the code 0.
-/

namespace ToneScore.Wave

open Binary64

/-! ## The range of codes -/

theorem codeBits_sub_one_lt (bits : UInt16) : codeBits bits - 1 < 32 := by
  unfold codeBits
  omega

theorem codeBits_eq {bits : UInt16} (h : bits ∈ [8, 16, 24, 32]) : codeBits bits = bits.toNat := by
  obtain ⟨width, hpos, hle, hbits⟩ := Format.bits_eq_mul h
  unfold codeBits
  omega

theorem two_pow_code_bounds (bits : UInt16) :
    (0 : ℤ) < 2 ^ (codeBits bits - 1) ∧ (2 : ℤ) ^ (codeBits bits - 1) ≤ 2 ^ 31 := by
  have hk := codeBits_sub_one_lt bits
  exact ⟨by positivity, pow_le_pow_right₀ (by decide) (by omega)⟩

/-- A whole number held inside the range of codes. -/
def clamp (bits : UInt16) (n : ℤ) : ℤ :=
  max (-2 ^ (codeBits bits - 1)) (min n (2 ^ (codeBits bits - 1) - 1))

section
variable {bits : UInt16} {n : ℤ}

theorem clamp_mem (bits : UInt16) (n : ℤ) :
    -2 ^ (codeBits bits - 1) ≤ clamp bits n ∧ clamp bits n ≤ 2 ^ (codeBits bits - 1) - 1 := by
  have hbounds := two_pow_code_bounds bits
  unfold clamp
  omega

theorem clamp_of_le (h : n ≤ -2 ^ (codeBits bits - 1)) :
    clamp bits n = -2 ^ (codeBits bits - 1) := by
  have hbounds := two_pow_code_bounds bits
  unfold clamp
  omega

theorem clamp_of_ge (h : 2 ^ (codeBits bits - 1) - 1 ≤ n) :
    clamp bits n = 2 ^ (codeBits bits - 1) - 1 := by
  have hbounds := two_pow_code_bounds bits
  unfold clamp
  omega

theorem clamp_of_mem (hl : -2 ^ (codeBits bits - 1) ≤ n) (hh : n ≤ 2 ^ (codeBits bits - 1) - 1) :
    clamp bits n = n := by
  unfold clamp
  omega

end

/-! ## The limits as doubles -/

section
variable (bits : UInt16)

theorem value_fullScale :
    (fullScale bits).isFinite = true ∧ value (fullScale bits) = 2 ^ (codeBits bits - 1) := by
  have hlt : 2 ^ (codeBits bits - 1) < 2 ^ 53 :=
    Nat.pow_lt_pow_right (by decide) (by have := codeBits_sub_one_lt bits; omega)
  obtain ⟨hfinite, hvalue⟩ := value_ofCount hlt
  exact ⟨hfinite, hvalue.trans (by push_cast; rfl)⟩

theorem value_lowest : (-fullScale bits).isFinite = true ∧
    value (-fullScale bits) = ((-2 ^ (codeBits bits - 1) : ℤ) : ℚ) := by
  obtain ⟨hfinite, hvalue⟩ := value_fullScale bits
  rw [isFinite_neg, value_neg, hvalue]
  exact ⟨hfinite, by push_cast; rfl⟩

theorem value_highest : (fullScale bits - 1.0).isFinite = true ∧
    value (fullScale bits - 1.0) = ((2 ^ (codeBits bits - 1) - 1 : ℤ) : ℚ) := by
  obtain ⟨hfinite, hvalue⟩ := value_fullScale bits
  have hbounds := two_pow_code_bounds bits
  have hdifference : value (fullScale bits) - value 1.0 =
      ((2 ^ (codeBits bits - 1) - 1 : ℤ) : ℚ) := by
    rw [hvalue, value_one]
    push_cast
    rfl
  have hdouble := hdifference ▸ isDouble_intCast (n := 2 ^ (codeBits bits - 1) - 1) (by omega)
  rw [← hdifference]
  exact value_sub_of_exact hfinite rfl hdouble

theorem toInt_lowest : toInt (-fullScale bits) = -2 ^ (codeBits bits - 1) := by
  obtain ⟨hfinite, hvalue⟩ := value_lowest bits
  have hbounds := two_pow_code_bounds bits
  exact toInt_of_value_eq hfinite hvalue (by omega) (by omega)

theorem toInt_highest : toInt (fullScale bits - 1.0) = 2 ^ (codeBits bits - 1) - 1 := by
  obtain ⟨hfinite, hvalue⟩ := value_highest bits
  have hbounds := two_pow_code_bounds bits
  exact toInt_of_value_eq hfinite hvalue (by omega) (by omega)

end

/-! ## Codes of products -/

variable {sample : Float} {bits : UInt16}

theorem quantize_of_value_round {n : ℤ} (hx : (round (sample * fullScale bits)).isFinite = true)
    (hv : value (round (sample * fullScale bits)) = n) : quantize sample bits = clamp bits n := by
  obtain ⟨hlowest, hvl⟩ := value_lowest bits
  obtain ⟨hhighest, hvh⟩ := value_highest bits
  have hbounds := two_pow_code_bounds bits
  have hlow : round (sample * fullScale bits) < -fullScale bits ↔ n < -2 ^ (codeBits bits - 1) := by
    rw [lt_iff_value_lt hx hlowest, hv, hvl]
    exact Int.cast_lt
  have hhigh : fullScale bits - 1.0 < round (sample * fullScale bits) ↔
      2 ^ (codeBits bits - 1) - 1 < n := by
    rw [lt_iff_value_lt hhighest hx, hv, hvh]
    exact Int.cast_lt
  unfold quantize
  simp only [isNaN_of_isFinite hx, hlow, hhigh]
  rw [if_neg (by decide), toInt_lowest, toInt_highest]
  split
  · next h => rw [clamp_of_le h.le]
  next hl =>
  split
  · next h => rw [clamp_of_ge h.le]
  next hh =>
  rw [clamp_of_mem (by omega) (by omega)]
  exact toInt_of_value_eq hx hv (by omega) (by omega)

theorem quantize_of_positive (h : parts (sample * fullScale bits) = .infinity .positive) :
    quantize sample bits = 2 ^ (codeBits bits - 1) - 1 := by
  have hlow := not_lt_of_lt (lt_of_parts_positive (value_lowest bits).1 h)
  have hhigh := lt_of_parts_positive (value_highest bits).1 h
  have hnan := (isNaN_of_lt hhigh).2
  unfold quantize
  simp only [round_of_infinity h, hnan]
  rw [if_neg (by decide), if_neg hlow, if_pos hhigh, toInt_highest]

theorem quantize_of_negative (h : parts (sample * fullScale bits) = .infinity .negative) :
    quantize sample bits = -2 ^ (codeBits bits - 1) := by
  have hlow := lt_of_parts_negative h (value_lowest bits).1
  have hnan := (isNaN_of_lt hlow).1
  unfold quantize
  simp only [round_of_infinity h, hnan]
  rw [if_neg (by decide), if_pos hlow, toInt_lowest]

/-! ## Codes of samples -/

theorem quantize_of_isNaN (h : sample.isNaN = true) : quantize sample bits = 0 := by
  have hproduct : (sample * fullScale bits).isNaN = true := isNaN_mul h
  unfold quantize
  simp only [round_of_isNaN hproduct, hproduct]
  exact if_pos trivial

theorem two_pow_code_le (bits : UInt16) : (2 : ℚ) ^ (codeBits bits - 1) ≤ 2 ^ (1024 : ℤ) := by
  have hk := codeBits_sub_one_lt bits
  rw [← zpow_natCast]
  exact zpow_le_zpow_right₀ one_le_two (by omega)

/-- The code of a finite sample has no rounding error but that of the nearest whole number. -/
theorem quantize_of_isFinite (hs : sample.isFinite = true) :
    quantize sample bits = clamp bits (nearest (value sample * 2 ^ (codeBits bits - 1))) := by
  have hk := codeBits_sub_one_lt bits
  have hle := two_pow_code_le bits
  obtain ⟨hscale, hscaleValue⟩ := value_fullScale bits
  rcases value_mul_two_pow hs hscale hscaleValue (by omega) with ⟨hfinite, hvalue⟩ | hover
  · obtain ⟨hround, hroundValue⟩ := value_round hfinite
    rw [hvalue] at hroundValue
    exact quantize_of_value_round hround hroundValue
  · cases hover with
    | positive h hq =>
      rw [quantize_of_positive h, clamp_of_ge (le_nearest _)]
      push_cast
      linarith
    | negative h hq =>
      rw [quantize_of_negative h, clamp_of_le (nearest_le _)]
      push_cast
      linarith

theorem quantize_of_one_lt (h : 1.0 < sample) : quantize sample bits = 2 ^ (codeBits bits - 1) - 1 := by
  obtain ⟨hscale, hscaleValue⟩ := value_fullScale bits
  have hpos : (0 : ℚ) < 2 ^ (codeBits bits - 1) := by positivity
  rcases finite_or_infinity (isNaN_of_lt h).2 with hfinite | ⟨s, hs⟩
  · have hvalue := (lt_iff_value_lt rfl hfinite).mp h
    rw [value_one] at hvalue
    rw [quantize_of_isFinite hfinite, clamp_of_ge (le_nearest _)]
    push_cast
    nlinarith
  · cases s with
    | positive => exact quantize_of_positive (parts_infinity_mul hs hscale (hscaleValue ▸ hpos))
    | negative => exact absurd h (not_lt_of_lt (lt_of_parts_negative hs rfl))

theorem quantize_of_lt_neg_one (h : sample < -1.0) :
    quantize sample bits = -2 ^ (codeBits bits - 1) := by
  obtain ⟨hscale, hscaleValue⟩ := value_fullScale bits
  have hpos : (0 : ℚ) < 2 ^ (codeBits bits - 1) := by positivity
  rcases finite_or_infinity (isNaN_of_lt h).1 with hfinite | ⟨s, hs⟩
  · have hvalue := (lt_iff_value_lt hfinite rfl).mp h
    rw [value_neg, value_one] at hvalue
    rw [quantize_of_isFinite hfinite, clamp_of_le (nearest_le _)]
    push_cast
    nlinarith
  · cases s with
    | positive => exact absurd h (not_lt_of_lt (lt_of_parts_positive rfl hs))
    | negative => exact quantize_of_negative (parts_infinity_mul hs hscale (hscaleValue ▸ hpos))

theorem quantize_mem (sample : Float) (bits : UInt16) :
    -2 ^ (codeBits bits - 1) ≤ quantize sample bits ∧
      quantize sample bits ≤ 2 ^ (codeBits bits - 1) - 1 := by
  have hbounds := two_pow_code_bounds bits
  by_cases hnan : sample.isNaN = true
  · rw [quantize_of_isNaN hnan]
    omega
  rcases finite_or_infinity (Bool.eq_false_iff.mpr hnan) with hfinite | ⟨s, hs⟩
  · rw [quantize_of_isFinite hfinite]
    exact clamp_mem bits _
  · cases s with
    | positive =>
      rw [quantize_of_one_lt (lt_of_parts_positive rfl hs)]
      omega
    | negative =>
      rw [quantize_of_lt_neg_one (lt_of_parts_negative hs rfl)]
      omega

/-- Up to full scale a code is off by at most 1, where full scale itself is one past the range. -/
theorem abs_quantize_sub_le (hs : sample.isFinite = true) (h : |value sample| ≤ 1) :
    |(quantize sample bits : ℚ) - value sample * 2 ^ (codeBits bits - 1)| ≤ 1 := by
  have hpos : (0 : ℚ) < 2 ^ (codeBits bits - 1) := by positivity
  obtain ⟨hl, hh⟩ := abs_le.mp h
  have hlow : ((-2 ^ (codeBits bits - 1) : ℤ) : ℚ) ≤ value sample * 2 ^ (codeBits bits - 1) := by
    push_cast
    nlinarith
  have hhigh : value sample * 2 ^ (codeBits bits - 1) ≤ ((2 ^ (codeBits bits - 1) : ℤ) : ℚ) := by
    push_cast
    nlinarith
  rw [quantize_of_isFinite hs]
  obtain ⟨hclose, hclose'⟩ := abs_le.mp (abs_nearest_sub_le (value sample * 2 ^ (codeBits bits - 1)))
  have hleast := le_nearest hlow
  have hgreatest := nearest_le hhigh
  generalize nearest (value sample * 2 ^ (codeBits bits - 1)) = n at *
  rcases hgreatest.lt_or_eq with hlt | rfl
  · rw [clamp_of_mem hleast (by omega), abs_le]
    constructor <;> linarith
  · rw [clamp_of_ge (by omega), abs_le]
    push_cast at hhigh hclose hclose' ⊢
    constructor <;> linarith

end ToneScore.Wave
