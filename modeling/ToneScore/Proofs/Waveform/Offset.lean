import ToneScore.Proofs.Binary64.Halves
import ToneScore.Proofs.Binary64.Nearest
import ToneScore.Waveform

/-!
# The offset from the nearest whole number

Below `2^52` periods the offset of `q` is exactly `q - ⌊q + 1/2⌋` (`value_offset`), with one exception,
the last double below a half (`value_offset_before_half`). From `2^52` on all doubles are whole, and
the offset is 0 unless the number is odd and below `2^53`: then the nearest whole number is taken to
be the next one, and the offset is -1 (`value_offset_whole`).
-/

namespace ToneScore.Waveform

open Binary64

variable {x : Float} (hx : x.isFinite = true)
include hx

/-- The offset, when it is known to which numbers the sum and the difference are rounded. -/
theorem value_offset_eq {n : ℤ} {d : ℚ} (hsum : |rounded (Binary64.value x + 1 / 2)| < 2 ^ (1024 : ℤ))
    (hfloor : ⌊rounded (Binary64.value x + 1 / 2)⌋ = n) (hd : rounded (Binary64.value x - n) = d)
    (hlt : |d| < 2 ^ (1024 : ℤ)) :
    (offset x).isFinite = true ∧ Binary64.value (offset x) = d := by
  have hhalf : Rounds (x + 0.5) (Binary64.value x + 1 / 2) := value_half ▸ rounds_add hx rfl
  obtain ⟨hadd, haddValue⟩ := hhalf.value_eq hsum
  obtain ⟨hwhole, hwholeValue⟩ := value_floor hadd
  have hsub := rounds_sub hx hwhole
  rw [hwholeValue, haddValue, hfloor] at hsub
  rw [← hd] at hlt ⊢
  exact hsub.value_eq hlt

theorem value_offset (h : |Binary64.value x| < 2 ^ 52)
    (hne : Binary64.value x ≠ 1 / 2 - 1 / 2 ^ 54) :
    (offset x).isFinite = true ∧
      Binary64.value (offset x) = Binary64.value x - ⌊Binary64.value x + 1 / 2⌋ := by
  have hpower : IsDouble (2 ^ 53) := isDouble_two_pow (by decide)
  obtain ⟨hlow, hhigh⟩ := abs_lt.mp h
  have hdouble := isDouble_sub_floor hx
  exact value_offset_eq hx (abs_rounded_lt (by linarith) (by linarith) hpower.neg hpower)
    (floor_rounded_add_half hx h hne) (rounded_of_isDouble hdouble) hdouble.abs_lt

theorem value_offset_before_half (h : Binary64.value x = 1 / 2 - 1 / 2 ^ 54) :
    (offset x).isFinite = true ∧ Binary64.value (offset x) = -1 / 2 := by
  have hsum := rounded_add_half_of_eq h
  refine value_offset_eq hx (n := 1) ?_ ?_ (by rw [Int.cast_one]; exact rounded_sub_one_of_eq h) ?_
  · rw [hsum]
    exact isDouble_one.abs_lt
  · rw [hsum, Int.floor_one]
  · exact lt_of_le_of_lt (by norm_num) isDouble_one.abs_lt

/-- A whole number is its own nearest one, but the next one is taken for odd numbers up to `2^53`. -/
theorem value_offset_whole {n : ℤ} (hn : Binary64.value x = n) (h : 2 ^ 52 ≤ |n|) :
    (offset x).isFinite = true ∧
      Binary64.value (offset x) = ((-if |n| < 2 ^ 53 then n % 2 else 0 : ℤ) : ℚ) := by
  have hfloor := floor_rounded_add_half_whole hx hn h
  have hbit : (if |n| < 2 ^ 53 then n % 2 else 0).natAbs ≤ 1 := by
    split <;> omega
  generalize (if |n| < 2 ^ 53 then n % 2 else 0) = bit at *
  rw [← hn] at hfloor
  have hdouble : IsDouble ((-bit : ℤ) : ℚ) := isDouble_intCast (by omega)
  refine value_offset_eq hx ?_ hfloor ?_ hdouble.abs_lt
  · rw [hn]
    rcases lt_or_ge |(n : ℚ) + 1 / 2| (2 ^ 53) with hlt | hge
    · have hpower : IsDouble (2 ^ 53) := isDouble_two_pow (by decide)
      exact abs_rounded_lt (abs_lt.mp hlt).1.le (abs_lt.mp hlt).2.le hpower.neg hpower
    · rw [rounded_add_half_of_le hx hn hge, ← hn]
      exact abs_value_lt hx
  · have hsub : Binary64.value x - (n + bit : ℤ) = (-bit : ℤ) := by
      rw [hn]
      push_cast
      ring
    rw [hsub, rounded_of_isDouble hdouble]

/-! ## Waveforms made of straight lines -/

omit hx

variable (hoffset : (offset x).isFinite = true) (hle : |Binary64.value (offset x)| ≤ 1)
include hoffset hle

theorem value_sawtooth : (sawtooth.value x).isFinite = true ∧
    Binary64.value (sawtooth.value x) = 2 * Binary64.value (offset x) := by
  have hdouble := isDouble_two_pow_mul (k := 1) hoffset hle (by decide)
  rw [pow_one, ← value_two] at hdouble
  have hmul := value_mul_of_exact rfl hoffset hdouble
  rw [value_two] at hmul
  exact hmul

theorem value_triangle : (triangle.value x).isFinite = true ∧
    Binary64.value (triangle.value x) = rounded (4 * |Binary64.value (offset x)| - 1) := by
  have habs : (offset x).abs.isFinite = true := (isFinite_abs _).trans hoffset
  have hdouble := isDouble_two_pow_mul (k := 2) habs (by rwa [value_abs, abs_abs]) (by decide)
  rw [← value_four] at hdouble
  obtain ⟨hmul, hmulValue⟩ := value_mul_of_exact rfl habs hdouble
  have hsub := rounds_sub hmul (y := 1.0) rfl
  rw [hmulValue, value_four, value_one, value_abs] at hsub
  have hpower : IsDouble (2 ^ 2) := isDouble_two_pow (by decide)
  have hnonneg := abs_nonneg (Binary64.value (offset x))
  obtain ⟨hfinite, hvalue, -⟩ := hsub.between (by linarith) (by linarith) hpower.neg hpower
  norm_num at hvalue
  exact ⟨hfinite, hvalue⟩

end ToneScore.Waveform
