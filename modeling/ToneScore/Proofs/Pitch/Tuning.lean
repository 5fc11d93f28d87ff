import ToneScore.Pitch
import ToneScore.Proofs.Binary64.Nearest
import ToneScore.Proofs.Binary64.Rounded

/-!
# The frequencies of semitone numbers

Powers of two by repeated squaring are exact up to `2^1023` and infinite from there on
(`isTwoPower_timesPower`), and a reciprocal is exact down to the subnormal `2^-1023` and 0 below
(`value_twoPower`, `parts_twoPower_of_le`). The reference frequency times a power of two is exact
too, so a frequency is rounded once, with the ratio of the semitones (`rounds_tuning`). Past the
ends the frequency is infinite or zero (`tuning_of_high`, `tuning_of_low`).
-/

namespace ToneScore.Pitch

open Binary64
open Float.Model (UnpackedFloat)
open Float.Model.UnpackedFloat

/-! ## Powers of two -/

/-- The double of `2^k`, an infinity from `2^1024` on. -/
inductive IsTwoPower (x : Float) (k : Nat) : Prop where
  | finite (hk : k < 1024) (hx : x.isFinite = true) (hv : value x = 2 ^ k)
  | infinite (hk : 1024 ≤ k) (h : parts x = .infinity .positive)

section
variable {x y : Float} {k l : Nat}

theorem two_pow_lt_iff : (2 : ℚ) ^ k < 2 ^ (1024 : ℤ) ↔ k < 1024 := by
  rw [← zpow_natCast, two_zpow_lt_iff]
  omega

theorem isTwoPower_mul_of_finite (hx : x.isFinite = true) (hxv : value x = 2 ^ k)
    (hy : y.isFinite = true) (hyv : value y = 2 ^ l) (hl : l < 1024) : IsTwoPower (x * y) (k + l) := by
  rcases value_mul_two_pow hx hy hyv (by omega) with ⟨hfinite, hvalue⟩ | hover
  · rw [hxv, ← pow_add] at hvalue
    have hlt := abs_value_lt hfinite
    rw [hvalue, abs_of_pos (by positivity), two_pow_lt_iff] at hlt
    exact .finite hlt hfinite hvalue
  · rw [hxv, ← pow_add] at hover
    cases hover with
    | positive h hq => exact .infinite (not_lt.mp (mt two_pow_lt_iff.mpr hq.not_gt)) h
    | negative _ hq =>
      have hpos : (0 : ℚ) < 2 ^ (k + l) := by positivity
      exact absurd (hpos.trans_le hq) (neg_lt_zero.mpr (two_zpow_pos 1024)).not_gt

theorem IsTwoPower.mul (hx : IsTwoPower x k) (hy : IsTwoPower y l) : IsTwoPower (x * y) (k + l) := by
  cases hx with
  | finite hk hx hxv =>
    cases hy with
    | finite hl hy hyv => exact isTwoPower_mul_of_finite hx hxv hy hyv hl
    | infinite hl hy =>
      refine .infinite (by omega) (parts_mul_infinity hx (by rw [hxv]; positivity) hy)
  | infinite hk hx =>
    refine .infinite (by omega) ?_
    cases hy with
    | finite hl hy hyv => exact parts_infinity_mul hx hy (by rw [hyv]; positivity)
    | infinite hl hy =>
      refine parts_mul ?_ trivial
      rw [hx, hy]
      rfl

/-- Repeated squaring: `r` holds the power of the bits already read, and `b` that of the next. -/
theorem isTwoPower_timesPower {r b : Float} (n : Nat) (hr : IsTwoPower r k) (hb : IsTwoPower b l) :
    IsTwoPower (timesPower r b n) (k + l * n) := by
  fun_induction timesPower r b n generalizing k l with
  | case1 => rwa [Nat.mul_zero, Nat.add_zero]
  | case2 r b n hn ih =>
    have hsquare := hb.mul hb
    by_cases hodd : n % 2 = 1
    · have hbits : n = 2 * (n / 2) + 1 := by omega
      have hexponent : k + l * n = k + l + (l + l) * (n / 2) := by
        conv_lhs => rw [hbits]
        ring
      rw [hexponent]
      refine ih ?_ hsquare
      rw [dif_pos hodd]
      exact hr.mul hb
    · have hbits : n = 2 * (n / 2) := by omega
      have hexponent : k + l * n = k + (l + l) * (n / 2) := by
        conv_lhs => rw [hbits]
        ring
      rw [hexponent]
      refine ih ?_ hsquare
      rwa [dif_neg hodd]

theorem isTwoPower_power (n : Nat) : IsTwoPower (timesPower 1.0 2.0 n) n := by
  have h := isTwoPower_timesPower n (.finite (by decide) rfl (value_one.trans (pow_zero 2).symm))
    (.finite (by decide) rfl (value_two.trans (pow_one 2).symm))
  rwa [Nat.zero_add, Nat.one_mul] at h

end

section
variable {q : ℤ}

theorem value_twoPower (hlow : -1023 ≤ q) (hhigh : q ≤ 1023) :
    (twoPower q).isFinite = true ∧ value (twoPower q) = 2 ^ q := by
  obtain ⟨n, hn⟩ : ∃ n, q.natAbs = n := ⟨_, rfl⟩
  have hfinite : (timesPower 1.0 2.0 n).isFinite = true ∧ value (timesPower 1.0 2.0 n) = 2 ^ n := by
    cases isTwoPower_power n with
    | finite _ hx hv => exact ⟨hx, hv⟩
    | infinite hk _ => omega
  unfold twoPower
  rw [hn]
  split
  · next hneg =>
    obtain rfl : q = -n := by omega
    have hquotient : value 1.0 / value (timesPower 1.0 2.0 n) = 2 ^ (-n : ℤ) := by
      rw [value_one, hfinite.2, zpow_neg, zpow_natCast, one_div]
    have hdouble : IsDouble (2 ^ (-n : ℤ)) := isDouble_two_zpow (by omega) (by omega)
    have hne : value (timesPower 1.0 2.0 n) ≠ 0 := by
      rw [hfinite.2]
      positivity
    have h := value_div_of_exact rfl hfinite.1 hne (hquotient ▸ hdouble)
    rwa [hquotient] at h
  · next hnonneg =>
    obtain rfl : q = n := by omega
    rwa [zpow_natCast]

theorem parts_twoPower_of_ge (h : 1024 ≤ q) : parts (twoPower q) = .infinity .positive := by
  unfold twoPower
  rw [if_neg (by omega)]
  cases isTwoPower_power q.natAbs with
  | finite hk _ _ => omega
  | infinite _ h => exact h

theorem parts_twoPower_of_le (h : q ≤ -1024) : parts (twoPower q) = .zero .positive := by
  unfold twoPower
  rw [if_pos (by omega)]
  cases isTwoPower_power q.natAbs with
  | finite hk _ _ => omega
  | infinite _ hinfinite =>
    refine parts_div ?_ trivial
    rw [hinfinite]
    rfl

end

/-! ## The reference frequency in other octaves -/

theorem value_reference : value 440.0 = 440 := by
  have h : parts 440.0 = .finite .positive 7740561859543040 (-44) (by decide) := rfl
  rw [value, h, number_positive]
  norm_num

section
variable {q : ℤ}

theorem value_reference_mul (hlow : -1023 ≤ q) (hhigh : q ≤ 1015) :
    (440.0 * twoPower q).isFinite = true ∧ value (440.0 * twoPower q) = 440 * 2 ^ q := by
  obtain ⟨hpower, hvalue⟩ := value_twoPower hlow (by omega)
  have hsplit : (440 * 2 ^ q : ℚ) = ((440 * 2 ^ 44 : ℤ) : ℚ) * 2 ^ (q - 44) := by
    rw [zpow_sub₀ two_ne_zero]
    norm_num
    ring
  have hdouble : IsDouble (440 * 2 ^ q) := by
    rw [hsplit]
    exact isDouble_mul_two_zpow (by decide) (by omega) (by omega)
  have h := value_mul_of_exact (x := 440.0) rfl hpower (by rwa [value_reference, hvalue])
  rwa [value_reference, hvalue] at h

theorem parts_reference_mul_of_ge (h : 1016 ≤ q) :
    parts (440.0 * twoPower q) = .infinity .positive := by
  rcases Int.lt_or_le q 1024 with hlt | hle
  · obtain ⟨hpower, hvalue⟩ := value_twoPower (q := q) (by omega) (by omega)
    have hrounds := rounds_mul (x := 440.0) rfl hpower
    rw [value_reference, hvalue] at hrounds
    have hsmall : (2 : ℚ) ^ (-1022 : ℤ) ≤ 2 ^ q := zpow_le_zpow_right₀ one_le_two (by omega)
    have hlarge : (2 : ℚ) ^ (1024 : ℤ) ≤ 256 * 2 ^ q := by
      calc (2 : ℚ) ^ (1024 : ℤ) ≤ 2 ^ (8 + q) := zpow_le_zpow_right₀ one_le_two (by omega)
        _ = 256 * 2 ^ q := by rw [zpow_add₀ two_ne_zero]; norm_num
    have hpos := two_zpow_pos q
    generalize (2 : ℚ) ^ q = p at *
    have hnormal : 2 ^ (-1022 : ℤ) ≤ |440 * p| := by
      rw [abs_of_pos (by positivity)]
      linarith only [hsmall, hpos]
    have hbound := (rounded_bounds hnormal (by positivity)).1
    refine hrounds.infinity (hlarge.trans (le_trans ?_ hbound))
    linarith only [hpos]
  · exact parts_mul_infinity rfl (by rw [value_reference]; norm_num) (parts_twoPower_of_ge hle)

theorem parts_reference_mul_of_le (h : q ≤ -1024) : parts (440.0 * twoPower q) = .zero .positive := by
  have hreference : parts 440.0 = .finite .positive 7740561859543040 (-44) (by decide) := rfl
  refine parts_mul ?_ trivial
  rw [hreference, parts_twoPower_of_le h]
  rfl

end

/-! ## Frequencies -/

/-- The whole octaves from A4 up to a semitone number. -/
def octavesAbove (n : ℤ) : ℤ := (n - 69) / 12

/-- The semitones from there to the semitone number. -/
def semitonesAbove (n : ℤ) : Nat := ((n - 69) % 12).toNat

def heldOctaves (n : ℤ) : ℤ := max (-2147483648) (min (octavesAbove n) 2147483647)

theorem tuning_eq (ratio : Nat → Float) (n : ℤ) :
    tuning ratio n = 440.0 * twoPower (heldOctaves n) * ratio (semitonesAbove n) := rfl

theorem semitonesAbove_lt (n : ℤ) : semitonesAbove n < 12 := by
  unfold semitonesAbove
  omega

/-- The ratios of fewer than twelve semitones are finite and not far below 1. -/
def Moderate (ratio : Nat → Float) : Prop :=
  ∀ r < 12, (ratio r).isFinite = true ∧ 1 / 2 ≤ value (ratio r)

/-- The frequency of a semitone number without rounding. -/
def exactFrequency (ratio : Nat → Float) (n : ℤ) : ℚ :=
  440 * 2 ^ octavesAbove n * value (ratio (semitonesAbove n))

section
variable {ratio : Nat → Float} {n : ℤ} (hratio : Moderate ratio)
include hratio

theorem rounds_tuning (hlow : -1023 ≤ octavesAbove n) (hhigh : octavesAbove n ≤ 1015) :
    Rounds (tuning ratio n) (exactFrequency ratio n) := by
  have hheld : heldOctaves n = octavesAbove n := by
    unfold heldOctaves
    omega
  obtain ⟨hreference, hvalue⟩ := value_reference_mul hlow hhigh
  have h := rounds_mul hreference (hratio _ (semitonesAbove_lt n)).1
  rwa [hvalue, ← hheld, ← tuning_eq, hheld] at h

theorem tuning_of_high (h : 1016 ≤ octavesAbove n) : parts (tuning ratio n) = .infinity .positive := by
  obtain ⟨hfinite, hhalf⟩ := hratio _ (semitonesAbove_lt n)
  have hpos : 0 < value (ratio (semitonesAbove n)) := by linarith
  have hheld : 1016 ≤ heldOctaves n := by
    unfold heldOctaves
    omega
  rw [tuning_eq]
  exact parts_infinity_mul (parts_reference_mul_of_ge hheld) hfinite hpos

theorem tuning_of_low (h : octavesAbove n ≤ -1024) : value (tuning ratio n) = 0 := by
  obtain ⟨hfinite, hhalf⟩ := hratio _ (semitonesAbove_lt n)
  obtain ⟨m, e, hm, hparts, -⟩ := parts_of_value_pos hfinite (by linarith)
  have hheld : heldOctaves n ≤ -1024 := by
    unfold heldOctaves
    omega
  have hzero : parts (tuning ratio n) = .zero .positive := by
    rw [tuning_eq]
    refine parts_mul ?_ trivial
    rw [parts_reference_mul_of_le hheld, hparts]
    rfl
  rw [value, hzero]
  rfl

/-- Only so many octaves have frequencies that can be sounded. -/
theorem octavesAbove_mem (hfinite : (tuning ratio n).isFinite = true) (hpos : 0.0 < tuning ratio n) :
    -1023 ≤ octavesAbove n ∧ octavesAbove n ≤ 1015 := by
  constructor
  · by_contra hlow
    have hvalue := (lt_iff_value_lt rfl hfinite).mp hpos
    rw [tuning_of_low hratio (by omega)] at hvalue
    exact lt_irrefl _ hvalue
  · by_contra hhigh
    exact parts_ne_infinity hfinite _ (tuning_of_high hratio (by omega))

/-- Frequencies that are not zero stay clear of the subnormal doubles. -/
theorem two_pow_le_exactFrequency (hlow : -1023 ≤ octavesAbove n) :
    2 ^ (-1022 : ℤ) ≤ exactFrequency ratio n := by
  have hhalf := (hratio _ (semitonesAbove_lt n)).2
  have hpow : (2 : ℚ) ^ (-1023 : ℤ) ≤ 2 ^ octavesAbove n := zpow_le_zpow_right₀ one_le_two hlow
  have hpos := two_zpow_pos (-1023)
  calc (2 : ℚ) ^ (-1022 : ℤ) = 2 * 2 ^ (-1023 : ℤ) := by
        rw [← zpow_one_add₀ two_ne_zero]
        rfl
    _ ≤ 440 * 2 ^ (-1023 : ℤ) * (1 / 2) := by linarith
    _ ≤ exactFrequency ratio n := by
      unfold exactFrequency
      gcongr

end

end ToneScore.Pitch
