import ToneScore.Proofs.Binary64.Grids
import ToneScore.Proofs.Binary64.Operations

/-!
# Adding a half

The whole number nearest to `q` is `⌊q + 1/2⌋`. For a double below `2^52` the sum with a half does not
pass a whole number when it is rounded (`floor_rounded_add_half`), except for the last double below a
half, whose sum is rounded to 1 (`rounded_add_half_of_eq`), and the difference from the nearest whole
number is a double (`isDouble_sub_floor`). From `2^52` on doubles are whole: up to `2^53` the half is
a tie, so odd numbers go up (`rounded_add_half_of_lt`), and from there on it is lost
(`rounded_add_half_of_le`).
-/

namespace ToneScore.Binary64

variable {x : Float}

/-! ## Below `2^52` -/

section
variable (hx : x.isFinite = true) (h : |value x| < 2 ^ 52)
include hx h

/-- If the half does not take `x` past zero or over a whole number, no bit is lost. -/
theorem isDouble_add_half (hle : ⌊value x + 1 / 2⌋ ≤ value x) (hne : ⌊value x + 1 / 2⌋ ≠ 0) :
    IsDouble (value x + 1 / 2) := by
  obtain ⟨e, hleast, -, hgrid, hlt⟩ := exists_grid hx
  have hhigh := Int.lt_floor_add_one (value x + 1 / 2)
  generalize ⌊value x + 1 / 2⌋ = n at *
  obtain ⟨hbelow, habove⟩ := abs_lt.mp h
  rcases le_or_gt 0 e with he | he
  · -- A whole number, which is at least 1 below `2^52`.
    have hnext := (hgrid.mono he).add_le_of_lt (onGrid_two_zpow (j := 52) (by decide))
      (by exact_mod_cast habove)
    have hsum := (hgrid.mono (show -1 ≤ e by omega)).add (onGrid_half le_rfl)
    refine hsum.isDouble ?_ (by decide) (by decide)
    norm_num at hnext ⊢
    rw [abs_lt]
    constructor <;> linarith
  · have hsum := hgrid.add (onGrid_half (show e ≤ -1 by omega))
    refine hsum.isDouble (abs_lt.mpr ⟨?_, ?_⟩) hleast (by omega)
    · linarith [(abs_lt.mp hlt).1]
    rcases lt_or_gt_of_ne hne with hneg | hpos
    · -- Towards zero.
      have : (n : ℚ) + 1 ≤ 0 := by exact_mod_cast hneg
      have : (0 : ℚ) < 2 ^ (53 + e) := two_zpow_pos _
      linarith
    · -- The power of two above `x` is no less than the next whole number.
      have := add_one_le_two_zpow hpos (hle.trans_lt (abs_lt.mp hlt).2)
      linarith

/-- The whole number or half a unit above it, if the half takes `x` over that number. -/
theorem exists_double_of_lt_floor (hlt : value x < ⌊value x + 1 / 2⌋) :
    ∃ d, IsDouble d ∧ value x + 1 / 2 ≤ d ∧ d < ⌊value x + 1 / 2⌋ + 1 := by
  have hlow := Int.floor_le (value x + 1 / 2)
  generalize ⌊value x + 1 / 2⌋ = n at *
  obtain ⟨hbelow, habove⟩ := abs_lt.mp h
  have htop := value_add_le_of_lt hx (onGrid_two_zpow (e := -1) (j := 52) (by decide))
    (by norm_num) (by exact_mod_cast habove)
  norm_num at htop
  have hbelow : ((-2 ^ 52 : ℤ) : ℚ) < n := by push_cast; linarith
  have habove : (n : ℚ) ≤ (2 ^ 52 : ℤ) := by push_cast; linarith
  have hbelow : -2 ^ 52 < n := by exact_mod_cast hbelow
  have habove : n ≤ 2 ^ 52 := by exact_mod_cast habove
  rcases habove.lt_or_eq with hn | rfl
  · have hhalf : ((2 * n + 1 : ℤ) : ℚ) * 2 ^ (-1 : ℤ) = n + 1 / 2 := by
      push_cast
      rw [zpow_neg_one]
      ring
    refine ⟨_, isDouble_mul_two_zpow (n := 2 * n + 1) (e := -1) (by omega) (by decide) (by decide), ?_⟩
    rw [hhalf]
    constructor <;> linarith
  · exact ⟨(2 ^ 52 : ℤ), isDouble_intCast (by decide), by push_cast; linarith, by linarith⟩

omit h in
theorem exists_double_below_one (hlt : value x < 1 / 2) (hne : value x ≠ 1 / 2 - 1 / 2 ^ 54) :
    ∃ d, IsDouble d ∧ value x + 1 / 2 ≤ d ∧ d < 1 := by
  have hgrid : OnGrid (-54) (1 / 2) := onGrid_half (by decide)
  have hlast := value_add_le_of_lt hx hgrid (by norm_num) hlt
  have hlt : value x < 1 / 2 - 2 ^ (-54 : ℤ) :=
    lt_of_le_of_ne (by linarith) (by norm_num at hne ⊢; exact hne)
  have hlast := value_add_le_of_lt hx (hgrid.sub (onGrid_two_zpow le_rfl)) (by norm_num) hlt
  refine ⟨_, isDouble_mul_two_zpow (n := 2 ^ 53 - 1) (e := -53) (by decide) (by decide) (by decide), ?_⟩
  norm_num at hlast ⊢
  linarith

theorem exists_double_below_next (hne : value x ≠ 1 / 2 - 1 / 2 ^ 54) :
    ∃ d, IsDouble d ∧ value x + 1 / 2 ≤ d ∧ d < ⌊value x + 1 / 2⌋ + 1 := by
  have hhigh := Int.lt_floor_add_one (value x + 1 / 2)
  rcases lt_or_ge (value x) ⌊value x + 1 / 2⌋ with hlt | hge
  · exact exists_double_of_lt_floor hx h hlt
  rcases eq_or_ne ⌊value x + 1 / 2⌋ 0 with hzero | hn
  · rw [hzero, Int.cast_zero] at hhigh ⊢
    rw [zero_add] at hhigh ⊢
    exact exists_double_below_one hx (by linarith) hne
  · exact ⟨_, isDouble_add_half hx h hge hn, le_rfl, hhigh⟩

theorem floor_rounded_add_half (hne : value x ≠ 1 / 2 - 1 / 2 ^ 54) :
    ⌊rounded (value x + 1 / 2)⌋ = ⌊value x + 1 / 2⌋ := by
  obtain ⟨d, hd, hle, hlt⟩ := exists_double_below_next hx h hne
  have hlow := Int.floor_le (value x + 1 / 2)
  have hhigh := Int.lt_floor_add_one (value x + 1 / 2)
  obtain ⟨hbelow, habove⟩ := abs_lt.mp h
  rw [Int.floor_eq_iff]
  refine ⟨le_rounded hlow (isDouble_intCast ?_), (rounded_le hle hd).trans_lt hlt⟩
  have hbelow : ((-2 ^ 52 - 1 : ℤ) : ℚ) < ⌊value x + 1 / 2⌋ := by push_cast; linarith
  have habove : (⌊value x + 1 / 2⌋ : ℚ) < (2 ^ 52 + 1 : ℤ) := by push_cast; linarith
  have : -2 ^ 52 - 1 < ⌊value x + 1 / 2⌋ := by exact_mod_cast hbelow
  have : ⌊value x + 1 / 2⌋ < 2 ^ 52 + 1 := by exact_mod_cast habove
  omega

omit h in
theorem isDouble_sub_floor : IsDouble (value x - ⌊value x + 1 / 2⌋) := by
  obtain ⟨e, hleast, hgreatest, hgrid, hlt⟩ := exists_grid hx
  have hlow := Int.floor_le (value x + 1 / 2)
  have hhigh := Int.lt_floor_add_one (value x + 1 / 2)
  rcases le_or_gt e 0 with he | he
  · refine (hgrid.sub (onGrid_intCast he _)).isDouble (lt_of_le_of_lt ?_ hlt) hleast hgreatest
    rcases le_or_gt (1 / 2) |value x| with hhalf | hhalf
    · refine le_trans ?_ hhalf
      rw [abs_le]
      constructor <;> linarith
    · obtain ⟨hbelow, habove⟩ := abs_lt.mp hhalf
      have hzero : ⌊value x + 1 / 2⌋ = 0 := by
        rw [Int.floor_eq_iff, Int.cast_zero]
        constructor <;> linarith
      rw [hzero, Int.cast_zero, sub_zero]
  · obtain ⟨n, hn⟩ := onGrid_zero_iff.mp (hgrid.mono he.le)
    have hfloor : ⌊(n : ℚ) + 1 / 2⌋ = n := by
      rw [Int.floor_eq_iff]
      constructor <;> linarith
    rw [hn, hfloor, sub_self]
    exact ⟨_, denotes_zero .positive⟩

end

/-! ## The last double below a half -/

/-- The sum with a half lies between the last double below 1 and 1, and 1 is the even one. -/
theorem rounded_add_half_of_eq {q : ℚ} (h : q = 1 / 2 - 1 / 2 ^ 54) : rounded (q + 1 / 2) = 1 := by
  have htie := rounded_tie (e := -53) (n := 2 ^ 53 - 1) (by decide) (by norm_num) (by norm_num)
  norm_num at htie
  rw [h]
  norm_num
  exact htie

theorem rounded_sub_one_of_eq {q : ℚ} (h : q = 1 / 2 - 1 / 2 ^ 54) : rounded (q - 1) = -1 / 2 := by
  have htie := rounded_tie (e := -53) (n := -2 ^ 52 - 1) (by decide) (by norm_num) (by norm_num)
  norm_num at htie
  rw [h]
  norm_num
  exact htie

/-! ## From `2^52` on -/

/-- Whole numbers of 53 bits: the half is a tie. -/
theorem rounded_add_half_of_lt {n : ℤ} (hlow : 2 ^ 52 ≤ |(n : ℚ) + 1 / 2|)
    (hhigh : |(n : ℚ) + 1 / 2| < 2 ^ 53) : rounded (n + 1 / 2) = (n + n % 2 : ℤ) := by
  have htie := rounded_tie (e := 0) (by decide) hlow hhigh
  rwa [zpow_zero, mul_one, mul_one] at htie

/-- Whole numbers that have an even significand or a longer step: the half is lost. -/
theorem rounded_add_half_of_le {n : ℤ} (hx : x.isFinite = true) (hn : value x = n)
    (h : 2 ^ 53 ≤ |(n : ℚ) + 1 / 2|) : rounded (n + 1 / 2) = n := by
  obtain ⟨e, hleast, -, hgrid, hlt⟩ := exists_grid hx
  rw [hn] at hgrid hlt
  have hhalf : |(1 : ℚ) / 2| = 1 / 2 := abs_of_pos one_half_pos
  have htriangle := abs_add_le (n : ℚ) (1 / 2)
  rw [hhalf] at htriangle
  have habs : 0 < |n| := by
    have : (0 : ℚ) < |(n : ℚ)| := by linarith
    exact_mod_cast this
  have hnext := add_one_le_two_zpow habs (by rwa [Int.cast_abs])
  rw [Int.cast_abs] at hnext
  have hle : lastExponent ((n : ℚ) + 1 / 2) ≤ e :=
    lastExponent_le (abs_pos.mp (by linarith)) hleast (by linarith)
  have hone : 1 ≤ lastExponent ((n : ℚ) + 1 / 2) := le_lastExponent (by exact_mod_cast h)
  have hstep : (2 : ℚ) ^ (1 : ℤ) ≤ 2 ^ lastExponent ((n : ℚ) + 1 / 2) :=
    zpow_le_zpow_right₀ one_le_two hone
  refine rounded_eq_of_onGrid (hgrid.mono hle) ?_
  rw [add_sub_cancel_left, hhalf]
  rw [zpow_one] at hstep
  linarith

theorem abs_add_half_lt_iff {n : ℤ} {k : ℕ} :
    |(n : ℚ) + 1 / 2| < 2 ^ k ↔ -2 ^ k ≤ n ∧ n < 2 ^ k := by
  rw [abs_lt]
  constructor
  · rintro ⟨hlow, hhigh⟩
    have hlow : ((-2 ^ k - 1 : ℤ) : ℚ) < n := by push_cast; linarith
    have hhigh : (n : ℚ) < (2 ^ k : ℤ) := by push_cast; linarith
    have hlow : -2 ^ k - 1 < n := by exact_mod_cast hlow
    exact ⟨by omega, by exact_mod_cast hhigh⟩
  · rintro ⟨hlow, hhigh⟩
    have hlow : (-2 ^ k : ℚ) ≤ n := by exact_mod_cast hlow
    have hhigh : (n : ℚ) + 1 ≤ 2 ^ k := by exact_mod_cast hhigh
    constructor <;> linarith

theorem floor_rounded_add_half_whole {n : ℤ} (hx : x.isFinite = true) (hn : value x = n)
    (h : 2 ^ 52 ≤ |n|) :
    ⌊rounded (n + 1 / 2)⌋ = n + if |n| < 2 ^ 53 then n % 2 else 0 := by
  rcases lt_or_ge |(n : ℚ) + 1 / 2| (2 ^ 53) with hlt | hge
  · rcases lt_or_ge |(n : ℚ) + 1 / 2| (2 ^ 52) with hshort | hlow
    · -- Only the lowest number has one bit less with the half, which is kept then.
      have hbounds := abs_add_half_lt_iff.mp hshort
      obtain rfl : n = -2 ^ 52 := by
        rcases le_abs.mp h with h | h <;> omega
      have hdouble := isDouble_mul_two_zpow (n := -2 ^ 53 + 1) (e := -1) (by decide) (by decide)
        (by decide)
      norm_num at hdouble ⊢
      rw [rounded_of_isDouble hdouble]
      norm_num
    · rw [rounded_add_half_of_lt hlow hlt, Int.floor_intCast]
      split
      · rfl
      · next hnot =>
        have hbounds := abs_add_half_lt_iff.mp hlt
        have := mt abs_lt.mpr hnot
        omega
  · have hnot : ¬ |n| < 2 ^ 53 := by
      intro hlt
      have hbounds := abs_lt.mp hlt
      exact absurd (abs_add_half_lt_iff.mpr ⟨by omega, by omega⟩) hge.not_gt
    rw [rounded_add_half_of_le hx hn hge, Int.floor_intCast, if_neg hnot, add_zero]

end ToneScore.Binary64
