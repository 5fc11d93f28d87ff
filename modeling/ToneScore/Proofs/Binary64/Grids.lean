import ToneScore.Proofs.Binary64.Monotone

/-!
# Doubles as multiples of a power of two

Every double lies on a grid, the multiples of a power of two, and is less than `2^53` steps of it
from zero (`exists_grid`); all such multiples are doubles (`OnGrid.isDouble`). Sums and differences
stay on the grid, so they are doubles unless they are too large, and a number below a point of the
grid is at least a step below it (`OnGrid.add_le_of_lt`). Rounding goes to the grid of the last bit
that is kept: to a point less than half a step away (`rounded_eq_of_onGrid`), and halfway between
two points to the even one (`rounded_tie`). So what is rounded past all doubles begins half a step
above the largest one (`overflowThreshold_le_iff`).
-/

namespace ToneScore.Binary64

def OnGrid (e : ℤ) (q : ℚ) : Prop := ∃ k : ℤ, q = k * 2 ^ e

variable {e j : ℤ} {p q : ℚ}

theorem onGrid_two_zpow (h : e ≤ j) : OnGrid e (2 ^ j) := by
  obtain ⟨k, rfl⟩ := Int.le.dest h
  refine ⟨2 ^ k, ?_⟩
  rw [zpow_add₀ two_ne_zero, zpow_natCast, mul_comm]
  push_cast
  rfl

theorem OnGrid.mul_intCast (h : OnGrid e q) (n : ℤ) : OnGrid e (n * q) := by
  obtain ⟨k, rfl⟩ := h
  exact ⟨n * k, by push_cast; ring⟩

theorem OnGrid.mono (hq : OnGrid j q) (h : e ≤ j) : OnGrid e q := by
  obtain ⟨k, rfl⟩ := hq
  exact (onGrid_two_zpow h).mul_intCast k

theorem onGrid_zero_iff : OnGrid 0 q ↔ ∃ n : ℤ, q = n := by
  simp [OnGrid]

theorem onGrid_intCast (h : e ≤ 0) (n : ℤ) : OnGrid e n :=
  (onGrid_zero_iff.mpr ⟨n, rfl⟩).mono h

theorem onGrid_half (h : e ≤ -1) : OnGrid e (1 / 2) := by
  have hhalf := onGrid_two_zpow h
  norm_num at hhalf
  exact hhalf

theorem OnGrid.add (hp : OnGrid e p) (hq : OnGrid e q) : OnGrid e (p + q) := by
  obtain ⟨k, rfl⟩ := hp
  obtain ⟨n, rfl⟩ := hq
  exact ⟨k + n, by push_cast; ring⟩

theorem OnGrid.sub (hp : OnGrid e p) (hq : OnGrid e q) : OnGrid e (p - q) := by
  obtain ⟨k, rfl⟩ := hp
  obtain ⟨n, rfl⟩ := hq
  exact ⟨k - n, by push_cast; ring⟩

theorem OnGrid.add_le_of_lt (hp : OnGrid e p) (hq : OnGrid e q) (h : p < q) : p + 2 ^ e ≤ q := by
  obtain ⟨k, rfl⟩ := hp
  obtain ⟨n, rfl⟩ := hq
  have hpos := two_zpow_pos e
  have hlt : k + 1 ≤ n := by exact_mod_cast lt_of_mul_lt_mul_right h hpos.le
  calc (k * 2 ^ e + 2 ^ e : ℚ) = ((k + 1 : ℤ) : ℚ) * 2 ^ e := by push_cast; ring
    _ ≤ n * 2 ^ e := by gcongr

theorem add_one_le_two_zpow {n : ℤ} (hn : 0 < n) (h : (n : ℚ) < 2 ^ j) : (n : ℚ) + 1 ≤ 2 ^ j := by
  have hone : (1 : ℚ) ≤ n := by exact_mod_cast hn
  have hj : 0 ≤ j := by
    by_contra hnot
    have : (2 : ℚ) ^ j ≤ 2 ^ (0 : ℤ) := zpow_le_zpow_right₀ one_le_two (by omega)
    rw [zpow_zero] at this
    linarith
  have hnext := (onGrid_intCast le_rfl n).add_le_of_lt (onGrid_two_zpow hj) h
  rwa [zpow_zero] at hnext

theorem OnGrid.isDouble (hq : OnGrid e q) (h : |q| < 2 ^ (53 + e)) (hleast : -1074 ≤ e)
    (hgreatest : e ≤ 971) : IsDouble q := by
  obtain ⟨k, rfl⟩ := hq
  refine isDouble_mul_two_zpow ?_ hleast hgreatest
  have hpos := two_zpow_pos e
  rw [abs_mul, abs_of_pos hpos, zpow_add₀ two_ne_zero, mul_lt_mul_iff_left₀ hpos] at h
  have hk : |k| < 2 ^ 53 := by exact_mod_cast h
  rw [Int.abs_eq_natAbs] at hk
  omega

theorem exists_grid {x : Float} (hx : x.isFinite = true) :
    ∃ e, -1074 ≤ e ∧ e ≤ 971 ∧ OnGrid e (value x) ∧ |value x| < 2 ^ (53 + e) := by
  obtain ⟨m, e, hm, hleast, hgreatest, hvalue⟩ := abs_value_eq hx
  refine ⟨e, hleast, hgreatest, ?_, ?_⟩
  · have habs : OnGrid e |value x| := ⟨m, by rw [hvalue, Int.cast_natCast]⟩
    rcases abs_choice (value x) with h | h
    · rwa [h] at habs
    · have hneg := habs.mul_intCast (-1)
      rw [h] at hneg
      simpa using hneg
  · have hm' : (m : ℚ) < 2 ^ 53 := by exact_mod_cast hm
    have hpos := two_zpow_pos e
    rw [hvalue, zpow_add₀ two_ne_zero]
    exact mul_lt_mul_of_pos_right (by exact_mod_cast hm') hpos

/-- Below a point of a grid, the next double is a step away unless steps are smaller there. -/
theorem value_add_le_of_lt {x : Float} (hx : x.isFinite = true) (hp : OnGrid j p)
    (hlarge : 2 ^ (52 + j) + 2 ^ j ≤ p) (h : value x < p) : value x + 2 ^ j ≤ p := by
  obtain ⟨e, -, -, hgrid, hlt⟩ := exists_grid hx
  rcases le_or_gt j e with hle | hgt
  · exact (hgrid.mono hle).add_le_of_lt hp h
  · have hpow : (2 : ℚ) ^ (53 + e) ≤ 2 ^ (52 + j) := zpow_le_zpow_right₀ one_le_two (by omega)
    have := (abs_lt.mp hlt).2
    linarith

theorem exists_fine_grid {x : Float} (hx : x.isFinite = true) (h : |value x| ≤ 1) :
    ∃ e, -1074 ≤ e ∧ e ≤ 0 ∧ OnGrid e (value x) ∧ |value x| < 2 ^ (53 + e) := by
  obtain ⟨e, hleast, -, hgrid, hlt⟩ := exists_grid hx
  rcases le_or_gt e 0 with he | he
  · exact ⟨e, hleast, he, hgrid, hlt⟩
  · exact ⟨0, by decide, le_rfl, hgrid.mono he.le, h.trans_lt (by norm_num)⟩

theorem isDouble_two_pow_mul {x : Float} {k : ℕ} (hx : x.isFinite = true) (h : |value x| ≤ 1)
    (hk : k ≤ 971) : IsDouble (2 ^ k * value x) := by
  obtain ⟨e, hleast, he, ⟨n, hn⟩, hlt⟩ := exists_fine_grid hx h
  have hgrid : OnGrid (e + k) (2 ^ k * value x) :=
    ⟨n, by rw [hn, zpow_add₀ two_ne_zero, zpow_natCast]; ring⟩
  refine hgrid.isDouble ?_ (by omega) (by omega)
  rw [abs_mul, abs_of_pos (by positivity), ← add_assoc, zpow_add₀ two_ne_zero, zpow_natCast, mul_comm]
  gcongr

/-! ## Rounding to a grid -/

theorem lastExponent_le (hne : q ≠ 0) (hleast : -1074 ≤ e) (h : |q| < 2 ^ (53 + e)) :
    lastExponent q ≤ e := by
  have hlog := (Int.lt_zpow_iff_log_lt one_lt_two (abs_pos.mpr hne)).mp (by exact_mod_cast h)
  unfold lastExponent
  omega

theorem le_lastExponent (h : 2 ^ (52 + e) ≤ |q|) : e ≤ lastExponent q := by
  have hlog := (Int.zpow_le_iff_le_log one_lt_two ((two_zpow_pos _).trans_le h)).mp
    (by exact_mod_cast h)
  unfold lastExponent
  omega

theorem abs_rounded_sub_le_of_abs_le_one (h : |q| ≤ 1) : |rounded q - q| ≤ 1 / 2 ^ 53 := by
  rcases eq_or_ne q 0 with rfl | hne
  · rw [rounded_zero, sub_zero, abs_zero]
    positivity
  · have hlast : lastExponent q ≤ -52 :=
      lastExponent_le hne (by decide) (h.trans_lt (by norm_num))
    calc |rounded q - q| ≤ 2 ^ lastExponent q / 2 := abs_rounded_sub_le_half q
      _ ≤ 2 ^ (-52 : ℤ) / 2 := by
        gcongr
        exact one_le_two
      _ = 1 / 2 ^ 53 := by norm_num

/-- A number is rounded to the point of its grid that is less than half a step away. -/
theorem rounded_eq_of_onGrid (hp : OnGrid (lastExponent q) p)
    (h : |q - p| < 2 ^ lastExponent q / 2) : rounded q = p := by
  obtain ⟨k, hk⟩ := hp
  have hpos := two_zpow_pos (lastExponent q)
  have hclose : |q / 2 ^ lastExponent q - k| < 1 / 2 := by
    rw [← mul_lt_mul_iff_left₀ hpos, ← abs_of_pos hpos, ← abs_mul, abs_of_pos hpos, sub_mul,
      div_mul_cancel₀ _ hpos.ne', ← hk]
    linarith
  rw [rounded, toEven_eq_of_abs_lt hclose, ← hk]

/-- Halfway between two points of its grid, a number goes to the even one. -/
theorem rounded_tie {n : ℤ} (hleast : -1074 ≤ e) (hlow : 2 ^ 52 ≤ |(n : ℚ) + 1 / 2|)
    (hhigh : |(n : ℚ) + 1 / 2| < 2 ^ 53) :
    rounded (((n : ℚ) + 1 / 2) * 2 ^ e) = (n + n % 2 : ℤ) * 2 ^ e := by
  have hpos := two_zpow_pos e
  have habs : |((n : ℚ) + 1 / 2) * 2 ^ e| = |(n : ℚ) + 1 / 2| * 2 ^ e := by rw [abs_mul, abs_of_pos hpos]
  have hne : (n : ℚ) + 1 / 2 ≠ 0 := abs_pos.mp (lt_of_lt_of_le (by positivity) hlow)
  have hlast : lastExponent (((n : ℚ) + 1 / 2) * 2 ^ e) = e := by
    apply le_antisymm
    · apply lastExponent_le (mul_ne_zero hne hpos.ne') hleast
      rw [habs, zpow_add₀ two_ne_zero]
      exact mul_lt_mul_of_pos_right hhigh hpos
    · apply le_lastExponent
      rw [habs, zpow_add₀ two_ne_zero]
      exact mul_le_mul_of_nonneg_right hlow hpos.le
  rw [rounded, hlast, mul_div_cancel_right₀ _ hpos.ne', toEven_add_half]

/-! ## Overflow -/

/-- The tie between the largest double and `2^1024`. -/
def overflowThreshold : ℚ := 2 ^ (1024 : ℤ) - 2 ^ (970 : ℤ)

/-- The significand of the largest double is odd. -/
theorem rounded_overflowThreshold : rounded overflowThreshold = 2 ^ (1024 : ℤ) := by
  have hsplit : (2 : ℚ) ^ (1024 : ℤ) = 2 ^ (53 : ℤ) * 2 ^ (971 : ℤ) := zpow_add₀ two_ne_zero 53 971
  have hstep : (2 : ℚ) ^ (971 : ℤ) = 2 * 2 ^ (970 : ℤ) := zpow_one_add₀ two_ne_zero 970
  have htie : overflowThreshold = (((2 ^ 53 - 1 : ℤ) : ℚ) + 1 / 2) * 2 ^ (971 : ℤ) := by
    rw [overflowThreshold, hsplit, hstep]
    generalize (2 : ℚ) ^ (970 : ℤ) = p
    push_cast
    ring
  rw [htie, rounded_tie (by decide) (by norm_num) (by norm_num), hsplit]
  norm_num

theorem rounded_lt_of_lt (h : q < overflowThreshold) : rounded q < 2 ^ (1024 : ℤ) := by
  rcases le_or_gt q 0 with hle | hpos
  · exact (rounded_zero ▸ rounded_mono hle).trans_lt (two_zpow_pos _)
  have hstep : (2 : ℚ) ^ (971 : ℤ) / 2 = 2 ^ (970 : ℤ) := by
    rw [div_eq_iff two_ne_zero]
    exact zpow_add_one₀ two_ne_zero 970
  have hlt : |q| < 2 ^ (53 + 971 : ℤ) := by
    rw [abs_of_pos hpos]
    exact h.trans (sub_lt_self _ (two_zpow_pos 970))
  have hlast : (2 : ℚ) ^ lastExponent q ≤ 2 ^ (971 : ℤ) :=
    zpow_le_zpow_right₀ one_le_two (lastExponent_le hpos.ne' (by decide) hlt)
  calc rounded q ≤ q + 2 ^ lastExponent q / 2 :=
        sub_le_iff_le_add'.mp (abs_le.mp (abs_rounded_sub_le_half q)).2
    _ ≤ q + 2 ^ (971 : ℤ) / 2 := by gcongr
    _ = q + 2 ^ (970 : ℤ) := by rw [hstep]
    _ < 2 ^ (1024 : ℤ) := lt_sub_iff_add_lt.mp h

theorem overflowThreshold_le_iff : overflowThreshold ≤ q ↔ 2 ^ (1024 : ℤ) ≤ rounded q := by
  constructor
  · intro h
    exact rounded_overflowThreshold ▸ rounded_mono h
  · intro h
    by_contra hlt
    exact (rounded_lt_of_lt (not_le.mp hlt)).not_ge h

theorem IsDouble.lt_overflowThreshold (h : IsDouble q) : q < overflowThreshold := by
  by_contra hle
  have hlarge := overflowThreshold_le_iff.mp (not_lt.mp hle)
  rw [rounded_of_isDouble h] at hlarge
  exact ((le_abs_self q).trans_lt h.abs_lt).not_ge hlarge

end ToneScore.Binary64
