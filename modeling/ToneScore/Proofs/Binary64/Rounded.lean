import ToneScore.Proofs.Binary64.Ties

/-!
# Rounding to doubles

Arithmetic on doubles computes the exact result and rounds it once. `rounded` is that rounding: to
the nearest multiple of a power of two, ties going to the even one, the power leaving 53 bits unless
it is the least exponent. So a product is the rounded exact product, or an infinity where that is too
large (`rounds_mul`). Above the subnormal doubles, rounding changes a number by at most one part in
`2^53` (`abs_rounded_sub_le`), and twice a number is rounded to twice the double
(`rounded_two_mul`).
-/

namespace ToneScore.Binary64

open Float.Model (UnpackedFloat Format totalExponent)
open Float.Model.UnpackedFloat

/-! ## The rounded number -/

/-- The exponent of the last bit that rounding keeps. -/
def lastExponent (q : ℚ) : ℤ := max (Int.log 2 |q| - 52) (-1074)

/-- The number to which `q` is rounded, as if exponents had no upper end. -/
def rounded (q : ℚ) : ℚ := toEven (q / 2 ^ lastExponent q) * 2 ^ lastExponent q

theorem rounded_zero : rounded 0 = 0 := by
  have h : toEven 0 = 0 := toEven_intCast 0
  rw [rounded, zero_div, h, Int.cast_zero, zero_mul]

theorem rounded_neg (q : ℚ) : rounded (-q) = -rounded q := by
  have h : lastExponent (-q) = lastExponent q := by
    unfold lastExponent
    rw [abs_neg]
  unfold rounded
  rw [h, neg_div, toEven_neg, Int.cast_neg, neg_mul]

theorem log_eq {q : ℚ} {k : ℤ} (hlow : 2 ^ k ≤ q) (hhigh : q < 2 ^ (k + 1)) : Int.log 2 q = k := by
  have hpos : 0 < q := (two_zpow_pos k).trans_le hlow
  have h1 := (Int.zpow_le_iff_le_log one_lt_two hpos).mp (by exact_mod_cast hlow)
  have h2 := (Int.lt_zpow_iff_log_lt one_lt_two hpos).mp (by exact_mod_cast hhigh)
  omega

theorem log_bounds {q : ℚ} (h : 0 < q) :
    (2 : ℚ) ^ Int.log 2 q ≤ q ∧ q < 2 ^ (Int.log 2 q + 1) :=
  ⟨by exact_mod_cast Int.zpow_log_le_self one_lt_two h,
    by exact_mod_cast Int.lt_zpow_succ_log_self one_lt_two q⟩

theorem abs_rounded_sub_le_half (q : ℚ) : |rounded q - q| ≤ 2 ^ lastExponent q / 2 := by
  have hpos := two_zpow_pos (lastExponent q)
  have hscaled : rounded q - q =
      (toEven (q / 2 ^ lastExponent q) - q / 2 ^ lastExponent q) * 2 ^ lastExponent q := by
    rw [sub_mul, div_mul_cancel₀ _ hpos.ne']
    rfl
  have h := abs_toEven_sub_le (q / 2 ^ lastExponent q)
  rw [hscaled, abs_mul, abs_of_pos hpos]
  nlinarith

section
variable {q : ℚ} (h : 2 ^ (-1022 : ℤ) ≤ |q|)
include h

theorem lastExponent_eq : lastExponent q = Int.log 2 |q| - 52 := by
  have hlog := (Int.zpow_le_iff_le_log one_lt_two ((two_zpow_pos _).trans_le h)).mp
    (by exact_mod_cast h)
  unfold lastExponent
  omega

/-- Above the subnormal doubles, rounding changes a number by at most one part in `2^53`. -/
theorem abs_rounded_sub_le : |rounded q - q| ≤ |q| / 2 ^ 53 := by
  have hlow := (log_bounds ((two_zpow_pos _).trans_le h)).1
  have hhalf := abs_rounded_sub_le_half q
  rw [lastExponent_eq h, zpow_sub₀ two_ne_zero] at hhalf
  calc |rounded q - q| ≤ 2 ^ Int.log 2 |q| / 2 ^ (52 : ℤ) / 2 := hhalf
    _ = 2 ^ Int.log 2 |q| / 2 ^ 53 := by norm_num; ring
    _ ≤ |q| / 2 ^ 53 := by gcongr

theorem rounded_bounds (hpos : 0 < q) :
    q * (1 - 1 / 2 ^ 53) ≤ rounded q ∧ rounded q ≤ q * (1 + 1 / 2 ^ 53) := by
  have hclose := abs_rounded_sub_le h
  rw [abs_of_pos hpos] at hclose
  obtain ⟨hlow, hhigh⟩ := abs_le.mp hclose
  constructor <;> linarith

theorem rounded_two_mul : rounded (2 * q) = 2 * rounded q := by
  have hpos := (two_zpow_pos _).trans_le h
  obtain ⟨hlow, hhigh⟩ := log_bounds hpos
  have habs : |2 * q| = 2 * |q| := by rw [abs_mul, abs_two]
  have hlog : Int.log 2 |2 * q| = Int.log 2 |q| + 1 := by
    apply log_eq
    · rw [zpow_add_one₀ two_ne_zero, habs]
      linarith
    · rw [zpow_add_one₀ two_ne_zero, habs]
      linarith
  have hexponent : lastExponent (2 * q) = lastExponent q + 1 := by
    rw [lastExponent_eq (by linarith), lastExponent_eq h, hlog]
    ring
  have hsignificand : 2 * q / 2 ^ lastExponent (2 * q) = q / 2 ^ lastExponent q := by
    rw [hexponent, zpow_add_one₀ two_ne_zero, mul_comm 2 q, mul_div_mul_right _ _ two_ne_zero]
  unfold rounded
  rw [hsignificand, hexponent, zpow_add_one₀ two_ne_zero]
  ring

end

/-! ## Rounding of significands -/

section
variable {m : Nat} {e : ℤ} {accuracy : Accuracy} {q : ℚ}

theorem mantissa_ofMantissaAndAccuracy (m : Nat) (accuracy : Accuracy) :
    (ExtendedMantissa.ofMantissaAndAccuracy m accuracy).mantissa = m := by
  rcases accuracy with _ | _ | _ | _ <;> rfl

/-- The bits of a significand and its exponent say between which powers of two the number lies. -/
theorem pos_and_log_eq (hm : 0 < m) (h : Holds (.ofMantissaAndAccuracy m accuracy) (q / 2 ^ e)) :
    0 < q ∧ Int.log 2 q = m.log2 + e := by
  have hpos := two_zpow_pos e
  have hfloor := h.floor_eq
  rw [mantissa_ofMantissaAndAccuracy, Int.floor_eq_iff, le_div_iff₀ hpos, div_lt_iff₀ hpos] at hfloor
  have hm' : (0 : ℚ) < m := by exact_mod_cast hm
  refine ⟨lt_of_lt_of_le (by positivity) hfloor.1, log_eq ?_ ?_⟩
  · exact (log2_bounds hm e).1.trans hfloor.1
  · have hnext : ((m + 1 : Nat) : ℚ) ≤ (2 ^ (m.log2 + 1) : Nat) := by
      exact_mod_cast Nat.lt_log2_self
    calc q < (m + 1) * 2 ^ e := hfloor.2
      _ ≤ 2 ^ (m.log2 + 1) * 2 ^ e := by
        push_cast at hnext
        gcongr
      _ = 2 ^ ((m.log2 : ℤ) + e + 1) := by
        rw [← zpow_natCast, ← zpow_add₀ two_ne_zero]
        congr 1
        push_cast
        ring

theorem targetExponent_eq (hm : 0 < m) (h : Holds (.ofMantissaAndAccuracy m accuracy) (q / 2 ^ e)) :
    Format.binary64.targetExponent (totalExponent m e) = lastExponent q := by
  obtain ⟨hq, hlog⟩ := pos_and_log_eq hm h
  rw [lastExponent, abs_of_pos hq, hlog]
  show max ((m.log2 : ℤ) + 1 + e - (53 : Nat)) (-1074) = _
  congr 1
  omega

/-- The first shift of rounding goes to the last bit that is kept. -/
theorem shiftToTargetExponent_holds (hm : 0 < m)
    (h : Holds (.ofMantissaAndAccuracy m accuracy) (q / 2 ^ e)) (he : e ≤ lastExponent q) :
    ∃ em, shiftToTargetExponent Format.binary64 m e accuracy = (em, lastExponent q) ∧
      Holds em (q / 2 ^ lastExponent q) := by
  obtain ⟨n, hn⟩ : ∃ n : Nat, lastExponent q = e + n := ⟨(lastExponent q - e).toNat, by omega⟩
  refine ⟨ExtendedMantissa.ofMantissaAndAccuracy m accuracy >>> n, ?_, ?_⟩
  · unfold shiftToTargetExponent shiftToExponent
    rw [targetExponent_eq hm h, hn]
    simp
  · have hshift := holds_shiftRight h n
    rwa [div_div, ← zpow_natCast, ← zpow_add₀ two_ne_zero, ← hn] at hshift

/-- A rounded significand has at most 53 bits, or it has just become a power of two. -/
theorem toEven_significand (hq : 0 < q) :
    0 ≤ toEven (q / 2 ^ lastExponent q) ∧ toEven (q / 2 ^ lastExponent q) ≤ 2 ^ 53 ∧
      (2 ^ 52 ≤ toEven (q / 2 ^ lastExponent q) ∨ lastExponent q = -1074) := by
  have hpos := two_zpow_pos (lastExponent q)
  obtain ⟨hlow, hhigh⟩ := log_bounds hq
  have hlast : lastExponent q = max (Int.log 2 q - 52) (-1074) := by
    rw [lastExponent, abs_of_pos hq]
  refine ⟨le_toEven ?_, toEven_le ?_, ?_⟩
  · rw [Int.cast_zero]
    positivity
  · rw [div_le_iff₀ hpos]
    calc q ≤ 2 ^ (Int.log 2 q + 1) := hhigh.le
      _ ≤ 2 ^ (53 + lastExponent q) := zpow_le_zpow_right₀ one_le_two (by omega)
      _ = (2 ^ 53 : ℤ) * 2 ^ lastExponent q := by
        rw [zpow_add₀ two_ne_zero]
        norm_num
  · rcases eq_or_ne (lastExponent q) (-1074) with h | h
    · exact .inr h
    left
    apply le_toEven
    rw [le_div_iff₀ hpos]
    calc ((2 ^ 52 : ℤ) : ℚ) * 2 ^ lastExponent q = 2 ^ (52 + lastExponent q) := by
          rw [zpow_add₀ two_ne_zero]
          norm_num
      _ ≤ 2 ^ Int.log 2 q := zpow_le_zpow_right₀ one_le_two (by omega)
      _ ≤ q := hlow

/-- A rounded significand that has become too long is a power of two, and loses its last bit. -/
theorem exists_settled {k : Nat} {t : ℤ} (hk : 0 < k) (hle : k ≤ 2 ^ 53) (ht : -1074 ≤ t)
    (hnormal : 2 ^ 52 ≤ k ∨ t = -1074) :
    ∃ m e, Settled m e ∧ 0 < m ∧ t ≤ e ∧ (k * 2 ^ t : ℚ) = m * 2 ^ e := by
  rcases hle.lt_or_eq with hlt | rfl
  · exact ⟨k, t, ⟨hlt, ht, hnormal⟩, hk, le_rfl, rfl⟩
  · refine ⟨2 ^ 52, t + 1, ⟨by decide, by omega, .inl le_rfl⟩, by decide, by omega, ?_⟩
    rw [zpow_add_one₀ two_ne_zero]
    push_cast
    ring

theorem shiftToTargetExponent_zero (t : ℤ) :
    (shiftToTargetExponent Format.binary64 0 t .exact).1.mantissa = 0 := by
  unfold shiftToTargetExponent shiftToExponent
  rw [mantissa_shiftRight]
  exact Nat.zero_div _

/-- Rounding bits rounds the number that they stand for. -/
theorem roundWithAccuracy_cases (hm : 0 < m)
    (h : Holds (.ofMantissaAndAccuracy m accuracy) (q / 2 ^ e)) (he : e ≤ lastExponent q) (s : Sign) :
    (roundWithAccuracy Format.binary64 s m e accuracy = .zero s ∧ rounded q = 0) ∨
      ∃ m' e' hm', roundWithAccuracy Format.binary64 s m e accuracy = .finite s m' e' hm' ∧
        Settled m' e' ∧ (m' * 2 ^ e' : ℚ) = rounded q := by
  obtain ⟨em, hshift, hem⟩ := shiftToTargetExponent_holds hm h he
  obtain ⟨-, hle, hnormal⟩ := toEven_significand (pos_and_log_eq hm h).1
  have hk := hem.roundedMantissa_eq
  have hrounded : rounded q = em.roundedMantissa * 2 ^ lastExponent q := by
    unfold rounded
    rw [← hk]
    rfl
  rw [← hk] at hle hnormal
  unfold roundWithAccuracy
  simp only [hshift]
  rcases Nat.eq_zero_or_pos em.roundedMantissa with hzero | hpos
  · left
    refine ⟨dif_pos ?_, ?_⟩
    · rw [hzero]
      exact shiftToTargetExponent_zero _
    · rw [hrounded, hzero, Nat.cast_zero, zero_mul]
  · right
    have hleast : -1074 ≤ lastExponent q := le_max_right _ _
    obtain ⟨m', e', hsettled, hm', hle', hvalue⟩ :=
      exists_settled hpos (by exact_mod_cast hle) hleast (by exact_mod_cast hnormal)
    refine ⟨m', e', hm', ?_, hsettled, hrounded ▸ hvalue.symm⟩
    simp only [shiftToTargetExponent_eq hsettled hm' hle' hvalue]
    exact dif_neg hm'.ne'

end

/-! ## Rounded doubles -/

/-- The double to which `q` is rounded. -/
inductive Rounds (x : Float) (q : ℚ) : Prop where
  | finite (hx : x.isFinite = true) (hv : value x = rounded q)
  | overflows (h : Overflows x (rounded q))

theorem Rounds.value_eq {x : Float} {q : ℚ} (h : Rounds x q) (hq : |rounded q| < 2 ^ (1024 : ℤ)) :
    x.isFinite = true ∧ value x = rounded q := by
  obtain ⟨hlow, hhigh⟩ := abs_lt.mp hq
  cases h with
  | finite hx hv => exact ⟨hx, hv⟩
  | overflows h =>
    cases h with
    | positive _ hlarge => exact absurd hhigh hlarge.not_gt
    | negative _ hlarge => exact absurd hlow hlarge.not_gt

theorem Rounds.value_of_isFinite {x : Float} {q : ℚ} (h : Rounds x q) (hx : x.isFinite = true) :
    value x = rounded q := by
  cases h with
  | finite _ hv => exact hv
  | overflows h =>
    cases h with
    | positive hparts _ => exact absurd hparts (parts_ne_infinity hx _)
    | negative hparts _ => exact absurd hparts (parts_ne_infinity hx _)

theorem Rounds.infinity {x : Float} {q : ℚ} (h : Rounds x q) (hq : 2 ^ (1024 : ℤ) ≤ rounded q) :
    parts x = .infinity .positive := by
  cases h with
  | finite hx hv =>
    have hlt := (le_abs_self _).trans_lt (abs_value_lt hx)
    rw [hv] at hlt
    exact absurd hlt hq.not_gt
  | overflows h =>
    cases h with
    | positive hparts _ => exact hparts
    | negative _ hlarge =>
      exact absurd (hq.trans hlarge) (neg_lt_self (two_zpow_pos 1024)).not_ge

theorem apply_one_mul_rounded (s : Sign) (q : ℚ) :
    rounded ((s.apply 1 : ℤ) * q) = (s.apply 1 : ℤ) * rounded q := by
  cases s with
  | positive =>
    show rounded (((1 : ℤ) : ℚ) * q) = ((1 : ℤ) : ℚ) * _
    rw [Int.cast_one, one_mul, one_mul]
  | negative =>
    show rounded (((-1 : ℤ) : ℚ) * q) = ((-1 : ℤ) : ℚ) * _
    rw [Int.cast_neg, Int.cast_one, neg_one_mul, neg_one_mul, rounded_neg]

/-- Packing keeps a settled number, or makes it an infinity. -/
theorem rounds_pack {s : Sign} {m : Nat} {e : ℤ} {q : ℚ} (hm : 0 < m) (h : Settled m e)
    (hq : number (.finite s m e hm) = rounded q) :
    Rounds (.ofModel (Float.Model.pack (.finite s m e hm))) q := by
  rcases Int.lt_or_le 971 e with he | he
  · have hinfinity := parts_pack_overflow (s := s) hm he
    have hlarge := two_pow_le_of_overflow (h.normal.resolve_right (by omega)) he
    refine .overflows ?_
    rw [← hq]
    cases s with
    | positive => exact .positive hinfinity (by rwa [number_positive])
    | negative => exact .negative hinfinity (by rw [number_negative]; linarith)
  · have hcanonical : Canonical m e := ⟨h.lt, h.least_le, he, h.normal⟩
    have hdenotes : Denotes (.finite s m e hm) (rounded q) := ⟨hcanonical, rfl, hq⟩
    obtain ⟨hfinite, hvalue⟩ := value_ofModel_pack hdenotes
    exact .finite hfinite hvalue

theorem rounds_roundWithAccuracy {m : Nat} {e : ℤ} {accuracy : Accuracy} {q : ℚ} (hm : 0 < m)
    (h : Holds (.ofMantissaAndAccuracy m accuracy) (q / 2 ^ e)) (he : e ≤ lastExponent q) (s : Sign) :
    Rounds (.ofModel (Float.Model.pack (roundWithAccuracy Format.binary64 s m e accuracy)))
      ((s.apply 1 : ℤ) * q) := by
  rcases roundWithAccuracy_cases hm h he s with ⟨heq, hzero⟩ | ⟨m', e', hm', heq, hsettled, hvalue⟩
  · rw [heq]
    obtain ⟨hfinite, hvalue⟩ := value_ofModel_pack (denotes_zero s)
    refine .finite hfinite ?_
    rw [hvalue, apply_one_mul_rounded, hzero, mul_zero]
  · rw [heq]
    refine rounds_pack hm' hsettled ?_
    rw [number_finite, hvalue, apply_one_mul_rounded]

theorem holds_exact (m : Nat) (e : ℤ) :
    Holds (.ofMantissaAndAccuracy m .exact) ((m * 2 ^ e : ℚ) / 2 ^ e) :=
  mul_div_cancel_right₀ _ (two_zpow_pos e).ne'

theorem add_le_lastExponent {m₁ m₂ : Nat} {e₁ e₂ : ℤ} (h₁ : Canonical m₁ e₁) (h₂ : Canonical m₂ e₂)
    (hm₁ : 0 < m₁) (hm₂ : 0 < m₂) :
    e₁ + e₂ ≤ lastExponent ((m₁ * m₂ : Nat) * 2 ^ (e₁ + e₂)) := by
  have hm := Nat.mul_pos hm₁ hm₂
  obtain ⟨hpos, hlog⟩ := pos_and_log_eq hm (holds_exact _ (e₁ + e₂))
  rw [lastExponent, abs_of_pos hpos, hlog]
  by_cases hlarge : 2 ^ 52 ≤ m₁ * m₂
  · have := (Nat.le_log2 hm.ne').mpr hlarge
    omega
  · -- Neither significand has 53 bits then, so both exponents are the least one.
    have hle₁ := Nat.le_mul_of_pos_right m₁ hm₂
    have hle₂ := Nat.le_mul_of_pos_left m₂ hm₁
    have := h₁.normal
    have := h₂.normal
    omega

variable {x y : Float}

theorem parts_of_value_ne_zero (hx : x.isFinite = true) (hne : value x ≠ 0) :
    ∃ s m e hm, parts x = .finite s m e hm := by
  refine (zero_or_finite hx).resolve_left fun ⟨s, h⟩ => hne ?_
  rw [value, parts, h]
  rfl

theorem rounds_mul (hx : x.isFinite = true) (hy : y.isFinite = true) :
    Rounds (x * y) (value x * value y) := by
  by_cases hzero : value x * value y = 0
  · obtain ⟨hfinite, hvalue⟩ := value_mul_of_exact hx hy (hzero ▸ ⟨_, denotes_zero .positive⟩)
    exact .finite hfinite (by rw [hvalue, hzero, rounded_zero])
  obtain ⟨hxne, hyne⟩ := mul_ne_zero_iff.mp hzero
  obtain ⟨s, m₁, e₁, hm₁, hx'⟩ := parts_of_value_ne_zero hx hxne
  obtain ⟨t, m₂, e₂, hm₂, hy'⟩ := parts_of_value_ne_zero hy hyne
  have h₁ := proper_parts x
  have h₂ := proper_parts y
  rw [hx'] at h₁
  rw [hy'] at h₂
  have hvalue : value x * value y =
      ((s * t).apply 1 : ℤ) * ((m₁ * m₂ : Nat) * 2 ^ (e₁ + e₂) : ℚ) := by
    rw [value, value, hx', hy', number_finite, number_finite, apply_one_mul, zpow_add₀ two_ne_zero]
    push_cast
    ring
  show Rounds (.ofModel (Float.Model.pack (UnpackedFloat.mul _ (parts x) (parts y)))) _
  rw [hvalue, hx', hy']
  exact rounds_roundWithAccuracy (Nat.mul_pos hm₁ hm₂) (holds_exact _ _)
    (add_le_lastExponent h₁ h₂ hm₁ hm₂) (s * t)

end ToneScore.Binary64
