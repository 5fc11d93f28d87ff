import ToneScore.Proofs.Binary64.Value

/-!
# Results that are doubles

Multiplying, dividing and converting from a whole number round the exact result to a double. A result
that is a double already is kept: its significand and exponent are those to which rounding shifts
(`Settled`, `roundWithAccuracy_eq`). So arithmetic is exact as long as its results are doubles
(`value_mul_of_exact`, `value_div_of_exact`, `value_ofCount`), as every whole number of 53 bits times
a power of two in range is (`isDouble_mul_two_zpow`). Reading a whole number off a double gives it
back (`toInt_of_value_eq`).
-/

namespace ToneScore.Binary64

open Float.Model (UnpackedFloat Format totalExponent)
open Float.Model.UnpackedFloat

/-! ## Significands times powers of two -/

theorem two_zpow_pos (e : ℤ) : (0 : ℚ) < 2 ^ e := by positivity

theorem two_zpow_lt_iff {e e' : ℤ} : (2 : ℚ) ^ e < 2 ^ e' ↔ e < e' :=
  zpow_lt_zpow_iff_right₀ one_lt_two

theorem log2_bounds {m : Nat} (hm : 0 < m) (e : ℤ) :
    (2 : ℚ) ^ (m.log2 + e) ≤ m * 2 ^ e ∧ (m * 2 ^ e : ℚ) < 2 ^ (m.log2 + 1 + e) := by
  have hlow : (2 ^ m.log2 : ℚ) ≤ m := by exact_mod_cast Nat.log2_self_le (Nat.ne_of_gt hm)
  have hhigh : (m : ℚ) < 2 ^ (m.log2 + 1) := by exact_mod_cast Nat.lt_log2_self
  have hpos := two_zpow_pos e
  constructor
  · rw [zpow_add₀ two_ne_zero, zpow_natCast]
    gcongr
  · rw [zpow_add₀ two_ne_zero, ← Nat.cast_succ, zpow_natCast]
    gcongr

theorem totalExponent_eq {m m' : Nat} {e e' : ℤ} (hm : 0 < m) (hm' : 0 < m')
    (h : (m' * 2 ^ e' : ℚ) = m * 2 ^ e) : totalExponent m' e' = totalExponent m e := by
  obtain ⟨hlow, hhigh⟩ := log2_bounds hm e
  obtain ⟨hlow', hhigh'⟩ := log2_bounds hm' e'
  rw [h] at hlow' hhigh'
  have h1 := two_zpow_lt_iff.mp (hlow.trans_lt hhigh')
  have h2 := two_zpow_lt_iff.mp (hlow'.trans_lt hhigh)
  unfold totalExponent
  omega

theorem eq_mul_two_pow {m m' : Nat} {e e' : ℤ} (he : e' ≤ e)
    (h : (m' * 2 ^ e' : ℚ) = m * 2 ^ e) : m' = m * 2 ^ (e - e').toNat := by
  have hsplit : (2 : ℚ) ^ e = 2 ^ (e - e').toNat * 2 ^ e' := by
    rw [← zpow_natCast, ← zpow_add₀ two_ne_zero]
    congr 1
    omega
  rw [hsplit, ← mul_assoc] at h
  exact_mod_cast mul_right_cancel₀ (two_zpow_pos e').ne' h

/--
A significand and an exponent as rounding leaves them. Unlike in a finite double, the exponent can
be too large.
-/
structure Settled (m : Nat) (e : ℤ) : Prop where
  lt : m < 2 ^ 53
  least_le : -1074 ≤ e
  normal : 2 ^ 52 ≤ m ∨ e = -1074

theorem Canonical.settled {m : Nat} {e : ℤ} (h : Canonical m e) : Settled m e :=
  ⟨h.lt, h.least_le, h.normal⟩

/-- Rounding leaves the exponent of a settled number where it is. -/
theorem Settled.targetExponent_eq {m : Nat} {e : ℤ} (h : Settled m e) (hm : 0 < m) :
    Format.binary64.targetExponent (totalExponent m e) = e := by
  have hlog : m.log2 < 53 := (Nat.log2_lt (Nat.ne_of_gt hm)).mpr h.lt
  have hleast := h.least_le
  show max ((m.log2 : ℤ) + 1 + e - (53 : Nat)) (-1074) = e
  rcases h.normal with hnormal | rfl
  · have : 52 ≤ m.log2 := (Nat.le_log2 (Nat.ne_of_gt hm)).mpr hnormal
    omega
  · omega

/-! ## Rounding what needs no rounding -/

theorem shiftRight_mul_two_pow (m k : Nat) :
    (⟨m * 2 ^ k, false, false⟩ : ExtendedMantissa) >>> k = ⟨m, false, false⟩ := by
  show k.repeat ExtendedMantissa.shiftRightOne _ = _
  induction k generalizing m with
  | zero => rw [Nat.pow_zero, Nat.mul_one]; rfl
  | succ k ih =>
    have h := ih (m * 2)
    rw [Nat.mul_assoc, ← Nat.pow_succ'] at h
    show ExtendedMantissa.shiftRightOne (k.repeat ExtendedMantissa.shiftRightOne _) = _
    rw [h]
    simp [ExtendedMantissa.shiftRightOne]

theorem shiftToTargetExponent_eq {m m' : Nat} {e e' : ℤ} (hc : Settled m e) (hm : 0 < m)
    (he : e' ≤ e) (h : (m' * 2 ^ e' : ℚ) = m * 2 ^ e) :
    shiftToTargetExponent Format.binary64 m' e' .exact = (⟨m, false, false⟩, e) := by
  have hm' := eq_mul_two_pow he h
  have hpos : 0 < m' := hm' ▸ Nat.mul_pos hm (Nat.two_pow_pos _)
  unfold shiftToTargetExponent shiftToExponent
  rw [totalExponent_eq hm hpos h, hc.targetExponent_eq hm]
  show ((⟨m', false, false⟩ : ExtendedMantissa) >>> (e - e').toNat, e' + ((e - e').toNat : ℤ)) = _
  rw [hm', shiftRight_mul_two_pow]
  congr 1
  omega

/-- A number that is a double stays as it is. -/
theorem roundWithAccuracy_eq {m m' : Nat} {e e' : ℤ} (hc : Settled m e) (hm : 0 < m)
    (he : e' ≤ e) (h : (m' * 2 ^ e' : ℚ) = m * 2 ^ e) (s : Sign) :
    roundWithAccuracy Format.binary64 s m' e' .exact = .finite s m e hm := by
  have hround : (⟨m, false, false⟩ : ExtendedMantissa).roundedMantissa = m := rfl
  unfold roundWithAccuracy
  simp only [shiftToTargetExponent_eq hc hm he h, hround, shiftToTargetExponent_eq hc hm le_rfl rfl]
  exact dif_neg (Nat.ne_of_gt hm)

theorem shiftLeft_mul_two_zpow (m k : Nat) (e : ℤ) :
    ((m <<< k : Nat) * 2 ^ (e - k) : ℚ) = m * 2 ^ e := by
  rw [Nat.shiftLeft_eq]
  push_cast
  rw [← zpow_natCast, mul_assoc, ← zpow_add₀ two_ne_zero]
  congr 2
  omega

theorem round_eq {m m' : Nat} {e e' : ℤ} (hc : Settled m e) (hm : 0 < m) (hm' : 0 < m')
    (h : (m' * 2 ^ e' : ℚ) = m * 2 ^ e) (s : Sign) :
    UnpackedFloat.round Format.binary64 s m' e' = .finite s m e hm := by
  unfold UnpackedFloat.round decreaseExponent
  rw [totalExponent_eq hm hm' h, hc.targetExponent_eq hm]
  exact roundWithAccuracy_eq hc hm (by omega) ((shiftLeft_mul_two_zpow _ _ _).trans h) s

/-! ## Signs -/

theorem apply_one_mul (s t : Sign) : (((s * t).apply 1 : ℤ) : ℚ) = s.apply 1 * t.apply 1 := by
  rw [← Int.cast_mul]
  cases s <;> cases t <;> rfl

theorem apply_one_div (s t : Sign) : (((s / t).apply 1 : ℤ) : ℚ) = s.apply 1 / t.apply 1 := by
  have hunit : ((t.apply 1 : ℤ) : ℚ)⁻¹ = t.apply 1 := by cases t <;> norm_num [Sign.apply]
  rw [div_eq_mul_inv, hunit, ← apply_one_mul]
  rfl

theorem number_finite (s : Sign) {m : Nat} {e : ℤ} (hm : 0 < m) :
    number (.finite s m e hm) = (s.apply 1 : ℤ) * (m * 2 ^ e : ℚ) := by
  cases s with
  | positive => rw [number_positive]; exact (one_mul _).symm
  | negative =>
    rw [number_negative]
    show _ = ((-1 : ℤ) : ℚ) * _
    push_cast
    ring

theorem abs_number_finite (s : Sign) {m : Nat} {e : ℤ} (hm : 0 < m) :
    |number (.finite s m e hm)| = m * 2 ^ e := by
  have hpos := two_zpow_pos e
  have hunit : |((s.apply 1 : ℤ) : ℚ)| = 1 := by cases s <;> rfl
  rw [number_finite, abs_mul, hunit, one_mul, abs_of_nonneg (by positivity)]

theorem number_finite_ne_zero (s : Sign) {m : Nat} {e : ℤ} (hm : 0 < m) :
    number (.finite s m e hm) ≠ 0 := by
  have hpos := two_zpow_pos e
  rw [← abs_pos, abs_number_finite]
  positivity

/-- A finite unpacked double is a zero or has a significand. -/
theorem zero_or_finite {u : UnpackedFloat} (h : u.isFinite = true) :
    (∃ s, u = .zero s) ∨ ∃ s m e hm, u = .finite s m e hm := by
  cases u with
  | notANumber => cases h
  | infinity s => cases h
  | zero s => exact .inl ⟨s, rfl⟩
  | finite s m e hm => exact .inr ⟨s, m, e, hm, rfl⟩

/-- A finite unpacked double of a given number. -/
structure Denotes (u : UnpackedFloat) (q : ℚ) : Prop where
  proper : Proper u
  isFinite : u.isFinite = true
  number : number u = q

theorem denotes_zero (s : Sign) : Denotes (.zero s) 0 := ⟨trivial, rfl, rfl⟩

theorem denotes_parts {x : Float} (hx : x.isFinite = true) : Denotes (parts x) (value x) :=
  ⟨proper_parts x, hx, rfl⟩

theorem value_ofModel_pack {u : UnpackedFloat} {q : ℚ} (h : Denotes u q) :
    (Float.ofModel (Float.Model.pack u)).isFinite = true ∧
      value (.ofModel (Float.Model.pack u)) = q := by
  have hparts := parts_ofModel_pack h.proper
  refine ⟨?_, ?_⟩
  · show (parts _).isFinite = true
    rw [hparts]
    exact h.isFinite
  · rw [value, hparts]
    exact h.number

/-! ## Magnitudes -/

theorem abs_value_eq {x : Float} (hx : x.isFinite = true) :
    ∃ (m : Nat) (e : ℤ), m < 2 ^ 53 ∧ -1074 ≤ e ∧ e ≤ 971 ∧ |value x| = m * 2 ^ e := by
  have hproper := proper_parts x
  unfold value
  rcases zero_or_finite hx with ⟨s, h⟩ | ⟨s, m, e, hm, h⟩
  · have h : parts x = _ := h
    refine ⟨0, 0, by decide, by decide, by decide, ?_⟩
    rw [h, Nat.cast_zero, zero_mul]
    exact abs_zero
  · have h : parts x = _ := h
    rw [h] at hproper ⊢
    exact ⟨m, e, hproper.lt, hproper.least_le, hproper.le_greatest, abs_number_finite s hm⟩

theorem abs_value_lt {x : Float} (hx : x.isFinite = true) : |value x| < 2 ^ (1024 : ℤ) := by
  obtain ⟨m, e, hm, -, he, hvalue⟩ := abs_value_eq hx
  have hm' : (m : ℚ) < 2 ^ (53 : ℤ) := by exact_mod_cast hm
  have hpos := two_zpow_pos e
  calc |value x| = m * 2 ^ e := hvalue
    _ < 2 ^ (53 : ℤ) * 2 ^ e := by gcongr
    _ = 2 ^ (53 + e) := (zpow_add₀ two_ne_zero 53 e).symm
    _ ≤ 2 ^ (1024 : ℤ) := zpow_le_zpow_right₀ one_le_two (by omega)

/-! ## Products -/

theorem Settled.add_le {m m₁ m₂ : Nat} {e e₁ e₂ : ℤ} (h : Settled m e) (h₁ : Canonical m₁ e₁)
    (h₂ : Canonical m₂ e₂) (hm₁ : 0 < m₁) (hm₂ : 0 < m₂)
    (hval : ((m₁ * m₂ : Nat) * 2 ^ (e₁ + e₂) : ℚ) = m * 2 ^ e) : e₁ + e₂ ≤ e := by
  by_contra hlt
  have hlarge : 2 ^ 52 ≤ m₁ * m₂ := by
    rcases h₁.normal with hnormal | h1
    · exact hnormal.trans (Nat.le_mul_of_pos_right m₁ hm₂)
    rcases h₂.normal with hnormal | h2
    · exact hnormal.trans (Nat.le_mul_of_pos_left m₂ hm₁)
    have := h.least_le
    omega
  have hm := eq_mul_two_pow (by omega) hval.symm
  have htwo : 2 ≤ 2 ^ (e₁ + e₂ - e).toNat := Nat.le_self_pow (by omega) 2
  have := Nat.mul_le_mul hlarge htwo
  have := h.lt
  omega

theorem mul_eq_of_settled {m m₁ m₂ : Nat} {e e₁ e₂ : ℤ} (h : Settled m e) (h₁ : Canonical m₁ e₁)
    (h₂ : Canonical m₂ e₂) (hm : 0 < m) (hm₁ : 0 < m₁) (hm₂ : 0 < m₂)
    (hval : ((m₁ * m₂ : Nat) * 2 ^ (e₁ + e₂) : ℚ) = m * 2 ^ e) (s t : Sign) :
    UnpackedFloat.mul Format.binary64 (.finite s m₁ e₁ hm₁) (.finite t m₂ e₂ hm₂) =
      .finite (s * t) m e hm :=
  roundWithAccuracy_eq h hm (h.add_le h₁ h₂ hm₁ hm₂ hval) hval (s * t)

theorem denotes_mul {u v w : UnpackedFloat} {p q : ℚ} (hu : Denotes u p) (hv : Denotes v q)
    (hw : Denotes w (p * q)) : Denotes (UnpackedFloat.mul Format.binary64 u v) (p * q) := by
  obtain ⟨hu, hfu, rfl⟩ := hu
  obtain ⟨hv, hfv, rfl⟩ := hv
  obtain ⟨hw, hfw, hval⟩ := hw
  rcases zero_or_finite hfu with ⟨s, rfl⟩ | ⟨s, m₁, e₁, hm₁, rfl⟩
  · rcases zero_or_finite hfv with ⟨t, rfl⟩ | ⟨t, m₂, e₂, hm₂, rfl⟩
    · exact ⟨trivial, rfl, (zero_mul _).symm⟩
    · exact ⟨trivial, rfl, (zero_mul _).symm⟩
  rcases zero_or_finite hfv with ⟨t, rfl⟩ | ⟨t, m₂, e₂, hm₂, rfl⟩
  · exact ⟨trivial, rfl, (mul_zero _).symm⟩
  rcases zero_or_finite hfw with ⟨r, rfl⟩ | ⟨r, m, e, hm, rfl⟩
  · exact absurd hval.symm (mul_ne_zero (number_finite_ne_zero s hm₁) (number_finite_ne_zero t hm₂))
  have habs : ((m₁ * m₂ : Nat) * 2 ^ (e₁ + e₂) : ℚ) = m * 2 ^ e := by
    rw [← abs_number_finite r hm, hval, abs_mul, abs_number_finite, abs_number_finite,
      zpow_add₀ two_ne_zero]
    push_cast
    ring
  rw [mul_eq_of_settled hw.settled hu hv hm hm₁ hm₂ habs]
  refine ⟨hw, rfl, ?_⟩
  rw [number_finite, number_finite, number_finite, ← habs, apply_one_mul, zpow_add₀ two_ne_zero]
  push_cast
  ring

/-! ## Quotients -/

theorem Canonical.divExponent_le {m m₁ m₂ : Nat} {e e₁ e₂ : ℤ} (h : Canonical m e) (hm : 0 < m)
    (hm₁ : 0 < m₁) (hm₂ : 0 < m₂) (hval : (m₁ * 2 ^ e₁ : ℚ) = m * 2 ^ e * (m₂ * 2 ^ e₂)) :
    Format.binary64.targetExponent (totalExponent m₁ e₁ - totalExponent m₂ e₂) ≤ e := by
  have hlog : m.log2 < 53 := (Nat.log2_lt (Nat.ne_of_gt hm)).mpr h.lt
  have hleast := h.least_le
  have hpow : (2 : ℚ) ^ (m₁.log2 + e₁) < 2 ^ (m.log2 + 1 + e + (m₂.log2 + 1 + e₂)) := by
    calc (2 : ℚ) ^ (m₁.log2 + e₁) ≤ m₁ * 2 ^ e₁ := (log2_bounds hm₁ e₁).1
      _ = m * 2 ^ e * (m₂ * 2 ^ e₂) := hval
      _ < 2 ^ (m.log2 + 1 + e) * 2 ^ (m₂.log2 + 1 + e₂) := by
        have := two_zpow_pos e
        have := two_zpow_pos e₂
        exact mul_lt_mul'' (log2_bounds hm e).2 (log2_bounds hm₂ e₂).2 (by positivity)
          (by positivity)
      _ = 2 ^ (m.log2 + 1 + e + (m₂.log2 + 1 + e₂)) := (zpow_add₀ two_ne_zero _ _).symm
  have hlt := two_zpow_lt_iff.mp hpow
  show max ((m₁.log2 : ℤ) + 1 + e₁ - (m₂.log2 + 1 + e₂) - (53 : Nat)) (-1074) ≤ e
  omega

theorem divCore_eq {m m₁ m₂ : Nat} {e e₁ e₂ : ℤ} (h : Canonical m e) (hm : 0 < m)
    (hm₁ : 0 < m₁) (hm₂ : 0 < m₂) (hval : (m₁ * 2 ^ e₁ : ℚ) = m * 2 ^ e * (m₂ * 2 ^ e₂)) :
    ∃ m' e', divCore Format.binary64 m₁ e₁ m₂ e₂ = (m', e', .exact) ∧ e' ≤ e ∧
      (m' * 2 ^ e' : ℚ) = m * 2 ^ e := by
  have htarget := h.divExponent_le hm hm₁ hm₂ hval
  unfold divCore
  generalize Format.binary64.targetExponent _ = target at *
  simp only [Nat.shiftLeft_eq]
  have hle : min (e₁ - e₂) target ≤ e₁ - e₂ := min_le_left _ _
  have hle' : min (e₁ - e₂) target ≤ e := (min_le_right _ _).trans htarget
  generalize min (e₁ - e₂) target = e' at *
  have hscaled : ((m₁ * 2 ^ (e₁ - e₂ - e').toNat : Nat) * 2 ^ e' : ℚ) = (m * m₂ : Nat) * 2 ^ e := by
    have he₁ : (2 : ℚ) ^ e₁ = 2 ^ (e₁ - e₂ - e').toNat * 2 ^ e' * 2 ^ e₂ := by
      rw [← zpow_natCast, ← zpow_add₀ two_ne_zero, ← zpow_add₀ two_ne_zero]
      congr 1
      omega
    rw [he₁] at hval
    apply mul_right_cancel₀ (two_zpow_pos e₂).ne'
    push_cast
    linarith
  have hnum := eq_mul_two_pow hle' hscaled
  rw [Nat.mul_right_comm] at hnum
  refine ⟨m * 2 ^ (e - e').toNat, e', ?_, hle', ?_⟩
  · rw [hnum, Nat.mul_div_cancel _ hm₂, Nat.mul_mod_left]
    rfl
  · push_cast
    rw [mul_assoc, ← zpow_natCast, ← zpow_add₀ two_ne_zero]
    congr 2
    omega

theorem denotes_div {u v w : UnpackedFloat} {p q : ℚ} (hu : Denotes u p) (hv : Denotes v q)
    (hq : q ≠ 0) (hw : Denotes w (p / q)) :
    Denotes (UnpackedFloat.div Format.binary64 u v) (p / q) := by
  obtain ⟨hu, hfu, rfl⟩ := hu
  obtain ⟨hv, hfv, rfl⟩ := hv
  obtain ⟨hw, hfw, hval⟩ := hw
  rcases zero_or_finite hfv with ⟨t, rfl⟩ | ⟨t, m₂, e₂, hm₂, rfl⟩
  · exact absurd rfl hq
  rcases zero_or_finite hfu with ⟨s, rfl⟩ | ⟨s, m₁, e₁, hm₁, rfl⟩
  · exact ⟨trivial, rfl, (zero_div _).symm⟩
  rcases zero_or_finite hfw with ⟨r, rfl⟩ | ⟨r, m, e, hm, rfl⟩
  · exact absurd hval.symm (div_ne_zero (number_finite_ne_zero s hm₁) hq)
  have habs : (m₁ * 2 ^ e₁ / (m₂ * 2 ^ e₂) : ℚ) = m * 2 ^ e := by
    rw [← abs_number_finite r hm, hval, abs_div, abs_number_finite, abs_number_finite]
  have hpos : (m₂ * 2 ^ e₂ : ℚ) ≠ 0 := by
    rw [← abs_number_finite t hm₂]
    exact abs_ne_zero.mpr hq
  obtain ⟨m', e', hcore, he', hval'⟩ := divCore_eq hw hm hm₁ hm₂ ((div_eq_iff hpos).mp habs)
  have hdiv : UnpackedFloat.div Format.binary64 (.finite s m₁ e₁ hm₁) (.finite t m₂ e₂ hm₂) =
      .finite (s / t) m e hm := by
    simp only [UnpackedFloat.div, hcore]
    exact roundWithAccuracy_eq hw.settled hm he' hval' (s / t)
  rw [hdiv]
  refine ⟨hw, rfl, ?_⟩
  rw [number_finite, number_finite, number_finite, ← habs, apply_one_div,
    mul_div_mul_comm ((s.apply 1 : ℤ) : ℚ)]

/-! ## Whole numbers -/

theorem exists_canonical {n : Nat} {e : ℤ} (hn : 0 < n) (hlt : n < 2 ^ 53) (hleast : -1074 ≤ e)
    (hgreatest : e ≤ 971) :
    ∃ m e', Canonical m e' ∧ 0 < m ∧ (n * 2 ^ e : ℚ) = m * 2 ^ e' := by
  have hlog : n.log2 < 53 := (Nat.log2_lt (Nat.ne_of_gt hn)).mpr hlt
  obtain ⟨k, hk⟩ : ∃ k, k = min (52 - n.log2) (e + 1074).toNat := ⟨_, rfl⟩
  refine ⟨n * 2 ^ k, e - k, ⟨?_, by omega, by omega, ?_⟩, Nat.mul_pos hn (Nat.two_pow_pos k), ?_⟩
  · calc n * 2 ^ k < 2 ^ (n.log2 + 1) * 2 ^ k :=
        Nat.mul_lt_mul_of_pos_right Nat.lt_log2_self (Nat.two_pow_pos k)
      _ = 2 ^ (n.log2 + 1 + k) := (Nat.pow_add 2 _ _).symm
      _ ≤ 2 ^ 53 := Nat.pow_le_pow_right (by decide) (by omega)
  · rcases Nat.le_total (52 - n.log2) (e + 1074).toNat with h | h
    · left
      calc 2 ^ 52 ≤ 2 ^ (n.log2 + k) := Nat.pow_le_pow_right (by decide) (by omega)
        _ = 2 ^ n.log2 * 2 ^ k := Nat.pow_add 2 _ _
        _ ≤ n * 2 ^ k := Nat.mul_le_mul_right _ (Nat.log2_self_le (Nat.ne_of_gt hn))
    · right
      omega
  · push_cast
    rw [mul_assoc, ← zpow_natCast, ← zpow_add₀ two_ne_zero]
    congr 2
    omega

/-- The number is that of a finite double. -/
def IsDouble (q : ℚ) : Prop := ∃ u, Denotes u q

theorem isDouble_mul_two_zpow {n e : ℤ} (hn : n.natAbs < 2 ^ 53) (hleast : -1074 ≤ e)
    (hgreatest : e ≤ 971) : IsDouble (n * 2 ^ e) := by
  rcases Int.lt_trichotomy n 0 with h | rfl | h
  · obtain ⟨m, e', hc, hm, hval⟩ := exists_canonical (by omega) hn hleast hgreatest
    refine ⟨.finite .negative m e' hm, hc, rfl, ?_⟩
    rw [number_negative, ← hval, Nat.cast_natAbs, abs_of_neg h]
    push_cast
    ring
  · refine ⟨.zero .positive, ?_⟩
    rw [Int.cast_zero, zero_mul]
    exact denotes_zero .positive
  · obtain ⟨m, e', hc, hm, hval⟩ := exists_canonical (by omega) hn hleast hgreatest
    refine ⟨.finite .positive m e' hm, hc, rfl, ?_⟩
    rw [number_positive, ← hval, Nat.cast_natAbs, abs_of_pos h]

theorem isDouble_two_zpow {e : ℤ} (hleast : -1074 ≤ e) (hgreatest : e ≤ 971) : IsDouble (2 ^ e) := by
  have h := isDouble_mul_two_zpow (n := 1) (by decide) hleast hgreatest
  rwa [Int.cast_one, one_mul] at h

theorem isDouble_intCast {n : ℤ} (hn : n.natAbs < 2 ^ 53) : IsDouble n := by
  have h := isDouble_mul_two_zpow (e := 0) hn (by decide) (by decide)
  rwa [zpow_zero, mul_one] at h

/-! ## Doubles -/

theorem value_mul_of_exact {x y : Float} (hx : x.isFinite = true) (hy : y.isFinite = true)
    (h : IsDouble (value x * value y)) :
    (x * y).isFinite = true ∧ value (x * y) = value x * value y := by
  obtain ⟨w, hw⟩ := h
  exact value_ofModel_pack (denotes_mul (denotes_parts hx) (denotes_parts hy) hw)

theorem value_mul_of_value_eq_zero {x y : Float} (hx : x.isFinite = true) (hzero : value x = 0)
    (hy : y.isFinite = true) : (x * y).isFinite = true ∧ value (x * y) = 0 := by
  have hproduct : value x * value y = 0 := by rw [hzero, zero_mul]
  have h := value_mul_of_exact hx hy (hproduct ▸ ⟨_, denotes_zero .positive⟩)
  rwa [hproduct] at h

theorem value_div_of_exact {x y : Float} (hx : x.isFinite = true) (hy : y.isFinite = true)
    (hne : value y ≠ 0) (h : IsDouble (value x / value y)) :
    (x / y).isFinite = true ∧ value (x / y) = value x / value y := by
  obtain ⟨w, hw⟩ := h
  exact value_ofModel_pack (denotes_div (denotes_parts hx) (denotes_parts hy) hne hw)

theorem value_ofCount {n : Nat} (hn : n < 2 ^ 53) :
    (ofCount n).isFinite = true ∧ value (ofCount n) = n := by
  refine value_ofModel_pack (u := normalize Format.binary64 (n.toUInt64.toNat : ℤ) 0 .positive) ?_
  have hword : n.toUInt64.toNat = n := UInt64.toNat_ofNat_of_lt' (by
    show n < 18446744073709551616
    omega)
  rw [hword]
  rcases Nat.eq_zero_or_pos n with rfl | hpos
  · rw [Nat.cast_zero]
    exact denotes_zero .positive
  · obtain ⟨m, e, hc, hm, hval⟩ := exists_canonical hpos hn (e := 0) (by decide) (by decide)
    have hnormalize : normalize Format.binary64 (n : ℤ) 0 .positive = .finite .positive m e hm := by
      unfold UnpackedFloat.normalize
      rw [Int.compare_eq_gt.mpr (by omega)]
      exact round_eq hc.settled hm hpos hval .positive
    rw [hnormalize]
    refine ⟨hc, rfl, ?_⟩
    rw [number_positive, ← hval, zpow_zero, mul_one]

theorem toFloat_eq_ofCount (n : UInt32) : n.toFloat = ofCount n.toNat := by
  have hword : n.toNat.toUInt64.toNat = n.toNat := UInt64.toNat_ofNat_of_lt' (by
    have := n.toNat_lt
    show n.toNat < 18446744073709551616
    omega)
  unfold ofCount UInt32.toFloat UInt64.toFloat Float.Model.ofUInt32 Float.Model.ofUInt64
    UnpackedFloat.ofUInt64
  rw [hword]
  rfl

theorem value_toFloat (n : UInt32) : n.toFloat.isFinite = true ∧ value n.toFloat = n.toNat := by
  have := n.toNat_lt
  rw [toFloat_eq_ofCount]
  exact value_ofCount (by omega)

theorem isFinite_neg (x : Float) : (-x).isFinite = x.isFinite := by
  show (parts (-x)).isFinite = (parts x).isFinite
  rw [parts_neg]
  cases parts x <;> rfl

theorem isNaN_of_isFinite {x : Float} (hx : x.isFinite = true) : x.isNaN = false := by
  change (parts x).isFinite = true at hx
  show (parts x).isNaN = false
  cases hparts : parts x with
  | notANumber => rw [hparts] at hx; cases hx
  | _ => rfl

theorem parts_ne_infinity {x : Float} (hx : x.isFinite = true) (s : Sign) :
    parts x ≠ .infinity s := by
  intro h
  change (parts x).isFinite = true at hx
  rw [h] at hx
  cases hx

def ofWhole (n : Int) : Float :=
  if n < 0 then -ofCount n.natAbs else ofCount n.natAbs

theorem value_ofWhole {n : Int} (hn : n.natAbs < 2 ^ 53) :
    (ofWhole n).isFinite = true ∧ value (ofWhole n) = n := by
  obtain ⟨hfinite, hvalue⟩ := value_ofCount hn
  rw [Nat.cast_natAbs] at hvalue
  unfold ofWhole
  split
  · next h =>
    rw [isFinite_neg, value_neg, hvalue, abs_of_neg h]
    exact ⟨hfinite, by push_cast; exact neg_neg _⟩
  · next h =>
    rw [hvalue, abs_of_nonneg (by omega)]
    exact ⟨hfinite, rfl⟩

/-! ## Whole doubles -/

theorem toInt_of_value_eq {x : Float} {n : Int} (hx : x.isFinite = true) (hv : value x = n)
    (hl : -2147483648 ≤ n) (hh : n ≤ 2147483647) : toInt x = n := by
  rw [toInt_eq hx, hv]
  split
  · next h =>
    have hneg : n < 0 := Int.cast_lt_zero.mp h
    have hcast : (-n : ℚ) = n.natAbs := by rw [Nat.cast_natAbs, abs_of_neg hneg, Int.cast_neg]
    rw [hcast, Nat.floor_natCast]
    omega
  · next h =>
    have hpos : 0 ≤ n := by exact_mod_cast not_lt.mp h
    have hcast : (n : ℚ) = n.natAbs := by rw [Nat.cast_natAbs, abs_of_nonneg hpos]
    rw [hcast, Nat.floor_natCast]
    omega

end ToneScore.Binary64
