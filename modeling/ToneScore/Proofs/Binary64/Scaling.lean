import ToneScore.Proofs.Binary64.Exact

/-!
# Products with powers of two

A double times a power of two keeps its significand. The product is exact as long as its exponent
fits, and an infinity of its sign otherwise (`value_mul_two_pow`); nothing is rounded in between.
-/

namespace ToneScore.Binary64

open Float.Model (UnpackedFloat Format)
open Float.Model.UnpackedFloat

theorem parts_pack_overflow {s : Sign} {m : Nat} {e : ℤ} (hm : 0 < m) (h : 971 < e) :
    parts (.ofModel (Float.Model.pack (.finite s m e hm))) = .infinity s := by
  have hbiased : e + Format.binary64.exponentBias + Format.binary64.mantissaBitsWithoutImplicit =
      e + 1075 := by
    show e + (1023 : Nat) + (52 : Nat) = _
    omega
  show UnpackedFloat.unpack _ (UnpackedFloat.pack _ _) = _
  unfold UnpackedFloat.pack
  simp only [hbiased]
  rw [if_pos (by show 2 ^ 11 ≤ _; omega)]
  cases s <;> rfl

theorem two_pow_le_of_overflow {m : Nat} {e : ℤ} (hm : 2 ^ 52 ≤ m) (h : 971 < e) :
    (2 : ℚ) ^ (1024 : ℤ) ≤ m * 2 ^ e := by
  have hm' : (2 ^ (52 : ℤ) : ℚ) ≤ m := by exact_mod_cast hm
  have hpow : (2 : ℚ) ^ (972 : ℤ) ≤ 2 ^ e := zpow_le_zpow_right₀ one_le_two (by omega)
  calc (2 : ℚ) ^ (1024 : ℤ) = 2 ^ (52 : ℤ) * 2 ^ (972 : ℤ) := (zpow_add₀ two_ne_zero 52 972)
    _ ≤ m * 2 ^ e := by gcongr

theorem mul_positive (s : Sign) : s * .positive = s := by cases s <;> rfl

/-- The double is an infinity, and on the same side the number is at least as large as every finite
double. -/
inductive Overflows (x : Float) (q : ℚ) : Prop where
  | positive (h : parts x = .infinity .positive) (hq : 2 ^ (1024 : ℤ) ≤ q)
  | negative (h : parts x = .infinity .negative) (hq : q ≤ -2 ^ (1024 : ℤ))

variable {x y : Float} {k : Nat}

theorem parts_of_value_pos (hy : y.isFinite = true) (hpos : 0 < value y) :
    ∃ m e hm, parts y = .finite .positive m e hm ∧ (m * 2 ^ e : ℚ) = value y := by
  unfold value at hpos ⊢
  rcases zero_or_finite hy with ⟨t, h⟩ | ⟨t, m, e, hm, h⟩
  · have h : parts y = _ := h
    rw [h] at hpos
    exact absurd hpos (lt_irrefl 0)
  · have h : parts y = _ := h
    rw [h] at hpos ⊢
    cases t with
    | positive => exact ⟨m, e, hm, rfl, (number_positive hm).symm⟩
    | negative => exact absurd hpos (number_neg_of_negative hm).not_gt

theorem parts_mul {u : UnpackedFloat} (h : UnpackedFloat.mul Format.binary64 (parts x) (parts y) = u)
    (hu : Proper u) : parts (x * y) = u := by
  subst h
  exact parts_ofModel_pack hu

theorem parts_div {x y : Float} {u : UnpackedFloat}
    (h : UnpackedFloat.div Format.binary64 (parts x) (parts y) = u) (hu : Proper u) :
    parts (x / y) = u := by
  subst h
  exact parts_ofModel_pack hu

theorem parts_infinity_mul {s : Sign} (hx : parts x = .infinity s) (hy : y.isFinite = true)
    (hpos : 0 < value y) : parts (x * y) = .infinity s := by
  obtain ⟨m, e, hm, hparts, -⟩ := parts_of_value_pos hy hpos
  refine parts_mul ?_ trivial
  rw [hx, hparts]
  exact congrArg UnpackedFloat.infinity (mul_positive s)

theorem parts_mul_infinity {s : Sign} (hx : x.isFinite = true) (hpos : 0 < value x)
    (hy : parts y = .infinity s) : parts (x * y) = .infinity s := by
  obtain ⟨m, e, hm, hparts, -⟩ := parts_of_value_pos hx hpos
  refine parts_mul ?_ trivial
  rw [hy, hparts]
  cases s <;> rfl

theorem isNaN_mul (hx : x.isNaN = true) : (x * y).isNaN = true := by
  have hparts : parts x = .notANumber := by
    change (parts x).isNaN = true at hx
    generalize parts x = u at *
    cases u <;> first | rfl | cases hx
  have hmul : parts (x * y) = .notANumber := by
    refine parts_mul ?_ trivial
    rw [hparts]
    rfl
  show (parts (x * y)).isNaN = true
  rw [hmul]
  rfl

theorem overflows_mul_two_pow {s : Sign} {m : Nat} {e : ℤ} {hm : 0 < m}
    (hx : parts x = .finite s m e hm) (hy : y.isFinite = true) (hv : value y = 2 ^ k)
    (hk : k ≤ 1074) (h : 971 < e + k) : Overflows (x * y) (value x * 2 ^ k) := by
  have hproper := proper_parts x
  rw [hx] at hproper
  obtain ⟨m₂, e₂, hm₂, hparts, hval⟩ := parts_of_value_pos hy (by rw [hv]; positivity)
  rw [hv] at hval
  have hproper₂ := proper_parts y
  rw [hparts] at hproper₂
  have hnormal : 2 ^ 52 ≤ m := hproper.normal.resolve_right (by omega)
  have hleast := hproper.least_le
  have hsettled : Settled m (e + k) := ⟨hproper.lt, by omega, .inl hnormal⟩
  have hproduct : ((m * m₂ : Nat) * 2 ^ (e + e₂) : ℚ) = m * 2 ^ (e + k) := by
    rw [zpow_add₀ two_ne_zero, zpow_add₀ two_ne_zero, zpow_natCast, ← hval]
    push_cast
    ring
  have hmul : parts (x * y) = .infinity s := by
    show parts (.ofModel (Float.Model.pack (UnpackedFloat.mul _ (parts x) (parts y)))) = _
    rw [hx, hparts, mul_eq_of_settled hsettled hproper hproper₂ hm hm hm₂ hproduct, mul_positive]
    exact parts_pack_overflow hm h
  have hlarge : (2 : ℚ) ^ (1024 : ℤ) ≤ m * 2 ^ e * 2 ^ k := by
    have hle := two_pow_le_of_overflow hnormal h
    rwa [zpow_add₀ two_ne_zero, zpow_natCast, ← mul_assoc] at hle
  unfold value
  rw [hx]
  cases s with
  | positive => exact .positive hmul (by rw [number_positive]; exact hlarge)
  | negative => exact .negative hmul (by rw [number_negative]; linarith)

theorem natAbs_apply (s : Sign) (m : Nat) : (s.apply m).natAbs = m := by
  cases s with
  | negative => exact Int.natAbs_neg _
  | positive => rfl

theorem value_mul_two_pow (hx : x.isFinite = true) (hy : y.isFinite = true) (hv : value y = 2 ^ k)
    (hk : k ≤ 1074) :
    ((x * y).isFinite = true ∧ value (x * y) = value x * 2 ^ k) ∨
      Overflows (x * y) (value x * 2 ^ k) := by
  suffices h : IsDouble (value x * 2 ^ k) ∨ Overflows (x * y) (value x * 2 ^ k) by
    rcases h with hdouble | hover
    · left
      rw [← hv] at hdouble ⊢
      exact value_mul_of_exact hx hy hdouble
    · exact .inr hover
  have hproper := proper_parts x
  rcases zero_or_finite hx with ⟨s, h⟩ | ⟨s, m, e, hm, h⟩
  · have h : parts x = _ := h
    left
    rw [value, h, show number (.zero s) = 0 from rfl, zero_mul]
    exact ⟨_, denotes_zero .positive⟩
  · have h : parts x = _ := h
    rw [h] at hproper
    rcases Int.lt_or_le 971 (e + k) with hlarge | hfits
    · exact .inr (overflows_mul_two_pow h hy hv hk hlarge)
    left
    have hvalue : value x * 2 ^ k = (s.apply m : ℤ) * 2 ^ (e + k) := by
      rw [value, h, number, zpow_add₀ two_ne_zero, zpow_natCast, mul_assoc]
    have hlt := hproper.lt
    have hleast := hproper.least_le
    rw [hvalue]
    exact isDouble_mul_two_zpow (by rw [natAbs_apply]; exact hlt) (by omega) hfits

end ToneScore.Binary64
