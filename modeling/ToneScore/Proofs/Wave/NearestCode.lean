import ToneScore.Proofs.Wave.Clamping

/-!
# Codes without rounding error

The code of a finite sample is the whole number nearest to the exact product of sample and full
scale, halves going away from zero, held inside the range of codes. So codes keep the order of the
samples (`quantize_mono`), and between the ends of the range the opposite sample has the opposite
code (`quantize_neg`).
-/

namespace ToneScore.Wave

open Binary64

variable {x y : Float} {bits : UInt16}

def IsLimit (bits : UInt16) (code : ℤ) : Prop :=
  code = -2 ^ (codeBits bits - 1) ∨ code = 2 ^ (codeBits bits - 1) - 1

theorem quantize_infinity_positive (h : parts x = .infinity .positive) :
    quantize x bits = 2 ^ (codeBits bits - 1) - 1 :=
  quantize_of_one_lt (lt_of_parts_positive rfl h)

theorem quantize_infinity_negative (h : parts x = .infinity .negative) :
    quantize x bits = -2 ^ (codeBits bits - 1) :=
  quantize_of_lt_neg_one (lt_of_parts_negative h rfl)

theorem clamp_mono {m n : ℤ} (h : m ≤ n) : clamp bits m ≤ clamp bits n := by
  unfold clamp
  omega

theorem quantize_le_of_isFinite (hx : x.isFinite = true) (hy : y.isFinite = true) (h : x ≤ y) :
    quantize x bits ≤ quantize y bits := by
  have hvalue := (le_iff_value_le hx hy).mp h
  rw [quantize_of_isFinite hx, quantize_of_isFinite hy]
  exact clamp_mono (nearest_mono (by gcongr))

theorem quantize_mono (h : x ≤ y) : quantize x bits ≤ quantize y bits := by
  obtain ⟨hx, hy⟩ := isNaN_of_le h
  obtain ⟨hlow, -⟩ := quantize_mem y bits
  obtain ⟨-, hhigh⟩ := quantize_mem x bits
  rcases finite_or_infinity hx with hfx | ⟨s, hs⟩
  · rcases finite_or_infinity hy with hfy | ⟨t, ht⟩
    · exact quantize_le_of_isFinite hfx hfy h
    cases t with
    | positive => rwa [quantize_infinity_positive ht]
    | negative => exact absurd h (not_le_of_lt (lt_of_parts_negative ht hfx))
  cases s with
  | negative => rwa [quantize_infinity_negative hs]
  | positive =>
    -- Only the same infinity is at least as large.
    rcases finite_or_infinity hy with hfy | ⟨t, ht⟩
    · exact absurd h (not_le_of_lt (lt_of_parts_positive hfy hs))
    cases t with
    | positive => rw [quantize_infinity_positive hs, quantize_infinity_positive ht]
    | negative =>
      refine absurd h (not_le_of_lt (lt_iff_compare.mpr ?_))
      unfold parts
      rw [ht, hs]
      rfl

theorem eq_of_not_isLimit {n : ℤ} (h : ¬ IsLimit bits (clamp bits n)) : clamp bits n = n := by
  unfold IsLimit clamp at *
  omega

theorem quantize_neg (h : ¬ IsLimit bits (quantize x bits))
    (hneg : ¬ IsLimit bits (quantize (-x) bits)) : quantize (-x) bits = -quantize x bits := by
  by_cases hnan : x.isNaN = true
  · have hnan' : (-x).isNaN = true := by rwa [isNaN_neg]
    rw [quantize_of_isNaN hnan, quantize_of_isNaN hnan', neg_zero]
  rcases finite_or_infinity (Bool.eq_false_iff.mpr hnan) with hfinite | ⟨s, hs⟩
  · have hfinite' : (-x).isFinite = true := by rwa [isFinite_neg]
    rw [quantize_of_isFinite hfinite] at h ⊢
    rw [quantize_of_isFinite hfinite'] at hneg ⊢
    rw [eq_of_not_isLimit hneg, eq_of_not_isLimit h, value_neg, neg_mul, nearest_neg]
  · cases s with
    | positive => exact absurd (.inr (quantize_infinity_positive hs)) h
    | negative => exact absurd (.inl (quantize_infinity_negative hs)) h

/--
The code of a finite sample is the whole number nearest to the exact product with full scale, held
inside the range. An infinity has the code at its end of the range, and NaN has 0. Codes keep the
order of samples, and opposite samples have opposite codes unless one stands at an end.
-/
theorem quantize_nearest (bits : UInt16) :
    (∀ x : Float, x.isFinite = true →
      ∃ n, IsNearest n (value x * 2 ^ (codeBits bits - 1)) ∧
        quantize x bits = max (-2 ^ (codeBits bits - 1)) (min n (2 ^ (codeBits bits - 1) - 1))) ∧
    (∀ x, parts x = .infinity .positive → quantize x bits = 2 ^ (codeBits bits - 1) - 1) ∧
    (∀ x, parts x = .infinity .negative → quantize x bits = -2 ^ (codeBits bits - 1)) ∧
    (∀ x : Float, x.isNaN = true → quantize x bits = 0) ∧
    (∀ x y : Float, x ≤ y → quantize x bits ≤ quantize y bits) ∧
    ∀ x : Float, ¬ IsLimit bits (quantize x bits) → ¬ IsLimit bits (quantize (-x) bits) →
      quantize (-x) bits = -quantize x bits := by
  refine ⟨fun x hx => ?_, fun x => quantize_infinity_positive, fun x => quantize_infinity_negative,
    fun x => quantize_of_isNaN, fun x y => quantize_mono, fun x => quantize_neg⟩
  exact ⟨_, isNearest_nearest _, quantize_of_isFinite hx⟩

/--
Half a step of 16 bits goes away from zero on either side, below an infinity that has the highest
code.
-/
theorem quantize_nearest_half :
    (∃ n, IsNearest n (value 1.52587890625e-5 * 2 ^ (codeBits 16 - 1)) ∧
      1 = max (-2 ^ (codeBits 16 - 1)) (min n (2 ^ (codeBits 16 - 1) - 1))) ∧
    quantize (1.0 / 0.0) 16 = 2 ^ (codeBits 16 - 1) - 1 ∧
    quantize (-1.0 / 0.0) 16 = -2 ^ (codeBits 16 - 1) ∧
    quantize (0.0 / 0.0) 16 = 0 ∧
    quantize 1.52587890625e-5 16 ≤ quantize (1.0 / 0.0) 16 ∧
    quantize (-1.52587890625e-5) 16 = -1 := by
  have hhalf : quantize 1.52587890625e-5 16 = 1 := by decide +kernel
  have hopposite : quantize (-1.52587890625e-5) 16 = -1 := by decide +kernel
  have hnotLimit : ¬ IsLimit 16 1 ∧ ¬ IsLimit 16 (-1) := by
    unfold IsLimit
    decide
  obtain ⟨hfinite, hpositive, hnegative, hnan, hmono, hneg⟩ := quantize_nearest 16
  have hnearest := hfinite 1.52587890625e-5 (by decide +kernel)
  have hminus := hneg 1.52587890625e-5 (hhalf ▸ hnotLimit.1) (hopposite ▸ hnotLimit.2)
  rw [hhalf] at hnearest hminus
  exact ⟨hnearest, hpositive _ rfl, hnegative _ rfl,
    hnan _ (by decide +kernel), hmono _ _ (by decide +kernel), hminus⟩

end ToneScore.Wave
