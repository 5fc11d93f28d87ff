import ToneScore.Proofs.Binary64.Exact

/-!
# Sums that are doubles

Two doubles are added at the smaller of their exponents, and the sum is rounded once. A sum or a
difference that is a double is therefore exact (`value_add_of_exact`, `value_sub_of_exact`).
-/

namespace ToneScore.Binary64

open Float.Model (UnpackedFloat Format)
open Float.Model.UnpackedFloat

theorem denotes_round {s : Sign} {m : Nat} {e : ℤ} {q : ℚ} {w : UnpackedFloat} (hw : Denotes w q)
    (hm : 0 < m) (h : number (.finite s m e hm) = q) :
    Denotes (UnpackedFloat.round Format.binary64 s m e) q := by
  obtain ⟨hw, hfw, hval⟩ := hw
  rcases zero_or_finite hfw with ⟨r, rfl⟩ | ⟨r, m', e', hm', rfl⟩
  · exact absurd (h.trans hval.symm) (number_finite_ne_zero s hm)
  have habs : (m * 2 ^ e : ℚ) = m' * 2 ^ e' := by
    rw [← abs_number_finite s hm, h, ← hval, abs_number_finite]
  rw [round_eq hw.settled hm' hm habs]
  refine ⟨hw, rfl, ?_⟩
  rw [number_finite, ← habs, ← number_finite s hm, h]

theorem denotes_normalize {n e : ℤ} {q : ℚ} {w : UnpackedFloat} (hw : Denotes w q)
    (h : (n * 2 ^ e : ℚ) = q) (zero : Sign) :
    Denotes (UnpackedFloat.normalize Format.binary64 n e zero) q := by
  unfold UnpackedFloat.normalize
  rcases Int.lt_trichotomy n 0 with hn | rfl | hn
  · rw [Int.compare_eq_lt.mpr hn]
    have hcast : (((-n).toNat : ℤ) : ℚ) = -n := by
      rw [Int.toNat_of_nonneg (by omega), Int.cast_neg]
    refine denotes_round hw (by omega) ?_
    rw [number_negative, ← Int.cast_natCast, hcast, neg_mul, neg_neg, h]
  · rw [← h, Int.cast_zero, zero_mul]
    exact denotes_zero zero
  · rw [Int.compare_eq_gt.mpr hn]
    refine denotes_round hw (by omega) ?_
    rw [number_positive, ← Int.cast_natCast, Int.toNat_of_nonneg hn.le, h]

theorem apply_shiftLeft (s : Sign) {m : Nat} {e t : ℤ} (hm : 0 < m) (h : t ≤ e) :
    (s.apply (m <<< (e - t).toNat : Nat) * 2 ^ t : ℚ) = number (.finite s m e hm) := by
  have hshift := shiftLeft_mul_two_zpow m (e - t).toNat e
  rw [show e - ((e - t).toNat : ℤ) = t by omega] at hshift
  generalize m <<< (e - t).toNat = n at *
  cases s with
  | positive => rw [number_positive, ← hshift]; rfl
  | negative =>
    rw [number_negative, ← hshift, ← neg_mul]
    show ((-(n : ℤ) : ℤ) : ℚ) * 2 ^ t = _
    push_cast
    rfl

/-- Adding zero changes nothing, except that it can be a zero of the other sign. -/
theorem denotes_add_zero {u : UnpackedFloat} {q : ℚ} (hu : Denotes u q) (s : Sign) :
    Denotes (UnpackedFloat.add Format.binary64 (.zero s) u) q ∧
      Denotes (UnpackedFloat.add Format.binary64 u (.zero s)) q := by
  rcases zero_or_finite hu.isFinite with ⟨t, rfl⟩ | ⟨t, m, e, hm, rfl⟩
  · obtain rfl := hu.number
    constructor <;> cases s <;> cases t <;> exact denotes_zero _
  · exact ⟨hu, hu⟩

theorem denotes_add {u v w : UnpackedFloat} {p q : ℚ} (hu : Denotes u p) (hv : Denotes v q)
    (hw : Denotes w (p + q)) : Denotes (UnpackedFloat.add Format.binary64 u v) (p + q) := by
  rcases zero_or_finite hu.isFinite with ⟨s, rfl⟩ | ⟨s, m₁, e₁, hm₁, rfl⟩
  · obtain rfl := hu.number
    rw [show number (.zero s) = 0 from rfl, zero_add]
    exact (denotes_add_zero hv s).1
  rcases zero_or_finite hv.isFinite with ⟨t, rfl⟩ | ⟨t, m₂, e₂, hm₂, rfl⟩
  · obtain rfl := hv.number
    rw [show number (.zero t) = 0 from rfl, add_zero]
    exact (denotes_add_zero hu t).2
  refine denotes_normalize hw ?_ .positive
  rw [← hu.number, ← hv.number, ← apply_shiftLeft s hm₁ (min_le_left e₁ e₂),
    ← apply_shiftLeft t hm₂ (min_le_right e₁ e₂), ← add_mul]
  push_cast
  rfl

theorem sub_eq_add_of_neg (u v : UnpackedFloat) :
    UnpackedFloat.sub Format.binary64 u v = UnpackedFloat.add Format.binary64 u v.neg := by
  cases u <;> cases v <;> try rfl
  case finite.finite s₁ m₁ e₁ h₁ s₂ m₂ e₂ h₂ =>
    simp only [UnpackedFloat.sub, UnpackedFloat.add, UnpackedFloat.neg, apply_neg, Int.sub_eq_add_neg]

theorem denotes_neg {u : UnpackedFloat} {q : ℚ} (h : Denotes u q) : Denotes u.neg (-q) := by
  obtain ⟨hu, hfu, rfl⟩ := h
  refine ⟨?_, ?_, number_neg u⟩
  · cases u <;> exact hu
  · cases u <;> exact hfu

theorem value_add_of_exact {x y : Float} (hx : x.isFinite = true) (hy : y.isFinite = true)
    (h : IsDouble (value x + value y)) :
    (x + y).isFinite = true ∧ value (x + y) = value x + value y := by
  obtain ⟨w, hw⟩ := h
  exact value_ofModel_pack (denotes_add (denotes_parts hx) (denotes_parts hy) hw)

theorem value_sub_of_exact {x y : Float} (hx : x.isFinite = true) (hy : y.isFinite = true)
    (h : IsDouble (value x - value y)) :
    (x - y).isFinite = true ∧ value (x - y) = value x - value y := by
  obtain ⟨w, hw⟩ := h
  have hneg : value x - value y = value x + -value y := by ring
  rw [hneg] at hw ⊢
  have hsum := denotes_add (denotes_parts hx) (denotes_neg (denotes_parts hy)) hw
  rw [← sub_eq_add_of_neg] at hsum
  exact value_ofModel_pack hsum

end ToneScore.Binary64
