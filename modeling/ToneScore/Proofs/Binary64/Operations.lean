import ToneScore.Proofs.Binary64.Monotone
import ToneScore.Proofs.Binary64.Sums

/-!
# Every operation rounds once

Like products, the sum and the difference of two doubles and the double of a 64-bit number are the
exact results, rounded (`rounds_add`, `rounds_sub`, `value_toFloat_word`). A quotient is computed to
more bits than a double has, and what is left over is known to be below, at or above half of the next
one. So a quotient that is not subnormal is rounded once too (`rounds_div`). `Within` bounds what
several roundings in a row can add up to.
-/

namespace ToneScore.Binary64

open Float.Model (UnpackedFloat Format totalExponent)
open Float.Model.UnpackedFloat

/-! ## Sums -/

theorem rounds_round (s : Sign) {m : Nat} {e : ℤ} (hm : 0 < m) :
    Rounds (.ofModel (Float.Model.pack (UnpackedFloat.round Format.binary64 s m e)))
      (number (.finite s m e hm)) := by
  have hshift := shiftLeft_mul_two_zpow m (e - lastExponent (m * 2 ^ e)).toNat e
  unfold UnpackedFloat.round decreaseExponent
  simp only [targetExponent_eq hm (holds_exact m e)]
  generalize hk : (e - lastExponent (m * 2 ^ e)).toNat = k at *
  rw [number_finite, ← hshift]
  refine rounds_roundWithAccuracy ?_ (holds_exact _ _) ?_ s
  · rw [Nat.shiftLeft_eq]
    exact Nat.mul_pos hm (Nat.two_pow_pos k)
  · rw [hshift]
    omega

theorem rounds_normalize (n e : ℤ) (zero : Sign) :
    Rounds (.ofModel (Float.Model.pack (UnpackedFloat.normalize Format.binary64 n e zero)))
      (n * 2 ^ e) := by
  unfold UnpackedFloat.normalize
  rcases Int.lt_trichotomy n 0 with hn | rfl | hn
  · have hm : 0 < (-n).toNat := by omega
    have hcast : (((-n).toNat : ℤ) : ℚ) = -n := by
      rw [Int.toNat_of_nonneg (by omega), Int.cast_neg]
    have hnumber : number (.finite .negative (-n).toNat e hm) = n * 2 ^ e := by
      rw [number_negative, ← Int.cast_natCast, hcast, neg_mul, neg_neg]
    rw [Int.compare_eq_lt.mpr hn, ← hnumber]
    exact rounds_round .negative hm
  · obtain ⟨hfinite, hvalue⟩ := value_ofModel_pack (denotes_zero zero)
    rw [Int.cast_zero, zero_mul]
    exact .finite hfinite (hvalue.trans rounded_zero.symm)
  · have hm : 0 < n.toNat := by omega
    have hnumber : number (.finite .positive n.toNat e hm) = n * 2 ^ e := by
      rw [number_positive, ← Int.cast_natCast, Int.toNat_of_nonneg hn.le]
    rw [Int.compare_eq_gt.mpr hn, ← hnumber]
    exact rounds_round .positive hm

theorem rounds_of_denotes {u : UnpackedFloat} {q : ℚ} (h : Denotes u q) :
    Rounds (.ofModel (Float.Model.pack u)) q := by
  obtain ⟨hfinite, hvalue⟩ := value_ofModel_pack h
  exact .finite hfinite (hvalue.trans (rounded_of_isDouble ⟨u, h⟩).symm)

theorem IsDouble.neg {q : ℚ} (h : IsDouble q) : IsDouble (-q) := by
  obtain ⟨u, hu⟩ := h
  exact ⟨u.neg, denotes_neg hu⟩

theorem rounds_add_unpacked {u v : UnpackedFloat} {p q : ℚ} (hu : Denotes u p) (hv : Denotes v q) :
    Rounds (.ofModel (Float.Model.pack (UnpackedFloat.add Format.binary64 u v))) (p + q) := by
  rcases zero_or_finite hu.isFinite with ⟨s, rfl⟩ | ⟨s, m₁, e₁, hm₁, rfl⟩
  · have hzero : p = 0 := hu.number.symm
    rw [hzero, zero_add]
    exact rounds_of_denotes (denotes_add_zero hv s).1
  rcases zero_or_finite hv.isFinite with ⟨t, rfl⟩ | ⟨t, m₂, e₂, hm₂, rfl⟩
  · have hzero : q = 0 := hv.number.symm
    rw [hzero, add_zero]
    exact rounds_of_denotes (denotes_add_zero hu t).2
  have hsum : p + q = ((s.apply (m₁ <<< (e₁ - min e₁ e₂).toNat : Nat) +
      t.apply (m₂ <<< (e₂ - min e₁ e₂).toNat : Nat) : ℤ) : ℚ) * 2 ^ min e₁ e₂ := by
    rw [← hu.number, ← hv.number, ← apply_shiftLeft s hm₁ (min_le_left e₁ e₂),
      ← apply_shiftLeft t hm₂ (min_le_right e₁ e₂), ← add_mul]
    push_cast
    rfl
  rw [hsum]
  exact rounds_normalize _ _ .positive

variable {x y : Float}

theorem rounds_add (hx : x.isFinite = true) (hy : y.isFinite = true) :
    Rounds (x + y) (value x + value y) :=
  rounds_add_unpacked (denotes_parts hx) (denotes_parts hy)

theorem rounds_sub (hx : x.isFinite = true) (hy : y.isFinite = true) :
    Rounds (x - y) (value x - value y) := by
  have h := rounds_add_unpacked (denotes_parts hx) (denotes_neg (denotes_parts hy))
  rw [← sub_eq_add_of_neg, ← sub_eq_add_neg] at h
  exact h

/-! ## Numbers of 64 bits -/

theorem isDouble_two_pow {k : Nat} (h : k ≤ 971) : IsDouble (2 ^ k) := by
  rw [← zpow_natCast]
  exact isDouble_two_zpow (by omega) (by omega)

theorem isDouble_one : IsDouble 1 := by
  rw [← pow_zero 2]
  exact isDouble_two_pow (by decide)

theorem value_toFloat_word (n : UInt64) :
    n.toFloat.isFinite = true ∧ value n.toFloat = rounded n.toNat := by
  have hrounds : Rounds n.toFloat ((n.toNat : ℤ) * 2 ^ (0 : ℤ)) := rounds_normalize _ _ .positive
  rw [zpow_zero, mul_one, Int.cast_natCast] at hrounds
  have hlt : (n.toNat : ℚ) ≤ 2 ^ 64 := by exact_mod_cast n.toNat_lt.le
  obtain ⟨hfinite, hvalue, -⟩ := hrounds.between n.toNat.cast_nonneg hlt ⟨_, denotes_zero .positive⟩
    (isDouble_two_pow (by decide))
  exact ⟨hfinite, hvalue⟩

theorem value_toFloat_mono {m n : UInt64} (h : m ≤ n) :
    0 ≤ value m.toFloat ∧ value m.toFloat ≤ value n.toFloat := by
  rw [(value_toFloat_word m).2, (value_toFloat_word n).2]
  exact ⟨rounded_nonneg m.toNat.cast_nonneg, rounded_mono (by exact_mod_cast h)⟩

/-! ## Quotients -/

/-- The quotient of whole numbers, with what the remainder says about its fraction. -/
theorem holds_fraction {n d : Nat} (hd : 0 < d) :
    Holds (.ofMantissaAndAccuracy (n / d) (accuracyOfFraction (n % d) d)) (n / d : ℚ) := by
  have hd' : (0 : ℚ) < d := by exact_mod_cast hd
  have hsplit : (n : ℚ) = d * (n / d : Nat) + (n % d : Nat) := by
    exact_mod_cast (Nat.div_add_mod n d).symm
  have hlt : ((n % d : Nat) : ℚ) < d := by exact_mod_cast Nat.mod_lt n hd
  rw [hsplit, add_div, mul_div_cancel_left₀ _ hd'.ne']
  generalize n % d = r at *
  generalize n / d = k at *
  have hless : (r / d : ℚ) < 1 := (div_lt_one hd').mpr hlt
  unfold accuracyOfFraction
  split
  · next hzero =>
    show (k + r / d : ℚ) = k
    rw [hzero, Nat.cast_zero, zero_div, add_zero]
  next hne =>
  have hpos : (0 : ℚ) < r / d := by
    have : (0 : ℚ) < r := by exact_mod_cast Nat.pos_of_ne_zero hne
    positivity
  rcases lt_trichotomy (2 * r) d with h | h | h
  · have hhalf : (r / d : ℚ) < 1 / 2 := by
      have : (2 * r : ℚ) < d := by exact_mod_cast h
      rw [div_lt_iff₀ hd']
      linarith
    rw [compare_lt_iff_lt.mpr h]
    show (k : ℚ) < k + r / d ∧ (k + r / d : ℚ) < k + 1 / 2
    constructor <;> linarith
  · have hhalf : (r / d : ℚ) = 1 / 2 := by
      have : (2 * r : ℚ) = d := by exact_mod_cast h
      rw [div_eq_iff hd'.ne']
      linarith
    rw [compare_eq_iff_eq.mpr h]
    show (k + r / d : ℚ) = k + 1 / 2
    rw [hhalf]
  · have hhalf : (1 / 2 : ℚ) < r / d := by
      have : (d : ℚ) < 2 * r := by exact_mod_cast h
      rw [lt_div_iff₀ hd']
      linarith
    rw [compare_gt_iff_gt.mpr h]
    show (k + 1 / 2 : ℚ) < k + r / d ∧ (k + r / d : ℚ) < k + 1
    constructor <;> linarith

/-- A quotient is computed below its last bit that is kept. -/
theorem divExponent_le_lastExponent {m₁ m₂ : Nat} (hm₁ : 0 < m₁) (hm₂ : 0 < m₂) (e₁ e₂ : ℤ) :
    Format.binary64.targetExponent (totalExponent m₁ e₁ - totalExponent m₂ e₂) ≤
      lastExponent (m₁ * 2 ^ e₁ / (m₂ * 2 ^ e₂)) := by
  have hlow := (log2_bounds hm₁ e₁).1
  have hhigh := (log2_bounds hm₂ e₂).2
  have hpos₁ : (0 : ℚ) < m₁ * 2 ^ e₁ := (two_zpow_pos _).trans_le hlow
  have hpos₂ : (0 : ℚ) < m₂ * 2 ^ e₂ := (two_zpow_pos _).trans_le (log2_bounds hm₂ e₂).1
  have hquotient : (2 : ℚ) ^ (m₁.log2 + e₁ - (m₂.log2 + 1 + e₂)) ≤
      m₁ * 2 ^ e₁ / (m₂ * 2 ^ e₂) := by
    rw [zpow_sub₀ two_ne_zero]
    gcongr
  have hlog := (Int.zpow_le_iff_le_log one_lt_two (div_pos hpos₁ hpos₂)).mp (by exact_mod_cast hquotient)
  rw [lastExponent, abs_of_pos (div_pos hpos₁ hpos₂)]
  show max ((m₁.log2 : ℤ) + 1 + e₁ - (m₂.log2 + 1 + e₂) - (53 : Nat)) (-1074) ≤ _
  omega

theorem two_zpow_le_of_le_lastExponent {q : ℚ} {e : ℤ} (hpos : 0 < q)
    (hnormal : 2 ^ (-1022 : ℤ) ≤ q) (h : e ≤ lastExponent q) : 2 ^ e ≤ q := by
  rw [lastExponent_eq (by rwa [abs_of_pos hpos]), abs_of_pos hpos] at h
  calc (2 : ℚ) ^ e ≤ 2 ^ Int.log 2 q := zpow_le_zpow_right₀ one_le_two (by omega)
    _ ≤ q := (log_bounds hpos).1

theorem divCore_holds {m₁ m₂ : Nat} {e₁ e₂ : ℤ} (hm₁ : 0 < m₁) (hm₂ : 0 < m₂)
    (hnormal : (2 : ℚ) ^ (-1022 : ℤ) ≤ m₁ * 2 ^ e₁ / (m₂ * 2 ^ e₂)) :
    ∃ m e accuracy, divCore Format.binary64 m₁ e₁ m₂ e₂ = (m, e, accuracy) ∧ 0 < m ∧
      Holds (.ofMantissaAndAccuracy m accuracy) (m₁ * 2 ^ e₁ / (m₂ * 2 ^ e₂) / 2 ^ e) ∧
      e ≤ lastExponent (m₁ * 2 ^ e₁ / (m₂ * 2 ^ e₂)) := by
  have htarget := divExponent_le_lastExponent hm₁ hm₂ e₁ e₂
  have hm₂' : (0 : ℚ) < m₂ := by exact_mod_cast hm₂
  unfold divCore
  generalize Format.binary64.targetExponent _ = target at *
  have hle : min (e₁ - e₂) target ≤ e₁ - e₂ := min_le_left _ _
  have hlast : min (e₁ - e₂) target ≤ lastExponent (m₁ * 2 ^ e₁ / (m₂ * 2 ^ e₂)) :=
    (min_le_right _ _).trans htarget
  generalize min (e₁ - e₂) target = e at *
  obtain ⟨k, hk⟩ : ∃ k : Nat, e₁ = e₂ + e + k := ⟨(e₁ - e₂ - e).toNat, by omega⟩
  have hscaled : ((m₁ <<< (e₁ - e₂ - e).toNat : Nat) / m₂ : ℚ) =
      m₁ * 2 ^ e₁ / (m₂ * 2 ^ e₂) / 2 ^ e := by
    have hshift : (e₁ - e₂ - e).toNat = k := by omega
    have he := (two_zpow_pos e).ne'
    have he₂ := (two_zpow_pos e₂).ne'
    rw [hshift, hk, zpow_add₀ two_ne_zero, zpow_add₀ two_ne_zero, zpow_natCast, Nat.shiftLeft_eq]
    push_cast
    field_simp
  refine ⟨_, _, _, rfl, Nat.div_pos ?_ hm₂, hscaled ▸ holds_fraction hm₂, hlast⟩
  have hone : (1 : ℚ) ≤ m₁ * 2 ^ e₁ / (m₂ * 2 ^ e₂) / 2 ^ e := by
    rw [le_div_iff₀ (two_zpow_pos e), one_mul]
    exact two_zpow_le_of_le_lastExponent ((two_zpow_pos _).trans_le hnormal) hnormal hlast
  rw [← hscaled, le_div_iff₀ hm₂', one_mul] at hone
  exact_mod_cast hone

/-- A quotient of doubles that is not subnormal is the rounded quotient of their values. -/
theorem rounds_div (hx : x.isFinite = true) (hy : y.isFinite = true)
    (hnormal : 2 ^ (-1022 : ℤ) ≤ |value x / value y|) : Rounds (x / y) (value x / value y) := by
  have hne : value x / value y ≠ 0 := abs_pos.mp ((two_zpow_pos _).trans_le hnormal)
  obtain ⟨hxne, hyne⟩ := div_ne_zero_iff.mp hne
  obtain ⟨s, m₁, e₁, hm₁, hx'⟩ := parts_of_value_ne_zero hx hxne
  obtain ⟨t, m₂, e₂, hm₂, hy'⟩ := parts_of_value_ne_zero hy hyne
  rw [value, value, hx', hy', abs_div, abs_number_finite, abs_number_finite] at hnormal
  obtain ⟨m, e, accuracy, hcore, hm, hholds, hle⟩ := divCore_holds hm₁ hm₂ hnormal
  have hvalue : value x / value y =
      ((s / t).apply 1 : ℤ) * (m₁ * 2 ^ e₁ / (m₂ * 2 ^ e₂) : ℚ) := by
    rw [value, value, hx', hy', number_finite, number_finite, apply_one_div,
      mul_div_mul_comm ((s.apply 1 : ℤ) : ℚ)]
  show Rounds (.ofModel (Float.Model.pack (UnpackedFloat.div _ (parts x) (parts y)))) _
  rw [hvalue, hx', hy']
  simp only [UnpackedFloat.div, hcore]
  exact rounds_roundWithAccuracy hm hholds hle (s / t)

/-! ## Several roundings -/

/-- Up to `k` roundings, each off by at most one part in `2^53`, lead from `q` to `p`. -/
structure Within (k : ℕ) (p q : ℚ) : Prop where
  low : q * (1 - 1 / 2 ^ 53) ^ k ≤ p
  high : p ≤ q * (1 + 1 / 2 ^ 53) ^ k

variable {j k : ℕ} {a b p q : ℚ}

theorem Within.refl (q : ℚ) : Within 0 q q := ⟨by simp, by simp⟩

theorem Within.mul (hp : Within j p a) (hq : Within k q b) (ha : 0 ≤ a) (hb : 0 ≤ b) :
    Within (j + k) (p * q) (a * b) := by
  have hp0 : 0 ≤ p := le_trans (by positivity) hp.low
  have hq0 : 0 ≤ q := le_trans (by positivity) hq.low
  constructor
  · calc a * b * (1 - 1 / 2 ^ 53) ^ (j + k)
        = a * (1 - 1 / 2 ^ 53) ^ j * (b * (1 - 1 / 2 ^ 53) ^ k) := by ring
      _ ≤ p * q := mul_le_mul hp.low hq.low (by positivity) hp0
  · calc p * q ≤ a * (1 + 1 / 2 ^ 53) ^ j * (b * (1 + 1 / 2 ^ 53) ^ k) :=
          mul_le_mul hp.high hq.high hq0 (by positivity)
      _ = a * b * (1 + 1 / 2 ^ 53) ^ (j + k) := by ring

theorem Within.round (h : Within k p q) (hp : p = 0 ∨ 2 ^ (-1022 : ℤ) ≤ p) :
    Within (k + 1) (rounded p) q := by
  obtain ⟨hlow, hhigh⟩ := h
  rcases hp with rfl | hnormal
  · have hfactor : (0 : ℚ) < (1 - 1 / 2 ^ 53) ^ k := by norm_num
    have hfactor' : (0 : ℚ) < (1 + 1 / 2 ^ 53) ^ k := by positivity
    have hq : q = 0 := le_antisymm (nonpos_of_mul_nonpos_left hlow hfactor)
      (nonneg_of_mul_nonneg_left hhigh hfactor')
    rw [hq, rounded_zero]
    exact ⟨by simp, by simp⟩
  · have hpos := (two_zpow_pos _).trans_le hnormal
    obtain ⟨hbelow, habove⟩ := rounded_bounds (hnormal.trans (le_abs_self p)) hpos
    constructor
    · calc q * (1 - 1 / 2 ^ 53) ^ (k + 1) = q * (1 - 1 / 2 ^ 53) ^ k * (1 - 1 / 2 ^ 53) := by ring
        _ ≤ p * (1 - 1 / 2 ^ 53) := by gcongr
        _ ≤ rounded p := hbelow
    · calc rounded p ≤ p * (1 + 1 / 2 ^ 53) := habove
        _ ≤ q * (1 + 1 / 2 ^ 53) ^ k * (1 + 1 / 2 ^ 53) := by gcongr
        _ = q * (1 + 1 / 2 ^ 53) ^ (k + 1) := by ring

end ToneScore.Binary64
