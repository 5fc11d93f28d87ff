import Mathlib
import ToneScore.Binary64.Rounding

/-!
# The numbers that doubles denote

A finite double is `m * 2^e` with a sign, where `m` has 53 bits unless `e` is the least exponent
(`Canonical`). `value` is that number, exactly, as a rational. Comparing two finite doubles compares
their values (`lt_iff_value_lt`), and reading a whole number off a double drops the fraction of its
value (`toNat_eq_floor`, `toInt_eq`).
-/

namespace ToneScore.Binary64

open Float.Model (UnpackedFloat Format)
open Float.Model.UnpackedFloat

/-! ## Unpacked doubles -/

/-- A significand and an exponent as they stand in a finite double. -/
structure Canonical (m : Nat) (e : Int) : Prop where
  lt : m < 2 ^ 53
  least_le : -1074 ≤ e
  le_greatest : e ≤ 971
  normal : 2 ^ 52 ≤ m ∨ e = -1074

/-- The finite parts of an unpacked double are canonical. -/
def Proper : UnpackedFloat → Prop
  | .finite _ m e _ => Canonical m e
  | _ => True

/-- The sign, the significand and the exponent of a double. -/
def parts (x : Float) : UnpackedFloat := x.toModel.unpack

theorem toNat_one_append (v : BitVec 52) : (1#1 ++ v).toNat = 2 ^ 52 + v.toNat := by
  rw [BitVec.toNat_append, ← Nat.shiftLeft_add_eq_or_of_lt v.isLt, Nat.shiftLeft_eq]
  rfl

theorem proper_unpack (b : BitVec 64) : Proper (UnpackedFloat.unpack Format.binary64 b) := by
  have hm : (@unpackMantissa Format.binary64 b).toNat < 2 ^ 52 := BitVec.isLt _
  have he : (@unpackExponent Format.binary64 b).toNat < 2 ^ 11 := BitVec.isLt _
  unfold UnpackedFloat.unpack
  simp only
  split
  · split <;> trivial
  next hinf =>
  split
  · next hzero =>
    split
    · trivial
    · rw [hzero]
      exact ⟨by omega, by decide, by decide, .inr (by decide)⟩
  next hzero =>
  have hlo : (@unpackExponent Format.binary64 b).toNat ≠ 0 := fun h =>
    hzero (BitVec.eq_of_toNat_eq h)
  have hhi : (@unpackExponent Format.binary64 b).toNat ≠ 2 ^ 11 - 1 := fun h =>
    hinf (BitVec.eq_of_toNat_eq h)
  have hbias : Format.binary64.exponentBias = 1023 := rfl
  show Canonical (1#1 ++ @unpackMantissa Format.binary64 b).toNat _
  refine ⟨?_, ?_, ?_, .inl ?_⟩
  · rw [toNat_one_append]; omega
  · rw [hbias]; omega
  · rw [hbias]; omega
  · rw [toNat_one_append]; omega

theorem proper_parts (x : Float) : Proper (parts x) := proper_unpack _

/-! ## Packing -/

theorem unpack_normal {s : Sign} {m : Nat} {e : Int} (hm : 0 < m) (hlo : 2 ^ 52 ≤ m)
    (hlt : m < 2 ^ 53) (hleast : -1074 ≤ e) (hgreatest : e ≤ 971) :
    UnpackedFloat.unpack Format.binary64
      (packComponents Format.binary64 s (BitVec.ofNat 11 (e + 1075).toNat) (BitVec.ofNat 52 m)) =
      .finite s m e hm := by
  have he : (BitVec.ofNat 11 (e + 1075).toNat).toNat = (e + 1075).toNat :=
    Nat.mod_eq_of_lt (by omega)
  have hm' : (1#1 ++ BitVec.ofNat 52 m).toNat = m := by
    rw [toNat_one_append, BitVec.toNat_ofNat]
    omega
  unfold UnpackedFloat.unpack
  simp only [unpackMantissa_packComponents, unpackExponent_packComponents,
    unpackSign_packComponents, Sign.ofBitVec_toBitVec]
  rw [if_neg, if_neg]
  · congr 1
    rw [he]
    show ((e + 1075).toNat : Int) - ((1023 : Nat) + (52 : Nat)) = e
    omega
  · intro h
    rw [h] at he
    have : 0 = (e + 1075).toNat := he
    omega
  · intro h
    rw [h] at he
    have : 2047 = (e + 1075).toNat := he
    omega

theorem unpack_subnormal {s : Sign} {m : Nat} (hm : 0 < m) (hlt : m < 2 ^ 52) :
    UnpackedFloat.unpack Format.binary64
      (packComponents Format.binary64 s 0#11 (BitVec.ofNat 52 m)) = .finite s m (-1074) hm := by
  have hm' : (BitVec.ofNat 52 m).toNat = m := Nat.mod_eq_of_lt hlt
  unfold UnpackedFloat.unpack
  simp only [unpackMantissa_packComponents, unpackExponent_packComponents,
    unpackSign_packComponents, Sign.ofBitVec_toBitVec]
  rw [if_neg (by decide), if_pos trivial, dif_neg]
  · congr 1
  · intro h
    rw [h] at hm'
    have : 0 = m := hm'
    omega

theorem unpack_pack {u : UnpackedFloat} (h : Proper u) : (Float.Model.pack u).unpack = u := by
  match u, h with
  | .notANumber, _ => rfl
  | .infinity s, _ => cases s <;> rfl
  | .zero s, _ => cases s <;> rfl
  | .finite s m e hm, ⟨hlt, hleast, hgreatest, hnormal⟩ =>
    have hbiased : e + Format.binary64.exponentBias + Format.binary64.mantissaBitsWithoutImplicit =
        e + 1075 := by
      show e + (1023 : Nat) + (52 : Nat) = _
      omega
    show UnpackedFloat.unpack _ (UnpackedFloat.pack _ _) = _
    unfold UnpackedFloat.pack
    simp only [hbiased]
    rw [if_neg (by show ¬ 2 ^ 11 ≤ _; omega)]
    by_cases hlo : 2 ^ 52 ≤ m
    · have hlog : m.log2 = 52 := (Nat.log2_eq_iff (by omega)).mpr ⟨hlo, hlt⟩
      rw [if_pos (by rw [hlog]; rfl)]
      exact unpack_normal hm hlo hlt hleast hgreatest
    · have hlog : m.log2 < 52 := (Nat.log2_lt (by omega)).mpr (by omega)
      obtain rfl : e = -1074 := hnormal.resolve_left hlo
      rw [if_neg (by show m.log2 + 1 ≠ 53; omega)]
      exact unpack_subnormal hm (by omega)

theorem parts_ofModel_pack {u : UnpackedFloat} (h : Proper u) :
    parts (.ofModel (Float.Model.pack u)) = u := unpack_pack h

theorem parts_neg (x : Float) : parts (-x) = (parts x).neg := by
  have h := proper_parts x
  refine parts_ofModel_pack (u := (parts x).neg) ?_
  revert h
  cases parts x <;> exact id

theorem parts_abs (x : Float) : parts x.abs = (parts x).abs := by
  have h := proper_parts x
  refine parts_ofModel_pack (u := (parts x).abs) ?_
  revert h
  cases parts x <;> exact id

/-! ## Values -/

/-- The number that an unpacked double denotes, 0 if it is not finite. -/
def number : UnpackedFloat → ℚ
  | .finite s m e _ => s.apply m * 2 ^ e
  | _ => 0

/-- The number that a double denotes, 0 if it is not finite. -/
def value (x : Float) : ℚ := number (parts x)

theorem apply_neg (s : Sign) (n : Int) : (-s).apply n = -s.apply n := by
  cases s
  · exact (neg_neg n).symm
  · rfl

theorem abs_apply (s : Sign) (m : Nat) : |s.apply m| = m := by
  cases s
  · show |-(m : Int)| = m
    rw [abs_neg, Nat.abs_cast]
  · exact Nat.abs_cast m

theorem number_neg (u : UnpackedFloat) : number u.neg = -number u := by
  cases u with
  | finite s m e hm =>
    simp only [UnpackedFloat.neg, number, apply_neg]
    push_cast
    rw [neg_mul]
  | _ => exact neg_zero.symm

theorem value_neg (x : Float) : value (-x) = -value x := by
  rw [value, parts_neg, number_neg, value]

theorem value_abs (x : Float) : value x.abs = |value x| := by
  unfold value
  rw [parts_abs]
  cases parts x with
  | finite s m e hm =>
    have hm' : |(s.apply m : ℚ)| = m := by
      rw [← Int.cast_abs, abs_apply]
      rfl
    simp only [UnpackedFloat.abs, number, abs_mul, hm']
    rw [abs_of_pos (by positivity : (0 : ℚ) < 2 ^ e)]
    rfl
  | _ => exact abs_zero.symm

/-! ## Comparing -/

theorem number_positive {m : Nat} {e : Int} (hm : 0 < m) :
    number (.finite .positive m e hm) = m * 2 ^ e := rfl

theorem number_negative {m : Nat} {e : Int} (hm : 0 < m) :
    number (.finite .negative m e hm) = -(m * 2 ^ e) := by
  show ((-(m : Int) : Int) : ℚ) * 2 ^ e = _
  push_cast
  rw [neg_mul]

theorem number_pos_of_positive {m : Nat} {e : Int} (hm : 0 < m) :
    0 < number (.finite .positive m e hm) := by
  rw [number_positive]
  positivity

theorem number_neg_of_negative {m : Nat} {e : Int} (hm : 0 < m) :
    number (.finite .negative m e hm) < 0 := by
  rw [number_negative, neg_lt_zero]
  positivity

theorem Canonical.mul_lt_mul {m₁ m₂ : Nat} {e₁ e₂ : Int} (h₁ : Canonical m₁ e₁)
    (h₂ : Canonical m₂ e₂) (h : e₁ < e₂) : (m₁ * 2 ^ e₁ : ℚ) < m₂ * 2 ^ e₂ := by
  have hm₁ : (m₁ : ℚ) < 2 ^ 53 := by exact_mod_cast h₁.lt
  have hm₂ : (2 ^ 52 : ℚ) ≤ m₂ := by
    have := h₁.least_le
    exact_mod_cast h₂.normal.resolve_right (by omega)
  have he : (2 : ℚ) ^ (e₁ + 1) ≤ 2 ^ e₂ := zpow_le_zpow_right₀ (by norm_num) (by omega)
  calc (m₁ * 2 ^ e₁ : ℚ) < 2 ^ 53 * 2 ^ e₁ := by gcongr
    _ = 2 ^ 52 * 2 ^ (e₁ + 1) := by rw [zpow_add_one₀ (by norm_num)]; ring
    _ ≤ m₂ * 2 ^ e₂ := by gcongr

theorem Canonical.compare_eq {m₁ m₂ : Nat} {e₁ e₂ : Int} (h₁ : Canonical m₁ e₁)
    (h₂ : Canonical m₂ e₂) :
    (compare e₁ e₂).then (compare m₁ m₂) = compare (m₁ * 2 ^ e₁ : ℚ) (m₂ * 2 ^ e₂) := by
  rcases lt_trichotomy e₁ e₂ with h | rfl | h
  · rw [compare_lt_iff_lt.mpr h, compare_lt_iff_lt.mpr (h₁.mul_lt_mul h₂ h)]
    rfl
  · rw [compare_eq_iff_eq.mpr rfl]
    have hpos : (0 : ℚ) < 2 ^ e₁ := by positivity
    rcases lt_trichotomy m₁ m₂ with h | rfl | h
    · rw [compare_lt_iff_lt.mpr h, compare_lt_iff_lt.mpr (by gcongr)]
      rfl
    · rw [compare_eq_iff_eq.mpr rfl, compare_eq_iff_eq.mpr rfl]
      rfl
    · rw [compare_gt_iff_gt.mpr h, compare_gt_iff_gt.mpr (by gcongr)]
      rfl
  · rw [compare_gt_iff_gt.mpr h, compare_gt_iff_gt.mpr (h₂.mul_lt_mul h₁ h)]
    rfl

theorem compare_neg_neg (a b : ℚ) : compare (-a) (-b) = (compare a b).swap := by
  rcases lt_trichotomy a b with h | rfl | h
  · rw [compare_lt_iff_lt.mpr h, compare_gt_iff_gt.mpr (neg_lt_neg h)]
    rfl
  · rw [compare_eq_iff_eq.mpr rfl, compare_eq_iff_eq.mpr rfl]
    rfl
  · rw [compare_gt_iff_gt.mpr h, compare_lt_iff_lt.mpr (neg_lt_neg h)]
    rfl

theorem compare_eq {u v : UnpackedFloat} (hu : Proper u) (hv : Proper v)
    (hu' : u.isFinite = true) (hv' : v.isFinite = true) :
    u.compare v = some (compare (number u) (number v)) := by
  cases u with
  | notANumber => cases hu'
  | infinity s => cases hu'
  | zero s =>
    cases v with
    | notANumber => cases hv'
    | infinity t => cases hv'
    | zero t => rfl
    | finite t m e hm =>
      cases t with
      | negative => exact congrArg some (compare_gt_iff_gt.mpr (number_neg_of_negative hm)).symm
      | positive => exact congrArg some (compare_lt_iff_lt.mpr (number_pos_of_positive hm)).symm
  | finite s m e hm =>
    cases v with
    | notANumber => cases hv'
    | infinity t => cases hv'
    | zero t =>
      cases s with
      | negative => exact congrArg some (compare_lt_iff_lt.mpr (number_neg_of_negative hm)).symm
      | positive => exact congrArg some (compare_gt_iff_gt.mpr (number_pos_of_positive hm)).symm
    | finite t m' e' hm' =>
      have hmag := Canonical.compare_eq hu hv
      cases s <;> cases t
      case negative.negative =>
        rw [number_negative, number_negative, compare_neg_neg, ← hmag]
        rfl
      case negative.positive =>
        exact congrArg some (compare_lt_iff_lt.mpr
          ((number_neg_of_negative hm).trans (number_pos_of_positive hm'))).symm
      case positive.negative =>
        exact congrArg some (compare_gt_iff_gt.mpr
          ((number_neg_of_negative hm').trans (number_pos_of_positive hm))).symm
      case positive.positive =>
        rw [number_positive, number_positive, ← hmag]
        rfl

theorem lt_iff_compare {x y : Float} : x < y ↔ (parts x).compare (parts y) = some .lt := by
  show decide (x.toModel < y.toModel) = true ↔ _
  rw [decide_eq_true_iff]
  exact beq_iff_eq

theorem lt_iff_value_lt {x y : Float} (hx : x.isFinite = true) (hy : y.isFinite = true) :
    x < y ↔ value x < value y := by
  rw [lt_iff_compare, compare_eq (proper_parts x) (proper_parts y) hx hy, Option.some_inj,
    compare_lt_iff_lt]
  rfl

theorem le_iff_compare {x y : Float} :
    x ≤ y ↔ ((parts x).compare (parts y)).any (·.isLE) = true := by
  show decide (x.toModel ≤ y.toModel) = true ↔ _
  rw [decide_eq_true_iff]
  exact Iff.rfl

theorem le_iff_value_le {x y : Float} (hx : x.isFinite = true) (hy : y.isFinite = true) :
    x ≤ y ↔ value x ≤ value y := by
  rw [le_iff_compare, compare_eq (proper_parts x) (proper_parts y) hx hy, Option.any_some,
    ← Ordering.ne_gt_iff_isLE]
  exact compare_le_iff_le

theorem beq_iff_value_eq {x y : Float} (hx : x.isFinite = true) (hy : y.isFinite = true) :
    (x == y) = true ↔ value x = value y := by
  show ((parts x).compare (parts y) == some .eq) = true ↔ _
  rw [beq_iff_eq, compare_eq (proper_parts x) (proper_parts y) hx hy, Option.some_inj,
    compare_eq_iff_eq]
  rfl

theorem compare_infinity_negative {u : UnpackedFloat} (h : u.isFinite = true) :
    (UnpackedFloat.infinity .negative).compare u = some .lt := by
  cases u <;> first | rfl | cases h

theorem compare_infinity_positive {u : UnpackedFloat} (h : u.isFinite = true) :
    u.compare (.infinity .positive) = some .lt := by
  cases u with
  | finite s m e hm => cases s <;> rfl
  | zero s => rfl
  | _ => cases h

/-! ## Whole numbers -/

theorem mantissa_shiftRight (em : ExtendedMantissa) (n : Nat) :
    (em >>> n).mantissa = em.mantissa / 2 ^ n := by
  show (n.repeat ExtendedMantissa.shiftRightOne em).mantissa = _
  induction n with
  | zero => exact (Nat.div_one _).symm
  | succ n ih =>
    show (n.repeat ExtendedMantissa.shiftRightOne em).mantissa / 2 = _
    rw [ih, Nat.div_div_eq_div_mul, Nat.pow_succ]

theorem shift_eq_floor (m : Nat) (e : Int) :
    m <<< e.toNat / 2 ^ (-e).toNat = ⌊(m * 2 ^ e : ℚ)⌋₊ := by
  rw [Nat.shiftLeft_eq]
  obtain ⟨n, rfl | rfl⟩ := e.eq_nat_or_neg
  · have h : (m * 2 ^ (n : Int) : ℚ) = (m * 2 ^ n : Nat) := by push_cast; rfl
    rw [h, Nat.floor_natCast]
    simp
  · have h : (m * 2 ^ (-n : Int) : ℚ) = m / (2 ^ n : Nat) := by
      push_cast
      rw [zpow_neg, div_eq_mul_inv, zpow_natCast]
    rw [h, Nat.floor_div_natCast, Nat.floor_natCast]
    simp

theorem roundToInt_eq (s : Sign) (m : Nat) (e : Int) :
    roundToInt s m e = s.apply ⌊(m * 2 ^ e : ℚ)⌋₊ := by
  rw [← shift_eq_floor]
  unfold roundToInt decreaseExponent shiftToExponent
  simp only [mantissa_shiftRight]
  show s.apply ((m <<< (e - 0).toNat / 2 ^ (0 - (e - ((e - 0).toNat : Int))).toNat : Nat) : Int) = _
  rw [show (e - 0).toNat = e.toNat by omega,
    show (0 - (e - (e.toNat : Int))).toNat = (-e).toNat by omega]

theorem toNat_toInt_parts {x : Float} (hx : x.isFinite = true) (lo hi : Int) :
    ((parts x).toInt lo hi).toNat = ⌊value x⌋₊ := by
  change (parts x).isFinite = true at hx
  unfold value
  cases hparts : parts x with
  | notANumber => rw [hparts] at hx; cases hx
  | infinity s => rw [hparts] at hx; cases hx
  | zero s => exact Nat.floor_zero.symm
  | finite s m e hm =>
    rw [UnpackedFloat.toInt, roundToInt_eq]
    cases s with
    | negative =>
      rw [Nat.floor_of_nonpos (number_neg_of_negative hm).le]
      exact Int.toNat_neg_natCast _
    | positive => rfl

theorem toNat_ofNatClamp (n : Nat) : (UInt64.ofNatClamp n).toNat = min n (UInt64.size - 1) := by
  unfold UInt64.ofNatClamp
  split
  · next h => exact (Nat.min_eq_left (Nat.le_sub_one_of_lt h)).symm
  · next h => exact (Nat.min_eq_right (Nat.le_trans (Nat.sub_le _ 1) (Nat.le_of_not_lt h))).symm

/-- The fraction of a value is dropped, and what is then too large for 64 bits is held there. -/
theorem toNat_eq_floor {x : Float} (hx : x.isFinite = true) :
    toNat x = min ⌊value x⌋₊ (UInt64.size - 1) := by
  show (UInt64.ofNatClamp ((parts x).toInt 0 (UInt64.size - 1)).toNat).toNat = _
  rw [toNat_toInt_parts hx, toNat_ofNatClamp]

theorem isFinite_abs (x : Float) : x.abs.isFinite = x.isFinite := by
  show (parts x.abs).isFinite = (parts x).isFinite
  rw [parts_abs]
  cases parts x <;> rfl

theorem toInt_eq {x : Float} (hx : x.isFinite = true) :
    toInt x = max (-2147483648)
      (min (if value x < 0 then -(⌊-value x⌋₊ : Int) else ⌊value x⌋₊) 2147483647) := by
  have hneg : x < 0.0 ↔ value x < 0 := lt_iff_value_lt hx rfl
  have hsize : UInt64.size = 2 ^ 64 := rfl
  unfold toInt
  simp only [hneg]
  split
  · next h =>
    rw [toNat_eq_floor ((isFinite_abs x).trans hx), value_abs, abs_of_neg h]
    omega
  · rw [toNat_eq_floor hx]
    omega

end ToneScore.Binary64
