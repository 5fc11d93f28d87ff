import ToneScore.Proofs.Binary64.Scaling

/-!
# Both zeros

A double is put together from its parts again (`pack_parts`), so doubles with the same parts are the
same bit for bit (`parts_injective`). That tells the two zeros apart, which are equal as numbers:
adding the positive zero keeps every double but the negative zero, which it makes positive
(`zero_add`). A product with the positive zero is that zero for a positive double, and NaN for an
infinity (`isNaN_zero_mul`).
-/

namespace ToneScore.Binary64

open Float.Model (UnpackedFloat Format)
open Float.Model.UnpackedFloat

/-! ## Doubles and their parts -/

theorem toBitVec_ofBitVec (v : BitVec 1) : (Sign.ofBitVec v).toBitVec = v := by
  revert v
  decide

/-- A word is its sign, its exponent and its significand side by side. -/
theorem packComponents_unpack {b : BitVec 64} {e : BitVec 11} {m : BitVec 52}
    (he : @unpackExponent Format.binary64 b = e) (hm : @unpackMantissa Format.binary64 b = m) :
    packComponents Format.binary64 (Sign.ofBitVec (@unpackSign Format.binary64 b)) e m = b := by
  subst he hm
  have hhigh : b.extractLsb' 63 1 ++ b.extractLsb' 52 11 = b.extractLsb' 52 12 :=
    BitVec.extractLsb'_append_extractLsb'_eq_extractLsb' rfl
  rw [packComponents, toBitVec_ofBitVec]
  show b.extractLsb' 63 1 ++ b.extractLsb' 52 11 ++ b.extractLsb' 0 52 = b
  rw [hhigh]
  exact BitVec.extractLsb'_append_extractLsb'

theorem pack_subnormal {s : Sign} {v : BitVec 52} (hv : 0 < v.toNat) :
    UnpackedFloat.pack Format.binary64 (.finite s v.toNat (-1074) hv) =
      packComponents Format.binary64 s 0#11 v := by
  have hlog : v.toNat.log2 < 52 := (Nat.log2_lt (by omega)).mpr v.isLt
  have hword : BitVec.ofNat 52 v.toNat = v := by simp
  unfold UnpackedFloat.pack
  simp only
  rw [if_neg (by decide), if_neg (by show v.toNat.log2 + 1 ≠ 53; omega)]
  exact congrArg _ hword

theorem pack_normal {s : Sign} {e : BitVec 11} {v : BitVec 52} (hm : 0 < (1#1 ++ v).toNat)
    (hfinite : e.toNat < 2 ^ 11 - 1) :
    UnpackedFloat.pack Format.binary64 (.finite s (1#1 ++ v).toNat ((e.toNat : Int) - 1075) hm) =
      packComponents Format.binary64 s e v := by
  have hv := v.isLt
  have hlog : (1#1 ++ v).toNat.log2 = 52 := by
    rw [Nat.log2_eq_iff (by omega), toNat_one_append]
    omega
  have hbiased : ((e.toNat : Int) - 1075 + Format.binary64.exponentBias +
      Format.binary64.mantissaBitsWithoutImplicit).toNat = e.toNat := by
    show ((e.toNat : Int) - 1075 + (1023 : Nat) + (52 : Nat)).toNat = _
    omega
  have hword : BitVec.ofNat 52 (1#1 ++ v).toNat = v := by
    apply BitVec.eq_of_toNat_eq
    rw [BitVec.toNat_ofNat, toNat_one_append]
    omega
  have hexponent : BitVec.ofNat 11 e.toNat = e := by simp
  unfold UnpackedFloat.pack
  simp only [hbiased]
  rw [if_neg (by show ¬ 2 ^ 11 ≤ _; omega), if_pos (by rw [hlog]; rfl)]
  exact congrArg₂ _ hexponent hword

/-- A word that is valid, as its NaN is the only one, is put together from its parts again. -/
theorem pack_unpack {b : BitVec 64} (h : Format.binary64.Valid b) :
    UnpackedFloat.pack Format.binary64 (UnpackedFloat.unpack Format.binary64 b) = b := by
  unfold UnpackedFloat.unpack
  simp only
  split
  · next hexponent =>
    split
    · next hmantissa => exact packComponents_unpack hexponent hmantissa
    · next hmantissa => exact (h.eq_packedNaN hexponent hmantissa).symm
  next hfinite =>
  split
  · next hexponent =>
    split
    · next hmantissa => exact packComponents_unpack hexponent hmantissa
    · next hmantissa =>
      have hnumber : (@unpackExponent Format.binary64 b).toNat = 0 := by rw [hexponent]; rfl
      simp only [hnumber]
      exact (pack_subnormal _).trans (packComponents_unpack hexponent rfl)
  · next hnormal =>
    have he : (@unpackExponent Format.binary64 b).toNat < 2 ^ 11 := BitVec.isLt _
    have hne : (@unpackExponent Format.binary64 b).toNat ≠ 2 ^ 11 - 1 := fun h =>
      hfinite (BitVec.eq_of_toNat_eq h)
    exact (pack_normal _ (by omega)).trans (packComponents_unpack rfl rfl)

theorem pack_parts (x : Float) : Float.ofModel (Float.Model.pack (parts x)) = x := by
  obtain ⟨⟨bits, hvalid⟩⟩ := x
  have hword := pack_unpack hvalid
  simp only [Float.Model.pack, parts, Float.Model.unpack, hword]

theorem parts_injective : Function.Injective parts := by
  intro x y h
  rw [← pack_parts x, h, pack_parts y]

/-! ## Zeros -/

/-- The double, or the positive zero in place of the negative one. -/
def clearZero (x : Float) : Float :=
  if x = -0.0 then 0.0 else x

theorem clearZero_eq_self_iff {x : Float} : clearZero x = x ↔ x ≠ -0.0 := by
  have hne : (0.0 : Float) ≠ -0.0 := by decide
  unfold clearZero
  split
  · next h => simp [h, hne]
  · next h => simp [h]

theorem zero_add_of_ne {u : UnpackedFloat} (h : u ≠ .zero .negative) :
    UnpackedFloat.add Format.binary64 (.zero .positive) u = u := by
  cases u with
  | zero s =>
    cases s with
    | negative => exact absurd rfl h
    | positive => rfl
  | _ => rfl

/-- Adding to the positive zero clears the sign of a zero, and changes nothing else. -/
theorem zero_add (x : Float) : 0.0 + x = clearZero x := by
  unfold clearZero
  split
  · next h =>
    rw [h]
    decide
  · next h =>
    have hne : parts x ≠ .zero .negative := fun hparts => h (parts_injective hparts)
    show Float.ofModel (Float.Model.pack
      (UnpackedFloat.add Format.binary64 (.zero .positive) (parts x))) = x
    rw [zero_add_of_ne hne, pack_parts]

theorem zero_mul_of_pos {x : Float} (hx : x.isFinite = true) (hpos : 0 < value x) : 0.0 * x = 0.0 := by
  obtain ⟨m, e, hm, hparts, -⟩ := parts_of_value_pos hx hpos
  refine parts_injective (parts_mul ?_ trivial)
  rw [hparts]
  rfl

theorem isNaN_zero_mul {x : Float} {s : Sign} (hx : parts x = .infinity s) : (0.0 * x).isNaN = true := by
  have hparts : parts (0.0 * x) = .notANumber := by
    refine parts_mul ?_ trivial
    rw [hx]
    rfl
  show (parts (0.0 * x)).isNaN = true
  rw [hparts]
  rfl

end ToneScore.Binary64
