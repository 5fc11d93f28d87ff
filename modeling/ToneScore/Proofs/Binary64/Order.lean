import ToneScore.Proofs.Binary64.Value

/-!
# The order of doubles

Without NaN, doubles are ordered like the rationals with an infinity at either end
(`lt_iff_level_lt`), both zeros standing at 0. NaN is neither above nor below anything, and `larger`
passes over it (`lt_larger_iff`). The whole part of a double follows the same order
(`le_toNat_iff`).
-/

namespace ToneScore.Binary64

open Float.Model (UnpackedFloat)
open Float.Model.UnpackedFloat

/-- Where an unpacked double stands among the rationals and the two infinities. -/
def rank : UnpackedFloat → WithBot (WithTop ℚ)
  | .infinity .negative => ⊥
  | .infinity .positive => ⊤
  | u => ((number u : WithTop ℚ) : WithBot (WithTop ℚ))

/-- Where a double stands. NaN stands at 0, as it must stand somewhere. -/
def level (x : Float) : WithBot (WithTop ℚ) := rank (parts x)

theorem rank_of_isFinite {u : UnpackedFloat} (h : u.isFinite = true) :
    rank u = ((number u : WithTop ℚ) : WithBot (WithTop ℚ)) := by
  cases u with
  | infinity s => cases h
  | _ => rfl

theorem finite_or_infinity {u : UnpackedFloat} (h : u.isNaN = false) :
    u.isFinite = true ∨ ∃ s, u = .infinity s := by
  cases u with
  | notANumber => cases h
  | infinity s => exact .inr ⟨s, rfl⟩
  | zero s => exact .inl rfl
  | finite s m e hm => exact .inl rfl

theorem compare_coe (p q : ℚ) :
    compare ((p : WithTop ℚ) : WithBot (WithTop ℚ)) ((q : WithTop ℚ) : WithBot (WithTop ℚ)) =
      compare p q := by
  rcases lt_trichotomy p q with h | rfl | h
  · rw [compare_lt_iff_lt.mpr h, compare_lt_iff_lt.mpr (by exact_mod_cast h)]
  · rw [compare_eq_iff_eq.mpr rfl, compare_eq_iff_eq.mpr rfl]
  · rw [compare_gt_iff_gt.mpr h, compare_gt_iff_gt.mpr (by exact_mod_cast h)]

theorem bot_lt_rank {u : UnpackedFloat} (h : u.isFinite = true) :
    rank (.infinity .negative) < rank u := by
  rw [rank_of_isFinite h]
  exact WithBot.bot_lt_coe _

theorem rank_lt_top {u : UnpackedFloat} (h : u.isFinite = true) :
    rank u < rank (.infinity .positive) := by
  rw [rank_of_isFinite h]
  exact WithBot.coe_lt_coe.mpr (WithTop.coe_lt_top _)

theorem compare_infinity_left (s : Sign) {u : UnpackedFloat} (h : u.isFinite = true) :
    (UnpackedFloat.infinity s).compare u = some (compare (rank (.infinity s)) (rank u)) := by
  cases s with
  | negative => rw [compare_infinity_negative h, compare_lt_iff_lt.mpr (bot_lt_rank h)]
  | positive =>
    rw [compare_gt_iff_gt.mpr (rank_lt_top h)]
    cases u <;> first | rfl | cases h

theorem compare_infinity_right (s : Sign) {u : UnpackedFloat} (h : u.isFinite = true) :
    u.compare (.infinity s) = some (compare (rank u) (rank (.infinity s))) := by
  cases s with
  | negative =>
    rw [compare_gt_iff_gt.mpr (bot_lt_rank h)]
    cases u with
    | finite s m e hm => cases s <;> rfl
    | zero s => rfl
    | _ => cases h
  | positive => rw [compare_infinity_positive h, compare_lt_iff_lt.mpr (rank_lt_top h)]

theorem compare_rank {u v : UnpackedFloat} (hu : Proper u) (hv : Proper v) (hu' : u.isNaN = false)
    (hv' : v.isNaN = false) : u.compare v = some (compare (rank u) (rank v)) := by
  rcases finite_or_infinity hu' with hfu | ⟨s, rfl⟩
  · rcases finite_or_infinity hv' with hfv | ⟨t, rfl⟩
    · rw [compare_eq hu hv hfu hfv, rank_of_isFinite hfu, rank_of_isFinite hfv, compare_coe]
    · exact compare_infinity_right t hfu
  · rcases finite_or_infinity hv' with hfv | ⟨t, rfl⟩
    · exact compare_infinity_left s hfv
    · cases s <;> cases t <;> rfl

variable {x y z : Float}

theorem lt_iff_level_lt (hx : x.isNaN = false) (hy : y.isNaN = false) :
    x < y ↔ level x < level y := by
  rw [lt_iff_compare, compare_rank (proper_parts x) (proper_parts y) hx hy, Option.some_inj,
    compare_lt_iff_lt]
  rfl

theorem compare_notANumber (u : UnpackedFloat) : u.compare .notANumber = none := by
  cases u with
  | finite s m e hm => cases s <;> rfl
  | _ => rfl

theorem isNaN_of_compare (h : (parts x).compare (parts y) ≠ none) :
    x.isNaN = false ∧ y.isNaN = false := by
  show (parts x).isNaN = false ∧ (parts y).isNaN = false
  generalize parts x = u at *
  generalize parts y = v at *
  cases v with
  | notANumber => exact absurd (compare_notANumber u) h
  | _ =>
    cases u with
    | notANumber => exact absurd rfl h
    | _ => exact ⟨rfl, rfl⟩

theorem isNaN_of_lt (h : x < y) : x.isNaN = false ∧ y.isNaN = false := by
  refine isNaN_of_compare ?_
  rw [lt_iff_compare.mp h]
  exact Option.some_ne_none _

theorem isNaN_of_le (h : x ≤ y) : x.isNaN = false ∧ y.isNaN = false := by
  refine isNaN_of_compare fun hnone => ?_
  rw [le_iff_compare, hnone] at h
  cases h

theorem le_iff_level_le (hx : x.isNaN = false) (hy : y.isNaN = false) :
    x ≤ y ↔ level x ≤ level y := by
  rw [le_iff_compare, compare_rank (proper_parts x) (proper_parts y) hx hy, Option.any_some,
    ← Ordering.ne_gt_iff_isLE]
  exact compare_le_iff_le

theorem isNaN_abs (x : Float) : x.abs.isNaN = x.isNaN := by
  show (parts x.abs).isNaN = (parts x).isNaN
  rw [parts_abs]
  cases parts x <;> rfl

theorem isNaN_neg (x : Float) : (-x).isNaN = x.isNaN := by
  show (parts (-x)).isNaN = (parts x).isNaN
  rw [parts_neg]
  cases parts x <;> rfl

theorem not_lt_of_lt (h : x < y) : ¬ y < x := by
  obtain ⟨hx, hy⟩ := isNaN_of_lt h
  rw [lt_iff_level_lt hx hy] at h
  rw [lt_iff_level_lt hy hx]
  exact h.not_gt

theorem not_le_of_lt (h : x < y) : ¬ y ≤ x := by
  obtain ⟨hx, hy⟩ := isNaN_of_lt h
  rw [lt_iff_level_lt hx hy] at h
  rw [le_iff_level_le hy hx]
  exact h.not_ge

theorem lt_of_parts_positive (hx : x.isFinite = true) (hy : parts y = .infinity .positive) :
    x < y := by
  rw [lt_iff_compare, hy]
  exact compare_infinity_positive hx

theorem lt_of_parts_negative (hx : parts x = .infinity .negative) (hy : y.isFinite = true) :
    x < y := by
  rw [lt_iff_compare, hx]
  exact compare_infinity_negative hy

/-! ## The larger of two -/

theorem isNaN_larger (hx : x.isNaN = false) : (larger x y).isNaN = false := by
  unfold larger
  rw [hx, if_neg (by decide)]
  split
  · next h => exact (isNaN_of_lt h).2
  · exact hx

theorem lt_larger_iff (hx : x.isNaN = false) : z < larger x y ↔ z < x ∨ z < y := by
  unfold larger
  rw [hx, if_neg (by decide)]
  split
  · next hxy =>
    refine ⟨.inr, ?_⟩
    rintro (hz | hz)
    · have hy := (isNaN_of_lt hxy).2
      have hz' := (isNaN_of_lt hz).1
      rw [lt_iff_level_lt hz' hy]
      exact ((lt_iff_level_lt hz' hx).mp hz).trans ((lt_iff_level_lt hx hy).mp hxy)
    · exact hz
  · next hxy =>
    refine ⟨.inl, ?_⟩
    rintro (hz | hz)
    · exact hz
    · obtain ⟨hz', hy⟩ := isNaN_of_lt hz
      rw [lt_iff_level_lt hx hy, not_lt] at hxy
      rw [lt_iff_level_lt hz' hx]
      exact ((lt_iff_level_lt hz' hy).mp hz).trans_le hxy

/-! ## Whole numbers -/

theorem toNat_lt (x : Float) : toNat x < UInt64.size := x.toUInt64.toNat_lt

/-- What is not above 0 has no whole part, and what is too large for 64 bits is held there. -/
theorem le_toNat_iff {k : Nat} (hpos : 0 < k) (hk : k < UInt64.size) :
    k ≤ toNat x ↔ (((k : ℚ) : WithTop ℚ) : WithBot (WithTop ℚ)) ≤ level x := by
  by_cases hx : x.isFinite = true
  · have hlevel : level x = ((value x : WithTop ℚ) : WithBot (WithTop ℚ)) := rank_of_isFinite hx
    rw [hlevel, WithBot.coe_le_coe, WithTop.coe_le_coe, toNat_eq_floor hx, le_min_iff,
      and_iff_left (Nat.le_sub_one_of_lt hk), Nat.le_floor_iff' hpos.ne']
  change ¬ (parts x).isFinite = true at hx
  show k ≤ (parts x).toUInt64.toNat ↔ _ ≤ rank (parts x)
  generalize parts x = u at *
  cases u with
  | notANumber =>
    refine iff_of_false hpos.not_ge ?_
    show ¬ _ ≤ (((0 : ℚ) : WithTop ℚ) : WithBot (WithTop ℚ))
    rw [WithBot.coe_le_coe, WithTop.coe_le_coe, not_le]
    exact_mod_cast hpos
  | infinity s =>
    cases s with
    | positive => exact iff_of_true (Nat.le_sub_one_of_lt hk) le_top
    | negative => exact iff_of_false hpos.not_ge (by simp [rank])
  | _ => exact absurd rfl hx

end ToneScore.Binary64
