import ToneScore.Proofs.Binary64.Order
import ToneScore.Proofs.Binary64.Sums

/-!
# Rounding to whole numbers

The whole part of a double, its fraction and the next whole number are doubles again, so `round`
computes with them exactly: it gives the whole number nearest to the value, and of two it takes the
one further from zero (`value_round`). For the same reason `floor` gives the floor of the value
(`value_floor`).
-/

namespace ToneScore.Binary64

open Float.Model (UnpackedFloat)
open Float.Model.UnpackedFloat

/-! ## Nearest whole numbers -/

/-- The whole number nearest to `q`, halves going away from zero. -/
def nearest (q : ℚ) : ℤ :=
  if q < 0 then -⌊-q + 1 / 2⌋ else ⌊q + 1 / 2⌋

theorem nearest_of_nonneg {q : ℚ} (h : 0 ≤ q) : nearest q = ⌊q + 1 / 2⌋ :=
  if_neg (not_lt.mpr h)

theorem nearest_neg (q : ℚ) : nearest (-q) = -nearest q := by
  unfold nearest
  rcases lt_trichotomy q 0 with h | rfl | h
  · rw [if_neg (by linarith), if_pos h, neg_neg]
  · norm_num
  · rw [if_pos (by linarith), if_neg (by linarith), neg_neg]

theorem abs_nearest_sub_le (q : ℚ) : |(nearest q : ℚ) - q| ≤ 1 / 2 := by
  have hhalf : ∀ p : ℚ, |(⌊p + 1 / 2⌋ : ℚ) - p| ≤ 1 / 2 := by
    intro p
    have hlow := Int.floor_le (p + 1 / 2)
    have hhigh := Int.lt_floor_add_one (p + 1 / 2)
    rw [abs_le]
    constructor <;> linarith
  unfold nearest
  split
  · have h := hhalf (-q)
    rw [abs_sub_comm] at h
    push_cast
    rwa [neg_sub_left, abs_neg, add_comm, ← sub_neg_eq_add, abs_sub_comm]
  · exact hhalf q

theorem nearest_intCast (n : ℤ) : nearest n = n := by
  have h := abs_nearest_sub_le n
  have hlt : |nearest n - n| < 1 := by
    have : |((nearest n - n : ℤ) : ℚ)| < 1 := by
      push_cast
      linarith
    exact_mod_cast this
  have := Int.abs_lt_one_iff.mp hlt
  omega

theorem le_nearest {n : ℤ} {q : ℚ} (h : n ≤ q) : n ≤ nearest q := by
  have hclose := (abs_le.mp (abs_nearest_sub_le q)).1
  have hlt : ((n - 1 : ℤ) : ℚ) < nearest q := by
    push_cast
    linarith
  have : n - 1 < nearest q := by exact_mod_cast hlt
  omega

theorem nearest_le {n : ℤ} {q : ℚ} (h : q ≤ n) : nearest q ≤ n := by
  have hclose := (abs_le.mp (abs_nearest_sub_le q)).2
  have hlt : (nearest q : ℚ) < (n + 1 : ℤ) := by
    push_cast
    linarith
  have : nearest q < n + 1 := by exact_mod_cast hlt
  omega

theorem nearest_mono {p q : ℚ} (h : p ≤ q) : nearest p ≤ nearest q := by
  unfold nearest
  split
  · split
    · have := Int.floor_le_floor (show -q + 1 / 2 ≤ -p + 1 / 2 by linarith)
      omega
    · have hp : 0 ≤ ⌊-p + 1 / 2⌋ := Int.floor_nonneg.mpr (by linarith)
      have hq : 0 ≤ ⌊q + 1 / 2⌋ := Int.floor_nonneg.mpr (by linarith)
      omega
  · rw [if_neg (by linarith)]
    exact Int.floor_le_floor (by linarith)

/-- No whole number is nearer to `q`, and none that is as near is further from zero. -/
structure IsNearest (n : ℤ) (q : ℚ) : Prop where
  nearest : ∀ m : ℤ, |q - n| ≤ |q - m|
  away : ∀ m : ℤ, |q - m| = |q - n| → |m| ≤ |n|

theorem IsNearest.neg {n : ℤ} {q : ℚ} (h : IsNearest n q) : IsNearest (-n) (-q) := by
  have hmirror : ∀ m : ℤ, |-q - m| = |q - (-m : ℤ)| := by
    intro m
    push_cast
    rw [← abs_neg]
    congr 1
    ring
  constructor
  · intro m
    rw [hmirror, hmirror, neg_neg]
    exact h.nearest (-m)
  · intro m hm
    rw [hmirror, hmirror, neg_neg] at hm
    rw [abs_neg, ← abs_neg m]
    exact h.away (-m) hm

theorem isNearest_nearest_of_nonneg {q : ℚ} (h : 0 ≤ q) : IsNearest (nearest q) q := by
  have hlow := Int.floor_le (q + 1 / 2)
  have hhigh := Int.lt_floor_add_one (q + 1 / 2)
  rw [nearest_of_nonneg h]
  generalize ⌊q + 1 / 2⌋ = n at *
  have hn : 0 ≤ n := by
    have : ((-1 : ℤ) : ℚ) < n := by push_cast; linarith
    have : -1 < n := by exact_mod_cast this
    omega
  have hclose : |q - n| ≤ 1 / 2 := by
    rw [abs_le]
    constructor <;> linarith
  -- Below `n` a whole number is at least half away, and above it more than half.
  have hbelow : ∀ m : ℤ, m < n → 1 / 2 ≤ |q - m| := by
    intro m hm
    have : (m : ℚ) + 1 ≤ n := by exact_mod_cast hm
    exact le_abs.mpr (.inl (by linarith))
  have habove : ∀ m : ℤ, n < m → 1 / 2 < |q - m| := by
    intro m hm
    have : (n : ℚ) + 1 ≤ m := by exact_mod_cast hm
    exact lt_abs.mpr (.inr (by linarith))
  constructor
  · intro m
    rcases lt_trichotomy m n with hm | rfl | hm
    · exact hclose.trans (hbelow m hm)
    · exact le_rfl
    · exact hclose.trans (habove m hm).le
  · intro m hm
    rcases lt_trichotomy m n with hlt | rfl | hgt
    · -- Half a step below `q` there is no negative number.
      have hm0 : 0 ≤ m := by
        by_contra hneg
        have : (m : ℚ) + 1 ≤ 0 := by exact_mod_cast not_le.mp hneg
        have := (abs_le.mp (hm.le.trans hclose)).2
        linarith
      rw [abs_of_nonneg hm0, abs_of_nonneg hn]
      exact hlt.le
    · exact le_rfl
    · have := habove m hgt
      linarith

theorem isNearest_nearest (q : ℚ) : IsNearest (nearest q) q := by
  rcases le_total 0 q with h | h
  · exact isNearest_nearest_of_nonneg h
  · have hneg := (isNearest_nearest_of_nonneg (neg_nonneg.mpr h)).neg
    rwa [nearest_neg, neg_neg, neg_neg] at hneg

/-! ## Whole parts and fractions -/

variable {x : Float}

theorem exists_int_of_abs {q : ℚ} {n : Nat} (h : |q| = n) : ∃ k : ℤ, q = k := by
  rcases abs_choice q with habs | habs
  · exact ⟨n, by rw [← habs, h]; rfl⟩
  · exact ⟨-n, by push_cast; linarith⟩

theorem mul_two_zpow_eq_natCast (m : Nat) {e : ℤ} (h : 0 ≤ e) :
    (m * 2 ^ e : ℚ) = (m * 2 ^ e.toNat : Nat) := by
  obtain ⟨k, rfl⟩ := Int.eq_ofNat_of_zero_le h
  push_cast
  rfl

theorem exists_whole (hx : x.isFinite = true) (h : 2 ^ 52 ≤ |value x|) : ∃ n : ℤ, value x = n := by
  obtain ⟨m, e, hm, -, -, hvalue⟩ := abs_value_eq hx
  have he : 0 ≤ e := by
    by_contra hneg
    have hpow : (2 : ℚ) ^ e ≤ 2 ^ (-1 : ℤ) := zpow_le_zpow_right₀ one_le_two (by omega)
    have hm' : (m : ℚ) < 2 ^ 53 := by exact_mod_cast hm
    have : (m * 2 ^ e : ℚ) < 2 ^ 53 * 2 ^ (-1 : ℤ) :=
      mul_lt_mul_of_lt_of_le_of_nonneg_of_pos hm' hpow (by positivity) (by positivity)
    norm_num at this
    linarith
  exact exists_int_of_abs (hvalue.trans (mul_two_zpow_eq_natCast m he))

theorem isDouble_fraction (hx : x.isFinite = true) : IsDouble (|value x| - ⌊|value x|⌋₊) := by
  obtain ⟨m, e, hm, hleast, hgreatest, hvalue⟩ := abs_value_eq hx
  rw [hvalue]
  rcases Int.lt_or_le e 0 with he | he
  · obtain ⟨k, rfl⟩ : ∃ k : Nat, e = -k := ⟨(-e).toNat, by omega⟩
    have hfloor := shift_eq_floor m (-k)
    rw [show (-(k : ℤ)).toNat = 0 by omega, show (- -(k : ℤ)).toNat = k by omega,
      Nat.shiftLeft_zero] at hfloor
    have hmod : (m : ℚ) = 2 ^ k * (m / 2 ^ k : Nat) + (m % 2 ^ k : Nat) := by
      exact_mod_cast (Nat.div_add_mod m (2 ^ k)).symm
    have hfraction : (m * 2 ^ (-(k : ℤ)) - ⌊(m * 2 ^ (-(k : ℤ)) : ℚ)⌋₊ : ℚ) =
        ((m % 2 ^ k : Nat) : ℤ) * 2 ^ (-(k : ℤ)) := by
      rw [← hfloor, zpow_neg, zpow_natCast, Int.cast_natCast]
      field_simp
      linarith
    rw [hfraction]
    have hle := Nat.mod_le m (2 ^ k)
    exact isDouble_mul_two_zpow (by omega) hleast hgreatest
  · rw [mul_two_zpow_eq_natCast m he, Nat.floor_natCast, sub_self]
    exact ⟨_, denotes_zero .positive⟩

theorem wholePart_eq (x : Float) : wholePart x = ofCount (toNat x.abs) :=
  congrArg UInt64.toFloat (UInt64.ofNat_toNat (x := x.abs.toUInt64)).symm

theorem floor_abs_lt (h : |value x| < 2 ^ 52) : ⌊|value x|⌋₊ < 2 ^ 52 := by
  rw [Nat.floor_lt (abs_nonneg _)]
  exact_mod_cast h

theorem value_wholePart (hx : x.isFinite = true) (h : |value x| < 2 ^ 52) :
    (wholePart x).isFinite = true ∧ value (wholePart x) = ⌊|value x|⌋₊ := by
  have hfloor := floor_abs_lt h
  have hcount : toNat x.abs = ⌊|value x|⌋₊ := by
    have hsize : UInt64.size = 2 ^ 64 := rfl
    rw [toNat_eq_floor ((isFinite_abs x).trans hx), value_abs]
    omega
  rw [wholePart_eq, hcount]
  exact value_ofCount (by omega)

/-! ## The rounding of doubles -/

theorem value_wholeFrom : value wholeFrom = 2 ^ 52 := by
  have h : parts wholeFrom = .finite .positive (2 ^ 52) 0 (by decide) := rfl
  rw [value, h, number_positive]
  norm_num

theorem value_half : value 0.5 = 1 / 2 := by
  have h : parts 0.5 = .finite .positive (2 ^ 52) (-53) (by decide) := rfl
  rw [value, h, number_positive]
  norm_num

theorem value_one : value 1.0 = 1 := by
  have h : parts 1.0 = .finite .positive (2 ^ 52) (-52) (by decide) := rfl
  rw [value, h, number_positive]
  norm_num

theorem value_two : value 2.0 = 2 := by
  have h : parts 2.0 = .finite .positive (2 ^ 52) (-51) (by decide) := rfl
  rw [value, h, number_positive]
  norm_num

theorem value_four : value 4.0 = 2 ^ 2 := by
  have h : parts 4.0 = .finite .positive (2 ^ 52) (-50) (by decide) := rfl
  rw [value, h, number_positive]
  norm_num

theorem abs_lt_wholeFrom_iff (hx : x.isFinite = true) : x.abs < wholeFrom ↔ |value x| < 2 ^ 52 := by
  rw [lt_iff_value_lt ((isFinite_abs x).trans hx) rfl, value_abs, value_wholeFrom]

/-- The whole part or the next number is the one nearest to the absolute value. -/
theorem value_nearer (hx : x.isFinite = true) (h : |value x| < 2 ^ 52) :
    (if x.abs - wholePart x < 0.5 then wholePart x else wholePart x + 1.0).isFinite = true ∧
      value (if x.abs - wholePart x < 0.5 then wholePart x else wholePart x + 1.0) =
        nearest |value x| := by
  obtain ⟨hwhole, hwholeValue⟩ := value_wholePart hx h
  have hfloor := floor_abs_lt h
  have hlow := Nat.floor_le (abs_nonneg (value x))
  have hhigh := Nat.lt_floor_add_one |value x|
  have hfraction := isDouble_fraction hx
  generalize ⌊|value x|⌋₊ = n at *
  rw [← value_abs, ← hwholeValue] at hfraction
  obtain ⟨hsub, hsubValue⟩ := value_sub_of_exact ((isFinite_abs x).trans hx) hwhole hfraction
  have hhalf : x.abs - wholePart x < 0.5 ↔ |value x| - n < 1 / 2 := by
    rw [lt_iff_value_lt hsub rfl, hsubValue, value_abs, hwholeValue, value_half]
  rw [nearest_of_nonneg (abs_nonneg _)]
  split
  · next hlt =>
    have hlt := hhalf.mp hlt
    have hnearest : ⌊|value x| + 1 / 2⌋ = (n : ℤ) := by
      rw [Int.floor_eq_iff]
      constructor <;> push_cast <;> linarith
    exact ⟨hwhole, by rw [hnearest, hwholeValue]; rfl⟩
  · next hge =>
    have hge := not_lt.mp (mt hhalf.mpr hge)
    have hnext : value (wholePart x) + value 1.0 = ((n + 1 : ℤ) : ℚ) := by
      rw [hwholeValue, value_one]
      push_cast
      rfl
    obtain ⟨hadd, haddValue⟩ := value_add_of_exact hwhole rfl
      (hnext ▸ isDouble_intCast (by omega))
    have hnearest : ⌊|value x| + 1 / 2⌋ = (n + 1 : ℤ) := by
      rw [Int.floor_eq_iff]
      constructor <;> push_cast <;> linarith
    exact ⟨hadd, by rw [hnearest, haddValue, hnext]⟩

theorem value_round (hx : x.isFinite = true) :
    (round x).isFinite = true ∧ value (round x) = nearest (value x) := by
  unfold round
  split
  · next hlt =>
    have hlt := (abs_lt_wholeFrom_iff hx).mp hlt
    simp only
    split
    · next hwhole =>
      obtain ⟨hw, hwValue⟩ := value_wholePart hx hlt
      rw [beq_iff_value_eq hw ((isFinite_abs x).trans hx), hwValue, value_abs] at hwhole
      obtain ⟨n, hn⟩ := exists_int_of_abs hwhole.symm
      exact ⟨hx, by rw [hn, nearest_intCast]⟩
    · obtain ⟨hr, hrValue⟩ := value_nearer hx hlt
      have hneg : x < 0.0 ↔ value x < 0 := lt_iff_value_lt hx rfl
      simp only [hneg]
      split
      · next h =>
        rw [isFinite_neg, value_neg, hrValue, abs_of_neg h, nearest_neg]
        exact ⟨hr, by push_cast; exact neg_neg _⟩
      · next h =>
        rw [hrValue, abs_of_nonneg (not_lt.mp h)]
        exact ⟨hr, rfl⟩
  · next hge =>
    obtain ⟨n, hn⟩ := exists_whole hx (not_lt.mp (mt (abs_lt_wholeFrom_iff hx).mpr hge))
    exact ⟨hx, by rw [hn, nearest_intCast]⟩

theorem round_of_infinity {s : Sign} (h : parts x = .infinity s) : round x = x := by
  refine if_neg fun hlt => ?_
  rw [lt_iff_compare, parts_abs, h] at hlt
  cases hlt

theorem round_of_isNaN (h : x.isNaN = true) : round x = x := by
  refine if_neg fun hlt => ?_
  have habs := (isNaN_of_lt hlt).1
  rw [isNaN_abs, h] at habs
  cases habs

theorem isFinite_of_round (h : (round x).isFinite = true) : x.isFinite = true := by
  by_cases hnan : x.isNaN = true
  · rwa [round_of_isNaN hnan] at h
  rcases finite_or_infinity (Bool.eq_false_iff.mpr hnan) with hfinite | ⟨s, hs⟩
  · exact hfinite
  · rwa [round_of_infinity hs] at h

theorem isFinite_of_abs_lt (h : x.abs < wholeFrom) : x.isFinite = true := by
  have hnan := (isNaN_of_lt h).1
  rw [isNaN_abs] at hnan
  rcases finite_or_infinity hnan with hfinite | ⟨s, hs⟩
  · exact hfinite
  · have hs : parts x = .infinity s := hs
    rw [lt_iff_compare, parts_abs, hs] at h
    cases h

/-! ## The floor of doubles -/

theorem floor_of_neg {q : ℚ} (hneg : q < 0) (hwhole : (⌊|q|⌋₊ : ℚ) ≠ |q|) :
    ((⌊q⌋ : ℤ) : ℚ) = -(⌊|q|⌋₊ + 1) := by
  have hlow := (Nat.floor_le (abs_nonneg q)).lt_of_ne hwhole
  have hhigh := Nat.lt_floor_add_one |q|
  have hfloor : ⌊q⌋ = -((⌊|q|⌋₊ : ℤ) + 1) := by
    rw [abs_of_neg hneg] at *
    rw [Int.floor_eq_iff]
    push_cast
    constructor <;> linarith
  rw [hfloor]
  push_cast
  rfl

theorem value_floor (hx : x.isFinite = true) :
    (floor x).isFinite = true ∧ value (floor x) = ⌊value x⌋ := by
  unfold floor
  split
  · next hlt =>
    have hlt := (abs_lt_wholeFrom_iff hx).mp hlt
    obtain ⟨hw, hwValue⟩ := value_wholePart hx hlt
    have hfloor := floor_abs_lt hlt
    have hneg : x < 0.0 ↔ value x < 0 := lt_iff_value_lt hx rfl
    simp only [beq_iff_value_eq hw ((isFinite_abs x).trans hx), hwValue, value_abs, hneg]
    split
    · next hwhole =>
      obtain ⟨n, hn⟩ := exists_int_of_abs hwhole.symm
      exact ⟨hx, by rw [hn, Int.floor_intCast]⟩
    next hwhole =>
    split
    · next h =>
      have hnext : value (wholePart x) + value 1.0 = ((⌊|value x|⌋₊ + 1 : ℤ) : ℚ) := by
        rw [hwValue, value_one]
        push_cast
        rfl
      obtain ⟨hadd, haddValue⟩ := value_add_of_exact hw rfl (hnext ▸ isDouble_intCast (by omega))
      rw [isFinite_neg, value_neg, haddValue, hwValue, value_one, floor_of_neg h hwhole]
      exact ⟨hadd, rfl⟩
    · next h =>
      rw [abs_of_nonneg (not_lt.mp h), natCast_floor_eq_intCast_floor (not_lt.mp h)] at hwValue
      exact ⟨hw, hwValue⟩
  · next hge =>
    obtain ⟨n, hn⟩ := exists_whole hx (not_lt.mp (mt (abs_lt_wholeFrom_iff hx).mpr hge))
    exact ⟨hx, by rw [hn, Int.floor_intCast]⟩

end ToneScore.Binary64
