import ToneScore.Proofs.Binary64.Rounded

/-!
# Rounding keeps the order

A double is a multiple of its own last bit, so rounding leaves it where it is
(`rounded_of_isDouble`), and a larger number is never rounded to a smaller double (`rounded_mono`).
What lies between two doubles is therefore rounded to something between them, and does not overflow
(`Rounds.between`). Factors that are not negative keep the order of products (`mul_mono`).
-/

namespace ToneScore.Binary64

open Float.Model (UnpackedFloat)
open Float.Model.UnpackedFloat

/-! ## Ties to even -/

theorem toEven_mono {p q : ℚ} (h : p ≤ q) : toEven p ≤ toEven q := by
  have hplow := Int.floor_le p
  have hqlow := Int.floor_le q
  have hphigh := Int.lt_floor_add_one p
  rcases (Int.floor_le_floor h).lt_or_eq with hlt | heq
  · have hp : toEven p ≤ ⌊p⌋ + 1 := toEven_le (by push_cast; exact hphigh.le)
    have hq : ⌊q⌋ ≤ toEven q := le_toEven hqlow
    omega
  · unfold toEven
    rw [heq] at *
    have hbit := Int.emod_two_eq_zero_or_one ⌊q⌋
    rcases lt_trichotomy (p - ⌊q⌋) (1 / 2) with hp | hp | hp
    · rw [if_pos hp]
      split_ifs <;> omega
    · rw [if_neg (by linarith), if_neg (by linarith), if_neg (by linarith)]
      split_ifs <;> omega
    · rw [if_neg (by linarith), if_pos hp, if_neg (by linarith), if_pos (by linarith)]

theorem toEven_eq_of_abs_lt {q : ℚ} {n : ℤ} (h : |q - n| < 1 / 2) : toEven q = n := by
  have hclose := abs_toEven_sub_le q
  have hlt : |((toEven q - n : ℤ) : ℚ)| < 1 := by
    have hsum : ((toEven q - n : ℤ) : ℚ) = (toEven q - q) + (q - n) := by
      push_cast
      ring
    rw [hsum]
    have := abs_add_le ((toEven q : ℚ) - q) (q - n)
    linarith
  have : |toEven q - n| < 1 := by exact_mod_cast hlt
  have := Int.abs_lt_one_iff.mp this
  omega

/-- Halfway to the next whole number, an odd one goes up and an even one stays. -/
theorem toEven_add_half (n : ℤ) : toEven (n + 1 / 2) = n + n % 2 := by
  have hfloor : ⌊(n : ℚ) + 1 / 2⌋ = n := by
    rw [Int.floor_eq_iff]
    constructor <;> linarith
  unfold toEven
  rw [hfloor, if_neg (by linarith), if_neg (by linarith)]

/-! ## Doubles are kept -/

theorem IsDouble.exists_multiple {q : ℚ} (h : IsDouble q) : ∃ k : ℤ, q = k * 2 ^ lastExponent q := by
  obtain ⟨u, hu, hfinite, rfl⟩ := h
  rcases zero_or_finite hfinite with ⟨s, rfl⟩ | ⟨s, m, e, hm, rfl⟩
  · exact ⟨0, by rw [Int.cast_zero, zero_mul]; rfl⟩
  · have hlast : lastExponent (number (.finite s m e hm)) = e := by
      obtain ⟨-, hlog⟩ := pos_and_log_eq hm (holds_exact m e)
      have hlog2 : m.log2 < 53 := (Nat.log2_lt hm.ne').mpr hu.lt
      have hleast := hu.least_le
      rw [lastExponent, abs_number_finite, hlog]
      rcases hu.normal with hnormal | rfl
      · have : 52 ≤ m.log2 := (Nat.le_log2 hm.ne').mpr hnormal
        omega
      · omega
    exact ⟨s.apply m, by rw [hlast]; rfl⟩

theorem rounded_of_isDouble {q : ℚ} (h : IsDouble q) : rounded q = q := by
  obtain ⟨k, hk⟩ := h.exists_multiple
  have hpos := two_zpow_pos (lastExponent q)
  have hquotient : q / 2 ^ lastExponent q = k := by rw [div_eq_iff hpos.ne', ← hk]
  rw [rounded, hquotient, toEven_intCast, ← hk]

/-! ## The order -/

section
variable {p q : ℚ}

theorem lastExponent_mono (hp : 0 < p) (h : p ≤ q) : lastExponent p ≤ lastExponent q := by
  have hlog := Int.log_mono_right (b := 2) hp h
  rw [lastExponent, lastExponent, abs_of_pos hp, abs_of_pos (hp.trans_le h)]
  omega

theorem rounded_nonneg (h : 0 ≤ q) : 0 ≤ rounded q := by
  rcases h.eq_or_lt with rfl | hpos
  · exact rounded_zero.ge
  · have hsignificand : (0 : ℚ) ≤ toEven (q / 2 ^ lastExponent q) := by
      exact_mod_cast (toEven_significand hpos).1
    have := two_zpow_pos (lastExponent q)
    unfold rounded
    positivity

theorem rounded_le_of_lastExponent_lt (hp : 0 < p) (hq : 0 < q)
    (h : lastExponent p < lastExponent q) : rounded p ≤ rounded q := by
  obtain ⟨-, hhigh, -⟩ := toEven_significand hp
  obtain ⟨-, -, hlow⟩ := toEven_significand hq
  have hleast : -1074 ≤ lastExponent p := le_max_right _ _
  have hlow := hlow.resolve_right (by omega)
  have hhigh : (toEven (p / 2 ^ lastExponent p) : ℚ) ≤ 2 ^ 53 := by exact_mod_cast hhigh
  have hlow : (2 ^ 52 : ℚ) ≤ toEven (q / 2 ^ lastExponent q) := by exact_mod_cast hlow
  calc rounded p ≤ 2 ^ 53 * 2 ^ lastExponent p := by
        unfold rounded
        gcongr
    _ = 2 ^ 52 * 2 ^ (lastExponent p + 1) := by rw [zpow_add_one₀ two_ne_zero]; ring
    _ ≤ 2 ^ 52 * 2 ^ lastExponent q := by
        gcongr
        · exact one_le_two
        · omega
    _ ≤ rounded q := by
        unfold rounded
        gcongr

theorem rounded_mono_of_pos (hp : 0 < p) (h : p ≤ q) : rounded p ≤ rounded q := by
  rcases (lastExponent_mono hp h).lt_or_eq with hlt | heq
  · exact rounded_le_of_lastExponent_lt hp (hp.trans_le h) hlt
  · have hpos := two_zpow_pos (lastExponent q)
    have hscaled : p / 2 ^ lastExponent q ≤ q / 2 ^ lastExponent q := by gcongr
    have htoEven : (toEven (p / 2 ^ lastExponent q) : ℚ) ≤ toEven (q / 2 ^ lastExponent q) := by
      exact_mod_cast toEven_mono hscaled
    unfold rounded
    rw [heq]
    gcongr

theorem rounded_mono (h : p ≤ q) : rounded p ≤ rounded q := by
  rcases lt_or_ge 0 p with hp | hp
  · exact rounded_mono_of_pos hp h
  · have hneg : rounded p ≤ 0 := by
      have := rounded_nonneg (neg_nonneg.mpr hp)
      rw [rounded_neg] at this
      linarith
    rcases lt_or_ge q 0 with hq | hq
    · have := rounded_mono_of_pos (neg_pos.mpr hq) (neg_le_neg h)
      rw [rounded_neg, rounded_neg] at this
      linarith
    · exact hneg.trans (rounded_nonneg hq)

theorem rounded_le (h : p ≤ q) (hq : IsDouble q) : rounded p ≤ q :=
  (rounded_mono h).trans_eq (rounded_of_isDouble hq)

theorem le_rounded (h : p ≤ q) (hp : IsDouble p) : p ≤ rounded q :=
  (rounded_of_isDouble hp).ge.trans (rounded_mono h)

end

theorem IsDouble.abs_lt {q : ℚ} (h : IsDouble q) : |q| < 2 ^ (1024 : ℤ) := by
  obtain ⟨u, hu⟩ := h
  obtain ⟨hfinite, hvalue⟩ := value_ofModel_pack hu
  exact hvalue ▸ abs_value_lt hfinite

theorem isDouble_value {x : Float} (hx : x.isFinite = true) : IsDouble (value x) :=
  ⟨_, denotes_parts hx⟩

theorem abs_rounded_lt {low q high : ℚ} (hlow : low ≤ q) (hhigh : q ≤ high) (hl : IsDouble low)
    (hh : IsDouble high) : |rounded q| < 2 ^ (1024 : ℤ) :=
  abs_lt.mpr ⟨(abs_lt.mp hl.abs_lt).1.trans_le (le_rounded hlow hl),
    (rounded_le hhigh hh).trans_lt (abs_lt.mp hh.abs_lt).2⟩

theorem Rounds.between {x : Float} {low q high : ℚ} (h : Rounds x q) (hlow : low ≤ q)
    (hhigh : q ≤ high) (hl : IsDouble low) (hh : IsDouble high) :
    x.isFinite = true ∧ value x = rounded q ∧ low ≤ value x ∧ value x ≤ high := by
  obtain ⟨hfinite, hvalue⟩ := h.value_eq (abs_rounded_lt hlow hhigh hl hh)
  exact ⟨hfinite, hvalue, hvalue ▸ le_rounded hlow hl, hvalue ▸ rounded_le hhigh hh⟩

theorem Rounds.nonneg {x : Float} {q : ℚ} (h : Rounds x q) (hq : 0 ≤ q) : 0.0 ≤ x := by
  cases h with
  | finite hx hv =>
    refine (le_iff_value_le rfl hx).mpr ?_
    rw [hv]
    exact rounded_nonneg hq
  | overflows h =>
    cases h with
    | positive hparts _ =>
      rw [le_iff_compare, hparts]
      rfl
    | negative _ hlarge =>
      exact absurd (hlarge.trans_lt (neg_lt_zero.mpr (two_zpow_pos 1024))) (rounded_nonneg hq).not_gt

/-! ## Products -/

variable {x y z : Float}

theorem isFinite_of_mul (h : (x * y).isFinite = true) : x.isFinite = true ∧ y.isFinite = true := by
  by_contra hnot
  have hspecial : ∀ u, UnpackedFloat.mul Float.Model.Format.binary64 (parts x) (parts y) = u →
      u.isFinite = false → Proper u → False := by
    intro u hu hinfinite hproper
    change (parts (x * y)).isFinite = true at h
    rw [parts_mul hu hproper, hinfinite] at h
    cases h
  change ¬ ((parts x).isFinite = true ∧ (parts y).isFinite = true) at hnot
  generalize parts x = u at *
  generalize parts y = v at *
  cases u <;> cases v <;>
    first
    | exact hnot ⟨rfl, rfl⟩
    | exact hspecial _ rfl rfl trivial

theorem mul_mono (hx : x.isFinite = true) (hnonneg : 0 ≤ value x) (h : value x ≤ value y)
    (hz : 0 ≤ value z) (hyz : (y * z).isFinite = true) :
    (x * z).isFinite = true ∧ 0 ≤ value (x * z) ∧ value (x * z) ≤ value (y * z) := by
  obtain ⟨hy, hfinite⟩ := isFinite_of_mul hyz
  have hvalue := (rounds_mul hy hfinite).value_of_isFinite hyz
  have hzero : (0 : ℚ) ≤ value x * value z := by positivity
  have hle : rounded (value x * value z) ≤ rounded (value y * value z) :=
    rounded_mono (by gcongr)
  have hnonneg := rounded_nonneg hzero
  have hlt := (abs_lt.mp (abs_value_lt hyz)).2
  rw [hvalue] at hlt
  obtain ⟨hxz, hvalue'⟩ := (rounds_mul hx hfinite).value_eq (by
    rw [abs_of_nonneg hnonneg]
    exact hle.trans_lt hlt)
  rw [hvalue', hvalue]
  exact ⟨hxz, hnonneg, hle⟩

end ToneScore.Binary64
