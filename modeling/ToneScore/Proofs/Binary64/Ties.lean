import ToneScore.Proofs.Binary64.Scaling

/-!
# Ties to even

`toEven` is the whole number nearest to a rational, a tie going to the even one. To round a
significand after a shift, two of the dropped bits are enough: `Holds` says which number a
significand with these bits stands for. A shift to the right divides that number
(`holds_shiftRight`), and rounding the bits rounds it (`Holds.roundedMantissa_eq`).
-/

namespace ToneScore.Binary64

open Float.Model.UnpackedFloat

/-! ## Ties to even -/

/-- The whole number nearest to `q`, a tie going to the even one. -/
def toEven (q : ℚ) : ℤ :=
  if q - ⌊q⌋ < 1 / 2 then ⌊q⌋
  else if 1 / 2 < q - ⌊q⌋ then ⌊q⌋ + 1
  else ⌊q⌋ + ⌊q⌋ % 2

theorem abs_toEven_sub_le (q : ℚ) : |(toEven q : ℚ) - q| ≤ 1 / 2 := by
  have hlow := Int.floor_le q
  have hhigh := Int.lt_floor_add_one q
  unfold toEven
  split
  · rw [abs_le]
    constructor <;> linarith
  split
  · push_cast
    rw [abs_le]
    constructor <;> linarith
  · have hrest : ((⌊q⌋ % 2 : ℤ) : ℚ) = 0 ∨ ((⌊q⌋ % 2 : ℤ) : ℚ) = 1 := by
      rcases Int.emod_two_eq_zero_or_one ⌊q⌋ with h | h
      · exact .inl (by exact_mod_cast h)
      · exact .inr (by exact_mod_cast h)
    push_cast at hrest ⊢
    rw [abs_le]
    rcases hrest with h | h <;> rw [h] <;> constructor <;> linarith

theorem toEven_intCast (n : ℤ) : toEven n = n := by
  unfold toEven
  rw [Int.floor_intCast, if_pos (by norm_num)]

theorem floor_neg_of_lt {q : ℚ} (h : (⌊q⌋ : ℚ) < q) : ⌊-q⌋ = -⌊q⌋ - 1 := by
  have hhigh := Int.lt_floor_add_one q
  rw [Int.floor_eq_iff]
  push_cast
  constructor <;> linarith

theorem toEven_neg (q : ℚ) : toEven (-q) = -toEven q := by
  rcases (Int.floor_le q).eq_or_lt with h | h
  · rw [← h, ← Int.cast_neg, toEven_intCast, toEven_intCast]
  · have hfraction : -q - ((-⌊q⌋ - 1 : ℤ) : ℚ) = 1 - (q - ⌊q⌋) := by
      push_cast
      ring
    unfold toEven
    rw [floor_neg_of_lt h, hfraction]
    rcases lt_trichotomy (q - ⌊q⌋) (1 / 2) with hlt | heq | hgt
    · rw [if_neg (by linarith), if_pos (by linarith), if_pos hlt]
      omega
    · rw [heq]
      norm_num
      omega
    · rw [if_pos (by linarith), if_neg (by linarith), if_pos hgt]
      omega

theorem toEven_le {q : ℚ} {n : ℤ} (h : q ≤ n) : toEven q ≤ n := by
  have hclose := (abs_le.mp (abs_toEven_sub_le q)).2
  have hlt : (toEven q : ℚ) < (n + 1 : ℤ) := by
    push_cast
    linarith
  have : toEven q < n + 1 := by exact_mod_cast hlt
  omega

theorem le_toEven {q : ℚ} {n : ℤ} (h : n ≤ q) : n ≤ toEven q := by
  rw [← neg_neg q, toEven_neg]
  have := toEven_le (q := -q) (n := -n) (by push_cast; linarith)
  omega

/-! ## What is left of dropped bits -/

/--
A significand with the two bits kept of what was dropped, and the number it stands for: the first bit
is a half, and the second says that there is more.
-/
def Holds : ExtendedMantissa → ℚ → Prop
  | ⟨m, false, false⟩, q => q = m
  | ⟨m, false, true⟩, q => m < q ∧ q < m + 1 / 2
  | ⟨m, true, false⟩, q => q = m + 1 / 2
  | ⟨m, true, true⟩, q => m + 1 / 2 < q ∧ q < m + 1

theorem holds_shiftRightOne {em : ExtendedMantissa} {q : ℚ} (h : Holds em q) :
    Holds em.shiftRightOne (q / 2) := by
  obtain ⟨m, half, more⟩ := em
  obtain ⟨k, rfl | rfl⟩ := Nat.even_or_odd' m
  · have hshift : ExtendedMantissa.shiftRightOne ⟨2 * k, half, more⟩ = ⟨k, false, half || more⟩ := by
      simp [ExtendedMantissa.shiftRightOne]
    rw [hshift]
    cases half <;> cases more <;> simp only [Holds, Bool.or_true, Bool.or_false] at h ⊢ <;>
      push_cast at h
    · linarith
    · constructor <;> linarith
    · constructor <;> linarith
    · constructor <;> linarith
  · have hshift : ExtendedMantissa.shiftRightOne ⟨2 * k + 1, half, more⟩ =
        ⟨k, true, half || more⟩ := by
      simp only [ExtendedMantissa.shiftRightOne, ExtendedMantissa.mk.injEq]
      exact ⟨by omega, by simp, trivial⟩
    rw [hshift]
    cases half <;> cases more <;> simp only [Holds, Bool.or_true, Bool.or_false] at h ⊢ <;>
      push_cast at h
    · linarith
    · constructor <;> linarith
    · constructor <;> linarith
    · constructor <;> linarith

/-- Shifting divides, and forgets nothing that rounding asks for. -/
theorem holds_shiftRight {em : ExtendedMantissa} {q : ℚ} (h : Holds em q) (n : Nat) :
    Holds (em >>> n) (q / 2 ^ n) := by
  show Holds (n.repeat ExtendedMantissa.shiftRightOne em) _
  induction n with
  | zero => rwa [pow_zero, div_one]
  | succ n ih =>
    have hstep := holds_shiftRightOne ih
    rwa [div_div, ← pow_succ] at hstep

theorem Holds.floor_eq {em : ExtendedMantissa} {q : ℚ} (h : Holds em q) : ⌊q⌋ = em.mantissa := by
  obtain ⟨m, half, more⟩ := em
  rw [Int.floor_eq_iff]
  cases half <;> cases more <;> simp only [Holds] at h <;> push_cast <;>
    constructor <;> linarith

theorem Holds.roundedMantissa_eq {em : ExtendedMantissa} {q : ℚ} (h : Holds em q) :
    (em.roundedMantissa : ℤ) = toEven q := by
  have hfloor := h.floor_eq
  obtain ⟨m, half, more⟩ := em
  unfold toEven
  rw [hfloor]
  simp only [Int.cast_natCast]
  cases half <;> cases more <;> simp only [Holds] at h
  · rw [if_pos (by linarith)]
    rfl
  · rw [if_pos (by linarith)]
    rfl
  · rw [if_neg (by linarith), if_neg (by linarith)]
    rfl
  · rw [if_neg (by linarith), if_pos (by linarith)]
    rfl

end ToneScore.Binary64
