import ToneScore.Proofs.Pitch.Octaves
import ToneScore.Proofs.Pitch.Temperament

/-!
# The range of pitches

In equal temperament a semitone raises the exact frequency by a twentieth or more, also where an
octave ends (`exactFrequency_succ`), and rounding takes back far less than that. So the frequency
grows with the semitone number (`tuning_lt`), and the frequencies that can be sounded are those of
one interval of semitone numbers, from A-1019 to B1019 (`sounds_tuning_iff`).
-/

namespace ToneScore.Pitch

open Binary64

/-- The pitches that are read are those of an interval of semitone numbers, with frequencies that
increase. -/
structure HasRange (read : String → Except Score.Fault Float) (low high : ℤ) : Prop where
  exists_ok_iff {token : String} {p : Pitch} (h : Score.readPitch token = .ok p) :
    (∃ f, read token = .ok f) ↔ low ≤ p.midi ∧ p.midi ≤ high
  refused {token : String} {p : Pitch} (h : Score.readPitch token = .ok p)
    (hout : p.midi < low ∨ high < p.midi) : read token = .error (.pitch token)
  sounds {token : String} {f : Float} (h : read token = .ok f) : Sounds f
  increasing {s t : String} {p q : Pitch} {f g : Float} (hs : Score.readPitch s = .ok p)
    (ht : Score.readPitch t = .ok q) (hf : read s = .ok f) (hg : read t = .ok g)
    (hlt : p.midi < q.midi) : f < g

theorem semitone_succ (n : ℤ) :
    (semitonesAbove n + 1 < 12 ∧ octavesAbove (n + 1) = octavesAbove n ∧
      semitonesAbove (n + 1) = semitonesAbove n + 1) ∨
    (semitonesAbove n = 11 ∧ octavesAbove (n + 1) = octavesAbove n + 1 ∧
      semitonesAbove (n + 1) = 0) := by
  unfold semitonesAbove octavesAbove
  omega

theorem two_pow_end : (2 : ℚ) ^ (1024 : ℤ) = 512 * 2 ^ (1015 : ℤ) := by
  rw [show (1024 : ℤ) = 9 + 1015 by rfl, zpow_add₀ two_ne_zero]
  norm_num

section
variable {ratio : Nat → Float} {m n : ℤ} (h : Tempered ratio)
include h

/-! ## Exact frequencies -/

theorem exactFrequency_pos (n : ℤ) : 0 < exactFrequency ratio n := by
  have hlow := h.low (semitonesAbove_lt n)
  have hpos : 0 < value (ratio (semitonesAbove n)) := by linarith
  unfold exactFrequency
  positivity

/-- A semitone is a twentieth or more, within an octave and from its end to the next one. -/
theorem exactFrequency_succ (n : ℤ) :
    21 / 20 * exactFrequency ratio n ≤ exactFrequency ratio (n + 1) := by
  have hpos := two_zpow_pos (octavesAbove n)
  rcases semitone_succ n with ⟨hlt, hoctaves, hsemitones⟩ | ⟨hlast, hoctaves, hsemitones⟩
  · have hstep := h.step hlt
    rw [exactFrequency, exactFrequency, hoctaves, hsemitones]
    generalize (2 : ℚ) ^ octavesAbove n = p at *
    calc 21 / 20 * (440 * p * value (ratio (semitonesAbove n)))
        = 440 * p * (21 / 20 * value (ratio (semitonesAbove n))) := by ring
      _ ≤ 440 * p * value (ratio (semitonesAbove n + 1)) := by gcongr
  · have hwrap := h.wrap
    rw [exactFrequency, exactFrequency, hoctaves, hsemitones, hlast, zpow_add_one₀ two_ne_zero]
    generalize (2 : ℚ) ^ octavesAbove n = p at *
    calc 21 / 20 * (440 * p * value (ratio 11)) = 440 * p * (21 / 20 * value (ratio 11)) := by ring
      _ ≤ 440 * p * (2 * value (ratio 0)) := by gcongr
      _ = 440 * (p * 2) * value (ratio 0) := by ring

theorem exactFrequency_grows (hlt : m < n) :
    21 / 20 * exactFrequency ratio m ≤ exactFrequency ratio n := by
  induction n, Int.add_one_le_iff.mpr hlt using Int.leInduction with
  | base => exact exactFrequency_succ h m
  | succ k hk ih =>
    have hsucc := exactFrequency_succ h k
    have hpos := exactFrequency_pos h k
    linarith only [ih hk, hsucc, hpos]

theorem exactFrequency_le (hle : m ≤ n) : exactFrequency ratio m ≤ exactFrequency ratio n := by
  rcases hle.lt_or_eq with hlt | rfl
  · have hgrowth := exactFrequency_grows h hlt
    have hpos := exactFrequency_pos h m
    linarith only [hgrowth, hpos]
  · exact le_rfl

/-! ## Rounded frequencies -/

theorem rounded_exactFrequency_bounds (hlow : -1023 ≤ octavesAbove n) :
    exactFrequency ratio n * (1 - 1 / 2 ^ 53) ≤ rounded (exactFrequency ratio n) ∧
      rounded (exactFrequency ratio n) ≤ exactFrequency ratio n * (1 + 1 / 2 ^ 53) :=
  rounded_bounds ((two_pow_le_exactFrequency h.moderate hlow).trans (le_abs_self _))
    (exactFrequency_pos h n)

/-- The last semitone that does not overflow is the second above an A. -/
theorem rounded_lt_two_pow (hlow : -1023 ≤ octavesAbove n) (hhigh : n ≤ 12251) :
    rounded (exactFrequency ratio n) < 2 ^ (1024 : ℤ) := by
  have hbound := (rounded_exactFrequency_bounds h hlow).2
  have hle := exactFrequency_le h hhigh
  have hsecond := h.ratio_two_le
  have htop : exactFrequency ratio 12251 = 440 * 2 ^ (1015 : ℤ) * value (ratio 2) := rfl
  rw [htop] at hle
  rw [two_pow_end]
  have hpos := two_zpow_pos 1015
  generalize (2 : ℚ) ^ (1015 : ℤ) = p at *
  have hproduct : 440 * p * value (ratio 2) ≤ 440 * p * (113 / 100) := by gcongr
  linarith only [hbound, hle, hproduct, hpos]

theorem two_pow_le_rounded (hlow : -1023 ≤ octavesAbove n) (hhigh : 12251 < n) :
    2 ^ (1024 : ℤ) ≤ rounded (exactFrequency ratio n) := by
  have hbound := (rounded_exactFrequency_bounds h hlow).1
  have hle := exactFrequency_le h (Int.add_one_le_iff.mpr hhigh)
  have hthird := h.le_ratio_three
  have hnext : exactFrequency ratio (12251 + 1) = 440 * 2 ^ (1015 : ℤ) * value (ratio 3) := rfl
  rw [hnext] at hle
  rw [two_pow_end]
  have hpos := two_zpow_pos 1015
  generalize (2 : ℚ) ^ (1015 : ℤ) = p at *
  have hproduct : 440 * p * (118 / 100) ≤ 440 * p * value (ratio 3) := by gcongr
  linarith only [hbound, hle, hproduct, hpos]

theorem sounds_tuning_iff : Sounds (tuning ratio n) ↔ -12207 ≤ n ∧ n ≤ 12251 := by
  constructor
  · rintro ⟨hfinite, hpos⟩
    obtain ⟨hlow, hhigh⟩ := octavesAbove_mem h.moderate hfinite hpos
    refine ⟨by unfold octavesAbove at hlow; omega, ?_⟩
    by_contra hlarge
    exact parts_ne_infinity hfinite _ ((rounds_tuning h.moderate hlow hhigh).infinity
      (two_pow_le_rounded h hlow (by omega)))
  · rintro ⟨hlow, hhigh⟩
    have hlow : -1023 ≤ octavesAbove n := by unfold octavesAbove; omega
    have hrounds := rounds_tuning h.moderate hlow (by unfold octavesAbove; omega)
    have hpos : 0 < rounded (exactFrequency ratio n) := by
      have hexact := exactFrequency_pos h n
      have hbound := (rounded_exactFrequency_bounds h hlow).1
      linarith only [hexact, hbound]
    have hlarge := rounded_lt_two_pow h hlow hhigh
    obtain ⟨hfinite, hvalue⟩ := hrounds.value_eq (by rwa [abs_of_pos hpos])
    refine ⟨hfinite, (lt_iff_value_lt rfl hfinite).mpr ?_⟩
    rw [hvalue]
    exact hpos

theorem tuning_lt (hm : Sounds (tuning ratio m)) (hn : Sounds (tuning ratio n)) (hlt : m < n) :
    tuning ratio m < tuning ratio n := by
  have hmlow := (octavesAbove_mem h.moderate hm.1 hm.2).1
  have hnlow := (octavesAbove_mem h.moderate hn.1 hn.2).1
  have hgrowth := exactFrequency_grows h hlt
  have hpos := exactFrequency_pos h m
  have hmbound := (rounded_exactFrequency_bounds h hmlow).2
  have hnbound := (rounded_exactFrequency_bounds h hnlow).1
  rw [lt_iff_value_lt hm.1 hn.1, value_of_sounds h.moderate hm, value_of_sounds h.moderate hn]
  -- A twentieth outweighs both roundings.
  linarith only [hgrowth, hpos, hmbound, hnbound]

/-! ## Reading -/

theorem hasRange_readTuned : HasRange (Score.readTuned ratio) (-12207) 12251 where
  exists_ok_iff hp := by
    rw [← sounds_tuning_iff h]
    exact ⟨fun ⟨f, hf⟩ => (sounds_of_readTuned hp hf).2, fun hs => ⟨_, readTuned_of_sounds hp hs⟩⟩
  refused hp hout := by
    refine readTuned_of_not_sounds hp fun hs => ?_
    have := (sounds_tuning_iff h).mp hs
    omega
  sounds {token f} hf := by
    cases hp : Score.readPitch token with
    | ok p =>
      obtain ⟨rfl, hs⟩ := sounds_of_readTuned hp hf
      exact hs
    | error fault =>
      rw [Score.readTuned, hp] at hf
      cases hf
  increasing hp hq hf hg hlt := by
    obtain ⟨rfl, hsp⟩ := sounds_of_readTuned hp hf
    obtain ⟨rfl, hsq⟩ := sounds_of_readTuned hq hg
    exact tuning_lt h hsp hsq hlt

end

/-- The pitches from A-1019 to B1019 are read, with increasing frequencies, and no others, in every
equal temperament. -/
theorem readFrequency_range :
    (⟨.A, .natural, -1019⟩ : Pitch).midi = -12207 ∧ (⟨.B, .natural, 1019⟩ : Pitch).midi = 12251 ∧
      HasRange Score.readFrequency (-12207) 12251 ∧
      ∀ ratio, Tempered ratio → HasRange (Score.readTuned ratio) (-12207) 12251 :=
  ⟨by decide, by decide, hasRange_readTuned tempered_semitoneRatio, fun _ => hasRange_readTuned⟩

/-- The lowest pitch and its neighbours, and the pitch above the highest. -/
theorem readFrequency_range_ends :
    Score.readFrequency "G#-1019" = .error (.pitch "G#-1019") ∧
    Score.readTuned semitoneRatio "C1020" = .error (.pitch "C1020") ∧
    ∃ f g, Score.readTuned semitoneRatio "A-1019" = .ok f ∧
      Score.readTuned semitoneRatio "Bb-1019" = .ok g ∧ f < g := by
  obtain ⟨-, -, hown, hany⟩ := readFrequency_range
  have hany := hany semitoneRatio tempered_semitoneRatio
  have hbelow : Score.readPitch "G#-1019" = .ok ⟨.G, .sharp, -1019⟩ := by decide +kernel
  have habove : Score.readPitch "C1020" = .ok ⟨.C, .natural, 1020⟩ := by decide +kernel
  have hp : Score.readPitch "A-1019" = .ok ⟨.A, .natural, -1019⟩ := by decide +kernel
  have hq : Score.readPitch "Bb-1019" = .ok ⟨.B, .flat, -1019⟩ := by decide +kernel
  obtain ⟨f, hf⟩ := (hany.exists_ok_iff hp).mpr (by decide)
  obtain ⟨g, hg⟩ := (hany.exists_ok_iff hq).mpr (by decide)
  exact ⟨hown.refused hbelow (by decide), hany.refused habove (by decide), f, g, hf, hg,
    hany.increasing hp hq hf hg (by decide)⟩

end ToneScore.Pitch
