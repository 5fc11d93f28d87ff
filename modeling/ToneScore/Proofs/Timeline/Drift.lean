import ToneScore.Proofs.Mixing
import ToneScore.Proofs.Timeline.Positions

/-!
# The timeline does not drift

A position is computed with three roundings of one part in `2^53` each (`Within`), whatever the tempo
is, and then rounded to a whole number. Up to `2^32` samples the three are worth far less than a
thousandth of a sample (`abs_sampleOf?_sub_le`). As every position is computed from the start of the
score, errors do not add up from note to note: notes that touch part or overlap by one sample at most
(`touching_spans`), and a score has its exact length within a sample and a little
(`abs_length?_sub_le`).
-/

namespace ToneScore

open Binary64

namespace Mixer

/-! ## Exact positions -/

/-- The sample position of a tick without any rounding. -/
def exactSample (m : Mixer) (bpm : Float) (tick : ℕ) : ℚ :=
  tick * 60 * m.sampleRate.toNat / (16 * value bpm)

/-- The number is 0 or far above the subnormal doubles. -/
def Clear (q : ℚ) : Prop := q = 0 ∨ 2 ^ (-1019 : ℤ) ≤ q

theorem Clear.natCast_mul {q : ℚ} (n : ℕ) (h : Clear q) : Clear (n * q) := by
  rcases h with rfl | h
  · exact .inl (mul_zero _)
  rcases Nat.eq_zero_or_pos n with rfl | hn
  · exact .inl (by rw [Nat.cast_zero, zero_mul])
  · have hone : (1 : ℚ) ≤ n := by exact_mod_cast hn
    have hpos := (two_zpow_pos _).trans_le h
    exact .inr (h.trans (le_mul_of_one_le_left hpos.le hone))

theorem Clear.rounded {q : ℚ} (h : Clear q) : Clear (rounded q) := by
  rcases h with rfl | h
  · exact .inl rounded_zero
  · exact .inr (le_rounded h (isDouble_two_zpow (by decide) (by decide)))

theorem Clear.within_rounded {k n : ℕ} {p q : ℚ} (hp : Clear p) (h : Within k p q) (hq : 0 ≤ q) :
    Clear (Binary64.rounded (n * p)) ∧ Within (k + 1) (Binary64.rounded (n * p)) (n * q) := by
  have hclear := hp.natCast_mul n
  have hwithin := (Within.refl (n : ℚ)).mul h n.cast_nonneg hq
  rw [Nat.zero_add] at hwithin
  refine ⟨hclear.rounded, hwithin.round (hclear.imp_right fun hle => le_trans ?_ hle)⟩
  exact zpow_le_zpow_right₀ one_le_two (by decide)

variable {m : Mixer} {bpm : Float} {tick : UInt32} {n : ℕ}

theorem value_toFloat_tick (tick : UInt32) : value tick.toUInt64.toFloat = tick.toNat := by
  have hlt := tick.toNat_lt
  have hdouble : IsDouble (tick.toNat : ℤ) := isDouble_intCast (by omega)
  rw [(value_toFloat_word _).2, UInt32.toNat_toUInt64]
  exact rounded_of_isDouble hdouble

/-- A finite position before it is rounded to a whole number. -/
theorem value_product (h : (m.position tick.toUInt64 bpm).isFinite = true) :
    (Score.tickSeconds bpm).isFinite = true ∧
      value (m.position tick.toUInt64 bpm) =
        nearest (rounded (m.sampleRate.toNat *
          rounded (tick.toNat * value (Score.tickSeconds bpm)))) := by
  obtain ⟨hproduct, hvalue⟩ := value_position h
  obtain ⟨hseconds, -⟩ := isFinite_of_mul hproduct
  obtain ⟨htick, htempo⟩ := isFinite_of_mul hseconds
  obtain ⟨hrate, hrateValue⟩ := value_toFloat m.sampleRate
  rw [(rounds_mul hseconds hrate).value_of_isFinite hproduct,
    (rounds_mul htick htempo).value_of_isFinite hseconds, value_toFloat_tick, hrateValue,
    mul_comm _ (m.sampleRate.toNat : ℚ)] at hvalue
  exact ⟨htempo, hvalue⟩

theorem exactSample_eq (m : Mixer) (bpm : Float) (tick : ℕ) :
    m.exactSample bpm tick = m.sampleRate.toNat * (tick * (60 / (16 * value bpm))) := by
  unfold exactSample
  ring

theorem exactSample_add (m : Mixer) (bpm : Float) (k l : ℕ) :
    m.exactSample bpm (k + l) = m.exactSample bpm k + m.exactSample bpm l := by
  unfold exactSample
  push_cast
  ring

/-- At a tempo that is out of range when counted in ticks, no tick is a thousandth of a sample. -/
theorem exactSample_le_of_large (hlarge : 2 ^ (1024 : ℤ) ≤ 16 * value bpm) :
    m.exactSample bpm tick.toNat ≤ 1 / 2 ^ 10 := by
  have htick : (tick.toNat : ℚ) ≤ 2 ^ 32 := by exact_mod_cast tick.toNat_lt.le
  have hrate : (m.sampleRate.toNat : ℚ) ≤ 2 ^ 32 := by exact_mod_cast m.sampleRate.toNat_lt.le
  have hlarge : 2 ^ (100 : ℤ) ≤ 16 * value bpm :=
    (zpow_le_zpow_right₀ one_le_two (by decide)).trans hlarge
  unfold exactSample
  calc (tick.toNat * 60 * m.sampleRate.toNat / (16 * value bpm) : ℚ)
      ≤ 2 ^ 32 * 60 * 2 ^ 32 / 2 ^ (100 : ℤ) := by gcongr
    _ ≤ 1 / 2 ^ 10 := by norm_num

section
variable (hpos : 0 < value bpm)
include hpos

theorem exactSample_nonneg (tick : ℕ) : 0 ≤ m.exactSample bpm tick := by
  unfold exactSample
  positivity

theorem exactSample_mono {s t : ℕ} (h : s ≤ t) : m.exactSample bpm s ≤ m.exactSample bpm t := by
  have : (s : ℚ) ≤ t := by exact_mod_cast h
  unfold exactSample
  gcongr

variable (hfinite : bpm.isFinite = true)
include hfinite

theorem abs_rounded_sub_exactSample_le (htempo : (Score.tickSeconds bpm).isFinite = true)
    (hle : rounded (m.sampleRate.toNat * rounded (tick.toNat * value (Score.tickSeconds bpm))) ≤
      2 ^ 32 + 1 / 2) :
    |rounded (m.sampleRate.toNat * rounded (tick.toNat * value (Score.tickSeconds bpm))) -
      m.exactSample bpm tick.toNat| ≤ 1 / 2 ^ 10 := by
  cases Score.tickLength hfinite hpos with
  | rounded hlow hrounds =>
    have hclear : Clear (60 / (16 * value bpm)) := .inr hlow
    have hquotient : 0 ≤ 60 / (16 * value bpm) := by positivity
    have hwithin : Within 1 (rounded (60 / (16 * value bpm))) (60 / (16 * value bpm)) :=
      (Within.refl _).round (.inr (le_trans (zpow_le_zpow_right₀ one_le_two (by decide)) hlow))
    obtain ⟨hclear, hwithin⟩ := hclear.rounded.within_rounded (n := tick.toNat) hwithin hquotient
    obtain ⟨-, hwithin⟩ := hclear.within_rounded (n := m.sampleRate.toNat) hwithin (by positivity)
    rw [← hrounds.value_of_isFinite htempo, ← exactSample_eq] at hwithin
    obtain ⟨hbelow, habove⟩ := hwithin
    have hnonneg := exactSample_nonneg (m := m) hpos tick.toNat
    generalize rounded (m.sampleRate.toNat * _) = y at *
    norm_num at hbelow habove hle ⊢
    rw [abs_le]
    constructor <;> linarith
  | zero hlarge hzero =>
    have hvalue : value (Score.tickSeconds bpm) = 0 := by
      rw [value, hzero]
      rfl
    rw [hvalue, mul_zero, rounded_zero, mul_zero, rounded_zero, zero_sub, abs_neg,
      abs_of_nonneg (exactSample_nonneg hpos _)]
    exact exactSample_le_of_large hlarge

/-- A position of up to `2^32` is the exact one, up to the last rounding and a thousandth. -/
theorem abs_sampleOf?_sub_le (h : m.sampleOf? tick.toUInt64 bpm = some n) (hle : n ≤ 2 ^ 32) :
    |(n : ℚ) - m.exactSample bpm tick.toNat| ≤ 1 / 2 + 1 / 2 ^ 10 := by
  obtain ⟨⟨hposition, hvalue⟩, -⟩ := sampleOf?_eq_some_iff.mp h
  obtain ⟨htempo, hnearest⟩ := value_product hposition
  rw [hvalue] at hnearest
  have hclose := abs_nearest_sub_le
    (rounded (m.sampleRate.toNat * rounded (tick.toNat * value (Score.tickSeconds bpm))))
  rw [← hnearest] at hclose
  have hle : (n : ℚ) ≤ 2 ^ 32 := by exact_mod_cast hle
  refine (abs_sub_le _ _ _).trans (add_le_add hclose
    (abs_rounded_sub_exactSample_le hpos hfinite htempo ?_))
  linarith [(abs_le.mp hclose).1]

end

/-! ## Notes and scores -/

theorem abs_foldl_max_sub_le (hpos : 0 < value bpm) {c : ℚ} {placed : List (Note × Span)}
    (h : ∀ p ∈ placed, |(p.2.stop : ℚ) - m.exactSample bpm p.1.stop| ≤ c) {reached tick : ℕ}
    (hstart : |(reached : ℚ) - m.exactSample bpm tick| ≤ c) :
    |(((placed.map (·.2.stop)).foldl max reached : ℕ) : ℚ) -
      m.exactSample bpm ((placed.map (·.1.stop)).foldl max tick)| ≤ c := by
  induction placed generalizing reached tick with
  | nil => exact hstart
  | cons p rest ih =>
    obtain ⟨hp, hrest⟩ := List.forall_mem_cons.mp h
    have hmono : Monotone (m.exactSample bpm) := fun _ _ => exactSample_mono hpos
    refine ih hrest ?_
    rw [Nat.cast_max, hmono.map_max]
    exact (abs_max_sub_max_le_max _ _ _ _).trans (max_le hstart hp)

section
variable {a b note : Note} {s t span : Span} (hpos : 0 < value bpm) (hfinite : bpm.isFinite = true)
include hpos hfinite

theorem abs_stop_sub_le (h : m.span? note bpm = some span) (hle : span.stop ≤ 2 ^ 32) :
    |(span.stop : ℚ) - m.exactSample bpm note.stop| ≤ 1 + 1 / 2 ^ 9 := by
  obtain ⟨start, length, hstart, hlength, -, rfl⟩ := span?_eq_bind.mp h
  have hle : start + length ≤ 2 ^ 32 := hle
  obtain ⟨hstartLow, hstartHigh⟩ := abs_le.mp (abs_sampleOf?_sub_le hpos hfinite hstart (by omega))
  obtain ⟨hlengthLow, hlengthHigh⟩ := abs_le.mp (abs_sampleOf?_sub_le hpos hfinite hlength (by omega))
  have hsum : m.exactSample bpm note.stop =
      m.exactSample bpm note.start.toNat + m.exactSample bpm note.duration.toNat :=
    exactSample_add m bpm _ _
  rw [hsum, abs_le]
  push_cast
  constructor <;> linarith

/-- Where one note ends and another starts in the score, their spans part or overlap by a sample at
most. -/
theorem touching_spans (hticks : b.start.toNat = a.stop) (ha : m.span? a bpm = some s)
    (hb : m.span? b bpm = some t) (hs : s.stop ≤ 2 ^ 32) (ht : t.stop ≤ 2 ^ 32) :
    t.start ≤ s.stop + 1 ∧ s.stop ≤ t.start + 1 := by
  obtain ⟨hlow, hhigh⟩ := abs_le.mp (abs_stop_sub_le hpos hfinite ha hs)
  obtain ⟨start, length, hstart, -, -, rfl⟩ := span?_eq_bind.mp hb
  have ht : start + length ≤ 2 ^ 32 := ht
  obtain ⟨hlow', hhigh'⟩ := abs_le.mp (abs_sampleOf?_sub_le hpos hfinite hstart (by omega))
  rw [hticks] at hlow' hhigh'
  -- The two errors add up to less than two samples.
  have hafter : (start : ℚ) < s.stop + 2 := by linarith
  have hbefore : (s.stop : ℚ) < start + 2 := by linarith
  have hafter : start < s.stop + 2 := by exact_mod_cast hafter
  have hbefore : s.stop < start + 2 := by exact_mod_cast hbefore
  show start ≤ s.stop + 1 ∧ s.stop ≤ start + 1
  omega

theorem abs_length?_sub_le {notes : List Note} (h : m.length? ⟨bpm, notes⟩ = some n)
    (hle : n ≤ 2 ^ 32) :
    |(n : ℚ) - m.exactSample bpm (Score.stop ⟨bpm, notes⟩)| ≤ 1 + 1 / 2 ^ 9 := by
  rw [length?_eq, placements?_eq, Option.map_eq_some_iff] at h
  obtain ⟨placed, hplaced, rfl⟩ := h
  obtain ⟨hnotes, hspans⟩ := notes_of_placed? hplaced
  have hstop : Score.stop ⟨bpm, notes⟩ = (placed.map (·.1.stop)).foldl max 0 := by
    rw [Score.stop, ← hnotes, List.map_map]
    rfl
  rw [hstop]
  refine abs_foldl_max_sub_le hpos (fun p hp => ?_) ?_
  · exact abs_stop_sub_le hpos hfinite (hspans p hp) ((stop_le_reach hp).trans hle)
  · have hzero : m.exactSample bpm 0 = 0 := by simp [exactSample]
    rw [hzero, Nat.cast_zero, sub_zero, abs_zero]
    norm_num

end

/--
The timeline does not drift. Up to `2^32` samples every position is within half a sample and a
thousandth of the exact one, at every tempo. So two notes that touch in the score part or overlap by
at most one sample, however late they are, and the length of a score is within a sample and two
thousandths of the exact position of its end.
-/
theorem sampleOf?_no_drift (m : Mixer) {bpm : Float} (hfinite : bpm.isFinite = true)
    (hpos : 0.0 < bpm) :
    (∀ (tick : UInt32) n, m.sampleOf? tick.toUInt64 bpm = some n → n ≤ 2 ^ 32 →
      |(n : ℚ) - tick.toNat * 60 * m.sampleRate.toNat / (16 * value bpm)| ≤ 1 / 2 + 1 / 2 ^ 10) ∧
    (∀ (a b : Note) s t, b.start.toNat = a.stop → m.span? a bpm = some s →
      m.span? b bpm = some t → s.stop ≤ 2 ^ 32 → t.stop ≤ 2 ^ 32 →
        t.start ≤ s.stop + 1 ∧ s.stop ≤ t.start + 1) ∧
    ∀ (score : Score) n, score.bpm = bpm → m.length? score = some n → n ≤ 2 ^ 32 →
      |(n : ℚ) - score.stop * 60 * m.sampleRate.toNat / (16 * value bpm)| ≤ 1 + 1 / 2 ^ 9 := by
  have hpos : 0 < value bpm := (lt_iff_value_lt rfl hfinite).mp hpos
  refine ⟨fun tick n => abs_sampleOf?_sub_le hpos hfinite,
    fun a b s t => touching_spans hpos hfinite, ?_⟩
  rintro score n rfl
  exact abs_length?_sub_le hpos hfinite

/-- Two notes that touch after more than four hours part by one sample. -/
theorem sampleOf?_no_drift_late :
    (100.0 : Float).isFinite = true ∧ 0.0 < (100.0 : Float) ∧
    Mixer.sampleOf? ⟨44100, 1.0⟩ (400009 : UInt32).toUInt64 100.0 = some 661514884 ∧
    |((661514884 : ℕ) : ℚ) - 400009 * 60 * 44100 / (16 * value 100.0)| ≤ 1 / 2 + 1 / 2 ^ 10 ∧
    ∃ s t, Mixer.span? ⟨44100, 1.0⟩ ⟨400003, 6, 440.0, 1.0, .sine⟩ 100.0 = some s ∧
      Mixer.span? ⟨44100, 1.0⟩ ⟨400009, 2, 440.0, 1.0, .sine⟩ 100.0 = some t ∧
      s.stop = 661514883 ∧ t.start ≤ s.stop + 1 ∧ s.stop ≤ t.start + 1 := by
  have hfinite : (100.0 : Float).isFinite = true := by decide +kernel
  have hpos : 0.0 < (100.0 : Float) := by decide +kernel
  have hsample : Mixer.sampleOf? ⟨44100, 1.0⟩ (400009 : UInt32).toUInt64 100.0 = some 661514884 := by
    decide +kernel
  have ha : Mixer.span? ⟨44100, 1.0⟩ ⟨400003, 6, 440.0, 1.0, .sine⟩ 100.0 =
      some ⟨661504961, 661514883⟩ := by decide +kernel
  have hb : Mixer.span? ⟨44100, 1.0⟩ ⟨400009, 2, 440.0, 1.0, .sine⟩ 100.0 =
      some ⟨661514884, 661518192⟩ := by decide +kernel
  obtain ⟨hposition, htouching, -⟩ := sampleOf?_no_drift ⟨44100, 1.0⟩ hfinite hpos
  exact ⟨hfinite, hpos, hsample, hposition 400009 _ hsample (by decide), _, _, ha, hb, rfl,
    htouching _ _ _ _ (by decide) ha hb (by decide) (by decide)⟩

end Mixer

end ToneScore
