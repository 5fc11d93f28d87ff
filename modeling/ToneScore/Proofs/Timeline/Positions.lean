import ToneScore.Mixer
import ToneScore.Proofs.Binary64.Nearest
import ToneScore.Proofs.Binary64.Operations

/-!
# Positions on the timeline

The position of a tick is computed in doubles: the tick and the length of a tick are multiplied, then
the sample rate, and the product is rounded to a whole number. None of these steps turns the order
of ticks around, so a later tick has no earlier position (`sampleOf?_mono`), and all ticks before an
addressable one are addressable. A position that is addressable is the computed whole number itself
(`sampleOf?_eq_some_iff`), and a note has a span where start, length and end are addressable
(`span?_eq_some_iff`).
-/

namespace ToneScore

open Binary64
open Float.Model (UnpackedFloat)
open Float.Model.UnpackedFloat

/-! ## The length of a tick -/

namespace Score

variable {bpm : Float}

theorem value_sixteen : value 16.0 = 2 ^ 4 := by
  have h : parts 16.0 = .finite .positive (2 ^ 52) (-48) (by decide) := rfl
  rw [value, h, number_positive]
  norm_num

theorem value_sixty : value 60.0 = 60 := by
  have h : parts 60.0 = .finite .positive 8444249301319680 (-47) (by decide) := rfl
  rw [value, h, number_positive]
  norm_num

/-- The length of a tick is rounded once, or it is 0 because the tempo is out of range when counted
in ticks. -/
inductive TickLength (bpm : Float) : Prop where
  | rounded (hlow : 2 ^ (-1019 : ℤ) ≤ 60 / (16 * value bpm))
      (h : Rounds (tickSeconds bpm) (60 / (16 * value bpm)))
  | zero (hlarge : 2 ^ (1024 : ℤ) ≤ 16 * value bpm) (h : parts (tickSeconds bpm) = .zero .positive)

theorem tickLength (hfinite : bpm.isFinite = true) (hpos : 0 < value bpm) : TickLength bpm := by
  rcases value_mul_two_pow hfinite (y := 16.0) rfl value_sixteen (by decide) with ⟨hticks, hvalue⟩ | hover
  · have hcomm : value bpm * 2 ^ 4 = 16 * value bpm := by ring
    rw [hcomm] at hvalue
    have hlt := (abs_lt.mp (abs_value_lt hticks)).2
    rw [hvalue] at hlt
    have hlow : 2 ^ (-1019 : ℤ) ≤ 60 / (16 * value bpm) := by
      rw [le_div_iff₀ (by positivity)]
      calc (2 : ℚ) ^ (-1019 : ℤ) * (16 * value bpm) ≤ 2 ^ (-1019 : ℤ) * 2 ^ (1024 : ℤ) := by gcongr
        _ = 32 := by rw [← zpow_add₀ two_ne_zero]; norm_num
        _ ≤ 60 := by norm_num
    have hnormal : (2 : ℚ) ^ (-1022 : ℤ) ≤ |60 / (16 * value bpm)| := by
      refine le_trans (zpow_le_zpow_right₀ one_le_two (by decide)) (hlow.trans (le_abs_self _))
    refine .rounded hlow ?_
    rw [← hvalue, ← value_sixty] at hnormal ⊢
    exact rounds_div rfl hticks hnormal
  · cases hover with
    | positive hinfinite hlarge =>
      refine .zero (by linarith) (parts_div ?_ trivial)
      rw [hinfinite]
      rfl
    | negative _ hlarge =>
      have hticks : 0 < value bpm * 2 ^ 4 := by positivity
      exact absurd (hticks.trans_le hlarge) (neg_lt_zero.mpr (two_zpow_pos 1024)).not_gt

theorem value_tickSeconds_nonneg (hpos : 0 < value bpm) (hfinite : bpm.isFinite = true)
    (h : (tickSeconds bpm).isFinite = true) : 0 ≤ value (tickSeconds bpm) := by
  cases tickLength hfinite hpos with
  | rounded _ hrounds =>
    rw [hrounds.value_of_isFinite h]
    exact rounded_nonneg (by positivity)
  | zero _ hzero =>
    rw [value, hzero]
    rfl

end Score

namespace Mixer

variable {m : Mixer} {bpm : Float} {tick early late : UInt64} {n : ℕ}

/-- The sample position of a tick, computed in doubles. -/
def position (m : Mixer) (tick : UInt64) (bpm : Float) : Float :=
  round (tick.toFloat * Score.tickSeconds bpm * m.sampleRate.toFloat)

structure IsCount (x : Float) (n : ℕ) : Prop where
  isFinite : x.isFinite = true
  value_eq : value x = n

/-! ## Ticks -/

theorem value_position (h : (m.position tick bpm).isFinite = true) :
    (tick.toFloat * Score.tickSeconds bpm * m.sampleRate.toFloat).isFinite = true ∧
      value (m.position tick bpm) =
        nearest (value (tick.toFloat * Score.tickSeconds bpm * m.sampleRate.toFloat)) := by
  have hproduct := isFinite_of_round h
  exact ⟨hproduct, (value_round hproduct).2⟩

theorem exists_isCount (h : (m.position tick bpm).isFinite = true)
    (hnonneg : 0 ≤ value (m.position tick bpm)) : ∃ k, IsCount (m.position tick bpm) k := by
  obtain ⟨-, hvalue⟩ := value_position h
  rw [hvalue] at hnonneg
  obtain ⟨k, hk⟩ := Int.eq_ofNat_of_zero_le (Int.cast_nonneg_iff.mp hnonneg)
  exact ⟨k, h, by rw [hvalue, hk, Int.cast_natCast]⟩

theorem value_size : value 18446744073709551616.0 = UInt64.size := by
  have h : parts 18446744073709551616.0 = .finite .positive (2 ^ 52) 12 (by decide) := rfl
  rw [value, h, number_positive, UInt64.size]
  norm_num

/-- An addressable position is the computed one, neither cut off nor held. -/
theorem sampleOf?_eq_some_iff :
    m.sampleOf? tick bpm = some n ↔ IsCount (m.position tick bpm) n ∧ n < UInt64.size := by
  have hsize : 0 < UInt64.size := by decide
  show (if _ then some (toNat (m.position tick bpm)) else none) = some n ↔ _
  simp only [Option.ite_none_right_eq_some, Bool.and_eq_true, decide_eq_true_eq, Option.some_inj]
  change (((m.position tick bpm).isFinite = true ∧ 0.0 ≤ m.position tick bpm) ∧
    m.position tick bpm < 18446744073709551616.0) ∧ toNat (m.position tick bpm) = n ↔ _
  constructor
  · rintro ⟨⟨⟨hfinite, hnonneg⟩, hlt⟩, rfl⟩
    rw [le_iff_value_le rfl hfinite] at hnonneg
    rw [lt_iff_value_lt hfinite rfl, value_size] at hlt
    obtain ⟨k, -, hvalue⟩ := exists_isCount hfinite hnonneg
    rw [hvalue] at hlt
    have hlt : k < UInt64.size := by exact_mod_cast hlt
    have hcount : toNat (m.position tick bpm) = k := by
      rw [toNat_eq_floor hfinite, hvalue, Nat.floor_natCast]
      omega
    rw [hcount]
    exact ⟨⟨hfinite, hvalue⟩, hlt⟩
  · rintro ⟨⟨hfinite, hvalue⟩, hlt⟩
    rw [le_iff_value_le rfl hfinite, lt_iff_value_lt hfinite rfl, value_size, hvalue,
      toNat_eq_floor hfinite, hvalue, Nat.floor_natCast]
    exact ⟨⟨⟨hfinite, n.cast_nonneg⟩, by exact_mod_cast hlt⟩, by omega⟩

section
variable (hfinite : bpm.isFinite = true) (hpos : 0 < value bpm)
include hfinite hpos

theorem value_position_mono (h : early ≤ late) (hlate : (m.position late bpm).isFinite = true) :
    (m.position early bpm).isFinite = true ∧ 0 ≤ value (m.position early bpm) ∧
      value (m.position early bpm) ≤ value (m.position late bpm) := by
  obtain ⟨hproduct, hvalue⟩ := value_position hlate
  obtain ⟨hseconds, -⟩ := isFinite_of_mul hproduct
  obtain ⟨-, htick⟩ := isFinite_of_mul hseconds
  obtain ⟨hnonneg, hle⟩ := value_toFloat_mono h
  obtain ⟨hseconds', hnonneg, hle⟩ := mul_mono (value_toFloat_word early).1 hnonneg hle
    (Score.value_tickSeconds_nonneg hpos hfinite htick) hseconds
  obtain ⟨hproduct', hnonneg, hle⟩ := mul_mono hseconds' hnonneg hle
    ((value_toFloat m.sampleRate).2 ▸ m.sampleRate.toNat.cast_nonneg) hproduct
  obtain ⟨hround, hvalue'⟩ := value_round hproduct'
  refine ⟨hround, ?_⟩
  show 0 ≤ value (round _) ∧ value (round _) ≤ _
  rw [hvalue, hvalue']
  exact ⟨by exact_mod_cast le_nearest (n := 0) (by exact_mod_cast hnonneg),
    by exact_mod_cast nearest_mono hle⟩

theorem sampleOf?_mono (h : early ≤ late) (hlate : m.sampleOf? late bpm = some n) :
    ∃ k, m.sampleOf? early bpm = some k ∧ k ≤ n := by
  obtain ⟨⟨hlate, hvalue⟩, hlt⟩ := sampleOf?_eq_some_iff.mp hlate
  obtain ⟨hearly, hnonneg, hle⟩ := value_position_mono hfinite hpos h hlate
  obtain ⟨k, hcount⟩ := exists_isCount hearly hnonneg
  rw [hcount.value_eq, hvalue] at hle
  have hle : k ≤ n := by exact_mod_cast hle
  exact ⟨k, sampleOf?_eq_some_iff.mpr ⟨hcount, by omega⟩, hle⟩

end

/-! ## Notes -/

variable {note a b : Note} {span s t : Span}

theorem span?_eq_bind : m.span? note bpm = some span ↔ ∃ start length,
    m.sampleOf? note.start.toUInt64 bpm = some start ∧
      m.sampleOf? note.duration.toUInt64 bpm = some length ∧ start + length < UInt64.size ∧
      ⟨start, start + length⟩ = span := by
  simp only [span?, Option.bind_eq_bind, Option.bind_eq_some_iff, Option.ite_none_right_eq_some,
    Option.some_inj, exists_and_left]

theorem span?_eq_some_iff : m.span? note bpm = some span ↔ ∃ start length,
    IsCount (m.position note.start.toUInt64 bpm) start ∧
      IsCount (m.position note.duration.toUInt64 bpm) length ∧ start + length < UInt64.size ∧
      ⟨start, start + length⟩ = span := by
  simp only [span?_eq_bind, sampleOf?_eq_some_iff]
  constructor
  · rintro ⟨start, length, ⟨hstart, -⟩, ⟨hlength, -⟩, hsum, h⟩
    exact ⟨start, length, hstart, hlength, hsum, h⟩
  · rintro ⟨start, length, hstart, hlength, hsum, h⟩
    exact ⟨start, length, ⟨hstart, by omega⟩, ⟨hlength, by omega⟩, hsum, h⟩

theorem toUInt64_le {m n : UInt32} (h : m ≤ n) : m.toUInt64 ≤ n.toUInt64 := by
  rw [UInt64.le_iff_toNat_le, UInt32.toNat_toUInt64, UInt32.toNat_toUInt64]
  exact UInt32.le_iff_toNat_le.mp h

section
variable (hfinite : bpm.isFinite = true) (hpos : 0 < value bpm)
include hfinite hpos

theorem start_le_of_span? (ha : m.span? a bpm = some s) (hb : m.span? b bpm = some t)
    (h : a.start ≤ b.start) : s.start ≤ t.start := by
  obtain ⟨start, length, hstart, -, -, rfl⟩ := span?_eq_bind.mp ha
  obtain ⟨start', length', hstart', -, -, rfl⟩ := span?_eq_bind.mp hb
  obtain ⟨k, hk, hle⟩ := sampleOf?_mono hfinite hpos (toUInt64_le h) hstart'
  obtain rfl := Option.some.inj (hstart.symm.trans hk)
  exact hle

theorem length_le_of_span? (ha : m.span? a bpm = some s) (hb : m.span? b bpm = some t)
    (h : a.duration ≤ b.duration) : s.length ≤ t.length := by
  obtain ⟨start, length, -, hlength, -, rfl⟩ := span?_eq_bind.mp ha
  obtain ⟨start', length', -, hlength', -, rfl⟩ := span?_eq_bind.mp hb
  obtain ⟨k, hk, hle⟩ := sampleOf?_mono hfinite hpos (toUInt64_le h) hlength'
  obtain rfl := Option.some.inj (hlength.symm.trans hk)
  show start + length - start ≤ start' + length' - start'
  omega

theorem exists_span? (hb : m.span? b bpm = some t) (hstart : a.start ≤ b.start)
    (hduration : a.duration ≤ b.duration) : ∃ s, m.span? a bpm = some s := by
  obtain ⟨start, length, hs, hl, hsum, rfl⟩ := span?_eq_bind.mp hb
  obtain ⟨k, hk, hle⟩ := sampleOf?_mono hfinite hpos (toUInt64_le hstart) hs
  obtain ⟨l, hl, hle'⟩ := sampleOf?_mono hfinite hpos (toUInt64_le hduration) hl
  exact ⟨_, span?_eq_bind.mpr ⟨k, l, hk, hl, by omega, rfl⟩⟩

end

/--
At a tempo that is finite and positive, ticks before an addressable tick are addressable, with
positions in their order. An addressable position is the computed double, exactly. A later note
starts no earlier and a longer one is no shorter in samples. A note has a span exactly if both
computed positions are addressable and so is their exact sum.
-/
theorem sampleOf?_ordered (m : Mixer) {bpm : Float} (hfinite : bpm.isFinite = true)
    (hpos : 0.0 < bpm) :
    (∀ early late n, early ≤ late → m.sampleOf? late bpm = some n →
      ∃ k, m.sampleOf? early bpm = some k ∧ k ≤ n) ∧
    (∀ tick n, m.sampleOf? tick bpm = some n ↔
      IsCount (m.position tick bpm) n ∧ n < UInt64.size) ∧
    (∀ a b s t, m.span? a bpm = some s → m.span? b bpm = some t →
      (a.start ≤ b.start → s.start ≤ t.start) ∧ (a.duration ≤ b.duration → s.length ≤ t.length)) ∧
    (∀ a b t, m.span? b bpm = some t → a.start ≤ b.start → a.duration ≤ b.duration →
      ∃ s, m.span? a bpm = some s) ∧
    ∀ note span, m.span? note bpm = some span ↔ ∃ start length,
      IsCount (m.position note.start.toUInt64 bpm) start ∧
        IsCount (m.position note.duration.toUInt64 bpm) length ∧ start + length < UInt64.size ∧
        ⟨start, start + length⟩ = span := by
  have hpos : 0 < value bpm := (lt_iff_value_lt rfl hfinite).mp hpos
  refine ⟨fun early late n h => sampleOf?_mono hfinite hpos h, fun tick n => sampleOf?_eq_some_iff,
    fun a b s t ha hb => ?_, fun a b t => exists_span? hfinite hpos, fun note span => span?_eq_some_iff⟩
  exact ⟨start_le_of_span? hfinite hpos ha hb, length_le_of_span? hfinite hpos ha hb⟩

/-- A tick of one second at one sample a second: the last addressable tick, and the one at `2^63`. -/
theorem sampleOf?_ordered_last :
    (3.75 : Float).isFinite = true ∧ 0.0 < (3.75 : Float) ∧
    Mixer.sampleOf? ⟨1, 1.0⟩ 18446744073709550591 3.75 = some 18446744073709549568 ∧
    IsCount (Mixer.position ⟨1, 1.0⟩ 18446744073709550591 3.75) 18446744073709549568 ∧
    ∃ k, Mixer.sampleOf? ⟨1, 1.0⟩ 9223372036854775808 3.75 = some k ∧ k ≤ 18446744073709549568 := by
  have hfinite : (3.75 : Float).isFinite = true := by decide +kernel
  have hpos : 0.0 < (3.75 : Float) := by decide +kernel
  have hlast : Mixer.sampleOf? ⟨1, 1.0⟩ 18446744073709550591 3.75 = some 18446744073709549568 := by
    decide +kernel
  obtain ⟨hmono, hexact, -⟩ := sampleOf?_ordered ⟨1, 1.0⟩ hfinite hpos
  exact ⟨hfinite, hpos, hlast, ((hexact _ _).mp hlast).1, hmono _ _ _ (by decide) hlast⟩

/-- One tick more is rounded to `2^64`, which is not addressable. -/
example : Mixer.sampleOf? ⟨1, 1.0⟩ 18446744073709550592 3.75 = none := by decide +kernel

end Mixer

end ToneScore
