import ToneScore.Proofs.Binary64.Grids
import ToneScore.Proofs.Binary64.Zeros
import ToneScore.Proofs.Score.Notes
import ToneScore.Proofs.Timeline.Positions

/-!
# Where the timeline starts

Tick 0 is sample 0, and a score without notes takes no time. Both are computed as 0 times the length
of a tick, so they hold as long as that length is finite. It is infinite where the exact length is
rounded past all doubles (`Vanishing`), at subnormal tempos below about `2.1e-308`, which are accepted
like any other positive tempo. There tick 0 has no position, and the length of a score without notes
is NaN (`usable_iff`).
-/

namespace ToneScore

open Binary64

namespace Score

variable {bpm : Float} {score : Score} {text : String}

/-! ## Accepted tempos -/

theorem tempo_of_readTempo {line : String} (h : readTempo line = .ok bpm) :
    bpm.isFinite = true ∧ 0 < value bpm := by
  unfold readTempo at h
  simp only at h
  split at h
  · next x _ =>
    split at h
    · next hx =>
      obtain rfl := Except.ok.inj h
      obtain ⟨hfinite, hpos⟩ := Bool.and_eq_true_iff.mp hx
      exact ⟨hfinite, (lt_iff_value_lt rfl hfinite).mp (of_decide_eq_true hpos)⟩
    · cases h
  · cases h

theorem tempo_of_read (h : read text = .ok score) :
    score.bpm.isFinite = true ∧ 0 < value score.bpm := by
  obtain ⟨first, rest, -, htempo, -⟩ := read_eq_ok_iff.mp h
  exact tempo_of_readTempo htempo

/-! ## The length of a tick -/

/-- A tick lasts longer than can be rounded to a double. -/
def Vanishing (bpm : Float) : Prop := overflowThreshold ≤ 60 / (16 * value bpm)

theorem not_vanishing_of_normal (h : 2 ^ (-1022 : ℤ) ≤ value bpm) : ¬ Vanishing bpm := by
  have hdouble : IsDouble (((15 * 2 ^ 49 : ℤ) : ℚ) * 2 ^ (971 : ℤ)) :=
    isDouble_mul_two_zpow (by decide) (by decide) (by decide)
  have hpos := (two_zpow_pos _).trans_le h
  refine not_le.mpr (lt_of_le_of_lt ?_ hdouble.lt_overflowThreshold)
  rw [div_le_iff₀ (by positivity)]
  calc (60 : ℚ) = ((15 * 2 ^ 49 : ℤ) : ℚ) * 2 ^ (971 : ℤ) * (16 * 2 ^ (-1022 : ℤ)) := by
        rw [mul_mul_mul_comm, ← zpow_add₀ two_ne_zero]
        norm_num
    _ ≤ ((15 * 2 ^ 49 : ℤ) : ℚ) * 2 ^ (971 : ℤ) * (16 * value bpm) := by gcongr

section
variable (hfinite : bpm.isFinite = true) (hpos : 0 < value bpm)
include hfinite hpos

theorem parts_tickSeconds_of_vanishing (h : Vanishing bpm) :
    parts (tickSeconds bpm) = .infinity .positive := by
  cases tickLength hfinite hpos with
  | rounded _ hrounds => exact hrounds.infinity (overflowThreshold_le_iff.mp h)
  | zero hlarge _ =>
    have hone : (1 : ℚ) ≤ 2 ^ (1024 : ℤ) := one_le_zpow₀ one_le_two (by decide)
    have hshort : 60 / (16 * value bpm) ≤ 60 := div_le_self (by norm_num) (hone.trans hlarge)
    have hlong := (isDouble_value (x := 60.0) rfl).lt_overflowThreshold
    rw [value_sixty] at hlong
    exact absurd (h.trans hshort) hlong.not_ge

/-- At other tempos the length of a tick is finite, and no tick at all lasts for the positive zero. -/
theorem tickSeconds_of_not_vanishing (h : ¬ Vanishing bpm) :
    (tickSeconds bpm).isFinite = true ∧ 0.0 * tickSeconds bpm = 0.0 := by
  cases tickLength hfinite hpos with
  | rounded hlow hrounds =>
    have hpositive : 0 < rounded (60 / (16 * value bpm)) :=
      (two_zpow_pos _).trans_le (le_rounded hlow (isDouble_two_zpow (by decide) (by decide)))
    have hlt := rounded_lt_of_lt (not_le.mp h)
    rw [← abs_of_pos hpositive] at hlt
    obtain ⟨hx, hvalue⟩ := hrounds.value_eq hlt
    exact ⟨hx, zero_mul_of_pos hx (hvalue ▸ hpositive)⟩
  | zero _ hparts =>
    have hzero : tickSeconds bpm = 0.0 := parts_injective hparts
    rw [hzero]
    exact ⟨rfl, rfl⟩

end

/-! ## The length of a score -/

theorem exists_stop_eq (h : score.notes ≠ []) : ∃ note ∈ score.notes, score.stop = note.stop := by
  have hne : score.notes.map Note.stop ≠ [] := by simpa using h
  obtain ⟨n, hn⟩ := Option.isSome_iff_exists.mp (List.isSome_max?_of_ne_nil hne)
  obtain ⟨note, hnote, rfl⟩ := List.mem_map.mp (List.max?_eq_some_iff.mp hn).1
  refine ⟨note, hnote, ?_⟩
  rw [stop, List.foldl_max, hn, Nat.zero_max, Option.getD_some]

theorem stop_lt (score : Score) : score.stop < 2 ^ 53 := by
  by_cases hnotes : score.notes = []
  · rw [stop, hnotes]
    decide
  · obtain ⟨note, -, hstop⟩ := exists_stop_eq hnotes
    have hstart := note.start.toNat_lt
    have hduration := note.duration.toNat_lt
    rw [hstop, Note.stop]
    omega

theorem stop_pos (hread : read text = .ok score) (h : score.notes ≠ []) : 0 < score.stop := by
  obtain ⟨note, hnote, hstop⟩ := exists_stop_eq h
  have hduration := (playable_of_read hread hnote).duration
  rw [hstop, Note.stop]
  omega

theorem seconds_of_notes_eq_nil (h : score.notes = []) :
    score.seconds = 0.0 * tickSeconds score.bpm := by
  have hstop : score.stop = 0 := by
    rw [stop, h]
    rfl
  rw [seconds, hstop]
  rfl

end Score

/-! ## Tick 0 -/

namespace Mixer

variable {m : Mixer} {bpm : Float}

theorem sampleOf?_zero (h : (Score.tickSeconds bpm).isFinite = true) :
    m.sampleOf? 0 bpm = some 0 := by
  obtain ⟨hseconds, hzero⟩ := value_mul_of_value_eq_zero (x := (0 : UInt64).toFloat) rfl rfl h
  obtain ⟨hproduct, hzero⟩ := value_mul_of_value_eq_zero hseconds hzero (value_toFloat m.sampleRate).1
  obtain ⟨hposition, hvalue⟩ := value_round hproduct
  rw [hzero, ← Int.cast_zero, nearest_intCast] at hvalue
  exact sampleOf?_eq_some_iff.mpr ⟨⟨hposition, hvalue⟩, by decide⟩

theorem sampleOf?_zero_of_infinity (h : parts (Score.tickSeconds bpm) = .infinity .positive) :
    m.sampleOf? 0 bpm = none := by
  have hproduct : (0.0 * Score.tickSeconds bpm * m.sampleRate.toFloat).isNaN = true :=
    isNaN_mul (isNaN_zero_mul h)
  refine Option.eq_none_iff_forall_ne_some.mpr fun n hn => ?_
  obtain ⟨⟨hfinite, -⟩, -⟩ := sampleOf?_eq_some_iff.mp hn
  have hnumber := isNaN_of_isFinite (isFinite_of_round hfinite)
  exact absurd (hproduct.symm.trans hnumber) Bool.noConfusion

end Mixer

namespace Score

variable {score : Score} {text : String}

/-! ## Usable time scales -/

/-- Time starts at sample 0, and no score lasts for less than nothing. -/
structure Usable (score : Score) : Prop where
  start (m : Mixer) : m.sampleOf? 0 score.bpm = some 0
  number : score.seconds.isNaN = false
  nonneg : 0.0 ≤ score.seconds
  empty : score.notes = [] → score.seconds = 0.0

theorem usable_of_not_vanishing (hread : read text = .ok score) (h : ¬ Vanishing score.bpm) :
    Usable score := by
  obtain ⟨hfinite, hpos⟩ := tempo_of_read hread
  obtain ⟨htick, hzero⟩ := tickSeconds_of_not_vanishing hfinite hpos h
  obtain ⟨hcount, hvalue⟩ := value_ofCount (stop_lt score)
  have hnonneg : 0.0 ≤ score.seconds := by
    refine (rounds_mul hcount htick).nonneg ?_
    rw [hvalue]
    exact mul_nonneg score.stop.cast_nonneg (value_tickSeconds_nonneg hpos hfinite htick)
  exact {
    start := fun m => m.sampleOf?_zero htick
    number := (isNaN_of_le hnonneg).2
    nonneg := hnonneg
    empty := fun hnotes => (seconds_of_notes_eq_nil hnotes).trans hzero }

theorem seconds_of_infinity (hread : read text = .ok score)
    (h : parts (tickSeconds score.bpm) = .infinity .positive) (hnotes : score.notes ≠ []) :
    score.seconds = 1.0 / 0.0 := by
  have hstop := stop_pos hread hnotes
  obtain ⟨hcount, hvalue⟩ := value_ofCount (stop_lt score)
  have hpos : 0 < value (ofCount score.stop) := by
    rw [hvalue]
    exact_mod_cast hstop
  exact parts_injective (parts_mul_infinity hcount hpos h)

/--
The time scale of an accepted score is usable exactly if its tempo is not vanishing, so at all tempos
that are normal doubles. At a vanishing tempo tick 0 has no position at any sample rate, and the score
has no length if it has no notes and an infinite one if it has any.
-/
theorem usable_iff {text : String} {score : Score} (h : read text = .ok score) :
    (Usable score ↔ ¬ Vanishing score.bpm) ∧
    (2 ^ (-1022 : ℤ) ≤ value score.bpm → Usable score) ∧
    (Vanishing score.bpm →
      (∀ m : Mixer, m.sampleOf? 0 score.bpm = none) ∧
      (score.notes = [] → score.seconds.isNaN = true) ∧
      (score.notes ≠ [] → score.seconds = 1.0 / 0.0)) := by
  obtain ⟨hfinite, hpos⟩ := tempo_of_read h
  have hunusable : Vanishing score.bpm → ∀ m : Mixer, m.sampleOf? 0 score.bpm = none :=
    fun hv m => m.sampleOf?_zero_of_infinity (parts_tickSeconds_of_vanishing hfinite hpos hv)
  refine ⟨⟨fun husable hv => ?_, usable_of_not_vanishing h⟩,
    fun hnormal => usable_of_not_vanishing h (not_vanishing_of_normal hnormal),
    fun hv => ⟨hunusable hv, ?_, ?_⟩⟩
  · cases (husable.start ⟨44100, 1.0⟩).symm.trans (hunusable hv _)
  · intro hnotes
    rw [seconds_of_notes_eq_nil hnotes]
    exact isNaN_zero_mul (parts_tickSeconds_of_vanishing hfinite hpos hv)
  · exact seconds_of_infinity h (parts_tickSeconds_of_vanishing hfinite hpos hv)

/-- A moderate tempo, and a vanishing one with a note. -/
theorem usable_iff_moderate :
    (∃ score, read "120\n0 Q A4 1.0 S" = .ok score ∧ Usable score) ∧
    ∃ score, read "1e-308\n0 Q A4 1.0 S" = .ok score ∧ Vanishing score.bpm ∧
      score.seconds = 1.0 / 0.0 := by
  constructor
  · have htempo : (read "120\n0 Q A4 1.0 S").toOption.any (fun score => decide (score.bpm = 120.0)) =
        true := by decide +kernel
    obtain ⟨score, hread, hbpm⟩ := exists_ok_of_any htempo
    have hparts : parts 120.0 = .finite .positive (15 * 2 ^ 49) (-46) (by decide) := rfl
    have hnormal : 2 ^ (-1022 : ℤ) ≤ value score.bpm := by
      rw [of_decide_eq_true hbpm, value, hparts, number_positive]
      exact (zpow_le_one_of_nonpos₀ one_le_two (by decide)).trans (by norm_num)
    exact ⟨score, hread, (usable_iff hread).2.1 hnormal⟩
  · have hnone : (read "1e-308\n0 Q A4 1.0 S").toOption.any (fun score => !score.notes.isEmpty &&
        (Mixer.sampleOf? ⟨44100, 1.0⟩ 0 score.bpm).isNone) = true := by decide +kernel
    obtain ⟨score, hread, hboth⟩ := exists_ok_of_any hnone
    obtain ⟨hnotes, hsample⟩ := Bool.and_eq_true_iff.mp hboth
    obtain ⟨husable, -, hvanishing⟩ := usable_iff hread
    have hv : Vanishing score.bpm := by
      by_contra hnot
      rw [(husable.mpr hnot).start] at hsample
      cases hsample
    exact ⟨score, hread, hv, (hvanishing hv).2.2 (by simpa using hnotes)⟩

/-- A tempo alone is an accepted score, and this one has neither a first sample nor a length. -/
theorem not_usable_of_tempo :
    ∃ score, read "1e-308" = .ok score ∧ score.notes = [] ∧ ¬ Usable score ∧
      Mixer.sampleOf? ⟨44100, 0.0625⟩ 0 score.bpm = none ∧ score.seconds.isNaN = true := by
  have hfails : (read "1e-308").toOption.any (fun score => score.notes.isEmpty &&
      (Mixer.sampleOf? ⟨44100, 0.0625⟩ 0 score.bpm).isNone && score.seconds.isNaN) = true := by
    decide +kernel
  obtain ⟨score, hread, hall⟩ := exists_ok_of_any hfails
  simp only [Bool.and_eq_true, List.isEmpty_iff, Option.isNone_iff_eq_none] at hall
  obtain ⟨⟨hnotes, hsample⟩, hnan⟩ := hall
  refine ⟨score, hread, hnotes, fun husable => ?_, hsample, hnan⟩
  exact absurd (hnan.symm.trans husable.number) Bool.noConfusion

end Score

end ToneScore
