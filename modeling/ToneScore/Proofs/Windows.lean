import ToneScore.Plot
import ToneScore.Proofs.Binary64.Order
import ToneScore.Proofs.Binary64.Scaling
import ToneScore.Proofs.Command.Acceptance

/-!
# Windows of a plot

A window that is found lies inside the samples and reaches the last of them where it was asked to
(`inside_of_window?`). Not every window is found. The start is held inside the samples before the
length is added to it, the end only afterwards, so the end that is asked for may lie past all
addresses (`window?_eq_none_iff`). Behind the first sample it does so for every infinite length
(`window?_of_infinite`), and the plotting command breaks off.
-/

namespace ToneScore.Plot

open Binary64 Command Storage

variable {count : Nat} {rate : UInt32} {request : Request} {window : Span} {seconds : Float}

def Request.first (request : Request) (count : Nat) (rate : UInt32) : Nat :=
  min (sampleAt rate request.start) count

structure Inside (count : Nat) (rate : UInt32) (request : Request) (window : Span) : Prop where
  start : window.start = request.first count rate
  ordered : window.start ≤ window.stop
  inside : window.stop ≤ count
  /-- Without a length the window reaches to the end. -/
  rest : request.seconds = none → window.stop = count
  /-- A length that leads past the end leads to the end. -/
  past : ∀ seconds, request.seconds = some seconds →
    count ≤ window.start + sampleAt rate seconds → window.stop = count
  within : ∀ seconds, request.seconds = some seconds →
    window.start + sampleAt rate seconds ≤ count →
      window.stop = window.start + sampleAt rate seconds

theorem inside_of_window? (h : window? count rate request = some window) :
    Inside count rate request window := by
  obtain ⟨start, length⟩ := request
  have hfirst : min (sampleAt rate start) count ≤ count := Nat.min_le_right _ _
  cases length with
  | none =>
    obtain rfl := Option.some.inj h
    exact ⟨rfl, hfirst, le_rfl, fun _ => rfl, nofun, nofun⟩
  | some seconds =>
    simp only [window?, Option.ite_none_right_eq_some] at h
    obtain ⟨-, h⟩ := h
    obtain rfl := Option.some.inj h
    refine ⟨rfl, le_min (Nat.le_add_right _ _) hfirst, Nat.min_le_right _ _, nofun, ?_, ?_⟩
    · rintro _ ⟨⟩ hpast
      exact Nat.min_eq_right hpast
    · rintro _ ⟨⟩ hwithin
      exact Nat.min_eq_left hwithin

theorem sampleAt_lt (rate : UInt32) (seconds : Float) : sampleAt rate seconds < UInt64.size :=
  toNat_lt _

theorem first_lt (request : Request) (count : Nat) (rate : UInt32) :
    request.first count rate < UInt64.size :=
  (Nat.min_le_left _ _).trans_lt (sampleAt_lt rate request.start)

/-- No length passes all addresses by itself, so the start has to be behind the first sample. -/
theorem size_le_first_add_iff : UInt64.size ≤ request.first count rate + sampleAt rate seconds ↔
    0 < request.first count rate ∧
      (((UInt64.size - request.first count rate : ℕ) : ℚ) : WithTop ℚ) ≤
        level (larger seconds 0.0 * rate.toFloat) := by
  have hfirst := first_lt request count rate
  have hseconds := sampleAt_lt rate seconds
  rcases Nat.eq_zero_or_pos (request.first count rate) with hzero | hpos
  · rw [hzero]
    exact iff_of_false (by omega) fun h => absurd h.1 (lt_irrefl 0)
  · rw [← le_toNat_iff (by omega) (by omega), and_iff_right hpos]
    exact Nat.sub_le_iff_le_add'.symm

theorem window?_eq_none_iff : window? count rate request = none ↔
    ∃ seconds, request.seconds = some seconds ∧ 0 < request.first count rate ∧
      (((UInt64.size - request.first count rate : ℕ) : ℚ) : WithTop ℚ) ≤
        level (larger seconds 0.0 * rate.toFloat) := by
  simp only [← size_le_first_add_iff]
  obtain ⟨start, length⟩ := request
  cases length with
  | none => exact iff_of_false nofun nofun
  | some seconds =>
    simp only [window?, ite_eq_right_iff, reduceCtorEq, imp_false, Nat.not_lt]
    exact ⟨fun h => ⟨seconds, rfl, h⟩, fun ⟨_, h, hle⟩ => Option.some.inj h ▸ hle⟩

theorem larger_zero_of_infinity (h : parts seconds = .infinity .positive) :
    larger seconds 0.0 = seconds := by
  have hnumber : seconds.isNaN = false := by
    show (parts seconds).isNaN = false
    rw [h]
    rfl
  have hpos : 0.0 < seconds := lt_of_parts_positive rfl h
  rw [larger, hnumber, if_neg Bool.false_ne_true, if_neg (not_lt_of_lt hpos)]

theorem window?_of_infinite (hrate : 0 < rate) (hfirst : 0 < request.first count rate)
    (hseconds : request.seconds = some seconds) (h : parts seconds = .infinity .positive) :
    window? count rate request = none := by
  obtain ⟨hfinite, hvalue⟩ := value_toFloat rate
  have hproduct : parts (seconds * rate.toFloat) = .infinity .positive :=
    parts_infinity_mul h hfinite (by rw [hvalue]; exact_mod_cast hrate)
  refine window?_eq_none_iff.mpr ⟨seconds, hseconds, hfirst, ?_⟩
  rw [larger_zero_of_infinity h, level, hproduct]
  exact le_top

/--
A window that is found is the part of the samples that was asked for. There is none exactly if it
should start behind the first sample and end past all addresses, as it does with an infinite length,
and then the plotting command breaks off.
-/
theorem window_inside_unless_unaddressable (count : Nat) (rate : UInt32) (request : Request) :
    (∀ window, window? count rate request = some window → Inside count rate request window) ∧
    (window? count rate request = none ↔ ∃ seconds, request.seconds = some seconds ∧
      0 < request.first count rate ∧
        (((UInt64.size - request.first count rate : ℕ) : ℚ) : WithTop ℚ) ≤
          level (larger seconds 0.0 * rate.toFloat)) ∧
    (∀ seconds, 0 < rate → 0 < request.first count rate → request.seconds = some seconds →
      parts seconds = .infinity .positive → window? count rate request = none) ∧
    ∀ (draw : Option Figure → String) (folder : Folder) (options : PlotOptions) (text : String)
      (score : Score) (samples : Array Float),
      folder.read options.input = .ok text.toUTF8 →
        mixForPlot .standard text = .ok (score, samples) →
        (((runPlot draw options : StateM Folder Exit) folder).1.code = 101 ↔
          window? samples.size Config.standard.sampleRate options.request = none) :=
  ⟨fun _ => inside_of_window?, window?_eq_none_iff,
    fun _ hrate hfirst hseconds h => window?_of_infinite hrate hfirst hseconds h,
    fun _ _ _ _ _ _ hread h => runPlot_code_iff hread h⟩

/-- A sound of ten seconds has no window from its first second on without end. -/
theorem window_not_total : ¬ ∀ (count : Nat) (rate : UInt32) (request : Request), 0 < rate →
    ∃ window, window? count rate request = some window ∧ window.start ≤ window.stop ∧
      window.stop ≤ count := by
  intro h
  obtain ⟨window, hwindow, -⟩ := h 1000 100 ⟨1.0, some (1.0 / 0.0)⟩ (by decide)
  have hnone : window? 1000 100 ⟨1.0, some (1.0 / 0.0)⟩ = none := by decide +kernel
  exact nomatch hnone ▸ hwindow

end ToneScore.Plot
