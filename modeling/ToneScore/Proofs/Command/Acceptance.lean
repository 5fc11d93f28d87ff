import ToneScore.Command.Plot
import ToneScore.Proofs.Render.Outcome
import ToneScore.Proofs.Wave.RoundTrip

/-!
# Which scores are plotted

The plotting command judges a score on its own (`PlotOutcome`) and asks for less than a render: not
whether the format exists, nor whether the samples fit a file. Where the settings see to both, the
two accept the same scores and mix the same samples (`render_of_mixForPlot`, `mixForPlot_of_render`).
The standard settings do: half an hour of samples is far from the largest file (`standard_fits`), so
it does not matter what becomes of a product that is too large.
-/

namespace ToneScore.Command

open Storage

inductive PlotOutcome (c : Config) (text : String) : Except PlotError (Score × Array Float) → Prop where
  | score {fault : Score.LineFault} (h : Score.read text = .error fault) :
      PlotOutcome c text (.error (.score fault))
  | unaddressable {score : Score} (hr : Score.read text = .ok score)
      (h : c.mixer.length? score = none) :
      PlotOutcome c text (.error .unaddressable)
  | tooLong {score : Score} {frames : Nat} (hr : Score.read text = .ok score)
      (hs : c.mixer.length? score = some frames) (h : c.maxFrames < frames) :
      PlotOutcome c text (.error (.tooLong frames c.maxFrames))
  | capacity {score : Score} {frames : Nat} (hr : Score.read text = .ok score)
      (hs : c.mixer.length? score = some frames) (hl : frames ≤ c.maxFrames)
      (h : Mixer.capacity < frames) :
      PlotOutcome c text (.error .capacity)
  | mixed {score : Score} {samples : Array Float} (hr : Score.read text = .ok score)
      (hs : c.mixer.length? score = some samples.size) (hl : samples.size ≤ c.maxFrames)
      (hm : c.mixer.mix score = .ok samples) :
      PlotOutcome c text (.ok (score, samples))

variable {o : Overflow} {c : Config} {text : String} {score : Score} {samples : Array Float}

theorem plotOutcome_mixForPlot (c : Config) (text : String) :
    PlotOutcome c text (mixForPlot c text) := by
  unfold mixForPlot
  cases hr : Score.read text with
  | error fault => exact .score hr
  | ok score =>
    cases hs : c.mixer.length? score with
    | none => simp only [hs]; exact .unaddressable hr hs
    | some frames =>
      by_cases hl : c.maxFrames < frames
      · simp only [hs, if_pos hl]
        exact .tooLong hr hs hl
      rcases Nat.lt_or_ge Mixer.capacity frames with hc | hc
      · simp only [hs, if_neg hl, Mixer.mix_eq_capacity_iff.mpr ⟨frames, hs, hc⟩]
        exact .capacity hr hs (Nat.not_lt.mp hl) hc
      · obtain ⟨samples, hm, rfl⟩ := Mixer.exists_mix hs hc
        simp only [hs, if_neg hl, hm]
        exact .mixed hr hs (Nat.not_lt.mp hl) hm

theorem mixForPlot_ne_unmixable (c : Config) (text : String) :
    mixForPlot c text ≠ .error .unmixable := by
  intro h
  have houtcome := plotOutcome_mixForPlot c text
  rw [h] at houtcome
  cases houtcome

theorem mixForPlot_ne_capacity (hc : c.maxFrames ≤ Mixer.capacity) (text : String) :
    mixForPlot c text ≠ .error .capacity := by
  intro h
  have houtcome := plotOutcome_mixForPlot c text
  rw [h] at houtcome
  cases houtcome with
  | capacity hr hs hl h => exact absurd (hl.trans hc) (Nat.not_le.mpr h)

theorem mixForPlot_eq_score_iff {fault : Score.LineFault} :
    mixForPlot c text = .error (.score fault) ↔ Score.read text = .error fault := by
  constructor
  · intro h
    have houtcome := plotOutcome_mixForPlot c text
    rw [h] at houtcome
    cases houtcome with
    | score h => exact h
  · intro h
    rw [mixForPlot, h]

/-! ## Plots and renders -/

theorem render_eq_score_iff (hc : c.format.check o = .ok ()) {fault : Score.LineFault} :
    (render o c text).result = .error (.score fault) ↔ Score.read text = .error fault := by
  constructor
  · intro h
    have houtcome := outcome_render o c text
    rw [h] at houtcome
    cases houtcome with
    | score _ h => exact h
  · exact fun h => render_of_outcome (.score hc h)

/-- What is plotted can be rendered, if the format exists and has room for the longest render. -/
theorem render_of_mixForPlot (hc : c.format.check o = .ok ())
    (hframe : c.format.frameBytes < UInt16.size)
    (hfits : c.maxFrames * c.format.frameBytes ≤ 4294967295 - 37)
    (h : mixForPlot c text = .ok (score, samples)) :
    ∃ file, (render o c text).result = .ok file ∧ Wave.encode o c.format samples = .ok file ∧
      c.format.NoWrap samples.size := by
  have houtcome := plotOutcome_mixForPlot c text
  rw [h] at houtcome
  cases houtcome with
  | mixed hr hs hl hm =>
    have hmeasured : Measured o c text score samples.size := ⟨⟨hc, hr⟩, hs⟩
    have hb := (Nat.mul_le_mul_right c.format.frameBytes hl).trans hfits
    have hn : c.format.NoWrap samples.size := ⟨hframe, Nat.lt_of_le_of_lt hb (by decide)⟩
    obtain ⟨samples', file, hm', -, hfile, -⟩ := exists_file hmeasured hn hb
    obtain rfl := Except.ok.inj (hm.symm.trans hm')
    exact ⟨file, render_of_outcome (.rendered (hmeasured.storable hn hb) hl hm hfile), hfile, hn⟩

theorem mixForPlot_of_render {file : ByteArray} (h : (render o c text).result = .ok file) :
    ∃ score samples, mixForPlot c text = .ok (score, samples) ∧
      Wave.encode o c.format samples = .ok file := by
  have houtcome := outcome_render o c text
  rw [h] at houtcome
  cases houtcome with
  | @rendered score frames samples _ hs hl hm he =>
    have hlimit : ¬ c.maxFrames < frames := Nat.not_lt.mpr hl
    refine ⟨score, samples, ?_, he⟩
    rw [mixForPlot, hs.read]
    simp only [hs.length, if_neg hlimit, hm]

/-- Half an hour of frames of two bytes each. -/
theorem standard_fits : Config.standard.maxFrames * Config.standard.format.frameBytes ≤
    4294967295 - 37 := by decide

theorem standard_check (o : Overflow) : Config.standard.format.check o = .ok () := by
  cases o <;> rfl

theorem standard_frameBytes : Config.standard.format.frameBytes < UInt16.size := by decide

theorem standard_capacity : Config.standard.maxFrames ≤ Mixer.capacity := by decide

/-! ## The command -/

theorem fromUTF8?_toUTF8 (text : String) : String.fromUTF8? text.toUTF8 = some text := by
  unfold String.fromUTF8?
  rw [String.toUTF8_eq_toByteArray, dif_pos text.isValidUTF8]
  rfl

section
variable {folder : Folder} {draw : Option Plot.Figure → String} {options : PlotOptions}

theorem readText_eq {path : String} (h : folder.read path = .ok text.toUTF8) :
    (readText path : StateM Folder (Except Fault String)) folder = (.ok text, folder) := by
  have hfile : (Files.read path : StateM Folder (Except Fault ByteArray)) folder =
      (.ok text.toUTF8, folder) := by
    rw [← h]
    rfl
  unfold readText
  simp only [bind, StateT.bind, hfile, fromUTF8?_toUTF8]
  rfl

theorem runPlot_of_error {e : PlotError} (hread : folder.read options.input = .ok text.toUTF8)
    (h : mixForPlot .standard text = .error e) :
    (runPlot draw options : StateM Folder Exit) folder = (Exit.failure "" e.message, folder) := by
  have hcapacity : e ≠ .capacity := by
    rintro rfl
    exact mixForPlot_ne_capacity standard_capacity text h
  unfold runPlot
  cases e with
  | capacity => exact absurd rfl hcapacity
  | _ =>
    simp only [bind, StateT.bind, readText_eq hread, h]
    rfl

def figureOf (options : PlotOptions) (score : Score) (samples : Array Float) : Option Plot.Figure :=
  (Plot.window? samples.size Config.standard.sampleRate options.request).map
    (Plot.figure options.input score.bpm Config.standard.sampleRate samples)

theorem runPlot_of_ok (hread : folder.read options.input = .ok text.toUTF8)
    (h : mixForPlot .standard text = .ok (score, samples)) :
    (∃ rest, ((runPlot draw options : StateM Folder Exit) folder).1.out =
      summary score samples ++ rest) ∧
    ((runPlot draw options : StateM Folder Exit) folder).2 =
      (folder.write options.output (draw (figureOf options score samples)).toUTF8).2 := by
  unfold runPlot figureOf
  simp only [bind, StateT.bind, readText_eq hread, h]
  cases Plot.window? samples.size Config.standard.sampleRate options.request with
  | none => exact ⟨⟨"", (String.append_empty).symm⟩, rfl⟩
  | some window =>
    simp only [StateT.bind, Option.map_some, Files.write]
    generalize folder.write _ _ = written
    obtain ⟨fault | ⟨⟩, folder'⟩ := written
    · exact ⟨⟨"", (String.append_empty).symm⟩, rfl⟩
    · exact ⟨⟨_, rfl⟩, rfl⟩

/-- Once there are samples, the command breaks off for want of a window and for nothing else. -/
theorem runPlot_code_iff (hread : folder.read options.input = .ok text.toUTF8)
    (h : mixForPlot .standard text = .ok (score, samples)) :
    ((runPlot draw options : StateM Folder Exit) folder).1.code = 101 ↔
      Plot.window? samples.size Config.standard.sampleRate options.request = none := by
  unfold runPlot
  simp only [bind, StateT.bind, readText_eq hread, h]
  cases Plot.window? samples.size Config.standard.sampleRate options.request with
  | none => exact iff_of_true rfl rfl
  | some window =>
    refine iff_of_false ?_ nofun
    simp only [StateT.bind]
    generalize (Files.write _ _ : StateM Folder _) folder = written
    obtain ⟨fault | ⟨⟩, folder'⟩ := written
    · exact (by decide : (1 : UInt32) ≠ 101)
    · exact (by decide : (0 : UInt32) ≠ 101)

end

theorem summary_samples (score : Score) (samples : Array Float) :
    ∃ before after,
      summary score samples = before ++ s!"s ({samples.size} samples)\n" ++ after := by
  unfold summary
  generalize Decimal.fixed 3 score.seconds = seconds
  generalize Decimal.fixed 3 (peak samples) = highest
  generalize Decimal.plain score.bpm = bpm
  refine ⟨"Score Plot\n==========\n" ++ s!"  Notes: {score.notes.length}\n" ++
    s!"  Tempo: {bpm} BPM\n" ++ s!"  Duration: {seconds}", s!"  Peak: {highest}\n", ?_⟩
  simp only [String.append_assoc]

/--
The plotting command mixes exactly the scores that are rendered with the standard settings, and
refuses the others, with the same fault where the text is at fault. The number of samples that it
prints is the number of frames in the file. It never finds a score with a length and no mix. What it
has mixed it sums up and hands over to be drawn; what it refuses leaves all files as they are.
-/
theorem plot_accepts_rendered (o : Overflow) (text : String) :
    ((∃ score samples, mixForPlot .standard text = .ok (score, samples)) ↔
      ∃ file, (render o .standard text).result = .ok file) ∧
    (∀ fault, mixForPlot .standard text = .error (.score fault) ↔
      (render o .standard text).result = .error (.score fault)) ∧
    (∀ score samples, mixForPlot .standard text = .ok (score, samples) →
      ∃ file bytes before after, (render o .standard text).result = .ok file ∧
        Wave.extract? file = some bytes ∧
        bytes.size = samples.size * Config.standard.format.frameBytes ∧
        summary score samples = before ++ s!"s ({samples.size} samples)\n" ++ after) ∧
    (∀ c, mixForPlot c text ≠ .error .unmixable) ∧
    ∀ (draw : Option Plot.Figure → String) (folder : Folder) (options : PlotOptions),
      folder.read options.input = .ok text.toUTF8 →
      (∀ score samples, mixForPlot .standard text = .ok (score, samples) →
        (∃ rest, ((runPlot draw options : StateM Folder Exit) folder).1.out =
          summary score samples ++ rest) ∧
        ((runPlot draw options : StateM Folder Exit) folder).2 =
          (folder.write options.output (draw (figureOf options score samples)).toUTF8).2) ∧
      ∀ e, mixForPlot .standard text = .error e →
        (runPlot draw options : StateM Folder Exit) folder =
          (Exit.failure "" e.message, folder) := by
  have hfile := fun score samples =>
    @render_of_mixForPlot o _ text score samples (standard_check o) standard_frameBytes standard_fits
  refine ⟨⟨?_, ?_⟩, fun fault => ?_, fun score samples h => ?_,
    fun c => mixForPlot_ne_unmixable c text, fun draw folder options hread => ⟨?_, ?_⟩⟩
  · rintro ⟨score, samples, h⟩
    obtain ⟨file, hrender, -⟩ := hfile score samples h
    exact ⟨file, hrender⟩
  · rintro ⟨file, h⟩
    obtain ⟨score, samples, hmix, -⟩ := mixForPlot_of_render h
    exact ⟨score, samples, hmix⟩
  · rw [mixForPlot_eq_score_iff, render_eq_score_iff (standard_check o)]
  · obtain ⟨file, hrender, hencode, hn⟩ := hfile score samples h
    obtain ⟨before, after, hsummary⟩ := summary_samples score samples
    refine ⟨file, _, before, after, hrender, Wave.extract?_of_noWrap hencode hn, ?_, hsummary⟩
    rw [List.size_toByteArray, Wave.length_payload]
  · exact fun score samples => runPlot_of_ok hread
  · exact fun e => runPlot_of_error hread

end ToneScore.Command
