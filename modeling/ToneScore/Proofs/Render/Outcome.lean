import ToneScore.Proofs.Mixing
import ToneScore.Proofs.Wave.Image
import ToneScore.Render.Basic

/-!
# The outcome of a render

`Outcome` lists the ways in which a render can end, each with the condition that makes it the first
that applies. Some outcome always holds (`exists_outcome`) and the render ends in any that does
(`render_of_outcome`), so the conditions exclude each other. A score that has been measured has a mix
unless no buffer can take it, and its mix can be stored, which leaves the last two errors of
`renderScore` without an input. Where no product is too large for its word, the limits are those of
the true sizes and a buffer is always found (`exists_file`).
-/

namespace ToneScore

/-- The format exists, and the text is read as a score. -/
structure Admitted (o : Overflow) (c : Config) (text : String) (score : Score) : Prop where
  format : c.format.check o = .ok ()
  read : Score.read text = .ok score

/-- The score can be addressed, and `frames` is its length. -/
structure Measured (o : Overflow) (c : Config) (text : String) (score : Score) (frames : Nat) : Prop
    extends Admitted o c text score where
  length : c.mixer.length? score = some frames

/-- The size that is stored for the samples fits its field. -/
structure Storable (o : Overflow) (c : Config) (text : String) (score : Score) (frames : Nat) : Prop
    extends Measured o c text score frames where
  product : o = .halts → frames * c.format.frameBytes < UInt64.size
  size : c.format.storedSize frames ≤ 4294967295 - 37

inductive Outcome (o : Overflow) (c : Config) (text : String) :
    Except RenderError ByteArray → Prop where
  | format {e : Wave.Error} (h : c.format.check o = .error e) :
      Outcome o c text (.error (.wave e))
  | score {fault : Score.LineFault} (hc : c.format.check o = .ok ())
      (h : Score.read text = .error fault) :
      Outcome o c text (.error (.score fault))
  | unaddressable {score : Score} (hs : Admitted o c text score)
      (h : ∃ note ∈ score.notes, c.mixer.span? note score.bpm = none) :
      Outcome o c text (.error (.wave (.dataTooLarge 18446744073709551615)))
  | overflow {score : Score} {frames : Nat} (hs : Measured o c text score frames) (ho : o = .halts)
      (h : UInt64.size ≤ frames * c.format.frameBytes) :
      Outcome o c text (.error (.wave .overflow))
  | tooLarge {score : Score} {frames : Nat} {bytes : UInt64} (hs : Measured o c text score frames)
      (hp : o = .halts → frames * c.format.frameBytes < UInt64.size)
      (hb : bytes.toNat = c.format.storedSize frames)
      (h : 4294967295 - 37 < c.format.storedSize frames) :
      Outcome o c text (.error (.wave (.dataTooLarge bytes)))
  | tooLong {score : Score} {frames : Nat} (hs : Storable o c text score frames)
      (h : c.sampleRate.toNat * c.maxSeconds.toNat < frames) :
      Outcome o c text (.error (.tooLong frames (c.sampleRate.toNat * c.maxSeconds.toNat)))
  | capacity {score : Score} {frames : Nat} (hs : Storable o c text score frames)
      (hl : frames ≤ c.sampleRate.toNat * c.maxSeconds.toNat) (h : Mixer.capacity < frames) :
      Outcome o c text (.error .capacity)
  | rendered {score : Score} {frames : Nat} {samples : Array Float} {file : ByteArray}
      (hs : Storable o c text score frames)
      (hl : frames ≤ c.sampleRate.toNat * c.maxSeconds.toNat)
      (hm : c.mixer.mix score = .ok samples) (he : Wave.encode o c.format samples = .ok file) :
      Outcome o c text (.ok file)

variable {o : Overflow} {c : Config} {text : String} {score : Score} {frames : Nat}

theorem render_of_admitted (h : Admitted o c text score) :
    render o c text = ⟨acceptedEntries (Score.reading text) ++ (renderScore o c score).log,
      (renderScore o c score).result⟩ := by
  have hread : (Score.reading text).result = .ok score := h.read
  simp only [render, h.format, hread]

/-! ## Sizes -/

theorem Admitted.frameBytes_lt (h : Admitted o c text score) :
    o = .halts → c.format.frameBytes < UInt16.size :=
  (Wave.Format.check_eq_ok_iff.mp h.format).2.2.2.1

theorem Admitted.frameBytes_pos (h : Admitted o c text score) : 0 < c.format.frameBytes := by
  obtain ⟨hdepth, hchannels, -⟩ := Wave.Format.check_eq_ok_iff.mp h.format
  exact Wave.Format.frameBytes_pos hdepth hchannels

theorem Storable.exists_dataSize (h : Storable o c text score frames) :
    ∃ size, c.format.dataSize o frames = .ok size := by
  obtain ⟨bytes, hbytes⟩ := Wave.Format.exists_sizeWord c.format frames
  have hword : bytes.toUInt32.toNat = c.format.storedSize frames := by
    rw [UInt64.toNat_toUInt32, hbytes]
    exact Nat.mod_eq_of_lt (Nat.lt_of_le_of_lt h.size (by decide))
  exact ⟨_, Wave.Format.dataSize_eq_ok_iff.mpr
    ⟨fun ho => ⟨h.frameBytes_lt ho, h.product ho⟩, h.size, hword⟩⟩

theorem Measured.dataSize_of_overflow (h : Measured o c text score frames) (ho : o = .halts)
    (hp : UInt64.size ≤ frames * c.format.frameBytes) :
    c.format.dataSize o frames = .error .overflow := by
  obtain ⟨bytes, hbytes⟩ := Wave.Format.exists_sizeWord c.format frames
  rw [Wave.Format.dataSize_eq h.frameBytes_lt hbytes, Wave.keep_eq_error_iff.mpr ⟨ho, hp, rfl⟩]
  rfl

theorem Measured.dataSize_of_tooLarge {bytes : UInt64} (h : Measured o c text score frames)
    (hp : o = .halts → frames * c.format.frameBytes < UInt64.size)
    (hb : bytes.toNat = c.format.storedSize frames)
    (hlarge : 4294967295 - 37 < c.format.storedSize frames) :
    c.format.dataSize o frames = .error (.dataTooLarge bytes) := by
  rw [Wave.Format.dataSize_eq h.frameBytes_lt hb, Wave.keep_eq_ok_iff.mpr ⟨hp, rfl⟩]
  exact if_pos hlarge

theorem Storable.exists_encode (h : Storable o c text score frames) (hle : frames ≤ Mixer.capacity) :
    ∃ samples file, c.mixer.mix score = .ok samples ∧ samples.size = frames ∧
      Wave.encode o c.format samples = .ok file ∧
      file.size = 44 + frames * c.format.frameBytes +
        Wave.Format.padding (c.format.storedSize frames) := by
  obtain ⟨samples, hm, rfl⟩ := Mixer.exists_mix h.length hle
  refine ⟨samples, _, hm, rfl, Wave.encode_eq_ok_iff.mpr ⟨h.format, h.exists_dataSize, rfl⟩, ?_⟩
  rw [List.size_toByteArray, Wave.length_image]

/-! ## Renders and outcomes -/

theorem exists_outcome_of_measured (hs : Measured o c text score frames) :
    ∃ result, Outcome o c text result := by
  by_cases hp : o = .halts → frames * c.format.frameBytes < UInt64.size
  · rcases Nat.lt_or_ge (4294967295 - 37) (c.format.storedSize frames) with hb | hb
    · obtain ⟨bytes, hbytes⟩ := Wave.Format.exists_sizeWord c.format frames
      exact ⟨_, .tooLarge hs hp hbytes hb⟩
    have hstored : Storable o c text score frames := ⟨hs, hp, hb⟩
    rcases Nat.lt_or_ge (c.sampleRate.toNat * c.maxSeconds.toNat) frames with hl | hl
    · exact ⟨_, .tooLong hstored hl⟩
    rcases Nat.lt_or_ge Mixer.capacity frames with hc | hc
    · exact ⟨_, .capacity hstored hl hc⟩
    obtain ⟨samples, file, hmix, -, hfile, -⟩ := hstored.exists_encode hc
    exact ⟨_, .rendered hstored hl hmix hfile⟩
  · obtain ⟨ho, hlarge⟩ := Classical.not_imp.mp hp
    exact ⟨_, .overflow hs ho (Nat.not_lt.mp hlarge)⟩

theorem exists_outcome (o : Overflow) (c : Config) (text : String) :
    ∃ result, Outcome o c text result := by
  cases hc : c.format.check o with
  | error e => exact ⟨_, .format hc⟩
  | ok u =>
    cases hr : Score.read text with
    | error fault => exact ⟨_, .score hc hr⟩
    | ok score =>
      have hs : Admitted o c text score := ⟨hc, hr⟩
      cases hl : c.mixer.length? score with
      | none => exact ⟨_, .unaddressable hs (Mixer.length?_eq_none_iff.mp hl)⟩
      | some frames => exact exists_outcome_of_measured ⟨hs, hl⟩

/-- A score without a file is stopped before anything is mixed. -/
theorem renderScore_of_error {e : RenderError} (hs : Admitted o c text score)
    (h : Outcome o c text (.error e)) : renderScore o c score = ⟨[], .error e⟩ := by
  have hsame : ∀ {score' : Score}, Admitted o c text score' → score' = score := fun hs' =>
    Except.ok.inj (hs'.read.symm.trans hs.read)
  cases h with
  | format h => cases hs.format.symm.trans h
  | score hc h => cases hs.read.symm.trans h
  | unaddressable hs' h =>
    obtain rfl := hsame hs'
    rw [renderScore, Mixer.length?_eq_none_iff.mpr h]
    rfl
  | overflow hs' ho h =>
    obtain rfl := hsame hs'.toAdmitted
    rw [renderScore, hs'.length]
    simp only [hs'.dataSize_of_overflow ho h]
  | tooLarge hs' hp hb h =>
    obtain rfl := hsame hs'.toAdmitted
    rw [renderScore, hs'.length]
    simp only [hs'.dataSize_of_tooLarge hp hb h]
  | tooLong hs' h =>
    obtain rfl := hsame hs'.toAdmitted
    obtain ⟨size, hsize⟩ := hs'.exists_dataSize
    have hlimit : c.maxFrames < _ := h
    rw [renderScore, hs'.length]
    simp only [hsize, if_pos hlimit]
    rfl
  | capacity hs' hl h =>
    obtain rfl := hsame hs'.toAdmitted
    obtain ⟨size, hsize⟩ := hs'.exists_dataSize
    have hlimit : ¬ c.maxFrames < _ := Nat.not_lt.mpr hl
    rw [renderScore, hs'.length]
    simp only [hsize, if_neg hlimit, Mixer.mix_eq_capacity_iff.mpr ⟨_, hs'.length, h⟩]

theorem renderScore_of_mix {samples : Array Float} {file : ByteArray}
    (hs : Storable o c text score frames) (hl : frames ≤ c.sampleRate.toNat * c.maxSeconds.toNat)
    (hm : c.mixer.mix score = .ok samples) (he : Wave.encode o c.format samples = .ok file) :
    renderScore o c score =
      ⟨((c.mixer.placements? score).getD []).map (fun (note, span) => .mixing note span) ++
        mixEntries c score samples, .ok file⟩ := by
  obtain ⟨size, hsize⟩ := hs.exists_dataSize
  have hlimit : ¬ c.maxFrames < frames := Nat.not_lt.mpr hl
  rw [renderScore, hs.length]
  simp only [hsize, if_neg hlimit, hm, he]
  rfl

theorem render_of_outcome {result : Except RenderError ByteArray} (h : Outcome o c text result) :
    (render o c text).result = result := by
  have hstopped : ∀ {score e}, Admitted o c text score → Outcome o c text (.error e) →
      (render o c text).result = .error e := fun hs h => by
    rw [render_of_admitted hs, renderScore_of_error hs h]
  cases h with
  | format h => simp only [render, h]
  | score hc h =>
    have hread : (Score.reading text).result = _ := h
    simp only [render, hc, hread]
  | unaddressable hs h => exact hstopped hs (.unaddressable hs h)
  | overflow hs ho h => exact hstopped hs.toAdmitted (.overflow hs ho h)
  | tooLarge hs hp hb h => exact hstopped hs.toAdmitted (.tooLarge hs hp hb h)
  | tooLong hs h => exact hstopped hs.toAdmitted (.tooLong hs h)
  | capacity hs hl h => exact hstopped hs.toAdmitted (.capacity hs hl h)
  | rendered hs hl hm he =>
    rw [render_of_admitted hs.toAdmitted, renderScore_of_mix hs hl hm he]

theorem outcome_render (o : Overflow) (c : Config) (text : String) :
    Outcome o c text (render o c text).result := by
  obtain ⟨result, h⟩ := exists_outcome o c text
  rw [render_of_outcome h]
  exact h

/-! ## Products that fit their words -/

theorem Measured.storable (hs : Measured o c text score frames) (hn : c.format.NoWrap frames)
    (hb : frames * c.format.frameBytes ≤ 4294967295 - 37) : Storable o c text score frames :=
  ⟨hs, fun _ => hn.data, Wave.Format.storedSize_eq hn ▸ hb⟩

/-- Nothing can go wrong any more once the length of a score is accepted. -/
theorem exists_file (hs : Measured o c text score frames) (hn : c.format.NoWrap frames)
    (hb : frames * c.format.frameBytes ≤ 4294967295 - 37) :
    ∃ samples file, c.mixer.mix score = .ok samples ∧ samples.size = frames ∧
      Wave.encode o c.format samples = .ok file ∧
      file.size = 44 + frames * c.format.frameBytes + frames * c.format.frameBytes % 2 := by
  have hframes : frames ≤ frames * c.format.frameBytes :=
    Nat.le_mul_of_pos_right frames hs.frameBytes_pos
  have hcapacity : frames ≤ Mixer.capacity :=
    Nat.le_trans (Nat.le_trans hframes hb) (by decide)
  obtain ⟨samples, file, hm, hsize, he, hbytes⟩ := (hs.storable hn hb).exists_encode hcapacity
  refine ⟨samples, file, hm, hsize, he, ?_⟩
  rw [hbytes, Wave.Format.storedSize_eq hn]
  rfl

/--
A render ends in the first outcome that applies, and in no other. A measured score whose size fits
the words it is computed in is refused for the number of bytes that it has, then for its length.
Within both limits it is mixed and stored, in a file of the size that its length asks for.
-/
theorem render_first_outcome (o : Overflow) (c : Config) (text : String) :
    (∀ result, (render o c text).result = result ↔ Outcome o c text result) ∧
    ∀ score frames, Measured o c text score frames → c.format.NoWrap frames →
      (4294967295 - 37 < frames * c.format.frameBytes →
        ∃ bytes : UInt64, bytes.toNat = frames * c.format.frameBytes ∧
          (render o c text).result = .error (.wave (.dataTooLarge bytes))) ∧
      (frames * c.format.frameBytes ≤ 4294967295 - 37 →
        c.sampleRate.toNat * c.maxSeconds.toNat < frames →
        (render o c text).result =
          .error (.tooLong frames (c.sampleRate.toNat * c.maxSeconds.toNat))) ∧
      (frames * c.format.frameBytes ≤ 4294967295 - 37 →
        frames ≤ c.sampleRate.toNat * c.maxSeconds.toNat →
        ∃ samples file, c.mixer.mix score = .ok samples ∧ samples.size = frames ∧
          Wave.encode o c.format samples = .ok file ∧ (render o c text).result = .ok file ∧
          file.size = 44 + frames * c.format.frameBytes + frames * c.format.frameBytes % 2) := by
  refine ⟨fun result => ⟨?_, render_of_outcome⟩, ?_⟩
  · rintro rfl
    exact outcome_render o c text
  intro score frames hs hn
  have hstored := Wave.Format.storedSize_eq hn
  refine ⟨fun hb => ?_, fun hb hl => ?_, fun hb hl => ?_⟩
  · obtain ⟨bytes, hbytes⟩ := Wave.Format.exists_sizeWord c.format frames
    refine ⟨bytes, hbytes.trans hstored, ?_⟩
    exact render_of_outcome (.tooLarge hs (fun _ => hn.data) hbytes (hstored ▸ hb))
  · exact render_of_outcome (.tooLong (hs.storable hn hb) hl)
  · obtain ⟨samples, file, hm, hsize, he, hbytes⟩ := exists_file hs hn hb
    exact ⟨samples, file, hm, hsize, he,
      render_of_outcome (.rendered (hs.storable hn hb) hl hm he), hbytes⟩

end ToneScore
