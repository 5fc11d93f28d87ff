import ToneScore.Proofs.Wave.Image

/-!
# The header agrees with its file

`Fits` says when frames can be stored in a format and `Refused` which error there is otherwise, the
first check that fails giving the answer. A header field is read back with `numberAt`. Where no
product is too large for its word, every word that goes into a header is the number it stands for
(`Exact`), so the fields agree with each other and with the bytes behind them (`Consistent`).
-/

namespace ToneScore.Wave

/-! ## What can be stored -/

/-- The format exists, and its rate and its frames fit their fields of 32 bits. -/
structure Fits (f : Format) (frames : Nat) : Prop where
  depth : f.bitsPerSample ∈ [8, 16, 24, 32]
  channels : 0 < f.channels.toNat
  sampleRate : 0 < f.sampleRate.toNat
  byteRate : f.sampleRate.toNat * f.channels.toNat * f.bitsPerSample.toNat / 8 ≤ 4294967295
  dataSize : frames * f.channels.toNat * f.bitsPerSample.toNat / 8 ≤ 4294967295 - 37

/-- The error of the first check that fails. -/
inductive Refused (f : Format) (frames : Nat) : Error → Prop where
  | depth (h : f.bitsPerSample ∉ [8, 16, 24, 32]) :
      Refused f frames (.unsupportedBitDepth f.bitsPerSample)
  | channels (hd : f.bitsPerSample ∈ [8, 16, 24, 32]) (h : f.channels.toNat = 0) :
      Refused f frames (.invalidChannelCount f.channels)
  | sampleRate (hd : f.bitsPerSample ∈ [8, 16, 24, 32]) (hc : 0 < f.channels.toNat)
      (h : f.sampleRate.toNat = 0) :
      Refused f frames (.invalidSampleRate f.sampleRate)
  | byteRate (hd : f.bitsPerSample ∈ [8, 16, 24, 32]) (hc : 0 < f.channels.toNat)
      (hr : 0 < f.sampleRate.toNat)
      (h : 4294967295 < f.sampleRate.toNat * f.channels.toNat * f.bitsPerSample.toNat / 8) :
      Refused f frames (.invalidSampleRate f.sampleRate)
  | dataSize {bytes : UInt64} (hd : f.bitsPerSample ∈ [8, 16, 24, 32]) (hc : 0 < f.channels.toNat)
      (hr : 0 < f.sampleRate.toNat)
      (hb : f.sampleRate.toNat * f.channels.toNat * f.bitsPerSample.toNat / 8 ≤ 4294967295)
      (hbytes : bytes.toNat = frames * f.channels.toNat * f.bitsPerSample.toNat / 8)
      (h : 4294967295 - 37 < bytes.toNat) :
      Refused f frames (.dataTooLarge bytes)

variable {o : Overflow} {f : Format} {frames : Nat} {samples : Array Float}

/-- The depths are whole numbers of bytes, so nothing is lost by dividing early. -/
theorem mul_bits_div_eight (h : f.bitsPerSample ∈ [8, 16, 24, 32]) (n : Nat) :
    n * f.channels.toNat * f.bitsPerSample.toNat / 8 = n * f.frameBytes := by
  have he : n * f.channels.toNat * (8 * f.width) = 8 * (n * f.frameBytes) := by
    unfold Format.frameBytes
    rw [Nat.mul_left_comm, Nat.mul_assoc]
  rw [Format.bits_eq h, he, Nat.mul_div_cancel_left _ (by decide)]

section
variable (hn : f.NoWrap frames)
include hn

theorem check_iff_of_noWrap :
    f.check o = .ok () ↔
      f.bitsPerSample ∈ [8, 16, 24, 32] ∧ 0 < f.channels.toNat ∧ 0 < f.sampleRate.toNat ∧
        f.sampleRate.toNat * f.frameBytes ≤ 4294967295 := by
  have hrate : f.sampleRate.toNat * f.frameBytes < UInt32.size ↔
      f.sampleRate.toNat * f.frameBytes ≤ 4294967295 := Nat.lt_succ_iff
  rw [Format.check_eq_ok_iff, Format.storedAlign_eq hn.frame, Format.channels_pos_iff,
    Format.sampleRate_pos_iff]
  simp only [hn.frame, implies_true, true_and, hrate]

theorem dataSize_iff_of_noWrap {size : UInt32} :
    f.dataSize o frames = .ok size ↔
      frames * f.frameBytes ≤ 4294967295 - 37 ∧ size.toNat = frames * f.frameBytes := by
  rw [Format.dataSize_eq_ok_iff, Format.storedSize_eq hn]
  simp only [hn, implies_true, true_and]

theorem fits_iff : Fits f frames ↔ f.check o = .ok () ∧ ∃ size, f.dataSize o frames = .ok size := by
  rw [check_iff_of_noWrap hn]
  simp only [dataSize_iff_of_noWrap hn]
  constructor
  · rintro ⟨hd, hc, hr, hb, hs⟩
    rw [mul_bits_div_eight hd] at hb hs
    refine ⟨⟨hd, hc, hr, hb⟩, _, hs, UInt32.toNat_ofNat_of_lt' ?_⟩
    exact Nat.lt_of_le_of_lt hs (by decide)
  · rintro ⟨⟨hd, hc, hr, hb⟩, _, hs, -⟩
    refine ⟨hd, hc, hr, ?_, ?_⟩ <;> rwa [mul_bits_div_eight hd]

theorem fits_or_refused : Fits f frames ∨ ∃ e, Refused f frames e := by
  by_cases hd : f.bitsPerSample ∈ [8, 16, 24, 32]
  · rcases Nat.eq_zero_or_pos f.channels.toNat with hc | hc
    · exact .inr ⟨_, .channels hd hc⟩
    rcases Nat.eq_zero_or_pos f.sampleRate.toNat with hr | hr
    · exact .inr ⟨_, .sampleRate hd hc hr⟩
    rcases Nat.lt_or_ge 4294967295
      (f.sampleRate.toNat * f.channels.toNat * f.bitsPerSample.toNat / 8) with hb | hb
    · exact .inr ⟨_, .byteRate hd hc hr hb⟩
    rcases Nat.lt_or_ge (4294967295 - 37)
      (frames * f.channels.toNat * f.bitsPerSample.toNat / 8) with hs | hs
    · obtain ⟨bytes, hbytes⟩ := Format.exists_sizeWord f frames
      rw [Format.storedSize_eq hn, ← mul_bits_div_eight hd] at hbytes
      exact .inr ⟨_, .dataSize hd hc hr hb hbytes (hbytes ▸ hs)⟩
    · exact .inl ⟨hd, hc, hr, hb, hs⟩
  · exact .inr ⟨_, .depth hd⟩

end

theorem encode_of_check_error {e : Error} (h : f.check o = .error e) :
    encode o f samples = .error e :=
  encode_eq_error_iff_checks.mpr (.inl h)

theorem encode_of_refused {e : Error} (hn : f.NoWrap samples.size) (h : Refused f samples.size e) :
    encode o f samples = .error e := by
  cases h with
  | depth h => exact encode_of_check_error (if_pos h)
  | channels hd h =>
    refine encode_of_check_error ?_
    rw [Format.check, if_neg (not_not_intro hd), if_pos (UInt16.toNat_inj.mp h)]
  | sampleRate hd hc h =>
    refine encode_of_check_error ?_
    rw [Format.check, if_neg (not_not_intro hd), if_neg (Format.channels_pos_iff.mp hc),
      if_pos (UInt32.toNat_inj.mp h)]
  | byteRate hd hc hr h =>
    rw [mul_bits_div_eight hd] at h
    obtain ⟨align, halign, -⟩ := Format.exists_blockAlign (o := o) fun _ => hn.frame
    refine encode_of_check_error ?_
    rw [Format.check_eq hd (Format.channels_pos_iff.mp hc) (Format.sampleRate_pos_iff.mp hr), halign,
      Format.storedAlign_eq hn.frame]
    exact if_neg (Nat.not_lt.mpr h)
  | @dataSize bytes hd hc hr hb hbytes h =>
    rw [mul_bits_div_eight hd] at hb hbytes
    rw [← Format.storedSize_eq hn] at hbytes
    refine encode_eq_error_iff_checks.mpr
      (.inr ⟨(check_iff_of_noWrap hn).mpr ⟨hd, hc, hr, hb⟩, ?_⟩)
    rw [Format.dataSize_eq (fun _ => hn.frame) hbytes, keep_of_lt hn.data]
    show (if 4294967295 - 37 < f.storedSize samples.size then _ else _) = _
    rw [if_pos (hbytes ▸ h)]

theorem encode_of_fits (hn : f.NoWrap samples.size) (h : Fits f samples.size) :
    encode o f samples = .ok (image f samples).toByteArray :=
  encode_eq_ok_iff.mpr ⟨((fits_iff hn).mp h).1, ((fits_iff hn).mp h).2, rfl⟩

theorem encode_eq_error_iff {e : Error} (hn : f.NoWrap samples.size) :
    encode o f samples = .error e ↔ Refused f samples.size e := by
  refine ⟨fun h => ?_, encode_of_refused hn⟩
  rcases fits_or_refused hn with hfits | ⟨e', hrefused⟩
  · cases (encode_of_fits hn hfits).symm.trans h
  · cases (encode_of_refused hn hrefused).symm.trans h
    exact hrefused

/-! ## The words of the header -/

/-- The words of the header hold the numbers that they stand for. -/
structure Exact (o : Overflow) (f : Format) (frames : Nat) : Prop where
  blockAlign : ∃ word, f.blockAlign o = .ok word ∧ word.toNat = f.frameBytes
  byteRate : ∃ word, f.byteRate o = .ok word ∧ word.toNat = f.sampleRate.toNat * f.frameBytes
  dataSize : ∃ word, f.dataSize o frames = .ok word ∧ word.toNat = frames * f.frameBytes ∧
    ∃ rest, remaining o word = .ok rest ∧
      rest.toNat = 36 + frames * f.frameBytes + Format.padding (frames * f.frameBytes)

theorem exact_of_fits (hn : f.NoWrap frames) (h : Fits f frames) : Exact o f frames := by
  obtain ⟨hcheck, size, hsize⟩ := (fits_iff hn).mp h
  obtain ⟨hle, hword⟩ := (dataSize_iff_of_noWrap hn).mp hsize
  obtain ⟨align, halign⟩ := Format.exists_blockAlign (o := o) fun _ => hn.frame
  obtain ⟨rate, hrate⟩ := exists_byteRate hcheck
  obtain ⟨hremaining, hrest⟩ := @toNat_remaining o size (hword ▸ hle)
  rw [Format.storedAlign_eq hn.frame] at halign hrate
  rw [hword] at hrest
  exact ⟨⟨align, halign⟩, ⟨rate, hrate⟩, ⟨size, hsize, hword, _, hremaining, hrest⟩⟩

/-! ## The fields of a written file -/

/-- The header of a file in a format, with `frames` frames in it, agrees with the file. -/
structure Consistent (o : Overflow) (f : Format) (frames : Nat) (file : ByteArray) : Prop where
  even : file.size % 2 = 0
  fileSize : f.fileSize o frames = .ok file.size
  remaining : numberAt file 4 4 + 8 = file.size
  channels : numberAt file 22 2 = f.channels.toNat
  sampleRate : numberAt file 24 4 = f.sampleRate.toNat
  byteRate : numberAt file 28 4 = f.sampleRate.toNat * f.frameBytes
  blockAlign : numberAt file 32 2 = f.frameBytes
  bitsPerSample : numberAt file 34 2 = f.bitsPerSample.toNat
  dataSize : numberAt file 40 4 = frames * f.channels.toNat * f.bitsPerSample.toNat / 8

theorem consistent_image (hn : f.NoWrap samples.size) (h : Fits f samples.size) :
    Consistent o f samples.size (image f samples).toByteArray := by
  obtain ⟨hcheck, size, hsize⟩ := (fits_iff (o := o) hn).mp h
  obtain ⟨-, -, -, hrate⟩ := (check_iff_of_noWrap hn).mp hcheck
  obtain ⟨hle, -⟩ := (dataSize_iff_of_noWrap hn).mp hsize
  have halign := Format.storedAlign_eq hn.frame
  have hstored := Format.storedSize_eq hn
  have hlength : (image f samples).toByteArray.size =
      44 + samples.size * f.frameBytes + samples.size * f.frameBytes % 2 := by
    rw [List.size_toByteArray, length_image, hstored]
    rfl
  constructor
  case even => rw [hlength]; omega
  case fileSize =>
    rw [hlength]
    refine Format.fileSize_eq_ok_iff.mpr ⟨⟨size, hsize⟩, ?_⟩
    rw [hstored]
    rfl
  case remaining =>
    have h4 : numberAt (image f samples).toByteArray 4 4 =
        36 + f.storedSize samples.size + Format.padding (f.storedSize samples.size) := by
      refine numberAt_image (i := 1) rfl rfl ?_
      rw [hstored, Format.padding]
      omega
    rw [hlength, h4, hstored, Format.padding]
    omega
  case channels => exact numberAt_image (i := 6) rfl rfl f.channels.toNat_lt
  case sampleRate => exact numberAt_image (i := 7) rfl rfl f.sampleRate.toNat_lt
  case byteRate =>
    rw [← halign] at hrate ⊢
    exact numberAt_image (i := 8) rfl rfl (Nat.lt_succ_of_le hrate)
  case blockAlign =>
    rw [← halign]
    exact numberAt_image (i := 9) rfl rfl f.storedAlign_lt
  case bitsPerSample => exact numberAt_image (i := 10) rfl rfl f.bitsPerSample.toNat_lt
  case dataSize =>
    rw [mul_bits_div_eight h.depth, ← hstored]
    exact numberAt_dataSize (hstored ▸ hle)

/--
Samples are stored exactly if they fit, and are otherwise refused by the first check that fails.
The numbers in the header are computed without a wrap, and agree with the bytes of the file.
-/
theorem encode_consistent {f : Format} {samples : Array Float} (hf : f.frameBytes < UInt16.size)
    (hs : samples.size * f.frameBytes < UInt64.size) (o : Overflow) :
    ((∃ file, encode o f samples = .ok file) ↔ Fits f samples.size) ∧
    (∀ e, encode o f samples = .error e ↔ Refused f samples.size e) ∧
    ∀ file, encode o f samples = .ok file →
      Consistent o f samples.size file ∧ Exact o f samples.size := by
  have hn : f.NoWrap samples.size := ⟨hf, hs⟩
  have hfits : ∀ {file}, encode o f samples = .ok file → Fits f samples.size := by
    intro file h
    obtain ⟨hcheck, hsize, -⟩ := encode_eq_ok_iff.mp h
    exact (fits_iff hn).mpr ⟨hcheck, hsize⟩
  refine ⟨⟨?_, ?_⟩, ?_, ?_⟩
  · rintro ⟨file, h⟩
    exact hfits h
  · intro h
    exact ⟨_, encode_of_fits hn h⟩
  · intro e
    exact encode_eq_error_iff hn
  · intro file h
    rw [(encode_eq_ok_iff.mp h).2.2]
    exact ⟨consistent_image hn (hfits h), exact_of_fits hn (hfits h)⟩

/-- Three channels of 24 bits: the frame has nine bytes, so the file is padded. -/
theorem encode_consistent_padded :
    (⟨8000, 3, 24⟩ : Format).frameBytes < UInt16.size ∧
      1 * (⟨8000, 3, 24⟩ : Format).frameBytes < UInt64.size ∧
      ∃ file, encode .halts ⟨8000, 3, 24⟩ #[0.5] = .ok file ∧
        Consistent .halts ⟨8000, 3, 24⟩ 1 file := by
  have hf : (⟨8000, 3, 24⟩ : Format).frameBytes < UInt16.size := by decide
  have hs : #[(0.5 : Float)].size * (⟨8000, 3, 24⟩ : Format).frameBytes < UInt64.size := by decide
  have hfits : Fits ⟨8000, 3, 24⟩ 1 := ⟨by decide, by decide, by decide, by decide, by decide⟩
  obtain ⟨hok, -, hconsistent⟩ := encode_consistent hf hs .halts
  obtain ⟨file, h⟩ := hok.mpr hfits
  exact ⟨hf, hs, file, h, (hconsistent file h).1⟩

end ToneScore.Wave
