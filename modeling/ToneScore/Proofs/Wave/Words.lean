import ToneScore.Proofs.Results
import ToneScore.Wave.Encoder

/-!
# Words and numbers

A frame has `frameBytes` bytes. A word of 16 bits keeps `storedAlign` of them, and a word of 64 bits
keeps `storedSize` of the product with the number of frames. These are the numbers that the checks
compare and that the header holds (`check_eq_ok_iff`, `dataSize_eq_ok_iff`, `header_eq`), whatever
becomes of a product that is too large. They are the true ones where none is too large (`NoWrap`),
which is always the case if the run would break off otherwise (`noWrap_of_dataSize`).
-/

namespace ToneScore.Wave

namespace Format

def width (f : Format) : Nat := f.bitsPerSample.toNat / 8

def frameBytes (f : Format) : Nat := f.channels.toNat * f.width

def storedAlign (f : Format) : Nat := f.frameBytes % UInt16.size

def storedSize (f : Format) (frames : Nat) : Nat := frames * f.storedAlign % UInt64.size

/-- No product is too large for its word. -/
structure NoWrap (f : Format) (frames : Nat) : Prop where
  frame : f.frameBytes < UInt16.size
  data : frames * f.frameBytes < UInt64.size

variable {o : Overflow} {f : Format} {frames : Nat}

theorem storedAlign_eq (h : f.frameBytes < UInt16.size) : f.storedAlign = f.frameBytes :=
  Nat.mod_eq_of_lt h

theorem storedAlign_lt (f : Format) : f.storedAlign < UInt16.size := Nat.mod_lt _ (by decide)

theorem storedSize_eq (h : NoWrap f frames) : f.storedSize frames = frames * f.frameBytes := by
  rw [storedSize, storedAlign_eq h.frame, Nat.mod_eq_of_lt h.data]

theorem storedSize_le (f : Format) (frames : Nat) : f.storedSize frames ≤ frames * f.frameBytes :=
  Nat.le_trans (Nat.mod_le _ _) (Nat.mul_le_mul_left frames (Nat.mod_le _ _))

theorem bits_eq (h : f.bitsPerSample ∈ [8, 16, 24, 32]) : f.bitsPerSample.toNat = 8 * f.width := by
  obtain ⟨width, -, -, hbits⟩ := bits_eq_mul h
  unfold Format.width
  omega

theorem width_pos (h : f.bitsPerSample ∈ [8, 16, 24, 32]) : 0 < f.width := by
  obtain ⟨width, hpos, -, hbits⟩ := bits_eq_mul h
  unfold Format.width
  omega

theorem channels_pos_iff : 0 < f.channels.toNat ↔ f.channels ≠ 0 :=
  Nat.pos_iff_ne_zero.trans (not_congr (@UInt16.toNat_inj _ 0))

theorem sampleRate_pos_iff : 0 < f.sampleRate.toNat ↔ f.sampleRate ≠ 0 :=
  Nat.pos_iff_ne_zero.trans (not_congr (@UInt32.toNat_inj _ 0))

theorem frameBytes_pos (hd : f.bitsPerSample ∈ [8, 16, 24, 32]) (hc : f.channels ≠ 0) :
    0 < f.frameBytes :=
  Nat.mul_pos (channels_pos_iff.mpr hc) (width_pos hd)

/-! ## Products in words -/

theorem toNat_bytesPerSample (f : Format) : f.bytesPerSample.toNat = f.width :=
  UInt16.toNat_div _ _

theorem toNat_align (f : Format) : (f.channels * f.bytesPerSample).toNat = f.storedAlign := by
  rw [UInt16.toNat_mul, toNat_bytesPerSample]
  rfl

theorem blockAlign_eq (o : Overflow) (f : Format) :
    f.blockAlign o = keep o UInt16.size f.frameBytes (f.channels * f.bytesPerSample) := by
  rw [blockAlign, toNat_bytesPerSample]
  rfl

theorem exists_blockAlign (h : o = .halts → f.frameBytes < UInt16.size) :
    ∃ align, f.blockAlign o = .ok align ∧ align.toNat = f.storedAlign :=
  ⟨_, (blockAlign_eq o f).trans (keep_eq_ok_iff.mpr ⟨h, rfl⟩), toNat_align f⟩

theorem blockAlign_eq_ok_iff {align : UInt16} :
    f.blockAlign o = .ok align ↔
      (o = .halts → f.frameBytes < UInt16.size) ∧ align.toNat = f.storedAlign := by
  rw [blockAlign_eq, keep_eq_ok_iff, ← toNat_align, UInt16.toNat_inj, @eq_comm _ align]

theorem rate_lt (f : Format) : f.sampleRate.toNat * f.storedAlign < UInt64.size := by
  have hproduct := Nat.mul_le_mul (Nat.le_of_lt f.sampleRate.toNat_lt_size)
    (Nat.le_of_lt f.storedAlign_lt)
  exact Nat.lt_of_le_of_lt hproduct (by decide)

/-- The three checks of the fields come first, then that of the rate. -/
theorem check_eq (hd : f.bitsPerSample ∈ [8, 16, 24, 32]) (hc : f.channels ≠ 0)
    (hr : f.sampleRate ≠ 0) :
    f.check o = f.blockAlign o >>= fun _ =>
      if f.sampleRate.toNat * f.storedAlign < UInt32.size then .ok ()
      else .error (.invalidSampleRate f.sampleRate) := by
  rw [check, if_neg (not_not_intro hd), if_neg hc, if_neg hr]
  cases halign : f.blockAlign o with
  | error e => rfl
  | ok align =>
    have hword := (blockAlign_eq_ok_iff.mp halign).2
    have hlt := f.rate_lt
    have hrate : (f.sampleRate.toUInt64 * align.toUInt64).toNat =
        f.sampleRate.toNat * f.storedAlign := by
      rw [UInt64.toNat_mul, UInt32.toNat_toUInt64, UInt16.toNat_toUInt64, hword, Nat.mod_eq_of_lt hlt]
    have hlimit : 4294967295 < f.sampleRate.toUInt64 * align.toUInt64 ↔
        ¬ f.sampleRate.toNat * f.storedAlign < UInt32.size := by
      rw [UInt64.lt_iff_toNat_lt, hrate]
      exact Nat.not_lt.symm
    show (keep o UInt64.size (f.sampleRate.toNat * align.toNat) _ >>= _) = _
    rw [hword, keep_of_lt hlt]
    show (if 4294967295 < f.sampleRate.toUInt64 * align.toUInt64 then _ else _) =
      (if f.sampleRate.toNat * f.storedAlign < UInt32.size then _ else _)
    simp only [hlimit, ite_not]

theorem check_eq_ok_iff :
    f.check o = .ok () ↔
      f.bitsPerSample ∈ [8, 16, 24, 32] ∧ f.channels ≠ 0 ∧ f.sampleRate ≠ 0 ∧
        (o = .halts → f.frameBytes < UInt16.size) ∧
          f.sampleRate.toNat * f.storedAlign < UInt32.size := by
  by_cases hd : f.bitsPerSample ∈ [8, 16, 24, 32]
  · by_cases hc : f.channels = 0
    · simp [check, hd, hc]
    by_cases hr : f.sampleRate = 0
    · simp [check, hd, hc, hr]
    rw [check_eq hd hc hr, bind_eq_ok_iff]
    simp only [hd, hc, hr, not_false_eq_true, true_and, ne_eq]
    constructor
    · rintro ⟨align, halign, h⟩
      refine ⟨(blockAlign_eq_ok_iff.mp halign).1, ?_⟩
      split at h
      · assumption
      · cases h
    · rintro ⟨hframe, hrate⟩
      obtain ⟨align, halign, -⟩ := exists_blockAlign hframe
      exact ⟨align, halign, if_pos hrate⟩
  · simp [check, hd]

theorem toNat_dataWord {align : UInt16} (h : align.toNat = f.storedAlign) (frames : Nat) :
    (frames.toUInt64 * align.toUInt64).toNat = f.storedSize frames := by
  rw [UInt64.toNat_mul, UInt16.toNat_toUInt64, h, Nat.toUInt64, UInt64.toNat_ofNat', Nat.mod_mul_mod]
  rfl

/-- A size that can be multiplied is compared as it is stored. -/
theorem dataSize_eq {bytes : UInt64} (hframe : o = .halts → f.frameBytes < UInt16.size)
    (hbytes : bytes.toNat = f.storedSize frames) :
    f.dataSize o frames = keep o UInt64.size (frames * f.frameBytes) bytes >>= fun bytes =>
      if 4294967295 - 37 < f.storedSize frames then .error (.dataTooLarge bytes)
      else .ok bytes.toUInt32 := by
  obtain ⟨align, halign, hword⟩ := exists_blockAlign hframe
  have hexact : o = .halts → frames * align.toNat = frames * f.frameBytes := fun ho => by
    rw [hword, storedAlign_eq (hframe ho)]
  have hproduct : frames.toUInt64 * align.toUInt64 = bytes :=
    UInt64.toNat_inj.mp ((toNat_dataWord hword frames).trans hbytes.symm)
  have hlimit : 4294967295 - 37 < bytes ↔ 4294967295 - 37 < f.storedSize frames := by
    rw [UInt64.lt_iff_toNat_lt, hbytes]
    rfl
  rw [dataSize, halign]
  show keep o UInt64.size (frames * align.toNat) (frames.toUInt64 * align.toUInt64) >>= _ = _
  rw [keep_congr hexact, hproduct]
  unfold keep
  split
  · rfl
  · show (if 4294967295 - 37 < bytes then _ else _) =
      (if 4294967295 - 37 < f.storedSize frames then _ else _)
    simp only [hlimit]

theorem exists_sizeWord (f : Format) (frames : Nat) :
    ∃ bytes : UInt64, bytes.toNat = f.storedSize frames :=
  ⟨_, UInt64.toNat_ofNat_of_lt' (Nat.mod_lt _ (by decide))⟩

theorem dataSize_eq_ok_iff {size : UInt32} :
    f.dataSize o frames = .ok size ↔
      (o = .halts → NoWrap f frames) ∧ f.storedSize frames ≤ 4294967295 - 37 ∧
        size.toNat = f.storedSize frames := by
  obtain ⟨bytes, hbytes⟩ := exists_sizeWord f frames
  have hword (h : f.storedSize frames ≤ 4294967295 - 37) :
      bytes.toUInt32.toNat = f.storedSize frames := by
    rw [UInt64.toNat_toUInt32, hbytes]
    exact Nat.mod_eq_of_lt (Nat.lt_of_le_of_lt h (by decide))
  constructor
  · intro h
    have hframe : o = .halts → f.frameBytes < UInt16.size := by
      obtain ⟨align, halign, -⟩ := bind_eq_ok_iff.mp h
      exact (blockAlign_eq_ok_iff.mp halign).1
    rw [dataSize_eq hframe hbytes] at h
    obtain ⟨_, hkeep, h⟩ := bind_eq_ok_iff.mp h
    obtain ⟨hdata, rfl⟩ := keep_eq_ok_iff.mp hkeep
    split at h
    · cases h
    next hlimit =>
    obtain rfl := Except.ok.inj h
    exact ⟨fun ho => ⟨hframe ho, hdata ho⟩, Nat.not_lt.mp hlimit, hword (Nat.not_lt.mp hlimit)⟩
  · rintro ⟨hwrap, hle, hsize⟩
    rw [dataSize_eq (fun ho => (hwrap ho).frame) hbytes,
      keep_eq_ok_iff.mpr ⟨fun ho => (hwrap ho).data, rfl⟩]
    show (if 4294967295 - 37 < f.storedSize frames then _ else _) = _
    rw [if_neg (Nat.not_lt.mpr hle)]
    exact congrArg Except.ok (UInt32.toNat_inj.mp ((hword hle).trans hsize.symm))

/-- A run that would break off has done so, or nothing was too large. -/
theorem noWrap_of_dataSize {size : UInt32} (h : f.dataSize o frames = .ok size)
    (hwraps : o = .wraps → NoWrap f frames) : NoWrap f frames := by
  cases o with
  | halts => exact (dataSize_eq_ok_iff.mp h).1 rfl
  | wraps => exact hwraps rfl

theorem fileSize_eq_ok_iff {total : Nat} :
    f.fileSize o frames = .ok total ↔
      (∃ size, f.dataSize o frames = .ok size) ∧
        total = 44 + f.storedSize frames + padding (f.storedSize frames) := by
  rw [fileSize, bind_eq_ok_iff]
  constructor
  · rintro ⟨size, hsize, h⟩
    obtain rfl := Except.ok.inj h
    rw [← (dataSize_eq_ok_iff.mp hsize).2.2]
    exact ⟨⟨size, hsize⟩, rfl⟩
  · rintro ⟨⟨size, hsize⟩, rfl⟩
    refine ⟨size, hsize, ?_⟩
    rw [← (dataSize_eq_ok_iff.mp hsize).2.2]
    rfl

end Format

/-! ## The header -/

/-- The fields of a header with room for 16 bits of the bytes in a frame, in front of `size` bytes. -/
def fields (f : Format) (size : Nat) : List (List UInt8) :=
  [tag "RIFF", lowBytes 4 (36 + size + Format.padding size), tag "WAVE",
    tag "fmt ", lowBytes 4 16, lowBytes 2 1, lowBytes 2 f.channels.toNat,
    lowBytes 4 f.sampleRate.toNat, lowBytes 4 (f.sampleRate.toNat * f.storedAlign),
    lowBytes 2 f.storedAlign, lowBytes 2 f.bitsPerSample.toNat,
    tag "data", lowBytes 4 size]

variable {o : Overflow} {f : Format} {frames : Nat}

theorem toNat_remaining {size : UInt32} (h : size.toNat ≤ 4294967295 - 37) :
    remaining o size = .ok (36 + size + (size &&& 1)) ∧
      (36 + size + (size &&& 1)).toNat = 36 + size.toNat + Format.padding size.toNat := by
  have hlt : 36 + size.toNat + Format.padding size.toNat < UInt32.size := by
    show _ < 4294967296
    unfold Format.padding
    omega
  refine ⟨keep_of_lt hlt, ?_⟩
  unfold Format.padding at hlt ⊢
  rw [UInt32.toNat_add, UInt32.toNat_add, UInt32.toNat_and, show UInt32.toNat 36 = 36 from rfl,
    show UInt32.toNat 1 = 1 from rfl, Nat.and_one_is_mod]
  omega

theorem exists_byteRate (h : f.check o = .ok ()) :
    ∃ rate, f.byteRate o = .ok rate ∧ rate.toNat = f.sampleRate.toNat * f.storedAlign := by
  obtain ⟨-, -, -, hframe, hrate⟩ := Format.check_eq_ok_iff.mp h
  obtain ⟨align, halign, hword⟩ := Format.exists_blockAlign hframe
  refine ⟨f.sampleRate * align.toUInt32, ?_, ?_⟩
  · rw [Format.byteRate, halign]
    show keep o UInt32.size (f.sampleRate.toNat * align.toNat) _ = _
    rw [hword, keep_of_lt hrate]
  · rw [UInt32.toNat_mul, UInt16.toNat_toUInt32, hword]
    exact Nat.mod_eq_of_lt hrate

/-- Past the checks no field of the header is too large. -/
theorem header_eq {size : UInt32} (hf : f.check o = .ok ()) (hs : f.dataSize o frames = .ok size) :
    header o f size = .ok (fields f (f.storedSize frames)) := by
  obtain ⟨-, -, -, hframe, -⟩ := Format.check_eq_ok_iff.mp hf
  obtain ⟨-, hle, hsize⟩ := Format.dataSize_eq_ok_iff.mp hs
  rw [← hsize] at hle ⊢
  obtain ⟨hremaining, hword⟩ := @toNat_remaining o size hle
  obtain ⟨rate, hrate, hrateWord⟩ := exists_byteRate hf
  obtain ⟨align, halign, halignWord⟩ := Format.exists_blockAlign hframe
  rw [header, hremaining, hrate, halign]
  show Except.ok _ = _
  rw [hword, hrateWord, halignWord]
  rfl

end ToneScore.Wave
