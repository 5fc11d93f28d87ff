import ToneScore.Proofs.Wave.Chunks
import ToneScore.Proofs.Wave.Codes
import ToneScore.Proofs.Wave.Image

/-!
# Decoding undoes encoding

The payload of a written file is `payload`, without the padding byte (`extract?_of_noWrap`), or the
front of it, if the size has wrapped (`extract?_image`). The code of every frame stands in the file
once for each channel, at the place that the frame and the channel give (`numberAt_words`).
-/

namespace ToneScore.Wave

variable {o : Overflow} {f : Format} {samples : Array Float} {file : ByteArray} {k c : Nat}

theorem extract?_image (hsize : f.storedSize samples.size < 256 ^ 4) :
    extract? (image f samples).toByteArray =
      some ((payload f samples).take (f.storedSize samples.size)).toByteArray := by
  have hle : f.storedSize samples.size ≤ (payload f samples).length := by
    rw [length_payload]
    exact f.storedSize_le samples.size
  have hall : f.storedSize samples.size ≤ (payload f samples ++
      List.replicate (Format.padding (f.storedSize samples.size)) 0).length := by
    rw [List.length_append]
    omega
  unfold extract? image
  rw [List.toList_data_toByteArray, List.append_assoc, payload?_fields f hsize, if_pos hall,
    List.take_append_of_le_length hle]
  rfl

theorem storedSize_lt_of_encode (h : encode o f samples = .ok file) :
    f.storedSize samples.size < 256 ^ 4 := by
  obtain ⟨-, ⟨size, hs⟩, -⟩ := encode_eq_ok_iff.mp h
  exact Nat.lt_of_le_of_lt (Format.dataSize_eq_ok_iff.mp hs).2.1 (by decide)

theorem noWrap_of_encode (h : encode o f samples = .ok file)
    (hwraps : o = .wraps → f.NoWrap samples.size) : f.NoWrap samples.size := by
  obtain ⟨-, ⟨size, hs⟩, -⟩ := encode_eq_ok_iff.mp h
  exact Format.noWrap_of_dataSize hs hwraps

theorem extract?_of_noWrap (h : encode o f samples = .ok file) (hn : f.NoWrap samples.size) :
    extract? file = some (payload f samples).toByteArray := by
  rw [(encode_eq_ok_iff.mp h).2.2, extract?_image (storedSize_lt_of_encode h),
    Format.storedSize_eq hn, ← length_payload, List.take_length]

/-! ## Codes at their places -/

/-- The words of a frame follow those of the frames before it. -/
theorem getElem?_words (hk : k < samples.size) (hc : c < f.channels.toNat) :
    (words f samples)[k * f.channels.toNat + c]? =
      some (sampleBytes samples[k] f.bitsPerSample) := by
  have hsample : samples.toList[k]? = some samples[k] := by
    rw [Array.getElem?_toList, Array.getElem?_eq_getElem hk]
  unfold words
  rw [List.flatMap_def]
  generalize hframes : samples.toList.map _ = frames
  have hframe : frames[k]? =
      some (List.replicate f.channels.toNat (sampleBytes samples[k] f.bitsPerSample)) := by
    rw [← hframes, List.getElem?_map, hsample]
    rfl
  have hlen : ∀ frame ∈ frames, frame.length = f.channels.toNat := by
    intro frame hmem
    rw [← hframes] at hmem
    obtain ⟨sample, -, rfl⟩ := List.mem_map.mp hmem
    exact List.length_replicate
  obtain ⟨hlt, -⟩ := List.getElem?_eq_some_iff.mp hframe
  have h := take_drop_flatten hframe
  rw [length_flatten_take hlen hlt, List.length_replicate] at h
  rw [← List.getElem?_drop, ← List.getElem?_take_of_lt hc, h, List.getElem?_replicate, if_pos hc]

/-- What stands behind the samples does not move them. -/
theorem numberAt_words (hk : k < samples.size) (hc : c < f.channels.toNat)
    (rest : List (List UInt8)) :
    numberAt (words f samples ++ rest).flatten.toByteArray
      ((k * f.channels.toNat + c) * f.width) f.width =
      ofLowBytes (sampleBytes samples[k] f.bitsPerSample) := by
  have hword := getElem?_words hk hc
  obtain ⟨hlt, -⟩ := List.getElem?_eq_some_iff.mp hword
  have h := numberAt_flatten ((List.getElem?_append_left hlt : (_ ++ rest)[_]? = _).trans hword)
  rw [List.take_append_of_le_length (Nat.le_of_lt hlt),
    length_flatten_take (fun _ => length_of_mem_words) hlt, length_sampleBytes] at h
  exact h

def codeAt (f : Format) (bytes : ByteArray) (frame channel : Nat) : Int :=
  storedCode f.bitsPerSample
    (numberAt bytes ((frame * f.channels.toNat + channel) * f.width) f.width)

theorem codeAt_words (hd : f.bitsPerSample ∈ [8, 16, 24, 32]) (hk : k < samples.size)
    (hc : c < f.channels.toNat) (rest : List (List UInt8)) :
    codeAt f (words f samples ++ rest).flatten.toByteArray k c =
      quantize samples[k] f.bitsPerSample := by
  rw [codeAt, numberAt_words hk hc, storedCode_sampleBytes hd]

theorem codeAt_payload (hd : f.bitsPerSample ∈ [8, 16, 24, 32]) (hk : k < samples.size)
    (hc : c < f.channels.toNat) :
    codeAt f (payload f samples).toByteArray k c = quantize samples[k] f.bitsPerSample := by
  have h := codeAt_words hd hk hc []
  rwa [List.append_nil] at h

/-- Behind the header stands the code of each sample, whatever the header says. -/
theorem codeAt_behind_header (h : encode o f samples = .ok file) (hk : k < samples.size)
    (hc : c < f.channels.toNat) :
    codeAt f (file.extract 44 file.size) k c = quantize samples[k] f.bitsPerSample := by
  obtain ⟨hf, -, rfl⟩ := encode_eq_ok_iff.mp h
  obtain ⟨hd, -⟩ := Format.check_eq_ok_iff.mp hf
  have hbehind : (image f samples).toByteArray.extract 44 (image f samples).toByteArray.size =
      (words f samples ++
        List.replicate (Format.padding (f.storedSize samples.size)) [0]).flatten.toByteArray := by
    refine ByteArray.ext (Array.toList_inj.mp ?_)
    have hdrop : (image f samples).drop 44 = (words f samples ++
        List.replicate (Format.padding (f.storedSize samples.size)) [0]).flatten := by
      rw [image, List.append_assoc, List.drop_left' (length_fields f _), payload, List.flatten_append,
        List.flatten_replicate_singleton]
    rw [← hdrop]
    simp
  rw [hbehind, codeAt_words hd hk hc]

/--
The payload of a written file has the bytes of its samples and no other, and at the place of every
channel of every frame it has the code of the sample of that frame.
-/
theorem extract?_encode {o : Overflow} {f : Format} {samples : Array Float} {size : UInt32}
    (hf : f.check o = .ok ()) (hs : f.dataSize o samples.size = .ok size)
    (hwraps : o = .wraps → f.NoWrap samples.size) :
    ∃ file bytes, encode o f samples = .ok file ∧ extract? file = some bytes ∧
      bytes.size = samples.size * f.channels.toNat * (f.bitsPerSample.toNat / 8) ∧
      ∀ (k : Nat) (hk : k < samples.size) (c : Nat), c < f.channels.toNat →
        storedCode f.bitsPerSample
          (numberAt bytes ((k * f.channels.toNat + c) * (f.bitsPerSample.toNat / 8))
            (f.bitsPerSample.toNat / 8)) =
          quantize samples[k] f.bitsPerSample := by
  obtain ⟨hd, -⟩ := Format.check_eq_ok_iff.mp hf
  have hfile : encode o f samples = .ok _ := encode_eq_ok_iff.mpr ⟨hf, ⟨size, hs⟩, rfl⟩
  refine ⟨_, _, hfile, extract?_of_noWrap hfile (Format.noWrap_of_dataSize hs hwraps), ?_, ?_⟩
  · rw [List.size_toByteArray, length_payload, Nat.mul_assoc]
    rfl
  · intro k hk c hc
    exact codeAt_payload hd hk hc

/-- Three channels of 24 bits: the frame has nine bytes, so the file is padded. -/
theorem extract?_encode_padded :
    (⟨8000, 3, 24⟩ : Format).check .wraps = .ok () ∧
      (⟨8000, 3, 24⟩ : Format).dataSize .wraps 1 = .ok 9 ∧ (⟨8000, 3, 24⟩ : Format).NoWrap 1 ∧
      ∃ file bytes, encode .wraps ⟨8000, 3, 24⟩ #[0.5] = .ok file ∧ extract? file = some bytes ∧
        bytes.size = 9 ∧ storedCode 24 (numberAt bytes 6 3) = quantize 0.5 24 := by
  have hf : (⟨8000, 3, 24⟩ : Format).check .wraps = .ok () := rfl
  have hs : (⟨8000, 3, 24⟩ : Format).dataSize .wraps 1 = .ok 9 := rfl
  have hn : (⟨8000, 3, 24⟩ : Format).NoWrap 1 := ⟨by decide, by decide⟩
  obtain ⟨file, bytes, hfile, hbytes, hsize, hcode⟩ := @extract?_encode _ _ #[0.5] _ hf hs fun _ => hn
  exact ⟨hf, hs, hn, file, bytes, hfile, hbytes, hsize, hcode 0 (by decide) 2 (by decide)⟩

end ToneScore.Wave
