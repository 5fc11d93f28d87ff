import ToneScore.Proofs.Wave.RoundTrip

/-!
# Encoding what was decoded

Decoding turns the code of the first channel of every frame into the sample that the code is the
scaled value of. A code has at most 32 bits and the scale is a power of two, so this division is
exact (`value_sampleOfCode`), and the product that undoes it is the code again
(`quantize_of_value`). So every code is that of its own sample, the extreme ones included, and a file
that is decoded and encoded again stays as it is (`encode_decoded`).
-/

namespace ToneScore.Wave

open Binary64

/-! ## The sample of a code -/

def sampleOfCode (bits : UInt16) (code : Int) : Float :=
  ofWhole code / fullScale bits

theorem value_sampleOfCode (bits : UInt16) {code : Int} (h : code.natAbs < 2 ^ 53) :
    (sampleOfCode bits code).isFinite = true ∧
      value (sampleOfCode bits code) = code / 2 ^ (codeBits bits - 1) := by
  obtain ⟨hcode, hcodeValue⟩ := value_ofWhole h
  obtain ⟨hscale, hscaleValue⟩ := value_fullScale bits
  have hk := codeBits_sub_one_lt bits
  have hquotient : value (ofWhole code) / value (fullScale bits) =
      code * 2 ^ (-(codeBits bits - 1 : Nat) : ℤ) := by
    rw [hcodeValue, hscaleValue, zpow_neg, zpow_natCast, div_eq_mul_inv]
  have hne : value (fullScale bits) ≠ 0 := by
    rw [hscaleValue]
    positivity
  have hdouble : IsDouble (value (ofWhole code) / value (fullScale bits)) := by
    rw [hquotient]
    exact isDouble_mul_two_zpow h (by omega) (by omega)
  obtain ⟨hfinite, hvalue⟩ := value_div_of_exact hcode hscale hne hdouble
  exact ⟨hfinite, by rw [← hcodeValue, ← hscaleValue]; exact hvalue⟩

/-! ## The code of the sample -/

section
variable {bits : UInt16} {code : Int}

theorem natAbs_code_lt (hl : -2 ^ (codeBits bits - 1) ≤ code)
    (hh : code ≤ 2 ^ (codeBits bits - 1) - 1) : code.natAbs < 2 ^ 53 := by
  have hbounds := two_pow_code_bounds bits
  omega

theorem quantize_of_value {x : Float} (hx : x.isFinite = true)
    (hv : value x = code / 2 ^ (codeBits bits - 1)) (hl : -2 ^ (codeBits bits - 1) ≤ code)
    (hh : code ≤ 2 ^ (codeBits bits - 1) - 1) : quantize x bits = code := by
  have hproduct : value x * 2 ^ (codeBits bits - 1) = code := by
    rw [hv]
    exact div_mul_cancel₀ _ (by positivity)
  rw [quantize_of_isFinite hx, hproduct, nearest_intCast, clamp_of_mem hl hh]

theorem quantize_sampleOfCode (hl : -2 ^ (codeBits bits - 1) ≤ code)
    (hh : code ≤ 2 ^ (codeBits bits - 1) - 1) : quantize (sampleOfCode bits code) bits = code := by
  obtain ⟨hfinite, hvalue⟩ := value_sampleOfCode bits (natAbs_code_lt hl hh)
  exact quantize_of_value hfinite hvalue hl hh

end

/-! ## Whole files -/

/-- The samples of the codes in the first channel. -/
def decode? (f : Format) (file : ByteArray) : Option (Array Float) :=
  (extract? file).map fun bytes =>
    Array.ofFn fun k : Fin (bytes.size / f.frameBytes) =>
      sampleOfCode f.bitsPerSample
        (storedCode f.bitsPerSample (numberAt bytes (k * f.frameBytes) f.width))

variable {o : Overflow} {f : Format} {samples : Array Float}

theorem decode?_of_noWrap {file : ByteArray} (h : encode o f samples = .ok file)
    (hn : f.NoWrap samples.size) :
    decode? f file = some (samples.map fun sample =>
      sampleOfCode f.bitsPerSample (quantize sample f.bitsPerSample)) := by
  obtain ⟨hd, hchannels, -⟩ := Format.check_eq_ok_iff.mp (encode_eq_ok_iff.mp h).1
  have hc := Format.channels_pos_iff.mpr hchannels
  have hframes : (payload f samples).toByteArray.size / f.frameBytes = samples.size := by
    rw [List.size_toByteArray, length_payload]
    exact Nat.mul_div_cancel _ (Format.frameBytes_pos hd hchannels)
  unfold decode?
  rw [extract?_of_noWrap h hn, Option.map_some]
  congr 1
  apply Array.ext
  · rw [Array.size_ofFn, Array.size_map, hframes]
  · intro k hk hk'
    rw [Array.size_map] at hk'
    have hcode := codeAt_payload hd hk' hc
    rw [codeAt, Nat.add_zero, Nat.mul_assoc] at hcode
    rw [Array.getElem_ofFn, Array.getElem_map]
    exact congrArg (sampleOfCode f.bitsPerSample) hcode

/-- A file tells samples apart only by their codes. -/
theorem image_congr {samples' : Array Float} (hsize : samples'.size = samples.size)
    (h : ∀ (k : Nat) (hk : k < samples.size),
      quantize samples'[k] f.bitsPerSample = quantize samples[k] f.bitsPerSample) :
    image f samples' = image f samples := by
  have hframe : ∀ {a b : Float}, quantize a f.bitsPerSample = quantize b f.bitsPerSample →
      sampleBytes a f.bitsPerSample = sampleBytes b f.bitsPerSample := by
    intro a b hcode
    unfold sampleBytes
    rw [hcode]
  have hwords : words f samples' = words f samples := by
    unfold words
    rw [List.flatMap_def, List.flatMap_def]
    congr 1
    apply List.ext_getElem
    · simp [hsize]
    · intro k hk' hk
      simp only [List.length_map, Array.length_toList] at hk
      simp only [List.getElem_map, Array.getElem_toList, hframe (h k hk)]
  unfold image payload
  rw [hwords, hsize]

/--
Decoding a written file gives for every sample the double that is its code divided by the full scale,
exactly, and encoding these gives the file again.
-/
theorem encode_decoded {o : Overflow} {f : Format} {samples : Array Float} {file : ByteArray}
    (h : encode o f samples = .ok file) (hwraps : o = .wraps → f.NoWrap samples.size) :
    ∃ decoded, decode? f file = some decoded ∧ decoded.size = samples.size ∧
      (∀ (k : Nat) (hk : k < samples.size), ∃ x, decoded[k]? = some x ∧ x.isFinite = true ∧
        value x = quantize samples[k] f.bitsPerSample / 2 ^ (f.bitsPerSample.toNat - 1)) ∧
      encode o f decoded = .ok file := by
  refine ⟨_, decode?_of_noWrap h (noWrap_of_encode h hwraps), Array.size_map, fun k hk => ?_, ?_⟩
  · obtain ⟨hdepth, -⟩ := Format.check_eq_ok_iff.mp (encode_eq_ok_iff.mp h).1
    refine ⟨_, Array.getElem?_eq_getElem (by rwa [Array.size_map]), ?_⟩
    obtain ⟨hl, hh⟩ := quantize_mem samples[k] f.bitsPerSample
    rw [Array.getElem_map, ← codeBits_eq hdepth]
    exact value_sampleOfCode _ (natAbs_code_lt hl hh)
  · obtain ⟨hf, ⟨size, hs⟩, rfl⟩ := encode_eq_ok_iff.mp h
    refine encode_eq_ok_iff.mpr ⟨hf, ⟨size, by rwa [Array.size_map]⟩, ?_⟩
    refine congrArg List.toByteArray (image_congr Array.size_map fun k hk => ?_).symm
    obtain ⟨hl, hh⟩ := quantize_mem samples[k] f.bitsPerSample
    rw [Array.getElem_map]
    exact quantize_sampleOfCode hl hh

/-- Three channels of 24 bits, with samples past both ends and one that is no number. -/
theorem encode_decoded_clipped :
    (⟨8000, 3, 24⟩ : Format).NoWrap 3 ∧
      ∃ file decoded, encode .wraps ⟨8000, 3, 24⟩ #[2.0, -2.0, 0.0 / 0.0] = .ok file ∧
        decode? ⟨8000, 3, 24⟩ file = some decoded ∧ decoded.size = 3 ∧
        encode .wraps ⟨8000, 3, 24⟩ decoded = .ok file := by
  have h : encode .wraps ⟨8000, 3, 24⟩ #[2.0, -2.0, 0.0 / 0.0] = .ok _ :=
    encode_eq_ok_iff.mpr ⟨rfl, ⟨27, rfl⟩, rfl⟩
  have hn : (⟨8000, 3, 24⟩ : Format).NoWrap 3 := ⟨by decide, by decide⟩
  obtain ⟨decoded, hdecoded, hsize, -, hagain⟩ := encode_decoded h fun _ => hn
  exact ⟨hn, _, decoded, h, hdecoded, hsize, hagain⟩

end ToneScore.Wave
