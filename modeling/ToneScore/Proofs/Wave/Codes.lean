import ToneScore.Proofs.Wave.Clamping
import ToneScore.Proofs.Wave.Pieces

/-!
# Stored codes

A code lies in the range of its depth (`quantize_mem`), so the bytes that store it drop nothing, and
`storedCode` reads it back from them (`storedCode_sampleBytes`).
-/

namespace ToneScore.Wave

/-- The code that a stored number stands for: from 0 up for 8 bits, else in two's complement. -/
def storedCode (bits : UInt16) (n : Nat) : Int :=
  if bits = 8 then n - 128 else (BitVec.ofNat bits.toNat n).toInt

theorem toInt_ofNat_lowBytes {width : Nat} {code : Int} (hpos : 0 < width) (hle : width ≤ 4)
    (hl : -2 ^ (8 * width - 1) ≤ code) (hh : code ≤ 2 ^ (8 * width - 1) - 1) :
    (BitVec.ofNat (8 * width) (ofLowBytes (lowBytes width (code % UInt32.size).toNat))).toInt =
      code := by
  have hdvd : ((2 ^ (8 * width) : Nat) : Int) ∣ UInt32.size := by
    show ((2 ^ (8 * width) : Nat) : Int) ∣ (2 ^ 32 : Nat)
    exact_mod_cast Nat.pow_dvd_pow 2 (by omega)
  have hpow : (2 : Int) ^ (8 * width) = 2 * 2 ^ (8 * width - 1) := by
    rw [← pow_succ', Nat.sub_add_cancel (by omega)]
  have hmod : 0 ≤ code % UInt32.size := Int.emod_nonneg _ (by decide)
  rw [ofLowBytes_lowBytes, BitVec.toInt_ofNat', show 256 = 2 ^ 8 from rfl, ← Nat.pow_mul,
    Int.natCast_emod, Int.toNat_of_nonneg hmod, Int.emod_emod_of_dvd _ hdvd, Int.emod_bmod]
  apply Int.bmod_eq_of_le_mul_two
  · push_cast
    omega
  · push_cast
    omega

theorem storedCode_sampleBytes {bits : UInt16} (h : bits ∈ [8, 16, 24, 32]) (sample : Float) :
    storedCode bits (ofLowBytes (sampleBytes sample bits)) = quantize sample bits := by
  obtain ⟨width, hpos, hle, hbits⟩ := Format.bits_eq_mul h
  obtain ⟨hl, hh⟩ := quantize_mem sample bits
  rw [codeBits_eq h, hbits] at hl hh
  unfold storedCode sampleBytes
  by_cases h8 : bits = 8
  · have hwidth : width = 1 := by
      rw [h8] at hbits
      have : 8 = 8 * width := hbits
      omega
    rw [hwidth] at hl hh
    rw [if_pos h8, if_pos h8, ofLowBytes_lowBytes_of_lt (by omega)]
    omega
  · rw [if_neg h8, if_neg h8, hbits, Nat.mul_div_cancel_left _ (by decide)]
    exact toInt_ofNat_lowBytes hpos hle hl hh

end ToneScore.Wave
