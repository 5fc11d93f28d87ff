import ToneScore.Binary64.Rounding
import ToneScore.Wave.LowBytes

/-!
# Whole-number samples

A sample is scaled so that 1 is one step past the highest code, rounded, and held inside the range
of codes. Codes of 8 bits are stored from 0 up, all others in two's complement, lowest byte first.
-/

namespace ToneScore.Wave

open Binary64

/-- The bits of a code, at least 1 and at most 32. -/
def codeBits (bits : UInt16) : Nat :=
  max 1 (min 32 bits.toNat)

/-- The number of codes on either side of 0. -/
def fullScale (bits : UInt16) : Float :=
  ofCount (Nat.pow 2 (codeBits bits - 1))

/-- The code of a sample; NaN has the code 0. -/
def quantize (sample : Float) (bits : UInt16) : Int :=
  let highest := fullScale bits - 1.0
  let lowest := -fullScale bits
  let code := round (sample * fullScale bits)
  if code.isNaN then 0
  else if code < lowest then toInt lowest
  else if highest < code then toInt highest
  else toInt code

def sampleBytes (sample : Float) (bits : UInt16) : List UInt8 :=
  let code := quantize sample bits
  if bits = 8 then lowBytes 1 (code + 128).toNat
  else lowBytes (bits.toNat / 8) (code % UInt32.size).toNat

@[simp] theorem length_sampleBytes (sample : Float) (bits : UInt16) :
    (sampleBytes sample bits).length = bits.toNat / 8 := by
  simp only [sampleBytes]
  split
  · next h => rw [length_lowBytes, h]; rfl
  · exact length_lowBytes _ _

end ToneScore.Wave
