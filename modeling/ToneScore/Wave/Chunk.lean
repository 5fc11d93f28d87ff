import ToneScore.Wave.LowBytes

/-!
# Chunks of a wave file

After the twelve bytes of its descriptor a wave file is a sequence of chunks: a name of four
bytes, the size of the body in four bytes, the body, and a padding byte if the size is odd. The
payload is the body of the first chunk named `data`.
-/

namespace ToneScore.Wave

/-- The body of the first `data` chunk in a sequence of chunks. -/
def payloadOf : List UInt8 → Option (List UInt8)
  | n₀ :: n₁ :: n₂ :: n₃ :: s₀ :: s₁ :: s₂ :: s₃ :: rest =>
    let size := ofLowBytes [s₀, s₁, s₂, s₃]
    if [n₀, n₁, n₂, n₃] = [0x64, 0x61, 0x74, 0x61] then
      if size ≤ rest.length then some (rest.take size) else none
    else payloadOf (rest.drop (size + size % 2))
  | _ => none
  termination_by bytes => bytes.length
  decreasing_by
    simp only [List.length_drop, List.length_cons]
    omega

def payload? : List UInt8 → Option (List UInt8)
  | 0x52 :: 0x49 :: 0x46 :: 0x46 :: _ :: _ :: _ :: _ :: 0x57 :: 0x41 :: 0x56 :: 0x45 :: chunks =>
    payloadOf chunks
  | _ => none

def extract? (file : ByteArray) : Option ByteArray :=
  (payload? file.data.toList).map List.toByteArray

end ToneScore.Wave
