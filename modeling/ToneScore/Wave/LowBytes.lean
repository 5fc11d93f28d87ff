/-!
# Numbers as bytes

A number is stored in a fixed number of bytes, the lowest first. What does not fit is dropped.
-/

namespace ToneScore.Wave

/-- The `width` lowest bytes of a number, the lowest first. -/
def lowBytes : Nat → Nat → List UInt8
  | 0, _ => []
  | width + 1, n => UInt8.ofNat (n % 256) :: lowBytes width (n / 256)

def ofLowBytes : List UInt8 → Nat
  | [] => 0
  | b :: bs => b.toNat + 256 * ofLowBytes bs

@[simp] theorem length_lowBytes (width n : Nat) : (lowBytes width n).length = width := by
  induction width generalizing n with
  | zero => rfl
  | succ w ih => simp [lowBytes, ih]

end ToneScore.Wave
