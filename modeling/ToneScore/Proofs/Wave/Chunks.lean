import ToneScore.Proofs.Wave.Pieces
import ToneScore.Proofs.Wave.Words
import ToneScore.Wave.Chunk

/-!
# Walking over chunks

One lemma for the descriptor in front of the chunks (`payload?_append`) and one for a chunk
(`payloadOf_chunk`). What is too short for either has no payload, and anything else can be taken
apart into the pieces that these lemmas speak of. A written header is a descriptor, a whole chunk and
the head of the `data` chunk, so that the payload is what stands behind it (`payload?_fields`).
-/

namespace ToneScore.Wave

theorem exists_of_length_four {bytes : List UInt8} (h : bytes.length = 4) :
    ∃ b₀ b₁ b₂ b₃, bytes = [b₀, b₁, b₂, b₃] := by
  match bytes, h with
  | [b₀, b₁, b₂, b₃], _ => exact ⟨b₀, b₁, b₂, b₃, rfl⟩

theorem payload?_descriptor {field : List UInt8} (h : field.length = 4) (chunks : List UInt8) :
    payload? (tag "RIFF" ++ (field ++ (tag "WAVE" ++ chunks))) = payloadOf chunks := by
  obtain ⟨b₀, b₁, b₂, b₃, rfl⟩ := exists_of_length_four h
  rfl

theorem payloadOf_chunk {name : List UInt8} {size : Nat} (hname : name.length = 4)
    (hsize : size < 256 ^ 4) (rest : List UInt8) :
    payloadOf (name ++ (lowBytes 4 size ++ rest)) =
      if name = tag "data" then if size ≤ rest.length then some (rest.take size) else none
      else payloadOf (rest.drop (size + size % 2)) := by
  obtain ⟨n₀, n₁, n₂, n₃, rfl⟩ := exists_of_length_four hname
  obtain ⟨s₀, s₁, s₂, s₃, hs⟩ := exists_of_length_four (length_lowBytes 4 size)
  have hread : ofLowBytes [s₀, s₁, s₂, s₃] = size := by
    rw [← hs, ofLowBytes_lowBytes_of_lt hsize]
  rw [hs]
  show payloadOf (n₀ :: n₁ :: n₂ :: n₃ :: s₀ :: s₁ :: s₂ :: s₃ :: rest) = _
  rw [payloadOf, hread]
  rfl

/-! ## Files of any content -/

theorem length_take_drop {bytes : List UInt8} {start count : Nat} (h : start + count ≤ bytes.length) :
    ((bytes.drop start).take count).length = count :=
  List.length_take_of_le (by rw [List.length_drop]; omega)

/-- The name of a chunk, the size of its body, and what stands behind the size. -/
theorem eq_head_append {bytes : List UInt8} (h : 8 ≤ bytes.length) :
    bytes = bytes.take 4 ++
      (lowBytes 4 (ofLowBytes ((bytes.drop 4).take 4)) ++ bytes.drop 8) := by
  have hnumber := lowBytes_ofLowBytes ((bytes.drop 4).take 4)
  rw [length_take_drop h] at hnumber
  rw [hnumber, ← List.drop_drop (i := 4) (j := 4), List.take_append_drop, List.take_append_drop]

theorem payloadOf_of_length_lt {bytes : List UInt8} (h : bytes.length < 8) :
    payloadOf bytes = none := by
  unfold payloadOf
  split
  · simp only [List.length_cons] at h
    omega
  · rfl

theorem payload?_of_length_lt {bytes : List UInt8} (h : bytes.length < 12) :
    payload? bytes = none := by
  unfold payload?
  split
  · simp only [List.length_cons] at h
    omega
  · rfl

/-- The two tags of a descriptor, the field between them, and what stands behind it. -/
theorem eq_descriptor_append (bytes : List UInt8) :
    bytes = bytes.take 4 ++
      ((bytes.drop 4).take 4 ++ ((bytes.drop 8).take 4 ++ bytes.drop 12)) := by
  rw [← List.drop_drop (i := 4) (j := 8), List.take_append_drop, ← List.drop_drop (i := 4) (j := 4),
    List.take_append_drop, List.take_append_drop]

theorem payload?_append {riff field wave : List UInt8} (hriff : riff.length = 4)
    (hfield : field.length = 4) (hwave : wave.length = 4) (chunks : List UInt8) :
    payload? (riff ++ (field ++ (wave ++ chunks))) =
      if riff = tag "RIFF" ∧ wave = tag "WAVE" then payloadOf chunks else none := by
  split
  · next h =>
    rw [h.1, h.2, payload?_descriptor hfield]
  · next h =>
    obtain ⟨r₀, r₁, r₂, r₃, rfl⟩ := exists_of_length_four hriff
    obtain ⟨f₀, f₁, f₂, f₃, rfl⟩ := exists_of_length_four hfield
    obtain ⟨w₀, w₁, w₂, w₃, rfl⟩ := exists_of_length_four hwave
    show payload? (r₀ :: r₁ :: r₂ :: r₃ :: f₀ :: f₁ :: f₂ :: f₃ :: w₀ :: w₁ :: w₂ :: w₃ :: chunks) = _
    unfold payload?
    split
    · next heq =>
      simp only [List.cons.injEq] at heq
      obtain ⟨rfl, rfl, rfl, rfl, -, -, -, -, rfl, rfl, rfl, rfl, -⟩ := heq
      exact absurd ⟨rfl, rfl⟩ h
    · rfl

/-! ## Written files -/

/-- Behind a written header the payload is all that the header announces. -/
theorem payload?_fields (f : Format) {size : Nat} (hsize : size < 256 ^ 4) (rest : List UInt8) :
    payload? ((fields f size).flatten ++ rest) =
      if size ≤ rest.length then some (rest.take size) else none := by
  unfold fields
  simp only [List.flatten_cons, List.flatten_nil, List.append_assoc, List.nil_append]
  rw [payload?_descriptor (length_lowBytes 4 _), payloadOf_chunk rfl (by decide),
    if_neg (by decide)]
  show payloadOf (tag "data" ++ (lowBytes 4 size ++ rest)) = _
  rw [payloadOf_chunk rfl hsize, if_pos rfl]

end ToneScore.Wave
