import Mathlib.Algebra.Group.Nat.Defs
import ToneScore.Wave.LowBytes

/-!
# Bytes in pieces

Bytes that are written piece by piece are read back at the place of a piece. What stands in front
of it counts (`take_drop_flatten`), or only its number if all pieces are of one length
(`length_flatten_take`). `numberAt` reads the number that is stored at a place.
-/

namespace ToneScore.Wave

theorem ofLowBytes_lowBytes (width n : Nat) :
    ofLowBytes (lowBytes width n) = n % 256 ^ width := by
  induction width generalizing n with
  | zero => simp [lowBytes, ofLowBytes, Nat.mod_one]
  | succ w ih =>
    have hn : n % 256 < 256 := Nat.mod_lt n (by decide)
    rw [lowBytes, ofLowBytes, ih, UInt8.toNat_ofNat_of_lt' hn, Nat.pow_succ', Nat.mod_mul]

theorem ofLowBytes_lowBytes_of_lt {width n : Nat} (h : n < 256 ^ width) :
    ofLowBytes (lowBytes width n) = n := by
  rw [ofLowBytes_lowBytes, Nat.mod_eq_of_lt h]

theorem ofLowBytes_lt (bytes : List UInt8) : ofLowBytes bytes < 256 ^ bytes.length := by
  induction bytes with
  | nil => decide
  | cons b rest ih =>
    have hb := b.toNat_lt
    rw [ofLowBytes, List.length_cons, Nat.pow_succ]
    omega

theorem ofLowBytes_take_lt (width : Nat) (bytes : List UInt8) :
    ofLowBytes (bytes.take width) < 256 ^ width :=
  Nat.lt_of_lt_of_le (ofLowBytes_lt _)
    (Nat.pow_le_pow_right (by decide) (List.length_take_le width bytes))

theorem lowBytes_ofLowBytes (bytes : List UInt8) :
    lowBytes bytes.length (ofLowBytes bytes) = bytes := by
  induction bytes with
  | nil => rfl
  | cons b rest ih =>
    have hb := b.toNat_lt
    have hmod : (b.toNat + 256 * ofLowBytes rest) % 256 = b.toNat := by omega
    have hdiv : (b.toNat + 256 * ofLowBytes rest) / 256 = ofLowBytes rest := by omega
    rw [ofLowBytes, List.length_cons, lowBytes, hmod, hdiv, UInt8.ofNat_toNat, ih]

/-! ## The place of a piece -/

/-- A piece stands behind the bytes of the pieces in front of it. -/
theorem take_drop_flatten {α : Type} {pieces : List (List α)} {i : Nat} {piece : List α}
    (h : pieces[i]? = some piece) :
    (pieces.flatten.drop (pieces.take i).flatten.length).take piece.length = piece := by
  obtain ⟨hi, rfl⟩ := List.getElem?_eq_some_iff.mp h
  have hsplit : pieces.flatten =
      (pieces.take i).flatten ++ (pieces[i] ++ (pieces.drop (i + 1)).flatten) := by
    rw [← List.flatten_cons, ← List.drop_eq_getElem_cons hi, ← List.flatten_append,
      List.take_append_drop]
  rw [hsplit, List.drop_left, List.take_left]

theorem length_flatten_of_forall {α : Type} {pieces : List (List α)} {n : Nat}
    (h : ∀ piece ∈ pieces, piece.length = n) : pieces.flatten.length = pieces.length * n := by
  rw [List.length_flatten, List.map_congr_left h, List.map_const', List.sum_replicate_nat]

theorem length_flatten_take {α : Type} {pieces : List (List α)} {n i : Nat}
    (h : ∀ piece ∈ pieces, piece.length = n) (hi : i < pieces.length) :
    (pieces.take i).flatten.length = i * n := by
  rw [length_flatten_of_forall fun piece hp => h piece (List.mem_of_mem_take hp),
    List.length_take_of_le (Nat.le_of_lt hi)]

/-! ## Numbers at a place -/

/-- The number stored in `width` bytes, from `offset` on. -/
def numberAt (bytes : ByteArray) (offset width : Nat) : Nat :=
  ofLowBytes ((bytes.data.toList.drop offset).take width)

theorem numberAt_flatten {pieces : List (List UInt8)} {i : Nat} {piece : List UInt8}
    (h : pieces[i]? = some piece) :
    numberAt pieces.flatten.toByteArray (pieces.take i).flatten.length piece.length =
      ofLowBytes piece := by
  rw [numberAt, List.toList_data_toByteArray, take_drop_flatten h]

end ToneScore.Wave
