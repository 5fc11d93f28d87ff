import ToneScore.Proofs.Wave.Chunks

/-!
# Walking over chunks by position

`scan` looks for the payload as a reader of a buffer does: it keeps the position of the next chunk,
moves it by the sizes that it reads, and cuts out bytes between two positions. A cut that is not
inside the file and a position far past its end would break the search off. Neither happens, and the
search finds what `extract?` finds (`scan_eq`). A position grows by at least eight bytes in each step,
so the search ends.
-/

namespace ToneScore.Wave

inductive Break where
  /-- The bytes from `start` to `stop` are not all in the file. -/
  | outOfRange (start stop : Nat)
  /-- The position lies further past the end than the size of a chunk can lead. -/
  | overflow (position : Nat)
  deriving DecidableEq, Repr

def cut (file : ByteArray) (start stop : Nat) : Except Break (List UInt8) :=
  if start ≤ stop ∧ stop ≤ file.size then .ok ((file.data.toList.drop start).take (stop - start))
  else .error (.outOfRange start stop)

def scanFrom (file : ByteArray) (position : Nat) : Except Break (Option (List UInt8)) := do
  if h : position + 8 ≤ file.size then
    let name ← cut file position (position + 4)
    let size := ofLowBytes (← cut file (position + 4) (position + 8))
    let body := position + 8
    if name = tag "data" then
      if body + size ≤ file.size then return some (← cut file body (body + size)) else return none
    else if body + size + size % 2 ≤ file.size + 2 ^ 32 then scanFrom file (body + size + size % 2)
    else throw (.overflow (body + size + size % 2))
  else return none
  termination_by file.size - position

def scan (file : ByteArray) : Except Break (Option (List UInt8)) := do
  if file.size < 12 then return none
  else
    let riff ← cut file 0 4
    let wave ← cut file 8 12
    if riff = tag "RIFF" ∧ wave = tag "WAVE" then scanFrom file 12 else return none

/-! ## Cuts inside the file -/

theorem length_toList (file : ByteArray) : file.data.toList.length = file.size := Array.length_toList

theorem cut_eq {file : ByteArray} {position count : Nat} (h : position + count ≤ file.size) :
    cut file position (position + count) = .ok ((file.data.toList.drop position).take count) := by
  unfold cut
  rw [if_pos ⟨Nat.le_add_right position count, h⟩, Nat.add_sub_cancel_left]

/-! ## The search -/

/-- From every position on, the chunks that the search looks at are those behind the position. -/
theorem scanFrom_eq (file : ByteArray) (position : Nat) :
    scanFrom file position = .ok (payloadOf (file.data.toList.drop position)) := by
  induction hn : file.size - position using Nat.strongRecOn generalizing position with
  | ind n ih =>
    have hlength : (file.data.toList.drop position).length = file.size - position := by
      rw [List.length_drop, length_toList]
    have hbody : (file.data.toList.drop (position + 8)).length = file.size - (position + 8) := by
      rw [List.length_drop, length_toList]
    rw [scanFrom]
    split
    · next h =>
      have hhead := @eq_head_append (file.data.toList.drop position) (by omega)
      rw [List.drop_drop, List.drop_drop] at hhead
      have hname : ((file.data.toList.drop position).take 4).length = 4 :=
        length_take_drop (by rw [length_toList]; omega)
      have hsize := ofLowBytes_take_lt 4 (file.data.toList.drop (position + 4))
      rw [cut_eq (by omega), show position + 8 = position + 4 + 4 from rfl, cut_eq (by omega)]
      simp only [bind, Except.bind]
      generalize (file.data.toList.drop position).take 4 = name at *
      generalize ofLowBytes ((file.data.toList.drop (position + 4)).take 4) = size at *
      rw [hhead, payloadOf_chunk hname hsize]
      split
      · next hdata =>
        by_cases hfit : position + 4 + 4 + size ≤ file.size
        · rw [if_pos hfit, cut_eq hfit, if_pos (by omega)]
          rfl
        · rw [if_neg hfit, if_neg (by omega)]
          rfl
      · next hother =>
        have hnext : position + 4 + 4 + size + size % 2 = position + 8 + (size + size % 2) := by
          omega
        rw [if_pos (by omega), ih _ (by omega) _ rfl, List.drop_drop, hnext]
    · next h =>
      rw [payloadOf_of_length_lt (by omega)]
      rfl

theorem scan_eq (file : ByteArray) : scan file = .ok (payload? file.data.toList) := by
  have hlength := length_toList file
  unfold scan
  split
  · next h =>
    rw [payload?_of_length_lt (by omega)]
    rfl
  · next h =>
    have hriff : (file.data.toList.take 4).length = 4 := List.length_take_of_le (by omega)
    have hfield : ((file.data.toList.drop 4).take 4).length = 4 := length_take_drop (by omega)
    have hwave : ((file.data.toList.drop 8).take 4).length = 4 := length_take_drop (by omega)
    have hcut : cut file 0 4 = .ok (file.data.toList.take 4) := @cut_eq file 0 4 (by omega)
    have hcut' : cut file 8 12 = .ok ((file.data.toList.drop 8).take 4) := @cut_eq file 8 4 (by omega)
    rw [eq_descriptor_append file.data.toList, payload?_append hriff hfield hwave, hcut, hcut']
    simp only [bind, Except.bind, scanFrom_eq]
    split <;> rfl

end ToneScore.Wave
