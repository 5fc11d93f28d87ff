import ToneScore.Storage.Sink

/-!
# Sinks with a limit

A sink may take as little as one byte of those at hand, and runs full after some number of bytes in
all (`Fills`). However it splits what is sent to it, the first bytes reach it up to that number, and
it refuses exactly if there are more (`delivered_offer`). `bounded` is such a sink, one that takes
as much as it can (`limited_bounded`).
-/

namespace ToneScore.Storage.Sink

variable {σ ε : Type}

/-- From this state on the sink takes `room` bytes in all, at least one whenever it is offered any. -/
inductive Fills (sink : Sink σ) : σ → Nat → Prop where
  | full {s : σ} (h : ∀ bytes, bytes ≠ [] → (sink.accept s bytes).1 = 0) : Fills sink s 0
  | takes {s : σ} {room : Nat}
      (pos : ∀ bytes, bytes ≠ [] → 0 < (sink.accept s bytes).1)
      (le_length : ∀ bytes, bytes ≠ [] → (sink.accept s bytes).1 ≤ bytes.length)
      (le_room : ∀ bytes, bytes ≠ [] → (sink.accept s bytes).1 ≤ room)
      (next : ∀ bytes, bytes ≠ [] →
        Fills sink (sink.accept s bytes).2 (room - (sink.accept s bytes).1)) :
      Fills sink s room

/-- The sink has no byte at the start and takes `room` bytes in all; `received` is what it has. -/
structure Limited (sink : Sink σ) (received : σ → List UInt8) (start : σ) (room : Nat) : Prop where
  records : ∀ s bytes,
    received (sink.accept s bytes).2 = received s ++ bytes.take (sink.accept s bytes).1
  empty : received start = []
  fills : sink.Fills start room

/-- What becomes of `bytes` in a sink that takes `room` more, and fails with `full` past that. -/
structure Delivered (sink : Sink σ) (received : σ → List UInt8) (full : ε) (s : σ) (room : Nat)
    (bytes : List UInt8) (result : Except ε Unit × σ) : Prop where
  outcome : result.1 = if bytes.length ≤ room then .ok () else .error full
  received : received result.2 = received s ++ bytes.take room
  fills : bytes.length ≤ room → sink.Fills result.2 (room - bytes.length)

variable {sink : Sink σ} {received : σ → List UInt8} {full : ε} {s : σ} {room : Nat}

theorem delivered_nil (hs : sink.Fills s room) :
    Delivered sink received full s room [] (.ok (), s) where
  outcome := (if_pos (Nat.zero_le room)).symm
  received := by rw [List.take_nil, List.append_nil]
  fills _ := hs

@[simp] theorem offer_nil (sink : Sink σ) (s : σ) : sink.offer s [] = (.ok (), s) := by
  rw [offer, if_pos rfl]

theorem offer_eq (sink : Sink σ) (s : σ) {bytes : List UInt8} (hbytes : bytes ≠ []) :
    sink.offer s bytes =
      if (sink.accept s bytes).1 = 0 then (.error .full, (sink.accept s bytes).2)
      else sink.offer (sink.accept s bytes).2 (bytes.drop (sink.accept s bytes).1) := by
  rw [offer, if_neg hbytes]

/-- A run of bytes gets as far as the limit allows, in however many parts the sink takes it. -/
theorem delivered_offer
    (hr : ∀ s bytes,
      received (sink.accept s bytes).2 = received s ++ bytes.take (sink.accept s bytes).1)
    (hs : sink.Fills s room) (bytes : List UInt8) :
    Delivered sink received .full s room bytes (sink.offer s bytes) := by
  induction hs generalizing bytes with
  | @full s h =>
    by_cases hbytes : bytes = []
    · rw [hbytes, offer_nil]
      exact delivered_nil (.full h)
    have hlen : ¬ bytes.length ≤ 0 := by
      rw [Nat.le_zero, List.length_eq_zero_iff]
      exact hbytes
    rw [offer_eq sink s hbytes, if_pos (h bytes hbytes)]
    refine ⟨(if_neg hlen).symm, ?_, fun hle => absurd hle hlen⟩
    rw [hr, h bytes hbytes]
  | @takes s room hpos hlength hroom hnext ih =>
    by_cases hbytes : bytes = []
    · rw [hbytes, offer_nil]
      exact delivered_nil (.takes hpos hlength hroom hnext)
    have htaken := hpos bytes hbytes
    have hle := hlength bytes hbytes
    have hfit := hroom bytes hbytes
    have hrec := hr s bytes
    rw [offer_eq sink s hbytes, if_neg (Nat.ne_of_gt htaken)]
    obtain ⟨houtcome, hreceived, hfills⟩ :=
      ih bytes hbytes (bytes.drop (sink.accept s bytes).1)
    generalize sink.accept s bytes = taken at *
    have hrest : (bytes.drop taken.1).length ≤ room - taken.1 ↔ bytes.length ≤ room := by
      rw [List.length_drop]
      omega
    refine ⟨?_, ?_, fun h => ?_⟩
    · rw [houtcome]
      simp only [hrest]
    · have hsplit : bytes.take room =
          bytes.take taken.1 ++ (bytes.drop taken.1).take (room - taken.1) := by
        rw [← List.take_add, Nat.add_sub_cancel' hfit]
      rw [hreceived, hrec, List.append_assoc, hsplit]
    · have hleft : room - taken.1 - (bytes.drop taken.1).length = room - bytes.length := by
        rw [List.length_drop]
        omega
      rw [← hleft]
      exact hfills (hrest.mpr h)

/-! ## The sink with room for a number of bytes -/

theorem fills_bounded (s : Bounded) : bounded.Fills s s.room := by
  obtain ⟨room, received⟩ := s
  induction room using Nat.strongRecOn generalizing received with
  | ind room ih =>
    rcases Nat.eq_zero_or_pos room with rfl | hroom
    · exact .full fun bytes _ => rfl
    have htaken : ∀ bytes : List UInt8,
        (bounded.accept ⟨room, received⟩ bytes).1 = min room bytes.length := fun bytes =>
      List.length_take
    have hpos : ∀ bytes : List UInt8, bytes ≠ [] → 0 < min room bytes.length := fun bytes h =>
      Nat.lt_min.mpr ⟨hroom, List.length_pos_iff.mpr h⟩
    refine .takes ?_ ?_ ?_ ?_
    · intro bytes h
      rw [htaken]
      exact hpos bytes h
    · intro bytes _
      rw [htaken]
      exact Nat.min_le_right _ _
    · intro bytes _
      rw [htaken]
      exact Nat.min_le_left _ _
    · intro bytes h
      have hlt : room - (bytes.take room).length < room := by
        rw [List.length_take]
        have := hpos bytes h
        omega
      exact ih _ hlt _

theorem limited_bounded (room : Nat) :
    bounded.Limited (fun s => s.received.data.toList) ⟨room, .empty⟩ room where
  records s bytes := by
    show (extend s.received (bytes.take s.room)).data.toList = _
    rw [toList_extend]
    show _ = s.received.data.toList ++ bytes.take (bytes.take s.room).length
    rw [List.length_take, ← List.take_eq_take_min]
  empty := rfl
  fills := fills_bounded ⟨room, .empty⟩

end ToneScore.Storage.Sink
