import ToneScore.Proofs.Storage.Folder
import ToneScore.Proofs.Storage.Sink
import ToneScore.Storage.Stream

/-!
# Sinks that never run full

An endless sink takes some of the bytes it is offered, perhaps only the first, and what it has taken
is described by a relation to its state (`Endless`). Whatever is sent to it arrives whole and in
order (`exists_offer`). Memory is such a sink, and so is a file: the relation then says besides that
nothing else in the folder changes (`endless_file`). A buffer loses nothing on the way: with an
endless sink behind it, the bytes in the sink and those still held make up what was sent
(`endless_buffered`), and after a flush the sink has them all (`exists_flush`).
-/

namespace ToneScore.Storage

/-- Offered bytes, the sink takes some of them. `Holds` says what a state has taken in all. -/
structure Sink.Endless {σ : Type} (sink : Sink σ) (Holds : σ → List UInt8 → Prop) : Prop where
  pos : ∀ {s content bytes}, Holds s content → bytes ≠ [] → 0 < (sink.accept s bytes).1
  holds : ∀ {s content bytes}, Holds s content → bytes ≠ [] →
    Holds (sink.accept s bytes).2 (content ++ bytes.take (sink.accept s bytes).1)

/-- A sink and the buffer in front of it: what has been sent on comes first. -/
def Buffered.Holds {σ : Type} (Holds : σ → List UInt8 → Prop) (s : Buffered σ)
    (content : List UInt8) : Prop :=
  ∃ sent, Holds s.behind sent ∧ content = sent ++ s.held.data.toList

namespace Sink

variable {σ : Type} {sink : Sink σ} {Holds : σ → List UInt8 → Prop} {s t : σ}
  {content bytes : List UInt8}

/-- A run of bytes arrives whole, in however many parts the sink takes it. -/
theorem exists_offer (h : sink.Endless Holds) (hs : Holds s content) (bytes : List UInt8) :
    ∃ t, sink.offer s bytes = (.ok (), t) ∧ Holds t (content ++ bytes) := by
  fun_induction offer sink s bytes generalizing content with
  | case1 s => exact ⟨s, rfl, by rwa [List.append_nil]⟩
  | case2 s bytes hbytes taken =>
    rename_i hfull
    exact absurd hfull (Nat.ne_of_gt (h.pos hs hbytes))
  | case3 s bytes hbytes taken =>
    rename_i ih
    obtain ⟨t, ht, hholds⟩ := ih (h.holds hs hbytes)
    refine ⟨t, ht, ?_⟩
    rwa [List.append_assoc, List.take_append_drop] at hholds

/-! ## Memory and files -/

theorem endless_memory : memory.Endless fun s content => s.data.toList = content where
  pos _ hbytes := List.length_pos_iff.mpr hbytes
  holds {s content bytes} hs _ := by
    show (extend s bytes).data.toList = content ++ bytes.take bytes.length
    rw [toList_extend, hs, List.take_length]

theorem extend_toByteArray (content bytes : List UInt8) :
    extend content.toByteArray bytes = (content ++ bytes).toByteArray :=
  ByteArray.ext (Array.toList_inj.mp (by simp))

theorem endless_file (f : Folder) (place : List String) :
    (Folder.file place).Endless fun g content => g = f.put place content.toByteArray where
  pos _ hbytes := List.length_pos_iff.mpr hbytes
  holds {g content bytes} hg _ := by
    show g.put place (extend ((g.get? place).getD .empty) bytes) =
      f.put place (content ++ bytes.take bytes.length).toByteArray
    rw [hg, Folder.get?_put, if_pos rfl, Option.getD_some, extend_toByteArray, List.take_length,
      Folder.put_put]

/-! ## Buffers -/

/-- Emptying a buffer is offering what it holds, if the sink takes it all. -/
theorem drain_of_offer (h : sink.offer s bytes = (.ok (), t)) :
    sink.drain s bytes = (.ok (), ⟨.empty, t⟩) := by
  fun_induction drain sink s bytes with
  | case1 s =>
    rw [offer_nil] at h
    cases h
    rfl
  | case2 s held hheld taken hfull =>
    rw [offer_eq sink s hheld, if_pos hfull] at h
    cases h
  | case3 s held hheld taken hfull ih =>
    rw [offer_eq sink s hheld, if_neg hfull] at h
    exact ih h

theorem exists_flush (h : sink.Endless Holds) {s : Buffered σ} (hs : s.Holds Holds content) :
    ∃ t, sink.flush s = (.ok (), ⟨.empty, t⟩) ∧ Holds t content := by
  obtain ⟨sent, hsent, rfl⟩ := hs
  obtain ⟨t, ht, hholds⟩ := exists_offer h hsent s.held.data.toList
  exact ⟨t, drain_of_offer ht, hholds⟩

/-- A run finds room in the buffer, and one as long as the buffer finds it empty. -/
theorem exists_room (h : sink.Endless Holds) {s : Buffered σ} (hs : s.Holds Holds content)
    (capacity count : Nat) :
    ∃ t, (if capacity < s.held.size + count then sink.flush s else (.ok (), s)) = (.ok (), t) ∧
      t.Holds Holds content ∧ (capacity ≤ count → t.held = .empty) := by
  by_cases hfull : capacity < s.held.size + count
  · obtain ⟨t, ht, hholds⟩ := exists_flush h hs
    refine ⟨⟨.empty, t⟩, ?_, ⟨content, hholds, ?_⟩, fun _ => rfl⟩
    · rw [if_pos hfull, ht]
    · exact (List.append_nil content).symm
  · refine ⟨s, if_neg hfull, hs, fun hlong => ?_⟩
    rw [← ByteArray.size_eq_zero_iff]
    omega

/-- What a buffer takes goes behind all that was taken before, wherever that is by now. -/
theorem accept_buffered (h : sink.Endless Holds) {s : Buffered σ} (hs : s.Holds Holds content)
    (capacity : Nat) (hbytes : bytes ≠ []) :
    0 < ((sink.buffered capacity).accept s bytes).1 ∧
      ((sink.buffered capacity).accept s bytes).2.Holds Holds
        (content ++ bytes.take ((sink.buffered capacity).accept s bytes).1) := by
  obtain ⟨t, ht, ⟨sent, hsent, rfl⟩, hempty⟩ := exists_room h hs capacity bytes.length
  simp only [buffered, ht]
  by_cases hlong : capacity ≤ bytes.length
  · rw [if_pos hlong]
    refine ⟨h.pos hsent hbytes, _, h.holds hsent hbytes, ?_⟩
    -- Nothing is held that a run on its way to the sink could overtake.
    rw [hempty hlong]
    simp
  · rw [if_neg hlong]
    refine ⟨List.length_pos_iff.mpr hbytes, sent, hsent, ?_⟩
    rw [toList_extend, List.take_length, List.append_assoc]

theorem endless_buffered (h : sink.Endless Holds) (capacity : Nat) :
    (sink.buffered capacity).Endless (Buffered.Holds Holds) where
  pos hs hbytes := (accept_buffered h hs capacity hbytes).1
  holds hs hbytes := (accept_buffered h hs capacity hbytes).2

end Sink

end ToneScore.Storage
