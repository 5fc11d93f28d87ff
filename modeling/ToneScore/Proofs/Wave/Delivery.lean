import ToneScore.Proofs.Storage.Sink
import ToneScore.Proofs.Wave.Image

/-!
# Writing to a sink that may run full

A file is sent in pieces, and the sink may cut every one of them. Since each piece is delivered up to
the limit, so is the whole file (`delivered_forM_put`): what reaches the sink are the first bytes of
the file that `encode` builds, and the writing fails exactly if some are left over.
-/

namespace ToneScore.Wave

open Storage Storage.Sink

section
variable {σ : Type} {sink : Sink σ} {received : σ → List UInt8} {s : σ} {room : Nat}

theorem delivered_put
    (hr : ∀ s bytes,
      received (sink.accept s bytes).2 = received s ++ bytes.take (sink.accept s bytes).1)
    (hs : sink.Fills s room) (bytes : List UInt8) :
    Delivered sink received (Error.storage .full) s room bytes (put sink bytes s) := by
  obtain ⟨houtcome, hreceived, hfills⟩ := delivered_offer hr hs bytes
  rw [put_apply]
  refine ⟨?_, hreceived, hfills⟩
  rw [houtcome]
  split <;> rfl

/-- Pieces are delivered as if they were sent in one. The first that does not fit is the last. -/
theorem delivered_forM_put
    (hr : ∀ s bytes,
      received (sink.accept s bytes).2 = received s ++ bytes.take (sink.accept s bytes).1)
    (hs : sink.Fills s room) (pieces : List (List UInt8)) :
    Delivered sink received (Error.storage .full) s room pieces.flatten
      (pieces.forM (put sink) s) := by
  induction pieces generalizing s room with
  | nil => exact delivered_nil hs
  | cons bytes rest ih =>
    obtain ⟨houtcome, hreceived, hfills⟩ := delivered_put hr hs bytes
    rw [List.forM_eq_forM, List.forM_cons, Writer.bind_apply, List.flatten_cons]
    generalize put sink bytes s = sent at *
    obtain ⟨outcome, s'⟩ := sent
    simp only at houtcome hreceived hfills
    by_cases hfit : bytes.length ≤ room
    · obtain ⟨houtcome', hreceived', hfills'⟩ := ih (hfills hfit)
      have htotal : (bytes ++ rest.flatten).length ≤ room ↔
          rest.flatten.length ≤ room - bytes.length := by
        rw [List.length_append]
        omega
      rw [houtcome, if_pos hfit]
      refine ⟨?_, ?_, fun h => ?_⟩
      · simp only [htotal]
        exact houtcome'
      · show received (rest.forM (put sink) s').2 = _
        rw [hreceived', hreceived, List.append_assoc, List.take_append]
      · have := hfills' (htotal.mp h)
        rwa [Nat.sub_sub, ← List.length_append] at this
    · have hlong : ¬ (bytes ++ rest.flatten).length ≤ room := by
        rw [List.length_append]
        omega
      rw [houtcome, if_neg hfit]
      refine ⟨(if_neg hlong).symm, ?_, fun h => absurd h hlong⟩
      rw [List.take_append_of_le_length (by omega)]
      exact hreceived

theorem delivered_write {start : σ} {o : Overflow} {f : Format} {samples : Array Float}
    {size : UInt32} (h : sink.Limited received start room) (hf : f.check o = .ok ())
    (hs : f.dataSize o samples.size = .ok size) :
    Delivered sink received (Error.storage .full) start room (image f samples)
      (write o sink f samples start) := by
  rw [write_eq hf hs, ← flatten_pieces]
  exact delivered_forM_put h.records h.fills _

end

/--
A refused format or size leaves the sink as it was. Any other file reaches it up to its limit, and
the writing fails exactly if the file is longer. So two sinks with one limit get the same bytes and
give the same outcome, however they split what they are sent.
-/
theorem write_limited {σ : Type} {sink : Sink σ} {received : σ → List UInt8} {start : σ} {room : Nat}
    (h : sink.Limited received start room) (o : Overflow) (f : Format) (samples : Array Float) :
    (∀ e, f.check o = .error e ∨ f.check o = .ok () ∧ f.dataSize o samples.size = .error e →
      write o sink f samples start = (.error e, start)) ∧
    (∀ size, f.check o = .ok () → f.dataSize o samples.size = .ok size →
      ∃ file, encode o f samples = .ok file ∧
        received (write o sink f samples start).2 = file.data.toList.take (min room file.size) ∧
        ((write o sink f samples start).1 = .ok () ↔ file.size ≤ room) ∧
        ((write o sink f samples start).1 = .error (.storage .full) ↔ room < file.size)) ∧
    ∀ {τ : Type} {other : Sink τ} {received' : τ → List UInt8} {start' : τ},
      other.Limited received' start' room →
      (write o other f samples start').1 = (write o sink f samples start).1 ∧
        received' (write o other f samples start').2 = received (write o sink f samples start).2 := by
  refine ⟨?_, ?_, ?_⟩
  · rintro e (hf | ⟨hf, hs⟩)
    · exact write_of_check_error hf sink start
    · exact write_of_dataSize_error hf hs sink start
  · intro size hf hs
    refine ⟨_, encode_eq_ok_iff.mpr ⟨hf, ⟨size, hs⟩, rfl⟩, ?_⟩
    obtain ⟨houtcome, hreceived, -⟩ := delivered_write h hf hs
    rw [List.toList_data_toByteArray, List.size_toByteArray, houtcome]
    refine ⟨?_, ?_, ?_⟩
    · rw [hreceived, h.empty, List.nil_append, ← List.take_eq_take_min]
    · split <;> simp_all
    · split <;> simp_all
  · intro τ other received' start' h'
    cases hf : f.check o with
    | error e =>
      rw [write_of_check_error hf, write_of_check_error hf]
      exact ⟨rfl, h'.empty.trans h.empty.symm⟩
    | ok u =>
      cases hs : f.dataSize o samples.size with
      | error e =>
        rw [write_of_dataSize_error hf hs, write_of_dataSize_error hf hs]
        exact ⟨rfl, h'.empty.trans h.empty.symm⟩
      | ok size =>
        obtain ⟨houtcome, hreceived, -⟩ := delivered_write h hf hs
        obtain ⟨houtcome', hreceived', -⟩ := delivered_write h' hf hs
        exact ⟨houtcome'.trans houtcome.symm, by rw [hreceived', hreceived, h'.empty, h.empty]⟩

/-- A file of 54 bytes and room for 53: the padding byte is the one that does not fit. -/
theorem write_limited_padding :
    bounded.Limited (fun s => s.received.data.toList) ⟨53, .empty⟩ 53 ∧
      ∃ file, encode .halts ⟨8000, 3, 24⟩ #[0.5] = .ok file ∧ file.size = 54 ∧
        (write .halts bounded ⟨8000, 3, 24⟩ #[0.5] ⟨53, .empty⟩).1 = .error (.storage .full) ∧
        (write .halts bounded ⟨8000, 3, 24⟩ #[0.5] ⟨53, .empty⟩).2.received.data.toList =
          file.data.toList.take 53 := by
  have h := limited_bounded 53
  obtain ⟨-, hdelivered, -⟩ := write_limited h .halts ⟨8000, 3, 24⟩ #[0.5]
  obtain ⟨file, hfile, hreceived, -, hfull⟩ := hdelivered 9 rfl rfl
  have hsize : file.size = 54 := by
    rw [(encode_eq_ok_iff.mp hfile).2.2, List.size_toByteArray, length_image]
    rfl
  rw [hsize] at hreceived hfull
  exact ⟨h, file, hfile, hsize, hfull.mpr (by decide), hreceived⟩

end ToneScore.Wave
