import Mathlib
import ToneScore.Proofs.Wave.Delivery

/-!
# Three ways to write a file

A wave file is built in memory (`encode`), sent to a sink (`write`) or streamed through a buffer into
a file of a folder (`writeFile`). Each makes the checks for itself, and `writeFile` makes them before
it looks at the path (`writeFile_of_encode_error`). A sink that never runs full gets the bytes that
are built in memory (`exists_write_of_encode`), behind a buffer as well (`exists_writeBuffered`), so
streaming comes to writing these bytes at once (`writeFile_of_encode`).
-/

namespace ToneScore.Wave

open Storage

variable {folder : Folder} {path : String} {o : Overflow} {f : Format} {samples : Array Float}
  {file : ByteArray} {e : Error}

/-! ## Refused files -/

theorem write_of_encode_error {σ : Type} (h : encode o f samples = .error e) (sink : Sink σ)
    (start : σ) : write o sink f samples start = (.error e, start) := by
  rcases encode_eq_error_iff_checks.mp h with hf | ⟨hf, hs⟩
  · exact write_of_check_error hf sink start
  · exact write_of_dataSize_error hf hs sink start

theorem writeFile_of_encode_error (h : encode o f samples = .error e) :
    writeFile o folder path f samples = (.error e, folder) := by
  unfold writeFile
  rcases encode_eq_error_iff_checks.mp h with hf | ⟨hf, hs⟩
  · rw [hf]
  · rw [hf, hs]

/-! ## Files that are written -/

section
variable {σ : Type} {sink : Sink σ} {Holds : σ → List UInt8 → Prop} {start : σ}

theorem exists_write_of_encode (h : sink.Endless Holds) (hstart : Holds start [])
    (hfile : encode o f samples = .ok file) :
    ∃ t, write o sink f samples start = (.ok (), t) ∧ Holds t file.data.toList := by
  obtain ⟨hf, ⟨size, hs⟩, rfl⟩ := encode_eq_ok_iff.mp hfile
  obtain ⟨t, ht, hholds⟩ := exists_write h hf hs hstart
  refine ⟨t, ht, ?_⟩
  rwa [List.toList_data_toByteArray]

/-- Through a buffer it gets the same, the end of the file when the buffer is flushed. -/
theorem exists_writeBuffered (h : sink.Endless Holds) (hstart : Holds start [])
    (hfile : encode o f samples = .ok file) :
    ∃ t, writeBuffered o sink f samples ⟨.empty, start⟩ = (.ok (), ⟨.empty, t⟩) ∧
      Holds t file.data.toList := by
  have hbuffer : Buffered.Holds Holds ⟨.empty, start⟩ [] := ⟨[], hstart, rfl⟩
  obtain ⟨s, hwrite, hs⟩ :=
    exists_write_of_encode (Sink.endless_buffered h bufferSize) hbuffer hfile
  obtain ⟨t, hflush, ht⟩ := Sink.exists_flush h hs
  refine ⟨t, ?_, ht⟩
  rw [writeBuffered, Writer.bind_apply, hwrite]
  simp only [Writer.adapt_apply, hflush]
  rfl

end

/-- Streaming comes to writing the whole file at once. -/
theorem writeFile_of_encode (hfile : encode o f samples = .ok file) :
    writeFile o folder path f samples =
      ((folder.write path file).1.mapError Error.storage, (folder.write path file).2) := by
  obtain ⟨hf, ⟨size, hs⟩, -⟩ := encode_eq_ok_iff.mp hfile
  cases hslot : folder.slot path with
  | error fault =>
    have hcreate : folder.create path = .error fault := by rw [Folder.create, hslot]
    rw [Folder.write_of_slot_error hslot]
    simp only [writeFile, hf, hs, hcreate]
    rfl
  | ok place =>
    have hcreate : folder.create path = .ok (place, folder.put place .empty) := by
      rw [Folder.create, hslot]
    have hempty : folder.put place .empty = folder.put place [].toByteArray := rfl
    obtain ⟨t, ht, hholds⟩ :=
      exists_writeBuffered (Sink.endless_file folder place) hempty hfile
    have hbytes : file.data.toList.toByteArray = file :=
      ByteArray.ext (Array.toList_inj.mp List.toList_data_toByteArray)
    rw [Folder.write_of_slot hslot]
    simp only [writeFile, hf, hs, hcreate, ht, hholds, hbytes]
    rfl

/--
A format or a size that does not pass its check is refused with the same error in memory, by a sink
and for a file, and neither the sink nor the folder changes, whatever the path. All other files are
built in memory and arrive whole in every sink that never runs full. For a path that cannot be opened
there is then a storage error and the folder stays as it was; any other path holds the bytes that are
built in memory afterwards, whatever it held before, and all else is as it was.
-/
theorem writeFile_agrees (o : Overflow) (folder : Folder) (path : String) (f : Format)
    (samples : Array Float) :
    (∀ e, encode o f samples = .error e ↔
      f.check o = .error e ∨ f.check o = .ok () ∧ f.dataSize o samples.size = .error e) ∧
    (∀ e, encode o f samples = .error e →
      writeFile o folder path f samples = (.error e, folder) ∧
      ∀ {σ : Type} (sink : Sink σ) (start : σ), write o sink f samples start = (.error e, start)) ∧
    ∀ file, encode o f samples = .ok file →
      (∀ fault, folder.slot path = .error fault →
        writeFile o folder path f samples = (.error (.storage fault), folder)) ∧
      (∀ place, folder.slot path = .ok place → ∃ g,
        writeFile o folder path f samples = (.ok (), g) ∧ Folder.Written folder g path file) ∧
      ∀ {σ : Type} {sink : Sink σ} {Holds : σ → List UInt8 → Prop} {start : σ},
        sink.Endless Holds → Holds start [] →
        ∃ t, write o sink f samples start = (.ok (), t) ∧ Holds t file.data.toList := by
  refine ⟨fun e => encode_eq_error_iff_checks, fun e h => ⟨writeFile_of_encode_error h, ?_⟩,
    fun file hfile => ⟨fun fault hslot => ?_, fun place hslot => ?_, ?_⟩⟩
  · exact write_of_encode_error h
  · rw [writeFile_of_encode hfile, Folder.write_of_slot_error hslot]
    rfl
  · refine ⟨folder.put place file, ?_, Folder.written_put hslot file⟩
    rw [writeFile_of_encode hfile, Folder.write_of_slot hslot]
    rfl
  · intro σ sink Holds start h hstart
    exact exists_write_of_encode h hstart hfile

/-- A short file takes the place of a longer one; a path through a file cannot be opened. -/
theorem writeFile_agrees_over_longer :
    let folder : Folder :=
      { home := ["tmp"], files := [(["tmp", "a"], (List.replicate 100 7).toByteArray)] }
    ∃ file, encode .halts ⟨8000, 1, 8⟩ #[0.5] = .ok file ∧ file.size = 46 ∧
      (writeFile .halts folder "a" ⟨8000, 1, 8⟩ #[0.5]).1 = .ok () ∧
      (writeFile .halts folder "a" ⟨8000, 1, 8⟩ #[0.5]).2.read "a" = .ok file ∧
      writeFile .halts folder "a/b" ⟨8000, 1, 8⟩ #[0.5] = (.error (.storage .notDirectory), folder) ∧
      writeFile .halts folder "a" ⟨8000, 1, 12⟩ #[0.5] = (.error (.unsupportedBitDepth 12), folder) ∧
      ∃ t, write .halts Sink.memory ⟨8000, 1, 8⟩ #[0.5] .empty = (.ok (), t) ∧
        t.data.toList = file.data.toList := by
  intro folder
  have hfile : encode .halts ⟨8000, 1, 8⟩ #[0.5] = .ok (image ⟨8000, 1, 8⟩ #[0.5]).toByteArray :=
    encode_eq_ok_iff.mpr ⟨rfl, ⟨1, rfl⟩, rfl⟩
  have hslot : folder.slot "a" = .ok ["tmp", "a"] := by cbv
  have hblocked : folder.slot "a/b" = .error .notDirectory := by cbv
  obtain ⟨-, -, hwritten⟩ := writeFile_agrees .halts folder "a" ⟨8000, 1, 8⟩ #[0.5]
  obtain ⟨-, hstored, hsent⟩ := hwritten _ hfile
  obtain ⟨g, hg, hstate⟩ := hstored _ hslot
  obtain ⟨-, -, hother⟩ := writeFile_agrees .halts folder "a/b" ⟨8000, 1, 8⟩ #[0.5]
  obtain ⟨herror, hrefused, -⟩ := writeFile_agrees .halts folder "a" ⟨8000, 1, 12⟩ #[0.5]
  refine ⟨_, hfile, ?_, ?_, ?_, (hother _ hfile).1 _ hblocked, ?_, ?_⟩
  · rw [List.size_toByteArray, length_image]
    rfl
  · rw [hg]
  · rw [hg]
    exact hstate.read fun _ _ => rfl
  · exact (hrefused _ ((herror _).mpr (.inl rfl))).1
  · exact hsent Sink.endless_memory rfl

end ToneScore.Wave
