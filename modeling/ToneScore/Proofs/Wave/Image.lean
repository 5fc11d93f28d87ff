import ToneScore.Proofs.Storage.Endless
import ToneScore.Proofs.Wave.Pieces
import ToneScore.Proofs.Wave.Words

/-!
# The bytes of a wave file

`write` sends a file in many small pieces: the fields of the header, every sample once for each
channel, and a padding byte. `write_eq` gathers them into one list (`pieces`), so that what a sink
does with a file is one induction over that list. The header tells the size that was stored for the
samples, which is less than they have if it has wrapped. A sink that never runs full takes all of them
(`exists_write`). Memory is one, which makes `encode` fail exactly where the checks fail and return
`image` otherwise (`encode_eq_ok_iff`, `encode_eq_error_iff_checks`).
-/

namespace ToneScore.Wave

open Storage

/-! ## What is sent -/

/-- The samples as they are stored, each one once for every channel. -/
def words (f : Format) (samples : Array Float) : List (List UInt8) :=
  samples.toList.flatMap fun sample =>
    List.replicate f.channels.toNat (sampleBytes sample f.bitsPerSample)

def pieces (f : Format) (samples : Array Float) : List (List UInt8) :=
  fields f (f.storedSize samples.size) ++ words f samples ++
    List.replicate (Format.padding (f.storedSize samples.size)) [0]

def payload (f : Format) (samples : Array Float) : List UInt8 := (words f samples).flatten

def image (f : Format) (samples : Array Float) : List UInt8 :=
  (fields f (f.storedSize samples.size)).flatten ++ payload f samples ++
    List.replicate (Format.padding (f.storedSize samples.size)) 0

theorem flatten_pieces (f : Format) (samples : Array Float) :
    (pieces f samples).flatten = image f samples := by
  unfold pieces image payload
  rw [List.flatten_append, List.flatten_append, List.flatten_replicate_singleton]

theorem length_fields (f : Format) (size : Nat) : (fields f size).flatten.length = 44 := rfl

theorem length_of_mem_words {f : Format} {samples : Array Float} {word : List UInt8}
    (h : word ∈ words f samples) : word.length = f.width := by
  obtain ⟨sample, -, h⟩ := List.mem_flatMap.mp h
  rw [List.eq_of_mem_replicate h, length_sampleBytes, Format.width]

theorem length_words (f : Format) (samples : Array Float) :
    (words f samples).length = samples.size * f.channels.toNat := by
  unfold words
  rw [List.flatMap_def, length_flatten_of_forall (n := f.channels.toNat) (by simp)]
  simp

theorem length_payload (f : Format) (samples : Array Float) :
    (payload f samples).length = samples.size * f.frameBytes := by
  unfold payload
  rw [length_flatten_of_forall fun _ => length_of_mem_words, length_words, Nat.mul_assoc]
  rfl

theorem length_image (f : Format) (samples : Array Float) :
    (image f samples).length =
      44 + samples.size * f.frameBytes + Format.padding (f.storedSize samples.size) := by
  unfold image
  rw [List.length_append, List.length_append, length_fields, length_payload, List.length_replicate]

section
variable {σ : Type}

theorem forM_padding_put (sink : Sink σ) (size : Nat) :
    (List.replicate (Format.padding size) [0]).forM (put sink) =
      if Format.padding size = 1 then put sink [0] else pure () := by
  have h : Format.padding size = 0 ∨ Format.padding size = 1 := by
    unfold Format.padding
    omega
  rcases h with h | h <;> rw [h]
  · rfl
  · simp

theorem forM_putFrame (sink : Sink σ) (f : Format) (samples : Array Float) :
    samples.forM (putFrame sink f) = (words f samples).forM (put sink) := by
  obtain ⟨samples⟩ := samples
  rw [List.forM_toArray' _ _ rfl]
  unfold words
  induction samples with
  | nil => rfl
  | cons sample rest ih =>
    simp only [List.forM_eq_forM, List.flatMap_cons, List.forM_append, List.forM_cons] at ih ⊢
    rw [ih]
    rfl

/-- A refusal ends the writing, and the sink stays as it then is. -/
theorem Writer.bind_apply {α β : Type} (w : Writer σ α) (next : α → Writer σ β) (s : σ) :
    (w >>= next) s =
      match w s with
      | (.ok a, s') => next a s'
      | (.error e, s') => (.error e, s') := by
  show (ExceptT.bindCont next (w s).1 : StateM σ (Except Error β)) (w s).2 = _
  obtain ⟨outcome, s'⟩ := w s
  cases outcome <;> rfl

/-- A fault of the sink is an error of the writing. -/
theorem Writer.adapt_apply {α : Type} (w : ExceptT Fault (StateM σ) α) (s : σ) :
    (ExceptT.adapt Error.storage w : Writer σ α) s = ((w s).1.mapError Error.storage, (w s).2) :=
  rfl

theorem put_apply (sink : Sink σ) (bytes : List UInt8) (s : σ) :
    put sink bytes s =
      ((sink.offer s bytes).1.mapError Error.storage, (sink.offer s bytes).2) :=
  Writer.adapt_apply (sink.send bytes) s

section
variable {o : Overflow} {f : Format} {samples : Array Float} {e : Error}

theorem write_of_check_error (h : f.check o = .error e) (sink : Sink σ) (s : σ) :
    write o sink f samples s = (.error e, s) := by
  rw [write, h]
  rfl

theorem write_of_dataSize_error (hf : f.check o = .ok ()) (h : f.dataSize o samples.size = .error e)
    (sink : Sink σ) (s : σ) : write o sink f samples s = (.error e, s) := by
  rw [write, hf, h]
  rfl

/-- Past both checks all pieces are sent, and nothing is computed that could go wrong. -/
theorem write_eq {size : UInt32} (hf : f.check o = .ok ()) (hs : f.dataSize o samples.size = .ok size)
    (sink : Sink σ) (s : σ) :
    write o sink f samples s = (pieces f samples).forM (put sink) s := by
  obtain ⟨-, -, hsize⟩ := Format.dataSize_eq_ok_iff.mp hs
  have hpieces : (pieces f samples).forM (put sink) = (do
      (fields f (f.storedSize samples.size)).forM (put sink)
      samples.forM (putFrame sink f)
      if Format.padding size.toNat = 1 then put sink [0] else pure () : Writer σ Unit) := by
    rw [hsize, ← forM_padding_put, forM_putFrame]
    simp only [pieces, List.forM_eq_forM, List.forM_append, bind_assoc]
  rw [write, hf, hs, hpieces]
  show (liftM (header o f size) >>= _ : Writer σ Unit) s = _
  rw [header_eq hf hs]
  rfl

end

end

/-! ## Sinks that never run full -/

section
variable {σ : Type} {sink : Sink σ} {Holds : σ → List UInt8 → Prop} {s : σ}
  {content : List UInt8}

theorem exists_put (h : sink.Endless Holds) (hs : Holds s content) (bytes : List UInt8) :
    ∃ t, put sink bytes s = (.ok (), t) ∧ Holds t (content ++ bytes) := by
  obtain ⟨t, ht, hholds⟩ := Sink.exists_offer h hs bytes
  refine ⟨t, ?_, hholds⟩
  rw [put_apply, ht]
  rfl

theorem exists_forM_put (h : sink.Endless Holds) (hs : Holds s content)
    (pieces : List (List UInt8)) :
    ∃ t, pieces.forM (put sink) s = (.ok (), t) ∧ Holds t (content ++ pieces.flatten) := by
  induction pieces generalizing s content with
  | nil => exact ⟨s, rfl, by rwa [List.flatten_nil, List.append_nil]⟩
  | cons bytes rest ih =>
    obtain ⟨s', hput, hs'⟩ := exists_put h hs bytes
    obtain ⟨t, hrest, ht⟩ := ih hs'
    refine ⟨t, ?_, ?_⟩
    · rw [List.forM_eq_forM, List.forM_cons, Writer.bind_apply, hput]
      exact hrest
    · rwa [List.flatten_cons, ← List.append_assoc]

theorem exists_write {o : Overflow} {f : Format} {samples : Array Float} {size : UInt32}
    (h : sink.Endless Holds) (hf : f.check o = .ok ())
    (hs : f.dataSize o samples.size = .ok size) (hstart : Holds s content) :
    ∃ t, write o sink f samples s = (.ok (), t) ∧ Holds t (content ++ image f samples) := by
  rw [write_eq hf hs, ← flatten_pieces]
  exact exists_forM_put h hstart _

end

/-! ## The file in memory -/

variable {o : Overflow} {f : Format} {samples : Array Float}

/-- In memory a file is refused by the checks of the format and of the size, and by nothing else. -/
theorem encode_eq (o : Overflow) (f : Format) (samples : Array Float) :
    encode o f samples = (do
      f.check o
      let _ ← f.dataSize o samples.size
      return (image f samples).toByteArray) := by
  unfold encode Format.fileSize
  cases hf : f.check o with
  | error e => rfl
  | ok u =>
    cases hs : f.dataSize o samples.size with
    | error e => rfl
    | ok size =>
      have hempty : (ByteArray.emptyWithCapacity
          (Format.headerSize + size.toNat + Format.padding size.toNat)).data.toList = [] := rfl
      obtain ⟨bytes, hwrite, hbytes⟩ := exists_write Sink.endless_memory hf hs hempty
      dsimp only [bind, Except.bind, pure, Except.pure]
      rw [hwrite]
      refine congrArg Except.ok (ByteArray.ext (Array.toList_inj.mp ?_))
      rw [hbytes, List.nil_append, List.toList_data_toByteArray]

theorem encode_eq_ok_iff {file : ByteArray} :
    encode o f samples = .ok file ↔
      f.check o = .ok () ∧ (∃ size, f.dataSize o samples.size = .ok size) ∧
        file = (image f samples).toByteArray := by
  rw [encode_eq]
  cases f.check o with
  | error e => simp [bind, Except.bind]
  | ok u =>
    cases f.dataSize o samples.size with
    | error e => simp [bind, Except.bind]
    | ok size => simp [bind, Except.bind, pure, Except.pure, eq_comm]

theorem encode_eq_error_iff_checks {e : Error} :
    encode o f samples = .error e ↔
      f.check o = .error e ∨ f.check o = .ok () ∧ f.dataSize o samples.size = .error e := by
  rw [encode_eq]
  cases f.check o with
  | error e => simp [bind, Except.bind]
  | ok u =>
    cases f.dataSize o samples.size with
    | error e => simp [bind, Except.bind]
    | ok size => simp [bind, Except.bind, pure, Except.pure]

/-! ## Numbers in a file -/

/-- A piece that stores a number is read back at its place in the file. -/
theorem numberAt_image {i width n offset : Nat}
    (hpiece : (pieces f samples)[i]? = some (lowBytes width n))
    (hoffset : ((pieces f samples).take i).flatten.length = offset)
    (hn : n < 256 ^ width) : numberAt (image f samples).toByteArray offset width = n := by
  have h := numberAt_flatten hpiece
  rwa [hoffset, length_lowBytes, flatten_pieces, ofLowBytes_lowBytes_of_lt hn] at h

theorem numberAt_dataSize (h : f.storedSize samples.size ≤ 4294967295 - 37) :
    numberAt (image f samples).toByteArray 40 4 = f.storedSize samples.size :=
  numberAt_image (i := 12) rfl rfl (Nat.lt_of_le_of_lt h (by decide))

end ToneScore.Wave
