import ToneScore.Proofs.Wave.Layout
import ToneScore.Proofs.Wave.RoundTrip

/-!
# Files that break off

`EndsAt` says where the payload of a file ends. A search needs every byte up to there and none behind
it: a file that breaks off earlier has no payload, and one that breaks off later or goes on with
something else has the whole of it (`payload?_take`, `payload?_append_of_some`). So no file is read as a
shortened one, whatever the chunks in front of its payload are. In a written file the payload ends
in front of the padding byte (`endsAt_image`).
-/

namespace ToneScore.Wave

section
variable {bytes payload : List UInt8} {stop : Nat}

/-- The first `stop` bytes of a file are its layout up to the end of its payload. -/
def EndsAt (bytes payload : List UInt8) (stop : Nat) : Prop :=
  ∃ (field : List UInt8) (chunks : List (List UInt8)) (rest : List UInt8),
    field.length = 4 ∧ (∀ chunk ∈ chunks, OtherChunk chunk) ∧ payload.length < 2 ^ 32 ∧
      stop = 20 + chunks.flatten.length + payload.length ∧
      bytes = tag "RIFF" ++ (field ++ (tag "WAVE" ++ (chunks.flatten ++
        (tag "data" ++ lowBytes 4 payload.length ++ (payload ++ rest)))))

theorem EndsAt.hasPayload (h : EndsAt bytes payload stop) : HasPayload bytes payload := by
  obtain ⟨field, chunks, rest, hfield, hchunks, hsize, -, rfl⟩ := h
  exact ⟨field, chunks, rest, hfield, hchunks, hsize, by simp only [List.append_assoc]⟩

theorem HasPayload.append (h : HasPayload bytes payload) (extra : List UInt8) :
    HasPayload (bytes ++ extra) payload := by
  obtain ⟨field, chunks, rest, hfield, hchunks, hsize, rfl⟩ := h
  exact ⟨field, chunks, rest ++ extra, hfield, hchunks, hsize, by simp only [List.append_assoc]⟩

theorem payload?_append_of_some (h : payload? bytes = some payload) (extra : List UInt8) :
    payload? (bytes ++ extra) = some payload :=
  payload?_of_hasPayload ((payload?_eq_some_iff.mp h).append extra)

/-! ## Chunks that break off -/

/-- The bytes behind the size of a chunk without which a search stops. -/
def need (name : List UInt8) (size : Nat) : Nat :=
  if name = tag "data" then size else size + size % 2

/-- A chunk that breaks off inside its name, its size or what is needed of its body. -/
theorem broken_take {name rest : List UInt8} {size k : Nat} (hname : name.length = 4)
    (hsize : size < 2 ^ 32) (hk : k < 8 + need name size) :
    Broken ((name ++ lowBytes 4 size ++ rest).take k) := by
  have hhead : (name ++ lowBytes 4 size).length = 8 := by simp [hname]
  rcases Nat.lt_or_ge k 8 with h | h
  · exact .ended (Nat.lt_of_le_of_lt (List.length_take_le k _) h)
  have hbody : (rest.take (k - 8)).length ≤ k - 8 := List.length_take_le _ _
  rw [List.take_append, hhead, List.take_of_length_le (by omega)]
  unfold need at hk
  split at hk
  · next hdata =>
    subst hdata
    exact .truncated hsize (by omega)
  · next hother => exact .overrun hname hother hsize (by omega)

theorem broken_take_otherChunk {chunk : List UInt8} (h : OtherChunk chunk) {k : Nat}
    (hk : k < chunk.length) : Broken (chunk.take k) := by
  obtain ⟨hname, hother, hsize, hpadding⟩ := h
  rw [List.append_assoc]
  refine broken_take hname hsize ?_
  simp only [List.length_append, length_lowBytes, hname, hpadding] at hk
  rw [need, if_neg hother]
  omega

theorem payloadOf_take_of_lt {chunks : List (List UInt8)} (hchunks : ∀ chunk ∈ chunks, OtherChunk chunk)
    (hsize : payload.length < 2 ^ 32) (rest : List UInt8) {k : Nat}
    (hk : k < chunks.flatten.length + 8 + payload.length) :
    payloadOf ((chunks.flatten ++
      (tag "data" ++ lowBytes 4 payload.length ++ (payload ++ rest))).take k) = none := by
  induction chunks generalizing k with
  | nil =>
    refine payloadOf_broken (broken_take rfl hsize ?_)
    rw [need, if_pos rfl]
    simpa using hk
  | cons chunk chunks ih =>
    obtain ⟨hchunk, hchunks⟩ := List.forall_mem_cons.mp hchunks
    simp only [List.flatten_cons, List.length_append, List.append_assoc chunk] at hk ⊢
    rcases Nat.lt_or_ge k chunk.length with h | h
    · rw [List.take_append_of_le_length (by omega)]
      exact payloadOf_broken (broken_take_otherChunk hchunk h)
    · rw [List.take_append, List.take_of_length_le h, payloadOf_otherChunk hchunk]
      exact ih hchunks (by omega)

/-! ## Files that break off -/

theorem payload?_take (h : EndsAt bytes payload stop) (k : Nat) :
    payload? (bytes.take k) = if stop ≤ k then some payload else none := by
  obtain ⟨field, chunks, rest, hfield, hchunks, hsize, rfl, rfl⟩ := h
  split
  · next hle =>
    have hfront : (tag "RIFF" ++ field ++ tag "WAVE" ++ chunks.flatten ++
        tag "data" ++ lowBytes 4 payload.length ++ payload).length =
          20 + chunks.flatten.length + payload.length := by
      simp only [List.length_append, length_lowBytes, hfield]
      show 4 + 4 + 4 + _ + 4 + 4 + _ = _
      omega
    refine payload?_of_hasPayload ⟨field, chunks, rest.take (k - (20 + chunks.flatten.length +
      payload.length)), hfield, hchunks, hsize, ?_⟩
    simp only [← List.append_assoc]
    rw [List.take_append, hfront, List.take_of_length_le (by omega)]
  · next hlt =>
    rcases Nat.lt_or_ge k 12 with h | h
    · exact payload?_of_length_lt (Nat.lt_of_le_of_lt (List.length_take_le k _) h)
    have hdescriptor : (tag "RIFF" ++ (field ++ tag "WAVE")).length = 12 := by
      simp only [List.length_append, hfield]
      rfl
    have hcut := payloadOf_take_of_lt hchunks hsize rest (k := k - 12) (by omega)
    rw [← List.append_assoc field, ← List.append_assoc (tag "RIFF"), List.take_append, hdescriptor,
      List.take_of_length_le (by omega), List.append_assoc, List.append_assoc,
      payload?_descriptor hfield, hcut]

end

/-! ## Written files -/

def formatFields (f : Format) : List UInt8 :=
  lowBytes 2 1 ++ lowBytes 2 f.channels.toNat ++ lowBytes 4 f.sampleRate.toNat ++
    lowBytes 4 (f.sampleRate.toNat * f.storedAlign) ++ lowBytes 2 f.storedAlign ++
      lowBytes 2 f.bitsPerSample.toNat

theorem otherChunk_format (f : Format) :
    OtherChunk (tag "fmt " ++ lowBytes 4 (formatFields f).length ++ formatFields f ++ []) := by
  have hlength : (formatFields f).length = 16 := rfl
  refine .intro rfl (by decide) (by omega) ?_
  rw [hlength]
  rfl

variable {o : Overflow} {f : Format} {samples : Array Float} {file : ByteArray}

/-- The payload of a written file ends where the header says, in front of the padding byte. -/
theorem endsAt_image (hsize : f.storedSize samples.size < 2 ^ 32) :
    EndsAt (image f samples) ((payload f samples).take (f.storedSize samples.size))
      (44 + f.storedSize samples.size) := by
  have hle := f.storedSize_le samples.size
  rw [← length_payload] at hle
  have hlength : ((payload f samples).take (f.storedSize samples.size)).length =
      f.storedSize samples.size := List.length_take_of_le hle
  refine ⟨lowBytes 4 (36 + f.storedSize samples.size +
    Format.padding (f.storedSize samples.size)), [_],
    (payload f samples).drop (f.storedSize samples.size) ++
      List.replicate (Format.padding (f.storedSize samples.size)) 0, length_lowBytes 4 _,
    List.forall_mem_singleton.mpr (otherChunk_format f), by omega, ?_, ?_⟩
  · rw [hlength]
    rfl
  · have hfields : (formatFields f).length = 16 := rfl
    rw [hlength, hfields, ← List.append_assoc (List.take _ _), List.take_append_drop]
    unfold image fields formatFields
    simp only [List.flatten_cons, List.flatten_nil, List.append_assoc, List.append_nil]

theorem extract_image (f : Format) (samples : Array Float) :
    (image f samples).toByteArray.extract 44 (44 + f.storedSize samples.size) =
      ((payload f samples).take (f.storedSize samples.size)).toByteArray := by
  have hle := f.storedSize_le samples.size
  rw [← length_payload] at hle
  have hcut : ((image f samples).drop 44).take (f.storedSize samples.size) =
      (payload f samples).take (f.storedSize samples.size) := by
    rw [image, List.append_assoc, List.drop_left' (length_fields f _),
      List.take_append_of_le_length hle]
  refine ByteArray.ext (Array.toList_inj.mp ?_)
  rw [← hcut]
  simp

/--
A written file has the payload that its header announces, which is all of its samples unless the
size has wrapped. The first bytes of the file hold this payload if they reach to the end of it, so
that nothing but the padding byte may be missing, and hold none otherwise, wherever they break off.
What is appended to the file does not change the payload.
-/
theorem extract?_torn (h : encode o f samples = .ok file) :
    ∃ bytes, extract? file = some bytes ∧ bytes = file.extract 44 (44 + bytes.size) ∧
      bytes.size = numberAt file 40 4 ∧
      (∃ size, f.dataSize o samples.size = .ok size ∧ bytes.size = size.toNat) ∧
      ((o = .wraps → f.NoWrap samples.size) → bytes.size = samples.size * f.frameBytes) ∧
      file.size = 44 + samples.size * f.frameBytes + bytes.size % 2 ∧
      (∀ k, extract? (file.extract 0 k) = if 44 + bytes.size ≤ k then some bytes else none) ∧
      ∀ extra, extract? (file ++ extra) = some bytes := by
  have hexact := noWrap_of_encode h
  have hlt := storedSize_lt_of_encode h
  obtain ⟨-, ⟨size, hs⟩, rfl⟩ := encode_eq_ok_iff.mp h
  obtain ⟨-, hle, hsize⟩ := Format.dataSize_eq_ok_iff.mp hs
  have hends := endsAt_image hlt
  have hwhole := payload?_of_hasPayload hends.hasPayload
  have hlength : ((payload f samples).take (f.storedSize samples.size)).toByteArray.size =
      f.storedSize samples.size := by
    rw [List.size_toByteArray]
    refine List.length_take_of_le ?_
    rw [length_payload]
    exact f.storedSize_le samples.size
  refine ⟨_, extract?_image hlt, ?_⟩
  rw [hlength]
  refine ⟨(extract_image f samples).symm, (numberAt_dataSize hle).symm, ⟨size, hs, hsize.symm⟩,
    fun hwraps => Format.storedSize_eq (hexact hwraps), ?_, ?_, ?_⟩
  · rw [List.size_toByteArray, length_image]
    rfl
  · intro k
    have hcut : ((image f samples).toByteArray.extract 0 k).data.toList = (image f samples).take k := by
      simp
    rw [extract?, hcut, payload?_take hends]
    split <;> rfl
  · intro extra
    have hlist : ((image f samples).toByteArray ++ extra).data.toList =
        image f samples ++ extra.data.toList := by
      simp
    rw [extract?, hlist, payload?_append_of_some hwhole]
    rfl

/--
Nine bytes of samples and a padding byte: without the padding byte, and with one byte less. A frame
of 65536 bytes that has wrapped is announced as none, and the header alone has this empty payload.
-/
theorem extract?_torn_padding :
    (∃ file, encode .halts ⟨8000, 3, 24⟩ #[0.5] = .ok file ∧ file.size = 54 ∧
      ∃ bytes, bytes.size = 9 ∧ extract? (file.extract 0 53) = some bytes ∧
        extract? (file.extract 0 52) = none) ∧
    ∃ file, encode .wraps ⟨1, 32768, 16⟩ #[0.5] = .ok file ∧ file.size = 65580 ∧
      ∃ bytes, bytes.size = 0 ∧ extract? (file.extract 0 44) = some bytes ∧
        extract? (file.extract 0 43) = none := by
  have h : encode .halts ⟨8000, 3, 24⟩ #[0.5] = .ok (image ⟨8000, 3, 24⟩ #[0.5]).toByteArray :=
    encode_eq_ok_iff.mpr ⟨rfl, ⟨9, rfl⟩, rfl⟩
  have hwrapped : encode .wraps ⟨1, 32768, 16⟩ #[0.5] =
      .ok (image ⟨1, 32768, 16⟩ #[0.5]).toByteArray :=
    encode_eq_ok_iff.mpr ⟨rfl, ⟨0, rfl⟩, rfl⟩
  constructor
  · obtain ⟨bytes, -, -, -, -, hsize, hfile, hcut, -⟩ := extract?_torn h
    have hnine : bytes.size = 9 := hsize nofun
    have hwhole := hcut 53
    have hshort := hcut 52
    rw [hnine] at hfile hwhole hshort
    exact ⟨_, h, hfile, bytes, hnine, hwhole, hshort⟩
  · obtain ⟨bytes, -, -, -, ⟨size, hdata, hsize⟩, -, hfile, hcut, -⟩ := extract?_torn hwrapped
    obtain rfl : (0 : UInt32) = size := Except.ok.inj hdata
    have hwhole := hcut 44
    have hshort := hcut 43
    rw [hsize] at hfile hwhole hshort
    exact ⟨_, hwrapped, hfile, bytes, hsize, hwhole, hshort⟩

end ToneScore.Wave
