import ToneScore.Proofs.Wave.Positions

/-!
# The layout of a wave file

`HasPayload` says how a file is put together around its payload: a descriptor, chunks of other names,
each complete with its padding, the `data` chunk, and anything behind it. `NoPayload` lists the ways
in which a file is not put together like that. Every file is of one of the two kinds
(`hasPayload_or_noPayload`), and `payload?` finds the payload in the first and nothing in the second
(`payload?_of_hasPayload`, `payload?_of_noPayload`), whatever the sizes in the file say.
-/

namespace ToneScore.Wave

/-- A complete chunk that is not the `data` chunk, with any byte as its padding. -/
inductive OtherChunk : List UInt8 → Prop where
  | intro {name body padding : List UInt8} (hname : name.length = 4) (hother : name ≠ tag "data")
      (hsize : body.length < 2 ^ 32) (hpadding : padding.length = body.length % 2) :
      OtherChunk (name ++ lowBytes 4 body.length ++ body ++ padding)

/-- The payload is the body of the first `data` chunk, behind complete chunks of other names. -/
def HasPayload (bytes payload : List UInt8) : Prop :=
  ∃ (field : List UInt8) (chunks : List (List UInt8)) (rest : List UInt8),
    field.length = 4 ∧ (∀ chunk ∈ chunks, OtherChunk chunk) ∧ payload.length < 2 ^ 32 ∧
      bytes = tag "RIFF" ++ field ++ tag "WAVE" ++ chunks.flatten ++
        tag "data" ++ lowBytes 4 payload.length ++ payload ++ rest

/-- What stands behind complete chunks of other names, if it is not a complete `data` chunk. -/
inductive Broken : List UInt8 → Prop where
  /-- No further chunk has a name and a size. -/
  | ended {rest : List UInt8} (h : rest.length < 8) : Broken rest
  /-- A chunk of another name runs past the end, with its body or with its padding. -/
  | overrun {name rest : List UInt8} {size : Nat} (hname : name.length = 4)
      (hother : name ≠ tag "data") (hsize : size < 2 ^ 32) (h : rest.length < size + size % 2) :
      Broken (name ++ lowBytes 4 size ++ rest)
  /-- The body of the `data` chunk runs past the end. -/
  | truncated {rest : List UInt8} {size : Nat} (hsize : size < 2 ^ 32) (h : rest.length < size) :
      Broken (tag "data" ++ lowBytes 4 size ++ rest)

inductive NoPayload : List UInt8 → Prop where
  | short {bytes : List UInt8} (h : bytes.length < 12) : NoPayload bytes
  | tags {riff field wave chunks : List UInt8} (hriff : riff.length = 4) (hfield : field.length = 4)
      (hwave : wave.length = 4) (h : riff ≠ tag "RIFF" ∨ wave ≠ tag "WAVE") :
      NoPayload (riff ++ field ++ wave ++ chunks)
  | chunks {field tail : List UInt8} {chunks : List (List UInt8)} (hfield : field.length = 4)
      (hchunks : ∀ chunk ∈ chunks, OtherChunk chunk) (h : Broken tail) :
      NoPayload (tag "RIFF" ++ field ++ tag "WAVE" ++ chunks.flatten ++ tail)

/-! ## What the walk finds -/

theorem payloadOf_otherChunk {chunk : List UInt8} (h : OtherChunk chunk) (rest : List UInt8) :
    payloadOf (chunk ++ rest) = payloadOf rest := by
  obtain ⟨hname, hother, hsize, hpadding⟩ := h
  next name body padding =>
  have hlength : (body ++ padding).length = body.length + body.length % 2 := by
    rw [List.length_append, hpadding]
  rw [List.append_assoc, List.append_assoc, List.append_assoc, payloadOf_chunk hname hsize,
    if_neg hother, ← List.append_assoc, List.drop_left' hlength]

theorem payloadOf_flatten {chunks : List (List UInt8)} (h : ∀ chunk ∈ chunks, OtherChunk chunk)
    (rest : List UInt8) : payloadOf (chunks.flatten ++ rest) = payloadOf rest := by
  induction chunks with
  | nil => rfl
  | cons chunk chunks ih =>
    obtain ⟨hchunk, hchunks⟩ := List.forall_mem_cons.mp h
    rw [List.flatten_cons, List.append_assoc, payloadOf_otherChunk hchunk, ih hchunks]

theorem payloadOf_broken {bytes : List UInt8} (h : Broken bytes) : payloadOf bytes = none := by
  cases h with
  | ended h => exact payloadOf_of_length_lt h
  | overrun hname hother hsize h =>
    rw [List.append_assoc, payloadOf_chunk hname hsize, if_neg hother,
      List.drop_eq_nil_of_le (Nat.le_of_lt h)]
    exact payloadOf_of_length_lt (by decide)
  | truncated hsize h =>
    rw [List.append_assoc, payloadOf_chunk rfl hsize, if_pos rfl, if_neg (Nat.not_le.mpr h)]

theorem payload?_of_hasPayload {bytes payload : List UInt8} (h : HasPayload bytes payload) :
    payload? bytes = some payload := by
  obtain ⟨field, chunks, rest, hfield, hchunks, hsize, rfl⟩ := h
  simp only [List.append_assoc]
  rw [payload?_descriptor hfield, payloadOf_flatten hchunks, payloadOf_chunk rfl hsize, if_pos rfl,
    if_pos (by rw [List.length_append]; omega), List.take_left]

theorem payload?_of_noPayload {bytes : List UInt8} (h : NoPayload bytes) :
    payload? bytes = none := by
  cases h with
  | short h => exact payload?_of_length_lt h
  | tags hriff hfield hwave h =>
    rw [List.append_assoc, List.append_assoc, payload?_append hriff hfield hwave, if_neg]
    exact fun heq => h.elim (absurd heq.1) (absurd heq.2)
  | chunks hfield hchunks h =>
    simp only [List.append_assoc]
    rw [payload?_descriptor hfield, payloadOf_flatten hchunks, payloadOf_broken h]

/-! ## Taking a file apart -/

/-- A name and a size, with as many bytes behind them as the size asks for. -/
theorem exists_head {bytes : List UInt8} (h : 8 ≤ bytes.length) :
    ∃ name size rest, name.length = 4 ∧ size < 2 ^ 32 ∧ bytes = name ++ lowBytes 4 size ++ rest := by
  refine ⟨bytes.take 4, _, bytes.drop 8, List.length_take_of_le (by omega),
    ofLowBytes_take_lt 4 (bytes.drop 4), ?_⟩
  rw [List.append_assoc]
  exact eq_head_append h

theorem exists_chunks (bytes : List UInt8) :
    ∃ (chunks : List (List UInt8)) (tail : List UInt8),
      bytes = chunks.flatten ++ tail ∧ (∀ chunk ∈ chunks, OtherChunk chunk) ∧
        (Broken tail ∨ ∃ payload rest, payload.length < 2 ^ 32 ∧
          tail = tag "data" ++ lowBytes 4 payload.length ++ payload ++ rest) := by
  induction hn : bytes.length using Nat.strongRecOn generalizing bytes with
  | ind n ih =>
    rcases Nat.lt_or_ge bytes.length 8 with h | h
    · exact ⟨[], bytes, rfl, by simp, .inl (.ended h)⟩
    obtain ⟨name, size, rest, hname, hsize, rfl⟩ := exists_head h
    by_cases hdata : name = tag "data"
    · refine ⟨[], name ++ lowBytes 4 size ++ rest, rfl, by simp, ?_⟩
      rcases Nat.lt_or_ge rest.length size with hfit | hfit
      · rw [hdata]
        exact .inl (.truncated hsize hfit)
      · have hbody : (rest.take size).length = size := List.length_take_of_le hfit
        refine .inr ⟨rest.take size, rest.drop size, by omega, ?_⟩
        simp only [hbody, hdata, List.append_assoc, List.take_append_drop]
    · rcases Nat.lt_or_ge rest.length (size + size % 2) with hfit | hfit
      · exact ⟨[], _, rfl, by simp, .inl (.overrun hname hdata hsize hfit)⟩
      have hbody : (rest.take size).length = size := List.length_take_of_le (by omega)
      have hpadding : ((rest.drop size).take (size % 2)).length = (rest.take size).length % 2 := by
        rw [hbody, length_take_drop hfit]
      have hchunk := OtherChunk.intro hname hdata (by omega) hpadding
      have hshorter : (rest.drop (size + size % 2)).length < n := by
        rw [← hn]
        simp only [List.length_append, List.length_drop, hname, length_lowBytes]
        omega
      obtain ⟨chunks, tail, hrest, hchunks, htail⟩ := ih _ hshorter _ rfl
      refine ⟨_ :: chunks, tail, ?_, List.forall_mem_cons.mpr ⟨hchunk, hchunks⟩, htail⟩
      have hsplit : rest.take size ++ ((rest.drop size).take (size % 2) ++
          rest.drop (size + size % 2)) = rest := by
        rw [← List.drop_drop, List.take_append_drop, List.take_append_drop]
      simp only [List.flatten_cons, List.append_assoc, ← hrest, hbody, hsplit]

theorem hasPayload_or_noPayload (bytes : List UInt8) :
    (∃ payload, HasPayload bytes payload) ∨ NoPayload bytes := by
  rcases Nat.lt_or_ge bytes.length 12 with h | h
  · exact .inr (.short h)
  have hriff : (bytes.take 4).length = 4 := List.length_take_of_le (by omega)
  have hfield : ((bytes.drop 4).take 4).length = 4 := length_take_drop (by omega)
  have hwave : ((bytes.drop 8).take 4).length = 4 := length_take_drop (by omega)
  have hbytes := eq_descriptor_append bytes
  generalize bytes.take 4 = riff at *
  generalize (bytes.drop 4).take 4 = field at *
  generalize (bytes.drop 8).take 4 = wave at *
  obtain ⟨chunks, tail, hchunks, hother, htail⟩ := exists_chunks (bytes.drop 12)
  rw [hchunks] at hbytes
  simp only [← List.append_assoc] at hbytes
  rw [hbytes]
  by_cases htags : riff = tag "RIFF" ∧ wave = tag "WAVE"
  · rw [htags.1, htags.2]
    rcases htail with htail | ⟨payload, rest, hsize, rfl⟩
    · exact .inr (.chunks hfield hother htail)
    · refine .inl ⟨payload, field, chunks, rest, hfield, hother, hsize, ?_⟩
      simp only [List.append_assoc]
  · rw [List.append_assoc]
    exact .inr (.tags hriff hfield hwave (Decidable.not_and_iff_or_not.mp htags))

theorem payload?_eq_some_iff {bytes payload : List UInt8} :
    payload? bytes = some payload ↔ HasPayload bytes payload := by
  refine ⟨fun h => ?_, payload?_of_hasPayload⟩
  rcases hasPayload_or_noPayload bytes with ⟨payload', hpayload⟩ | hnone
  · obtain rfl := Option.some.inj ((payload?_of_hasPayload hpayload).symm.trans h)
    exact hpayload
  · cases (payload?_of_noPayload hnone).symm.trans h

theorem payload?_eq_none_iff {bytes : List UInt8} : payload? bytes = none ↔ NoPayload bytes := by
  refine ⟨fun h => ?_, payload?_of_noPayload⟩
  rcases hasPayload_or_noPayload bytes with ⟨payload, hpayload⟩ | hnone
  · cases (payload?_of_hasPayload hpayload).symm.trans h
  · exact hnone

/-! ## Files -/

theorem extract?_eq_some_iff {file payload : ByteArray} :
    extract? file = some payload ↔ HasPayload file.data.toList payload.data.toList := by
  rw [← payload?_eq_some_iff]
  unfold extract?
  rw [Option.map_eq_some_iff]
  constructor
  · rintro ⟨bytes, h, rfl⟩
    rw [h, List.toList_data_toByteArray]
  · intro h
    refine ⟨_, h, ByteArray.ext (Array.toList_inj.mp ?_)⟩
    rw [List.toList_data_toByteArray]

theorem extract?_eq_none_iff {file : ByteArray} :
    extract? file = none ↔ NoPayload file.data.toList := by
  unfold extract?
  rw [Option.map_eq_none_iff, payload?_eq_none_iff]

theorem map_toList_extract? (file : ByteArray) :
    (extract? file).map (·.data.toList) = payload? file.data.toList := by
  have hlist : (fun payload : ByteArray => payload.data.toList) ∘ List.toByteArray = id :=
    funext fun _ => List.toList_data_toByteArray
  unfold extract?
  rw [Option.map_map, hlist, Option.map_id]
  rfl

/--
The search by positions ends without leaving the file, and agrees with `extract?`. The payload is the
body of the first `data` chunk behind complete chunks of other names. There is at most one, and there
is none exactly if the file is too short, has other tags, or breaks off before the end of that chunk.
-/
theorem extract?_layout (file : ByteArray) :
    scan file = .ok ((extract? file).map (·.data.toList)) ∧
    (∀ payload, extract? file = some payload ↔
      HasPayload file.data.toList payload.data.toList) ∧
    (∀ p q, HasPayload file.data.toList p → HasPayload file.data.toList q → p = q) ∧
    (extract? file = none ↔ NoPayload file.data.toList) ∧
    (NoPayload file.data.toList ↔ ¬ ∃ payload, HasPayload file.data.toList payload) := by
  refine ⟨?_, fun _ => extract?_eq_some_iff, ?_, extract?_eq_none_iff, ?_⟩
  · rw [scan_eq, map_toList_extract?]
  · intro p q hp hq
    exact Option.some.inj ((payload?_of_hasPayload hp).symm.trans (payload?_of_hasPayload hq))
  · rw [← payload?_eq_none_iff, Option.eq_none_iff_forall_ne_some, not_exists]
    simp only [ne_eq, payload?_eq_some_iff]

end ToneScore.Wave
