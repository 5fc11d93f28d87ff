import ToneScore.Proofs.Decimal.Grammar
import ToneScore.Proofs.Pitch.Spelling
import ToneScore.Proofs.Score.FirstFault

/-!
# The grammar of notes

Each of the five fields of a note has a language of its own (`IsStart`, `IsDuration`,
`IsFrequency`, `IsAmplitude`, `IsWaveform`), and its reader accepts exactly that language.
`NoteOutcome` says what a line comes to: the number of its fields is judged first, then the fields
from left to right, and the first bad one alone is at fault. Every line has one outcome, the one
that `readNote` gives (`readNote_eq_iff`). What is accepted can be played (`Playable`).
-/

namespace ToneScore.Score

open Text

/-! ## The five fields -/

def IsStart (token : String) (tick : UInt32) : Prop := IsUnsigned token.toList tick.toNat

/-- The names of the note values and their ticks, from the thirty-second note to the whole note. -/
def noteValues : List (String × UInt32) :=
  [("TS", 2), ("S", 4), ("E", 8), ("Q", 16), ("H", 32), ("W", 64)]

/-- A note value, half as long again if it is dotted, or a number of ticks. -/
inductive IsDuration : String → UInt32 → Prop where
  | plain {name : String} {ticks : UInt32} (h : (name, ticks) ∈ noteValues) : IsDuration name ticks
  | dotted {name : String} {ticks : UInt32} (h : (name, ticks) ∈ noteValues) (hwhole : name ≠ "W") :
      IsDuration ("D" ++ name) (ticks * 3 / 2)
  | literal {token : String} {ticks : UInt32} (h : IsUnsigned token.toList ticks.toNat)
      (hpos : 1 ≤ ticks.toNat) : IsDuration token ticks

def IsFrequency (token : String) (frequency : Float) : Prop :=
  ∃ p, Pitch.IsSpelling token.toList p ∧ p.frequency = frequency ∧ frequency.isFinite = true ∧
    0.0 < frequency

def IsAmplitude (token : String) (amplitude : Float) : Prop :=
  Decimal.IsDecimal token.toList amplitude ∧ amplitude.isFinite = true ∧ 0.0 ≤ amplitude

def IsWaveform (token : String) (waveform : Waveform) : Prop :=
  (token, waveform) ∈
    [("S", Waveform.sine), ("Q", .square), ("A", .sawtooth), ("T", .triangle)]

theorem reads_readStart : Reads readStart IsStart .start := by
  refine reads_of_option (fun token => ?_) fun token tick => word32?_eq_some_iff
  rw [readStart]
  cases word32? token <;> rfl

/-- The abbreviations are the note values and, but for the whole note, the dotted ones. -/
theorem mem_abbreviations_iff {token : String} {ticks : UInt32} :
    (token, ticks) ∈ Duration.abbreviations ↔
      (token, ticks) ∈ noteValues ∨
        ∃ value ∈ noteValues,
          value.1 ≠ "W" ∧ (token, ticks) = ("D" ++ value.1, value.2 * 3 / 2) := by
  constructor
  · exact (by decide : ∀ e ∈ Duration.abbreviations, e ∈ noteValues ∨
      ∃ value ∈ noteValues, value.1 ≠ "W" ∧ e = ("D" ++ value.1, value.2 * 3 / 2)) (token, ticks)
  · rintro (h | ⟨value, hvalue, hwhole, h⟩)
    · exact (by decide : ∀ e ∈ noteValues, e ∈ Duration.abbreviations) _ h
    · rw [h]
      exact (by decide : ∀ value ∈ noteValues, value.1 ≠ "W" →
        ("D" ++ value.1, value.2 * 3 / 2) ∈ Duration.abbreviations) _ hvalue hwhole

theorem mem_of_lookup {token : String} {ticks : UInt32}
    (h : Duration.abbreviations.lookup token = some ticks) :
    (token, ticks) ∈ Duration.abbreviations := by
  obtain ⟨before, after, hls, -⟩ := List.lookup_eq_some_iff.mp h
  rw [hls]
  exact List.mem_append_right _ List.mem_cons_self

/-- No abbreviation stands for two values, and none is a number. -/
theorem lookup_of_mem {token : String} {ticks : UInt32}
    (h : (token, ticks) ∈ Duration.abbreviations) :
    Duration.abbreviations.lookup token = some ticks ∧ word32? token = none :=
  (by decide : ∀ e ∈ Duration.abbreviations,
    Duration.abbreviations.lookup e.1 = some e.2 ∧ word32? e.1 = none) _ h

theorem ticks?_of_mem {token : String} {ticks : UInt32}
    (h : (token, ticks) ∈ Duration.abbreviations) : Duration.ticks? token = some ticks := by
  rw [Duration.ticks?, (lookup_of_mem h).1]

theorem ticks?_eq_some_iff {token : String} {ticks : UInt32} :
    Duration.ticks? token = some ticks ↔ IsDuration token ticks := by
  constructor
  · intro h
    unfold Duration.ticks? at h
    split at h
    · next n hn =>
      obtain rfl := Option.some.inj h
      rcases mem_abbreviations_iff.mp (mem_of_lookup hn) with h | ⟨value, hvalue, hwhole, h⟩
      · exact .plain h
      · obtain ⟨rfl, rfl⟩ := Prod.mk.inj h
        exact .dotted hvalue hwhole
    · obtain ⟨hword, hpos⟩ := Option.filter_eq_some_iff.mp h
      have hpos : 0 < ticks := of_decide_eq_true hpos
      exact .literal (word32?_eq_some_iff.mp hword) (UInt32.lt_iff_toNat_lt.mp hpos)
  · intro h
    cases h with
    | plain h => exact ticks?_of_mem (mem_abbreviations_iff.mpr (.inl h))
    | dotted h hwhole => exact ticks?_of_mem (mem_abbreviations_iff.mpr (.inr ⟨_, h, hwhole, rfl⟩))
    | literal h hpos =>
      have hword := word32?_eq_some_iff.mpr h
      have hlookup : Duration.abbreviations.lookup token = none := by
        cases hlookup : Duration.abbreviations.lookup token with
        | none => rfl
        | some n => cases (lookup_of_mem (mem_of_lookup hlookup)).2.symm.trans hword
      have hpos : 0 < ticks := UInt32.lt_iff_toNat_lt.mpr hpos
      rw [Duration.ticks?, hlookup, hword]
      exact Option.filter_eq_some_iff.mpr ⟨rfl, decide_eq_true hpos⟩

theorem reads_readDuration : Reads readDuration IsDuration .duration := by
  refine reads_of_option (fun token => ?_) fun token ticks => ticks?_eq_some_iff
  rw [readDuration]
  cases Duration.ticks? token <;> rfl

theorem reads_readFrequency : Reads readFrequency IsFrequency .pitch := by
  have hread (token : String) : readFrequency token =
      ((Pitch.ofToken? token).bind fun p =>
        if p.frequency.isFinite && 0.0 < p.frequency then some p.frequency else none).elim
        (.error (.pitch token)) .ok := by
    rw [readFrequency, readTuned, readPitch]
    cases Pitch.ofToken? token with
    | none => rfl
    | some p =>
      show (if p.frequency.isFinite && 0.0 < p.frequency then _ else _) = _
      simp only [Option.bind_some]
      split <;> rfl
  refine reads_of_option hread fun token frequency => ?_
  simp only [Option.bind_eq_some_iff, Pitch.ofToken?_eq_some_iff, IsFrequency]
  refine exists_congr fun p => and_congr_right fun _ => ?_
  constructor
  · intro h
    split at h
    · next hsound =>
      obtain rfl := Option.some.inj h
      rw [Bool.and_eq_true, decide_eq_true_eq] at hsound
      exact ⟨rfl, hsound⟩
    · cases h
  · rintro ⟨rfl, hfinite, hpos⟩
    rw [if_pos (by rw [hfinite, decide_eq_true hpos]; rfl)]

theorem reads_readAmplitude : Reads readAmplitude IsAmplitude .amplitude := by
  have hread (token : String) : readAmplitude token =
      ((Decimal.read? token).filter fun a => a.isFinite && 0.0 ≤ a).elim
        (.error (.amplitude token)) .ok := by
    rw [readAmplitude]
    cases Decimal.read? token with
    | none => rfl
    | some a => simp only [Option.filter_some]; split <;> rfl
  refine reads_of_option hread fun token amplitude => ?_
  rw [Option.filter_eq_some_iff, Decimal.read?_eq_some_iff, Bool.and_eq_true, decide_eq_true_eq]
  rfl

theorem ofToken?_eq_some_iff {token : String} {waveform : Waveform} :
    Waveform.ofToken? token = some waveform ↔ IsWaveform token waveform := by
  constructor
  · intro h
    unfold Waveform.ofToken? at h
    split at h <;> cases h <;> simp [IsWaveform]
  · intro h
    exact (by decide : ∀ e ∈ [("S", Waveform.sine), ("Q", .square), ("A", .sawtooth),
      ("T", .triangle)], Waveform.ofToken? e.1 = some e.2) _ h

theorem reads_readWaveform : Reads readWaveform IsWaveform .waveform := by
  refine reads_of_option (fun token => ?_) fun token waveform => ofToken?_eq_some_iff
  rw [readWaveform]
  cases Waveform.ofToken? token <;> rfl

/-! ## The line -/

def IsFields (line start duration pitch amplitude waveform : String) : Prop :=
  IsWords line.toList ([start, duration, pitch, amplitude, waveform].map String.toList)

/-- What a line comes to: the first fault in it, or its note. -/
inductive NoteOutcome (line : String) : Except Fault Note → Prop where
  | shape {fields : List (List Char)} (h : IsWords line.toList fields) (hn : fields.length ≠ 5) :
      NoteOutcome line (.error (.shape line))
  | start {s d p a w : String} (h : IsFields line s d p a w) (hs : ∀ tick, ¬ IsStart s tick) :
      NoteOutcome line (.error (.start s))
  | duration {s d p a w : String} {tick : UInt32} (h : IsFields line s d p a w)
      (hs : IsStart s tick) (hd : ∀ ticks, ¬ IsDuration d ticks) :
      NoteOutcome line (.error (.duration d))
  | pitch {s d p a w : String} {tick ticks : UInt32} (h : IsFields line s d p a w)
      (hs : IsStart s tick) (hd : IsDuration d ticks)
      (hp : ∀ frequency, ¬ IsFrequency p frequency) :
      NoteOutcome line (.error (.pitch p))
  | amplitude {s d p a w : String} {tick ticks : UInt32} {frequency : Float}
      (h : IsFields line s d p a w) (hs : IsStart s tick) (hd : IsDuration d ticks)
      (hp : IsFrequency p frequency) (ha : ∀ amplitude, ¬ IsAmplitude a amplitude) :
      NoteOutcome line (.error (.amplitude a))
  | waveform {s d p a w : String} {tick ticks : UInt32} {frequency amplitude : Float}
      (h : IsFields line s d p a w) (hs : IsStart s tick) (hd : IsDuration d ticks)
      (hp : IsFrequency p frequency) (ha : IsAmplitude a amplitude)
      (hw : ∀ waveform, ¬ IsWaveform w waveform) :
      NoteOutcome line (.error (.waveform w))
  | note {s d p a w : String} {note : Note} (h : IsFields line s d p a w)
      (hs : IsStart s note.start) (hd : IsDuration d note.duration)
      (hp : IsFrequency p note.frequency) (ha : IsAmplitude a note.amplitude)
      (hw : IsWaveform w note.waveform) :
      NoteOutcome line (.ok note)

theorem readNote_of_fields {line s d p a w : String} (h : IsFields line s d p a w) :
    readNote line = (do
      let start ← readStart s
      let duration ← readDuration d
      let frequency ← readFrequency p
      let amplitude ← readAmplitude a
      let waveform ← readWaveform w
      pure ⟨start, duration, frequency, amplitude, waveform⟩) := by
  rw [readNote, words_eq_iff.mpr h]

theorem eq_five_or_length_ne (fields : List String) :
    (∃ s d p a w, fields = [s, d, p, a, w]) ∨ fields.length ≠ 5 :=
  match fields with
  | [s, d, p, a, w] => .inl ⟨s, d, p, a, w, rfl⟩
  | [] | [_] | [_, _] | [_, _, _] | [_, _, _, _] => .inr (by simp)
  | _ :: _ :: _ :: _ :: _ :: _ :: _ => .inr (by simp)

theorem exists_noteOutcome (line : String) : ∃ result, NoteOutcome line result := by
  have hwords := words_eq_iff.mp (rfl : words line = words line)
  rcases eq_five_or_length_ne (words line) with ⟨s, d, p, a, w, hfields⟩ | hn
  case inr => exact ⟨_, .shape hwords (by rwa [List.length_map])⟩
  rw [hfields] at hwords
  -- A field is looked at only if those before it are good.
  cases hs : readStart s with
  | error e => exact ⟨_, .start hwords ((reads_readStart.error_iff s e).mp hs).2⟩
  | ok start =>
  rw [reads_readStart.ok_iff] at hs
  cases hd : readDuration d with
  | error e => exact ⟨_, .duration hwords hs ((reads_readDuration.error_iff d e).mp hd).2⟩
  | ok duration =>
  rw [reads_readDuration.ok_iff] at hd
  cases hp : readFrequency p with
  | error e => exact ⟨_, .pitch hwords hs hd ((reads_readFrequency.error_iff p e).mp hp).2⟩
  | ok frequency =>
  rw [reads_readFrequency.ok_iff] at hp
  cases ha : readAmplitude a with
  | error e => exact ⟨_, .amplitude hwords hs hd hp ((reads_readAmplitude.error_iff a e).mp ha).2⟩
  | ok amplitude =>
  rw [reads_readAmplitude.ok_iff] at ha
  cases hw : readWaveform w with
  | error e =>
    exact ⟨_, .waveform hwords hs hd hp ha ((reads_readWaveform.error_iff w e).mp hw).2⟩
  | ok waveform =>
  rw [reads_readWaveform.ok_iff] at hw
  exact ⟨.ok ⟨start, duration, frequency, amplitude, waveform⟩, .note hwords hs hd hp ha hw⟩

theorem readNote_of_noteOutcome {line : String} {result : Except Fault Note}
    (h : NoteOutcome line result) : readNote line = result := by
  cases h with
  | @shape fields h hn =>
    have hlength : (words line).length ≠ 5 := by
      rw [words, isWords_iff.mp h, List.length_map]
      exact hn
    unfold readNote
    split
    · next hwords => rw [hwords] at hlength; exact absurd rfl hlength
    · rfl
  | start h hs =>
    rw [readNote_of_fields h, reads_readStart.eq_error hs]
    rfl
  | duration h hs hd =>
    rw [readNote_of_fields h, reads_readStart.eq_ok hs, reads_readDuration.eq_error hd]
    rfl
  | pitch h hs hd hp =>
    rw [readNote_of_fields h, reads_readStart.eq_ok hs, reads_readDuration.eq_ok hd,
      reads_readFrequency.eq_error hp]
    rfl
  | amplitude h hs hd hp ha =>
    rw [readNote_of_fields h, reads_readStart.eq_ok hs, reads_readDuration.eq_ok hd,
      reads_readFrequency.eq_ok hp, reads_readAmplitude.eq_error ha]
    rfl
  | waveform h hs hd hp ha hw =>
    rw [readNote_of_fields h, reads_readStart.eq_ok hs, reads_readDuration.eq_ok hd,
      reads_readFrequency.eq_ok hp, reads_readAmplitude.eq_ok ha, reads_readWaveform.eq_error hw]
    rfl
  | note h hs hd hp ha hw =>
    rw [readNote_of_fields h, reads_readStart.eq_ok hs, reads_readDuration.eq_ok hd,
      reads_readFrequency.eq_ok hp, reads_readAmplitude.eq_ok ha, reads_readWaveform.eq_ok hw]
    rfl

theorem readNote_eq_iff {line : String} {result : Except Fault Note} :
    readNote line = result ↔ NoteOutcome line result := by
  refine ⟨?_, readNote_of_noteOutcome⟩
  rintro rfl
  obtain ⟨result, h⟩ := exists_noteOutcome line
  rw [readNote_of_noteOutcome h]
  exact h

/-! ## What is accepted -/

/-- A note that sounds for at least a tick, at a frequency and a level that can be computed with. -/
structure Playable (note : Note) : Prop where
  duration : 1 ≤ note.duration.toNat
  frequency : note.frequency.isFinite = true ∧ 0.0 < note.frequency
  amplitude : note.amplitude.isFinite = true ∧ 0.0 ≤ note.amplitude

theorem IsDuration.pos {token : String} {ticks : UInt32} (h : IsDuration token ticks) :
    1 ≤ ticks.toNat := by
  have hvalues : ∀ value ∈ noteValues, 1 ≤ value.2.toNat ∧ 1 ≤ (value.2 * 3 / 2).toNat := by decide
  cases h with
  | literal _ hpos => exact hpos
  | plain h => exact (hvalues _ h).1
  | dotted h _ => exact (hvalues _ h).2

theorem playable_of_readNote {line : String} {note : Note} (h : readNote line = .ok note) :
    Playable note := by
  cases readNote_eq_iff.mp h with
  | note _ _ hd hp ha _ =>
    obtain ⟨p, -, -, hfrequency⟩ := hp
    exact ⟨hd.pos, hfrequency, ha.2⟩

theorem playable_of_read {text : String} {score : Score} (h : read text = .ok score) {note : Note}
    (hnote : note ∈ score.notes) : Playable note := by
  obtain ⟨first, rest, -, -, hrest⟩ := read_eq_ok_iff.mp h
  have hmem : Except.ok note ∈ rest.map readNote := by
    rw [hrest]
    exact List.mem_map_of_mem hnote
  obtain ⟨line, -, hline⟩ := List.mem_map.mp hmem
  exact playable_of_readNote hline

/--
A line is read as the grammar of notes says: five fields, each judged by its own language from left
to right, the first bad one being at fault, and else the note of their values. The notes of an
accepted score can all be played.
-/
theorem readNote_grammar :
    (∀ line result, readNote line = result ↔ NoteOutcome line result) ∧
    ∀ text score, read text = .ok score → ∀ note ∈ score.notes, Playable note :=
  ⟨fun _ _ => readNote_eq_iff, fun _ _ h _ => playable_of_read h⟩

theorem playable_of_one_note : ∃ score, read "120\n0 Q A4 1.0 S" = .ok score ∧
    score.notes.length = 1 ∧ ∀ note ∈ score.notes, Playable note := by
  have hlength : (read "120\n0 Q A4 1.0 S").toOption.map (·.notes.length) = some 1 := by
    decide +kernel
  cases hread : read "120\n0 Q A4 1.0 S" with
  | error fault => exact nomatch hread ▸ hlength
  | ok score =>
    rw [hread] at hlength
    exact ⟨score, rfl, Option.some.inj hlength, readNote_grammar.2 _ score hread⟩

end ToneScore.Score
