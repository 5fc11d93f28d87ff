import ToneScore.Proofs.Render.Messages
import ToneScore.Proofs.Render.Outcome
import ToneScore.Proofs.Score.FirstFault

/-!
# The trace of a render

`Trace` says which log goes with which outcome. The entries of accepted notes (`Noted`) come first,
up to the first refused line, the spans (`Mixed`) only in a render that nothing stops, and then the
summary and the warning. There is a trace for every text (`exists_trace`), and the render is the
one that it tells of (`render_of_trace`). What a run that breaks off has logged until then is its
trace as well.
-/

namespace ToneScore

open Binary64

/-- The log of lines that are all read as notes, the first of them with the given number. -/
inductive Noted : Nat → List String → List LogEntry → Prop where
  | nil {number : Nat} : Noted number [] []
  | cons {number : Nat} {line : String} {note : Note} {rest : List String} {log : List LogEntry}
      (h : Score.readNote line = .ok note) (hrest : Noted (number + 1) rest log) :
      Noted number (line :: rest) (.accepted number note :: log)

/-- The log of notes that are placed one after the other, each on its own span. -/
inductive Mixed (m : Mixer) (bpm : Float) : List Note → List LogEntry → Prop where
  | nil : Mixed m bpm [] []
  | cons {note : Note} {span : Span} {rest : List Note} {log : List LogEntry}
      (h : m.span? note bpm = some span) (hrest : Mixed m bpm rest log) :
      Mixed m bpm (note :: rest) (.mixing note span :: log)

def warning (highest : Float) : List LogEntry :=
  if 1.0 < highest then [.clipping highest] else []

/-- What a render has logged when it ends. Line 1 is the tempo, so the notes begin at line 2. -/
inductive Trace (o : Overflow) (c : Config) (text : String) :
    List LogEntry → Except RenderError ByteArray → Prop where
  | format {e : Wave.Error} (h : c.format.check o = .error e) :
      Trace o c text [] (.error (.wave e))
  | score {before : List String} {line : String} {after : List String} {fault : Score.LineFault}
      {notes : List LogEntry} (hc : c.format.check o = .ok ())
      (hrows : Score.rows text = before ++ line :: after)
      (h : Score.FirstFault before line fault) (hnotes : Noted 2 before.tail notes) :
      Trace o c text notes (.error (.score fault))
  | refused {score : Score} {e : RenderError} {notes : List LogEntry} (hs : Admitted o c text score)
      (h : Outcome o c text (.error e)) (hnotes : Noted 2 (Score.rows text).tail notes) :
      Trace o c text notes (.error e)
  | rendered {score : Score} {frames : Nat} {samples : Array Float} {file : ByteArray}
      {notes mixing : List LogEntry} (hs : Storable o c text score frames)
      (hl : frames ≤ c.sampleRate.toNat * c.maxSeconds.toNat)
      (hm : c.mixer.mix score = .ok samples) (he : Wave.encode o c.format samples = .ok file)
      (hnotes : Noted 2 (Score.rows text).tail notes)
      (hmixing : Mixed c.mixer score.bpm score.notes mixing) :
      Trace o c text
        (notes ++ (mixing ++
          .rendered score.notes.length score.bpm frames (ofCount frames / c.sampleRate.toFloat)
            (peak samples) :: warning (peak samples)))
        (.ok file)

/-! ## Entries of accepted notes -/

theorem exists_noted {ls : List String} (h : ∀ line ∈ ls, ∃ note, Score.readNote line = .ok note)
    (number : Nat) : ∃ log, Noted number ls log := by
  induction ls generalizing number with
  | nil => exact ⟨[], .nil⟩
  | cons line rest ih =>
    obtain ⟨⟨note, hnote⟩, hrest⟩ := List.forall_mem_cons.mp h
    obtain ⟨log, hlog⟩ := ih hrest (number + 1)
    exact ⟨_, .cons hnote hlog⟩

theorem accepted_of_noted {number : Nat} {ls : List String} {log : List LogEntry}
    (h : Noted number ls log) : ∀ entry ∈ log, ∃ line note, entry = .accepted line note := by
  induction h with
  | nil => simp
  | cons h hrest ih => exact List.forall_mem_cons.mpr ⟨⟨_, _, rfl⟩, ih⟩

theorem map_level_noted {number : Nat} {ls : List String} {log : List LogEntry}
    (h : Noted number ls log) : log.map LogEntry.level = List.replicate ls.length .debug := by
  induction h with
  | nil => rfl
  | cons h hrest ih => rw [List.map_cons, ih, List.length_cons, List.replicate_succ]; rfl

/-- The reader collects the notes of a log, and goes on behind them. -/
theorem readNotes_of_noted {number : Nat} {ls : List String} {log : List LogEntry}
    (h : Noted number ls log) (after : List String) :
    (Score.readNotes number (ls ++ after)).1.map (fun (line, note) => LogEntry.accepted line note) =
      log ++ (Score.readNotes (number + ls.length) after).1.map
        fun (line, note) => LogEntry.accepted line note := by
  induction h with
  | nil => rfl
  | @cons number line note rest log h hrest ih =>
    have hnumber : number + (rest.length + 1) = number + 1 + rest.length := by omega
    simp only [List.cons_append, Score.readNotes, h, List.map_cons, ih, List.length_cons, hnumber]

theorem accepted_reading {text first : String} {rest : List String} {bpm : Float}
    (hrows : Score.rows text = first :: rest) (htempo : Score.readTempo first = .ok bpm) :
    (Score.reading text).accepted = (Score.readNotes 2 rest).1 := by
  rw [Score.rows_eq] at hrows
  obtain ⟨rfl, rfl⟩ := List.cons.inj hrows
  unfold Score.reading
  simp only [htempo]
  obtain ⟨notes, stop⟩ := Score.readNotes 2 (Text.lines text).tail
  cases stop <;> rfl

/-- Up to the first refused line, every line behind the tempo is logged. -/
theorem acceptedEntries_of_fault {text line : String} {before after : List String}
    {fault : Score.LineFault} {notes : List LogEntry}
    (hrows : Score.rows text = before ++ line :: after) (h : Score.FirstFault before line fault)
    (hnotes : Noted 2 before.tail notes) : acceptedEntries (Score.reading text) = notes := by
  obtain ⟨hnumber, hrefused, haccepted⟩ := h
  rw [hnumber] at hrefused
  cases before with
  | nil =>
    cases hnotes
    have htempo := Score.refused_one_iff.mp hrefused
    rw [Score.rows_eq] at hrows
    obtain ⟨rfl, -⟩ := List.cons.inj hrows
    simp only [acceptedEntries, Score.reading, htempo, List.map_nil]
  | cons first before =>
    rw [List.cons_append] at hrows
    rw [List.tail_cons] at hnotes
    obtain ⟨⟨bpm, htempo⟩, -⟩ := Score.accepted_cons.mp haccepted
    have hnote := (Score.refused_iff_of_two_le (Nat.le_add_left 2 _)).mp hrefused
    rw [acceptedEntries, accepted_reading hrows htempo, readNotes_of_noted hnotes]
    simp only [Score.readNotes, hnote, List.map_nil, List.append_nil]

theorem acceptedEntries_of_read {text : String} {score : Score} {notes : List LogEntry}
    (h : Score.read text = .ok score) (hnotes : Noted 2 (Score.rows text).tail notes) :
    acceptedEntries (Score.reading text) = notes := by
  obtain ⟨first, rest, hrows, htempo, -⟩ := Score.read_eq_ok_iff.mp h
  rw [hrows, List.tail_cons] at hnotes
  have hall := readNotes_of_noted hnotes []
  rw [List.append_nil] at hall
  rw [acceptedEntries, accepted_reading hrows htempo, hall]
  exact List.append_nil notes

/-! ## Entries of placed notes -/

theorem mixed_iff {m : Mixer} {bpm : Float} {notes : List Note} {log : List LogEntry} :
    Mixed m bpm notes log ↔ ∃ placed, m.placed? bpm notes = some placed ∧
      log = placed.map fun (note, span) => .mixing note span := by
  constructor
  · intro h
    induction h with
    | nil => exact ⟨[], rfl, rfl⟩
    | @cons note span rest log h hrest ih =>
      obtain ⟨placed, hplaced, rfl⟩ := ih
      exact ⟨(note, span) :: placed, by rw [Mixer.placed?_cons, h, hplaced]; rfl, rfl⟩
  · rintro ⟨placed, hplaced, rfl⟩
    induction notes generalizing placed with
    | nil => cases hplaced; exact .nil
    | cons note rest ih =>
      rw [Mixer.placed?_cons, Option.bind_eq_some_iff] at hplaced
      obtain ⟨span, hspan, hplaced⟩ := hplaced
      obtain ⟨tail, htail, rfl⟩ := Option.map_eq_some_iff.mp hplaced
      exact .cons hspan (ih tail htail)

theorem map_level_mixed {m : Mixer} {bpm : Float} {notes : List Note} {log : List LogEntry}
    (h : Mixed m bpm notes log) :
    log.map LogEntry.level = List.replicate notes.length .debug := by
  induction h with
  | nil => rfl
  | cons h hrest ih => rw [List.map_cons, ih, List.length_cons, List.replicate_succ]; rfl

theorem exists_mixed {m : Mixer} {score : Score} {frames : Nat}
    (h : m.length? score = some frames) : ∃ log, Mixed m score.bpm score.notes log := by
  rw [Mixer.length?_eq, Option.map_eq_some_iff] at h
  obtain ⟨placed, hplaced, -⟩ := h
  exact ⟨_, mixed_iff.mpr ⟨placed, hplaced, rfl⟩⟩

/-! ## Renders and traces -/

variable {o : Overflow} {c : Config} {text : String} {score : Score} {frames : Nat}

theorem mixEntries_eq (c : Config) (score : Score) (samples : Array Float) :
    mixEntries c score samples =
      .rendered score.notes.length score.bpm samples.size
        (ofCount samples.size / c.sampleRate.toFloat) (peak samples) :: warning (peak samples) := by
  unfold mixEntries warning
  simp only
  split <;> rfl

theorem size_of_mix {samples : Array Float} (hs : Measured o c text score frames)
    (hm : c.mixer.mix score = .ok samples) : samples.size = frames :=
  Option.some.inj ((Mixer.length?_of_mix hm).symm.trans hs.length)

theorem render_of_trace {log : List LogEntry} {result : Except RenderError ByteArray}
    (h : Trace o c text log result) : render o c text = ⟨log, result⟩ := by
  cases h with
  | format h => simp only [render, h]
  | score hc hrows h hnotes =>
    have hread : (Score.reading text).result = _ :=
      Score.read_eq_error_iff.mpr ⟨_, _, _, hrows, h⟩
    simp only [render, hc, hread, acceptedEntries_of_fault hrows h hnotes]
  | refused hs h hnotes =>
    rw [render_of_admitted hs, acceptedEntries_of_read hs.read hnotes,
      renderScore_of_error hs h, List.append_nil]
  | rendered hs hl hm he hnotes hmixing =>
    obtain ⟨placed, hplaced, rfl⟩ := mixed_iff.mp hmixing
    rw [render_of_admitted hs.toAdmitted, acceptedEntries_of_read hs.read hnotes,
      renderScore_of_mix hs hl hm he, Mixer.placements?_eq, hplaced, Option.getD_some, mixEntries_eq,
      size_of_mix hs.toMeasured hm]

theorem exists_noted_of_read (h : Score.read text = .ok score) :
    ∃ log, Noted 2 (Score.rows text).tail log ∧
      (Score.rows text).tail.length = score.notes.length := by
  obtain ⟨first, rest, hrows, -, hnotes⟩ := Score.read_eq_ok_iff.mp h
  rw [hrows, List.tail_cons]
  have hread : ∀ line ∈ rest, ∃ note, Score.readNote line = .ok note := by
    intro line hline
    have hmem : Score.readNote line ∈ rest.map Score.readNote := List.mem_map_of_mem hline
    rw [hnotes] at hmem
    obtain ⟨note, -, hnote⟩ := List.mem_map.mp hmem
    exact ⟨note, hnote.symm⟩
  obtain ⟨log, hlog⟩ := exists_noted hread 2
  exact ⟨log, hlog, by simpa using congrArg List.length hnotes⟩

theorem exists_trace_of_admitted {result : Except RenderError ByteArray}
    (hs : Admitted o c text score) (h : Outcome o c text result) :
    ∃ log, Trace o c text log result := by
  obtain ⟨notes, hnotes, -⟩ := exists_noted_of_read hs.read
  cases result with
  | error e => exact ⟨notes, .refused hs h hnotes⟩
  | ok file =>
    cases h with
    | rendered hs hl hm he =>
      obtain ⟨mixing, hmixing⟩ := exists_mixed hs.length
      exact ⟨_, .rendered hs hl hm he hnotes hmixing⟩

theorem exists_trace (o : Overflow) (c : Config) (text : String) :
    ∃ log result, Trace o c text log result := by
  obtain ⟨result, h⟩ := exists_outcome o c text
  cases hc : c.format.check o with
  | error e => exact ⟨_, _, .format hc⟩
  | ok u =>
    cases hr : Score.read text with
    | error fault =>
      obtain ⟨before, line, after, hrows, hfault⟩ := Score.read_eq_error_iff.mp hr
      have hnotes : ∃ log, Noted 2 before.tail log := by
        cases before with
        | nil => exact ⟨[], .nil⟩
        | cons first before => exact exists_noted (Score.accepted_cons.mp hfault.accepted).2 2
      obtain ⟨log, hlog⟩ := hnotes
      exact ⟨log, _, .score hc hrows hfault hlog⟩
    | ok score =>
      obtain ⟨log, htrace⟩ := exists_trace_of_admitted ⟨hc, hr⟩ h
      exact ⟨log, result, htrace⟩

theorem trace_render (o : Overflow) (c : Config) (text : String) :
    Trace o c text (render o c text).log (render o c text).result := by
  obtain ⟨log, result, h⟩ := exists_trace o c text
  rw [render_of_trace h]
  exact h

theorem Trace.accepted {log : List LogEntry} {e : RenderError} (h : Trace o c text log (.error e)) :
    ∀ entry ∈ log, ∃ line note, entry = .accepted line note := by
  cases h with
  | format h => simp
  | score hc hrows h hnotes => exact accepted_of_noted hnotes
  | refused hs h hnotes => exact accepted_of_noted hnotes

theorem map_level_warning (highest : Float) :
    (warning highest).map LogEntry.level = if 1.0 < highest then [.warn] else [] := by
  unfold warning
  split <;> rfl

/-- Each note is reported twice, when it is read and when it is mixed, and the mix once. -/
theorem Trace.levels {log : List LogEntry} {file : ByteArray} (h : Trace o c text log (.ok file)) :
    ∃ score samples, Score.read text = .ok score ∧ c.mixer.mix score = .ok samples ∧
      Wave.encode o c.format samples = .ok file ∧
      log.map LogEntry.level = List.replicate (score.notes.length + score.notes.length) .debug ++
        .info :: if 1.0 < peak samples then [.warn] else [] := by
  cases h with
  | @rendered score frames samples file notes mixing hs hl hm he hnotes hmixing =>
    obtain ⟨-, -, hlength⟩ := exists_noted_of_read hs.read
    refine ⟨score, samples, hs.read, hm, he, ?_⟩
    rw [List.map_append, List.map_append, map_level_noted hnotes, map_level_mixed hmixing,
      hlength, List.map_cons, map_level_warning, ← List.append_assoc, List.replicate_append_replicate]
    rfl

/--
The log of a render is its trace: nothing for a format that does not exist, the notes above the
first refused line, and the spans, the summary and the warning in that order for a file. Without a
file there is none of the last three. Each entry is written with its level, and its text reports the
line number, the ends of the span or the counts, and cannot be taken for a report of others.
-/
theorem render_trace (o : Overflow) (c : Config) (text : String) :
    (∀ log result, render o c text = ⟨log, result⟩ ↔ Trace o c text log result) ∧
    (∀ e, (render o c text).result = .error e →
      ∀ entry ∈ (render o c text).log, ∃ line note, entry = .accepted line note) ∧
    (∀ file, (render o c text).result = .ok file →
      ∃ score samples, Score.read text = .ok score ∧ c.mixer.mix score = .ok samples ∧
        Wave.encode o c.format samples = .ok file ∧
        (render o c text).log.map LogEntry.level =
          List.replicate (score.notes.length + score.notes.length) .debug ++
            .info :: if 1.0 < peak samples then [.warn] else []) ∧
    ∀ entry ∈ (render o c text).log,
      Reports entry entry.level entry.message ∧
        ∀ other level, Reports other level entry.message →
          level = entry.level ∧ other.numbers = entry.numbers := by
  have htrace := trace_render o c text
  refine ⟨fun log result => ⟨?_, render_of_trace⟩, fun e he => ?_, fun file hfile => ?_, ?_⟩
  · intro h
    rw [h] at htrace
    exact htrace
  · rw [he] at htrace
    exact htrace.accepted
  · rw [hfile] at htrace
    exact htrace.levels
  · intro entry _
    exact ⟨reports_message entry, fun _ _ h => numbers_of_reports h (reports_message entry)⟩

end ToneScore
