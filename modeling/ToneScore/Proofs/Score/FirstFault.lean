import ToneScore.Proofs.Text.Lines
import ToneScore.Proofs.Text.Words
import ToneScore.Score.Reading

/-!
# The first fault of a score

Every line is judged on its own: the first as a tempo, the others as notes (`Refused`). Either all
lines are accepted, or there is a first one that is not (`exists_judged`), and reading the score
comes to the tempo and the notes of its lines or to the fault of that line (`read_of_judged`). So
what stands behind the first refused line does not count.
-/

namespace ToneScore.Score

open Text

/-- The lines of a text; the text without any has one empty line. -/
def rows (text : String) : List String :=
  if text = "" then [""] else lines text

/-- A line that cannot stand at its number, counted from 1. -/
inductive Refused : Nat → String → Fault → Prop where
  | tempo {line : String} {fault : Fault} (h : readTempo line = .error fault) :
      Refused 1 line fault
  | note {number : Nat} {line : String} {fault : Fault} (hn : 2 ≤ number)
      (h : readNote line = .error fault) :
      Refused number line fault

/-- No line is refused at its number. -/
def Accepted (ls : List String) : Prop :=
  ∀ i line, ls[i]? = some line → ∀ fault, ¬ Refused (i + 1) line fault

/-- The first refused line is the one behind `before`. -/
structure FirstFault (before : List String) (line : String) (e : LineFault) : Prop where
  number : e.line = before.length + 1
  refused : Refused e.line line e.fault
  accepted : Accepted before

inductive Judged (ls : List String) : Except LineFault Score → Prop where
  | fault {before : List String} {line : String} {after : List String} {e : LineFault}
      (hls : ls = before ++ line :: after) (h : FirstFault before line e) :
      Judged ls (.error e)
  | score {first : String} {rest : List String} {score : Score} (hls : ls = first :: rest)
      (tempo : readTempo first = .ok score.bpm)
      (notes : rest.map readNote = score.notes.map .ok) :
      Judged ls (.ok score)

/-! ## Lines of a text -/

theorem lines_eq_nil_iff {text : String} : lines text = [] ↔ text = "" := by
  rw [lines, List.map_eq_nil_iff, linesOf_eq_nil_iff, String.toList_eq_nil_iff]

theorem rows_eq (text : String) : rows text = (lines text).headD "" :: (lines text).tail := by
  unfold rows
  split
  · next h => rw [lines_eq_nil_iff.mpr h]; rfl
  · next h =>
    obtain ⟨first, rest, hls⟩ := List.exists_cons_of_ne_nil (mt lines_eq_nil_iff.mp h)
    rw [hls]
    rfl

theorem toList_rows {text : String} (h : text ≠ "") :
    (rows text).map String.toList = linesOf text.toList := by
  have hlist : String.toList ∘ String.ofList = id := funext fun _ => String.toList_ofList
  rw [rows, if_neg h, lines, List.map_map, hlist, List.map_id]

theorem lines_append (front after : String) :
    lines (front ++ "\n" ++ after) = lines (front ++ "\n") ++ lines after := by
  have hnewline : "\n".toList = ['\n'] := rfl
  unfold lines
  rw [String.toList_append, String.toList_append, hnewline, List.append_assoc, List.singleton_append,
    linesOf_append, List.map_append]

theorem rows_append (front after : String) :
    rows (front ++ "\n" ++ after) = lines (front ++ "\n") ++ lines after := by
  have hne : front ++ "\n" ++ after ≠ "" := by
    intro h
    have := congrArg String.toList h
    simp at this
  rw [rows, if_neg hne, lines_append]

/-! ## Accepted and refused lines -/

theorem refused_one_iff {line : String} {fault : Fault} :
    Refused 1 line fault ↔ readTempo line = .error fault := by
  refine ⟨fun h => ?_, .tempo⟩
  cases h with
  | tempo h => exact h
  | note hn h => omega

theorem refused_iff_of_two_le {number : Nat} (hn : 2 ≤ number) {line : String} {fault : Fault} :
    Refused number line fault ↔ readNote line = .error fault := by
  refine ⟨fun h => ?_, .note hn⟩
  cases h with
  | tempo h => omega
  | note _ h => exact h

theorem accepted_nil : Accepted [] := by
  intro i line h
  cases h

theorem accepted_cons {first : String} {rest : List String} :
    Accepted (first :: rest) ↔
      (∃ bpm, readTempo first = .ok bpm) ∧ ∀ line ∈ rest, ∃ note, readNote line = .ok note := by
  constructor
  · intro h
    constructor
    · cases htempo : readTempo first with
      | error fault => exact absurd (refused_one_iff.mpr htempo) (h 0 first rfl fault)
      | ok bpm => exact ⟨bpm, rfl⟩
    · intro line hmem
      obtain ⟨i, hi⟩ := List.mem_iff_getElem?.mp hmem
      cases hnote : readNote line with
      | error fault =>
        exact absurd ((refused_iff_of_two_le (by omega)).mpr hnote) (h (i + 1) line hi fault)
      | ok note => exact ⟨note, rfl⟩
  · rintro ⟨⟨bpm, htempo⟩, hnotes⟩ i line hi fault hrefused
    cases i with
    | zero =>
      obtain rfl : first = line := Option.some.inj hi
      cases htempo.symm.trans (refused_one_iff.mp hrefused)
    | succ i =>
      obtain ⟨note, hnote⟩ := hnotes line (List.mem_of_getElem? hi)
      cases hnote.symm.trans ((refused_iff_of_two_le (by omega)).mp hrefused)

theorem map_ok_or_first_error {α β ε : Type} (f : α → Except ε β) (xs : List α) :
    (∃ ys : List β, xs.map f = ys.map .ok) ∨
      ∃ before x after e, xs = before ++ x :: after ∧ (∀ y ∈ before, ∃ b, f y = .ok b) ∧
        f x = .error e := by
  induction xs with
  | nil => exact .inl ⟨[], rfl⟩
  | cons x xs ih =>
    cases hx : f x with
    | error e => exact .inr ⟨[], x, xs, e, rfl, by simp, hx⟩
    | ok b =>
      rcases ih with ⟨ys, hys⟩ | ⟨before, y, after, e, rfl, hbefore, hy⟩
      · exact .inl ⟨b :: ys, by rw [List.map_cons, hx, hys, List.map_cons]⟩
      · exact .inr ⟨x :: before, y, after, e, rfl, List.forall_mem_cons.mpr ⟨⟨b, hx⟩, hbefore⟩, hy⟩

theorem exists_judged (text : String) : ∃ result, Judged (rows text) result := by
  rw [rows_eq]
  generalize (lines text).headD "" = first
  generalize (lines text).tail = rest
  cases htempo : readTempo first with
  | error fault =>
    have hls : first :: rest = [] ++ first :: rest := rfl
    exact ⟨.error ⟨1, fault⟩, .fault hls ⟨rfl, .tempo htempo, accepted_nil⟩⟩
  | ok bpm =>
    rcases map_ok_or_first_error readNote rest with ⟨notes, hnotes⟩ | h
    · exact ⟨.ok ⟨bpm, notes⟩, .score rfl htempo hnotes⟩
    · obtain ⟨before, line, after, fault, rfl, hbefore, hline⟩ := h
      have hls : first :: (before ++ line :: after) = (first :: before) ++ line :: after := rfl
      refine ⟨.error ⟨before.length + 2, fault⟩, .fault hls ?_⟩
      exact ⟨rfl, .note (Nat.le_add_left 2 _) hline, accepted_cons.mpr ⟨⟨bpm, htempo⟩, hbefore⟩⟩

/-! ## Reading -/

theorem readNotes_fault {before : List String} {line : String} {fault : Fault}
    (hbefore : ∀ line ∈ before, ∃ note, readNote line = .ok note)
    (hline : readNote line = .error fault) (after : List String) (number : Nat) :
    (readNotes number (before ++ line :: after)).2 = some ⟨number + before.length, fault⟩ := by
  induction before generalizing number with
  | nil => simp only [List.nil_append, readNotes, hline]; rfl
  | cons first rest ih =>
    obtain ⟨⟨note, hnote⟩, hrest⟩ := List.forall_mem_cons.mp hbefore
    simp only [List.cons_append, readNotes, hnote, ih hrest, List.length_cons]
    congr 2
    omega

theorem readNotes_notes {ls : List String} {notes : List Note}
    (h : ls.map readNote = notes.map .ok) (number : Nat) :
    (readNotes number ls).2 = none ∧ (readNotes number ls).1.map (·.2) = notes := by
  induction ls generalizing notes number with
  | nil =>
    cases notes with
    | nil => exact ⟨rfl, rfl⟩
    | cons note notes => cases h
  | cons line rest ih =>
    cases notes with
    | nil => cases h
    | cons note notes =>
      obtain ⟨hline, hrest⟩ := List.cons.inj h
      obtain ⟨hstop, hnotes⟩ := ih hrest (number + 1)
      simp only [readNotes, hline, List.map_cons, hnotes]
      exact ⟨hstop, trivial⟩

theorem read_eq (text : String) : read text =
    match readTempo ((lines text).headD "") with
    | .error fault => .error ⟨1, fault⟩
    | .ok bpm =>
      match (readNotes 2 (lines text).tail).2 with
      | some fault => .error fault
      | none => .ok ⟨bpm, (readNotes 2 (lines text).tail).1.map (·.2)⟩ := by
  unfold read reading
  simp only
  cases readTempo ((lines text).headD "") with
  | error fault => rfl
  | ok bpm =>
    obtain ⟨notes, stop⟩ := readNotes 2 (lines text).tail
    cases stop <;> rfl

theorem read_of_judged {text : String} {result : Except LineFault Score}
    (h : Judged (rows text) result) : read text = result := by
  rw [read_eq]
  rw [rows_eq] at h
  generalize (lines text).headD "" = first at *
  generalize (lines text).tail = rest at *
  cases h with
  | score hls tempo notes =>
    obtain ⟨rfl, rfl⟩ := List.cons.inj hls
    obtain ⟨hstop, hnotes⟩ := readNotes_notes notes 2
    simp only [tempo, hstop, hnotes]
  | @fault before line after e hls h =>
    obtain ⟨number, fault⟩ := e
    obtain ⟨hnumber, hrefused, haccepted⟩ := h
    cases before with
    | nil =>
      obtain ⟨rfl, rfl⟩ := List.cons.inj hls
      obtain rfl : number = 1 := hnumber
      simp only [refused_one_iff.mp hrefused]
    | cons first' before =>
      rw [List.cons_append, List.cons.injEq] at hls
      obtain ⟨rfl, rfl⟩ := hls
      obtain ⟨⟨bpm, htempo⟩, hnotes⟩ := accepted_cons.mp haccepted
      obtain rfl : number = before.length + 2 := hnumber
      have hnote := (refused_iff_of_two_le (Nat.le_add_left 2 _)).mp hrefused
      have hstop := readNotes_fault hnotes hnote after 2
      rw [Nat.add_comm] at hstop
      simp only [htempo, hstop]

theorem read_eq_iff {text : String} {result : Except LineFault Score} :
    read text = result ↔ Judged (rows text) result := by
  refine ⟨?_, read_of_judged⟩
  rintro rfl
  obtain ⟨result, h⟩ := exists_judged text
  rw [read_of_judged h]
  exact h

theorem read_eq_error_iff {text : String} {e : LineFault} :
    read text = .error e ↔
      ∃ before line after, rows text = before ++ line :: after ∧ FirstFault before line e := by
  rw [read_eq_iff]
  constructor
  · intro h
    cases h with
    | fault hls h => exact ⟨_, _, _, hls, h⟩
  · rintro ⟨before, line, after, hls, h⟩
    exact .fault hls h

theorem read_eq_ok_iff {text : String} {score : Score} :
    read text = .ok score ↔
      ∃ first rest, rows text = first :: rest ∧ readTempo first = .ok score.bpm ∧
        rest.map readNote = score.notes.map .ok := by
  rw [read_eq_iff]
  constructor
  · intro h
    cases h with
    | score hls tempo notes => exact ⟨_, _, hls, tempo, notes⟩
  · rintro ⟨first, rest, hls, tempo, notes⟩
    exact .score hls tempo notes

theorem readNote_blank {line : String} (h : ∀ c ∈ line.toList, isBlank c = true) :
    readNote line = .error (.shape line) := by
  have hwords : words line = [] := by rw [words, wordsOf_blank h]; rfl
  unfold readNote
  rw [hwords]

/-- Only the lines up to the one at fault count. -/
theorem read_of_take_rows {text other : String} {e : LineFault} (h : read text = .error e)
    (hrows : (rows other).take e.line = (rows text).take e.line) : read other = .error e := by
  obtain ⟨before, line, after, hls, hfault⟩ := read_eq_error_iff.mp h
  have htake : (rows text).take e.line = before ++ [line] := by
    rw [hls, hfault.number, List.take_length_add_append]
    rfl
  refine read_eq_error_iff.mpr ⟨before, line, (rows other).drop e.line, ?_, hfault⟩
  rw [← List.singleton_append, ← List.append_assoc, ← htake, ← hrows, List.take_append_drop]

theorem read_append_of_fault {front after after' : String} {e : LineFault}
    (h : read (front ++ "\n" ++ after) = .error e) (hline : e.line ≤ (lines (front ++ "\n")).length) :
    read (front ++ "\n" ++ after') = .error e := by
  refine read_of_take_rows h ?_
  rw [rows_append, rows_append, List.take_append_of_le_length hline,
    List.take_append_of_le_length hline]

/--
The first refused line of a text gives the fault of the whole text, with its number, and no text
behind that line changes it. Without such a line the score has the tempo of the first line and the
notes of the others in their order. A blank line behind the tempo is refused as it stands.
-/
theorem read_first_fault (text : String) :
    (text = "" → rows text = [""]) ∧
    (text ≠ "" → ∀ ls, IsLines text.toList ls ↔ ls = (rows text).map String.toList) ∧
    (∀ e, read text = .error e ↔
      ∃ before line after, rows text = before ++ line :: after ∧ FirstFault before line e) ∧
    (∀ score, read text = .ok score ↔
      ∃ first rest, rows text = first :: rest ∧ readTempo first = .ok score.bpm ∧
        rest.map readNote = score.notes.map .ok) ∧
    (∀ e other, read text = .error e → (rows other).take e.line = (rows text).take e.line →
      read other = .error e) ∧
    (∀ front after after' e, text = front ++ "\n" ++ after → read text = .error e →
      e.line ≤ (lines (front ++ "\n")).length → read (front ++ "\n" ++ after') = .error e) ∧
    ∀ before line after, rows text = before ++ line :: after → before ≠ [] →
      (∀ c ∈ line.toList, isBlank c = true) → Accepted before →
      read text = .error ⟨before.length + 1, .shape line⟩ := by
  refine ⟨?_, ?_, fun e => read_eq_error_iff, fun score => read_eq_ok_iff,
    fun e other => read_of_take_rows, ?_, ?_⟩
  · intro h
    rw [rows, if_pos h]
  · intro h ls
    rw [isLines_iff, toList_rows h, eq_comm]
  · rintro front after after' e rfl h hline
    exact read_append_of_fault h hline
  · intro before line after hls hne hblank haccepted
    have hn : 2 ≤ before.length + 1 := by
      have := List.length_pos_iff.mpr hne
      omega
    exact read_eq_error_iff.mpr
      ⟨before, line, after, hls, rfl, .note hn (readNote_blank hblank), haccepted⟩

/-- A tab alone on the second line, and a third line that would be refused too. -/
theorem read_first_fault_tab : read "120\n\t\n0 Q" = .error ⟨2, .shape "\t"⟩ := by
  have hrows : rows "120\n\t\n0 Q" = ["120"] ++ "\t" :: ["0 Q"] := by decide +kernel
  have htempo : ∃ bpm, readTempo "120" = .ok bpm := by
    have h : (readTempo "120").isOk = true := by decide +kernel
    cases htempo : readTempo "120" with
    | error fault => rw [htempo] at h; cases h
    | ok bpm => exact ⟨bpm, rfl⟩
  have haccepted : Accepted ["120"] := accepted_cons.mpr ⟨htempo, by simp⟩
  obtain ⟨-, -, -, -, -, -, hblank⟩ := read_first_fault "120\n\t\n0 Q"
  exact hblank ["120"] "\t" ["0 Q"] hrows (by decide) (List.all_eq_true.mp rfl) haccepted

end ToneScore.Score
