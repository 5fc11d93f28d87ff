import ToneScore.Proofs.Text.Numerals
import ToneScore.Proofs.Text.Words
import ToneScore.Render.Log

/-!
# What the log says

`Reports` tells how the text of an entry is put together from the words of its kind and the numerals
of its numbers. Every entry is written so (`reports_message`). A numeral ends where another character
follows, and there is no blank in a printed double, so that the text can be read from left to right
and gives the numbers back (`numbers_of_reports`).
-/

namespace ToneScore

open Decimal Text

/-- The whole numbers that an entry tells of. -/
def LogEntry.numbers : LogEntry → List Nat
  | accepted line note => [line, note.start.toNat, note.duration.toNat]
  | mixing _ span => [span.start, span.stop]
  | rendered notes _ samples _ _ => [notes, samples]
  | clipping _ => []

/-- A level and a text for an entry. -/
inductive Reports : LogEntry → Level → String → Prop where
  | accepted {line : Nat} {note : Note} {number start duration : String}
      (hnumber : IsNumeral number.toList line) (hstart : IsNumeral start.toList note.start.toNat)
      (hduration : IsNumeral duration.toList note.duration.toNat) :
      Reports (.accepted line note) .debug
        (s!"line {number}: tick {start} +{duration} at {fixed 3 note.frequency} Hz " ++
          s!"x{plain note.amplitude} {note.waveform.name}")
  | mixing {note : Note} {span : Span} {start stop : String}
      (hstart : IsNumeral start.toList span.start) (hstop : IsNumeral stop.toList span.stop) :
      Reports (.mixing note span) .debug
        (s!"mixing {note.waveform.name} {fixed 3 note.frequency} Hz into samples " ++
          s!"{start}..{stop}")
  | rendered {notes samples : Nat} {bpm seconds peak : Float} {count length : String}
      (hcount : IsNumeral count.toList notes) (hlength : IsNumeral length.toList samples) :
      Reports (.rendered notes bpm samples seconds peak) .info
        (s!"rendered {count} notes at {plain bpm} BPM: {length} samples ({fixed 3 seconds}s), " ++
          s!"peak {fixed 3 peak}")
  | clipping {peak : Float} :
      Reports (.clipping peak) .warn s!"mix peaks at {fixed 3 peak} of full scale; output will clip"

theorem reports_message (entry : LogEntry) : Reports entry entry.level entry.message := by
  cases entry with
  | accepted => exact .accepted (isNumeral_repr _) (isNumeral_repr _) (isNumeral_repr _)
  | mixing => exact .mixing (isNumeral_repr _) (isNumeral_repr _)
  | rendered => exact .rendered (isNumeral_repr _) (isNumeral_repr _)
  | clipping => exact .clipping

/-! ## Words of a text -/

variable {rest rest' delimiter : List Char}

theorem Text.IsNumeral.append_inj {ds ds' : List Char} {n n' : Nat} (h : IsNumeral ds n)
    (h' : IsNumeral ds' n') (hend : ∃ c cs, delimiter = c :: cs ∧ c.isDigit = false)
    (heq : ds ++ (delimiter ++ rest) = ds' ++ (delimiter ++ rest')) : n = n' ∧ rest = rest' := by
  obtain ⟨rfl, hrest⟩ := append_delimiter_inj h.digits h'.digits hend heq
  exact ⟨h.value.symm.trans h'.value, hrest⟩

theorem word_append_inj {w w' : List Char} (h : ' ' ∉ w) (h' : ' ' ∉ w')
    (hend : ∃ cs, delimiter = ' ' :: cs)
    (heq : w ++ (delimiter ++ rest) = w' ++ (delimiter ++ rest')) : rest = rest' := by
  obtain ⟨cs, rfl⟩ := hend
  have hword : ∀ {w : List Char}, ' ' ∉ w → ∀ c ∈ w, decide (c ≠ ' ') = true := by
    rintro w h c hc
    exact decide_eq_true fun hblank => h (hblank ▸ hc)
  exact (append_delimiter_inj (hword h) (hword h') ⟨_, _, rfl, rfl⟩ heq).2

theorem blank_not_mem_pointed (places n : Nat) : ' ' ∉ (pointed places n).toList := by
  intro h
  have hdigits : ∀ c ∈ List.replicate (places + 1 - (Nat.toDigits 10 n).length) '0' ++
      Nat.toDigits 10 n, c ≠ ' ' := by
    rintro c hc rfl
    rcases List.mem_append.mp hc with hc | hc
    · exact absurd (List.eq_of_mem_replicate hc) (by decide)
    · exact absurd (Nat.isDigit_of_mem_toDigits (by decide) (by decide) hc) (by decide)
  unfold pointed at h
  simp only at h
  split at h
  · rw [String.toList_ofList] at h
    exact hdigits _ (List.mem_of_mem_take h) rfl
  · simp only [String.toList_append, String.toList_ofList, List.mem_append] at h
    rcases h with (h | h) | h
    · exact hdigits _ (List.mem_of_mem_take h) rfl
    · exact absurd h (by decide)
    · exact hdigits _ (List.mem_of_mem_drop h) rfl

theorem blank_not_mem_printWith {zero : String} {positive : Nat → Int → String}
    (hzero : ' ' ∉ zero.toList) (hpositive : ∀ m e, ' ' ∉ (positive m e).toList) (x : Float) :
    ' ' ∉ (printWith zero positive x).toList := by
  unfold printWith
  split
  · decide
  · decide
  · decide
  · exact hzero
  · simpa [String.toList_append] using hzero
  · exact hpositive _ _
  · simpa [String.toList_append] using hpositive _ _

theorem blank_not_mem_plain (x : Float) : ' ' ∉ (plain x).toList :=
  blank_not_mem_printWith (by decide) (fun _ _ => blank_not_mem_pointed _ _) x

theorem blank_not_mem_fixed (places : Nat) (x : Float) : ' ' ∉ (fixed places x).toList :=
  blank_not_mem_printWith (blank_not_mem_pointed _ _) (fun _ _ => blank_not_mem_pointed _ _) x

theorem blank_not_mem_name (w : Waveform) : ' ' ∉ w.name.toList := by
  cases w <;> decide

/-! ## Reading the log -/

theorem numbers_of_reports {entry entry' : LogEntry} {level level' : Level} {text : String}
    (h : Reports entry level text) (h' : Reports entry' level' text) :
    level = level' ∧ entry.numbers = entry'.numbers := by
  generalize htext : text = text' at h'
  have hchars := congrArg String.toList htext
  cases h with
  | accepted hnumber hstart hduration =>
    cases h' with
    | accepted hnumber' hstart' hduration' =>
      simp only [toString, String.toList_append, List.append_assoc] at hchars
      obtain ⟨hline, hchars⟩ := hnumber.append_inj hnumber' ⟨_, _, rfl, rfl⟩
        (List.append_cancel_left hchars)
      obtain ⟨hfirst, hchars⟩ := hstart.append_inj hstart' ⟨_, _, rfl, rfl⟩ hchars
      obtain ⟨hlong, -⟩ := hduration.append_inj hduration' ⟨_, _, rfl, rfl⟩ hchars
      simp only [LogEntry.numbers, hline, hfirst, hlong, and_self]
    | _ => simp [toString, String.toList_append] at hchars
  | mixing hstart hstop =>
    cases h' with
    | mixing hstart' hstop' =>
      simp only [toString, String.toList_append, List.append_assoc] at hchars
      have hchars := word_append_inj (blank_not_mem_name _) (blank_not_mem_name _) ⟨_, rfl⟩
        (List.append_cancel_left hchars)
      have hchars := word_append_inj (blank_not_mem_fixed _ _) (blank_not_mem_fixed _ _) ⟨_, rfl⟩
        hchars
      obtain ⟨hfirst, hchars⟩ := hstart.append_inj hstart' ⟨_, _, rfl, rfl⟩ hchars
      have hlast := hstop.value.symm.trans ((congrArg _ hchars).trans hstop'.value)
      simp only [LogEntry.numbers, hfirst, hlast, and_self]
    | _ => simp [toString, String.toList_append] at hchars
  | rendered hcount hlength =>
    cases h' with
    | rendered hcount' hlength' =>
      simp only [toString, String.toList_append, List.append_assoc] at hchars
      obtain ⟨hnotes, hchars⟩ := hcount.append_inj hcount' ⟨_, _, rfl, rfl⟩
        (List.append_cancel_left hchars)
      have hchars := word_append_inj (blank_not_mem_plain _) (blank_not_mem_plain _) ⟨_, rfl⟩ hchars
      obtain ⟨hsamples, -⟩ := hlength.append_inj hlength' ⟨_, _, rfl, rfl⟩ hchars
      simp only [LogEntry.numbers, hnotes, hsamples, and_self]
    | _ => simp [toString, String.toList_append] at hchars
  | clipping =>
    cases h' with
    | clipping => exact ⟨rfl, rfl⟩
    | _ => simp [toString, String.toList_append] at hchars

end ToneScore
