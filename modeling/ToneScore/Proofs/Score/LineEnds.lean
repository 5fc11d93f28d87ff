import ToneScore.Proofs.Score.Fields
import ToneScore.Proofs.Score.FirstFault

/-!
# How the lines of a score are ended

A score reads the same whether its lines end with a newline or with a carriage return and a newline
(`withReturns`), and whether its last line is ended or not. Only its rows count (`read_congr`), and
those are the same. A second newline at the end is one more row, an empty one, which is no note.
-/

namespace ToneScore.Score

open Text

def withReturns (text : String) : String := String.ofList (returned text.toList)

theorem read_congr {text other : String} (h : rows text = rows other) : read text = read other :=
  read_of_judged (h ▸ read_eq_iff.mp rfl)

theorem rows_withReturns {text : String} (h : '\r' ∉ text.toList) :
    rows (withReturns text) = rows text := by
  have hlines : lines (withReturns text) = lines text := by
    rw [lines, withReturns, String.toList_ofList, linesOf_returned h, lines]
  rw [rows_eq, rows_eq, hlines]

/-- The text without any line has one empty row, and so has a single newline. -/
theorem rows_append_end {text : String} (h : '\r' ∉ text.toList)
    (hlast : text.toList.getLast? ≠ some '\n') : rows (text ++ "\n") = rows text := by
  by_cases hne : text = ""
  · rw [hne]
    decide +kernel
  · have hlist : text.toList ≠ [] := mt String.toList_eq_nil_iff.mp hne
    have hlines : lines (text ++ "\n") = lines text := by
      rw [lines, String.toList_append, lines]
      exact congrArg _ (linesOf_append_end h hlist hlast)
    rw [rows_eq, rows_eq, hlines]

theorem rows_of_last {text : String} (hlast : text.toList.getLast? = some '\n') :
    rows text = lines text := by
  refine if_neg fun hempty => ?_
  simp [hempty] at hlast

theorem lines_append_empty {text : String} (hlast : text.toList.getLast? = some '\n') :
    lines (text ++ "\n") = lines text ++ [""] := by
  have hnewline : "\n".toList = ['\n'] := rfl
  rw [lines, String.toList_append, hnewline, linesOf_append_empty hlast, List.map_append]
  rfl

theorem accepted_of_read {text : String} {score : Score} (h : read text = .ok score) :
    Accepted (rows text) := by
  obtain ⟨first, rest, hrows, htempo, hnotes⟩ := read_eq_ok_iff.mp h
  rw [hrows]
  refine accepted_cons.mpr ⟨⟨_, htempo⟩, fun line hline => ?_⟩
  obtain ⟨note, -, hnote⟩ := List.mem_map.mp (hnotes ▸ List.mem_map_of_mem hline)
  exact ⟨note, hnote.symm⟩

/--
Carriage returns in front of all newlines, or a newline behind a last line without one, leave a score
or its fault as it is. A newline behind the newline of an accepted score is an empty line too many.
-/
theorem read_line_ends {text : String} (h : '\r' ∉ text.toList) :
    read (withReturns text) = read text ∧
    (text.toList.getLast? ≠ some '\n' → read (text ++ "\n") = read text) ∧
    ∀ score, text.toList.getLast? = some '\n' → read text = .ok score →
      read (text ++ "\n") = .error ⟨(lines text).length + 1, .shape ""⟩ := by
  refine ⟨read_congr (rows_withReturns h), fun hlast => read_congr (rows_append_end h hlast), ?_⟩
  intro score hlast hread
  have hlast' : (text ++ "\n").toList.getLast? = some '\n' := by simp
  have hrows : rows (text ++ "\n") = rows text ++ "" :: [] := by
    rw [rows_of_last hlast', rows_of_last hlast, lines_append_empty hlast]
  have hnumber : 2 ≤ (rows text).length + 1 := by simp [rows_eq]
  rw [← rows_of_last hlast]
  exact read_eq_error_iff.mpr ⟨rows text, "", [], hrows, rfl, .note hnumber (readNote_blank (by simp)),
    accepted_of_read hread⟩

/-- Two lines that are ended, and then a third, and two lines of which the last is not. -/
theorem read_line_ends_three :
    '\r' ∉ "120\n0 Q A4 1.0 S\n".toList ∧
    read "120\r\n0 Q A4 1.0 S\r\n" = read "120\n0 Q A4 1.0 S\n" ∧
    read "120\n0 Q A4 1.0 S\n\n" = .error ⟨3, .shape ""⟩ ∧
    '\r' ∉ "120\n0 Q".toList ∧ read "120\n0 Q\n" = read "120\n0 Q" := by
  have hreturn : '\r' ∉ "120\n0 Q A4 1.0 S\n".toList := by decide
  have hreturn' : '\r' ∉ "120\n0 Q".toList := by decide
  have hlines : (lines "120\n0 Q A4 1.0 S\n").length = 2 := by decide +kernel
  have hread : (read "120\n0 Q A4 1.0 S\n").toOption.isSome = true := by decide +kernel
  obtain ⟨score, hscore⟩ := exists_ok hread
  obtain ⟨hreturned, -, hempty⟩ := read_line_ends hreturn
  obtain ⟨-, hended, -⟩ := read_line_ends hreturn'
  refine ⟨hreturn, hreturned, ?_, hreturn', hended (by decide)⟩
  have hthird := hempty score rfl hscore
  rwa [hlines] at hthird

end ToneScore.Score
