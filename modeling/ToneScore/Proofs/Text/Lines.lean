import ToneScore.Text.Lines

/-!
# What the lines of a text are

`IsLines` says how a text is put together from its lines, without looking for them: every line is
ended by a newline or by a carriage return and a newline, and only the last one may stand without an
end. `linesOf` finds these lines and there are no others (`isLines_iff`). Up to a newline the lines
do not depend on what follows (`linesOf_append`), nor on whether they end with carriage returns
(`linesOf_returned`) or the last of them at all (`linesOf_append_end`).
-/

namespace ToneScore.Text

inductive IsLines : List Char → List (List Char) → Prop where
  | nil : IsLines [] []
  | last {line : List Char} (h : '\n' ∉ line) (hne : line ≠ []) : IsLines line [line]
  | newline {line rest : List Char} {ls : List (List Char)} (h : '\n' ∉ line)
      (hreturn : line.getLast? ≠ some '\r') (hrest : IsLines rest ls) :
      IsLines (line ++ '\n' :: rest) (line :: ls)
  | returned {line rest : List Char} {ls : List (List Char)} (h : '\n' ∉ line)
      (hrest : IsLines rest ls) :
      IsLines (line ++ '\r' :: '\n' :: rest) (line :: ls)

theorem dropReturn_append_return (line : List Char) : dropReturn (line ++ ['\r']) = line := by
  simp [dropReturn]

theorem dropReturn_of_ne {line : List Char} (h : line.getLast? ≠ some '\r') :
    dropReturn line = line := if_neg h

theorem linesOf_of_isLines {cs : List Char} {ls : List (List Char)} (h : IsLines cs ls) :
    linesOf cs = ls := by
  induction h with
  | nil => exact linesOf_nil
  | last h hne => exact linesOf_last h hne
  | newline h hreturn _ ih => rw [linesOf_append_newline h, dropReturn_of_ne hreturn, ih]
  | @returned line rest _ h _ ih =>
    have hline : '\n' ∉ line ++ ['\r'] := by simp [h]
    have := linesOf_append_newline hline rest
    rwa [dropReturn_append_return, List.append_assoc, ih] at this

theorem isLines_newline {line rest : List Char} {ls : List (List Char)} (h : '\n' ∉ line)
    (hrest : IsLines rest ls) : IsLines (line ++ '\n' :: rest) (dropReturn line :: ls) := by
  by_cases hreturn : line.getLast? = some '\r'
  · obtain ⟨front, rfl⟩ := List.getLast?_eq_some_iff.mp hreturn
    rw [dropReturn_append_return, List.append_assoc]
    exact .returned (fun hmem => h (List.mem_append_left _ hmem)) hrest
  · rw [dropReturn_of_ne hreturn]
    exact .newline h hreturn hrest

/-- Texts by their lines: every line but the last ends with a newline. -/
theorem lineRec {motive : List Char → Prop} (last : ∀ line, '\n' ∉ line → motive line)
    (newline : ∀ line rest, '\n' ∉ line → motive rest → motive (line ++ '\n' :: rest))
    (cs : List Char) : motive cs := by
  induction hn : cs.length using Nat.strongRecOn generalizing cs with
  | ind n ih =>
    by_cases h : '\n' ∈ cs
    · obtain ⟨line, rest, rfl, hline⟩ := List.eq_append_cons_of_mem h
      refine newline line rest hline (ih rest.length ?_ rest rfl)
      rw [← hn, List.length_append, List.length_cons]
      omega
    · exact last cs h

theorem isLines_linesOf (cs : List Char) : IsLines cs (linesOf cs) := by
  induction cs using lineRec with
  | last line h =>
    by_cases hne : line = []
    · rw [hne, linesOf_nil]
      exact .nil
    · rw [linesOf_last h hne]
      exact .last h hne
  | newline line rest h ih =>
    rw [linesOf_append_newline h]
    exact isLines_newline h ih

theorem isLines_iff {cs : List Char} {ls : List (List Char)} : IsLines cs ls ↔ linesOf cs = ls :=
  ⟨linesOf_of_isLines, fun h => h ▸ isLines_linesOf cs⟩

theorem linesOf_append (front rest : List Char) :
    linesOf (front ++ '\n' :: rest) = linesOf (front ++ ['\n']) ++ linesOf rest := by
  induction front using lineRec with
  | last line h =>
    rw [linesOf_append_newline h, linesOf_append_newline h, linesOf_nil]
    rfl
  | newline line more h ih =>
    rw [List.append_assoc, List.cons_append, linesOf_append_newline h, ih, List.append_assoc,
      List.cons_append, linesOf_append_newline h]
    rfl

theorem linesOf_eq_nil_iff {cs : List Char} : linesOf cs = [] ↔ cs = [] := by
  refine ⟨fun h => ?_, fun h => h ▸ linesOf_nil⟩
  cases isLines_iff.mpr h
  rfl

/-! ## How lines are ended -/

def returned (cs : List Char) : List Char :=
  cs.flatMap fun c => if c = '\n' then ['\r', '\n'] else [c]

theorem returned_append (front rest : List Char) :
    returned (front ++ rest) = returned front ++ returned rest := List.flatMap_append

theorem returned_of_not_mem {line : List Char} (h : '\n' ∉ line) : returned line = line := by
  have hkeep : ∀ c ∈ line, (if c = '\n' then ['\r', '\n'] else [c]) = [c] := by grind
  rw [returned, List.flatMap_def, List.map_congr_left hkeep, ← List.flatMap_def,
    List.flatMap_singleton']

theorem dropReturn_of_not_mem {line : List Char} (h : '\r' ∉ line) : dropReturn line = line :=
  dropReturn_of_ne fun hlast => h (List.mem_of_getLast? hlast)

theorem linesOf_returned {cs : List Char} (h : '\r' ∉ cs) : linesOf (returned cs) = linesOf cs := by
  induction cs using lineRec with
  | last line hline => rw [returned_of_not_mem hline]
  | newline line rest hline ih =>
    simp only [List.mem_append, List.mem_cons, not_or] at h
    have hreturn : '\n' ∉ line ++ ['\r'] := by simp [hline]
    have hsplit : returned (line ++ '\n' :: rest) = (line ++ ['\r']) ++ '\n' :: returned rest := by
      rw [returned_append, returned_of_not_mem hline, List.append_assoc]
      rfl
    rw [hsplit, linesOf_append_newline hreturn, dropReturn_append_return, linesOf_append_newline hline,
      dropReturn_of_not_mem h.1, ih h.2.2]

theorem linesOf_append_end {cs : List Char} (h : '\r' ∉ cs) (hne : cs ≠ [])
    (hlast : cs.getLast? ≠ some '\n') : linesOf (cs ++ ['\n']) = linesOf cs := by
  induction cs using lineRec with
  | last line hline =>
    rw [linesOf_append_newline hline, linesOf_nil, dropReturn_of_not_mem h, linesOf_last hline hne]
  | newline line rest hline ih =>
    simp only [List.mem_append, List.mem_cons, not_or] at h
    have hrest : rest ≠ [] := by
      rintro rfl
      simp at hlast
    have hlast' : rest.getLast? ≠ some '\n' := by
      simpa [List.getLast?_append, List.getLast?_cons, List.getLast?_eq_some_getLast hrest] using hlast
    rw [List.append_assoc, List.cons_append, linesOf_append_newline hline, ih h.2.2 hrest hlast',
      linesOf_append_newline hline]

theorem linesOf_append_empty {cs : List Char} (hlast : cs.getLast? = some '\n') :
    linesOf (cs ++ ['\n']) = linesOf cs ++ [[]] := by
  obtain ⟨front, rfl⟩ := List.getLast?_eq_some_iff.mp hlast
  have hempty : linesOf ['\n'] = [[]] := by
    simpa [dropReturn] using linesOf_append_newline (l := []) (by simp) []
  rw [List.append_assoc, List.singleton_append, linesOf_append, hempty]

end ToneScore.Text
