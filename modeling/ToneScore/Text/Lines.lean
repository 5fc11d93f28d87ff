/-!
# Lines of a text

A line ends at a newline, and one carriage return right before that newline belongs to the line's
end. What follows the last newline is a line if it is not empty.
-/

namespace ToneScore.Text

def dropReturn (line : List Char) : List Char :=
  if line.getLast? = some '\r' then line.dropLast else line

def linesOf (cs : List Char) : List (List Char) :=
  let rest := cs.dropWhile (· != '\n')
  if rest.isEmpty then
    if cs.isEmpty then [] else [cs]
  else dropReturn (cs.takeWhile (· != '\n')) :: linesOf rest.tail
  termination_by cs.length
  decreasing_by
    have hrest : ¬ (cs.dropWhile (· != '\n')).isEmpty := by assumption
    have hpos := List.length_pos_iff.mpr (by simpa using hrest : cs.dropWhile (· != '\n') ≠ [])
    have hle := (List.dropWhile_suffix (l := cs) (· != '\n')).length_le
    simp only [List.length_tail]
    omega

def lines (s : String) : List String :=
  (linesOf s.toList).map String.ofList

/-! ## One line at a time -/

@[simp] theorem linesOf_nil : linesOf [] = [] := by
  rw [linesOf]; simp

theorem linesOf_append_newline {l : List Char} (h : '\n' ∉ l) (r : List Char) :
    linesOf (l ++ '\n' :: r) = dropReturn l :: linesOf r := by
  have hl : ∀ c ∈ l, (c != '\n') = true := by grind
  rw [linesOf]
  simp only [List.dropWhile_append_of_pos hl, List.takeWhile_append_of_pos hl]
  simp

theorem linesOf_last {l : List Char} (h : '\n' ∉ l) (hne : l ≠ []) : linesOf l = [l] := by
  have hl : ∀ c ∈ l, (c != '\n') = true := by grind
  have hd : l.dropWhile (· != '\n') = [] := by
    simpa using @List.dropWhile_append_of_pos _ (· != '\n') l [] hl
  rw [linesOf]
  simp [hd, hne]

end ToneScore.Text
