/-!
# Blank characters

The characters with Unicode's `White_Space` property, and cutting text at them: `trim` removes
them from both ends, `words` keeps the maximal runs without one.
-/

namespace ToneScore.Text

/-- The characters with Unicode's `White_Space` property. -/
def isBlank (c : Char) : Bool :=
  let n := c.toNat
  (0x09 ≤ n && n ≤ 0x0D) || n == 0x20 || n == 0x85 || n == 0xA0 || n == 0x1680 ||
    (0x2000 ≤ n && n ≤ 0x200A) || n == 0x2028 || n == 0x2029 || n == 0x202F || n == 0x205F ||
    n == 0x3000

/-- The maximal runs of characters that are not blank. -/
def wordsOf : List Char → List (List Char)
  | [] => []
  | c :: cs =>
    if isBlank c then wordsOf cs
    else (c :: cs.takeWhile (!isBlank ·)) :: wordsOf (cs.dropWhile (!isBlank ·))
  termination_by cs => cs.length
  decreasing_by
    · simp
    · have := (List.dropWhile_suffix (l := cs) (!isBlank ·)).length_le
      simp only [List.length_cons]
      omega

def words (s : String) : List String :=
  (wordsOf s.toList).map String.ofList

def trim (s : String) : String :=
  let tail := s.toList.dropWhile isBlank
  String.ofList (tail.reverse.dropWhile isBlank).reverse

end ToneScore.Text
