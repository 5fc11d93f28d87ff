import ToneScore.Text.Blank

/-!
# What the words of a text are

`IsWords` says how a text is put together from its words and the blanks around them: a word is not
empty, holds no blank, and goes on up to a blank or to the end. `wordsOf` finds these words and
there are no others (`isWords_iff`).
-/

namespace ToneScore.Text

inductive IsWords : List Char → List (List Char) → Prop where
  | nil : IsWords [] []
  | blank {c : Char} {rest : List Char} {ws : List (List Char)} (hc : isBlank c = true)
      (hrest : IsWords rest ws) : IsWords (c :: rest) ws
  | word {w rest : List Char} {ws : List (List Char)} (hne : w ≠ [])
      (hw : ∀ c ∈ w, isBlank c = false) (hend : ∀ c ∈ rest.head?, isBlank c = true)
      (hrest : IsWords rest ws) : IsWords (w ++ rest) (w :: ws)

/-- Taking and dropping by a property stop where a stretch that has it ends. -/
theorem takeWhile_dropWhile_append {p : Char → Bool} {l rest : List Char}
    (hl : ∀ c ∈ l, p c = true) (hrest : ∀ c ∈ rest.head?, p c = false) :
    (l ++ rest).takeWhile p = l ∧ (l ++ rest).dropWhile p = rest := by
  rw [List.takeWhile_append_of_pos hl, List.dropWhile_append_of_pos hl]
  cases rest with
  | nil => simp
  | cons c cs => simp [hrest c rfl]

theorem append_delimiter_inj {p : Char → Bool} {l l' rest rest' delimiter : List Char}
    (hl : ∀ c ∈ l, p c = true) (hl' : ∀ c ∈ l', p c = true)
    (hend : ∃ c cs, delimiter = c :: cs ∧ p c = false)
    (h : l ++ (delimiter ++ rest) = l' ++ (delimiter ++ rest')) : l = l' ∧ rest = rest' := by
  obtain ⟨c, cs, rfl, hc⟩ := hend
  have hstop (rest : List Char) : ∀ d ∈ (c :: cs ++ rest).head?, p d = false := by
    rintro d ⟨⟩
    exact hc
  obtain ⟨htake, hdrop⟩ := takeWhile_dropWhile_append hl (hstop rest)
  obtain ⟨htake', hdrop'⟩ := takeWhile_dropWhile_append hl' (hstop rest')
  rw [h] at htake hdrop
  exact ⟨htake.symm.trans htake', List.append_cancel_left (hdrop.symm.trans hdrop')⟩

@[simp] theorem wordsOf_nil : wordsOf [] = [] := by rw [wordsOf]

theorem wordsOf_cons_blank {c : Char} (hc : isBlank c = true) (cs : List Char) :
    wordsOf (c :: cs) = wordsOf cs := by
  rw [wordsOf, if_pos hc]

theorem wordsOf_blank {cs : List Char} (h : ∀ c ∈ cs, isBlank c = true) : wordsOf cs = [] := by
  induction cs with
  | nil => exact wordsOf_nil
  | cons c cs ih =>
    obtain ⟨hc, hcs⟩ := List.forall_mem_cons.mp h
    rw [wordsOf_cons_blank hc, ih hcs]

theorem wordsOf_word_append {w rest : List Char} (hne : w ≠ []) (hw : ∀ c ∈ w, isBlank c = false)
    (hend : ∀ c ∈ rest.head?, isBlank c = true) : wordsOf (w ++ rest) = w :: wordsOf rest := by
  obtain ⟨c, cs, rfl⟩ := List.exists_cons_of_ne_nil hne
  obtain ⟨hc, hcs⟩ := List.forall_mem_cons.mp hw
  have hword : ∀ d ∈ cs, (!isBlank d) = true := fun d hd => by rw [hcs d hd]; rfl
  have hnext : ∀ d ∈ rest.head?, (!isBlank d) = false := fun d hd => by rw [hend d hd]; rfl
  obtain ⟨htake, hdrop⟩ := takeWhile_dropWhile_append hword hnext
  rw [List.cons_append, wordsOf, if_neg (by simp [hc]), htake, hdrop]

theorem wordsOf_of_isWords {cs : List Char} {ws : List (List Char)} (h : IsWords cs ws) :
    wordsOf cs = ws := by
  induction h with
  | nil => exact wordsOf_nil
  | blank hc _ ih => rw [wordsOf_cons_blank hc, ih]
  | word hne hw hend _ ih => rw [wordsOf_word_append hne hw hend, ih]

theorem isWords_wordsOf (cs : List Char) : IsWords cs (wordsOf cs) := by
  fun_induction wordsOf cs with
  | case1 => exact .nil
  | case2 c cs hc ih => exact .blank hc ih
  | case3 c cs hc ih =>
    have hword : ∀ d ∈ c :: cs.takeWhile (!isBlank ·), isBlank d = false := by
      refine List.forall_mem_cons.mpr ⟨by simpa using hc, fun d hd => ?_⟩
      simpa using List.all_eq_true.mp List.all_takeWhile d hd
    have hend : ∀ d ∈ (cs.dropWhile (!isBlank ·)).head?, isBlank d = true := by
      intro d hd
      have := List.head?_dropWhile_not (!isBlank ·) cs
      rw [Option.mem_def.mp hd] at this
      simpa using this
    have := IsWords.word (List.cons_ne_nil _ _) hword hend ih
    rwa [List.cons_append, List.takeWhile_append_dropWhile] at this

theorem isWords_iff {cs : List Char} {ws : List (List Char)} : IsWords cs ws ↔ wordsOf cs = ws :=
  ⟨wordsOf_of_isWords, fun h => h ▸ isWords_wordsOf cs⟩

theorem words_eq_iff {s : String} {fields : List String} :
    words s = fields ↔ IsWords s.toList (fields.map String.toList) := by
  have hlist : String.ofList ∘ String.toList = id := funext fun _ => String.ofList_toList
  rw [isWords_iff, words]
  constructor
  · rintro rfl
    have hlist' : String.toList ∘ String.ofList = id := funext fun _ => String.toList_ofList
    rw [List.map_map, hlist', List.map_id]
  · intro h
    rw [h, List.map_map, hlist, List.map_id]

end ToneScore.Text
