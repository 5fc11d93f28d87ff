import ToneScore.Decimal.Reading
import ToneScore.Proofs.Text.Numerals
import ToneScore.Proofs.Text.Words

/-!
# The grammar of doubles in decimal text

`IsDecimal` says which characters denote a double: a sign or none, and then a name in any case or
digits with at most one point and an exponent. `read?` accepts exactly these
(`read?_eq_some_iff`). A text never denotes a double both by name and by digits, so the order in
which the reader tries the two does not count.
-/

namespace ToneScore.Decimal

open Text

inductive IsExponent : List Char → Int → Prop where
  | none : IsExponent [] 0
  | mark {c : Char} {numeral : List Char} {e : Int} (hc : c = 'e' ∨ c = 'E')
      (h : IsSigned numeral e) : IsExponent (c :: numeral) e

/-- Digits on at least one side of the point, if there is a point, and an exponent. -/
inductive IsNumber : List Char → Float → Prop where
  | whole {ds tail : List Char} {n : Nat} {e : Int} (h : IsNumeral ds n) (he : IsExponent tail e) :
      IsNumber (ds ++ tail) (ofDigits n e)
  | point {ds places tail : List Char} {n : Nat} {e : Int} (h : IsNumeral (ds ++ places) n)
      (he : IsExponent tail e) :
      IsNumber (ds ++ '.' :: (places ++ tail)) (ofDigits n (e - places.length))

/-- The name of a double that no digits denote, in any case. -/
inductive IsName : List Char → Float → Prop where
  | infinity {cs : List Char} (h : cs.map Char.toLower ∈ ["inf".toList, "infinity".toList]) :
      IsName cs (1.0 / 0.0)
  | nan {cs : List Char} (h : cs.map Char.toLower = "nan".toList) : IsName cs (0.0 / 0.0)

inductive IsDecimal : List Char → Float → Prop where
  | plain {cs : List Char} {x : Float} (h : IsNumber cs x ∨ IsName cs x) : IsDecimal cs x
  | plus {cs : List Char} {x : Float} (h : IsNumber cs x ∨ IsName cs x) : IsDecimal ('+' :: cs) x
  | minus {cs : List Char} {x : Float} (h : IsNumber cs x ∨ IsName cs x) :
      IsDecimal ('-' :: cs) (-x)

theorem exponent?_eq_some_iff {cs : List Char} {e : Int} :
    exponent? cs = some e ↔ IsExponent cs e := by
  constructor
  · intro h
    cases cs with
    | nil =>
      obtain rfl := Option.some.inj h
      exact .none
    | cons c cs =>
      rw [exponent?] at h
      split at h
      · next hc => exact .mark hc (signed?_eq_some_iff.mp h)
      · cases h
  · intro h
    cases h with
    | none => rfl
    | mark hc h => rw [exponent?, if_pos hc, signed?_eq_some_iff.mpr h]

theorem IsExponent.head {cs : List Char} {e : Int} (h : IsExponent cs e) :
    ∀ c ∈ cs.head?, c.isDigit = false ∧ c ≠ '.' := by
  intro c hc
  cases h with
  | none => cases hc
  | mark hmark _ =>
    obtain rfl := Option.some.inj hc
    rcases hmark with rfl | rfl <;> decide

/-! ## Digits and a point -/

theorem number?_whole {ds tail : List Char} (hds : ∀ c ∈ ds, c.isDigit = true)
    (htail : ∀ c ∈ tail.head?, c.isDigit = false ∧ c ≠ '.') :
    number? (ds ++ tail) =
      if ds = [] then none else (exponent? tail).map fun e => ofDigits (digitsValue ds) e := by
  obtain ⟨htake, hdrop⟩ := takeWhile_dropWhile_append hds fun c hc => (htail c hc).1
  unfold number?
  simp only [htake, hdrop]
  split
  · exact absurd rfl (htail _ rfl).2
  · simp

theorem number?_point {ds places tail : List Char} (hds : ∀ c ∈ ds, c.isDigit = true)
    (hplaces : ∀ c ∈ places, c.isDigit = true) (htail : ∀ c ∈ tail.head?, c.isDigit = false) :
    number? (ds ++ '.' :: (places ++ tail)) =
      if ds ++ places = [] then none
      else (exponent? tail).map fun e =>
        ofDigits (digitsValue (ds ++ places)) (e - places.length) := by
  have hpoint : ∀ c ∈ ('.' :: (places ++ tail)).head?, c.isDigit = false := by
    rintro c ⟨⟩
    rfl
  obtain ⟨htake, hdrop⟩ := takeWhile_dropWhile_append hds hpoint
  obtain ⟨htake', hdrop'⟩ := takeWhile_dropWhile_append hplaces htail
  unfold number?
  simp only [htake, hdrop, htake', hdrop', Bool.and_eq_true, List.isEmpty_iff,
    List.append_eq_nil_iff]

theorem exists_digits (cs : List Char) :
    (∃ ds tail, cs = ds ++ tail ∧ (∀ c ∈ ds, c.isDigit = true) ∧
      ∀ c ∈ tail.head?, c.isDigit = false ∧ c ≠ '.') ∨
    ∃ ds places tail, cs = ds ++ '.' :: (places ++ tail) ∧ (∀ c ∈ ds, c.isDigit = true) ∧
      (∀ c ∈ places, c.isDigit = true) ∧ ∀ c ∈ tail.head?, c.isDigit = false := by
  have hrun : ∀ l : List Char, ∀ c ∈ l.takeWhile Char.isDigit, c.isDigit = true :=
    fun l => List.all_eq_true.mp List.all_takeWhile
  have hstop : ∀ l : List Char, ∀ c ∈ (l.dropWhile Char.isDigit).head?, c.isDigit = false := by
    intro l c hc
    have := List.head?_dropWhile_not Char.isDigit l
    rw [Option.mem_def.mp hc] at this
    simpa using this
  have hcs := List.takeWhile_append_dropWhile (p := Char.isDigit) (l := cs)
  have hhead := hstop cs
  cases hrest : cs.dropWhile Char.isDigit with
  | nil => exact .inl ⟨_, [], by rw [← hrest, hcs], hrun cs, by simp⟩
  | cons c rest =>
    rw [hrest] at hcs hhead
    by_cases hc : c = '.'
    · subst hc
      refine .inr ⟨_, rest.takeWhile Char.isDigit, rest.dropWhile Char.isDigit, ?_, hrun cs,
        hrun rest, hstop rest⟩
      rw [List.takeWhile_append_dropWhile, hcs]
    · refine .inl ⟨_, c :: rest, hcs.symm, hrun cs, fun d hd => ?_⟩
      obtain rfl := Option.some.inj hd
      exact ⟨hhead c rfl, hc⟩

theorem number?_eq_some_iff {cs : List Char} {x : Float} :
    number? cs = some x ↔ IsNumber cs x := by
  constructor
  · intro h
    rcases exists_digits cs with ⟨ds, tail, rfl, hds, htail⟩ |
      ⟨ds, places, tail, rfl, hds, hplaces, htail⟩
    · rw [number?_whole hds htail] at h
      split at h
      · cases h
      next hne =>
      obtain ⟨e, he, rfl⟩ := Option.map_eq_some_iff.mp h
      exact .whole ⟨hne, hds, rfl⟩ (exponent?_eq_some_iff.mp he)
    · rw [number?_point hds hplaces htail] at h
      split at h
      · cases h
      next hne =>
      obtain ⟨e, he, rfl⟩ := Option.map_eq_some_iff.mp h
      have hdigits : ∀ c ∈ ds ++ places, c.isDigit = true :=
        fun c hc => (List.mem_append.mp hc).elim (hds c) (hplaces c)
      exact .point ⟨hne, hdigits, rfl⟩ (exponent?_eq_some_iff.mp he)
  · intro h
    cases h with
    | whole h he =>
      obtain ⟨hne, hds, rfl⟩ := h
      rw [number?_whole hds he.head, if_neg hne, exponent?_eq_some_iff.mpr he]
      rfl
    | point h he =>
      obtain ⟨hne, hdigits, rfl⟩ := h
      rw [number?_point (fun c hc => hdigits c (List.mem_append_left _ hc))
        (fun c hc => hdigits c (List.mem_append_right _ hc)) (fun c hc => (he.head c hc).1),
        if_neg hne, exponent?_eq_some_iff.mpr he]
      rfl

/-! ## Names -/

theorem named?_eq_some_iff {cs : List Char} {x : Float} :
    named? cs = some x ↔ IsName cs x := by
  have hname : ∀ s : String, String.ofList (cs.map Char.toLower) = s ↔
      cs.map Char.toLower = s.toList := by
    intro s
    rw [← String.toList_inj, String.toList_ofList]
  unfold named?
  simp only [hname]
  constructor
  · intro h
    split at h
    · next hcs =>
      obtain rfl := Option.some.inj h
      exact .infinity (by simpa using hcs)
    · split at h
      · next hcs =>
        obtain rfl := Option.some.inj h
        exact .nan hcs
      · cases h
  · intro h
    cases h with
    | infinity h => rw [if_pos (by simpa using h)]
    | nan h => rw [if_neg (by rw [h]; decide), if_pos h]

theorem toLower_of_isDigit {c : Char} (h : c.isDigit = true) : c.toLower = c := by
  rw [Char.isDigit, Bool.and_eq_true, decide_eq_true_eq, decide_eq_true_eq] at h
  refine dif_neg ?_
  rintro ⟨hletter, -⟩
  exact absurd (UInt32.le_trans hletter h.2) (by decide)

theorem IsNumber.exists_digit {cs : List Char} {x : Float} (h : IsNumber cs x) :
    ∃ c ∈ cs, c.isDigit = true := by
  cases h with
  | whole h _ =>
    obtain ⟨c, hc⟩ := List.exists_mem_of_ne_nil _ h.ne_nil
    exact ⟨c, List.mem_append_left _ hc, h.digits c hc⟩
  | point h _ =>
    obtain ⟨c, hc⟩ := List.exists_mem_of_ne_nil _ h.ne_nil
    refine ⟨c, ?_, h.digits c hc⟩
    rcases List.mem_append.mp hc with hc | hc <;> simp [hc]

theorem IsName.not_isDigit {cs : List Char} {x : Float} (h : IsName cs x) {c : Char} (hc : c ∈ cs) :
    c.isDigit = false := by
  have hletters : ["inf".toList, "infinity".toList, "nan".toList].all
      (·.all fun d => !d.isDigit) = true := by decide
  have hname : cs.map Char.toLower ∈ ["inf".toList, "infinity".toList, "nan".toList] := by
    cases h with
    | infinity h => exact List.mem_append_left ["nan".toList] h
    | nan h => rw [h]; decide
  refine Bool.eq_false_iff.mpr fun hdigit => ?_
  have hmem := List.mem_map_of_mem (f := Char.toLower) hc
  rw [toLower_of_isDigit hdigit] at hmem
  have hletter := List.all_eq_true.mp (List.all_eq_true.mp hletters _ hname) c hmem
  rw [hdigit] at hletter
  cases hletter

/-! ## Signs -/

theorem magnitude?_eq_some_iff {cs : List Char} {x : Float} :
    magnitude? cs = some x ↔ IsNumber cs x ∨ IsName cs x := by
  rw [magnitude?, Option.or_eq_some_iff, number?_eq_some_iff, named?_eq_some_iff]
  refine or_congr_right ⟨fun h => h.2, fun h => ⟨?_, h⟩⟩
  cases hnumber : number? cs with
  | none => rfl
  | some y =>
    obtain ⟨c, hc, hdigit⟩ := (number?_eq_some_iff.mp hnumber).exists_digit
    cases hdigit.symm.trans (h.not_isDigit hc)

/-- What has a sign in front has one sign only. -/
theorem magnitude?_sign {c : Char} (hc : c = '+' ∨ c = '-') (cs : List Char) :
    magnitude? (c :: cs) = none := by
  have hnumber : number? (c :: cs) = none := by
    refine number?_whole (List.forall_mem_nil _) fun d hd => ?_
    obtain rfl := Option.some.inj hd
    rcases hc with rfl | rfl <;> decide
  have hname : named? (c :: cs) = none := by
    cases hx : named? (c :: cs) with
    | none => rfl
    | some x =>
      cases named?_eq_some_iff.mp hx with
      | infinity h => rcases hc with rfl | rfl <;> simp at h
      | nan h => rcases hc with rfl | rfl <;> simp at h
  rw [magnitude?, hnumber, hname]
  rfl

theorem read?_eq_some_iff {s : String} {x : Float} :
    read? s = some x ↔ IsDecimal s.toList x := by
  unfold read?
  generalize s.toList = cs
  constructor
  · intro h
    split at h
    · obtain ⟨y, hy, rfl⟩ := Option.map_eq_some_iff.mp h
      exact .minus (magnitude?_eq_some_iff.mp hy)
    · exact .plus (magnitude?_eq_some_iff.mp h)
    · exact .plain (magnitude?_eq_some_iff.mp h)
  · intro h
    cases h with
    | minus h => exact Option.map_eq_some_iff.mpr ⟨_, magnitude?_eq_some_iff.mpr h, rfl⟩
    | plus h => exact magnitude?_eq_some_iff.mpr h
    | plain h =>
      rw [← magnitude?_eq_some_iff] at h
      split
      · rw [magnitude?_sign (.inr rfl)] at h; cases h
      · rw [magnitude?_sign (.inl rfl)] at h; cases h
      · exact h

end ToneScore.Decimal
