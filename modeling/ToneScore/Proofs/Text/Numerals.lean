import ToneScore.Text.Numeral

/-!
# Numerals as they are written

`IsNumeral`, `IsUnsigned` and `IsSigned` say which characters denote which number. The readers of
numerals accept exactly these (`unsigned?_eq_some_iff`, `signed?_eq_some_iff`,
`word32?_eq_some_iff`), and every whole number printed in decimal is one (`isSigned_toString`).
-/

namespace ToneScore.Text

/-- One or more ASCII digits and their value. -/
structure IsNumeral (cs : List Char) (n : Nat) : Prop where
  ne_nil : cs ≠ []
  digits : ∀ c ∈ cs, c.isDigit = true
  value : Nat.ofDigitChars 10 cs 0 = n

/-- A numeral that may have a plus sign in front. -/
inductive IsUnsigned : List Char → Nat → Prop where
  | plain {cs : List Char} {n : Nat} (h : IsNumeral cs n) : IsUnsigned cs n
  | plus {cs : List Char} {n : Nat} (h : IsNumeral cs n) : IsUnsigned ('+' :: cs) n

/-- A numeral that may have either sign in front. -/
inductive IsSigned : List Char → Int → Prop where
  | plain {cs : List Char} {n : Nat} (h : IsNumeral cs n) : IsSigned cs n
  | plus {cs : List Char} {n : Nat} (h : IsNumeral cs n) : IsSigned ('+' :: cs) n
  | minus {cs : List Char} {n : Nat} (h : IsNumeral cs n) : IsSigned ('-' :: cs) (-n)

theorem numeral?_eq_some_iff {cs : List Char} {n : Nat} :
    numeral? cs = some n ↔ IsNumeral cs n := by
  unfold numeral?
  constructor
  · intro h
    split at h
    · next hcs =>
      rw [Bool.and_eq_true, Bool.not_eq_true', List.isEmpty_eq_false_iff, List.all_eq_true] at hcs
      exact ⟨hcs.1, hcs.2, Option.some.inj h⟩
    · cases h
  · rintro ⟨hne, hdigits, rfl⟩
    rw [if_pos (by rw [List.all_eq_true.mpr hdigits, List.isEmpty_eq_false_iff.mpr hne]; rfl)]
    rfl

theorem IsNumeral.head_isDigit {c : Char} {cs : List Char} {n : Nat} (h : IsNumeral (c :: cs) n) :
    c.isDigit = true := h.digits c List.mem_cons_self

theorem unsigned?_eq_some_iff {cs : List Char} {n : Nat} :
    unsigned? cs = some n ↔ IsUnsigned cs n := by
  constructor
  · intro h
    unfold unsigned? at h
    split at h
    · exact .plus (numeral?_eq_some_iff.mp h)
    · exact .plain (numeral?_eq_some_iff.mp h)
  · intro h
    cases h with
    | plus h => exact numeral?_eq_some_iff.mpr h
    | plain h =>
      unfold unsigned?
      split
      · cases h.head_isDigit
      · exact numeral?_eq_some_iff.mpr h

theorem signed?_minus (cs : List Char) :
    signed? ('-' :: cs) = (numeral? cs).map fun (n : Nat) => (-n : Int) := by
  rw [signed?]
  cases numeral? cs <;> rfl

theorem signed?_eq_some_iff {cs : List Char} {n : Int} :
    signed? cs = some n ↔ IsSigned cs n := by
  constructor
  · intro h
    unfold signed? at h
    split at h
    · change signed? ('-' :: _) = some n at h
      rw [signed?_minus] at h
      obtain ⟨m, hm, rfl⟩ := Option.map_eq_some_iff.mp h
      exact .minus (numeral?_eq_some_iff.mp hm)
    · obtain ⟨m, hm, rfl⟩ := Option.map_eq_some_iff.mp h
      exact .plus (numeral?_eq_some_iff.mp hm)
    · obtain ⟨m, hm, rfl⟩ := Option.map_eq_some_iff.mp h
      exact .plain (numeral?_eq_some_iff.mp hm)
  · intro h
    cases h with
    | minus h =>
      rw [signed?_minus, numeral?_eq_some_iff.mpr h]
      rfl
    | plus h => exact Option.map_eq_some_iff.mpr ⟨_, numeral?_eq_some_iff.mpr h, rfl⟩
    | plain h =>
      unfold signed?
      split
      · cases h.head_isDigit
      · cases h.head_isDigit
      · exact Option.map_eq_some_iff.mpr ⟨_, numeral?_eq_some_iff.mpr h, rfl⟩

theorem word32?_eq_some_iff {s : String} {w : UInt32} :
    word32? s = some w ↔ IsUnsigned s.toList w.toNat := by
  rw [← unsigned?_eq_some_iff]
  unfold word32?
  constructor
  · intro h
    split at h
    · next n hn =>
      split at h
      · next hlt =>
        obtain rfl := Option.some.inj h
        rw [hn, UInt32.toNat_ofNat_of_lt' hlt]
      · cases h
    · cases h
  · intro h
    simp only [h, if_pos w.toNat_lt_size, UInt32.ofNat_toNat]

/-! ## Printed numbers -/

theorem isNumeral_repr (n : Nat) : IsNumeral n.repr.toList n := by
  rw [Nat.repr, String.toList_ofList]
  exact ⟨Nat.toDigits_ne_nil, fun c => Nat.isDigit_of_mem_toDigits (by decide) (by decide),
    Nat.ofDigitChars_toDigits (by decide) (by decide)⟩

theorem isSigned_toString (n : Int) : IsSigned (toString n).toList n := by
  rw [Int.toString_eq_repr]
  cases n with
  | ofNat m => exact .plain (isNumeral_repr m)
  | negSucc m =>
    show IsSigned ("-" ++ (m + 1).repr).toList _
    rw [String.toList_append]
    exact .minus (isNumeral_repr (m + 1))

end ToneScore.Text
