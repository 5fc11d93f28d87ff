import ToneScore.Proofs.Score.Fields
import ToneScore.Proofs.Text.Numerals
import ToneScore.Score.Reading

/-!
# The spellings of pitches

`IsSpelling` says which characters spell which pitch: a letter, at most one accidental and a signed
numeral, unless letter and accidental would name a white key. Reading accepts exactly the spellings
(`ofToken?_eq_some_iff`), and among them is the written form of every pitch that has one
(`isSpelling_spell`).
-/

namespace ToneScore.Pitch

open Text

/-- The letters with an accidental that would name a white key: Cb, Fb, E# and B#. -/
def whiteKeys : List (Letter × Accidental) :=
  [(.C, .flat), (.F, .flat), (.E, .sharp), (.B, .sharp)]

/-- The characters that spell a pitch, its octave being a signed numeral. -/
inductive IsSpelling : List Char → Pitch → Prop where
  | intro {letter : Letter} {accidental : Accidental} {numeral : List Char} {octave : Int32}
      (black : (letter, accidental) ∉ whiteKeys) (h : IsSigned numeral octave.toInt) :
      IsSpelling (letter.toChar :: (accidental.sign ++ numeral)) ⟨letter, accidental, octave⟩

theorem respellsWhiteKey_eq_false_iff {letter : Letter} {accidental : Accidental} :
    respellsWhiteKey letter accidental = false ↔ (letter, accidental) ∉ whiteKeys := by
  cases letter <;> cases accidental <;> decide

theorem ofChar?_eq_some_iff {c : Char} {letter : Letter} :
    Letter.ofChar? c = some letter ↔ c = letter.toChar := by
  constructor
  · intro h
    unfold Letter.ofChar? at h
    split at h <;> first | cases h; rfl | cases h
  · rintro rfl
    exact Letter.ofChar?_toChar letter

theorem octave?_eq_some_iff {cs : List Char} {octave : Int32} :
    octave? cs = some octave ↔ IsSigned cs octave.toInt := by
  rw [← signed?_eq_some_iff]
  unfold octave?
  constructor
  · intro h
    split at h
    · next n hn =>
      split at h
      · next hrange =>
        obtain rfl := Option.some.inj h
        rw [hn, Int32.toInt_ofInt_of_le hrange.1 (Int.lt_add_one_of_le hrange.2)]
      · cases h
    · cases h
  · intro h
    have hrange : -2147483648 ≤ octave.toInt ∧ octave.toInt ≤ 2147483647 :=
      ⟨octave.le_toInt, Int.le_of_lt_add_one octave.toInt_lt⟩
    simp only [h, if_pos hrange, Int32.ofInt_toInt]

/-- What stands in front of a numeral is an accidental, and `split` finds it. -/
theorem split_sign_append {numeral : List Char} {n : Int} (h : IsSigned numeral n)
    (accidental : Accidental) :
    Accidental.split (accidental.sign ++ numeral) = (accidental, numeral) := by
  cases accidental with
  | sharp => rfl
  | flat => rfl
  | natural =>
    -- No numeral starts with an accidental.
    have hfirst : ∀ c ∈ numeral.head?, c ≠ '#' ∧ c ≠ 'b' := by
      intro c hc
      cases h with
      | plus h | minus h =>
        obtain rfl := Option.some.inj hc
        decide
      | plain h =>
        have hdigit := h.digits c (List.mem_of_mem_head? hc)
        constructor <;> rintro rfl <;> cases hdigit
    show Accidental.split numeral = _
    unfold Accidental.split
    split
    · exact absurd rfl (hfirst _ rfl).1
    · exact absurd rfl (hfirst _ rfl).2
    · rfl

theorem sign_append_split (cs : List Char) :
    (Accidental.split cs).1.sign ++ (Accidental.split cs).2 = cs := by
  unfold Accidental.split
  split <;> rfl

theorem ofToken?_eq_some_iff {token : String} {p : Pitch} :
    ofToken? token = some p ↔ IsSpelling token.toList p := by
  unfold ofToken?
  constructor
  · intro h
    split at h
    · cases h
    next c cs hchars =>
    split at h
    · cases h
    next letter hletter =>
    rw [ofChar?_eq_some_iff] at hletter
    simp only at h
    split at h
    · cases h
    next hblack =>
    rw [Bool.not_eq_true, respellsWhiteKey_eq_false_iff] at hblack
    obtain ⟨octave, hoctave, rfl⟩ := Option.map_eq_some_iff.mp h
    have := IsSpelling.intro hblack (octave?_eq_some_iff.mp hoctave)
    rwa [sign_append_split, ← hletter, ← hchars] at this
  · intro h
    generalize token.toList = cs at h
    cases h with
    | intro black h =>
      simp only [Letter.ofChar?_toChar, split_sign_append h,
        respellsWhiteKey_eq_false_iff.mpr black, octave?_eq_some_iff.mpr h]
      rfl

theorem isSpelling_spell {p : Pitch} (h : (p.letter, p.accidental) ∉ whiteKeys) :
    IsSpelling p.spell.toList p := by
  have hspell := IsSpelling.intro h (isSigned_toString p.octave.toInt)
  rwa [spell, String.toList_ofList]

theorem IsSpelling.black {cs : List Char} {p : Pitch} (h : IsSpelling cs p) :
    (p.letter, p.accidental) ∉ whiteKeys := by
  cases h with
  | intro black _ => exact black

/-! ## Reading -/

theorem reads_readPitch :
    Score.Reads Score.readPitch (fun token p => IsSpelling token.toList p) .pitch := by
  refine Score.reads_of_option (fun token => ?_) fun token p => ofToken?_eq_some_iff
  rw [Score.readPitch]
  cases ofToken? token <;> rfl

/--
A text is read as a pitch exactly if it spells that pitch, and otherwise it is itself at fault. The
written form of a pitch is read back as the same pitch, unless it would name a white key.
-/
theorem readPitch_spelling :
    (∀ token p, Score.readPitch token = .ok p ↔ IsSpelling token.toList p) ∧
    (∀ token fault, Score.readPitch token = .error fault ↔
      fault = .pitch token ∧ ∀ p, ¬ IsSpelling token.toList p) ∧
    ∀ p : Pitch, Score.readPitch p.spell = .ok p ↔ (p.letter, p.accidental) ∉ whiteKeys := by
  refine ⟨reads_readPitch.ok_iff, reads_readPitch.error_iff, fun p => ?_⟩
  rw [reads_readPitch.ok_iff]
  exact ⟨IsSpelling.black, isSpelling_spell⟩

/-- The letter B, a flat and a negative octave. -/
example : ofToken? "Bb-2147483648" = some ⟨.B, .flat, -2147483648⟩ := by decide +kernel

end ToneScore.Pitch
