import Mathlib
import ToneScore.Proofs.Pitch.Spelling

/-!
# Enharmonic spellings

No spelling crosses an octave, so the semitone number of a spelled pitch fixes its octave and its
key within the octave (`midi_eq_iff`). A black key has a sharp and a flat name and a white key its
natural name only (`name_eq_black_iff`, `name_eq_white_iff`). Every semitone number whose octave has
32 bits is therefore spelled by two pitches or by one. Spellings of one semitone number sound alike.
-/

namespace ToneScore.Pitch

/-- The pitches of a semitone number that are read from some token. -/
def spelled (n : Int) : Set Pitch :=
  {p | (∃ token, Score.readPitch token = .ok p) ∧ p.midi = n}

/-- The semitones of the black keys above C, with the letters below and above. -/
def blackKeys : List (Int × Letter × Letter) :=
  [(1, .C, .D), (3, .D, .E), (6, .F, .G), (8, .G, .A), (10, .A, .B)]

def naturalKeys : List (Int × Letter) :=
  [(0, .C), (2, .D), (4, .E), (5, .F), (7, .G), (9, .A), (11, .B)]

/-! ## Names of keys -/

section
variable {letter : Letter} {accidental : Accidental} (h : (letter, accidental) ∉ whiteKeys)
include h

theorem name_mem_octave : 0 ≤ letter.semitone + accidental.offset ∧
    letter.semitone + accidental.offset < 12 := by
  revert h
  cases letter <;> cases accidental <;> decide

theorem name_eq_black_iff {key : Int} {lower upper : Letter} (hkey : (key, lower, upper) ∈ blackKeys) :
    letter.semitone + accidental.offset = key ↔
      (letter, accidental) = (lower, .sharp) ∨ (letter, accidental) = (upper, .flat) := by
  have hall : ∀ k ∈ blackKeys, letter.semitone + accidental.offset = k.1 ↔
      (letter, accidental) = (k.2.1, .sharp) ∨ (letter, accidental) = (k.2.2, .flat) := by
    revert h
    cases letter <;> cases accidental <;> decide
  exact hall _ hkey

theorem name_eq_white_iff {key : Int} {natural : Letter} (hkey : (key, natural) ∈ naturalKeys) :
    letter.semitone + accidental.offset = key ↔ (letter, accidental) = (natural, .natural) := by
  have hall : ∀ k ∈ naturalKeys, letter.semitone + accidental.offset = k.1 ↔
      (letter, accidental) = (k.2, .natural) := by
    revert h
    cases letter <;> cases accidental <;> decide
  exact hall _ hkey

end

theorem black_of_mem_blackKeys {key : Int} {lower upper : Letter}
    (hkey : (key, lower, upper) ∈ blackKeys) :
    (lower, Accidental.sharp) ∉ whiteKeys ∧ (upper, Accidental.flat) ∉ whiteKeys := by
  have hall : ∀ k ∈ blackKeys,
      (k.2.1, Accidental.sharp) ∉ whiteKeys ∧ (k.2.2, Accidental.flat) ∉ whiteKeys := by decide
  exact hall _ hkey

theorem natural_not_mem_whiteKeys (letter : Letter) : (letter, Accidental.natural) ∉ whiteKeys := by
  cases letter <;> decide

theorem exists_blackKey {n : Int} (h : n % 12 ∈ [1, 3, 6, 8, 10]) :
    ∃ lower upper, (n % 12, lower, upper) ∈ blackKeys := by
  change n % 12 ∈ blackKeys.map Prod.fst at h
  obtain ⟨⟨key, lower, upper⟩, hkey, heq⟩ := List.mem_map.mp h
  exact ⟨lower, upper, heq ▸ hkey⟩

theorem exists_naturalKey {n : Int} (h : n % 12 ∉ [1, 3, 6, 8, 10]) :
    ∃ letter, (n % 12, letter) ∈ naturalKeys := by
  have hmem : n % 12 ∈ naturalKeys.map Prod.fst := by
    show n % 12 ∈ [0, 2, 4, 5, 7, 9, 11]
    simp only [List.mem_cons, List.not_mem_nil, or_false] at h ⊢
    omega
  obtain ⟨⟨key, letter⟩, hkey, heq⟩ := List.mem_map.mp hmem
  exact ⟨letter, heq ▸ hkey⟩

/-! ## Semitone numbers -/

theorem midi_eq_iff {p : Pitch} {n : Int} (h : (p.letter, p.accidental) ∉ whiteKeys) :
    p.midi = n ↔
      p.octave.toInt = n / 12 - 1 ∧ p.letter.semitone + p.accidental.offset = n % 12 := by
  have hkey := name_mem_octave h
  unfold midi
  omega

theorem exists_octave {n : Int} (hlow : (⟨.C, .natural, Int32.minValue⟩ : Pitch).midi ≤ n)
    (hhigh : n ≤ (⟨.B, .natural, Int32.maxValue⟩ : Pitch).midi) :
    ∃ octave : Int32, octave.toInt = n / 12 - 1 := by
  have hlow : 12 * (-2147483648 + 1) ≤ n := hlow
  have hhigh : n ≤ 12 * (2147483647 + 1) + 11 := hhigh
  exact ⟨Int32.ofInt (n / 12 - 1), Int32.toInt_ofInt_of_le (by omega) (by omega)⟩

/-- Some token spells a pitch, unless it would name a white key by an accidental. -/
theorem exists_token_iff {p : Pitch} :
    (∃ token, Score.readPitch token = .ok p) ↔ (p.letter, p.accidental) ∉ whiteKeys := by
  simp only [reads_readPitch.ok_iff]
  exact ⟨fun ⟨_, h⟩ => h.black, fun h => ⟨p.spell, isSpelling_spell h⟩⟩

theorem mem_spelled_iff {p : Pitch} {n : Int} {octave : Int32} (hoctave : octave.toInt = n / 12 - 1) :
    p ∈ spelled n ↔ (p.letter, p.accidental) ∉ whiteKeys ∧ p.octave = octave ∧
      p.letter.semitone + p.accidental.offset = n % 12 := by
  show (∃ token, _) ∧ p.midi = n ↔ _
  rw [exists_token_iff]
  refine and_congr_right fun h => ?_
  rw [midi_eq_iff h, ← hoctave, Int32.toInt_inj]

theorem spelled_black {n : Int} {octave : Int32} (hoctave : octave.toInt = n / 12 - 1)
    {lower upper : Letter} (hkey : (n % 12, lower, upper) ∈ blackKeys) :
    spelled n = {⟨lower, .sharp, octave⟩, ⟨upper, .flat, octave⟩} := by
  obtain ⟨hsharp, hflat⟩ := black_of_mem_blackKeys hkey
  ext p
  rw [mem_spelled_iff hoctave, Set.mem_insert_iff, Set.mem_singleton_iff]
  constructor
  · rintro ⟨hblack, rfl, hname⟩
    rcases (name_eq_black_iff hblack hkey).mp hname with hname | hname
    · exact .inl (by cases p; cases hname; rfl)
    · exact .inr (by cases p; cases hname; rfl)
  · rintro (rfl | rfl)
    · exact ⟨hsharp, rfl, (name_eq_black_iff hsharp hkey).mpr (.inl rfl)⟩
    · exact ⟨hflat, rfl, (name_eq_black_iff hflat hkey).mpr (.inr rfl)⟩

theorem spelled_white {n : Int} {octave : Int32} (hoctave : octave.toInt = n / 12 - 1)
    {letter : Letter} (hkey : (n % 12, letter) ∈ naturalKeys) :
    spelled n = {⟨letter, .natural, octave⟩} := by
  have hnatural := natural_not_mem_whiteKeys letter
  ext p
  rw [mem_spelled_iff hoctave, Set.mem_singleton_iff]
  constructor
  · rintro ⟨hblack, rfl, hname⟩
    have hname := (name_eq_white_iff hblack hkey).mp hname
    cases p
    cases hname
    rfl
  · rintro rfl
    exact ⟨hnatural, rfl, (name_eq_white_iff hnatural hkey).mpr rfl⟩

/-! ## Frequencies -/

def Sounds (frequency : Float) : Prop := frequency.isFinite = true ∧ 0.0 < frequency

section
variable {ratio : Nat → Float} {token : String} {p : Pitch}

theorem readTuned_of_sounds (h : Score.readPitch token = .ok p) (hs : Sounds (tuning ratio p.midi)) :
    Score.readTuned ratio token = .ok (tuning ratio p.midi) := by
  rw [Score.readTuned, h]
  exact if_pos (by rw [hs.1, decide_eq_true hs.2]; rfl)

theorem readTuned_of_not_sounds (h : Score.readPitch token = .ok p)
    (hs : ¬ Sounds (tuning ratio p.midi)) : Score.readTuned ratio token = .error (.pitch token) := by
  rw [Score.readTuned, h]
  exact if_neg fun hboth => hs (by rwa [Bool.and_eq_true, decide_eq_true_eq] at hboth)

theorem sounds_of_readTuned {frequency : Float} (h : Score.readPitch token = .ok p)
    (hf : Score.readTuned ratio token = .ok frequency) :
    tuning ratio p.midi = frequency ∧ Sounds (tuning ratio p.midi) := by
  by_cases hs : Sounds (tuning ratio p.midi)
  · rw [readTuned_of_sounds h hs] at hf
    exact ⟨Except.ok.inj hf, hs⟩
  · rw [readTuned_of_not_sounds h hs] at hf
    cases hf

end

/--
A semitone number within the octaves of 32 bits is spelled by a sharp and by a flat of one octave if
it is that of a black key, and by a natural alone if not. Tokens of one semitone number are read as
one frequency, or all refused.
-/
theorem spelled_enharmonic :
    (∀ n, (⟨.C, .natural, Int32.minValue⟩ : Pitch).midi ≤ n →
      n ≤ (⟨.B, .natural, Int32.maxValue⟩ : Pitch).midi →
      (n % 12 ∈ [1, 3, 6, 8, 10] → (spelled n).ncard = 2 ∧ ∃ sharp flat, spelled n = {sharp, flat} ∧
        sharp.accidental = .sharp ∧ flat.accidental = .flat ∧ sharp.octave = flat.octave) ∧
      (n % 12 ∉ [1, 3, 6, 8, 10] → (spelled n).ncard = 1 ∧ ∃ natural, spelled n = {natural} ∧
        natural.accidental = .natural)) ∧
    ∀ s t p q, Score.readPitch s = .ok p → Score.readPitch t = .ok q → p.midi = q.midi →
      (∃ frequency, Score.readFrequency s = .ok frequency ∧ Score.readFrequency t = .ok frequency) ∨
        Score.readFrequency s = .error (.pitch s) ∧ Score.readFrequency t = .error (.pitch t) := by
  refine ⟨fun n hlow hhigh => ?_, fun s t p q hs ht hmidi => ?_⟩
  · obtain ⟨octave, hoctave⟩ := exists_octave hlow hhigh
    constructor
    · intro h
      obtain ⟨lower, upper, hkey⟩ := exists_blackKey h
      have hspelled := spelled_black hoctave hkey
      refine ⟨?_, _, _, hspelled, rfl, rfl, rfl⟩
      rw [hspelled, Set.ncard_pair fun heq => by cases heq]
    · intro h
      obtain ⟨letter, hkey⟩ := exists_naturalKey h
      have hspelled := spelled_white hoctave hkey
      refine ⟨?_, _, hspelled, rfl⟩
      rw [hspelled, Set.ncard_singleton]
  · by_cases hsounds : Sounds (tuning semitoneRatio q.midi)
    · have hs' := readTuned_of_sounds hs (hmidi ▸ hsounds)
      rw [hmidi] at hs'
      exact .inl ⟨_, hs', readTuned_of_sounds ht hsounds⟩
    · exact .inr ⟨readTuned_of_not_sounds hs (hmidi ▸ hsounds), readTuned_of_not_sounds ht hsounds⟩

/--
The lowest black key of all has two spellings and the white key below it one, and a written plus
sign or leading zeros do not change what is heard.
-/
theorem spelled_enharmonic_lowest :
    (spelled (-25769803763)).ncard = 2 ∧ (spelled (-25769803764)).ncard = 1 ∧
    ∃ frequency, Score.readFrequency "A#+04" = .ok frequency ∧
      Score.readFrequency "Bb4" = .ok frequency := by
  obtain ⟨hspelled, hsound⟩ := spelled_enharmonic
  have hblack := (hspelled (-25769803763) (by decide) (by decide)).1 (by decide)
  have hwhite := (hspelled (-25769803764) (by decide) (by decide)).2 (by decide)
  have hsharp : Score.readPitch "A#+04" = .ok ⟨.A, .sharp, 4⟩ := by decide +kernel
  have hflat : Score.readPitch "Bb4" = .ok ⟨.B, .flat, 4⟩ := by decide +kernel
  obtain ⟨f, hf⟩ : ∃ f, Score.readFrequency "A#+04" = .ok f := exists_ok (by decide +kernel)
  refine ⟨hblack.1, hwhite.1, (hsound _ _ _ _ hsharp hflat (by decide)).resolve_right ?_⟩
  rintro ⟨hrefused, -⟩
  cases hf.symm.trans hrefused

end ToneScore.Pitch
