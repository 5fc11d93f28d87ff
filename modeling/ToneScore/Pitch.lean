import ToneScore.Text.Numeral

/-!
# Pitches in scientific notation

A pitch is written as a letter, at most one accidental and an octave, such as `A4`, `C#5` or
`Bb-1`. Accidentals name black keys only, so a black key has two spellings and a white key one.

Pitches are tuned in twelve equal steps to the octave from A4 = 440 Hz. The distance from A4 is
split into whole octaves, which scale by a power of two, and a remainder below an octave.
-/

namespace ToneScore

open Text

inductive Letter where
  | C | D | E | F | G | A | B
  deriving DecidableEq, Repr

namespace Letter

/-- Semitones above C. -/
def semitone : Letter → Int
  | C => 0
  | D => 2
  | E => 4
  | F => 5
  | G => 7
  | A => 9
  | B => 11

def toChar : Letter → Char
  | C => 'C'
  | D => 'D'
  | E => 'E'
  | F => 'F'
  | G => 'G'
  | A => 'A'
  | B => 'B'

def ofChar? : Char → Option Letter
  | 'C' => some C
  | 'D' => some D
  | 'E' => some E
  | 'F' => some F
  | 'G' => some G
  | 'A' => some A
  | 'B' => some B
  | _ => none

theorem ofChar?_toChar (l : Letter) : ofChar? l.toChar = some l := by
  cases l <;> rfl

end Letter

inductive Accidental where
  | natural | sharp | flat
  deriving DecidableEq, Repr

namespace Accidental

def offset : Accidental → Int
  | natural => 0
  | sharp => 1
  | flat => -1

def sign : Accidental → List Char
  | natural => []
  | sharp => ['#']
  | flat => ['b']

/-- The accidental in front of an octave, and the octave. -/
def split : List Char → Accidental × List Char
  | '#' :: cs => (sharp, cs)
  | 'b' :: cs => (flat, cs)
  | cs => (natural, cs)

end Accidental

structure Pitch where
  letter : Letter
  accidental : Accidental
  octave : Int32
  deriving DecidableEq, Repr

namespace Pitch

/-- The spellings that would name a white key by an accidental: Cb, Fb, E# and B#. -/
def respellsWhiteKey : Letter → Accidental → Bool
  | .C, .flat | .F, .flat | .E, .sharp | .B, .sharp => true
  | _, _ => false

/-- An octave numeral within 32 bits. -/
def octave? (cs : List Char) : Option Int32 :=
  match signed? cs with
  | some n => if -2147483648 ≤ n ∧ n ≤ 2147483647 then some (Int32.ofInt n) else none
  | none => none

def ofToken? (token : String) : Option Pitch :=
  match token.toList with
  | [] => none
  | c :: cs =>
    match Letter.ofChar? c with
    | none => none
    | some letter =>
      let (accidental, rest) := Accidental.split cs
      if respellsWhiteKey letter accidental then none
      else (octave? rest).map fun octave => ⟨letter, accidental, octave⟩

def spell (p : Pitch) : String :=
  String.ofList (p.letter.toChar :: p.accidental.sign ++ (toString p.octave.toInt).toList)

/-- The semitone number on which C4 is 60 and A4 is 69. -/
def midi (p : Pitch) : Int :=
  12 * (p.octave.toInt + 1) + p.letter.semitone + p.accidental.offset

/-- `r * b^n` by repeated squaring of `b`. -/
def timesPower (r b : Float) (n : Nat) : Float :=
  if n = 0 then r else timesPower (if n % 2 = 1 then r * b else r) (b * b) (n / 2)

/-- `2^q`, as the reciprocal of the opposite power for a negative `q`. -/
def twoPower (q : Int) : Float :=
  if q < 0 then 1.0 / timesPower 1.0 2.0 q.natAbs else timesPower 1.0 2.0 q.natAbs

/-- The frequency ratio of `r` semitones, `2^(r/12)` within a unit in the last place, for `r < 12`. -/
def semitoneRatio : Nat → Float
  | 0 => 1.0
  | 1 => 1.0594630943592953
  | 2 => 1.122462048309373
  | 3 => 1.189207115002721
  | 4 => 1.2599210498948732
  | 5 => 1.3348398541700344
  | 6 => 1.4142135623730951
  | 7 => 1.4983070768766815
  | 8 => 1.5874010519681994
  | 9 => 1.681792830507429
  | 10 => 1.7817974362806785
  | _ => 1.8877486253633868

/--
The frequency in hertz of the semitone number `midi`, where `r` semitones above a step of whole
octaves multiply by `ratio r`. The octaves are held within 32 bits.
-/
def tuning (ratio : Nat → Float) (midi : Int) : Float :=
  let distance := midi - 69
  let octaves := max (-2147483648) (min (distance / 12) 2147483647)
  440.0 * twoPower octaves * ratio (distance % 12).toNat

def frequency (p : Pitch) : Float :=
  tuning semitoneRatio p.midi

end Pitch

end ToneScore
