import Mathlib.Algebra.Group.Nat.Defs
import ToneScore.Mixer

/-!
# The mix, sample by sample

`length?` and `placements?` walk over the notes with the same fallible step, so they fail on the
same scores, and the buffer that `mix` sets up reaches exactly as far as the last span, if there are
buffers of that length. Placing a note acts on each sample on its own (`getElem?_place`), so sample
`j` of the mix is a left fold over the notes whose spans cover `j` (`sampleSum`).
-/

namespace ToneScore

/-- Sample `j` is one of those that the span takes up. -/
def Span.Covers (s : Span) (j : Nat) : Prop := s.start ≤ j ∧ j < s.stop

instance (s : Span) (j : Nat) : Decidable (s.Covers j) :=
  inferInstanceAs (Decidable (s.start ≤ j ∧ j < s.stop))

namespace Mixer

/-- A note on its own, from the start of its span on. -/
def rendered (m : Mixer) (note : Note) (span : Span) : Array Float :=
  generate note.waveform note.frequency note.amplitude span.length m.sampleRate m.baseAmplitude

@[simp] theorem size_rendered (m : Mixer) (note : Note) (span : Span) :
    (m.rendered note span).size = span.length := by
  simp [rendered, generate]

/-- A running total with what a note adds to sample `j`: nothing, if its span does not cover `j`. -/
def heard (m : Mixer) (bpm : Float) (j : Nat) (total : Float) (note : Note) : Float :=
  match m.span? note bpm with
  | none => total
  | some span =>
    if h : span.Covers j then
      have inside : j - span.start < (m.rendered note span).size := by
        obtain ⟨h1, h2⟩ := h
        rw [size_rendered, Span.length]
        omega
      total + (m.rendered note span)[j - span.start]
    else total

/-- Sample `j` of the sum of all notes, added up from zero in the order of the score. -/
def sampleSum (m : Mixer) (score : Score) (j : Nat) : Float :=
  score.notes.foldl (m.heard score.bpm j) 0.0

variable {m : Mixer} {score : Score}

/-! ## Spans of a score -/

theorem start_le_stop_of_span? {note : Note} {bpm : Float} {span : Span}
    (h : m.span? note bpm = some span) : span.start ≤ span.stop := by
  simp only [span?, Option.bind_eq_bind, Option.bind_eq_some_iff] at h
  obtain ⟨start, -, length, -, h⟩ := h
  split at h
  · cases h; exact Nat.le_add_right start length
  · cases h

def placed? (m : Mixer) (bpm : Float) (notes : List Note) : Option (List (Note × Span)) :=
  notes.mapM fun note => (m.span? note bpm).map (note, ·)

theorem placements?_eq (m : Mixer) (score : Score) :
    m.placements? score = m.placed? score.bpm score.notes := rfl

@[simp] theorem placed?_nil (bpm : Float) : m.placed? bpm [] = some [] := rfl

@[simp] theorem placed?_cons (bpm : Float) (note : Note) (rest : List Note) :
    m.placed? bpm (note :: rest) =
      (m.span? note bpm).bind fun span => (m.placed? bpm rest).map ((note, span) :: ·) := by
  unfold placed?
  rw [List.mapM_cons]
  cases m.span? note bpm with
  | none => rfl
  | some span => cases rest.mapM fun note => (m.span? note bpm).map (note, ·) <;> rfl

theorem placed?_eq_none_iff {bpm : Float} {notes : List Note} :
    m.placed? bpm notes = none ↔ ∃ note ∈ notes, m.span? note bpm = none := by
  induction notes with
  | nil => simp
  | cons note rest ih =>
    simp only [placed?_cons, List.mem_cons, exists_eq_or_imp, ← ih]
    cases m.span? note bpm <;> simp

/-- Every note is there once, in the order of the score, with its own span. -/
theorem notes_of_placed? {bpm : Float} {notes : List Note} {placed : List (Note × Span)}
    (h : m.placed? bpm notes = some placed) :
    placed.map (·.1) = notes ∧ ∀ p ∈ placed, m.span? p.1 bpm = some p.2 := by
  induction notes generalizing placed with
  | nil => cases h; simp
  | cons note rest ih =>
    rw [placed?_cons, Option.bind_eq_some_iff] at h
    obtain ⟨span, hs, h⟩ := h
    obtain ⟨tail, ht, rfl⟩ := Option.map_eq_some_iff.mp h
    obtain ⟨h1, h2⟩ := ih ht
    refine ⟨by rw [List.map_cons, h1], fun p hp => ?_⟩
    rcases List.mem_cons.mp hp with rfl | hp
    · exact hs
    · exact h2 p hp

theorem filterMap_span?_of_placed {bpm : Float} {placed : List (Note × Span)}
    (h : ∀ p ∈ placed, m.span? p.1 bpm = some p.2) :
    (placed.map (·.1)).filterMap (m.span? · bpm) = placed.map (·.2) := by
  induction placed with
  | nil => rfl
  | cons p rest ih =>
    obtain ⟨hp, hrest⟩ := List.forall_mem_cons.mp h
    simp only [List.map_cons, List.filterMap_cons, hp, ih hrest]

/-- The sample at which the last of some spans stops. -/
def reach (placed : List (Note × Span)) : Nat := (placed.map (·.2.stop)).foldl max 0

/-- The length is read off the spans that the mix uses. -/
theorem length?_eq (m : Mixer) (score : Score) :
    m.length? score = (m.placements? score).map reach := by
  suffices h : ∀ notes longest,
      notes.foldlM (fun longest note => (m.span? note score.bpm).map (max longest ·.stop)) longest =
        (m.placed? score.bpm notes).map fun placed => (placed.map (·.2.stop)).foldl max longest from
    h score.notes 0
  intro notes
  induction notes with
  | nil => intro longest; rfl
  | cons note rest ih =>
    intro longest
    rw [List.foldlM_cons, placed?_cons]
    cases m.span? note score.bpm with
    | none => rfl
    | some span =>
      simp only [Option.map_some, Option.bind_eq_bind, Option.bind_some, ih, Option.map_map]
      rfl

theorem length?_eq_none_iff :
    m.length? score = none ↔ ∃ note ∈ score.notes, m.span? note score.bpm = none := by
  rw [length?_eq, Option.map_eq_none_iff, placements?_eq, placed?_eq_none_iff]

theorem length?_eq_some_iff {frames : Nat} :
    m.length? score = some frames ↔
      ∃ placed, m.placements? score = some placed ∧ reach placed = frames := by
  rw [length?_eq, Option.map_eq_some_iff]

theorem mix_eq_ok_iff {buffer : Array Float} :
    m.mix score = .ok buffer ↔
      ∃ placed, m.placements? score = some placed ∧ reach placed ≤ capacity ∧
        placed.foldl m.place (Array.replicate (reach placed) 0.0) = buffer := by
  unfold mix
  rw [length?_eq]
  cases m.placements? score with
  | none => simp
  | some placed =>
    by_cases h : capacity < reach placed
    · simp [h, Nat.not_le.mpr h]
    · simp [h, Nat.not_lt.mp h]

theorem mix_eq_unaddressable_iff :
    m.mix score = .error .unaddressable ↔ m.length? score = none := by
  unfold mix
  rw [length?_eq]
  cases m.placements? score with
  | none => simp
  | some placed => by_cases h : capacity < reach placed <;> simp [h]

theorem mix_eq_capacity_iff :
    m.mix score = .error .capacity ↔ ∃ frames, m.length? score = some frames ∧ capacity < frames := by
  unfold mix
  rw [length?_eq]
  cases m.placements? score with
  | none => simp
  | some placed => by_cases h : capacity < reach placed <;> simp [h]

/-! ## Samples of the buffer -/

@[simp] theorem size_place (m : Mixer) (buffer : Array Float) (p : Note × Span) :
    (m.place buffer p).size = buffer.size := by
  simp [place]

@[simp] theorem size_foldl_place (m : Mixer) (placed : List (Note × Span)) (buffer : Array Float) :
    (placed.foldl m.place buffer).size = buffer.size := by
  induction placed generalizing buffer with
  | nil => rfl
  | cons p rest ih => rw [List.foldl_cons, ih, size_place]

theorem exists_mix {frames : Nat} (h : m.length? score = some frames) (hle : frames ≤ capacity) :
    ∃ samples, m.mix score = .ok samples ∧ samples.size = frames := by
  obtain ⟨placed, hp, rfl⟩ := length?_eq_some_iff.mp h
  exact ⟨_, mix_eq_ok_iff.mpr ⟨placed, hp, hle, rfl⟩, by rw [size_foldl_place, Array.size_replicate]⟩

theorem length?_of_mix {buffer : Array Float} (h : m.mix score = .ok buffer) :
    m.length? score = some buffer.size := by
  obtain ⟨placed, hp, -, rfl⟩ := mix_eq_ok_iff.mp h
  rw [size_foldl_place, Array.size_replicate]
  exact length?_eq_some_iff.mpr ⟨placed, hp, rfl⟩

theorem getElem_rendered (m : Mixer) (note : Note) (span : Span) (i : Nat)
    (h : i < (m.rendered note span).size) :
    (m.rendered note span)[i] = (m.tone note).sampleAt i := by
  have hi : i < span.length := by simpa using h
  have := Tone.getElem?_samples (m.tone note) span.length i
  rw [if_pos hi] at this
  exact Array.getElem_eq_iff.mpr this

theorem heard_eq {bpm : Float} {note : Note} {span : Span} (h : m.span? note bpm = some span)
    (j : Nat) (total : Float) :
    m.heard bpm j total note =
      if span.Covers j then total + (m.tone note).sampleAt (j - span.start) else total := by
  unfold heard
  rw [h]
  simp only [getElem_rendered]
  split <;> rfl

/-- Placing a note changes each sample as `heard` says, whatever the other samples are. -/
theorem getElem?_place {bpm : Float} {p : Note × Span} (h : m.span? p.1 bpm = some p.2)
    (buffer : Array Float) (j : Nat) :
    (m.place buffer p)[j]? = buffer[j]?.map fun total => m.heard bpm j total p.1 := by
  have hle := start_le_stop_of_span? h
  have hcover : (p.2.start ≤ j ∧ j < p.2.start + p.2.length) ↔ p.2.Covers j := by
    unfold Span.Covers Span.length
    omega
  unfold place
  rw [Tone.getElem?_addInto, funext (heard_eq h j)]
  simp only [hcover]
  split <;> simp

theorem getElem?_foldl_place {bpm : Float} {placed : List (Note × Span)}
    (h : ∀ p ∈ placed, m.span? p.1 bpm = some p.2) (buffer : Array Float) (j : Nat) :
    (placed.foldl m.place buffer)[j]? =
      buffer[j]?.map fun total => (placed.map (·.1)).foldl (m.heard bpm j) total := by
  induction placed generalizing buffer with
  | nil => simp
  | cons p rest ih =>
    obtain ⟨hp, hrest⟩ := List.forall_mem_cons.mp h
    rw [List.foldl_cons, ih hrest, getElem?_place hp, Option.map_map]
    rfl

/-! ## The mix -/

theorem reach_eq_max? (placed : List (Note × Span)) :
    reach placed = (placed.map (·.2.stop)).max?.getD 0 := by
  unfold reach
  cases placed.map (·.2.stop) with
  | nil => rfl
  | cons n ns => rw [List.foldl_cons, Nat.zero_max]; rfl

theorem stop_le_reach {placed : List (Note × Span)} {p : Note × Span} (h : p ∈ placed) :
    p.2.stop ≤ reach placed := by
  rw [reach_eq_max?]
  have hp : p.2.stop ∈ placed.map (·.2.stop) := List.mem_map_of_mem h
  obtain ⟨n, hn⟩ := Option.isSome_iff_exists.mp (List.isSome_max?_of_mem hp)
  rw [hn]
  exact (List.max?_eq_some_iff.mp hn).2 _ hp

/--
A score has no mix if a note is out of reach, and none that a buffer can take if its last span reaches
too far. Any other mix is as long as the last span reaches: every note is placed inside the buffer as
it then stands, and every sample of the result is the sum of the notes that cover it.
-/
theorem mix_sums (m : Mixer) (score : Score) :
    (m.mix score = .error .unaddressable ↔ m.length? score = none) ∧
    (m.length? score = none ↔ ∃ note ∈ score.notes, m.span? note score.bpm = none) ∧
    ((∃ buffer, m.mix score = .ok buffer) ↔
      ∃ frames, m.length? score = some frames ∧ frames < 2 ^ 60) ∧
    ∀ buffer, m.mix score = .ok buffer →
      m.length? score = some buffer.size ∧
      buffer.size =
        ((score.notes.filterMap (m.span? · score.bpm)).map Span.stop).max?.getD 0 ∧
      (∀ before p after, m.placements? score = some (before ++ p :: after) →
        p.2.start ≤ p.2.stop ∧
          p.2.stop ≤ (before.foldl m.place (Array.replicate buffer.size 0.0)).size) ∧
      ∀ j (hj : j < buffer.size), buffer[j] = m.sampleSum score j := by
  refine ⟨mix_eq_unaddressable_iff, length?_eq_none_iff, ⟨?_, ?_⟩, ?_⟩
  · rintro ⟨buffer, h⟩
    obtain ⟨placed, hp, hle, -⟩ := mix_eq_ok_iff.mp h
    exact ⟨_, length?_eq_some_iff.mpr ⟨placed, hp, rfl⟩, Nat.lt_of_le_of_lt hle (by decide)⟩
  · rintro ⟨frames, h, hlt⟩
    obtain ⟨buffer, hbuffer, -⟩ := exists_mix h (Nat.le_of_lt_succ hlt)
    exact ⟨buffer, hbuffer⟩
  intro buffer h
  refine ⟨length?_of_mix h, ?_⟩
  obtain ⟨placed, hp, -, rfl⟩ := mix_eq_ok_iff.mp h
  obtain ⟨hnotes, hspans⟩ := notes_of_placed? hp
  simp only [size_foldl_place, Array.size_replicate]
  refine ⟨?_, ?_, ?_⟩
  · rw [reach_eq_max?, ← hnotes, filterMap_span?_of_placed hspans, List.map_map]
    rfl
  · intro before p after hsplit
    obtain rfl := Option.some.inj (hp.symm.trans hsplit)
    have hmem : p ∈ before ++ p :: after := by simp
    exact ⟨start_le_stop_of_span? (hspans p hmem), stop_le_reach hmem⟩
  · intro j hj
    apply Array.getElem_eq_iff.mpr
    rw [getElem?_foldl_place hspans, hnotes, Array.getElem?_replicate, if_pos hj]
    rfl

/-- A note that lasts a tick, so late that no buffer reaches it. -/
theorem mix_not_total : ¬ ∀ (m : Mixer) (score : Score),
    (m.mix score = .error .unaddressable ↔ m.length? score = none) ∧
      (m.length? score ≠ none → ∃ buffer, m.mix score = .ok buffer) := by
  intro h
  have hlength : (⟨44100, 0.0625⟩ : Mixer).length?
      ⟨0.0001, [⟨4000000000, 1, 440.0, 0.0, .sine⟩]⟩ = some 6615000001653750000 := by
    decide +kernel
  obtain ⟨buffer, hbuffer⟩ := (h ⟨44100, 0.0625⟩ ⟨0.0001, [⟨4000000000, 1, 440.0, 0.0, .sine⟩]⟩).2
    (Option.ne_none_iff_exists'.mpr ⟨_, hlength⟩)
  have hcapacity := mix_eq_capacity_iff.mpr ⟨_, hlength, by decide⟩
  cases hcapacity.symm.trans hbuffer

end Mixer

end ToneScore
