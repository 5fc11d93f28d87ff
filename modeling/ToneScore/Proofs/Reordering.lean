import Mathlib.Data.List.FinRange
import Mathlib.Logic.Equiv.Defs
import ToneScore.Proofs.Mixing

/-!
# Scores with the same notes

The mix is fixed by its length and by the sum of each sample (`mix_eq_ok_iff_sums`). The length is a
maximum, which no order of the notes changes (`length?_of_perm`). A sample is a sum of doubles, which
is another one in another order, but only the notes that sound at the sample take part in it
(`sampleSum_eq`). So notes may change places as long as those that sound together do not
(`filter_of_rearranged`), and a note changes no sample outside its span.
-/

namespace ToneScore.Mixer

def Overlap (m : Mixer) (bpm : Float) (a b : Note) : Prop :=
  ∃ x y, m.span? a bpm = some x ∧ m.span? b bpm = some y ∧ ∃ j, x.Covers j ∧ y.Covers j

/-- The notes of `b` are those of `a`, at the places that `σ` gives them, and of two notes that
overlap the same one comes first. -/
structure Rearranged (m : Mixer) (bpm : Float) (a b : List Note) (σ : Fin a.length ≃ Fin b.length) :
    Prop where
  note : ∀ i, b[σ i] = a[i]
  order : ∀ i j, i < j → m.Overlap bpm a[i] a[j] → σ i < σ j

def sounds (m : Mixer) (bpm : Float) (j : Nat) (note : Note) : Bool :=
  (m.span? note bpm).any fun span => decide (span.Covers j)

variable {m : Mixer} {bpm : Float}

theorem sounds_iff {j : Nat} {note : Note} :
    m.sounds bpm j note = true ↔ ∃ span, m.span? note bpm = some span ∧ span.Covers j := by
  simp [sounds, Option.any_eq_true]

/-! ## The mix as an array of sums -/

theorem heard_of_not_sounds {j : Nat} {note : Note} (h : ¬ m.sounds bpm j note = true)
    (total : Float) : m.heard bpm j total note = total := by
  cases hspan : m.span? note bpm with
  | none =>
    unfold heard
    rw [hspan]
  | some span =>
    rw [heard_eq hspan, if_neg]
    exact fun hcovers => h (sounds_iff.mpr ⟨span, hspan, hcovers⟩)

theorem sampleSum_eq (m : Mixer) (score : Score) (j : Nat) :
    m.sampleSum score j =
      (score.notes.filter (m.sounds score.bpm j)).foldl (m.heard score.bpm j) 0.0 := by
  rw [List.foldl_filter]
  unfold sampleSum
  congr 1
  funext total note
  split
  · rfl
  · next h => exact heard_of_not_sounds h total

theorem foldl_place_eq {score : Score} {placed : List (Note × Span)}
    (h : m.placements? score = some placed) :
    placed.foldl m.place (Array.replicate (reach placed) 0.0) =
      Array.ofFn fun j : Fin (reach placed) => m.sampleSum score j := by
  obtain ⟨hnotes, hspans⟩ := notes_of_placed? h
  refine Array.ext_getElem? fun j => ?_
  rw [getElem?_foldl_place hspans, hnotes, Array.getElem?_replicate, Array.getElem?_ofFn]
  split <;> rfl

theorem mix_eq (m : Mixer) (score : Score) :
    m.mix score =
      match m.length? score with
      | none => .error .unaddressable
      | some frames =>
        if capacity < frames then .error .capacity
        else .ok (Array.ofFn fun j : Fin frames => m.sampleSum score j) := by
  unfold mix
  rw [length?_eq]
  cases hp : m.placements? score with
  | none => rfl
  | some placed =>
    simp only [Option.map_some, foldl_place_eq hp]

theorem mix_eq_ok_iff_sums {score : Score} {buffer : Array Float} :
    m.mix score = .ok buffer ↔
      m.length? score = some buffer.size ∧ buffer.size ≤ capacity ∧
        ∀ j (hj : j < buffer.size), buffer[j] = m.sampleSum score j := by
  rw [mix_eq_ok_iff]
  simp only [length?_eq_some_iff]
  constructor
  · rintro ⟨placed, hp, hle, rfl⟩
    rw [foldl_place_eq hp]
    have hsize : (Array.ofFn fun j : Fin (reach placed) => m.sampleSum score j).size =
        reach placed := Array.size_ofFn
    exact ⟨⟨placed, hp, hsize.symm⟩, hsize.trans_le hle, fun j hj => Array.getElem_ofFn _⟩
  · rintro ⟨⟨placed, hp, hsize⟩, hle, hsums⟩
    refine ⟨placed, hp, hsize ▸ hle, ?_⟩
    rw [foldl_place_eq hp]
    refine Array.ext (by rw [Array.size_ofFn, hsize]) fun j _ hj => ?_
    rw [Array.getElem_ofFn, hsums j hj]

theorem sampleSum_of_length?_le {score : Score} {frames j : Nat}
    (h : m.length? score = some frames) (hj : frames ≤ j) : m.sampleSum score j = 0.0 := by
  rw [length?_eq, Option.map_eq_some_iff] at h
  obtain ⟨placed, hp, rfl⟩ := h
  obtain ⟨hnotes, hspans⟩ := notes_of_placed? hp
  have hsilent : score.notes.filter (m.sounds score.bpm j) = [] := by
    rw [List.filter_eq_nil_iff, ← hnotes]
    intro note hmem hsounds
    obtain ⟨p, hp, rfl⟩ := List.mem_map.mp hmem
    obtain ⟨span, hspan, hcovers⟩ := sounds_iff.mp hsounds
    obtain rfl := Option.some.inj ((hspans p hp).symm.trans hspan)
    have := stop_le_reach hp
    have := hcovers.2
    omega
  rw [sampleSum_eq, hsilent]
  rfl

/-! ## Other orders -/

theorem foldlM_span?_of_perm {a b : List Note} (h : a.Perm b) (longest : Nat) :
    a.foldlM (fun longest note => (m.span? note bpm).map (max longest ·.stop)) longest =
      b.foldlM (fun longest note => (m.span? note bpm).map (max longest ·.stop)) longest := by
  induction h generalizing longest with
  | nil => rfl
  | cons note _ ih => simp only [List.foldlM_cons, ih]
  | swap x y rest =>
    simp only [List.foldlM_cons]
    cases m.span? x bpm with
    | none => cases m.span? y bpm <;> rfl
    | some s =>
      cases m.span? y bpm with
      | none => rfl
      | some t =>
        simp only [Option.map_some, Option.bind_eq_bind, Option.bind_some]
        rw [Nat.max_right_comm]
  | trans _ _ ih₁ ih₂ => rw [ih₁, ih₂]

theorem length?_of_perm {a b : Score} (hbpm : a.bpm = b.bpm) (h : a.notes.Perm b.notes) :
    m.length? a = m.length? b := by
  unfold length?
  rw [hbpm, foldlM_span?_of_perm h]

theorem map_perm_of_equiv {n k : Nat} (σ : Fin n ≃ Fin k) :
    ((List.finRange n).map σ).Perm (List.finRange k) := by
  rw [List.perm_ext_iff_of_nodup ((List.nodup_finRange n).map σ.injective) (List.nodup_finRange k)]
  intro i
  simp only [List.mem_map, List.mem_finRange, true_and, iff_true]
  exact ⟨σ.symm i, σ.apply_symm_apply i⟩

variable {a b : List Note} {σ : Fin a.length ≃ Fin b.length}

theorem perm_of_rearranged (h : m.Rearranged bpm a b σ) : a.Perm b := by
  have hget : a.get = b.get ∘ σ := funext fun i => (h.note i).symm
  have hperm := (map_perm_of_equiv σ).map b.get
  rwa [List.map_map, ← hget, List.map_get_finRange, List.map_get_finRange] at hperm

/-- The notes that sound at a sample overlap each other, so all of them stay in their order. -/
theorem filter_of_rearranged (h : m.Rearranged bpm a b σ) (j : Nat) :
    a.filter (m.sounds bpm j) = b.filter (m.sounds bpm j) := by
  have hget : a.get = b.get ∘ σ := funext fun i => (h.note i).symm
  have hplaces : ((List.finRange a.length).filter (m.sounds bpm j ∘ a.get)).map σ =
      (List.finRange b.length).filter (m.sounds bpm j ∘ b.get) := by
    have hasymm : ∀ i k : Fin b.length, i < k → k < i → i = k := fun _ _ hlt hgt =>
      absurd hgt hlt.asymm
    apply List.Perm.eq_of_pairwise fun i k _ _ => hasymm i k
    · rw [List.pairwise_map]
      refine List.Pairwise.imp_of_mem ?_ ((List.pairwise_lt_finRange _).filter _)
      intro i k hi hk hlt
      obtain ⟨x, hx, hxj⟩ := sounds_iff.mp (List.mem_filter.mp hi).2
      obtain ⟨y, hy, hyj⟩ := sounds_iff.mp (List.mem_filter.mp hk).2
      exact h.order i k hlt ⟨x, y, hx, hy, j, hxj, hyj⟩
    · exact (List.pairwise_lt_finRange _).filter _
    · have hperm := (map_perm_of_equiv σ).filter (m.sounds bpm j ∘ b.get)
      rwa [List.filter_map, Function.comp_assoc, ← hget] at hperm
  calc a.filter (m.sounds bpm j)
      = ((List.finRange a.length).filter (m.sounds bpm j ∘ a.get)).map a.get := by
        rw [← List.filter_map, List.map_get_finRange]
    _ = (((List.finRange a.length).filter (m.sounds bpm j ∘ a.get)).map σ).map b.get := by
        rw [List.map_map, ← hget]
    _ = b.filter (m.sounds bpm j) := by
        rw [hplaces, ← List.filter_map, List.map_get_finRange]

theorem rearranged_swap {p q : Note} (h : ¬ m.Overlap bpm p q) :
    m.Rearranged bpm [p, q] [q, p] (Equiv.swap (0 : Fin 2) 1) := by
  constructor
  · exact Fin.forall_fin_two.mpr ⟨rfl, rfl⟩
  · refine Fin.forall_fin_two.mpr ⟨Fin.forall_fin_two.mpr ⟨?_, ?_⟩, Fin.forall_fin_two.mpr ⟨?_, ?_⟩⟩
    · exact fun hlt => absurd hlt (Nat.lt_irrefl _)
    · exact fun _ hoverlap => absurd hoverlap h
    · exact fun hlt => absurd hlt (Nat.not_lt_zero _)
    · exact fun hlt => absurd hlt (Nat.lt_irrefl _)

theorem mix_of_rearranged {a b : Score} {σ : Fin a.notes.length ≃ Fin b.notes.length}
    (hbpm : a.bpm = b.bpm) (h : m.Rearranged a.bpm a.notes b.notes σ) : m.mix a = m.mix b := by
  have hsum : ∀ j, m.sampleSum a j = m.sampleSum b j := by
    intro j
    rw [sampleSum_eq, sampleSum_eq, filter_of_rearranged h, hbpm]
  rw [mix_eq, mix_eq, length?_of_perm hbpm (perm_of_rearranged h)]
  simp only [hsum]

/-! ## One more note -/

theorem sampleSum_insert {a b : Score} {before after : List Note} {note : Note} {j : Nat}
    (hbpm : a.bpm = b.bpm) (ha : a.notes = before ++ after) (hb : b.notes = before ++ note :: after)
    (h : ¬ m.sounds a.bpm j note = true) : m.sampleSum a j = m.sampleSum b j := by
  rw [sampleSum_eq, sampleSum_eq, ha, hb, ← hbpm, List.filter_append, List.filter_append,
    List.filter_cons_of_neg h]

/--
The length depends on the notes alone and not on their order. The mix depends on the order of those
that overlap. Inserting a note changes nothing outside its span, where a longer mix is silent.
-/
theorem mix_order_insertion (m : Mixer) :
    (∀ a b : Score, a.bpm = b.bpm → a.notes.Perm b.notes → m.length? a = m.length? b) ∧
    (∀ (a b : Score) (σ : Fin a.notes.length ≃ Fin b.notes.length), a.bpm = b.bpm →
      m.Rearranged a.bpm a.notes b.notes σ → m.mix a = m.mix b) ∧
    ∀ (a b : Score) (before : List Note) (note : Note) (after : List Note) (x y : Array Float),
      a.bpm = b.bpm → a.notes = before ++ after → b.notes = before ++ note :: after →
      m.mix a = .ok x → m.mix b = .ok y →
      ∃ span, m.span? note a.bpm = some span ∧ ∀ j, ¬ span.Covers j →
        (∀ (hx : j < x.size) (hy : j < y.size), x[j] = y[j]) ∧
        (∀ hx : j < x.size, y.size ≤ j → x[j] = 0.0) ∧
        ∀ hy : j < y.size, x.size ≤ j → y[j] = 0.0 := by
  refine ⟨fun a b => length?_of_perm, fun a b σ => mix_of_rearranged, ?_⟩
  intro a b before note after x y hbpm ha hb hx hy
  obtain ⟨hxlength, -, hxsum⟩ := mix_eq_ok_iff_sums.mp hx
  obtain ⟨hylength, -, hysum⟩ := mix_eq_ok_iff_sums.mp hy
  have hspan : m.span? note a.bpm ≠ none := by
    intro hnone
    have hmem : note ∈ b.notes := by rw [hb]; simp
    have := length?_eq_none_iff.mpr ⟨note, hmem, hbpm ▸ hnone⟩
    cases hylength.symm.trans this
  obtain ⟨span, hspan⟩ := Option.ne_none_iff_exists'.mp hspan
  refine ⟨span, hspan, fun j hj => ?_⟩
  have hsilent : ¬ m.sounds a.bpm j note = true := by
    intro hsounds
    obtain ⟨span', hspan', hcovers⟩ := sounds_iff.mp hsounds
    obtain rfl := Option.some.inj (hspan.symm.trans hspan')
    exact hj hcovers
  have hsum := sampleSum_insert hbpm ha hb hsilent
  refine ⟨fun hjx hjy => ?_, fun hjx hle => ?_, fun hjy hle => ?_⟩
  · rw [hxsum j hjx, hysum j hjy, hsum]
  · rw [hxsum j hjx, hsum, sampleSum_of_length?_le hylength hle]
  · rw [hysum j hjy, ← hsum, sampleSum_of_length?_le hxlength hle]

theorem mix_order_insertion_swap :
    ∃ p q : Note, p.start ≠ q.start ∧
      (⟨16, 1.0⟩ : Mixer).Rearranged 60.0 [p, q] [q, p] (Equiv.swap (0 : Fin 2) 1) ∧
      (⟨16, 1.0⟩ : Mixer).mix ⟨60.0, [p, q]⟩ = (⟨16, 1.0⟩ : Mixer).mix ⟨60.0, [q, p]⟩ := by
  let p : Note := ⟨0, 2, 440.0, 1.0, .square⟩
  let q : Note := ⟨2, 2, 220.0, 1.0, .triangle⟩
  have hp : (⟨16, 1.0⟩ : Mixer).span? p 60.0 = some ⟨0, 2⟩ := by decide +kernel
  have hq : (⟨16, 1.0⟩ : Mixer).span? q 60.0 = some ⟨2, 4⟩ := by decide +kernel
  have hapart : ¬ (⟨16, 1.0⟩ : Mixer).Overlap 60.0 p q := by
    rintro ⟨x, y, hx, hy, k, hxk, hyk⟩
    cases hp.symm.trans hx
    cases hq.symm.trans hy
    exact absurd hxk.2 (Nat.not_lt.mpr hyk.1)
  have h := rearranged_swap hapart
  obtain ⟨-, hmix, -⟩ := mix_order_insertion ⟨16, 1.0⟩
  exact ⟨p, q, by decide, h, hmix ⟨60.0, [p, q]⟩ ⟨60.0, [q, p]⟩ _ rfl h⟩

end ToneScore.Mixer
