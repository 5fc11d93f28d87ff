import ToneScore.Proofs.Render.Trace
import ToneScore.Proofs.Wave.RoundTrip

/-!
# Clipping

The peak exceeds what some sample exceeds on one side of 0 or the other, NaN apart (`lt_peak_iff`).
So the warning in the log of a render tells that a sample is past full scale, and without it every
sample but NaN has a code next to its exact place (`render_clipping`). The codes are those that stand
in the file behind the header, also where the header is wrong about how many there are.
-/

namespace ToneScore

open Binary64

/-! ## The peak -/

theorem lt_foldl_larger_iff {x highest : Float} (h : highest.isNaN = false) (samples : List Float) :
    x < samples.foldl (fun highest s => larger highest s.abs) highest ↔
      x < highest ∨ ∃ s ∈ samples, x < s.abs := by
  induction samples generalizing highest with
  | nil => simp
  | cons s rest ih =>
    rw [List.foldl_cons, ih (isNaN_larger h), lt_larger_iff h]
    simp only [List.mem_cons, exists_eq_or_imp, or_assoc]

theorem lt_peak_iff {x : Float} (samples : Array Float) :
    x < peak samples ↔ x < 0.0 ∨ ∃ s ∈ samples, x < s.abs := by
  rw [peak, ← Array.foldl_toList, lt_foldl_larger_iff rfl]
  simp only [Array.mem_toList_iff]

theorem one_lt_peak_iff (samples : Array Float) :
    1.0 < peak samples ↔ ∃ s ∈ samples, s.isNaN = false ∧ 1.0 < s.abs := by
  have hzero : ¬ (1.0 : Float) < 0.0 := by decide +kernel
  rw [lt_peak_iff, or_iff_right hzero]
  constructor
  · rintro ⟨s, hs, h⟩
    exact ⟨s, hs, (isNaN_abs s).symm.trans (isNaN_of_lt h).2, h⟩
  · rintro ⟨s, hs, -, h⟩
    exact ⟨s, hs, h⟩

theorem abs_value_le_one {s : Float} (hs : s.isNaN = false) (h : ¬ 1.0 < s.abs) :
    s.isFinite = true ∧ |value s| ≤ 1 := by
  rcases finite_or_infinity hs with hfinite | ⟨t, ht⟩
  · have hfinite : s.isFinite = true := hfinite
    rw [lt_iff_value_lt rfl ((isFinite_abs s).trans hfinite), value_one, value_abs, not_lt] at h
    exact ⟨hfinite, h⟩
  · have habs : parts s.abs = .infinity .positive := by
      rw [parts_abs]
      show (parts s).abs = _
      have ht : parts s = _ := ht
      rw [ht]
      rfl
    exact absurd (lt_of_parts_positive rfl habs) h

/-! ## The warning -/

theorem exists_warn_iff {log : List LogEntry} {score : Score} {samples : Array Float}
    (h : log.map LogEntry.level =
      List.replicate (score.notes.length + score.notes.length) .debug ++
        .info :: if 1.0 < peak samples then [.warn] else []) :
    (∃ e ∈ log, e.level = .warn) ↔ 1.0 < peak samples := by
  rw [← List.mem_map, h]
  split <;> simp_all

/-- What becomes of a sample in a code, `quiet` being that no sample is past full scale. -/
structure Clipped (bits : Nat) (quiet : Prop) (s : Float) (code : Int) : Prop where
  above : 1.0 < s → code = 2 ^ (bits - 1) - 1
  below : s < -1.0 → code = -2 ^ (bits - 1)
  nan : s.isNaN = true → code = 0
  near : quiet → s.isNaN = false →
    s.isFinite = true ∧ |(code : ℚ) - value s * 2 ^ (bits - 1)| ≤ 1

theorem clipped_quantize {bits : UInt16} (hbits : bits ∈ [8, 16, 24, 32]) {quiet : Prop} {s : Float}
    (hquiet : quiet → s.isNaN = false → ¬ 1.0 < s.abs) :
    Clipped bits.toNat quiet s (Wave.quantize s bits) := by
  rw [← Wave.codeBits_eq hbits]
  refine ⟨Wave.quantize_of_one_lt, Wave.quantize_of_lt_neg_one, Wave.quantize_of_isNaN, ?_⟩
  intro h hnan
  obtain ⟨hfinite, hle⟩ := abs_value_le_one hnan (hquiet h hnan)
  exact ⟨hfinite, Wave.abs_quantize_sub_le hfinite hle⟩

/--
A render warns exactly where a sample is past full scale. Such a sample has the code at its end of
the range. Without a warning every sample but NaN has a code that differs from the exact product
with the full scale by at most 1. NaN has the code 0 and causes no warning. These codes follow the
header, and they are those of the payload unless its size has wrapped.
-/
theorem render_clipping {o : Overflow} {c : Config} {text : String} {file : ByteArray}
    (h : (render o c text).result = .ok file) :
    ∃ score samples, Score.read text = .ok score ∧ c.mixer.mix score = .ok samples ∧
      Wave.encode o c.format samples = .ok file ∧
      ((∃ e ∈ (render o c text).log, e.level = .warn) ↔
        ∃ s ∈ samples, s.isNaN = false ∧ 1.0 < s.abs) ∧
      (∀ (k : Nat) (hk : k < samples.size) (channel : Nat), channel < c.channels.toNat →
        Clipped c.bitsPerSample.toNat (∀ e ∈ (render o c text).log, e.level ≠ .warn) samples[k]
          (Wave.codeAt c.format (file.extract 44 file.size) k channel)) ∧
      ((o = .wraps → c.format.NoWrap samples.size) →
        ∃ bytes, Wave.extract? file = some bytes ∧
          ∀ k < samples.size, ∀ channel < c.channels.toNat,
            Wave.codeAt c.format bytes k channel =
              Wave.codeAt c.format (file.extract 44 file.size) k channel) := by
  have htrace := trace_render o c text
  rw [h] at htrace
  obtain ⟨score, samples, hread, hmix, hencode, hlevels⟩ := htrace.levels
  have hwarn := (exists_warn_iff hlevels).trans (one_lt_peak_iff samples)
  obtain ⟨hdepth, -⟩ := Wave.Format.check_eq_ok_iff.mp (Wave.encode_eq_ok_iff.mp hencode).1
  refine ⟨score, samples, hread, hmix, hencode, hwarn, ?_, ?_⟩
  · intro k hk channel hchannel
    rw [Wave.codeAt_behind_header hencode hk hchannel]
    refine clipped_quantize hdepth fun hsilent hnan hloud => ?_
    obtain ⟨e, he, hlevel⟩ := hwarn.mpr ⟨samples[k], Array.getElem_mem hk, hnan, hloud⟩
    exact hsilent e he hlevel
  · intro hwraps
    refine ⟨_, Wave.extract?_of_noWrap hencode (Wave.noWrap_of_encode hencode hwraps), ?_⟩
    intro k hk channel hchannel
    rw [Wave.codeAt_behind_header hencode hk hchannel, Wave.codeAt_payload hdepth hk hchannel]

/-- A triangle of three times full scale starts at its lowest point. -/
theorem render_clipping_triangle :
    ∃ file bytes, (render .halts ⟨2, 16, 1, 3.0, 10⟩ "60\n0 16 A4 1 T").result = .ok file ∧
      Wave.extract? file = some bytes ∧ Wave.codeAt ⟨2, 1, 16⟩ bytes 0 0 = -2 ^ 15 ∧
      ∃ e ∈ (render .halts ⟨2, 16, 1, 3.0, 10⟩ "60\n0 16 A4 1 T").log, e.level = .warn := by
  have hok : (render .halts ⟨2, 16, 1, 3.0, 10⟩ "60\n0 16 A4 1 T").result.isOk = true := by
    decide +kernel
  have hloud : ∀ score samples, Score.read "60\n0 16 A4 1 T" = .ok score →
      Mixer.mix ⟨2, 3.0⟩ score = .ok samples →
      ∃ s, samples[0]? = some s ∧ s < -1.0 ∧ 1.0 < s.abs := by
    have h : (Score.read "60\n0 16 A4 1 T").toOption.any (fun score =>
        (Mixer.mix ⟨2, 3.0⟩ score).toOption.any fun samples =>
          samples[0]?.any fun s => decide (s < -1.0) && decide (1.0 < s.abs)) = true := by
      decide +kernel
    intro score samples hread hmix
    rw [hread] at h
    simpa [Except.toOption, hmix, Option.any_eq_true] using h
  cases hfile : (render .halts ⟨2, 16, 1, 3.0, 10⟩ "60\n0 16 A4 1 T").result with
  | error e => rw [hfile] at hok; cases hok
  | ok file =>
    obtain ⟨score, samples, hread, hmix, -, hwarn, hcodes, hpayload⟩ := render_clipping hfile
    obtain ⟨s, hs, hlow, habs⟩ := hloud score samples hread hmix
    obtain ⟨hk, rfl⟩ := Array.getElem?_eq_some_iff.mp hs
    obtain ⟨bytes, hbytes, hsame⟩ := hpayload nofun
    refine ⟨file, bytes, rfl, hbytes, ?_, hwarn.mpr ?_⟩
    · exact (hsame 0 hk 0 (by decide)).trans ((hcodes 0 hk 0 (by decide)).below hlow)
    · exact ⟨samples[0], Array.getElem_mem hk, (isNaN_of_lt hlow).1, habs⟩

end ToneScore
