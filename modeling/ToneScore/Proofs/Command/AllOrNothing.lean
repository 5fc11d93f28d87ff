import ToneScore.Command.Render
import ToneScore.Program.CommandLines
import ToneScore.Proofs.Command.Acceptance
import ToneScore.Proofs.Storage.Folder

/-!
# A render writes one file or none

A run of the rendering command ends in one of four ways (`RenderRun`), and only the last of them
changes the folder. So the exit code tells what became of the files: it is 0 if the wave file stands
where it should, and otherwise every file is as it was, the file at that place too. Nothing is asked
of the place before the run; it may be that of the score. All this holds for any way of reading the
arguments. A run that fails has the code 1, unless it breaks off because the bytes of the score are
too many to be counted (`Countable`).
-/

namespace ToneScore.Command

open Storage

variable {f : Folder} {o : Overflow} {options : RenderOptions} {path text : String}

/-! ## Texts of files -/

theorem fromUTF8?_eq_some_iff {bytes : ByteArray} :
    String.fromUTF8? bytes = some text ↔ bytes = text.toUTF8 := by
  constructor
  · intro h
    unfold String.fromUTF8? at h
    split at h
    · obtain rfl := Option.some.inj h
      rfl
    · cases h
  · rintro rfl
    exact fromUTF8?_toUTF8 text

/-- A file without text is refused like one that is not there. -/
theorem readText_eq_error (h : ∀ text : String, f.read path ≠ .ok text.toUTF8) :
    ∃ fault, (readText path : StateM Folder (Except Fault String)) f = (.error fault, f) := by
  have hfile : (Files.read path : StateM Folder (Except Fault ByteArray)) f = (f.read path, f) :=
    rfl
  unfold readText
  simp only [bind, StateT.bind, hfile]
  cases hread : f.read path with
  | error fault => exact ⟨fault, rfl⟩
  | ok bytes =>
    cases htext : String.fromUTF8? bytes with
    | none => exact ⟨.notText, by simp only [htext]; rfl⟩
    | some text => exact absurd (fromUTF8?_eq_some_iff.mp htext ▸ hread) (h text)

/-! ## Exit codes -/

theorem code_refusal (input out : String) (error : RenderError) :
    (refusal input out error).code =
      if error = .wave .overflow ∨ error = .capacity then 101 else 1 := by
  cases error with
  | wave error => cases error <;> simp [refusal, Exit.failure, Exit.brokenOff]
  | _ => simp [refusal, Exit.failure, Exit.brokenOff]

theorem code_refusal_ne_zero (input out : String) (error : RenderError) :
    (refusal input out error).code ≠ 0 := by
  rw [code_refusal]
  split <;> decide

/-- The bytes of a score can be counted in a word, if the run would break off otherwise. -/
def Countable (o : Overflow) (text : String) : Prop :=
  o = .halts → ∀ score frames, Measured o .standard text score frames →
    frames * Config.standard.format.frameBytes < UInt64.size

theorem render_ne_overflow (h : Countable o text) :
    (render o .standard text).result ≠ .error (.wave .overflow) := by
  intro hresult
  have houtcome := outcome_render o .standard text
  rw [hresult] at houtcome
  cases houtcome with
  | format h => cases h.symm.trans (standard_check o)
  | overflow hs ho hlarge => exact absurd (h ho _ _ hs) (Nat.not_lt.mpr hlarge)

theorem render_ne_capacity (o : Overflow) (text : String) :
    (render o .standard text).result ≠ .error .capacity := by
  intro hresult
  have houtcome := outcome_render o .standard text
  rw [hresult] at houtcome
  cases houtcome with
  | capacity hs hl h => exact absurd (hl.trans standard_capacity) (Nat.not_le.mpr h)

/-! ## Runs -/

/-- How a run of the rendering command ends, and the folder that it leaves. -/
inductive RenderRun (o : Overflow) (options : RenderOptions) (f : Folder) : Exit × Folder → Prop where
  | unreadable {exit : Exit} (h : ∀ text : String, f.read options.input ≠ .ok text.toUTF8)
      (failed : exit.code = 1) : RenderRun o options f (exit, f)
  | refused {exit : Exit} {text : String} {error : RenderError}
      (read : f.read options.input = .ok text.toUTF8)
      (h : (render o .standard text).result = .error error)
      (failed : exit.code = (refusal options.input (settings .standard) error).code) :
      RenderRun o options f (exit, f)
  | unwritable {exit : Exit} {text : String} {file : ByteArray} {fault : Fault}
      (read : f.read options.input = .ok text.toUTF8)
      (rendered : (render o .standard text).result = .ok file)
      (h : f.slot options.target = .error fault) (failed : exit.code = 1) :
      RenderRun o options f (exit, f)
  | written {exit : Exit} {text : String} {file : ByteArray} {place : List String}
      (read : f.read options.input = .ok text.toUTF8)
      (rendered : (render o .standard text).result = .ok file)
      (slot : f.slot options.target = .ok place) (done : exit.code = 0) :
      RenderRun o options f (exit, f.put place file)

theorem renderRun_runRender (o : Overflow) (options : RenderOptions) (f : Folder) :
    RenderRun o options f ((runRender o options : StateM Folder Exit) f) := by
  unfold runRender
  simp only [bind, StateT.bind]
  by_cases hread : ∃ text : String, f.read options.input = .ok text.toUTF8
  · obtain ⟨text, hread⟩ := hread
    rw [readText_eq hread]
    cases hresult : (render o .standard text).result with
    | error error =>
      simp only [hresult]
      exact .refused hread hresult rfl
    | ok file =>
      have hwrite : (Files.write options.target file : StateM Folder (Except Fault Unit)) f =
          f.write options.target file := rfl
      simp only [hresult, StateT.bind, hwrite]
      cases hslot : f.slot options.target with
      | error fault =>
        rw [Folder.write_of_slot_error hslot]
        exact .unwritable hread hresult hslot rfl
      | ok place =>
        rw [Folder.write_of_slot hslot]
        exact .written hread hresult hslot rfl
  · obtain ⟨fault, herror⟩ := readText_eq_error fun text h => hread ⟨text, h⟩
    rw [herror]
    exact .unreadable (fun text h => hread ⟨text, h⟩) rfl

namespace RenderRun

variable {ending : Exit × Folder}

theorem exists_of_code (h : RenderRun o options f ending) (hcode : ending.1.code = 0) :
    ∃ text file place, f.read options.input = .ok text.toUTF8 ∧
      (render o .standard text).result = .ok file ∧ f.slot options.target = .ok place ∧
      ending.2 = f.put place file := by
  cases h with
  | written read rendered slot _ => exact ⟨_, _, _, read, rendered, slot, rfl⟩
  | unreadable _ failed => exact absurd (failed.symm.trans hcode) (by decide)
  | refused _ _ failed => exact absurd (failed.symm.trans hcode) (code_refusal_ne_zero _ _ _)
  | unwritable _ _ _ failed => exact absurd (failed.symm.trans hcode) (by decide)

theorem code_eq_zero {file : ByteArray} {place : List String} (h : RenderRun o options f ending)
    (hread : f.read options.input = .ok text.toUTF8)
    (hresult : (render o .standard text).result = .ok file)
    (hslot : f.slot options.target = .ok place) : ending.1.code = 0 := by
  cases h with
  | written _ _ _ done => exact done
  | unreadable h _ => exact absurd hread (h text)
  | refused read h _ =>
    obtain rfl := String.toByteArray_inj.mp (Except.ok.inj (read.symm.trans hread))
    exact nomatch h.symm.trans hresult
  | unwritable _ _ h _ => exact nomatch h.symm.trans hslot

theorem code_eq_zero_iff (h : RenderRun o options f ending) : ending.1.code = 0 ↔
    ∃ text file place, f.read options.input = .ok text.toUTF8 ∧
      (render o .standard text).result = .ok file ∧ f.slot options.target = .ok place := by
  constructor
  · intro hcode
    obtain ⟨text, file, place, hread, hresult, hslot, -⟩ := h.exists_of_code hcode
    exact ⟨text, file, place, hread, hresult, hslot⟩
  · rintro ⟨text, file, place, hread, hresult, hslot⟩
    exact h.code_eq_zero hread hresult hslot

theorem written_of_code {file : ByteArray} (h : RenderRun o options f ending)
    (hcode : ending.1.code = 0) (hread : f.read options.input = .ok text.toUTF8)
    (hresult : (render o .standard text).result = .ok file) :
    Folder.Written f ending.2 options.target file := by
  obtain ⟨_, _, place, hread', hresult', hslot, hfolder⟩ := h.exists_of_code hcode
  obtain rfl := String.toByteArray_inj.mp (Except.ok.inj (hread'.symm.trans hread))
  obtain rfl := Except.ok.inj (hresult'.symm.trans hresult)
  rw [hfolder]
  exact Folder.written_put hslot _

theorem unchanged_of_code (h : RenderRun o options f ending) (hcode : ending.1.code ≠ 0) :
    ending.2 = f := by
  cases h with
  | written _ _ _ done => exact absurd done hcode
  | _ => rfl

theorem code_eq_one (h : RenderRun o options f ending) (hcode : ending.1.code ≠ 0)
    (hcount : ∀ text, f.read options.input = .ok text.toUTF8 → Countable o text) :
    ending.1.code = 1 := by
  cases h with
  | unreadable _ failed => exact failed
  | @refused _ text error read h failed =>
    rw [failed, code_refusal, if_neg]
    rintro (rfl | rfl)
    · exact render_ne_overflow (hcount text read) h
    · exact render_ne_capacity o text h
  | unwritable _ _ _ failed => exact failed
  | written _ _ _ done => exact absurd done hcode

end RenderRun

/--
Arguments that are not understood change nothing. Otherwise the rendering command ends with code 0
exactly if its input can be read as text, that text renders with the standard settings, and the path
of the wave file can be written. Then that path holds the rendered bytes and all else is as it was.
In any other run the folder is as it was, and if the bytes of the score can be counted the code is 1.
-/
theorem renderMain_all_or_nothing (o : Overflow) (parse : List String → Except Exit RenderOptions)
    (args : List String) (f : Folder) :
    (∀ ending, parse args = .error ending →
      (renderMain o parse args : StateM Folder Exit) f = (ending, f)) ∧
    ∀ options, parse args = .ok options →
      let run := (renderMain o parse args : StateM Folder Exit) f
      let target := options.output.getD (options.input ++ ".wav")
      (run.1.code = 0 ↔ ∃ text file place, f.read options.input = .ok text.toUTF8 ∧
        (render o .standard text).result = .ok file ∧ f.slot target = .ok place) ∧
      (∀ text file, run.1.code = 0 → f.read options.input = .ok text.toUTF8 →
        (render o .standard text).result = .ok file → Folder.Written f run.2 target file) ∧
      (run.1.code ≠ 0 → run.2 = f) ∧
      ((∀ text, f.read options.input = .ok text.toUTF8 → Countable o text) →
        run.1.code ≠ 0 → run.1.code = 1) := by
  refine ⟨fun ending h => ?_, fun options h => ?_⟩
  · rw [renderMain, h]
    rfl
  · have hrun : RenderRun o options f ((renderMain o parse args : StateM Folder Exit) f) := by
      rw [renderMain, h]
      exact renderRun_runRender o options f
    exact ⟨hrun.code_eq_zero_iff, fun text file => hrun.written_of_code, hrun.unchanged_of_code,
      fun hcount hcode => hrun.code_eq_one hcode hcount⟩

/-- A score is rendered over itself. -/
theorem renderMain_over_score :
    RenderOptions.parse ["a", "-o", "a"] = .ok ⟨"a", some "a", false⟩ ∧
    ∃ file, (render .halts .standard "240000\n0 S A4 1.0 T\n").result = .ok file ∧
      file.size = 50 ∧
      let f : Folder :=
        { home := ["tmp"], files := [(["tmp", "a"], "240000\n0 S A4 1.0 T\n".toUTF8)] }
      let run := (renderMain .halts RenderOptions.parse ["a", "-o", "a"] : StateM Folder Exit) f
      run.1.code = 0 ∧ run.2.read "a" = .ok file := by
  have hsize : (render .halts .standard "240000\n0 S A4 1.0 T\n").result.toOption.map
      ByteArray.size = some 50 := by decide +kernel
  cases hresult : (render .halts .standard "240000\n0 S A4 1.0 T\n").result with
  | error error => exact nomatch hresult ▸ hsize
  | ok file =>
    rw [hresult] at hsize
    have hslot : ({ home := ["tmp"], files := [(["tmp", "a"], "240000\n0 S A4 1.0 T\n".toUTF8)] } :
        Folder).slot "a" = .ok ["tmp", "a"] := by cbv
    have hread : ({ home := ["tmp"], files := [(["tmp", "a"], "240000\n0 S A4 1.0 T\n".toUTF8)] } :
        Folder).read "a" = .ok "240000\n0 S A4 1.0 T\n".toUTF8 := by cbv
    obtain ⟨hcode, hwritten, -⟩ :=
      (renderMain_all_or_nothing .halts RenderOptions.parse ["a", "-o", "a"] _).2 _ rfl
    have hdone := hcode.mpr ⟨_, file, _, hread, hresult, hslot⟩
    exact ⟨rfl, file, rfl, Option.some.inj hsize, hdone,
      (hwritten _ file hdone hread hresult).read fun _ _ => rfl⟩

theorem code_runRender_of_error {error : RenderError}
    (hread : f.read options.input = .ok text.toUTF8)
    (h : (render o .standard text).result = .error error) :
    ((runRender o options : StateM Folder Exit) f).1.code =
      (refusal options.input (settings .standard) error).code := by
  unfold runRender
  simp only [bind, StateT.bind, readText_eq hread, h]
  rfl

/-- A note can lie so late that the bytes in front of it are too many for a word. -/
theorem render_late :
    (render .halts .standard "0.00005\n4000000000 1 A4 1.0 S\n").result =
      .error (.wave .overflow) := by
  have h : ((render .halts .standard "0.00005\n4000000000 1 A4 1.0 S\n").result.map fun _ => ()) =
      .error (.wave .overflow) := by decide +kernel
  generalize (render .halts .standard "0.00005\n4000000000 1 A4 1.0 S\n").result = result at h ⊢
  cases result with
  | error e => exact congrArg _ (Except.error.inj h)
  | ok file => cases h

/--
Commands that fail with other codes than 1: an empty path cannot be opened, and is refused before
that as an argument; and a run breaks off if there are too many bytes to count.
-/
theorem renderMain_code_not_one :
    let score : Folder :=
      { home := ["tmp"], files := [(["tmp", "a"], "120\n0 S A4 1.0 T\n".toUTF8)] }
    let late : Folder :=
      { home := ["tmp"], files := [(["tmp", "a"], "0.00005\n4000000000 1 A4 1.0 S\n".toUTF8)] }
    score.slot "" = .error .notFound ∧
    ((renderMain .halts RenderOptions.parse ["-o=", "a"] : StateM Folder Exit) score).1.code = 2 ∧
    ((renderMain .halts RenderOptions.parse ["a"] : StateM Folder Exit) late).1.code = 101 := by
  intro score late
  have hread (bytes : ByteArray) :
      ({ home := ["tmp"], files := [(["tmp", "a"], bytes)] } : Folder).read "a" =
        .ok bytes := by cbv
  have hparse : RenderOptions.parse ["a"] = .ok ⟨"a", none, false⟩ := rfl
  refine ⟨rfl, rfl, ?_⟩
  rw [renderMain, hparse]
  exact code_runRender_of_error (hread _) render_late

end ToneScore.Command
