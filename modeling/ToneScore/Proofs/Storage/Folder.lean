import ToneScore.Proofs.Results
import ToneScore.Storage.Folder

/-!
# Writing one file of a folder

A path is the name of one file in one directory (`Names`). Writing to it asks that the place can be
written (`slot_eq_ok_iff`), reading that there is a file and that it can be read (`read_eq_ok_iff`).
A new file stands in a directory that is there already, so writing makes no directory and takes none
away (`isDirectory_put`), every path still means what it meant (`names_of_isDirectory`), and all
files but one are as they were (`written_put`).
-/

namespace ToneScore.Storage.Folder

variable {f g : Folder} {place here names d e : List String} {path name : String}
  {bytes : ByteArray}

/-! ## Files and directories -/

theorem lookup_filter_of_ne {files : List (List String × ByteArray)} {other : List String}
    (h : other ≠ place) : (files.filter (·.1 != place)).lookup other = files.lookup other := by
  induction files with
  | nil => rfl
  | cons file files ih =>
    by_cases hfile : file.1 = place
    · have hother : (other == file.1) = false := by rw [hfile]; exact beq_false_of_ne h
      rw [List.filter_cons_of_neg (by simp [hfile]), ih, List.lookup_cons, hother]
    · rw [List.filter_cons_of_pos (by simpa using hfile), List.lookup_cons, List.lookup_cons, ih]

theorem get?_put (f : Folder) (place : List String) (bytes : ByteArray) (other : List String) :
    (f.put place bytes).get? other = if other = place then some bytes else f.get? other := by
  show ((place, bytes) :: f.files.filter (·.1 != place)).lookup other = _
  by_cases h : other = place
  · rw [if_pos h, List.lookup_cons, h, beq_self_eq_true]
  · rw [if_neg h, List.lookup_cons, beq_false_of_ne h]
    exact lookup_filter_of_ne h

theorem put_put (f : Folder) (place : List String) (old bytes : ByteArray) :
    (f.put place old).put place bytes = f.put place bytes := by
  simp [put, List.filter_filter]

theorem isDirectory_iff : f.isDirectory d = true ↔
    (d <+: f.home ∨ ∃ e ∈ f.directories, d <+: e) ∨ ∃ file ∈ f.files, d <+: file.1 ∧ file.1 ≠ d := by
  simp [isDirectory]

theorem isDirectory_of_isPrefix (h : e <+: d) (hd : f.isDirectory d = true) :
    f.isDirectory e = true := by
  rw [isDirectory_iff] at hd ⊢
  rcases hd with (hd | ⟨e, he, hd⟩) | ⟨file, hfile, hd, hne⟩
  · exact .inl (.inl (h.trans hd))
  · exact .inl (.inr ⟨e, he, h.trans hd⟩)
  · refine .inr ⟨file, hfile, h.trans hd, ?_⟩
    rintro rfl
    exact hne (hd.eq_of_length_le h.length_le).symm

/-- A file in a directory adds no other directory, and none is lost with what the file held. -/
theorem isDirectory_put (hhere : f.isDirectory here = true) (name : String) (bytes : ByteArray)
    (d : List String) : (f.put (here ++ [name]) bytes).isDirectory d = f.isDirectory d := by
  rw [Bool.eq_iff_iff, isDirectory_iff]
  constructor
  · rintro (hd | ⟨file, hfile, hd, hne⟩)
    · exact isDirectory_iff.mpr (.inl hd)
    · rcases List.mem_cons.mp hfile with rfl | hfile
      · -- What lies above the new file lies above its directory, which was there before.
        rcases List.prefix_concat_iff.mp hd with rfl | hd
        · exact absurd rfl hne
        · exact isDirectory_of_isPrefix hd hhere
      · exact isDirectory_iff.mpr (.inr ⟨file, (List.mem_filter.mp hfile).1, hd, hne⟩)
  · intro hd
    rcases isDirectory_iff.mp hd with hd | ⟨file, hfile, hd, hne⟩
    · exact .inl hd
    · -- The file that is replaced leaves one at the same place.
      by_cases hplace : file.1 = here ++ [name]
      · exact .inr ⟨(here ++ [name], bytes), List.mem_cons_self, hplace ▸ hd, hplace ▸ hne⟩
      · have hkept : file ∈ f.files.filter (·.1 != here ++ [name]) :=
          List.mem_filter.mpr ⟨hfile, by simpa using hplace⟩
        exact .inr ⟨file, List.mem_cons_of_mem _ hkept, hd, hne⟩

/-! ## Paths -/

/-- What stands at a place, a directory hiding a file. -/
def entryAt (f : Folder) (place : List String) : Entry :=
  if f.isDirectory place then .directory else (f.get? place).elim .vacant .file

theorem look_eq (f : Folder) (here : List String) (name : String) :
    f.look here name =
      if name.utf8ByteSize ≤ longestName then .ok (f.entryAt (here ++ [name]))
      else .error .nameTooLong := by
  simp only [look, ← Nat.not_le, ite_not, entryAt]
  split
  · cases f.isDirectory (here ++ [name]) with
    | true => rfl
    | false => cases f.get? (here ++ [name]) <;> rfl
  · rfl

theorem look_eq_ok_iff {entry : Entry} :
    f.look here name = .ok entry ↔
      name.utf8ByteSize ≤ longestName ∧ f.entryAt (here ++ [name]) = entry := by
  rw [look_eq]
  split <;> simp [*]

theorem entryAt_eq_directory_iff : f.entryAt place = .directory ↔ f.isDirectory place = true := by
  rw [entryAt]
  cases f.isDirectory place with
  | true => simp
  | false => cases f.get? place <;> simp

theorem entryAt_eq_file_iff : f.entryAt place = .file bytes ↔
    f.isDirectory place = false ∧ f.get? place = some bytes := by
  rw [entryAt]
  cases f.isDirectory place with
  | true => simp
  | false => cases f.get? place <;> simp

theorem opened_eq_ok_iff {access : Access} {other : List String} :
    f.opened access place = .ok other ↔ f.denial access place = none ∧ place = other := by
  unfold opened
  cases f.denial access place with
  | none => simp
  | some fault => simp

theorem walk_of_denial {fault : Fault} (h : f.denial .enter here = some fault)
    (names : List String) : f.walk here names = .error fault := by
  have hopened : f.opened .enter here = .error fault := by rw [opened, h]
  cases names with
  | nil => exact hopened
  | cons name names => rw [walk, hopened]

theorem denial_of_walk (h : f.walk here names = .ok d) : f.denial .enter here = none := by
  cases hdenial : f.denial .enter here with
  | none => rfl
  | some fault => cases (walk_of_denial hdenial names).symm.trans h

theorem walk_cons (h : f.denial .enter here = none) (name : String) (names : List String) :
    f.walk here (name :: names) =
      if name = "." then f.walk here names
      else if name = ".." then f.walk here.dropLast names
      else match f.look here name with
        | .error fault => .error fault
        | .ok .directory => f.walk (here ++ [name]) names
        | .ok (.file _) => .error .notDirectory
        | .ok .vacant => .error .notFound := by
  have hopened : f.opened .enter here = .ok here := opened_eq_ok_iff.mpr ⟨h, rfl⟩
  rw [walk]
  exact hopened ▸ rfl

theorem walk_cons_eq_ok_iff (hdot : name ≠ ".") (hup : name ≠ "..")
    (hdenial : f.denial .enter here = none) :
    f.walk here (name :: names) = .ok d ↔
      name.utf8ByteSize ≤ longestName ∧ f.isDirectory (here ++ [name]) = true ∧
        f.walk (here ++ [name]) names = .ok d := by
  rw [walk_cons hdenial, if_neg hdot, if_neg hup, look_eq, ← entryAt_eq_directory_iff]
  by_cases hname : name.utf8ByteSize ≤ longestName
  · rw [if_pos hname]
    cases f.entryAt (here ++ [name]) <;> simp [hname]
  · simp [hname]

theorem isDirectory_walk (hhere : f.isDirectory here = true) (h : f.walk here names = .ok d) :
    f.isDirectory d = true := by
  induction names generalizing here with
  | nil => exact (opened_eq_ok_iff.mp h).2 ▸ hhere
  | cons name names ih =>
    have hdenial := denial_of_walk h
    by_cases hdot : name = "."
    · rw [walk_cons hdenial, if_pos hdot] at h
      exact ih hhere h
    by_cases hup : name = ".."
    · rw [walk_cons hdenial, if_neg hdot, if_pos hup] at h
      exact ih (isDirectory_of_isPrefix (List.dropLast_prefix here) hhere) h
    obtain ⟨-, hdir, h⟩ := (walk_cons_eq_ok_iff hdot hup hdenial).mp h
    exact ih hdir h

/-- Only directories count on the way along a path, and which of them can be entered. -/
theorem walk_of_isDirectory (hdenial : g.denial = f.denial)
    (hdir : ∀ d, g.isDirectory d = f.isDirectory d) (h : f.walk here names = .ok d) :
    g.walk here names = .ok d := by
  induction names generalizing here with
  | nil =>
    rw [walk, opened_eq_ok_iff] at h ⊢
    rwa [hdenial]
  | cons name names ih =>
    have hf := denial_of_walk h
    have hg : g.denial .enter here = none := by rwa [hdenial]
    by_cases hdot : name = "."
    · rw [walk_cons hf, if_pos hdot] at h
      rw [walk_cons hg, if_pos hdot]
      exact ih h
    by_cases hup : name = ".."
    · rw [walk_cons hf, if_neg hdot, if_pos hup] at h
      rw [walk_cons hg, if_neg hdot, if_pos hup]
      exact ih h
    obtain ⟨hname, hnext, h⟩ := (walk_cons_eq_ok_iff hdot hup hf).mp h
    exact (walk_cons_eq_ok_iff hdot hup hg).mpr ⟨hname, (hdir _).trans hnext, ih h⟩

/-- The path names the file `name` in the directory `here`, whether there is one or not. -/
inductive Names (f : Folder) (path : String) (here : List String) (name : String) : Prop where
  | intro {p : Path} (parsed : Path.ofString path = .ok p) (directory : f.directoryOf p = .ok here)
      (last : p.last = some name) (slash : p.slash = false)
      (short : name.utf8ByteSize ≤ longestName)
      (free : f.isDirectory (here ++ [name]) = false)

theorem slot_eq_ok_iff :
    f.slot path = .ok place ↔
      ∃ here name, Names f path here name ∧ place = here ++ [name] ∧ f.denial .write place = none := by
  constructor
  · intro h
    unfold slot at h
    obtain ⟨p, hp, h⟩ := bind_eq_ok_iff.mp h
    obtain ⟨here, hhere, h⟩ := bind_eq_ok_iff.mp h
    split at h
    · cases h
    next name hlast =>
    split at h
    · cases h
    next hslash =>
    obtain ⟨entry, hlook, h⟩ := bind_eq_ok_iff.mp h
    obtain ⟨hshort, rfl⟩ := look_eq_ok_iff.mp hlook
    have hfree : f.isDirectory (here ++ [name]) = false := by
      refine Bool.eq_false_iff.mpr fun hdir => ?_
      rw [entryAt_eq_directory_iff.mpr hdir] at h
      cases h
    have hopened : f.opened .write (here ++ [name]) = .ok place := by
      split at h
      · cases h
      · exact h
      · exact h
    obtain ⟨hdenial, rfl⟩ := opened_eq_ok_iff.mp hopened
    exact ⟨here, name, ⟨hp, hhere, hlast, Bool.eq_false_iff.mpr hslash, hshort, hfree⟩, rfl, hdenial⟩
  · rintro ⟨here, name, ⟨hp, hhere, hlast, hslash, hshort, hfree⟩, rfl, hdenial⟩
    unfold slot
    refine bind_eq_ok_iff.mpr ⟨_, hp, bind_eq_ok_iff.mpr ⟨here, hhere, ?_⟩⟩
    simp only [hlast, hslash]
    refine bind_eq_ok_iff.mpr ⟨_, look_eq_ok_iff.mpr ⟨hshort, rfl⟩, ?_⟩
    have hentry := mt entryAt_eq_directory_iff.mp (Bool.eq_false_iff.mp hfree)
    have hopened := opened_eq_ok_iff.mpr ⟨hdenial, rfl⟩
    split
    · next h => exact absurd h hentry
    · exact hopened
    · exact hopened

theorem read_eq_ok_iff :
    f.read path = .ok bytes ↔
      ∃ here name, Names f path here name ∧ f.get? (here ++ [name]) = some bytes ∧
        f.denial .read (here ++ [name]) = none := by
  constructor
  · intro h
    unfold read at h
    obtain ⟨p, hp, h⟩ := bind_eq_ok_iff.mp h
    obtain ⟨here, hhere, h⟩ := bind_eq_ok_iff.mp h
    split at h
    · cases h
    next name hlast =>
    obtain ⟨entry, hlook, h⟩ := bind_eq_ok_iff.mp h
    obtain ⟨hshort, hentry⟩ := look_eq_ok_iff.mp hlook
    split at h
    · cases h
    · cases h
    · split at h
      · cases h
      next hslash =>
      obtain ⟨hfree, hfile⟩ := entryAt_eq_file_iff.mp hentry
      cases hopened : f.opened .read (here ++ [name]) with
      | error fault => rw [hopened] at h; cases h
      | ok place =>
        rw [hopened] at h
        obtain rfl := Except.ok.inj h
        exact ⟨here, name, ⟨hp, hhere, hlast, Bool.eq_false_iff.mpr hslash, hshort, hfree⟩, hfile,
          (opened_eq_ok_iff.mp hopened).1⟩
  · rintro ⟨here, name, ⟨hp, hhere, hlast, hslash, hshort, hfree⟩, hfile, hdenial⟩
    unfold read
    refine bind_eq_ok_iff.mpr ⟨_, hp, bind_eq_ok_iff.mpr ⟨here, hhere, ?_⟩⟩
    simp only [hlast]
    refine bind_eq_ok_iff.mpr
      ⟨_, look_eq_ok_iff.mpr ⟨hshort, entryAt_eq_file_iff.mpr ⟨hfree, hfile⟩⟩, ?_⟩
    simp only [hslash, opened_eq_ok_iff.mpr ⟨hdenial, rfl⟩]
    rfl

/-! ## Writing -/

theorem isDirectory_of_names (h : Names f path here name) : f.isDirectory here = true := by
  obtain ⟨-, hhere, -, -, -, -⟩ := h
  refine isDirectory_walk (isDirectory_iff.mpr (.inl (.inl ?_))) hhere
  split
  · exact List.nil_prefix
  · exact List.prefix_rfl

theorem isDirectory_put_of_slot (h : f.slot path = .ok place) (bytes : ByteArray)
    (d : List String) : (f.put place bytes).isDirectory d = f.isDirectory d := by
  obtain ⟨here, name, hnames, rfl, -⟩ := slot_eq_ok_iff.mp h
  exact isDirectory_put (isDirectory_of_names hnames) name bytes d

/-- Folders with the same directories give every path the same meaning. -/
theorem names_of_isDirectory (hhome : g.home = f.home) (hdenial : g.denial = f.denial)
    (hdir : ∀ d, g.isDirectory d = f.isDirectory d) (h : Names f path here name) :
    Names g path here name := by
  obtain ⟨hp, hhere, hlast, hslash, hshort, hfree⟩ := h
  refine ⟨hp, ?_, hlast, hslash, hshort, (hdir _).trans hfree⟩
  rw [directoryOf, hhome]
  exact walk_of_isDirectory hdenial hdir hhere

/-- The file that `path` names holds `bytes`, and all else is as it was. -/
structure Written (f g : Folder) (path : String) (bytes : ByteArray) : Prop where
  home : g.home = f.home
  denial : g.denial = f.denial
  directories : ∀ d, g.isDirectory d = f.isDirectory d
  file : ∀ place, f.slot path = .ok place → g.get? place = some bytes
  other_file : ∀ place, f.slot path ≠ .ok place → g.get? place = f.get? place
  /-- A file may be written where none can be read. -/
  read : (∀ place, f.slot path = .ok place → f.denial .read place = none) → g.read path = .ok bytes
  read_other : ∀ other, f.slot other ≠ f.slot path → ∀ content,
    g.read other = .ok content ↔ f.read other = .ok content

theorem written_put (h : f.slot path = .ok place) (bytes : ByteArray) :
    Written f (f.put place bytes) path bytes := by
  have hdir := isDirectory_put_of_slot h bytes
  have hnames : ∀ other here name,
      Names (f.put place bytes) other here name ↔ Names f other here name := fun _ _ _ =>
    ⟨names_of_isDirectory rfl rfl fun d => (hdir d).symm, names_of_isDirectory rfl rfl hdir⟩
  obtain ⟨here, name, hnamed, hplace, hdenial⟩ := slot_eq_ok_iff.mp h
  refine ⟨rfl, rfl, hdir, fun q hq => ?_, fun q hq => ?_, fun hread => ?_,
    fun other hother content => ?_⟩
  · obtain rfl := Except.ok.inj (h.symm.trans hq)
    rw [get?_put, if_pos rfl]
  · rw [get?_put, if_neg (by rintro rfl; exact hq h)]
  · refine read_eq_ok_iff.mpr ⟨here, name, (hnames path here name).mpr hnamed, ?_, ?_⟩
    · rw [get?_put, if_pos hplace.symm]
    · exact hplace ▸ hread place h
  · rw [read_eq_ok_iff, read_eq_ok_iff]
    refine exists_congr fun here' => exists_congr fun name' => ?_
    rw [hnames]
    refine and_congr_right fun hn => ?_
    -- Another path to the same file would be written at the same place.
    have hne : here' ++ [name'] ≠ place := by
      rintro rfl
      exact hother ((slot_eq_ok_iff.mpr ⟨here', name', hn, rfl, hdenial⟩).trans h.symm)
    rw [get?_put, if_neg hne]
    rfl

theorem write_of_slot (h : f.slot path = .ok place) (bytes : ByteArray) :
    f.write path bytes = (.ok (), f.put place bytes) := by
  rw [write, h]

theorem write_of_slot_error {fault : Fault} (h : f.slot path = .error fault) (bytes : ByteArray) :
    f.write path bytes = (.error fault, f) := by
  rw [write, h]

end ToneScore.Storage.Folder
