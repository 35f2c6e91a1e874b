import SelfReference.Program.SettingsFile
import SelfReference.Proofs.PathTexts
import SelfReference.Proofs.SettingsText
import SelfReference.Proofs.TreeChanges

/-!
# Saved settings

Settings are saved exactly where nothing is in the way of their file, and then loaded back as they
were.  A save that fails leaves every file as it was, and loading the settings of a home directory a
second time gives what the first time gave.
-/

namespace SelfReference

namespace FileTree

open SelfReference.FileTree.Path

variable {t t' : FileTree} {here ss place : List String} {path : String} {p : Path}

/-! ### The directory of a file -/

theorem steps_of_isName_last (h : IsName p.last) :
    p.slash = false ∧ p.steps = p.directory.steps ++ [p.last] := by
  have hslash : p.slash = false := by
    cases hslash : p.slash with
    | false => rfl
    | true => exact absurd (if_pos hslash) h.ne_self
  have hsteps : p.steps ≠ [] := by
    intro hnil
    apply h.ne_self
    rw [last, hslash, hnil]
    rfl
  refine ⟨hslash, ?_⟩
  rw [last, hslash, List.getLastD_eq_getLast?, List.getLast?_eq_some_getLast hsteps]
  exact (List.dropLast_concat_getLast hsteps).symm

section Parent

variable (hname : IsName (ofString path).last)
include hname

theorem filter_steps_parent :
    (ofString (parent path)).steps.filter (· ≠ ".") =
      (ofString path).directory.steps.filter (· ≠ ".") := by
  rw [filter_steps, names_parent, ← filter_steps, (steps_of_isName_last hname).2,
    List.filter_append, List.filter_cons_of_pos (by simpa using hname.ne_self), List.filter_nil,
    List.dropLast_concat]

theorem passes_parent_iff :
    Passes here (ofString (parent path)).steps place ↔
      Passes here (ofString path).directory.steps place := by
  rw [← passes_filter_iff, filter_steps_parent hname, passes_filter_iff]

theorem clears_parent_iff (hsteps : (ofString (parent path)).steps ≠ []) :
    t.Clears (t.start (ofString (parent path))) (ofString (parent path)).steps ↔
      t.Clears (t.start (ofString path)) (ofString path).directory.steps := by
  rw [← clears_filter_iff, filter_steps_parent hname, clears_filter_iff, start,
    fromRoot_parent hsteps]
  rfl

/-- Making the directory of a file adds directories on the way to the file only. -/
theorem grows_parent (t : FileTree) :
    Grows (t.start (ofString path)) (ofString path).directory.steps t
      (t.makeDirectories (ofString (parent path))).2 := by
  by_cases hsteps : (ofString (parent path)).steps = []
  · rw [makeDirectories, if_pos hsteps]
    exact .refl ..
  · have hgrows := grows_makeDirectories t (ofString (parent path))
    rw [start, fromRoot_parent hsteps] at hgrows
    exact hgrows.of_passes fun q => (passes_parent_iff hname).1

variable (hfault : (ofString path).fault = none)
include hfault

theorem makes_parent_iff (hdir : t.IsDirectory (t.start (ofString path))) :
    t.Makes (ofString (parent path)) ↔
      t.Clears (t.start (ofString path)) (ofString path).directory.steps := by
  by_cases hsteps : (ofString (parent path)).steps = []
  · refine iff_of_true (Or.inl hsteps) ?_
    rw [← clears_filter_iff, ← filter_steps_parent hname, hsteps]
    exact (enters_nil_iff.2 hdir).clears
  · rw [Makes, or_iff_right hsteps, and_iff_right (fault_parent hsteps hfault)]
    exact clears_parent_iff hname hsteps

theorem enters_parent_iff (hdir : t.IsDirectory (t.start (ofString path))) :
    (t.makeDirectories (ofString (parent path))).1 = .ok () ↔
      (t.makeDirectories (ofString (parent path))).2.Enters (t.start (ofString path))
        (ofString path).directory.steps := by
  rw [← enters_filter_iff, ← filter_steps_parent hname, enters_filter_iff]
  by_cases hsteps : (ofString (parent path)).steps = []
  · rw [makeDirectories, if_pos hsteps, hsteps]
    exact iff_of_true rfl (enters_nil_iff.2 hdir)
  · rw [enters_makeDirectories_iff hsteps (fault_parent hsteps hfault), start,
      fromRoot_parent hsteps]
    rfl

end Parent

/-- Nothing is in the way of a file at a path, nor will be when its directories are made. -/
structure Admits (t : FileTree) (p : Path) : Prop where
  faultless : p.fault = none
  isName : IsName p.last
  clears : t.Clears (t.start p) p.directory.steps
  free : ¬ t.IsDirectory (settle (t.start p) p.directory.steps ++ [p.last])
  apart : ¬ Passes (t.start p) p.directory.steps
    (settle (t.start p) p.directory.steps ++ [p.last])

instance (t : FileTree) (p : Path) : Decidable (t.Admits p) :=
  decidable_of_iff
    (p.fault = none ∧ IsName p.last ∧ t.Clears (t.start p) p.directory.steps ∧
      ¬ t.IsDirectory (settle (t.start p) p.directory.steps ++ [p.last]) ∧
      ¬ Passes (t.start p) p.directory.steps
        (settle (t.start p) p.directory.steps ++ [p.last]))
    ⟨fun h => ⟨h.1, h.2.1, h.2.2.1, h.2.2.2.1, h.2.2.2.2⟩,
      fun h => ⟨h.faultless, h.isName, h.clears, h.free, h.apart⟩⟩

/-- A file is written in its directory, once that is made, exactly where nothing is in the way. -/
theorem exists_write_iff (t : FileTree) (path : String) (bytes : ByteArray) :
    ((t.makeDirectories (ofString (parent path))).1 = .ok () ∧
      ∃ t', (t.makeDirectories (ofString (parent path))).2.write (ofString path).directory
        (ofString path).last bytes = .ok t') ↔ t.Admits (ofString path) := by
  constructor
  · intro h
    obtain ⟨hmade, t', hwrite⟩ := h
    obtain ⟨hfault, henters, ⟨hname, hfree⟩, -⟩ := write_eq_ok_iff.1 hwrite
    have hgrows := grows_parent hname t
    rw [hgrows.keeps.start] at henters hfree
    exact ⟨hfault, hname, henters.clears.of_grows hgrows,
      fun hdir => hfree (hgrows.keeps.isDirectory _ hdir),
      fun hpasses => hfree (henters.directories _ hpasses)⟩
  · intro h
    have hgrows := grows_parent h.isName t
    have hmade := makeDirectories_eq_ok_iff.2
      ((makes_parent_iff h.isName h.faultless h.clears.start).2 h.clears)
    refine ⟨hmade, _, write_eq_ok_iff.2 ⟨h.faultless, ?_, ⟨h.isName, fun hdir => ?_⟩, rfl⟩⟩
    · rw [hgrows.keeps.start]
      exact (enters_parent_iff h.isName h.faultless h.clears.start).1 hmade
    · rw [hgrows.keeps.start] at hdir
      rcases hgrows.kind _ with heq | ⟨-, -, -, hpasses⟩
      · exact h.free (heq.symm.trans hdir)
      · exact h.apart hpasses

/-- Nothing is to be made on the way to what is there. -/
theorem makeDirectories_parent_of_find {k : FileKind} (h : t.find path = .ok k) :
    t.makeDirectories (ofString (parent path)) = (.ok (), t) := by
  by_cases hsteps : (ofString (parent path)).steps = []
  · rw [makeDirectories, if_pos hsteps]
  have hprefix := steps_parent_prefix path
  have hne : (ofString path).steps ≠ [] := by
    intro hnil
    rw [hnil] at hprefix
    exact hsteps (List.prefix_nil.1 hprefix)
  obtain ⟨hfault, henters⟩ := enters_of_follow hne h
  apply makeDirectories_of_enters (fault_parent hsteps hfault)
  rw [start, fromRoot_parent hsteps]
  exact henters.of_prefix hprefix

/-- What is at a path stays there. -/
theorem Keeps.find {k : FileKind} (hkeeps : Keeps t t') (h : t.find path = .ok k) :
    t'.find path = .ok k := hkeeps.follow h

/-- A file that is written is found at its path. -/
theorem find_of_write {bytes : ByteArray}
    (h : t.write (ofString path).directory (ofString path).last bytes = .ok t') :
    t'.find path = .ok (.file bytes) := by
  obtain ⟨hfault, henters, ⟨hname, -⟩, -⟩ := write_eq_ok_iff.1 h
  obtain ⟨hslash, hsteps⟩ := steps_of_isName_last hname
  have hstart : t'.start (ofString path) = t.start (ofString path) := by
    rw [start, start, working_write h]
  refine (follow_eq_ok_iff hsteps hname hslash).2 ⟨hfault, ?_, ?_⟩
  · rw [hstart]
    exact henters.mono fun q => isDirectory_write h
  · rw [hstart, kind?_write h]
    exact if_pos rfl

end FileTree

namespace Settings

open FileTree

variable {t t' : FileTree} {path home text : String} {s : Settings}

/-! ### What a save does -/

/-- The answer of a save and the tree afterwards. -/
inductive Saves (s : Settings) (t : FileTree) (path : String) :
    Except Failure Unit × FileTree → Prop where
  | blocked {cause : FileError} {u : FileTree}
      (hmade : t.makeDirectories (.ofString (Path.parent path)) = (.error cause, u)) :
      Saves s t path (.error (.settingsFile cause), u)
  | outOfRange {u : FileTree}
      (hmade : t.makeDirectories (.ofString (Path.parent path)) = (.ok (), u))
      (hnone : s.text? = none) : Saves s t path (.error .settingsRange, u)
  | unwritten {u : FileTree} {text : String} {cause : FileError}
      (hmade : t.makeDirectories (.ofString (Path.parent path)) = (.ok (), u))
      (htext : s.text? = some text)
      (hwrite : u.write (Path.ofString path).directory (Path.ofString path).last text.toUTF8 =
        .error cause) :
      Saves s t path (.error (.settingsFile cause), u)
  | written {u : FileTree} {text : String} {t' : FileTree}
      (hmade : t.makeDirectories (.ofString (Path.parent path)) = (.ok (), u))
      (htext : s.text? = some text)
      (hwrite : u.write (Path.ofString path).directory (Path.ofString path).last text.toUTF8 =
        .ok t') :
      Saves s t path (.ok (), t')

theorem saves_saveTo (s : Settings) (t : FileTree) (path : String) :
    Saves s t path (s.saveTo t path) := by
  rw [saveTo, save]
  cases hmade : t.makeDirectories (.ofString (Path.parent path)) with
  | mk made u =>
    cases made with
    | error cause => exact .blocked hmade
    | ok =>
      cases htext : s.text? with
      | none => exact .outOfRange hmade htext
      | some text =>
        cases hwrite : u.write (Path.ofString path).directory (Path.ofString path).last
            text.toUTF8 with
        | error cause =>
          simp only [hwrite]
          exact .unwritten hmade htext hwrite
        | ok t' =>
          simp only [hwrite]
          exact .written hmade htext hwrite

/-- Settings within the range are saved exactly where nothing is in the way. -/
theorem saveTo_eq_ok_iff :
    (s.saveTo t path).1 = .ok () ↔ s.InRange ∧ t.Admits (.ofString path) := by
  have hwrites := exists_write_iff t path
  generalize hsave : s.saveTo t path = r
  cases hsave ▸ saves_saveTo s t path with
  | blocked hmade =>
    refine iff_of_false (fun h => nomatch h) fun h => ?_
    have hok := ((hwrites .empty).2 h.2).1
    rw [hmade] at hok
    cases hok
  | outOfRange _ hnone =>
    exact iff_of_false (fun h => nomatch h) fun h => text?_eq_none_iff.1 hnone h.1
  | @unwritten _ text _ hmade _ hwrite =>
    refine iff_of_false (fun h => nomatch h) fun h => ?_
    obtain ⟨t', ht'⟩ := ((hwrites text.toUTF8).2 h.2).2
    rw [hmade] at ht'
    cases hwrite.symm.trans ht'
  | @written _ text t' hmade htext hwrite =>
    refine iff_of_true rfl ⟨inRange_of_text? htext, (hwrites text.toUTF8).1 ?_⟩
    rw [hmade]
    exact ⟨rfl, t', hwrite⟩

/-- Other settings are not saved: their text fails where the directories can be made. -/
theorem saveTo_outOfRange (h : ¬ s.InRange) :
    ((s.saveTo t path).1 = .error .settingsRange ↔ t.Makes (.ofString (Path.parent path))) ∧
      (¬ t.Makes (.ofString (Path.parent path)) →
        ∃ cause, (s.saveTo t path).1 = .error (.settingsFile cause)) := by
  rw [← makeDirectories_eq_ok_iff]
  generalize hsave : s.saveTo t path = r
  cases hsave ▸ saves_saveTo s t path with
  | blocked hmade =>
    rw [hmade]
    exact ⟨iff_of_false (fun h => nomatch h) (fun h => nomatch h), fun _ => ⟨_, rfl⟩⟩
  | outOfRange hmade =>
    rw [hmade]
    exact ⟨iff_of_true rfl rfl, fun h => absurd rfl h⟩
  | unwritten _ htext => exact absurd (inRange_of_text? htext) h
  | written _ htext => exact absurd (inRange_of_text? htext) h

/-- Settings with no text leave the file that is there. -/
theorem saveTo_of_found {k : FileKind} (hrange : ¬ s.InRange) (h : t.find path = .ok k) :
    s.saveTo t path = (.error .settingsRange, t) := by
  have hnone : s.text? = none := text?_eq_none_iff.2 hrange
  rw [saveTo, makeDirectories_parent_of_find h, save, hnone]

theorem tree_of_saveTo_error {failure : Failure} (h : (s.saveTo t path).1 = .error failure) :
    (s.saveTo t path).2 = (t.makeDirectories (.ofString (Path.parent path))).2 := by
  generalize hsave : s.saveTo t path = r at h ⊢
  cases hsave ▸ saves_saveTo s t path with
  | blocked hmade => rw [hmade]
  | outOfRange hmade => rw [hmade]
  | unwritten hmade => rw [hmade]
  | written => cases h

theorem cause_of_saveTo_error {failure : Failure} (hrange : s.InRange)
    (h : (s.saveTo t path).1 = .error failure) : ∃ cause, failure = .settingsFile cause := by
  generalize hsave : s.saveTo t path = r at h
  cases hsave ▸ saves_saveTo s t path with
  | outOfRange _ hnone => exact absurd hrange (text?_eq_none_iff.1 hnone)
  | blocked =>
    cases h
    exact ⟨_, rfl⟩
  | unwritten =>
    cases h
    exact ⟨_, rfl⟩
  | written => cases h

/-- A save that fails leaves every file as it was. -/
theorem keeps_saveTo_error {failure : Failure} (h : (s.saveTo t path).1 = .error failure) :
    Keeps t (s.saveTo t path).2 := by
  rw [tree_of_saveTo_error h]
  exact (grows_makeDirectories t _).keeps

theorem text_toUTF8 (text : String) : FileKind.text (.file text.toUTF8) = .ok text := by
  have hread : String.fromUTF8? text.toUTF8 = some text := dif_pos text.isValidUTF8
  rw [FileKind.text, hread]

theorem loadFrom_of_find {k : FileKind} (h : t.find path = .ok k) :
    loadFrom t path = ofFile k.text := by
  rw [loadFrom, FileTree.read, h]
  rfl

theorem find_saveTo (h : (s.saveTo t path).1 = .ok ()) :
    ∃ text, s.text? = some text ∧ (s.saveTo t path).2.find path = .ok (.file text.toUTF8) := by
  generalize hsave : s.saveTo t path = r at h ⊢
  cases hsave ▸ saves_saveTo s t path with
  | written _ htext hwrite => exact ⟨_, htext, find_of_write hwrite⟩
  | _ => cases h

theorem loadFrom_saveTo (h : (s.saveTo t path).1 = .ok ()) :
    loadFrom (s.saveTo t path).2 path = .ok s := by
  obtain ⟨text, htext, hfind⟩ := find_saveTo h
  rw [loadFrom_of_find hfind, text_toUTF8, ofFile]
  simp only [read?_text htext]

theorem inRange_of_loadFrom (h : loadFrom t path = .ok s) : s.InRange := by
  unfold loadFrom ofFile at h
  split at h
  · cases h
  · split at h
    · rename_i hread
      cases h
      exact inRange_of_read? hread
    · cases h

/-! ### The settings file of a home directory -/

theorem isPart_directoryName : Path.IsPart directoryName := ⟨by decide, by decide⟩

theorem isPart_fileName : Path.IsPart fileName := ⟨by decide, by decide⟩

theorem isName_fileName : IsName fileName := ⟨by decide, by decide, by decide⟩

/-- The steps to the directory of the settings file. -/
def homeSteps (home : String) : List String := (Path.ofString home).steps ++ [directoryName]

/-- The place of the settings file. -/
def homePlace (t : FileTree) (home : String) : List String :=
  settle (t.start (.ofString home)) (homeSteps home) ++ [fileName]

/-- What making the directory of the settings file gives. -/
def homeMade (t : FileTree) (home : String) : Except FileError Unit × FileTree :=
  t.makeDirectories (.ofString (Path.parent (homeFile home)))

theorem steps_homeFile (home : String) :
    (Path.ofString (homeFile home)).steps = homeSteps home ++ [fileName] := by
  rw [homeFile, Path.steps_join isPart_fileName, homeDirectory,
    Path.steps_join isPart_directoryName, homeSteps]

theorem last_homeFile (home : String) : (Path.ofString (homeFile home)).last = fileName := by
  rw [Path.last, steps_homeFile, homeFile, Path.slash_join isPart_fileName]
  simp

theorem directory_homeFile (home : String) :
    (Path.ofString (homeFile home)).directory.steps = homeSteps home := by
  rw [Path.directory, steps_homeFile, List.dropLast_concat]

theorem isName_last_homeFile (home : String) : IsName (Path.ofString (homeFile home)).last :=
  last_homeFile home ▸ isName_fileName

theorem start_homeFile (t : FileTree) (home : String) :
    t.start (.ofString (homeFile home)) = t.start (.ofString home) := by
  rw [start, start, homeFile, Path.fromRoot_join isPart_fileName, homeDirectory,
    Path.fromRoot_join isPart_directoryName]

theorem find_homeFile_iff {k : FileKind} :
    t.find (homeFile home) = .ok k ↔
      (Path.ofString (homeFile home)).fault = none ∧
        t.Enters (t.start (.ofString home)) (homeSteps home) ∧
        t.kind? (homePlace t home) = some k := by
  have hname := isName_last_homeFile home
  obtain ⟨hslash, hsteps⟩ := steps_of_isName_last hname
  have hfollow := follow_eq_ok_iff (t := t) (k := k) hsteps hname hslash
  rwa [directory_homeFile, last_homeFile, start_homeFile] at hfollow

theorem grows_homeMade (t : FileTree) (home : String) :
    Grows (t.start (.ofString home)) (homeSteps home) t (homeMade t home).2 := by
  have hgrows := grows_parent (isName_last_homeFile home) t
  rwa [directory_homeFile, start_homeFile] at hgrows

theorem homePlace_homeMade (t : FileTree) (home : String) :
    homePlace (homeMade t home).2 home = homePlace t home := by
  rw [homePlace, (grows_homeMade t home).keeps.start, homePlace]

theorem enters_homeMade_iff (hfault : (Path.ofString (homeFile home)).fault = none)
    (hdir : t.IsDirectory (t.start (.ofString home))) :
    (homeMade t home).1 = .ok () ↔
      (homeMade t home).2.Enters (t.start (.ofString home)) (homeSteps home) := by
  have henters := enters_parent_iff (isName_last_homeFile home) hfault
    (t := t) (by rwa [start_homeFile])
  rwa [directory_homeFile, start_homeFile] at henters

theorem clears_of_homeMade (hmade : (homeMade t home).1 = .ok ()) :
    t.Clears (t.start (.ofString home)) (homeSteps home) := by
  have hname := isName_last_homeFile home
  have hsteps : (Path.ofString (Path.parent (homeFile home))).steps ≠ [] := by
    intro hnil
    have hmem : directoryName ∈ (homeSteps home).filter (· ≠ ".") :=
      List.mem_filter.2 ⟨List.mem_append_right _ (List.mem_singleton_self _), by decide⟩
    rw [← directory_homeFile, ← filter_steps_parent hname, hnil] at hmem
    cases hmem
  have hmakes := (makeDirectories_eq_ok_iff.1 hmade).resolve_left hsteps
  have hclears := (clears_parent_iff hname hsteps).1 hmakes.2
  rwa [directory_homeFile, start_homeFile] at hclears

/-- Whether a home directory is there, if its path steps back. -/
def IsHome (t : FileTree) (home : String) : Prop :=
  ".." ∈ (Path.ofString home).steps → t.find home = .ok .directory

instance (t : FileTree) (home : String) : Decidable (IsHome t home) :=
  inferInstanceAs (Decidable (".." ∈ (Path.ofString home).steps → t.find home = .ok .directory))

section Home

variable (hhome : IsHome t home)
include hhome

theorem enters_of_isHome (hback : ".." ∈ (Path.ofString home).steps) :
    t.Enters (t.start (.ofString home)) (Path.ofString home).steps :=
  enters_of_follow_directory (hhome hback)

/-- Where there is something at the place of the settings file, its path leads there. -/
theorem enters_homeSteps {k : FileKind} (hfits : Fits (homeSteps home))
    (hk : t.kind? (homePlace t home) = some k) :
    t.Enters (t.start (.ofString home)) (homeSteps home) := by
  have hdir := IsDirectory.of_append (List.cons_ne_nil _ _) hk
  by_cases hback : ".." ∈ (Path.ofString home).steps
  · exact (enters_of_isHome hhome hback).concat (by decide) hdir
  · refine enters_of_forward ?_ hfits hdir
    rw [homeSteps, List.mem_append, not_or]
    exact ⟨hback, by decide⟩

/-- The way to the settings file does not pass its place. -/
theorem not_passes_homePlace (hfree : ¬ t.IsDirectory (homePlace t home)) :
    ¬ Passes (t.start (.ofString home)) (homeSteps home) (homePlace t home) := by
  intro hpasses
  by_cases hback : ".." ∈ (Path.ofString home).steps
  · rcases passes_concat_iff.1 hpasses with hpasses | heq
    · exact hfree ((enters_of_isHome hhome hback).directories _ hpasses)
    · exact absurd (congrArg List.length heq) (by simp [homePlace, homeSteps])
  · have hforward : ".." ∉ homeSteps home := by
      rw [homeSteps, List.mem_append, not_or]
      exact ⟨hback, by decide⟩
    have hprefix := (hpasses.prefix_of_forward hforward).length_le
    rw [homePlace, List.length_append, List.length_singleton] at hprefix
    omega

/-- Where there was no settings file, its place is still free once its directory is made. -/
theorem kind?_homeMade (hmissing : ∀ k, t.find (homeFile home) ≠ .ok k)
    (hfault : (Path.ofString (homeFile home)).fault = none)
    (hmade : (homeMade t home).1 = .ok ()) :
    (homeMade t home).2.kind? (homePlace t home) = none := by
  have hnone : t.kind? (homePlace t home) = none := by
    cases hk : t.kind? (homePlace t home) with
    | none => rfl
    | some k =>
      have henters := enters_homeSteps hhome (clears_of_homeMade hmade).fits hk
      exact absurd (find_homeFile_iff.2 ⟨hfault, henters, hk⟩) (hmissing k)
  rcases (grows_homeMade t home).kind (homePlace t home) with heq | ⟨-, -, -, hpasses⟩
  · rw [heq, hnone]
  · refine absurd hpasses (not_passes_homePlace hhome fun hdir => ?_)
    cases hnone.symm.trans hdir

/-- Making its directory makes no settings file. -/
theorem find_homeMade (hmissing : ∀ k, t.find (homeFile home) ≠ .ok k) (k : FileKind) :
    (homeMade t home).2.find (homeFile home) ≠ .ok k := by
  intro h
  obtain ⟨hfault, henters, hk⟩ := find_homeFile_iff.1 h
  have hgrows := grows_homeMade t home
  rw [hgrows.keeps.start] at henters
  have hmade := (enters_homeMade_iff hfault (hgrows.begins henters.start)).2 henters
  rw [homePlace_homeMade, kind?_homeMade hhome hmissing hfault hmade] at hk
  cases hk

/-- A first settings file is new, so that saving it changes no other file. -/
theorem keeps_saveTo_homeFile (hmissing : ∀ k, t.find (homeFile home) ≠ .ok k) (s : Settings) :
    Keeps t (s.saveTo t (homeFile home)).2 := by
  have hgrows := grows_homeMade t home
  cases hsave : (s.saveTo t (homeFile home)).1 with
  | error failure => exact keeps_saveTo_error hsave
  | ok =>
    generalize hr : s.saveTo t (homeFile home) = r at hsave ⊢
    cases hr ▸ saves_saveTo s t (homeFile home) with
    | @written u _ _ hmade _ hwrite =>
      have hmade' : homeMade t home = (.ok (), u) := hmade
      rw [hmade'] at hgrows
      have hfree := kind?_homeMade hhome hmissing (write_eq_ok_iff.1 hwrite).1
        (congrArg Prod.fst hmade')
      rw [hmade'] at hfree
      refine hgrows.keeps.trans (keeps_write ?_ hwrite)
      rw [last_homeFile, directory_homeFile]
      rw [homePlace, ← hgrows.keeps.start, ← start_homeFile] at hfree
      exact hfree
    | _ => cases hsave

end Home

/-! ### Loading from a home directory -/

theorem loadHome_of_found {k : FileKind} (h : t.find (homeFile home) = .ok k) :
    loadHome t home = (ofFile k.text, t) := by
  have hfound : foundIn t home = some k.text := by
    rw [foundIn, h]
    rfl
  rw [loadHome, hfound]
  rfl

theorem loadHome_of_missing (h : ∀ k, t.find (homeFile home) ≠ .ok k) :
    (loadHome t home).1 = .ok {} ∧ (loadHome t home).2 = (saveTo t (homeFile home) {}).2 := by
  have hfound : foundIn t home = none := by
    cases hfind : t.find (homeFile home) with
    | ok k => exact absurd hfind (h k)
    | error cause =>
      rw [foundIn, hfind]
      rfl
  simp only [loadHome, hfound, load, keepFirst, and_self]

/-- Loading settings changes no file. -/
theorem keeps_loadHome (hhome : IsHome t home) : Keeps t (loadHome t home).2 := by
  by_cases hfound : ∃ k, t.find (homeFile home) = .ok k
  · obtain ⟨k, hk⟩ := hfound
    rw [loadHome_of_found hk]
    exact .refl t
  have hmissing (k : FileKind) : t.find (homeFile home) ≠ .ok k := fun h => hfound ⟨k, h⟩
  rw [(loadHome_of_missing hmissing).2]
  exact keeps_saveTo_homeFile hhome hmissing {}

theorem loadHome_loadHome (hhome : IsHome t home) :
    (loadHome (loadHome t home).2 home).1 = (loadHome t home).1 := by
  by_cases hfound : ∃ k, t.find (homeFile home) = .ok k
  · obtain ⟨k, hk⟩ := hfound
    simp only [loadHome_of_found hk]
  have hmissing (k : FileKind) : t.find (homeFile home) ≠ .ok k := fun h => hfound ⟨k, h⟩
  obtain ⟨hloaded, htree⟩ := loadHome_of_missing hmissing
  rw [hloaded, htree]
  cases hsave : (saveTo t (homeFile home) {}).1 with
  | error failure =>
    rw [tree_of_saveTo_error hsave]
    exact (loadHome_of_missing (find_homeMade hhome hmissing)).1
  | ok =>
    obtain ⟨text, -, hfind⟩ := find_saveTo hsave
    rw [loadHome_of_found hfind]
    exact (loadFrom_of_find hfind).symm.trans (loadFrom_saveTo hsave)

/-- Settings within the range are saved exactly where nothing is in the way of their file, and then
loaded back as they were; settings that were loaded are within the range.  Others are not saved: a
file that was there stays as it was, and their text fails exactly where the parents of the file are
there or can be made.  Every save that fails leaves every file.  Settings in a home directory are
read without a change; loading from a home directory that is there, or that is written without a
step back, changes no file and gives the same a second time. -/
theorem settings_survive_saving (t : FileTree) (path home : String) (s : Settings) :
    (s.InRange →
      ((s.saveTo t path).1 = .ok () ↔ t.Admits (.ofString path)) ∧
      ((s.saveTo t path).1 = .ok () → loadFrom (s.saveTo t path).2 path = .ok s) ∧
      ∀ failure, (s.saveTo t path).1 = .error failure → ∃ cause, failure = .settingsFile cause) ∧
    (∀ u q, loadFrom u q = .ok s → s.InRange) ∧
    (¬ s.InRange →
      ((s.saveTo t path).1 = .error .settingsRange ↔ t.Makes (.ofString (Path.parent path))) ∧
      (¬ t.Makes (.ofString (Path.parent path)) →
        ∃ cause, (s.saveTo t path).1 = .error (.settingsFile cause)) ∧
      ∀ bytes, t.find path = .ok (.file bytes) →
        s.saveTo t path = (.error .settingsRange, t)) ∧
    (∀ failure, (s.saveTo t path).1 = .error failure →
      ∀ q k, t.find q = .ok k → (s.saveTo t path).2.find q = .ok k) ∧
    (∀ k, t.find (homeFile home) = .ok k → loadHome t home = (loadFrom t (homeFile home), t)) ∧
    (IsHome t home →
      (∀ q k, t.find q = .ok k → (loadHome t home).2.find q = .ok k) ∧
      (loadHome (loadHome t home).2 home).1 = (loadHome t home).1) := by
  refine ⟨fun hrange => ⟨?_, loadFrom_saveTo, fun failure => cause_of_saveTo_error hrange⟩,
    fun u q => inRange_of_loadFrom, fun hrange => ⟨?_, ?_, ?_⟩, ?_, ?_, fun hhome => ⟨?_, ?_⟩⟩
  · rw [saveTo_eq_ok_iff, and_iff_right hrange]
  · exact (saveTo_outOfRange hrange).1
  · exact (saveTo_outOfRange hrange).2
  · intro bytes hfile
    exact saveTo_of_found hrange hfile
  · intro failure hsave q k hk
    exact (keeps_saveTo_error hsave).find hk
  · intro k hk
    rw [loadHome_of_found hk, loadFrom_of_find hk]
  · intro q k hk
    exact (keeps_loadHome hhome).find hk
  · exact loadHome_loadHome hhome

/-- First settings are saved where their directories are missing, those for too many workers leave
the file, and a home directory that is written with a step back is loaded from twice. -/
theorem settings_survive_saving_here :
    loadFrom (saveTo ⟨[], []⟩ "/etc/prr/config.toml" {}).2 "/etc/prr/config.toml" = .ok {} ∧
      saveTo (.directory [(fileName, .file .empty)]) fileName
          { solver := { workers := 9223372036854775808 } } =
        (.error .settingsRange, .directory [(fileName, .file .empty)]) ∧
      (loadHome (loadHome (.directory [("home", .directory [])]) "home/..").2 "home/..").1 =
        (loadHome (.directory [("home", .directory [])]) "home/..").1 := by
  have hmissing := settings_survive_saving ⟨[], []⟩ "/etc/prr/config.toml" "" {}
  have hfilled := settings_survive_saving (.directory [(fileName, .file .empty)]) fileName ""
    { solver := { workers := 9223372036854775808 } }
  have hhome := settings_survive_saving (.directory [("home", .directory [])]) "" "home/.." {}
  obtain ⟨hsave, hload, -⟩ := hmissing.1 (by decide)
  refine ⟨hload (hsave.2 (by decide +kernel)), (hfilled.2.2.1 (by decide)).2.2 _ rfl, ?_⟩
  exact (hhome.2.2.2.2.2 (by decide +kernel)).2

/-- A home directory with something in place of the directory of the settings file. -/
def homeWith (node : FileNode) : FileTree :=
  .directory [("home", .directory [(directoryName, node)])]

/-- A file in the way of their directory keeps settings from being saved, and those for too many
workers fail for it too.  A step back from a home directory that is not there can lead to a settings
file once the directory is made: the first settings are then saved over it, and where it is a
directory, loading from it fails only the second time. -/
theorem settings_lost_on_the_way :
    InRange {} ∧
    loadFrom (saveTo (homeWith (.file .empty)) (homeFile "home") {}).2 (homeFile "home") =
      .error (.settingsFile .notDirectory) ∧
    ¬ InRange { solver := { workers := 9223372036854775808 } } ∧
    (saveTo (homeWith (.file .empty)) (homeFile "home")
        { solver := { workers := 9223372036854775808 } }).1 =
      .error (.settingsFile .alreadyExists) ∧
    (homeWith (.directory [(fileName, .file ⟨#[255]⟩)])).find (homeFile "home") =
      .ok (.file ⟨#[255]⟩) ∧
    (loadHome (homeWith (.directory [(fileName, .file ⟨#[255]⟩)])) "nope/../home").2.find
      (homeFile "home") ≠ .ok (.file ⟨#[255]⟩) ∧
    (loadHome (homeWith (.directory [(fileName, .directory [])])) "nope/../home").1 = .ok {} ∧
    (loadHome (loadHome (homeWith (.directory [(fileName, .directory [])])) "nope/../home").2
      "nope/../home").1 = .error (.settingsFile .isDirectory) :=
  ⟨by decide, rfl, by decide, rfl, rfl, by decide +kernel, rfl, rfl⟩

end Settings

end SelfReference
