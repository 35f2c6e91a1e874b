import SelfReference.Proofs.DirectoryWalks

/-!
# Directories made and files written

Making the directories of a path keeps every file and every directory that is there, also where
some cannot be made, and makes new ones on the way only.  It succeeds exactly where no file is in
the way; and a file that is written is found at its path.
-/

namespace SelfReference.FileTree

variable {t t' t'' : FileTree} {here mid place l ss : List String} {name s : String}
  {bytes : ByteArray} {cause : FileError} {k : FileKind} {p : Path}

/-! ### What is kept -/

/-- What was there is still there. -/
structure Keeps (t t' : FileTree) : Prop where
  working : t'.working = t.working
  kind : ∀ q k, t.kind? q = some k → t'.kind? q = some k

namespace Keeps

theorem refl (t : FileTree) : Keeps t t := ⟨rfl, fun _ _ h => h⟩

theorem trans (h : Keeps t t') (h' : Keeps t' t'') : Keeps t t'' where
  working := h'.working.trans h.working
  kind q k hk := h'.kind q k (h.kind q k hk)

theorem isDirectory (h : Keeps t t') (q : List String) (hq : t.IsDirectory q) :
    t'.IsDirectory q := h.kind q _ hq

theorem start (h : Keeps t t') (p : Path) : t'.start p = t.start p := by
  rw [FileTree.start, FileTree.start, h.working]

theorem follow (h : Keeps t t') (hfollow : t.follow p = .ok k) : t'.follow p = .ok k := by
  unfold FileTree.follow at hfollow ⊢
  split at hfollow
  · cases hfollow
  split at hfollow
  · cases hfollow
  rename_i place hwalk
  rw [h.start, walk_mono h.isDirectory hwalk]
  cases hk : t.kind? place with
  | none =>
    rw [hk] at hfollow
    cases hfollow
  | some k' =>
    rw [hk] at hfollow
    simp only [h.kind place k' hk]
    exact hfollow

end Keeps

/-- Only directories are new, at places on the way of some steps from a directory. -/
structure Grows (here ss : List String) (t t' : FileTree) : Prop where
  working : t'.working = t.working
  kind : ∀ q, t'.kind? q = t.kind? q ∨
    t.kind? q = none ∧ t'.IsDirectory q ∧ t.IsDirectory here ∧ Passes here ss q

namespace Grows

theorem refl (here ss : List String) (t : FileTree) : Grows here ss t t :=
  ⟨rfl, fun _ => Or.inl rfl⟩

theorem keeps (h : Grows here ss t t') : Keeps t t' where
  working := h.working
  kind q k hk := by
    rcases h.kind q with heq | ⟨hnone, -⟩
    · rw [heq, hk]
    · cases hnone.symm.trans hk

theorem begins (h : Grows here ss t t') (hdir : t'.IsDirectory here) : t.IsDirectory here := by
  rcases h.kind here with heq | ⟨-, -, hhere, -⟩
  · exact heq.symm.trans hdir
  · exact hhere

theorem of_passes (h : Grows here l t t') (hl : ∀ q, Passes here l q → Passes here ss q) :
    Grows here ss t t' where
  working := h.working
  kind q := by
    rcases h.kind q with heq | ⟨hnone, hdir, hhere, hq⟩
    · exact Or.inl heq
    · exact Or.inr ⟨hnone, hdir, hhere, hl q hq⟩

theorem trans (h : Grows here ss t t') (h' : Grows here ss t' t'') : Grows here ss t t'' where
  working := h'.working.trans h.working
  kind q := by
    rcases h'.kind q with heq' | ⟨hnone', hdir', hhere', hq⟩
    · rcases h.kind q with heq | ⟨hnone, hdir, hhere, hq⟩
      · exact Or.inl (heq'.trans heq)
      · exact Or.inr ⟨hnone, heq'.trans hdir, hhere, hq⟩
    · rcases h.kind q with heq | ⟨-, hdir, -⟩
      · exact Or.inr ⟨heq.symm.trans hnone', hdir', h.begins hhere', hq⟩
      · cases hnone'.symm.trans hdir

end Grows

/-! ### One directory made -/

theorem makeDirectory_eq_ok_iff :
    t.makeDirectory here ss = .ok t' ↔
      ∃ place, t.walk here ss = .ok place ∧ t.kind? place = none ∧ t' = t.put .directory place := by
  unfold makeDirectory
  split
  · rename_i hwalk
    simp [hwalk]
  · rename_i place hwalk
    split
    · rename_i hk
      simp [hwalk, hk]
    · rename_i hk
      simp [hwalk, hk, eq_comm]

/-- The answer of making directories along some steps, and what it tells. -/
structure Made (here ss : List String) (t : FileTree) (r : Except FileError Unit × FileTree) :
    Prop where
  grows : Grows here ss t r.2
  ok_iff : r.1 = .ok () ↔ r.2.Enters here ss

theorem grows_makeDirectory (h : t.makeDirectory here (ss ++ [s]) = .ok t') :
    Grows here (ss ++ [s]) t t' ∧ t'.Enters here (ss ++ [s]) := by
  obtain ⟨place, hwalk, hnone, rfl⟩ := makeDirectory_eq_ok_iff.1 h
  obtain ⟨mid, -, hmid, hdir | ⟨-, rfl⟩⟩ := walk_concat_eq_ok hwalk
  · cases hnone.symm.trans hdir
  have hfree : ¬ t.IsDirectory (mid ++ [s]) := fun hdir => nomatch hnone.symm.trans hdir
  have hput := kind?_put hmid hfree .directory
  have hgrows : Grows here (ss ++ [s]) t (t.put .directory (mid ++ [s])) := by
    refine ⟨rfl, fun q => ?_⟩
    by_cases hq : q = mid ++ [s]
    · have hnew : (t.put .directory (mid ++ [s])).IsDirectory q := (hput q).trans (if_pos hq)
      have hpasses : Passes here (ss ++ [s]) q := hq ▸ settle_of_walk hwalk ▸ passes_end ..
      exact Or.inr ⟨hq ▸ hnone, hnew, start_of_walk (List.concat_ne_nil s ss) hwalk, hpasses⟩
    · exact Or.inl ((hput q).trans (if_neg hq))
  have hend : (t.put .directory (mid ++ [s])).IsDirectory (mid ++ [s]) :=
    (hput _).trans (if_pos rfl)
  exact ⟨hgrows, enters_iff_walk.2 ⟨_, walk_mono hgrows.keeps.isDirectory hwalk, hend⟩⟩

theorem any_walk_iff :
    ((t.walk here ss).toOption.any fun place => t.kind? place = some .directory) = true ↔
      t.Enters here ss := by
  rw [enters_iff_walk]
  cases hwalk : t.walk here ss with
  | error cause => simp [Except.toOption]
  | ok place => simp [Except.toOption, IsDirectory]

theorem makeDirectory_of_enters (h : t.Enters here ss) :
    t.makeDirectory here ss = .error .alreadyExists := by
  have hdir : t.kind? (settle here ss) = some .directory := h.isDirectory
  simp only [makeDirectory, h.walk, hdir]

theorem ensureDirectory_of_enters (h : t.Enters here ss) :
    t.ensureDirectory here ss = (.ok (), t) := by
  rw [ensureDirectory, makeDirectory_of_enters h]
  exact if_pos (any_walk_iff.2 h)

theorem made_ensureDirectory (t : FileTree) (here ss : List String) (s : String) :
    Made here (ss ++ [s]) t (t.ensureDirectory here (ss ++ [s])) := by
  unfold ensureDirectory
  split
  · rename_i t' hmake
    obtain ⟨hgrows, henters⟩ := grows_makeDirectory hmake
    exact ⟨hgrows, iff_of_true rfl henters⟩
  · split
    · rename_i hdir
      exact ⟨.refl .., iff_of_true rfl (any_walk_iff.1 hdir)⟩
    · rename_i hdir
      exact ⟨.refl .., iff_of_false (fun h => nomatch h) (mt any_walk_iff.2 hdir)⟩

/-! ### Directories made along steps -/

/-- Steps from a directory pass only directories and what is missing, and none is too long. -/
structure Clears (t : FileTree) (here ss : List String) : Prop where
  start : t.IsDirectory here
  clear : ∀ q, Passes here ss q → t.kind? q = none ∨ t.IsDirectory q
  fits : Fits ss

instance (t : FileTree) (here ss : List String) : Decidable (t.Clears here ss) :=
  decidable_of_iff
    (t.IsDirectory here ∧
      (∀ l ∈ ss.inits, t.kind? (settle here l) = none ∨ t.IsDirectory (settle here l)) ∧ Fits ss)
    ⟨fun h => ⟨h.1, forall_passes_iff.2 h.2.1, h.2.2⟩,
      fun h => ⟨h.start, forall_passes_iff.1 h.clear, h.fits⟩⟩

theorem Enters.clears (h : t.Enters here ss) : t.Clears here ss where
  start := h.start
  clear q hq := Or.inr (h.directories q hq)
  fits := h.fits

namespace Clears

theorem of_prefix (h : t.Clears here ss) (hl : l <+: ss) : t.Clears here l where
  start := h.start
  clear q hq := h.clear q (hq.of_prefix hl)
  fits s hs := h.fits s (hl.subset hs)

theorem grows (h : t.Clears here ss) (hgrows : Grows here l t t') : t'.Clears here ss where
  start := hgrows.keeps.isDirectory _ h.start
  clear q hq := by
    rcases hgrows.kind q with heq | ⟨-, hdir, -⟩
    · rw [IsDirectory, heq]
      exact h.clear q hq
    · exact Or.inr hdir
  fits := h.fits

theorem of_grows (h : t'.Clears here ss) (hgrows : Grows here l t t') : t.Clears here ss where
  start := hgrows.begins h.start
  clear q hq := by
    rcases hgrows.kind q with heq | ⟨hnone, -⟩
    · rw [IsDirectory, ← heq]
      exact h.clear q hq
    · exact Or.inl hnone
  fits := h.fits

end Clears

theorem clears_filter_iff : t.Clears here (ss.filter (· ≠ ".")) ↔ t.Clears here ss := by
  constructor
  · intro h
    exact ⟨h.start, fun q hq => h.clear q (passes_filter_iff.2 hq), fits_filter_iff.1 h.fits⟩
  · intro h
    exact ⟨h.start, fun q hq => h.clear q (passes_filter_iff.1 hq), fits_filter_iff.2 h.fits⟩

/-- Where no file is in the way, a walk stops only at what is missing. -/
theorem Clears.walk_error (h : t.Clears here ss) (herror : t.walk here ss = .error cause) :
    cause = .notFound := by
  induction ss generalizing here with
  | nil => cases herror
  | cons s ss ih =>
    obtain ⟨hs, hfits⟩ := List.forall_mem_cons.1 h.fits
    have hhere : t.kind? here = some .directory := h.start
    rw [walk, hhere, if_neg (by omega)] at herror
    have hclear (q : List String) (hq : Passes (step here s) ss q) :=
      h.clear q (passes_cons_iff.2 (Or.inr hq))
    rcases hclear _ (passes_start ..) with hnone | hdir
    · cases ss with
      | nil => cases herror
      | cons s' ss =>
        rw [walk, hnone] at herror
        exact (Except.error.inj herror).symm
    · exact ih ⟨hdir, hclear, hfits⟩ herror

theorem Clears.ensureDirectory (h : t.Clears here (ss ++ [s])) (hbefore : t.Enters here ss) :
    (t.ensureDirectory here (ss ++ [s])).1 = .ok () := by
  have hs : s.utf8ByteSize ≤ nameLimit := h.fits s (List.mem_append_right _ List.mem_cons_self)
  have hwalk : t.walk here (ss ++ [s]) = .ok (step (settle here ss) s) :=
    walk_append_eq_ok_iff.2 ⟨_, hbefore.walk, walk_cons_eq_ok_iff.2 ⟨hbefore.isDirectory, hs, rfl⟩⟩
  rcases settle_of_walk hwalk ▸ h.clear _ (passes_end ..) with hnone | hdir
  · have hmake := makeDirectory_eq_ok_iff.2 ⟨_, hwalk, hnone, rfl⟩
    rw [FileTree.ensureDirectory, hmake]
  · rw [ensureDirectory_of_enters (enters_iff_walk.2 ⟨_, hwalk, hdir⟩)]

/-- The steps come the last one first, so the induction is on those before the last. -/
theorem made_makeAlong (t : FileTree) (here before : List String) (s : String) :
    Made here (s :: before).reverse t (makeAlong here (s :: before) t) := by
  induction before generalizing s with
  | nil =>
    rw [makeAlong]
    split <;> exact made_ensureDirectory t here [] s
  | cons s' before ih =>
    have hprefix : (s' :: before).reverse <+: (s :: s' :: before).reverse := by
      rw [List.reverse_cons (a := s)]
      exact List.prefix_append _ _
    have hmade := ih s'
    rw [makeAlong]
    split
    · split
      · rename_i t₁ hbefore
        rw [hbefore] at hmade
        have hlast := made_ensureDirectory t₁ here (s' :: before).reverse s
        rw [← List.reverse_cons] at hlast
        have hgrows := hmade.grows.of_passes fun q hq => hq.of_prefix hprefix
        exact ⟨hgrows.trans hlast.grows, hlast.ok_iff⟩
      · rename_i cause t₁ hbefore
        rw [hbefore] at hmade
        have hblocked : ¬ t₁.Enters here (s' :: before).reverse :=
          fun henters => nomatch hmade.ok_iff.2 henters
        exact ⟨hmade.grows.of_passes fun q hq => hq.of_prefix hprefix,
          iff_of_false (fun h => nomatch h) fun h => hblocked (h.of_prefix hprefix)⟩
    · have hlast := made_ensureDirectory t here (s' :: before).reverse s
      rwa [← List.reverse_cons] at hlast

theorem makeAlong_of_enters {rs : List String} (h : t.Enters here rs.reverse) :
    makeAlong here rs t = (.ok (), t) := by
  cases rs with
  | nil => rfl
  | cons s before =>
    rw [makeAlong, makeDirectory_of_enters h]
    exact ensureDirectory_of_enters h

theorem grows_makeAlong (t : FileTree) (here rs : List String) :
    Grows here rs.reverse t (makeAlong here rs t).2 := by
  cases rs with
  | nil => exact .refl here [] t
  | cons s before => exact (made_makeAlong t here before s).grows

theorem enters_of_makeAlong {rs : List String} (hdir : t.IsDirectory here)
    (h : (makeAlong here rs t).1 = .ok ()) : (makeAlong here rs t).2.Enters here rs.reverse := by
  cases rs with
  | nil => exact enters_nil_iff.2 hdir
  | cons s before => exact (made_makeAlong t here before s).ok_iff.1 h

/-- A directory that cannot be made for what is missing before it is made after that. -/
theorem Clears.enters_or_notFound (h : t.Clears here (ss ++ [s])) :
    t.Enters here ss ∨ t.makeDirectory here (ss ++ [s]) = .error .notFound := by
  cases hwalk : t.walk here (ss ++ [s]) with
  | ok place => exact Or.inl (enters_of_walk_concat hwalk)
  | error cause =>
    obtain rfl := h.walk_error hwalk
    right
    simp only [makeDirectory, hwalk]

theorem Clears.makeAlong {rs : List String} (h : t.Clears here rs.reverse) :
    (makeAlong here rs t).1 = .ok () := by
  induction rs with
  | nil => rfl
  | cons s before ih =>
    rw [List.reverse_cons] at h
    have hbefore := ih (h.of_prefix (List.prefix_append _ _))
    have hgrows := grows_makeAlong t here before
    have henters := enters_of_makeAlong h.start hbefore
    rw [FileTree.makeAlong, List.reverse_cons]
    split
    · have hlast := (h.grows hgrows).ensureDirectory henters
      split
      · rename_i t₁ hmade
        rwa [hmade] at hlast
      · rename_i hmade
        rw [hmade] at hbefore
        cases hbefore
    · rename_i hfound
      have henters' := h.enters_or_notFound.resolve_right hfound
      exact h.ensureDirectory henters'

theorem makeAlong_eq_ok_iff {rs : List String} (hrs : rs ≠ []) :
    (makeAlong here rs t).1 = .ok () ↔ t.Clears here rs.reverse := by
  obtain ⟨s, before, rfl⟩ := List.exists_cons_of_ne_nil hrs
  have hmade := made_makeAlong t here before s
  constructor
  · intro h
    exact (hmade.ok_iff.1 h).clears.of_grows hmade.grows
  · exact Clears.makeAlong

/-! ### Directories of a path -/

theorem grows_makeDirectories (t : FileTree) (p : Path) :
    Grows (t.start p) p.steps t (t.makeDirectories p).2 := by
  unfold makeDirectories
  split
  · exact .refl ..
  split
  · exact .refl ..
  · have hgrows := grows_makeAlong t (t.start p) p.steps.reverse
    rwa [List.reverse_reverse] at hgrows

theorem makeDirectories_eq (hsteps : p.steps ≠ []) (hfault : p.fault = none) :
    t.makeDirectories p = makeAlong (t.start p) p.steps.reverse t := by
  rw [makeDirectories, if_neg hsteps, hfault]

/-- The directories of a path are there or can be made. -/
def Makes (t : FileTree) (p : Path) : Prop :=
  p.steps = [] ∨ p.fault = none ∧ t.Clears (t.start p) p.steps

instance (t : FileTree) (p : Path) : Decidable (t.Makes p) :=
  inferInstanceAs (Decidable (p.steps = [] ∨ p.fault = none ∧ t.Clears (t.start p) p.steps))

theorem makeDirectories_eq_ok_iff : (t.makeDirectories p).1 = .ok () ↔ t.Makes p := by
  unfold Makes
  by_cases hsteps : p.steps = []
  · rw [makeDirectories, if_pos hsteps]
    exact iff_of_true rfl (Or.inl hsteps)
  rw [or_iff_right hsteps]
  cases hfault : p.fault with
  | some cause =>
    rw [makeDirectories, if_neg hsteps, hfault]
    exact iff_of_false (fun h => nomatch h) fun h => nomatch h.1
  | none =>
    rw [makeDirectories_eq hsteps hfault, makeAlong_eq_ok_iff (mt List.reverse_eq_nil_iff.1 hsteps),
      List.reverse_reverse]
    exact (and_iff_right rfl).symm

example : ((⟨[], []⟩ : FileTree).makeDirectories (.ofString "/etc/prr")).2.IsDirectory
    ["etc", "prr"] := rfl

example : ((FileTree.directory [("blocked", .file .empty)]).makeDirectories
    (.ofString "blocked/sub")).1 = .error .notDirectory := rfl

/-- Directories that were made, or were there, are entered; and if one could not be made, they are
not. -/
theorem enters_makeDirectories_iff (hsteps : p.steps ≠ []) (hfault : p.fault = none) :
    (t.makeDirectories p).1 = .ok () ↔ (t.makeDirectories p).2.Enters (t.start p) p.steps := by
  rw [makeDirectories_eq hsteps hfault]
  obtain ⟨s, before, hrs⟩ := List.exists_cons_of_ne_nil (mt List.reverse_eq_nil_iff.1 hsteps)
  have hmade := (made_makeAlong t (t.start p) before s).ok_iff
  rwa [← hrs, List.reverse_reverse] at hmade

theorem makeDirectories_of_enters (hfault : p.fault = none) (h : t.Enters (t.start p) p.steps) :
    t.makeDirectories p = (.ok (), t) := by
  by_cases hsteps : p.steps = []
  · rw [makeDirectories, if_pos hsteps]
  · rw [makeDirectories_eq hsteps hfault]
    exact makeAlong_of_enters (by rwa [List.reverse_reverse])

/-! ### Files -/

/-- Where the last step of a path is to a name, what is at the path is in the directory before. -/
theorem follow_eq_ok_iff (hsteps : p.steps = ss ++ [name]) (hs : IsName name)
    (hslash : p.slash = false) :
    t.follow p = .ok k ↔
      p.fault = none ∧ t.Enters (t.start p) ss ∧
        t.kind? (settle (t.start p) ss ++ [name]) = some k := by
  unfold follow
  split
  · rename_i hfault
    simp [hfault]
  rename_i hfault
  rw [hfault, hsteps]
  split
  · rename_i hwalk
    refine iff_of_false (fun h => nomatch h) fun h => ?_
    cases hwalk.symm.trans (walk_concat_of_enters h.2.1 hs)
  · rename_i place hwalk
    obtain rfl := (settle_concat hs _ _).symm.trans (settle_of_walk hwalk)
    have henters := enters_of_walk_concat hwalk
    split
    · rename_i hk
      simp [hk]
    · rename_i bytes hk
      simp [hk, hslash, henters]
    · rename_i hk
      simp [hk, henters]

/-- Before the last step of a path to something, all steps are into directories. -/
theorem enters_of_follow (hsteps : p.steps ≠ []) (h : t.follow p = .ok k) :
    p.fault = none ∧ t.Enters (t.start p) p.directory.steps := by
  unfold follow at h
  split at h
  · cases h
  rename_i hfault
  split at h
  · cases h
  · rename_i hwalk
    rw [← List.dropLast_concat_getLast hsteps] at hwalk
    exact ⟨hfault, enters_of_walk_concat hwalk⟩

theorem enters_of_follow_directory (h : t.follow p = .ok .directory) :
    t.Enters (t.start p) p.steps := by
  unfold follow at h
  split at h
  · cases h
  split at h
  · cases h
  rename_i place hwalk
  refine enters_iff_walk.2 ⟨place, hwalk, ?_⟩
  split at h
  · cases h
  · split at h <;> cases h
  · assumption

theorem write_eq_ok_iff :
    t.write p name bytes = .ok t' ↔
      p.fault = none ∧ t.Enters (t.start p) p.steps ∧
        (IsName name ∧ ¬ t.IsDirectory (settle (t.start p) p.steps ++ [name])) ∧
        t' = t.put (.file bytes) (settle (t.start p) p.steps ++ [name]) := by
  unfold write
  split
  · rename_i hfault
    simp [hfault]
  rename_i hfault
  rw [hfault]
  split
  · rename_i hwalk
    refine iff_of_false (fun h => nomatch h) fun h => ?_
    cases hwalk.symm.trans (walk_concat_of_enters h.2.1 h.2.2.1.1)
  · rename_i place hwalk
    obtain ⟨mid, hmid, -, hdir | ⟨hs, rfl⟩⟩ := walk_concat_eq_ok hwalk
    · rw [show t.kind? place = some .directory from hdir]
      refine iff_of_false (fun h => nomatch h) fun h => ?_
      obtain ⟨-, henters, ⟨hs, hfree⟩, -⟩ := h
      obtain rfl := Except.ok.inj (hwalk.symm.trans (walk_concat_of_enters henters hs))
      exact hfree hdir
    · obtain rfl := settle_of_walk hmid
      have henters := enters_of_walk_concat hwalk
      split
      · rename_i hk
        simp [IsDirectory, hk]
      · rename_i hk
        simp [IsDirectory, hk, henters, hs, eq_comm]
      · rename_i hk
        simp [IsDirectory, hk, henters, hs, eq_comm]

/-- A file that is written is there with its bytes, and elsewhere is what was there. -/
theorem kind?_write (h : t.write p name bytes = .ok t') (q : List String) :
    t'.kind? q = if q = settle (t.start p) p.steps ++ [name] then some (.file bytes)
      else t.kind? q := by
  obtain ⟨-, henters, ⟨-, hfree⟩, rfl⟩ := write_eq_ok_iff.1 h
  exact kind?_put henters.isDirectory hfree (.file bytes) q

theorem working_write (h : t.write p name bytes = .ok t') : t'.working = t.working := by
  obtain ⟨-, -, -, rfl⟩ := write_eq_ok_iff.1 h
  rfl

theorem isDirectory_write (h : t.write p name bytes = .ok t') {q : List String}
    (hq : t.IsDirectory q) : t'.IsDirectory q := by
  have hne : q ≠ settle (t.start p) p.steps ++ [name] :=
    fun heq => (write_eq_ok_iff.1 h).2.2.1.2 (heq ▸ hq)
  exact (kind?_write h q).trans ((if_neg hne).trans hq)

theorem keeps_write (hnew : t.kind? (settle (t.start p) p.steps ++ [name]) = none)
    (h : t.write p name bytes = .ok t') : Keeps t t' where
  working := working_write h
  kind q k hk := by
    have hne : q ≠ settle (t.start p) p.steps ++ [name] := by
      intro heq
      rw [heq, hnew] at hk
      cases hk
    rw [kind?_write h, if_neg hne, hk]

end SelfReference.FileTree
