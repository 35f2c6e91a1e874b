import Mathlib.Data.List.Infix
import SelfReference.FileTree

/-!
# Walks in a file tree

What is at a place tells whether a walk goes on from there, so a walk leads into a directory exactly
when all the places that its steps settle to are directories.  A write changes what is at one place.
-/

namespace SelfReference.FileTree

variable {t t' : FileTree} {here mid place l r ss : List String} {s : String} {k : FileKind}
  {cause : FileError}

/-! ### Places -/

def IsDirectory (t : FileTree) (place : List String) : Prop := t.kind? place = some .directory

instance (t : FileTree) (place : List String) : Decidable (t.IsDirectory place) :=
  inferInstanceAs (Decidable (t.kind? place = some .directory))

theorem kindIn?_of_append {entries : List (String × FileNode)} (hr : r ≠ [])
    (h : kindIn? (l ++ r) entries = some k) : kindIn? l entries = some .directory := by
  induction l generalizing entries with
  | nil => rfl
  | cons s l ih =>
    rw [List.cons_append, kindIn?] at h
    rw [kindIn?]
    cases hlookup : entries.lookup s with
    | none => simp [hlookup] at h
    | some node =>
      cases node with
      | file bytes => simp [hlookup, hr] at h
      | directory inner =>
        rw [hlookup] at h
        exact ih h

/-- What is at a place is in a directory. -/
theorem IsDirectory.of_append (hr : r ≠ []) (h : t.kind? (l ++ r) = some k) : t.IsDirectory l :=
  kindIn?_of_append hr h

theorem IsDirectory.of_prefix (hl : l <+: place) (h : t.IsDirectory place) : t.IsDirectory l := by
  obtain ⟨r, rfl⟩ := hl
  by_cases hr : r = []
  · rwa [hr, List.append_nil] at h
  · exact .of_append hr h

section Entries

variable {entries : List (String × FileNode)}

theorem kindIn?_setEntry_self (k : FileKind) (s : String) :
    kindIn? [s] (setEntry s k.node entries) = some k := by
  rw [kindIn?, lookup_setEntry, if_pos rfl]
  cases k <;> rfl

/-- Nothing is below what is new. -/
theorem kindIn?_setEntry_below (k : FileKind) (s : String) {q : List String} (hq : q ≠ []) :
    kindIn? (s :: q) (setEntry s k.node entries) = none := by
  rw [kindIn?, lookup_setEntry, if_pos rfl]
  cases k with
  | file bytes => exact if_neg hq
  | directory =>
    obtain ⟨s', q, rfl⟩ := List.exists_cons_of_ne_nil hq
    rfl

theorem kindIn?_setEntry_directory (s : String) (inner : List (String × FileNode))
    (q : List String) :
    kindIn? (s :: q) (setEntry s (.directory inner) entries) = kindIn? q inner := by
  rw [kindIn?, lookup_setEntry, if_pos rfl]

theorem kindIn?_setEntry_of_ne {s' : String} (hs : s' ≠ s) (u : FileNode) (q : List String) :
    kindIn? (s' :: q) (setEntry s u entries) = kindIn? (s' :: q) entries := by
  rw [kindIn?, lookup_setEntry, if_neg hs]
  rfl

theorem kindIn?_putIn (hdir : kindIn? l entries = some .directory)
    (hfree : kindIn? (l ++ [s]) entries ≠ some .directory) (k : FileKind) (q : List String) :
    kindIn? q (putIn k (l ++ [s]) entries) =
      if q = l ++ [s] then some k else kindIn? q entries := by
  induction l generalizing entries q with
  | nil =>
    cases q with
    | nil => rfl
    | cons s' q =>
      rw [List.nil_append, putIn, if_pos rfl]
      by_cases hs : s' = s
      · subst hs
        by_cases hq : q = []
        · rw [hq, kindIn?_setEntry_self, if_pos rfl]
        · -- nothing was below the place, and nothing is below it now
          have hbelow : kindIn? (s' :: q) entries = none := by
            cases hk : kindIn? (s' :: q) entries with
            | none => rfl
            | some k' => exact absurd (kindIn?_of_append (l := [s']) hq hk) hfree
          have hne : s' :: q ≠ [s'] := fun heq => hq (List.cons.inj heq).2
          rw [kindIn?_setEntry_below k s' hq, if_neg hne, hbelow]
      · have hne : s' :: q ≠ [s] := fun heq => hs (List.cons.inj heq).1
        rw [kindIn?_setEntry_of_ne hs, if_neg hne]
  | cons a l ih =>
    rw [kindIn?] at hdir
    rw [List.cons_append, kindIn?] at hfree
    obtain ⟨inner, hlookup⟩ : ∃ inner, entries.lookup a = some (.directory inner) := by
      split at hdir
      · cases hdir
      · split at hdir <;> cases hdir
      · exact ⟨_, ‹_›⟩
    rw [hlookup] at hdir hfree
    cases q with
    | nil => rfl
    | cons a' q =>
      rw [List.cons_append, putIn, if_neg (List.concat_ne_nil s l), hlookup]
      by_cases ha : a' = a
      · subst ha
        have hinner : kindIn? (a' :: q) entries = kindIn? q inner := by rw [kindIn?, hlookup]
        simp only [kindIn?_setEntry_directory, ih hdir hfree q, hinner, List.cons.injEq, true_and]
      · have hne : a' :: q ≠ a :: (l ++ [s]) := fun heq => ha (List.cons.inj heq).1
        rw [kindIn?_setEntry_of_ne ha, if_neg hne]

end Entries

/-- What is put at a place is there, and elsewhere is what was there. -/
theorem kind?_put (hdir : t.IsDirectory l) (hfree : ¬ t.IsDirectory (l ++ [s])) (k : FileKind)
    (q : List String) : (t.put k (l ++ [s])).kind? q = if q = l ++ [s] then some k else t.kind? q :=
  kindIn?_putIn hdir hfree k q

/-! ### Steps -/

/-- A name of its own, not too long for a file or a directory. -/
structure IsName (s : String) : Prop where
  ne_self : s ≠ "."
  ne_parent : s ≠ ".."
  fits : s.utf8ByteSize ≤ nameLimit

instance (s : String) : Decidable (IsName s) :=
  decidable_of_iff (s ≠ "." ∧ s ≠ ".." ∧ s.utf8ByteSize ≤ nameLimit)
    ⟨fun h => ⟨h.1, h.2.1, h.2.2⟩, fun h => ⟨h.ne_self, h.ne_parent, h.fits⟩⟩

/-- The place that steps settle to, whatever is there and on the way. -/
def settle (here steps : List String) : List String := steps.foldl step here

theorem settle_append (here l r : List String) : settle here (l ++ r) = settle (settle here l) r :=
  List.foldl_append

theorem step_of_isName (hs : IsName s) (here : List String) : step here s = here ++ [s] := by
  rw [step, if_neg hs.ne_self, if_neg hs.ne_parent]

theorem settle_concat (hs : IsName s) (here ss : List String) :
    settle here (ss ++ [s]) = settle here ss ++ [s] := by
  rw [settle_append]
  exact step_of_isName hs _

/-- Steps to the directory itself do not count. -/
theorem settle_filter (here ss : List String) :
    settle here (ss.filter (· ≠ ".")) = settle here ss := by
  induction ss generalizing here with
  | nil => rfl
  | cons s ss ih =>
    by_cases hs : s = "."
    · rw [List.filter_cons_of_neg (by simp [hs]), ih, hs]
      rfl
    · rw [List.filter_cons_of_pos (by simp [hs])]
      exact ih _

/-- Steps without a step back lead further down. -/
theorem settle_of_forward (h : ".." ∉ ss) (here : List String) :
    settle here ss = here ++ ss.filter (· ≠ ".") := by
  induction ss generalizing here with
  | nil => exact (List.append_nil here).symm
  | cons s ss ih =>
    rw [List.mem_cons, not_or] at h
    show settle (step here s) ss = _
    by_cases hs : s = "."
    · rw [List.filter_cons_of_neg (by simp [hs]), step, if_pos hs, ih h.2]
    · rw [List.filter_cons_of_pos (by simp [hs]), step, if_neg hs, if_neg (Ne.symm h.1), ih h.2]
      simp

/-- From a directory, one step leads to a directory or to a name in it. -/
theorem step_cases (hdir : t.IsDirectory here) (hs : s.utf8ByteSize ≤ nameLimit) :
    t.IsDirectory (step here s) ∨ IsName s := by
  by_cases hself : s = "."
  · rw [step, if_pos hself]
    exact Or.inl hdir
  by_cases hparent : s = ".."
  · rw [step, if_neg hself, if_pos hparent]
    exact Or.inl (hdir.of_prefix (List.dropLast_prefix here))
  · exact Or.inr ⟨hself, hparent, hs⟩

/-! ### Walks -/

theorem walk_cons_eq_ok_iff :
    t.walk here (s :: ss) = .ok place ↔
      t.IsDirectory here ∧ s.utf8ByteSize ≤ nameLimit ∧ t.walk (step here s) ss = .ok place := by
  rw [walk, IsDirectory]
  split
  · rename_i hk
    simp [hk]
  · rename_i hk
    simp [hk]
  · rename_i hk
    split
    · simp [hk]
      omega
    · simp [hk]
      omega

theorem walk_append (t : FileTree) (here l r : List String) :
    t.walk here (l ++ r) = (t.walk here l).bind fun mid => t.walk mid r := by
  induction l generalizing here with
  | nil => rfl
  | cons s l ih =>
    rw [List.cons_append, walk, walk]
    split
    · rfl
    · rfl
    · split
      · rfl
      · exact ih _

theorem walk_append_eq_ok_iff :
    t.walk here (l ++ r) = .ok place ↔
      ∃ mid, t.walk here l = .ok mid ∧ t.walk mid r = .ok place := by
  rw [walk_append]
  cases t.walk here l with
  | error cause => simp [Except.bind]
  | ok mid => simp [Except.bind]

theorem settle_of_walk (h : t.walk here ss = .ok place) : settle here ss = place := by
  induction ss generalizing here with
  | nil => exact Except.ok.inj h
  | cons s ss ih => exact ih (walk_cons_eq_ok_iff.1 h).2.2

theorem walk_mono (hkeep : ∀ q, t.IsDirectory q → t'.IsDirectory q)
    (h : t.walk here ss = .ok place) : t'.walk here ss = .ok place := by
  induction ss generalizing here with
  | nil => exact h
  | cons s ss ih =>
    obtain ⟨hdir, hs, hrest⟩ := walk_cons_eq_ok_iff.1 h
    exact walk_cons_eq_ok_iff.2 ⟨hkeep _ hdir, hs, ih hrest⟩

/-- The last step of a walk is from a directory to a directory or to a name in it. -/
theorem walk_concat_eq_ok (h : t.walk here (ss ++ [s]) = .ok place) :
    ∃ mid, t.walk here ss = .ok mid ∧ t.IsDirectory mid ∧
      (t.IsDirectory place ∨ IsName s ∧ place = mid ++ [s]) := by
  obtain ⟨mid, hmid, hlast⟩ := walk_append_eq_ok_iff.1 h
  obtain ⟨hdir, hs, hend⟩ := walk_cons_eq_ok_iff.1 hlast
  have hplace : step mid s = place := Except.ok.inj hend
  refine ⟨mid, hmid, hdir, ?_⟩
  rcases step_cases hdir hs with hstep | hname
  · exact Or.inl (hplace ▸ hstep)
  · exact Or.inr ⟨hname, hplace ▸ step_of_isName hname mid⟩

theorem start_of_walk (hss : ss ≠ []) (h : t.walk here ss = .ok place) : t.IsDirectory here := by
  obtain ⟨s, ss, rfl⟩ := List.exists_cons_of_ne_nil hss
  exact (walk_cons_eq_ok_iff.1 h).1

/-! ### Places on the way -/

/-- Steps from a place pass another, at the start, on the way or at the end. -/
def Passes (here ss q : List String) : Prop := ∃ l, l <+: ss ∧ settle here l = q

theorem forall_passes_iff {P : List String → Prop} :
    (∀ q, Passes here ss q → P q) ↔ ∀ l ∈ ss.inits, P (settle here l) := by
  constructor
  · intro h l hl
    exact h _ ⟨l, (List.mem_inits l ss).1 hl, rfl⟩
  · rintro h _ ⟨l, hl, rfl⟩
    exact h l ((List.mem_inits l ss).2 hl)

instance (here ss q : List String) : Decidable (Passes here ss q) :=
  decidable_of_iff (∃ l ∈ ss.inits, settle here l = q) (by simp only [Passes, List.mem_inits])

theorem passes_start (here ss : List String) : Passes here ss here := ⟨[], List.nil_prefix, rfl⟩

theorem passes_end (here ss : List String) : Passes here ss (settle here ss) :=
  ⟨ss, List.prefix_refl ss, rfl⟩

theorem Passes.of_prefix (h : Passes here l place) (hl : l <+: ss) : Passes here ss place := by
  obtain ⟨l', hl', hplace⟩ := h
  exact ⟨l', hl'.trans hl, hplace⟩

theorem passes_nil_iff : Passes here [] place ↔ place = here := by
  constructor
  · intro h
    obtain ⟨l, hl, hplace⟩ := h
    exact hplace ▸ List.prefix_nil.1 hl ▸ rfl
  · intro h
    exact h ▸ passes_start here []

theorem passes_cons_iff :
    Passes here (s :: ss) place ↔ place = here ∨ Passes (step here s) ss place := by
  constructor
  · intro h
    obtain ⟨l, hl, hplace⟩ := h
    cases l with
    | nil => exact Or.inl hplace.symm
    | cons s' l =>
      obtain ⟨rfl, hl'⟩ := List.cons_prefix_cons.1 hl
      exact Or.inr ⟨l, hl', hplace⟩
  · intro h
    rcases h with h | ⟨l, hl, hplace⟩
    · exact h ▸ passes_start here _
    · exact ⟨s :: l, List.cons_prefix_cons.2 ⟨rfl, hl⟩, hplace⟩

theorem passes_concat_iff :
    Passes here (ss ++ [s]) place ↔ Passes here ss place ∨ place = settle here (ss ++ [s]) := by
  constructor
  · intro h
    obtain ⟨l, hl, hplace⟩ := h
    rcases List.prefix_concat_iff.1 hl with rfl | hl
    · exact Or.inr hplace.symm
    · exact Or.inl ⟨l, hl, hplace⟩
  · intro h
    rcases h with h | h
    · exact h.of_prefix (List.prefix_append ss [s])
    · exact h ▸ passes_end here _

theorem Passes.prefix_of_forward (h : Passes here ss place) (hss : ".." ∉ ss) :
    place <+: settle here ss := by
  obtain ⟨l, hl, rfl⟩ := h
  rw [settle_of_forward hss, settle_of_forward fun hmem => hss (hl.subset hmem)]
  exact (List.prefix_append_right_inj here).2 (hl.filter _)

/-- Steps pass the same places without those to the directory itself. -/
theorem passes_filter_iff : Passes here (ss.filter (· ≠ ".")) place ↔ Passes here ss place := by
  constructor
  · intro h
    obtain ⟨l, hl, hplace⟩ := h
    obtain ⟨l', hl', rfl⟩ := List.prefix_filter_iff.1 hl
    exact ⟨l', hl', settle_filter here l' ▸ hplace⟩
  · intro h
    obtain ⟨l, hl, hplace⟩ := h
    exact ⟨l.filter (· ≠ "."), hl.filter _, (settle_filter here l).trans hplace⟩

/-- No step is too long. -/
def Fits (ss : List String) : Prop := ∀ s ∈ ss, s.utf8ByteSize ≤ nameLimit

instance (ss : List String) : Decidable (Fits ss) :=
  inferInstanceAs (Decidable (∀ s ∈ ss, s.utf8ByteSize ≤ nameLimit))

theorem fits_filter_iff : Fits (ss.filter (· ≠ ".")) ↔ Fits ss := by
  constructor
  · intro h s hs
    by_cases hself : s = "."
    · rw [hself]
      decide
    · exact h s (List.mem_filter.2 ⟨hs, decide_eq_true hself⟩)
  · intro h s hs
    exact h s (List.mem_filter.1 hs).1

/-! ### Steps into directories -/

/-- Steps each of which leads into a directory. -/
structure Enters (t : FileTree) (here ss : List String) : Prop where
  directories : ∀ q, Passes here ss q → t.IsDirectory q
  fits : Fits ss

theorem enters_nil_iff : t.Enters here [] ↔ t.IsDirectory here := by
  constructor
  · intro h
    exact h.directories here (passes_start here [])
  · intro h
    exact ⟨fun q hq => passes_nil_iff.1 hq ▸ h, List.forall_mem_nil _⟩

theorem enters_cons_iff :
    t.Enters here (s :: ss) ↔
      t.IsDirectory here ∧ s.utf8ByteSize ≤ nameLimit ∧ t.Enters (step here s) ss := by
  constructor
  · intro h
    obtain ⟨hs, hfits⟩ := List.forall_mem_cons.1 h.fits
    refine ⟨h.directories here (passes_start here _), hs, fun q hq => ?_, hfits⟩
    exact h.directories q (passes_cons_iff.2 (Or.inr hq))
  · intro h
    obtain ⟨hdir, hs, hrest⟩ := h
    refine ⟨fun q hq => ?_, List.forall_mem_cons.2 ⟨hs, hrest.fits⟩⟩
    rcases passes_cons_iff.1 hq with rfl | hq
    · exact hdir
    · exact hrest.directories q hq

theorem enters_iff_walk :
    t.Enters here ss ↔ ∃ place, t.walk here ss = .ok place ∧ t.IsDirectory place := by
  induction ss generalizing here with
  | nil =>
    rw [enters_nil_iff]
    constructor
    · intro h
      exact ⟨here, rfl, h⟩
    · intro h
      obtain ⟨place, hwalk, hdir⟩ := h
      exact Except.ok.inj hwalk ▸ hdir
  | cons s ss ih =>
    rw [enters_cons_iff, ih]
    simp only [walk_cons_eq_ok_iff]
    constructor
    · intro h
      obtain ⟨hdir, hs, place, hwalk, hend⟩ := h
      exact ⟨place, ⟨hdir, hs, hwalk⟩, hend⟩
    · intro h
      obtain ⟨place, ⟨hdir, hs, hwalk⟩, hend⟩ := h
      exact ⟨hdir, hs, place, hwalk, hend⟩

namespace Enters

theorem start (h : t.Enters here ss) : t.IsDirectory here := h.directories _ (passes_start ..)

theorem isDirectory (h : t.Enters here ss) : t.IsDirectory (settle here ss) :=
  h.directories _ (passes_end ..)

theorem walk (h : t.Enters here ss) : t.walk here ss = .ok (settle here ss) := by
  obtain ⟨place, hwalk, -⟩ := enters_iff_walk.1 h
  rw [hwalk, settle_of_walk hwalk]

theorem of_prefix (h : t.Enters here ss) (hl : l <+: ss) : t.Enters here l where
  directories q hq := h.directories q (hq.of_prefix hl)
  fits s hs := h.fits s (hl.subset hs)

theorem concat (h : t.Enters here ss) (hs : s.utf8ByteSize ≤ nameLimit)
    (hdir : t.IsDirectory (settle here (ss ++ [s]))) : t.Enters here (ss ++ [s]) where
  directories q hq := by
    rcases passes_concat_iff.1 hq with hq | rfl
    · exact h.directories q hq
    · exact hdir
  fits := List.forall_mem_append.2 ⟨h.fits, List.forall_mem_singleton.2 hs⟩

theorem mono (hkeep : ∀ q, t.IsDirectory q → t'.IsDirectory q) (h : t.Enters here ss) :
    t'.Enters here ss where
  directories q hq := hkeep q (h.directories q hq)
  fits := h.fits

end Enters

/-- Before its last step a walk enters directories. -/
theorem enters_of_walk_concat (h : t.walk here (ss ++ [s]) = .ok place) : t.Enters here ss := by
  obtain ⟨mid, hmid, hdir, -⟩ := walk_concat_eq_ok h
  exact enters_iff_walk.2 ⟨mid, hmid, hdir⟩

theorem walk_concat_of_enters (h : t.Enters here ss) (hs : IsName s) :
    t.walk here (ss ++ [s]) = .ok (settle here ss ++ [s]) := by
  refine walk_append_eq_ok_iff.2 ⟨_, h.walk, walk_cons_eq_ok_iff.2 ⟨h.isDirectory, hs.fits, ?_⟩⟩
  rw [step_of_isName hs]
  rfl

theorem enters_filter_iff : t.Enters here (ss.filter (· ≠ ".")) ↔ t.Enters here ss := by
  constructor
  · intro h
    exact ⟨fun q hq => h.directories q (passes_filter_iff.2 hq), fits_filter_iff.1 h.fits⟩
  · intro h
    exact ⟨fun q hq => h.directories q (passes_filter_iff.1 hq), fits_filter_iff.2 h.fits⟩

/-- Where steps without a step back lead to a directory, they lead there all the way. -/
theorem enters_of_forward (hss : ".." ∉ ss) (hfits : Fits ss)
    (hdir : t.IsDirectory (settle here ss)) : t.Enters here ss where
  directories _ hq := hdir.of_prefix (hq.prefix_of_forward hss)
  fits := hfits

end SelfReference.FileTree
