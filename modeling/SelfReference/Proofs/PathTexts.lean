import Mathlib.Data.List.DropRight
import SelfReference.FileTree

/-!
# Texts of paths

The text of the path before the last name is a beginning of the text of the path, and names what is
named before the last name.
-/

namespace SelfReference.FileTree.Path

variable {path name : String} {ps : List String}

/-- The parts of a path that lead somewhere else. -/
def names (path : String) : List String := (parts path).filter (!stays ·)

theorem filter_steps (path : String) : (ofString path).steps.filter (· ≠ ".") = names path := by
  rw [ofString, names, List.filter_filter]
  refine List.filter_congr fun s _ => ?_
  simp [stays, Bool.and_comm]

/-! ### The path before the last name -/

theorem trimmed_isPrefix (ps : List String) : trimmed ps <+: ps := List.rdropWhile_prefix stays ps

theorem filter_trimmed (ps : List String) :
    (trimmed ps).filter (!stays ·) = ps.filter (!stays ·) := by
  induction ps using List.reverseRecOn with
  | nil => rfl
  | append_singleton ps s ih =>
    have hconcat : trimmed (ps ++ [s]) = if stays s then trimmed ps else ps ++ [s] :=
      List.rdropWhile_concat stays ps s
    rw [hconcat]
    split
    · rename_i hs
      rw [ih, List.filter_append, List.filter_cons_of_neg (by simp [hs]), List.filter_nil,
        List.append_nil]
    · rfl

/-- Trimmed parts end with one that leads somewhere else. -/
theorem filter_dropLast_trimmed (ps : List String) :
    (trimmed ps).dropLast.filter (!stays ·) = (ps.filter (!stays ·)).dropLast := by
  rw [← filter_trimmed ps]
  by_cases h : trimmed ps = []
  · rw [h]
    rfl
  · have hlast : ¬ stays ((trimmed ps).getLast h) = true := List.rdropWhile_last_not stays ps h
    conv => rhs; rw [← List.dropLast_concat_getLast h]
    rw [List.filter_append, List.filter_cons_of_pos (by simp [hlast]), List.filter_nil,
      List.dropLast_concat]

/-- The parts of the path before the last name. -/
def partsBefore (path : String) : List String := trimmed (trimmed (parts path)).dropLast

theorem partsBefore_isPrefix (path : String) : partsBefore path <+: parts path :=
  (trimmed_isPrefix _).trans ((List.dropLast_prefix _).trans (trimmed_isPrefix _))

theorem parts_parent (h : partsBefore path ≠ []) : parts (parent path) = partsBefore path := by
  have hparts : ∀ part ∈ (partsBefore path).map String.toList, '/' ∉ part := by
    intro part hpart
    obtain ⟨s, hs, rfl⟩ := List.mem_map.1 hpart
    obtain ⟨cs, hcs, rfl⟩ := List.mem_map.1 ((partsBefore_isPrefix path).subset hs)
    rw [String.toList_ofList]
    exact Text.not_mem_of_mem_split '/' _ cs hcs
  have hsplit : Text.split '/' (parent path).toList = (partsBefore path).map String.toList := by
    rw [parent, Text.joined, String.toList_ofList]
    exact Text.split_join (mt List.map_eq_nil_iff.1 h) hparts
  rw [parts, hsplit, List.map_map]
  simp

theorem names_parent (path : String) : names (parent path) = (names path).dropLast := by
  rw [names, names, ← filter_dropLast_trimmed, ← filter_trimmed (trimmed (parts path)).dropLast]
  by_cases h : partsBefore path = []
  · rw [show parent path = "" from congrArg (Text.joined "/") h,
      show trimmed (trimmed (parts path)).dropLast = [] from h]
    decide
  · rw [parts_parent h, partsBefore]

/-- The path before the last name takes fewer steps, and the same ones. -/
theorem steps_parent_prefix (path : String) :
    (ofString (parent path)).steps <+: (ofString path).steps.dropLast := by
  by_cases hbefore : partsBefore path = []
  · rw [show parent path = "" from congrArg (Text.joined "/") hbefore]
    exact List.nil_prefix
  have hne : trimmed (parts path) ≠ [] := by
    intro hnil
    rw [partsBefore, hnil] at hbefore
    exact hbefore rfl
  have hlast : (trimmed (parts path)).getLast hne ≠ "" := by
    have hstays : ¬ stays ((trimmed (parts path)).getLast hne) = true :=
      List.rdropWhile_last_not stays _ hne
    intro hempty
    rw [hempty] at hstays
    exact hstays rfl
  obtain ⟨after, hafter⟩ := (trimmed_isPrefix (parts path)).filter (· ≠ "")
  rw [← List.dropLast_concat_getLast hne, List.filter_append,
    List.filter_cons_of_pos (by simpa using hlast), List.filter_nil, List.append_assoc] at hafter
  have hsteps : (ofString path).steps.dropLast =
      (trimmed (parts path)).dropLast.filter (· ≠ "") ++
        ([(trimmed (parts path)).getLast hne] ++ after).dropLast := by
    rw [← List.dropLast_append_of_ne_nil (by simp), hafter]
    rfl
  have hparts : (ofString (parent path)).steps = (partsBefore path).filter (· ≠ "") := by
    rw [ofString, parts_parent hbefore]
  rw [hparts, hsteps]
  exact ((trimmed_isPrefix _).filter _).trans (List.prefix_append _ _)

theorem join_parts (path : String) :
    Text.join ['/'] ((parts path).map String.toList) = path.toList := by
  rw [parts, List.map_map]
  simp [Function.comp_def, Text.join_split]

/-- The text of the path before the last name is a beginning of the text of the path. -/
theorem exists_parent_append (path : String) : ∃ rest, path = parent path ++ rest := by
  obtain ⟨after, hafter⟩ := partsBefore_isPrefix path
  have hprefix : (parent path).toList <+: path.toList := by
    rw [← join_parts path, ← hafter, List.map_append, parent, Text.joined, String.toList_ofList]
    exact Text.join_append_prefix _ _ _
  obtain ⟨rest, hrest⟩ := hprefix
  refine ⟨String.ofList rest, ?_⟩
  rw [← String.toList_inj, String.toList_append, String.toList_ofList, hrest]

theorem fault_parent (hsteps : (ofString (parent path)).steps ≠ [])
    (h : (ofString path).fault = none) : (ofString (parent path)).fault = none := by
  obtain ⟨rest, hrest⟩ := exists_parent_append path
  have hne : parent path ≠ "" := fun hempty => hsteps (hempty ▸ by decide)
  have hsize : path.utf8ByteSize = (parent path).utf8ByteSize + rest.utf8ByteSize := by
    conv => lhs; rw [hrest, String.utf8ByteSize_append]
  have hnull : '\x00' ∈ (parent path).toList → '\x00' ∈ path.toList := by
    intro hmem
    rw [hrest, String.toList_append]
    exact List.mem_append_left _ hmem
  simp only [ofString, textFault?] at h ⊢
  split at h
  · cases h
  rename_i hclean
  split at h
  · cases h
  split at h
  · cases h
  rw [if_neg (mt hnull hclean), if_neg hne, if_neg (by omega)]

theorem fromRoot_parent (hsteps : (ofString (parent path)).steps ≠ []) :
    (ofString (parent path)).fromRoot = (ofString path).fromRoot := by
  obtain ⟨rest, hrest⟩ := exists_parent_append path
  have hne : (parent path).toList ≠ [] := fun hempty => hsteps (by
    rw [String.toList_eq_nil_iff.1 hempty]
    decide)
  obtain ⟨c, cs, hcs⟩ := List.exists_cons_of_ne_nil hne
  simp only [ofString]
  conv => rhs; rw [hrest, String.toList_append]
  rw [hcs]
  rfl

/-! ### Paths with one name more -/

/-- A text that is one part of a path. -/
structure IsPart (name : String) : Prop where
  ne_empty : name ≠ ""
  unsplit : '/' ∉ name.toList

variable (h : IsPart name)
include h

theorem steps_join (path : String) :
    (ofString (join path name)).steps = (ofString path).steps ++ [name] := by
  have hname : Text.split '/' name.toList = [name.toList] := Text.split_of_not_mem h.unsplit
  have hslash (cs : List Char) : ((Text.split '/' (cs ++ '/' :: name.toList)).map
      String.ofList).filter (· ≠ "") =
        ((Text.split '/' cs).map String.ofList).filter (· ≠ "") ++ [name] := by
    rw [Text.split_append, hname]
    simp [h.ne_empty]
  unfold ofString join parts
  by_cases hempty : path = ""
  · rw [if_pos (Or.inl hempty), hempty, String.empty_append, hname]
    simp [h.ne_empty, Text.split]
  by_cases hlast : path.toList.getLast? = some '/'
  · obtain ⟨cs, hcs⟩ := List.getLast?_eq_some_iff.1 hlast
    rw [if_pos (Or.inr hlast), String.toList_append, hcs, List.append_assoc]
    simp only [List.singleton_append]
    rw [hslash, Text.split_append]
    simp [Text.split]
  · rw [if_neg (by simp [hempty, hlast]), String.toList_append, String.toList_append,
      List.append_assoc]
    exact hslash path.toList

theorem slash_join (path : String) : (ofString (join path name)).slash = false := by
  have hne : name.toList ≠ [] := mt String.toList_eq_nil_iff.1 h.ne_empty
  have hlast (cs : List Char) : (cs ++ name.toList).getLast? ≠ some '/' := by
    rw [List.getLast?_append_of_ne_nil cs hne]
    exact fun heq => h.unsplit (List.mem_of_getLast? heq)
  apply decide_eq_false
  unfold join
  split
  · rw [String.toList_append]
    exact hlast _
  · rw [String.toList_append]
    exact hlast _

theorem fromRoot_join (path : String) :
    (ofString (join path name)).fromRoot = (ofString path).fromRoot := by
  refine decide_eq_decide.2 ?_
  cases hpath : path.toList with
  | nil =>
    obtain rfl := String.toList_eq_nil_iff.1 hpath
    rw [join, if_pos (Or.inl rfl), String.empty_append]
    exact iff_of_false (fun heq => h.unsplit (List.mem_of_head? heq)) (fun heq => nomatch heq)
  | cons c cs =>
    unfold join
    split
    · rw [String.toList_append, hpath]
      exact Iff.rfl
    · rw [String.toList_append, String.toList_append, hpath]
      exact Iff.rfl

end SelfReference.FileTree.Path
