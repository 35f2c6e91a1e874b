import SelfReference.Proofs.Construction

/-!
# The order of definitions

The graph of a list of definitions holds no trace of their order.  A list is at fault in a name
wherever its definitions stand, and a fault of a reference is looked for only among sorted
definitions, so it is reported alike.
-/

namespace SelfReference

namespace Error

/-- A name is blank, or was used before. -/
def IsNameFault : Error → Prop
  | malformedFormula _ .emptyName | duplicateSentence _ => True
  | _ => False

/-- A reference is blank, or to no sentence. -/
def IsReferenceFault : Error → Prop
  | malformedFormula _ .emptyReference | undefinedReference _ _ => True
  | _ => False

end Error

namespace SentenceGraph

theorem isNameFault_of_nameFault? {seen : List String} {ds : List (String × Formula)} {e : Error}
    (h : nameFault? seen ds = some e) : e.IsNameFault := by
  induction ds generalizing seen with
  | nil => cases h
  | cons d ds ih =>
    obtain ⟨n, f⟩ := d
    unfold nameFault? at h
    split at h
    · cases h
      trivial
    split at h
    · cases h
      trivial
    · exact ih h

theorem isReferenceFault_of_resolutionFault? {s : Sentences} {e : Error}
    (h : resolutionFault? s = some e) : e.IsReferenceFault := by
  obtain ⟨d, -, hd⟩ := List.exists_of_findSome?_eq_some h
  obtain ⟨r, -, hr⟩ := List.exists_of_findSome?_eq_some hd
  unfold referenceFault? at hr
  split at hr
  · cases hr
    trivial
  split at hr
  · cases hr
  · cases hr
    trivial

theorem ofDefinitions_eq_error_iff {ds : List (String × Formula)} {e : Error} :
    ofDefinitions ds = .error e ↔ nameFault? [] ds = some e ∨
      nameFault? [] ds = none ∧ resolutionFault? (NameMap.ofList ds) = some e := by
  unfold ofDefinitions
  split
  · rename_i e' hn
    simp [hn]
  · rename_i hn
    split
    · rename_i e' hr
      simp [hn, hr]
    · rename_i hr
      simp [hn, hr]

theorem nameFault?_eq_none_of_perm {ds ds' : List (String × Formula)} (hperm : ds.Perm ds')
    (h : nameFault? [] ds = none) : nameFault? [] ds' = none := by
  obtain ⟨hblank, hnodup, -⟩ := nameFault?_eq_none_iff.1 h
  have hblank' : ∀ d ∈ ds', Text.isBlank d.1 = false := fun d hd => hblank d (hperm.mem_iff.2 hd)
  have hnodup' : (ds'.map (·.1)).Nodup := (hperm.map _).nodup_iff.1 hnodup
  exact nameFault?_eq_none_iff.2 ⟨hblank', hnodup', fun _ _ => List.not_mem_nil⟩

theorem ofDefinitions_of_perm {ds ds' : List (String × Formula)} (hperm : ds.Perm ds')
    {g : SentenceGraph} (h : ofDefinitions ds = .ok g) : ofDefinitions ds' = .ok g := by
  obtain ⟨hn, hr, hs⟩ := ofDefinitions_eq_ok_iff.1 h
  have hmap := NameMap.ofList_eq_of_perm hperm (nodup_of_nameFault? hn).1
  rw [hmap] at hr hs
  exact ofDefinitions_eq_ok_iff.2 ⟨nameFault?_eq_none_of_perm hperm hn, hr, hs⟩

/-- Reordered definitions with a fault have a fault of the same kind, and the same one where it lies
in a reference. -/
theorem ofDefinitions_error_of_perm {ds ds' : List (String × Formula)} (hperm : ds.Perm ds')
    {e : Error} (h : ofDefinitions ds = .error e) :
    (e.IsNameFault ∧ ∃ e', ofDefinitions ds' = .error e' ∧ e'.IsNameFault) ∨
      (e.IsReferenceFault ∧ ofDefinitions ds' = .error e) := by
  rcases ofDefinitions_eq_error_iff.1 h with hn | ⟨hn, hr⟩
  · have hfault : nameFault? [] ds' ≠ none := fun hnone => by
      rw [nameFault?_eq_none_of_perm hperm.symm hnone] at hn
      cases hn
    obtain ⟨e', he'⟩ := Option.ne_none_iff_exists'.1 hfault
    exact Or.inl ⟨isNameFault_of_nameFault? hn, e', ofDefinitions_eq_error_iff.2 (Or.inl he'),
      isNameFault_of_nameFault? he'⟩
  · have hmap := NameMap.ofList_eq_of_perm hperm (nodup_of_nameFault? hn).1
    have hr' : resolutionFault? (NameMap.ofList ds') = some e := hmap ▸ hr
    have hn' := nameFault?_eq_none_of_perm hperm hn
    exact Or.inr ⟨isReferenceFault_of_resolutionFault? hr,
      ofDefinitions_eq_error_iff.2 (Or.inr ⟨hn', hr'⟩)⟩

end SentenceGraph

end SelfReference
