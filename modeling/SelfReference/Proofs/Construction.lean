import Mathlib.Data.List.TakeWhile
import SelfReference.Graph
import SelfReference.Proofs.NameMaps

/-!
# Graphs and their definitions

A list of definitions is accepted exactly if neither its names nor its references are at fault; the
graph then holds exactly the listed definitions.
-/

namespace SelfReference

theorem Sentences.mem_references_iff {f : Formula} {a : String} :
    a ∈ f.references ↔ a ∈ f.occurrences := NameMap.mem_names_tabulate ..

namespace SentenceGraph

theorem ofDefinitions_eq_ok_iff {ds : List (String × Formula)} {g : SentenceGraph} :
    ofDefinitions ds = .ok g ↔
      nameFault? [] ds = none ∧ resolutionFault? (NameMap.ofList ds) = none ∧
        g.sentences = NameMap.ofList ds := by
  unfold ofDefinitions
  constructor
  · intro h
    split at h
    · cases h
    rename_i hn
    split at h
    · cases h
    rename_i hr
    cases h
    exact ⟨hn, hr, rfl⟩
  · rintro ⟨hn, hr, hs⟩
    split
    · rename_i e he
      rw [hn] at he
      cases he
    split
    · rename_i e he
      rw [hr] at he
      cases he
    · exact congrArg Except.ok (ext_sentences hs.symm)

theorem exists_ofDefinitions {ds : List (String × Formula)} (hn : nameFault? [] ds = none)
    (hr : resolutionFault? (NameMap.ofList ds) = none) : ∃ g, ofDefinitions ds = .ok g := by
  unfold ofDefinitions
  split
  · rename_i e he
    rw [hn] at he
    cases he
  split
  · rename_i e he
    rw [hr] at he
    cases he
  · exact ⟨_, rfl⟩

theorem nodup_of_nameFault? {seen : List String} {ds : List (String × Formula)}
    (h : nameFault? seen ds = none) :
    (ds.map (·.1)).Nodup ∧ ∀ n ∈ ds.map (·.1), n ∉ seen := by
  induction ds generalizing seen with
  | nil => simp
  | cons d ds ih =>
    obtain ⟨n, f⟩ := d
    unfold nameFault? at h
    split at h
    · cases h
    split at h
    · cases h
    rename_i hseen
    obtain ⟨hnodup, hfresh⟩ := ih h
    rw [List.map_cons, List.nodup_cons]
    refine ⟨⟨fun hmem => hfresh n hmem (List.mem_cons_self ..), hnodup⟩, fun m hm => ?_⟩
    rcases List.mem_cons.1 hm with rfl | hm
    · exact hseen
    · exact fun hmem => hfresh m hm (List.mem_cons_of_mem _ hmem)

theorem formula?_eq_some_iff {ds : List (String × Formula)} {g : SentenceGraph}
    (h : ofDefinitions ds = .ok g) {n : String} {f : Formula} :
    g.formula? n = some f ↔ (n, f) ∈ ds := by
  obtain ⟨hn, -, hs⟩ := ofDefinitions_eq_ok_iff.1 h
  rw [formula?, hs, NameMap.get?_ofList_eq_some_iff (nodup_of_nameFault? hn).1]

theorem mem_names_ofDefinitions {ds : List (String × Formula)} {g : SentenceGraph}
    (h : ofDefinitions ds = .ok g) {n : String} : n ∈ g.names ↔ n ∈ ds.map (·.1) := by
  obtain ⟨hn, -, hs⟩ := ofDefinitions_eq_ok_iff.1 h
  rw [names, hs, NameMap.mem_names_ofList (nodup_of_nameFault? hn).1]

/-! ### Which definitions are accepted -/

/-- A name is blank exactly when trimming leaves nothing of it. -/
theorem isBlank_iff_trim (s : String) :
    Text.isBlank s = true ↔ Text.trimBlank s.toList = [] := by
  have hnil : s.toList.all Text.isBlankChar = true ↔ s.toList.dropWhile Text.isBlankChar = [] := by
    rw [List.dropWhile_eq_nil_iff, List.all_eq_true]
  rw [Text.isBlank, hnil, Text.trimBlank, List.reverse_eq_nil_iff]
  constructor
  · intro h
    rw [h]
    rfl
  · -- trimming at the end leaves the first character that is not blank
    intro h
    by_contra hne
    have hfirst := List.head_dropWhile_not Text.isBlankChar hne
    have hblank := List.dropWhile_eq_nil_iff.1 h _ (List.mem_reverse.2 (List.head_mem hne))
    exact Bool.false_ne_true (hfirst.symm.trans hblank)

theorem nameFault?_eq_none_iff {seen : List String} {ds : List (String × Formula)} :
    nameFault? seen ds = none ↔
      (∀ d ∈ ds, Text.isBlank d.1 = false) ∧ (ds.map (·.1)).Nodup ∧
        ∀ n ∈ ds.map (·.1), n ∉ seen := by
  constructor
  · intro h
    exact ⟨not_isBlank_of_nameFault? h, nodup_of_nameFault? h⟩
  induction ds generalizing seen with
  | nil => exact fun _ => rfl
  | cons d ds ih =>
    obtain ⟨n, f⟩ := d
    rintro ⟨hblank, hnodup, hfresh⟩
    rw [List.map_cons, List.nodup_cons] at hnodup
    have hn : Text.isBlank n = false := hblank (n, f) (List.mem_cons_self ..)
    have hseen : n ∉ seen := hfresh n (List.mem_cons_self ..)
    have hrest : nameFault? (n :: seen) ds = none := by
      refine ih ⟨fun d hd => hblank d (List.mem_cons_of_mem _ hd), hnodup.2, fun m hm hmem => ?_⟩
      rcases List.mem_cons.1 hmem with rfl | hmem
      · exact hnodup.1 hm
      · exact hfresh m (List.mem_cons_of_mem _ hm) hmem
    rw [nameFault?, if_neg (by simp [hn]), if_neg hseen, hrest]

theorem referenceFault?_eq_none_iff {s : Sentences} (hnamed : ∀ n ∈ s.names, Text.isBlank n = false)
    {n r : String} : referenceFault? s n r = none ↔ r ∈ s.names := by
  refine ⟨mem_names_of_referenceFault?, fun hr => ?_⟩
  have hblank : Text.isBlank r = false := hnamed r hr
  rw [referenceFault?, if_neg (by simp [hblank]), if_pos (s.contains_iff_mem.2 hr)]

theorem resolutionFault?_eq_none_iff {s : Sentences}
    (hnamed : ∀ n ∈ s.names, Text.isBlank n = false) :
    resolutionFault? s = none ↔
      ∀ n f, s.get? n = some f → ∀ r ∈ f.occurrences, r ∈ s.names := by
  unfold resolutionFault?
  simp only [List.findSome?_eq_none_iff, referenceFault?_eq_none_iff hnamed, Prod.forall,
    ← NameMap.get?_eq_some_iff, Sentences.mem_references_iff]

/-- A list of definitions is accepted exactly if its names are not blank and differ, and every
reference is to one of them. -/
theorem exists_ofDefinitions_iff {ds : List (String × Formula)} :
    (∃ g, ofDefinitions ds = .ok g) ↔
      (∀ d ∈ ds, Text.isBlank d.1 = false) ∧ (ds.map (·.1)).Nodup ∧
        ∀ d ∈ ds, ∀ r ∈ d.2.occurrences, r ∈ ds.map (·.1) := by
  have hiff : (∃ g, ofDefinitions ds = .ok g) ↔
      nameFault? [] ds = none ∧ resolutionFault? (NameMap.ofList ds) = none := by
    constructor
    · rintro ⟨g, hg⟩
      obtain ⟨hn, hr, -⟩ := ofDefinitions_eq_ok_iff.1 hg
      exact ⟨hn, hr⟩
    · rintro ⟨hn, hr⟩
      exact exists_ofDefinitions hn hr
  rw [hiff, nameFault?_eq_none_iff, and_assoc]
  refine and_congr_right fun hblank => ?_
  have hfresh : ∀ n ∈ ds.map (·.1), n ∉ ([] : List String) := fun _ _ => List.not_mem_nil
  rw [and_assoc, and_iff_right hfresh]
  refine and_congr_right fun hnodup => ?_
  have hnamed : ∀ n ∈ (NameMap.ofList ds).names, Text.isBlank n = false := by
    intro n hn
    rw [NameMap.mem_names_ofList hnodup, List.mem_map] at hn
    obtain ⟨d, hd, rfl⟩ := hn
    exact hblank d hd
  simp only [resolutionFault?_eq_none_iff hnamed, NameMap.get?_ofList_eq_some_iff hnodup,
    NameMap.mem_names_ofList hnodup, Prod.forall]

/-- A graph is what its own entries define. -/
theorem ofDefinitions_entries (g : SentenceGraph) : ofDefinitions g.sentences.entries = .ok g := by
  have hget (n : String) (f : Formula) (h : (n, f) ∈ g.sentences.entries) :
      g.sentences.get? n = some f := g.sentences.get?_eq_some_iff.2 h
  have haccepted : ∃ h, ofDefinitions g.sentences.entries = .ok h := by
    refine exists_ofDefinitions_iff.2 ⟨fun d hd => ?_, g.sentences.names_nodup, fun d hd r hr => ?_⟩
    · exact g.named d.1 (List.mem_map_of_mem hd)
    · exact g.resolved d.1 d.2 (hget d.1 d.2 hd) r (Sentences.mem_references_iff.2 hr)
  obtain ⟨h, hh⟩ := haccepted
  obtain ⟨-, -, hs⟩ := ofDefinitions_eq_ok_iff.1 hh
  rw [hh, ext_sentences (hs.trans g.sentences.ofList_entries)]

/-! ### Graphs that differ formula by formula -/

/-- Two graphs over the same names, with a relation between the formulas of each name. -/
structure Corresponds (R : Formula → Formula → Prop) (g g' : SentenceGraph) : Prop where
  names_eq : g'.names = g.names
  formula? : ∀ n f, g.formula? n = some f → ∃ f', g'.formula? n = some f' ∧ R f f'

namespace Corresponds

variable {R : Formula → Formula → Prop} {g g' g'' : SentenceGraph}

theorem refl (hR : ∀ f, R f f) (g : SentenceGraph) : Corresponds R g g :=
  ⟨rfl, fun _ f hf => ⟨f, hf, hR f⟩⟩

theorem trans (hR : ∀ f f' f'', R f f' → R f' f'' → R f f'') (h : Corresponds R g g')
    (h' : Corresponds R g' g'') : Corresponds R g g'' := by
  refine ⟨h'.names_eq.trans h.names_eq, fun n f hf => ?_⟩
  obtain ⟨f', hf', hff'⟩ := h.formula? n f hf
  obtain ⟨f'', hf'', hff''⟩ := h'.formula? n f' hf'
  exact ⟨f'', hf'', hR f f' f'' hff' hff''⟩

/-- A sentence has formulas in both graphs, which are related, or in neither. -/
theorem formula?_cases (h : Corresponds R g g') (n : String) :
    (g.formula? n = none ∧ g'.formula? n = none) ∨
    ∃ f f', g.formula? n = some f ∧ g'.formula? n = some f' ∧ R f f' := by
  cases hf : g.formula? n with
  | some f =>
    obtain ⟨f', hf', hff'⟩ := h.formula? n f hf
    exact Or.inr ⟨f, f', rfl, hf', hff'⟩
  | none =>
    have hnames : n ∉ g'.names := h.names_eq ▸ g.sentences.get?_eq_none_iff.1 hf
    exact Or.inl ⟨rfl, g'.sentences.get?_eq_none_iff.2 hnames⟩

end Corresponds

section Corresponds

variable {R : Formula → Formula → Prop} {ds ds' : List (String × Formula)}
  (h : List.Forall₂ (fun d d' => d'.1 = d.1 ∧ R d.2 d'.2) ds ds')
include h

theorem map_fst_of_forall₂ : ds'.map (·.1) = ds.map (·.1) := by
  induction h with
  | nil => rfl
  | cons hd _ ih => rw [List.map_cons, List.map_cons, hd.1, ih]

theorem exists_right_of_forall₂ {n : String} {f : Formula} (hf : (n, f) ∈ ds) :
    ∃ f', (n, f') ∈ ds' ∧ R f f' := by
  induction h with
  | nil => exact absurd hf List.not_mem_nil
  | @cons d d' _ _ hd _ ih =>
    rcases List.mem_cons.1 hf with rfl | hf
    · obtain ⟨n', f'⟩ := d'
      obtain ⟨rfl, hff'⟩ := hd
      exact ⟨f', List.mem_cons_self .., hff'⟩
    · obtain ⟨f', hmem, hff'⟩ := ih hf
      exact ⟨f', List.mem_cons_of_mem _ hmem, hff'⟩

theorem exists_left_of_forall₂ {n : String} {f' : Formula} (hf' : (n, f') ∈ ds') :
    ∃ f, (n, f) ∈ ds ∧ R f f' := by
  induction h with
  | nil => exact absurd hf' List.not_mem_nil
  | @cons d d' _ _ hd _ ih =>
    rcases List.mem_cons.1 hf' with rfl | hf'
    · obtain ⟨n', f⟩ := d
      obtain ⟨rfl, hff'⟩ := hd
      exact ⟨f, List.mem_cons_self .., hff'⟩
    · obtain ⟨f, hmem, hff'⟩ := ih hf'
      exact ⟨f, List.mem_cons_of_mem _ hmem, hff'⟩

/-- Where the formulas of accepted definitions are replaced by ones that refer to defined names
only, the definitions are accepted again. -/
theorem exists_corresponds {g : SentenceGraph} (hg : ofDefinitions ds = .ok g)
    (hrefs : ∀ n f f', (n, f) ∈ ds → R f f' → ∀ r ∈ f'.occurrences, r ∈ ds.map (·.1)) :
    ∃ g', ofDefinitions ds' = .ok g' ∧ Corresponds R g g' := by
  obtain ⟨hblank, hnodup, -⟩ := exists_ofDefinitions_iff.1 ⟨g, hg⟩
  have hnames := map_fst_of_forall₂ h
  have haccepted : ∃ g', ofDefinitions ds' = .ok g' := by
    refine exists_ofDefinitions_iff.2 ⟨fun d' hd' => ?_, hnames ▸ hnodup, fun d' hd' r hr => ?_⟩
    · obtain ⟨f, hf, -⟩ := exists_left_of_forall₂ h hd'
      exact hblank (d'.1, f) hf
    · obtain ⟨f, hf, hff'⟩ := exists_left_of_forall₂ h hd'
      rw [hnames]
      exact hrefs d'.1 f d'.2 hf hff' r hr
  obtain ⟨g', hg'⟩ := haccepted
  refine ⟨g', hg', ?_, fun n f hf => ?_⟩
  · refine NameMap.eq_of_ascending g'.sentences.names_ascending g.sentences.names_ascending
      fun n => ?_
    exact (mem_names_ofDefinitions hg').trans (hnames ▸ (mem_names_ofDefinitions hg).symm)
  · obtain ⟨f', hf', hff'⟩ := exists_right_of_forall₂ h ((formula?_eq_some_iff hg).1 hf)
    exact ⟨f', (formula?_eq_some_iff hg').2 hf', hff'⟩

end Corresponds

end SentenceGraph

end SelfReference
