import SelfReference.Proofs.JsonDefinitions
import SelfReference.Proofs.TomlTables

/-!
# Definitions are read back from TOML

A definition file is a table over lines, so its text is read back unless the path of a header has
too many keys.  A written formula has a key in the path for every connective around it: the text of
a graph is read back exactly if its formulas do not nest deeper than the paths allow.  A flat
conjunction of many operands is grouped to the left, so its graph can nest too deep.
-/

namespace SelfReference

/-! ### Written formulas -/

namespace Written

mutual

theorem ofToml?_toToml : ∀ w : Written, ofToml? w.toToml = some w
  | lit text => by simp [toToml, ofToml?, Toml.text?]
  | ref name => by simp [toToml, ofToml?, Toml.text?]
  | neg w => by simp [toToml, ofToml?, ofToml?_toToml w]
  | conj ws => by simp [toToml, ofToml?, ofTomls?_toTomls ws]
  | disj ws => by simp [toToml, ofToml?, ofTomls?_toTomls ws]

theorem ofTomls?_toTomls : ∀ ws : List Written, ofTomls? (toTomls ws) = some ws
  | [] => rfl
  | w :: ws => by simp [toTomls, ofTomls?, ofToml?_toToml w, ofTomls?_toTomls ws]

end

theorem exists_members (w : Written) : ∃ members, w.toToml = .table members := by
  cases w <;> exact ⟨_, rfl⟩

theorem isTable_of_mem_toTomls {ws : List Written} :
    ∀ v ∈ toTomls ws, Toml.isTable v = true := by
  induction ws with
  | nil => exact fun v hv => absurd hv List.not_mem_nil
  | cons w ws ih =>
    intro v hv
    rcases List.mem_cons.1 hv with rfl | hv
    · obtain ⟨members, hmembers⟩ := w.exists_members
      rw [hmembers]
      rfl
    · exact ih v hv

theorem toTomls_ne_nil {ws : List Written} (h : ws ≠ []) : toTomls ws ≠ [] := by
  obtain ⟨w, ws, rfl⟩ := List.exists_cons_of_ne_nil h
  exact List.cons_ne_nil w.toToml (toTomls ws)

theorem lined_operands {key : String} (hkey : Toml.IsBareKey key) {ws : List Written}
    (h : ∀ v ∈ toTomls ws, Toml.Lined v) : Toml.Lined (.table [(key, .arr (toTomls ws))]) := by
  by_cases hsome : ws = []
  · rw [hsome]
    exact .ofOwn hkey .empty
  · exact .ofLower hkey (.arr (toTomls_ne_nil hsome) isTable_of_mem_toTomls h)

mutual

theorem lined_toToml : ∀ w : Written, Toml.Lined w.toToml
  | lit text => .ofOwn ⟨by decide, by decide⟩ (.str text)
  | ref name => .ofOwn ⟨by decide, by decide⟩ (.str name)
  | neg w => .ofLower ⟨by decide, by decide⟩ (lined_toToml w)
  | conj ws => lined_operands ⟨by decide, by decide⟩ (lined_toTomls ws)
  | disj ws => lined_operands ⟨by decide, by decide⟩ (lined_toTomls ws)

theorem lined_toTomls : ∀ ws : List Written, ∀ v ∈ toTomls ws, Toml.Lined v
  | [], _, hv => absurd hv List.not_mem_nil
  | w :: ws, v, hv => by
    rcases List.mem_cons.1 hv with rfl | hv
    · exact lined_toToml w
    · exact lined_toTomls ws v hv

end

/-! ### Paths of headers -/

mutual

/-- How deep the connectives with an operand nest. -/
def height : Written → Nat
  | lit _ | ref _ => 0
  | neg w => height w + 1
  | conj ws | disj ws => heightOfAll ws

def heightOfAll : List Written → Nat
  | [] => 0
  | w :: ws => max (height w + 1) (heightOfAll ws)

end

theorem add_heightOfAll_le {ws : List Written} (hsome : ws ≠ []) {n limit : Nat} :
    n + heightOfAll ws ≤ limit ↔ ∀ w ∈ ws, n + 1 + w.height ≤ limit := by
  induction ws with
  | nil => exact absurd rfl hsome
  | cons w ws ih =>
    rw [heightOfAll, List.forall_mem_cons]
    by_cases hws : ws = []
    · rw [hws, heightOfAll]
      simp only [List.not_mem_nil, false_implies, implies_true, and_true]
      omega
    · rw [← ih hws]
      omega

theorem sectionsOf_operands (parent : List String) (key connective : String) {ws : List Written}
    (hsome : ws ≠ []) :
    Toml.sectionsOf parent key (.table [(connective, .arr (toTomls ws))]) =
      Toml.sectionsOfItems (parent ++ [key]) connective (toTomls ws) := by
  have hall : (toTomls ws).all Toml.isTable = true := List.all_eq_true.2 isTable_of_mem_toTomls
  have hheader : Toml.hasHeader (.arr (toTomls ws)) = true := by
    rw [Toml.hasHeader, hall, Bool.and_true, Bool.not_eq_true', List.isEmpty_eq_false_iff]
    exact toTomls_ne_nil hsome
  rw [Toml.sectionsOf_lower parent key connective hheader, Toml.sectionsOf, if_pos hall]

theorem fits_operands {limit : Nat} (parent : List String) (key connective : String)
    {ws : List Written}
    (h : (∀ s ∈ Toml.sectionsOfItems (parent ++ [key]) connective (toTomls ws),
      s.path.length ≤ limit) ↔ ∀ w ∈ ws, (parent ++ [key]).length + 1 + w.height ≤ limit) :
    (∀ s ∈ Toml.sectionsOf parent key (.table [(connective, .arr (toTomls ws))]),
      s.path.length ≤ limit) ↔ parent.length + 1 + heightOfAll ws ≤ limit := by
  by_cases hsome : ws = []
  · rw [hsome, toTomls, Toml.sectionsOf_own parent key connective rfl, List.forall_mem_singleton,
      Toml.Section.length_path]
    rfl
  · rw [sectionsOf_operands parent key connective hsome, h, add_heightOfAll_le hsome,
      List.length_append, List.length_singleton]

mutual

/-- The longest path below a key has a key for every connective that nests. -/
theorem fits_toToml (limit : Nat) : ∀ (w : Written) (parent : List String) (key : String),
    (∀ s ∈ Toml.sectionsOf parent key w.toToml, s.path.length ≤ limit) ↔
      parent.length + 1 + w.height ≤ limit
  | lit text, parent, key => by
    rw [toToml, Toml.sectionsOf_own parent key "lit" rfl, List.forall_mem_singleton,
      Toml.Section.length_path]
    rfl
  | ref name, parent, key => by
    rw [toToml, Toml.sectionsOf_own parent key "ref" rfl, List.forall_mem_singleton,
      Toml.Section.length_path]
    rfl
  | neg w, parent, key => by
    have ih := fits_toToml limit w (parent ++ [key]) "not"
    rw [toToml, Toml.sectionsOf_lower parent key "not" (lined_toToml w).hasHeader, ih,
      List.length_append, List.length_singleton, height]
    omega
  | conj ws, parent, key => by
    have ih := fits_toTomls limit ws (parent ++ [key]) "and"
    exact fits_operands parent key "and" ih
  | disj ws, parent, key => by
    have ih := fits_toTomls limit ws (parent ++ [key]) "or"
    exact fits_operands parent key "or" ih

theorem fits_toTomls (limit : Nat) : ∀ (ws : List Written) (parent : List String) (key : String),
    (∀ s ∈ Toml.sectionsOfItems parent key (toTomls ws), s.path.length ≤ limit) ↔
      ∀ w ∈ ws, parent.length + 1 + w.height ≤ limit
  | [], parent, key => by simp [toTomls, Toml.sectionsOfItems]
  | w :: ws, parent, key => by
    have ih := fits_toToml limit w parent key
    have ihs := fits_toTomls limit ws parent key
    obtain ⟨members, hmembers⟩ := w.exists_members
    rw [hmembers] at ih
    rw [toTomls, hmembers, Toml.fits_sectionsOfItems_cons, ih, ihs, List.forall_mem_cons]
    refine and_congr_left fun _ => ?_
    omega

end

end Written

/-! ### Files -/

namespace DefinitionFile

def sentenceToml (e : String × Written) : List (String × Toml) :=
  [("name", .str e.1), ("formula", e.2.toToml)]

theorem toToml_eq (file : DefinitionFile) :
    file.toToml = [("sentence", .arr (file.sentences.map fun e => .table (sentenceToml e)))] := rfl

theorem ofToml?_toToml (file : DefinitionFile) : ofToml? file.toToml = some file := by
  have hsentences : (file.sentences.map fun e => Toml.table (sentenceToml e)).mapM sentenceOfToml? =
      some file.sentences := by
    induction file.sentences with
    | nil => rfl
    | cons e sentences ih =>
      have hname : Toml.member? "name" (sentenceToml e) = some (.str e.1) := rfl
      have hformula : Toml.member? "formula" (sentenceToml e) = some e.2.toToml := rfl
      have he : sentenceOfToml? (.table (sentenceToml e)) = some e := by
        rw [sentenceOfToml?, hname, hformula]
        simp only [Option.bind_eq_bind, Option.bind_some, Toml.text?, e.2.ofToml?_toToml]
      rw [List.map_cons, List.mapM_cons, he, ih]
      rfl
  simp [toToml_eq, ofToml?, Toml.member?, hsentences]

theorem lined_sentenceToml (e : String × Written) : Toml.Lined (.table (sentenceToml e)) := by
  have hname : Toml.IsBareKey "name" := ⟨by decide, by decide⟩
  have hformula : Toml.IsBareKey "formula" := ⟨by decide, by decide⟩
  show Toml.Lined (.table ([("name", Toml.str e.1)] ++ [("formula", e.2.toToml)]))
  refine .table (fun m hm => ?_) (fun m hm => ?_) (fun m hm => ?_) (by simp)
  · rw [List.mem_singleton.1 hm]
    exact .str e.1
  · rw [List.mem_singleton.1 hm]
    exact e.2.lined_toToml
  · simp only [List.cons_append, List.nil_append, List.mem_cons, List.not_mem_nil, or_false] at hm
    rcases hm with rfl | rfl
    · exact hname
    · exact hformula

theorem lined_toToml (file : DefinitionFile) : Toml.Lined (.table file.toToml) := by
  have hkey : Toml.IsBareKey "sentence" := ⟨by decide, by decide⟩
  rw [toToml_eq]
  by_cases hsome : file.sentences = []
  · rw [hsome]
    exact .ofOwn hkey .empty
  · rw [← Function.comp_def, ← List.map_map]
    refine .ofLower hkey (.tables (by simpa using hsome) fun members hm => ?_)
    obtain ⟨e, -, rfl⟩ := List.mem_map.1 hm
    exact lined_sentenceToml e

theorem sectionsOf_sentenceToml (e : String × Written) :
    Toml.sectionsOf [] "sentence" (.table (sentenceToml e)) =
      ⟨false, [], "sentence", [("name", .str e.1)]⟩ ::
        Toml.sectionsOf ["sentence"] "formula" e.2.toToml := by
  have hheader : Toml.hasHeader e.2.toToml = true := e.2.lined_toToml.hasHeader
  have hown : Toml.ownPairs (sentenceToml e) = [("name", .str e.1)] := by
    have hname : Toml.hasHeader (.str e.1) = false := rfl
    simp [Toml.ownPairs, sentenceToml, hheader, hname]
  rw [Toml.sectionsOf, Toml.tableSections, hown, sentenceToml, Toml.sectionsWithin,
    Toml.sectionsWithin, Toml.sectionsWithin, List.append_nil]
  rfl

theorem fits_sentences (sentences : List (String × Written)) (limit : Nat) :
    (∀ s ∈ Toml.sectionsOfItems [] "sentence" (sentences.map fun e => .table (sentenceToml e)),
      s.path.length ≤ limit + 2) ↔ ∀ e ∈ sentences, e.2.height ≤ limit := by
  induction sentences with
  | nil => simp [Toml.sectionsOfItems]
  | cons e sentences ih =>
    have hformula := e.2.fits_toToml (limit + 2) ["sentence"] "formula"
    rw [List.map_cons, Toml.fits_sectionsOfItems_cons, ih, List.forall_mem_cons,
      sectionsOf_sentenceToml, List.forall_mem_cons, hformula, Toml.Section.length_path]
    refine and_congr_left fun _ => ?_
    simp only [List.length_nil, List.length_singleton]
    omega

/-- The text of a file is read back, unless a formula nests too deep. -/
theorem read?_tomlText (file : DefinitionFile) :
    read? .toml file.tomlText =
      if ∀ e ∈ file.sentences, e.2.height ≤ 77 then some file else none := by
  have hread : Toml.read? file.tomlText = _ := Toml.read?_pretty file.lined_toToml
  have hsections : Toml.sectionsWithin [] file.toToml =
      Toml.sectionsOfItems [] "sentence" (file.sentences.map fun e => .table (sentenceToml e)) := by
    have hall : (file.sentences.map fun e => Toml.table (sentenceToml e)).all Toml.isTable =
        true := by simp [Toml.isTable]
    rw [toToml_eq, Toml.sectionsWithin, Toml.sectionsWithin, Toml.sectionsOf, if_pos hall,
      List.append_nil]
  have hfits := fits_sentences file.sentences 77
  have hlimit : Toml.keyLimit = 77 + 2 := rfl
  rw [read?, hread, hsections, hlimit]
  by_cases hheight : ∀ e ∈ file.sentences, e.2.height ≤ 77
  · rw [if_pos hheight, if_pos (hfits.2 hheight), Option.bind_some, ofToml?_toToml]
  · rw [if_neg hheight, if_neg fun h => hheight (hfits.1 h)]
    rfl

end DefinitionFile

/-! ### Graphs -/

/-- How deep connectives nest. -/
def Formula.height : Formula → Nat
  | lit _ | ref _ => 0
  | neg f => f.height + 1
  | conj f g | disj f g => max f.height g.height + 1

theorem Written.height_ofFormula (f : Formula) : (ofFormula f).height = f.height := by
  induction f with
  | lit v => rfl
  | ref n => rfl
  | neg f ih => rw [ofFormula, height, ih, Formula.height]
  | conj f g ihf ihg =>
    simp only [ofFormula, height, heightOfAll, ihf, ihg, Formula.height]
    omega
  | disj f g ihf ihg =>
    simp only [ofFormula, height, heightOfAll, ihf, ihg, Formula.height]
    omega

theorem DefinitionFile.read?_tomlText_ofGraph (g : SentenceGraph) :
    read? .toml (ofGraph g).tomlText =
      if ∀ e ∈ g.sentences.entries, e.2.height ≤ 77 then some (ofGraph g) else none := by
  have hread := (ofGraph g).read?_tomlText
  have hheight : (∀ e ∈ (ofGraph g).sentences, e.2.height ≤ 77) ↔
      ∀ e ∈ g.sentences.entries, e.2.height ≤ 77 := by
    simp only [ofGraph, List.forall_mem_map, Written.height_ofFormula]
  by_cases h : ∀ e ∈ g.sentences.entries, e.2.height ≤ 77
  · rw [if_pos (hheight.2 h)] at hread
    rw [if_pos h, hread]
  · rw [if_neg fun h' => h (hheight.1 h')] at hread
    rw [if_neg h, hread]

namespace SentenceGraph

/-- The canonical TOML text of a graph is read back as the graph, unless a formula nests too deep:
every connective around a formula is one more key in the path of its header. -/
theorem parse_tomlText_ofGraph (g : SentenceGraph) :
    parse .toml (DefinitionFile.ofGraph g).tomlText =
      if ∀ e ∈ g.sentences.entries, e.2.height ≤ 77 then .ok g
      else .error (.definitions (.unreadable "TOML")) := by
  have hread := DefinitionFile.read?_tomlText_ofGraph g
  by_cases h : ∀ e ∈ g.sentences.entries, e.2.height ≤ 77
  · rw [if_pos h] at hread
    rw [if_pos h, parse_of_read? hread]
  · rw [if_neg h] at hread
    rw [if_neg h, parse_of_read?_none hread]
    rfl

end SentenceGraph

/-! ### Flat conjunctions -/

theorem Formula.height_foldl_conj (names : List String) (f : Formula) :
    ((names.map ref).foldl conj f).height = f.height + names.length := by
  induction names generalizing f with
  | nil => rfl
  | cons n names ih =>
    rw [List.map_cons, List.foldl_cons, ih, height, height, List.length_cons]
    omega

theorem Formula.occurrences_foldl_conj (names : List String) (f : Formula) :
    ((names.map ref).foldl conj f).occurrences = f.occurrences ++ names := by
  induction names generalizing f with
  | nil => rw [List.append_nil]; rfl
  | cons n names ih =>
    rw [List.map_cons, List.foldl_cons, ih, occurrences, List.append_assoc]
    rfl

theorem Written.resolveAll_refs (sentence : String) (names : List String) :
    resolveAll sentence (names.map ref) = .ok (names.map .ref) := by
  induction names with
  | nil => rfl
  | cons n names ih => rw [List.map_cons, resolveAll, resolve, ih]; rfl

theorem Written.resolve_conj_refs (sentence n : String) (names : List String) :
    resolve sentence (conj ((n :: names).map ref)) =
      .ok ((names.map Formula.ref).foldl .conj (.ref n)) := by
  rw [resolve, resolveAll_refs]
  rfl

theorem DefinitionFile.graph_singleton {name : String} {w : Written} {f : Formula}
    (h : w.resolve name = .ok f) :
    graph ⟨[(name, w)]⟩ = SentenceGraph.ofDefinitions [(name, f)] := by
  simp only [graph, List.mapM_cons, List.mapM_nil, h, Except.map]
  rfl

theorem Written.height_conj_refs (names : List String) : (conj (names.map ref)).height ≤ 1 := by
  induction names with
  | nil => exact Nat.zero_le 1
  | cons n names ih =>
    rw [height] at ih ⊢
    rw [List.map_cons, heightOfAll, height]
    omega

namespace SentenceGraph

theorem exists_conjunction (name : String) (names : List String) (hname : Text.isBlank name = false)
    (hnames : ∀ n ∈ names, n = name) :
    ∃ g, ofDefinitions [(name, (names.map Formula.ref).foldl .conj (.ref name))] = .ok g := by
  refine exists_ofDefinitions_iff.2 ⟨fun d hd => ?_, List.nodup_singleton name, fun d hd r hr => ?_⟩
  · rw [List.mem_singleton.1 hd]
    exact hname
  · rw [List.mem_singleton.1 hd, Formula.occurrences_foldl_conj] at hr
    rcases List.mem_append.1 hr with hr | hr
    · exact hr
    · exact List.mem_singleton.2 (hnames r hr)

/-- A flat conjunction of one sentence with itself is read from its text, but grouped to the left it
nests too deep for the canonical text of its graph. -/
theorem tomlText_flat_conjunction {name : String} (hname : Text.isBlank name = false)
    {names : List String} (hnames : ∀ n ∈ names, n = name) (hlength : 77 < names.length) :
    ∃ g, parse .toml (DefinitionFile.tomlText ⟨[(name, .conj ((name :: names).map .ref))]⟩) =
        .ok g ∧
      parse .toml (DefinitionFile.ofGraph g).tomlText =
        .error (.definitions (.unreadable "TOML")) := by
  obtain ⟨g, hg⟩ := exists_conjunction name names hname hnames
  have hresolve := Written.resolve_conj_refs name name names
  have hdeep := g.sentences.get?_eq_some_iff.1
    ((formula?_eq_some_iff hg).2 (List.mem_singleton_self _))
  have hheight := Formula.height_foldl_conj names (.ref name)
  refine ⟨g, ?_, ?_⟩
  · have hread := DefinitionFile.read?_tomlText ⟨[(name, .conj ((name :: names).map .ref))]⟩
    have hflat : ∀ e ∈ [(name, Written.conj ((name :: names).map .ref))], e.2.height ≤ 77 :=
      List.forall_mem_singleton.2 (Nat.le_trans (Written.height_conj_refs _) (by decide))
    rw [if_pos hflat] at hread
    rw [parse, hread]
    exact (DefinitionFile.graph_singleton hresolve).trans hg
  · have hback := DefinitionFile.read?_tomlText_ofGraph g
    rw [if_neg fun h => absurd (h _ hdeep) (by simp only [hheight]; omega)] at hback
    exact parse_of_read?_none hback

/-- So it is with 79 operands. -/
theorem parse_tomlText_flat_conjunction :
    ∃ g, parse .toml (DefinitionFile.tomlText ⟨[("A", .conj ((List.replicate 79 "A").map .ref))]⟩) =
        .ok g ∧
      parse .toml (DefinitionFile.ofGraph g).tomlText =
        .error (.definitions (.unreadable "TOML")) :=
  tomlText_flat_conjunction (by decide +kernel) (fun _ hn => List.eq_of_mem_replicate hn)
    (by rw [List.length_replicate]; decide)

end SentenceGraph

end SelfReference
