import SelfReference.Definitions.File
import SelfReference.Proofs.JsonText
import SelfReference.Proofs.WrittenFormulas

/-!
# Definitions are read back from JSON

The written form of a graph defines the graph, so what is left is whether the text of a file is
read back as the file.  The reader limits how deep arrays and objects nest, and that is all that can
stand in the way.
-/

namespace SelfReference

/-! ### Nesting -/

namespace Json

mutual

/-- How deep arrays and objects nest in a value. -/
def depth : Json → Nat
  | arr items => depthOfItems items + 1
  | obj members => depthOfMembers members + 1
  | null | bool _ | num _ | str _ | unreadable => 0

def depthOfItems : List Json → Nat
  | [] => 0
  | v :: vs => max (depth v) (depthOfItems vs)

def depthOfMembers : List (String × Json) → Nat
  | [] => 0
  | (_, v) :: ms => max (depth v) (depthOfMembers ms)

end

theorem mapM_cons_of_depth {α : Type} {read : Json → Option α} {v : Json} {vs : List Json} {x : α}
    {xs : List α} {limit : Nat} (hv : read v = if v.depth ≤ limit then some x else none)
    (hvs : vs.mapM read = if depthOfItems vs ≤ limit then some xs else none) :
    (v :: vs).mapM read = if depthOfItems (v :: vs) ≤ limit then some (x :: xs) else none := by
  rw [List.mapM_cons, hv, hvs, depthOfItems]
  by_cases h : v.depth ≤ limit
  · by_cases h' : depthOfItems vs ≤ limit
    · rw [if_pos h, if_pos h', if_pos (Nat.max_le.2 ⟨h, h'⟩)]
      rfl
    · rw [if_pos h, if_neg h', if_neg fun hmax => h' (Nat.max_le.1 hmax).2]
      rfl
  · rw [if_neg h, if_neg fun hmax => h (Nat.max_le.1 hmax).1]
    rfl

end Json

namespace Written

/-- Operands take two levels of the depth, one for the object and one for the array. -/
theorem ofJson?_conj (limit : Nat) (vs : List Json) :
    ofJson? limit (.obj [("and", .arr vs)]) =
      if 2 ≤ limit then (vs.mapM (ofJson? (limit - 2))).map conj else none := by
  match limit with
  | 0 | 1 | limit + 2 => simp [ofJson?]

theorem ofJson?_disj (limit : Nat) (vs : List Json) :
    ofJson? limit (.obj [("or", .arr vs)]) =
      if 2 ≤ limit then (vs.mapM (ofJson? (limit - 2))).map disj else none := by
  match limit with
  | 0 | 1 | limit + 2 => simp [ofJson?]

theorem map_if_depth {α β : Type} (f : α → β) (x : α) {inner limit : Nat} :
    (if 2 ≤ limit then (if inner ≤ limit - 2 then some x else none).map f else none) =
      if inner + 1 + 1 ≤ limit then some (f x) else none := by
  by_cases h : inner + 1 + 1 ≤ limit
  · have hinner : inner ≤ limit - 2 := by omega
    have hlimit : 2 ≤ limit := by omega
    rw [if_pos h, if_pos hlimit, if_pos hinner, Option.map_some]
  · rw [if_neg h]
    split
    · have hinner : ¬ inner ≤ limit - 2 := by omega
      rw [if_neg hinner, Option.map_none]
    · rfl

mutual

/-- A written formula is read back from its JSON value exactly if the limit lets it nest so deep. -/
theorem ofJson?_toJson : ∀ (w : Written) (limit : Nat),
    ofJson? limit w.toJson = if w.toJson.depth ≤ limit then some w else none
  | .lit text, 0 => by simp [toJson, ofJson?, Json.depth]
  | .lit text, limit + 1 => by simp [toJson, ofJson?, Json.depth, Json.depthOfMembers, Json.text?]
  | .ref name, 0 => by simp [toJson, ofJson?, Json.depth]
  | .ref name, limit + 1 => by simp [toJson, ofJson?, Json.depth, Json.depthOfMembers, Json.text?]
  | .neg w, 0 => by simp [toJson, ofJson?, Json.depth]
  | .neg w, limit + 1 => by
    have ih := ofJson?_toJson w limit
    simp only [toJson, ofJson?, Json.depth, Json.depthOfMembers, Nat.max_zero,
      Nat.add_le_add_iff_right, ih]
    split <;> rfl
  | .conj ws, limit => by
    have ih := mapM_ofJson?_toJsons ws (limit - 2)
    rw [toJson, ofJson?_conj, ih, map_if_depth]
    simp only [Json.depth, Json.depthOfMembers, Nat.max_zero]
  | .disj ws, limit => by
    have ih := mapM_ofJson?_toJsons ws (limit - 2)
    rw [toJson, ofJson?_disj, ih, map_if_depth]
    simp only [Json.depth, Json.depthOfMembers, Nat.max_zero]

theorem mapM_ofJson?_toJsons : ∀ (ws : List Written) (limit : Nat),
    (toJsons ws).mapM (ofJson? limit) =
      if Json.depthOfItems (toJsons ws) ≤ limit then some ws else none
  | [], limit => by simp [toJsons, Json.depthOfItems]
  | w :: ws, limit =>
    Json.mapM_cons_of_depth (ofJson?_toJson w limit) (mapM_ofJson?_toJsons ws limit)

end

end Written

namespace Json

theorem Textual.member {key : String} {v : Json} (h : Textual v) : Textual (.obj [(key, v)]) :=
  .obj fun _ hm => List.mem_singleton.1 hm ▸ h

end Json

namespace Written

mutual

theorem textual_toJson : ∀ w : Written, Json.Textual w.toJson
  | .lit text => .member (.str text)
  | .ref name => .member (.str name)
  | .neg w => .member (textual_toJson w)
  | .conj ws => .member (.arr (textual_toJsons ws))
  | .disj ws => .member (.arr (textual_toJsons ws))

theorem textual_toJsons : ∀ ws : List Written, ∀ v ∈ toJsons ws, Json.Textual v
  | [], _, hv => absurd hv List.not_mem_nil
  | w :: ws, v, hv => by
    rcases List.mem_cons.1 hv with rfl | hv
    · exact textual_toJson w
    · exact textual_toJsons ws v hv

end

end Written

namespace DefinitionFile

theorem textual_toJson (file : DefinitionFile) : Json.Textual file.toJson := by
  refine .member (.arr fun v hv => ?_)
  obtain ⟨⟨name, w⟩, -, rfl⟩ := List.mem_map.1 hv
  refine .obj fun m hm => ?_
  simp only [List.mem_cons, List.not_mem_nil, or_false] at hm
  rcases hm with rfl | rfl
  · exact .str name
  · exact w.textual_toJson

/-- A sentence as a JSON value. -/
def sentenceJson (e : String × Written) : Json :=
  .obj [("name", .str e.1), ("formula", e.2.toJson)]

theorem sentenceOfJson?_sentenceJson (e : String × Written) (limit : Nat) :
    sentenceOfJson? limit (sentenceJson e) =
      if (sentenceJson e).depth ≤ limit + 1 then some e else none := by
  have hformula := e.2.ofJson?_toJson limit
  have hdepth : (sentenceJson e).depth = e.2.toJson.depth + 1 := by
    simp [sentenceJson, Json.depth, Json.depthOfMembers]
  have hname : Json.field? "name" [("name", .str e.1), ("formula", e.2.toJson)] =
      some (some (.str e.1)) := by simp [Json.field?, Json.membersNamed]
  have hmember : Json.field? "formula" [("name", .str e.1), ("formula", e.2.toJson)] =
      some (some e.2.toJson) := by simp [Json.field?, Json.membersNamed]
  have hread : sentenceOfJson? limit (sentenceJson e) =
      (Written.ofJson? limit e.2.toJson).bind fun w => some (e.1, w) := by
    rw [sentenceJson, sentenceOfJson?, hname, hmember]
    rfl
  simp only [hread, hformula, hdepth, Nat.add_le_add_iff_right]
  split <;> rfl

theorem mapM_sentenceOfJson? (sentences : List (String × Written)) (limit : Nat) :
    (sentences.map sentenceJson).mapM (sentenceOfJson? limit) =
      if Json.depthOfItems (sentences.map sentenceJson) ≤ limit + 1 then some sentences
      else none := by
  induction sentences with
  | nil => simp [Json.depthOfItems]
  | cons e sentences ih => exact Json.mapM_cons_of_depth (sentenceOfJson?_sentenceJson e limit) ih

theorem toJson_eq (file : DefinitionFile) :
    file.toJson = .obj [("sentence", .arr (file.sentences.map sentenceJson))] := rfl

/-- A file is read back from its JSON value exactly if the value does not nest too deep. -/
theorem ofJson?_toJson (file : DefinitionFile) :
    ofJson? file.toJson = if file.toJson.depth ≤ Json.depthLimit then some file else none := by
  have hsentences := mapM_sentenceOfJson? file.sentences 124
  have hdepth : file.toJson.depth =
      Json.depthOfItems (file.sentences.map sentenceJson) + 1 + 1 := by
    simp [toJson_eq, Json.depth, Json.depthOfMembers]
  have hread : ofJson? file.toJson =
      ((file.sentences.map sentenceJson).mapM (sentenceOfJson? 124)).map mk := by
    simp [ofJson?, toJson_eq, Json.field?, Json.membersNamed, sentencesOfJson?, Json.depthLimit]
  simp only [hread, hsentences, hdepth, show Json.depthLimit = 124 + 1 + 1 + 1 from rfl,
    Nat.add_le_add_iff_right]
  split <;> rfl

/-! ### Texts of graphs -/

/-- The file of a graph defines the graph. -/
theorem graph_ofGraph (g : SentenceGraph) : (ofGraph g).graph = .ok g := by
  have hresolves : Resolves (ofGraph g).sentences g.sentences.entries := by
    refine List.forall₂_map_left_iff.2 (List.forall₂_same.2 fun d _ => ⟨rfl, ?_⟩)
    exact Written.resolve_ofFormula d.1 d.2
  exact (graph_of_resolves hresolves).trans g.ofDefinitions_entries

theorem read?_jsonText (file : DefinitionFile) :
    read? .json file.jsonText =
      if file.toJson.depth ≤ Json.depthLimit then some file else none := by
  have hread : Json.read? file.jsonText = some file.toJson := Json.read?_compact file.textual_toJson
  rw [read?, hread, Option.bind_some, ofJson?_toJson]

end DefinitionFile

namespace SentenceGraph

theorem parse_of_read? {format : FileFormat} {text : String} {g : SentenceGraph}
    (h : DefinitionFile.read? format text = some (.ofGraph g)) : parse format text = .ok g := by
  rw [parse, h]
  exact DefinitionFile.graph_ofGraph g

theorem parse_of_read?_none {format : FileFormat} {text : String}
    (h : DefinitionFile.read? format text = none) :
    parse format text = .error (.definitions (.unreadable format.name)) := by
  rw [parse, h]

/-- The compact JSON text of a graph is read back as the graph, unless it nests too deep. -/
theorem parse_jsonText_ofGraph (g : SentenceGraph) :
    parse .json (DefinitionFile.ofGraph g).jsonText =
      if (DefinitionFile.ofGraph g).toJson.depth ≤ 127 then .ok g
      else .error (.definitions (.unreadable "JSON")) := by
  have hread := (DefinitionFile.ofGraph g).read?_jsonText
  by_cases hdepth : (DefinitionFile.ofGraph g).toJson.depth ≤ Json.depthLimit
  · rw [if_pos hdepth] at hread
    rw [parse_of_read? hread]
    exact (if_pos hdepth).symm
  · rw [if_neg hdepth] at hread
    rw [parse_of_read?_none hread]
    exact (if_neg hdepth).symm

end SentenceGraph

end SelfReference
