import SelfReference.Proofs.TomlLines

/-!
# Sections of TOML under construction

A table over lines is written as sections, one for every element of an array of tables and for every
other table that does not only lead to tables further down.  A section changes what stands at the
last key of a table under construction, and a section of the table at a key is one of that table
with the key put before its path.
-/

namespace SelfReference.Toml

namespace Draft

variable {key : String} {ms : Members}

/-! ### The last key of a table -/

theorem alter_new (h : key ∉ ms.map (·.1)) (f : Option Draft → Option Draft) :
    alter key f ms = (f none).map fun d => ms ++ [(key, d)] := by
  induction ms with
  | nil => rfl
  | cons m ms ih =>
    obtain ⟨k, d⟩ := m
    rw [List.map_cons, List.mem_cons, not_or] at h
    rw [alter, if_neg (Ne.symm h.1), ih h.2, Option.map_map]
    rfl

theorem alter_last (h : key ∉ ms.map (·.1)) (d : Draft) (f : Option Draft → Option Draft) :
    alter key f (ms ++ [(key, d)]) = (f (some d)).map fun d' => ms ++ [(key, d')] := by
  induction ms with
  | nil => rw [List.nil_append, alter, if_pos rfl]; rfl
  | cons m ms ih =>
    obtain ⟨k, d'⟩ := m
    rw [List.map_cons, List.mem_cons, not_or] at h
    rw [List.cons_append, alter, if_neg (Ne.symm h.1), ih h.2, Option.map_map]
    rfl

theorem within_new (h : key ∉ ms.map (·.1)) (f : Members → Option Members) (ks : List String) :
    within f (key :: ks) ms =
      (within f ks []).map fun inner => ms ++ [(key, .table .passed inner)] := by
  rw [within, alter_new h, Option.map_map]
  rfl

/-- What a header enters on its way to a table further down. -/
inductive Entered : (Members → Draft) → Prop where
  | table (origin : Origin) : Entered (.table origin)
  | tables (finished : List Toml) : Entered (.tables finished)

theorem within_last {hole : Members → Draft} (hhole : Entered hole) (h : key ∉ ms.map (·.1))
    (f : Members → Option Members) (ks : List String) (inner : Members) :
    within f (key :: ks) (ms ++ [(key, hole inner)]) =
      (within f ks inner).map fun inner' => ms ++ [(key, hole inner')] := by
  rw [within, alter_last h]
  cases hhole <;> rw [Option.map_map] <;> rfl

/-! ### Lines -/

/-- Gives keys of the table at a path their values, one after the other. -/
def defineAll (path : List String) (pairs : List (String × Toml)) (ms : Members) :
    Option Members :=
  pairs.foldlM (fun ms m => within (define m.2 [m.1] true) path ms) ms

theorem defineAll_last {hole : Members → Draft} (hhole : Entered hole) (h : key ∉ ms.map (·.1))
    (path : List String) (pairs : List (String × Toml)) (inner : Members) :
    defineAll (key :: path) pairs (ms ++ [(key, hole inner)]) =
      (defineAll path pairs inner).map fun inner' => ms ++ [(key, hole inner')] := by
  induction pairs generalizing inner with
  | nil => rfl
  | cons m pairs ih =>
    simp only [defineAll, List.foldlM_cons] at ih ⊢
    rw [within_last hhole h]
    cases within (define m.2 [m.1] true) path inner with
    | none => rfl
    | some inner' => exact ih inner'

def values (pairs : List (String × Toml)) : Members := pairs.map fun m => (m.1, .value m.2)

theorem finishMembers_append (ms ms' : Members) :
    finishMembers (ms ++ ms') = finishMembers ms ++ finishMembers ms' := by
  induction ms with
  | nil => rfl
  | cons m ms ih => simp only [List.cons_append, finishMembers, ih]

theorem finishMembers_values (pairs : List (String × Toml)) :
    finishMembers (values pairs) = pairs := by
  induction pairs with
  | nil => rfl
  | cons m pairs ih =>
    rw [values] at ih
    rw [values, List.map_cons, finishMembers, ih, finish]

theorem keys_finishMembers (ms : Members) : (finishMembers ms).map (·.1) = ms.map (·.1) := by
  induction ms with
  | nil => rfl
  | cons m ms ih => simp only [finishMembers, List.map_cons, ih]

theorem keys_new_append {l : List String} (d : Draft) (hkey : key ∉ l)
    (hnew : ∀ k ∈ key :: l, k ∉ ms.map (·.1)) : ∀ k ∈ l, k ∉ (ms ++ [(key, d)]).map (·.1) := by
  intro k hk hmem
  rw [List.map_append, List.mem_append] at hmem
  rcases hmem with hmem | hmem
  · exact hnew k (List.mem_cons_of_mem _ hk) hmem
  · have heq : k = key := List.mem_singleton.1 hmem
    exact hkey (heq ▸ hk)

theorem defineAll_new {pairs : List (String × Toml)} (hnodup : (pairs.map (·.1)).Nodup)
    (hnew : ∀ k ∈ pairs.map (·.1), k ∉ ms.map (·.1)) :
    defineAll [] pairs ms = some (ms ++ values pairs) := by
  induction pairs generalizing ms with
  | nil => simp [defineAll, values]
  | cons m pairs ih =>
    rw [List.map_cons, List.nodup_cons] at hnodup
    have hm : m.1 ∉ ms.map (·.1) := hnew m.1 (List.mem_cons_self ..)
    have hdefine : define m.2 [m.1] true ms = some (ms ++ [(m.1, .value m.2)]) := by
      rw [define, if_pos rfl, alter_new hm]
      rfl
    have hrest := keys_new_append (.value m.2) hnodup.1 hnew
    have hpairs := ih hnodup.2 hrest
    simp only [defineAll, List.foldlM_cons, within, hdefine] at hpairs ⊢
    simpa [values] using hpairs

end Draft

/-! ### Sections under construction -/

open Draft

namespace Section

def start (s : Section) : Members → Option Members :=
  if s.element then openElement s.key else openTable s.key

/-- What a section does to a document. -/
def apply (s : Section) (ms : Members) : Option Members :=
  (within s.start s.parent ms).bind (defineAll s.path s.pairs)

/-- A section of the table at a key, as a section of the table that has the key. -/
def below (key : String) (s : Section) : Section := { s with parent := key :: s.parent }

variable {key : String} {ms : Members}

theorem apply_below_last (s : Section) {hole : Members → Draft} (hhole : Entered hole)
    (h : key ∉ ms.map (·.1)) (inner : Members) :
    (s.below key).apply (ms ++ [(key, hole inner)]) =
      (s.apply inner).map fun inner' => ms ++ [(key, hole inner')] := by
  show (within s.start (key :: s.parent) _).bind (defineAll (key :: s.path) s.pairs) = _
  rw [within_last hhole h, apply]
  cases within s.start s.parent inner with
  | none => rfl
  | some inner' => exact defineAll_last hhole h s.path s.pairs inner'

theorem apply_below_new (s : Section) (h : key ∉ ms.map (·.1)) :
    (s.below key).apply ms =
      (s.apply []).map fun inner => ms ++ [(key, .table .passed inner)] := by
  show (within s.start (key :: s.parent) ms).bind (defineAll (key :: s.path) s.pairs) = _
  rw [within_new h, apply]
  cases within s.start s.parent [] with
  | none => rfl
  | some inner => exact defineAll_last (.table .passed) h s.path s.pairs inner

end Section

def applyAll (sections : List Section) (ms : Members) : Option Members :=
  sections.foldlM (fun ms s => s.apply ms) ms

theorem applyAll_cons (s : Section) (sections : List Section) (ms : Members) :
    applyAll (s :: sections) ms = (s.apply ms).bind (applyAll sections) := rfl

theorem applyAll_append (l r : List Section) (ms : Members) :
    applyAll (l ++ r) ms = (applyAll l ms).bind (applyAll r) := List.foldlM_append ..

theorem applyAll_below_last {key : String} {ms : Members} {hole : Members → Draft}
    (hhole : Entered hole) (h : key ∉ ms.map (·.1)) (sections : List Section) (inner : Members) :
    applyAll (sections.map (Section.below key)) (ms ++ [(key, hole inner)]) =
      (applyAll sections inner).map fun inner' => ms ++ [(key, hole inner')] := by
  induction sections generalizing inner with
  | nil => rfl
  | cons s sections ih =>
    rw [List.map_cons, applyAll_cons, applyAll_cons, s.apply_below_last hhole h]
    cases s.apply inner with
    | none => rfl
    | some inner' => exact ih inner'

theorem applyAll_below_new {key : String} {ms : Members} (h : key ∉ ms.map (·.1))
    {sections : List Section} (hsome : sections ≠ []) :
    applyAll (sections.map (Section.below key)) ms =
      (applyAll sections []).map fun inner => ms ++ [(key, .table .passed inner)] := by
  obtain ⟨s, sections, rfl⟩ := List.exists_cons_of_ne_nil hsome
  rw [List.map_cons, applyAll_cons, applyAll_cons, s.apply_below_new h]
  cases s.apply [] with
  | none => rfl
  | some inner => exact applyAll_below_last (.table .passed) h sections inner

/-! ### Documents under construction -/

namespace Document

theorem foldlM_add_pairs (pairs : List (String × Toml)) (d : Document) :
    (pairs.map fun m => Statement.pair [m.1] m.2).foldlM add d =
      (defineAll d.here pairs d.members).map fun ms => ⟨d.here, ms⟩ := by
  induction pairs generalizing d with
  | nil => rfl
  | cons m pairs ih =>
    simp only [List.map_cons, List.foldlM_cons, defineAll, add] at ih ⊢
    cases within (define m.2 [m.1] true) d.here d.members with
    | none => rfl
    | some ms => exact ih ⟨d.here, ms⟩

theorem foldlM_add_section (s : Section) (d : Document) :
    s.statements.foldlM add d = (s.apply d.members).map fun ms => ⟨s.path, ms⟩ := by
  have hlast : s.path.getLast? = some s.key := by simp [Section.path]
  have hparent : s.path.dropLast = s.parent := by simp [Section.path]
  have hheader : add d s.header =
      (within s.start s.parent d.members).map fun ms => ⟨s.path, ms⟩ := by
    unfold Section.header Section.start
    split
    · simp only [add, hlast, hparent, Option.bind_eq_bind, Option.bind_some, Option.map_eq_bind]
      rfl
    · simp only [add, hlast, hparent, Option.bind_eq_bind, Option.bind_some, Option.map_eq_bind]
      rfl
  rw [Section.statements, List.foldlM_cons, hheader, Section.apply]
  cases within s.start s.parent d.members with
  | none => rfl
  | some ms => exact foldlM_add_pairs s.pairs ⟨s.path, ms⟩

theorem foldlM_add_sections (sections : List Section) (d : Document) :
    ((sections.flatMap Section.statements).foldlM add d).map (·.members) =
      applyAll sections d.members := by
  induction sections generalizing d with
  | nil => rfl
  | cons s sections ih =>
    rw [List.flatMap_cons, List.foldlM_append, foldlM_add_section, applyAll_cons]
    cases s.apply d.members with
    | none => rfl
    | some ms => exact ih ⟨s.path, ms⟩

end Document

/-! ### The sections of a table -/

/-- The members that are written on lines of their own. -/
def ownPairs (members : List (String × Toml)) : List (String × Toml) :=
  members.filter fun m => !hasHeader m.2

theorem ownLines_eq (members : List (String × Toml)) :
    ownLines members = (ownPairs members).flatMap lineChars := rfl

theorem isEmpty_lines (pairs : List (String × Toml)) :
    (pairs.flatMap lineChars).isEmpty = pairs.isEmpty := by
  cases pairs with
  | nil => rfl
  | cons m pairs => simp [lineChars]

/-- The section of a table, unless the table only leads to others. -/
def tableSections (element : Bool) (parent : List String) (key : String)
    (members : List (String × Toml)) : List Section :=
  if element || !(ownPairs members).isEmpty || members.isEmpty then
    [⟨element, parent, key, ownPairs members⟩]
  else []

theorem tableLines_eq (element : Bool) (parent : List String) (key : String)
    (members : List (String × Toml)) :
    tableLines element (parent ++ [key]) members =
      (tableSections element parent key members).map Section.chars := by
  simp only [tableLines, tableSections, ownLines_eq, isEmpty_lines]
  cases element with
  | true => rfl
  | false =>
    cases hown : (ownPairs members).isEmpty <;> cases hmembers : members.isEmpty <;>
      simp [Section.chars, Section.headerChars, Section.path]

mutual

/-- The sections of the value at a key. -/
def sectionsOf (parent : List String) (key : String) : Toml → List Section
  | table members =>
    tableSections false parent key members ++ sectionsWithin (parent ++ [key]) members
  | arr items => if items.all isTable then sectionsOfItems parent key items else []
  | str _ | int _ | bool _ | float _ | dateTime _ => []

def sectionsOfItems (parent : List String) (key : String) : List Toml → List Section
  | [] => []
  | table members :: vs =>
    tableSections true parent key members ++ sectionsWithin (parent ++ [key]) members ++
      sectionsOfItems parent key vs
  | _ :: vs => sectionsOfItems parent key vs

/-- The sections of the members of the table at a path. -/
def sectionsWithin (path : List String) : List (String × Toml) → List Section
  | [] => []
  | (k, v) :: ms => sectionsOf path k v ++ sectionsWithin path ms

end

mutual

theorem blocksOf_eq (parent : List String) (key : String) : ∀ v : Toml,
    blocksOf (parent ++ [key]) v = (sectionsOf parent key v).map Section.chars
  | table members => by
    rw [blocksOf, sectionsOf, tableLines_eq, blocksWithin_eq, List.map_append]
  | arr items => by
    rw [blocksOf, sectionsOf]
    split
    · exact blocksOfItems_eq parent key items
    · rfl
  | str _ | int _ | bool _ | float _ | dateTime _ => rfl

theorem blocksOfItems_eq (parent : List String) (key : String) : ∀ items : List Toml,
    blocksOfItems (parent ++ [key]) items = (sectionsOfItems parent key items).map Section.chars
  | [] => rfl
  | table members :: vs => by
    rw [blocksOfItems, sectionsOfItems, tableLines_eq, blocksWithin_eq, blocksOfItems_eq,
      List.map_append, List.map_append]
  | str _ :: vs | int _ :: vs | bool _ :: vs | float _ :: vs | dateTime _ :: vs | arr _ :: vs =>
    blocksOfItems_eq parent key vs

theorem blocksWithin_eq (path : List String) : ∀ members : List (String × Toml),
    blocksWithin path members = (sectionsWithin path members).map Section.chars
  | [] => rfl
  | (k, v) :: ms => by
    rw [blocksWithin, sectionsWithin, blocksOf_eq, blocksWithin_eq, List.map_append]

end

theorem pretty_eq (members : List (String × Toml)) :
    pretty members =
      String.ofList (documentChars (ownPairs members) (sectionsWithin [] members)) := by
  simp only [pretty, documentChars, ownLines_eq, isEmpty_lines, blocksWithin_eq]

theorem tableSections_below (k : String) (element : Bool) (parent : List String) (key : String)
    (members : List (String × Toml)) :
    tableSections element (k :: parent) key members =
      (tableSections element parent key members).map (Section.below k) := by
  unfold tableSections
  split <;> rfl

mutual

theorem sectionsOf_below (k : String) (parent : List String) (key : String) : ∀ v : Toml,
    sectionsOf (k :: parent) key v = (sectionsOf parent key v).map (Section.below k)
  | table members => by
    rw [sectionsOf, sectionsOf, tableSections_below, List.cons_append, sectionsWithin_below,
      List.map_append]
  | arr items => by
    rw [sectionsOf, sectionsOf]
    split
    · exact sectionsOfItems_below k parent key items
    · rfl
  | str _ | int _ | bool _ | float _ | dateTime _ => rfl

theorem sectionsOfItems_below (k : String) (parent : List String) (key : String) :
    ∀ items : List Toml, sectionsOfItems (k :: parent) key items =
      (sectionsOfItems parent key items).map (Section.below k)
  | [] => rfl
  | table members :: vs => by
    rw [sectionsOfItems, sectionsOfItems, tableSections_below, List.cons_append,
      sectionsWithin_below, sectionsOfItems_below, List.map_append, List.map_append]
  | str _ :: vs | int _ :: vs | bool _ :: vs | float _ :: vs | dateTime _ :: vs | arr _ :: vs =>
    sectionsOfItems_below k parent key vs

theorem sectionsWithin_below (k : String) (path : List String) :
    ∀ members : List (String × Toml), sectionsWithin (k :: path) members =
      (sectionsWithin path members).map (Section.below k)
  | [] => rfl
  | (key, v) :: ms => by
    rw [sectionsWithin, sectionsWithin, sectionsOf_below, sectionsWithin_below, List.map_append]

end

theorem sectionsWithin_append (path : List String) (l r : List (String × Toml)) :
    sectionsWithin path (l ++ r) = sectionsWithin path l ++ sectionsWithin path r := by
  induction l with
  | nil => rfl
  | cons m l ih =>
    obtain ⟨k, v⟩ := m
    rw [List.cons_append, sectionsWithin, sectionsWithin, ih, List.append_assoc]

theorem sectionsOf_of_no_header (parent : List String) (key : String) {v : Toml}
    (h : hasHeader v = false) : sectionsOf parent key v = [] := by
  cases v with
  | arr items =>
    rw [sectionsOf]
    split
    · rename_i hall
      cases items with
      | nil => rfl
      | cons w ws => simp [hasHeader, hall] at h
    · rfl
  | table members => exact absurd h (by simp [hasHeader])
  | _ => rfl

theorem sectionsWithin_of_no_header (path : List String) {members : List (String × Toml)}
    (h : ∀ m ∈ members, hasHeader m.2 = false) : sectionsWithin path members = [] := by
  induction members with
  | nil => rfl
  | cons m ms ih =>
    obtain ⟨k, v⟩ := m
    rw [sectionsWithin, sectionsOf_of_no_header path k (h (k, v) (List.mem_cons_self ..)),
      ih fun m' hm' => h m' (List.mem_cons_of_mem _ hm')]
    rfl

end SelfReference.Toml
