import SelfReference.Proofs.TomlSections

/-!
# Tables of TOML are read back

The sections that a value is written in put the value at any key that is new, by an induction on
the value: a table is what its own lines and the sections of its members make of it, and an element
of an array of tables is finished when the next one begins.  All of a document is read back that
way, unless the path of a header has more keys than a dotted key may have.
-/

namespace SelfReference.Toml

open Draft

/-! ### Values over lines -/

/-- A value that is written over lines and read back from them: tables with bare keys that differ,
the members on one line first, and arrays of such tables. -/
inductive Lined : Toml → Prop where
  | table {own lower : List (String × Toml)} (hown : ∀ m ∈ own, OnLine m.2)
      (hlower : ∀ m ∈ lower, Lined m.2) (hbare : ∀ m ∈ own ++ lower, IsBareKey m.1)
      (hnodup : ((own ++ lower).map (·.1)).Nodup) : Lined (.table (own ++ lower))
  | tables {items : List (List (String × Toml))} (hsome : items ≠ [])
      (hitems : ∀ members ∈ items, Lined (.table members)) : Lined (.arr (items.map .table))

theorem all_isTable (items : List (List (String × Toml))) :
    (items.map Toml.table).all isTable = true := by
  induction items with
  | nil => rfl
  | cons members items ih => exact ih

theorem Lined.hasHeader {v : Toml} (h : Lined v) : hasHeader v = true := by
  cases h with
  | table => rfl
  | tables hsome =>
    rename_i items
    obtain ⟨members, items, rfl⟩ := List.exists_cons_of_ne_nil hsome
    rw [Toml.hasHeader, all_isTable]
    rfl

theorem Lined.ofOwn {key : String} {v : Toml} (hkey : IsBareKey key) (h : OnLine v) :
    Lined (.table [(key, v)]) := by
  have hall : ∀ m ∈ [(key, v)], m = (key, v) := fun m hm => List.mem_singleton.1 hm
  show Lined (.table ([(key, v)] ++ []))
  exact .table (fun m hm => hall m hm ▸ h) (fun m hm => absurd hm List.not_mem_nil)
    (fun m hm => hall m hm ▸ hkey) (by simp)

theorem Lined.ofLower {key : String} {v : Toml} (hkey : IsBareKey key) (h : Lined v) :
    Lined (.table [(key, v)]) := by
  have hall : ∀ m ∈ [(key, v)], m = (key, v) := fun m hm => List.mem_singleton.1 hm
  show Lined (.table ([] ++ [(key, v)]))
  exact .table (fun m hm => absurd hm List.not_mem_nil) (fun m hm => hall m hm ▸ h)
    (fun m hm => hall m hm ▸ hkey) (by simp)

theorem Lined.arr {items : List Toml} (hsome : items ≠ [])
    (htable : ∀ v ∈ items, isTable v = true) (hitems : ∀ v ∈ items, Lined v) :
    Lined (.arr items) := by
  have hmap : ∃ tables : List (List (String × Toml)), items = tables.map .table := by
    clear hsome hitems
    induction items with
    | nil => exact ⟨[], rfl⟩
    | cons v items ih =>
      obtain ⟨tables, rfl⟩ := ih fun w hw => htable w (List.mem_cons_of_mem _ hw)
      have hv := htable v (List.mem_cons_self ..)
      cases v with
      | table members => exact ⟨members :: tables, rfl⟩
      | _ => exact Bool.noConfusion hv
  obtain ⟨tables, rfl⟩ := hmap
  refine .tables (fun h => hsome (by rw [h]; rfl)) fun members hm => ?_
  exact hitems _ (List.mem_map_of_mem hm)

theorem ownPairs_append {own lower : List (String × Toml)} (hown : ∀ m ∈ own, OnLine m.2)
    (hlower : ∀ m ∈ lower, Lined m.2) : ownPairs (own ++ lower) = own := by
  have hl : own.filter (fun m => !hasHeader m.2) = own := by
    refine List.filter_eq_self.2 fun m hm => ?_
    rw [(hown m hm).hasHeader]
    rfl
  have hr : lower.filter (fun m => !hasHeader m.2) = [] := by
    refine List.filter_eq_nil_iff.2 fun m hm => ?_
    rw [(hlower m hm).hasHeader]
    decide
  rw [ownPairs, List.filter_append, hl, hr, List.append_nil]

/-- What the lines and sections of a table make of it. -/
def fill (members : List (String × Toml)) : Option Members :=
  (defineAll [] (ownPairs members) []).bind (applyAll (sectionsWithin [] members))

def Fills (members : List (String × Toml)) : Prop :=
  ∃ inner, fill members = some inner ∧ finishMembers inner = members

/-- The sections of a value put it at any key that is new. -/
def Grows (v : Toml) : Prop :=
  ∀ key (ms : Members), key ∉ ms.map (·.1) →
    ∃ d, applyAll (sectionsOf [] key v) ms = some (ms ++ [(key, d)]) ∧ d.finish = v

/-- A header that opens the table at a key, the lines under it and the tables below. -/
theorem applyAll_opened {key : String} {ms start : Members} {hole : Members → Draft}
    (hhole : Entered hole) (h : key ∉ ms.map (·.1)) (element : Bool)
    (hstart : (if element then openElement key else openTable key) start =
      some (ms ++ [(key, hole [])])) (members : List (String × Toml)) :
    applyAll (⟨element, [], key, ownPairs members⟩ :: sectionsWithin [key] members) start =
      (fill members).map fun inner => ms ++ [(key, hole inner)] := by
  have happly : Section.apply ⟨element, [], key, ownPairs members⟩ start =
      defineAll [key] (ownPairs members) (ms ++ [(key, hole [])]) := by
    show ((if element then openElement key else openTable key) start).bind _ = _
    rw [hstart]
    rfl
  rw [applyAll_cons, happly, defineAll_last hhole h, sectionsWithin_below, fill]
  cases defineAll [] (ownPairs members) [] with
  | none => rfl
  | some inner => exact applyAll_below_last hhole h _ inner

theorem Grows.table {members : List (String × Toml)} (h : Fills members) :
    Grows (.table members) := by
  intro key ms hkey
  obtain ⟨inner, hfill, hfinish⟩ := h
  rw [sectionsOf, List.nil_append, tableSections]
  split
  · have hopen : openTable key ms = some (ms ++ [(key, .table .opened [])]) := alter_new hkey _
    have hopened := applyAll_opened (.table .opened) hkey false hopen members
    rw [hfill] at hopened
    exact ⟨.table .opened inner, hopened, by rw [finish, hfinish]⟩
  · -- the headers further down bring the table about
    rename_i hskipped
    simp only [Bool.or_eq_true, Bool.not_eq_true', not_or, Bool.not_eq_true, ne_eq,
      Decidable.not_not, List.isEmpty_iff, List.isEmpty_eq_false_iff] at hskipped
    obtain ⟨⟨-, hown⟩, hmembers⟩ := hskipped
    have hsections : applyAll (sectionsWithin [] members) [] = some inner := by
      rw [fill, hown] at hfill
      exact hfill
    have hsome : sectionsWithin [] members ≠ [] := by
      intro hnone
      rw [hnone] at hsections
      have hempty : inner = [] := (Option.some.inj hsections).symm
      rw [hempty] at hfinish
      exact hmembers hfinish.symm
    refine ⟨.table .passed inner, ?_, by rw [finish, hfinish]⟩
    rw [List.nil_append, sectionsWithin_below, applyAll_below_new hkey hsome, hsections]
    rfl

theorem sectionsOfItems_cons (key : String) (members : List (String × Toml)) (vs : List Toml) :
    sectionsOfItems [] key (.table members :: vs) =
      (⟨true, [], key, ownPairs members⟩ :: sectionsWithin [key] members) ++
        sectionsOfItems [] key vs := rfl

/-- Every section of an element finishes the element before it. -/
theorem applyAll_items {key : String} {ms : Members} (h : key ∉ ms.map (·.1))
    {items : List (List (String × Toml))} (hitems : ∀ members ∈ items, Fills members)
    (finished : List Toml) (inner : Members) :
    ∃ d, applyAll (sectionsOfItems [] key (items.map .table))
        (ms ++ [(key, .tables finished inner)]) = some (ms ++ [(key, d)]) ∧
      d.finish = .arr (finished.reverse ++ .table (finishMembers inner) :: items.map .table) := by
  induction items generalizing finished inner with
  | nil => exact ⟨_, rfl, rfl⟩
  | cons members items ih =>
    obtain ⟨inner', hfill, hfinish⟩ := hitems members (List.mem_cons_self ..)
    obtain ⟨d, hd, hdfinish⟩ := ih (fun ms' hms' => hitems ms' (List.mem_cons_of_mem _ hms'))
      (.table (finishMembers inner) :: finished) inner'
    have hopen : openElement key (ms ++ [(key, .tables finished inner)]) =
        some (ms ++ [(key, .tables (.table (finishMembers inner) :: finished) [])]) :=
      alter_last h _ _
    have hopened := applyAll_opened
      (.tables (.table (finishMembers inner) :: finished)) h true hopen members
    rw [hfill] at hopened
    refine ⟨d, ?_, ?_⟩
    · rw [List.map_cons, sectionsOfItems_cons, applyAll_append, hopened]
      exact hd
    · rw [hdfinish, hfinish]
      simp

theorem Grows.tables {items : List (List (String × Toml))} (hsome : items ≠ [])
    (hitems : ∀ members ∈ items, Fills members) : Grows (.arr (items.map .table)) := by
  intro key ms hkey
  obtain ⟨members, items, rfl⟩ := List.exists_cons_of_ne_nil hsome
  obtain ⟨inner, hfill, hfinish⟩ := hitems members (List.mem_cons_self ..)
  have hopen : openElement key ms = some (ms ++ [(key, .tables [] [])]) := alter_new hkey _
  have hopened := applyAll_opened (.tables []) hkey true hopen members
  rw [hfill] at hopened
  obtain ⟨d, hd, hdfinish⟩ := applyAll_items hkey
    (fun ms' hms' => hitems ms' (List.mem_cons_of_mem _ hms')) [] inner
  refine ⟨d, ?_, ?_⟩
  · rw [sectionsOf, if_pos (all_isTable _), List.map_cons, sectionsOfItems_cons, applyAll_append,
      hopened]
    exact hd
  · rw [hdfinish, hfinish]
    rfl

theorem applyAll_within {members : List (String × Toml)} (hgrows : ∀ m ∈ members, Grows m.2)
    (hnodup : (members.map (·.1)).Nodup) {ms : Members}
    (hnew : ∀ k ∈ members.map (·.1), k ∉ ms.map (·.1)) :
    ∃ inner, applyAll (sectionsWithin [] members) ms = some (ms ++ inner) ∧
      finishMembers inner = members := by
  induction members generalizing ms with
  | nil => exact ⟨[], by rw [List.append_nil]; rfl, rfl⟩
  | cons m members ih =>
    obtain ⟨k, v⟩ := m
    rw [List.map_cons, List.nodup_cons] at hnodup
    have hk : k ∉ ms.map (·.1) := hnew k (List.mem_cons_self ..)
    obtain ⟨d, hd, hdfinish⟩ := hgrows (k, v) (List.mem_cons_self ..) k ms hk
    have hrest := keys_new_append d hnodup.1 hnew
    obtain ⟨inner, hinner, hfinish⟩ :=
      ih (fun m' hm' => hgrows m' (List.mem_cons_of_mem _ hm')) hnodup.2 hrest
    refine ⟨(k, d) :: inner, ?_, by rw [finishMembers, hdfinish, hfinish]⟩
    rw [sectionsWithin, applyAll_append]
    simp only at hd
    rw [hd, Option.bind_some, hinner, List.append_assoc]
    rfl

theorem Fills.of_append {own lower : List (String × Toml)} (hown : ∀ m ∈ own, OnLine m.2)
    (hlower : ∀ m ∈ lower, Lined m.2) (hgrows : ∀ m ∈ lower, Grows m.2)
    (hnodup : ((own ++ lower).map (·.1)).Nodup) : Fills (own ++ lower) := by
  rw [List.map_append, List.nodup_append] at hnodup
  obtain ⟨hnodupOwn, hnodupLower, hdisjoint⟩ := hnodup
  have hvalues : defineAll [] own [] = some (values own) :=
    defineAll_new hnodupOwn fun _ _ => List.not_mem_nil
  have hkeys : (values own).map (·.1) = own.map (·.1) := by
    rw [← keys_finishMembers, finishMembers_values]
  have hnew : ∀ k ∈ lower.map (·.1), k ∉ (values own).map (·.1) := by
    intro k hk hmem
    rw [hkeys] at hmem
    exact hdisjoint k hmem k hk rfl
  obtain ⟨inner, hinner, hfinish⟩ := applyAll_within hgrows hnodupLower hnew
  refine ⟨values own ++ inner, ?_, ?_⟩
  · rw [fill, ownPairs_append hown hlower, hvalues, sectionsWithin_append,
      sectionsWithin_of_no_header [] fun m hm => (hown m hm).hasHeader]
    exact hinner
  · rw [finishMembers_append, finishMembers_values, hfinish]

theorem Lined.grows {v : Toml} (h : Lined v) :
    Grows v ∧ ∀ members, v = .table members → Fills members := by
  induction h with
  | table hown hlower hbare hnodup ih =>
    have hfills := Fills.of_append hown hlower (fun m hm => (ih m hm).1) hnodup
    refine ⟨.table hfills, fun members heq => ?_⟩
    cases heq
    exact hfills
  | tables hsome hitems ih =>
    refine ⟨.tables hsome fun members hm => (ih members hm).2 members rfl, fun members heq => ?_⟩
    cases heq

/-! ### Well-formed sections -/

theorem Lined.own {members : List (String × Toml)} (h : Lined (.table members)) :
    ∀ m ∈ ownPairs members, IsBareKey m.1 ∧ OnLine m.2 := by
  cases h with
  | table hown hlower hbare hnodup =>
    rw [ownPairs_append hown hlower]
    exact fun m hm => ⟨hbare m (List.mem_append_left _ hm), hown m hm⟩

theorem Lined.tableSections_wellFormed {members : List (String × Toml)} (h : Lined (.table members))
    (element : Bool) {parent : List String} {key : String}
    (hpath : ∀ k ∈ parent ++ [key], IsBareKey k) :
    ∀ s ∈ tableSections element parent key members, s.WellFormed := by
  intro s hs
  unfold tableSections at hs
  split at hs
  · rw [List.mem_singleton.1 hs]
    exact ⟨hpath, h.own⟩
  · exact absurd hs List.not_mem_nil

theorem sectionsWithin_wellFormed {path : List String} {members : List (String × Toml)}
    (h : ∀ m ∈ members, ∀ s ∈ sectionsOf path m.1 m.2, s.WellFormed) :
    ∀ s ∈ sectionsWithin path members, s.WellFormed := by
  induction members with
  | nil => exact fun s hs => absurd hs List.not_mem_nil
  | cons m members ih =>
    intro s hs
    obtain ⟨k, v⟩ := m
    rw [sectionsWithin, List.mem_append] at hs
    rcases hs with hs | hs
    · exact h (k, v) (List.mem_cons_self ..) s hs
    · exact ih (fun m' hm' => h m' (List.mem_cons_of_mem _ hm')) s hs

theorem sectionsOfItems_wellFormed {parent : List String} {key : String}
    (hpath : ∀ k ∈ parent ++ [key], IsBareKey k) {items : List (List (String × Toml))}
    (hitems : ∀ members ∈ items, Lined (.table members))
    (h : ∀ members ∈ items, ∀ s ∈ sectionsWithin (parent ++ [key]) members, s.WellFormed) :
    ∀ s ∈ sectionsOfItems parent key (items.map .table), s.WellFormed := by
  induction items with
  | nil => exact fun s hs => absurd hs List.not_mem_nil
  | cons members items ih =>
    intro s hs
    rw [List.map_cons, sectionsOfItems, List.mem_append, List.mem_append] at hs
    rcases hs with (hs | hs) | hs
    · exact (hitems members (List.mem_cons_self ..)).tableSections_wellFormed true hpath s hs
    · exact h members (List.mem_cons_self ..) s hs
    · exact ih (fun ms hms => hitems ms (List.mem_cons_of_mem _ hms))
        (fun ms hms => h ms (List.mem_cons_of_mem _ hms)) s hs

theorem Lined.wellFormed {v : Toml} (h : Lined v) :
    (∀ parent key, (∀ k ∈ parent ++ [key], IsBareKey k) →
      ∀ s ∈ sectionsOf parent key v, s.WellFormed) ∧
    ∀ members, v = .table members → ∀ path, (∀ k ∈ path, IsBareKey k) →
      ∀ s ∈ sectionsWithin path members, s.WellFormed := by
  induction h with
  | table hown hlower hbare hnodup ih =>
    rename_i own lower
    have hwithin : ∀ path : List String, (∀ k ∈ path, IsBareKey k) →
        ∀ s ∈ sectionsWithin path (own ++ lower), s.WellFormed := by
      intro path hpath
      refine sectionsWithin_wellFormed fun m hm => ?_
      rcases List.mem_append.1 hm with hm' | hm'
      · rw [sectionsOf_of_no_header path m.1 (hown m hm').hasHeader]
        exact fun s hs => absurd hs List.not_mem_nil
      · refine (ih m hm').1 path m.1 fun k hk => ?_
        rcases List.mem_append.1 hk with hk | hk
        · exact hpath k hk
        · exact List.mem_singleton.1 hk ▸ hbare m hm
    refine ⟨fun parent key hpath s hs => ?_, fun members heq => ?_⟩
    · rw [sectionsOf, List.mem_append] at hs
      rcases hs with hs | hs
      · exact (Lined.table hown hlower hbare hnodup).tableSections_wellFormed false hpath s hs
      · exact hwithin _ hpath s hs
    · cases heq
      exact hwithin
  | tables hsome hitems ih =>
    refine ⟨fun parent key hpath => ?_, fun members heq => ?_⟩
    · rw [sectionsOf, if_pos (all_isTable _)]
      exact sectionsOfItems_wellFormed hpath hitems fun members hm =>
        (ih members hm).2 members rfl _ hpath
    · cases heq

/-! ### Documents -/

theorem ofStatements?_fill (members : List (String × Toml)) :
    Document.ofStatements? (((ownPairs members).map fun m => .pair [m.1] m.2) ++
        (sectionsWithin [] members).flatMap Section.statements) =
      (fill members).map finishMembers := by
  rw [Document.ofStatements?, List.foldlM_append, Document.foldlM_add_pairs, fill]
  show Option.map _ (((defineAll [] (ownPairs members) []).map _).bind _) = _
  cases defineAll [] (ownPairs members) [] with
  | none => rfl
  | some ms =>
    have hsections := Document.foldlM_add_sections (sectionsWithin [] members) ⟨[], ms⟩
    rw [Option.map_some, Option.bind_some, Option.bind_some, ← hsections, Option.map_map]
    rfl

/-- A table over lines is read back, unless the path of a header has more keys than are read. -/
theorem read?_pretty {members : List (String × Toml)} (h : Lined (.table members)) :
    read? (pretty members) =
      if ∀ s ∈ sectionsWithin [] members, s.path.length ≤ keyLimit then some members
      else none := by
  obtain ⟨inner, hfill, hfinish⟩ := h.grows.2 members rfl
  have hwf := h.wellFormed.2 members rfl [] fun k hk => absurd hk List.not_mem_nil
  rw [pretty_eq, read?_documentChars h.own hwf, ofStatements?_fill, hfill, Option.map_some, hfinish]

/-! ### Lengths of paths -/

theorem sectionsOf_own (parent : List String) (key k : String) {v : Toml}
    (h : hasHeader v = false) :
    sectionsOf parent key (.table [(k, v)]) = [⟨false, parent, key, [(k, v)]⟩] := by
  have hown : ownPairs [(k, v)] = [(k, v)] := by simp [ownPairs, h]
  rw [sectionsOf, tableSections, hown, sectionsWithin, sectionsWithin,
    sectionsOf_of_no_header _ _ h]
  rfl

theorem sectionsOf_lower (parent : List String) (key k : String) {v : Toml}
    (h : hasHeader v = true) :
    sectionsOf parent key (.table [(k, v)]) = sectionsOf (parent ++ [key]) k v := by
  have hown : ownPairs [(k, v)] = [] := by simp [ownPairs, h]
  rw [sectionsOf, tableSections, hown, sectionsWithin, sectionsWithin, List.append_nil]
  rfl

/-- An element has a header with the same path as a table at its key would have. -/
theorem fits_sectionsOfItems_cons {parent : List String} {key : String} {limit : Nat}
    {members : List (String × Toml)} {vs : List Toml} :
    (∀ s ∈ sectionsOfItems parent key (.table members :: vs), s.path.length ≤ limit) ↔
      (parent.length + 1 ≤ limit ∧
        ∀ s ∈ sectionsOf parent key (.table members), s.path.length ≤ limit) ∧
      ∀ s ∈ sectionsOfItems parent key vs, s.path.length ≤ limit := by
  have helement : tableSections true parent key members =
      [⟨true, parent, key, ownPairs members⟩] := rfl
  have htable : ∀ s ∈ tableSections false parent key members,
      s.path.length = parent.length + 1 := by
    intro s hs
    unfold tableSections at hs
    split at hs
    · rw [List.mem_singleton.1 hs, Section.length_path]
    · exact absurd hs List.not_mem_nil
  rw [sectionsOfItems, sectionsOf, helement, List.forall_mem_append, List.forall_mem_append,
    List.forall_mem_append, List.forall_mem_singleton, Section.length_path]
  refine and_congr_left fun _ => ⟨fun ⟨hlimit, hwithin⟩ => ⟨hlimit, fun s hs => ?_, hwithin⟩,
    fun ⟨hlimit, _, hwithin⟩ => ⟨hlimit, hwithin⟩⟩
  rw [htable s hs]
  exact hlimit

end SelfReference.Toml
