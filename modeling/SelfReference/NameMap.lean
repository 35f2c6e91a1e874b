/-!
# Maps ordered by name

A finite map from names to values is the list of its entries in strictly ascending order of
names, by code points.  Two maps that answer every lookup alike are equal, and each operation is
described by its effect on lookups.
-/

namespace SelfReference

/-- A finite map from names, its entries in strictly ascending order of names. -/
structure NameMap (α : Type) where
  entries : List (String × α)
  ascending : entries.Pairwise fun a b => a.1 < b.1

namespace NameMap

variable {α β : Type}

/-! ### Lookup -/

def get? (m : NameMap α) (name : String) : Option α := m.entries.lookup name

/-- The names in ascending order. -/
def names (m : NameMap α) : List String := m.entries.map (·.1)

/-- The values in the order of their names. -/
def values (m : NameMap α) : List α := m.entries.map (·.2)

def contains (m : NameMap α) (name : String) : Bool := (m.get? name).isSome

def size (m : NameMap α) : Nat := m.entries.length

/-- Whether there is no entry. -/
def isEmpty (m : NameMap α) : Bool := m.entries.isEmpty

theorem names_ascending (m : NameMap α) : m.names.Pairwise (· < ·) :=
  List.pairwise_map.2 m.ascending

theorem lookup_eq_some_iff {l : List (String × α)} (hl : l.Pairwise fun a b => a.1 < b.1)
    {name : String} {x : α} : l.lookup name = some x ↔ (name, x) ∈ l := by
  induction l with
  | nil => simp
  | cons e l ih =>
    obtain ⟨k, y⟩ := e
    rw [List.pairwise_cons] at hl
    by_cases hk : name = k
    · subst hk
      simp only [List.lookup_cons, beq_self_eq_true, List.mem_cons, Prod.mk.injEq,
        true_and, Option.some.injEq]
      constructor
      · intro h
        exact Or.inl h.symm
      · rintro (h | h)
        · exact h.symm
        · exact absurd (hl.1 _ h) (String.lt_irrefl _)
    · have hbeq : (name == k) = false := beq_eq_false_iff_ne.2 hk
      simp only [List.lookup_cons, hbeq, List.mem_cons,
        Prod.mk.injEq, hk, false_and, false_or]
      exact ih hl.2

theorem get?_eq_some_iff (m : NameMap α) {name : String} {x : α} :
    m.get? name = some x ↔ (name, x) ∈ m.entries := lookup_eq_some_iff m.ascending

theorem mem_names_iff (m : NameMap α) {name : String} :
    name ∈ m.names ↔ ∃ x, m.get? name = some x := by
  simp only [names, List.mem_map, get?_eq_some_iff]
  constructor
  · rintro ⟨⟨k, x⟩, h, rfl⟩
    exact ⟨x, h⟩
  · rintro ⟨x, h⟩
    exact ⟨(name, x), h, rfl⟩

theorem contains_iff_mem (m : NameMap α) {name : String} :
    m.contains name = true ↔ name ∈ m.names := by
  rw [mem_names_iff, contains, Option.isSome_iff_exists]

theorem eq_of_lookup_eq {l l' : List (String × α)} (hl : l.Pairwise fun a b => a.1 < b.1)
    (hl' : l'.Pairwise fun a b => a.1 < b.1) (h : ∀ name, l.lookup name = l'.lookup name) :
    l = l' := by
  have hmem (e : String × α) : e ∈ l ↔ e ∈ l' := by
    obtain ⟨k, x⟩ := e
    rw [← lookup_eq_some_iff hl, ← lookup_eq_some_iff hl', h]
  clear h
  induction l generalizing l' with
  | nil =>
    cases l' with
    | nil => rfl
    | cons e l' => exact absurd ((hmem e).2 (List.mem_cons_self ..)) (by simp)
  | cons e l ih =>
    cases l' with
    | nil => exact absurd ((hmem e).1 (List.mem_cons_self ..)) (by simp)
    | cons e' l' =>
      rw [List.pairwise_cons] at hl hl'
      have heq : e = e' := by
        rcases List.mem_cons.1 ((hmem e).1 (List.mem_cons_self ..)) with h | h
        · exact h
        rcases List.mem_cons.1 ((hmem e').2 (List.mem_cons_self ..)) with h' | h'
        · exact h'.symm
        · exact absurd (hl'.1 _ h) (String.lt_asymm (hl.1 _ h'))
      subst heq
      rw [ih hl.2 hl'.2 fun x => ?_]
      constructor
      · intro hx
        rcases List.mem_cons.1 ((hmem x).1 (List.mem_cons_of_mem _ hx)) with h | h
        · exact absurd (hl.1 _ (h ▸ hx)) (String.lt_irrefl _)
        · exact h
      · intro hx
        rcases List.mem_cons.1 ((hmem x).2 (List.mem_cons_of_mem _ hx)) with h | h
        · exact absurd (hl'.1 _ (h ▸ hx)) (String.lt_irrefl _)
        · exact h

theorem ext_get? {m m' : NameMap α} (h : ∀ name, m.get? name = m'.get? name) : m = m' := by
  cases m with | mk l hl =>
  cases m' with | mk l' hl' =>
  congr
  exact eq_of_lookup_eq hl hl' h

instance [DecidableEq α] : DecidableEq (NameMap α) := fun m m' =>
  decidable_of_iff (m.entries = m'.entries) ⟨fun h => by cases m; cases m'; cases h; rfl,
    fun h => h ▸ rfl⟩

/-! ### Building -/

/-- No entries. -/
def empty : NameMap α := ⟨[], List.Pairwise.nil⟩

instance : Inhabited (NameMap α) := ⟨empty⟩

/-- Puts a value at a name into ascending entries, in place of the one there. -/
def insertEntry (name : String) (x : α) : List (String × α) → List (String × α)
  | [] => [(name, x)]
  | e :: l =>
    if name < e.1 then (name, x) :: e :: l
    else if name = e.1 then (name, x) :: l
    else e :: insertEntry name x l

theorem mem_insertEntry {name : String} {x : α} {e : String × α} {l : List (String × α)}
    (h : e ∈ insertEntry name x l) : e = (name, x) ∨ e ∈ l := by
  induction l with
  | nil => exact Or.inl (by simpa [insertEntry] using h)
  | cons e' l ih =>
    unfold insertEntry at h
    split at h
    · simpa using h
    split at h
    · rcases List.mem_cons.1 h with h | h
      · exact Or.inl h
      · exact Or.inr (List.mem_cons_of_mem _ h)
    · rcases List.mem_cons.1 h with h | h
      · exact Or.inr (h ▸ List.mem_cons_self ..)
      · exact (ih h).imp_right (List.mem_cons_of_mem _)

theorem lt_of_not_lt_of_ne {a b : String} (h : ¬ a < b) (hne : a ≠ b) : b < a :=
  Decidable.byContradiction fun h' =>
    hne (String.le_antisymm (String.not_lt.1 h') (String.not_lt.1 h))

theorem insertEntry_ascending (name : String) (x : α) {l : List (String × α)}
    (hl : l.Pairwise fun a b => a.1 < b.1) :
    (insertEntry name x l).Pairwise fun a b => a.1 < b.1 := by
  induction l with
  | nil => simp [insertEntry]
  | cons e l ih =>
    rw [List.pairwise_cons] at hl
    unfold insertEntry
    split
    · rename_i h
      refine List.pairwise_cons.2 ⟨fun y hy => ?_, List.pairwise_cons.2 hl⟩
      rcases List.mem_cons.1 hy with rfl | hy
      · exact h
      · exact String.lt_trans h (hl.1 _ hy)
    split
    · rename_i h
      exact List.pairwise_cons.2 ⟨fun y hy => h ▸ hl.1 _ hy, hl.2⟩
    · rename_i h hne
      refine List.pairwise_cons.2 ⟨fun y hy => ?_, ih hl.2⟩
      rcases mem_insertEntry hy with rfl | hy
      · exact lt_of_not_lt_of_ne h hne
      · exact hl.1 _ hy

theorem lookup_insertEntry (name : String) (x : α) (l : List (String × α)) (k : String) :
    (insertEntry name x l).lookup k = if k = name then some x else l.lookup k := by
  induction l with
  | nil =>
    by_cases h : k = name
    · simp [insertEntry, h]
    · simp [insertEntry, List.lookup_cons, beq_eq_false_iff_ne.2 h, h]
  | cons e l ih =>
    obtain ⟨k', y⟩ := e
    unfold insertEntry
    split
    · by_cases h : k = name
      · simp [h]
      · simp [List.lookup_cons, beq_eq_false_iff_ne.2 h, h]
    split
    · rename_i h
      simp only at h
      subst h
      by_cases h : k = name
      · simp [h]
      · simp [List.lookup_cons, beq_eq_false_iff_ne.2 h, h]
    · rename_i h hne
      by_cases hk : k = k'
      · subst hk
        simp only at hne
        simp [Ne.symm hne]
      · simp [List.lookup_cons, beq_eq_false_iff_ne.2 hk, ih]

/-- Puts a value at a name, in place of the one there. -/
def insert (m : NameMap α) (name : String) (x : α) : NameMap α :=
  ⟨insertEntry name x m.entries, insertEntry_ascending name x m.ascending⟩

@[simp] theorem get?_insert (m : NameMap α) (name : String) (x : α) (k : String) :
    (m.insert name x).get? k = if k = name then some x else m.get? k :=
  lookup_insertEntry name x m.entries k

/-- The map of a list of pairs; a later pair replaces an earlier one of the same name. -/
def ofList (pairs : List (String × α)) : NameMap α :=
  pairs.foldl (fun m e => m.insert e.1 e.2) empty

/-- The map that gives each listed name its value under `f`. -/
def tabulate (names : List String) (f : String → α) : NameMap α :=
  ofList (names.map fun n => (n, f n))

theorem get?_foldl_insert (pairs : List (String × α)) (m : NameMap α) (k : String) :
    (pairs.foldl (fun m e => m.insert e.1 e.2) m).get? k =
      (pairs.reverse.lookup k).or (m.get? k) := by
  induction pairs generalizing m with
  | nil => simp
  | cons e pairs ih =>
    obtain ⟨k', x⟩ := e
    rw [List.foldl_cons, ih, get?_insert, List.reverse_cons, List.lookup_append, Option.or_assoc]
    by_cases h : k = k'
    · simp [h]
    · simp [List.lookup_cons, beq_eq_false_iff_ne.2 h, h]

/-- The last pair of a name decides. -/
theorem get?_ofList (pairs : List (String × α)) (k : String) :
    (ofList pairs).get? k = pairs.reverse.lookup k := by
  rw [ofList, get?_foldl_insert]
  simp [get?, empty]

theorem lookup_map_self (ns : List String) (f : String → α) (k : String) :
    (ns.map fun n => (n, f n)).lookup k = if k ∈ ns then some (f k) else none := by
  induction ns with
  | nil => simp
  | cons n ns ih =>
    by_cases h : k = n
    · simp [h]
    · simp [List.lookup_cons, beq_eq_false_iff_ne.2 h, ih, h]

@[simp] theorem get?_tabulate (ns : List String) (f : String → α) (k : String) :
    (tabulate ns f).get? k = if k ∈ ns then some (f k) else none := by
  rw [tabulate, get?_ofList, ← List.map_reverse, lookup_map_self]
  simp

theorem mem_names_tabulate (ns : List String) (f : String → α) (k : String) :
    k ∈ (tabulate ns f).names ↔ k ∈ ns := by
  rw [mem_names_iff]
  by_cases h : k ∈ ns <;> simp [h]

/-! ### Mapping -/

/-- Replaces every value by its image, names kept. -/
def map (f : String → α → β) (m : NameMap α) : NameMap β :=
  ⟨m.entries.map fun e => (e.1, f e.1 e.2), List.pairwise_map.2 m.ascending⟩

@[simp] theorem names_map (f : String → α → β) (m : NameMap α) : (m.map f).names = m.names := by
  simp [names, map, Function.comp_def]

@[simp] theorem get?_map (f : String → α → β) (m : NameMap α) (k : String) :
    (m.map f).get? k = (m.get? k).map (f k) := by
  simp only [get?, map]
  induction m.entries with
  | nil => rfl
  | cons e l ih =>
    obtain ⟨k', x⟩ := e
    by_cases h : k = k'
    · simp [h]
    · simp [List.lookup_cons, beq_eq_false_iff_ne.2 h, ih]

def filter (p : String → α → Bool) (m : NameMap α) : NameMap α :=
  ⟨m.entries.filter fun e => p e.1 e.2, m.ascending.sublist List.filter_sublist⟩

end NameMap

end SelfReference
