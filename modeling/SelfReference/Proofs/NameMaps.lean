import Mathlib.Data.List.Nodup
import SelfReference.NameMap

/-!
# Maps by their entries

A map is determined by its names and its values at them, and a list of pairs with distinct names
makes a map of exactly these pairs.
-/

namespace SelfReference.NameMap

variable {α : Type}

theorem get?_eq_none_iff (m : NameMap α) {name : String} :
    m.get? name = none ↔ name ∉ m.names := by
  rw [mem_names_iff, ← Option.isSome_iff_exists, Option.isSome_iff_ne_none, not_not]

theorem length_names (m : NameMap α) : m.names.length = m.size := List.length_map ..

theorem nodup_of_ascending {l : List String} (h : l.Pairwise (· < ·)) : l.Nodup := by
  refine List.Pairwise.imp ?_ h
  intro a b hlt heq
  rw [heq] at hlt
  exact String.lt_irrefl _ hlt

theorem eq_of_ascending {l l' : List String} (h : l.Pairwise (· < ·)) (h' : l'.Pairwise (· < ·))
    (hmem : ∀ a, a ∈ l ↔ a ∈ l') : l = l' := by
  have hperm : l.Perm l' :=
    (List.perm_ext_iff_of_nodup (nodup_of_ascending h) (nodup_of_ascending h')).2 hmem
  refine hperm.eq_of_pairwise (fun a b _ _ hab hba => ?_) h h'
  exact absurd (String.lt_trans hab hba) (String.lt_irrefl a)

theorem names_nodup (m : NameMap α) : m.names.Nodup := nodup_of_ascending m.names_ascending

theorem eq_empty_of_names {m : NameMap α} (h : m.names = []) : m = .empty := by
  refine ext_get? fun n => ?_
  rw [m.get?_eq_none_iff.2 (h ▸ List.not_mem_nil)]
  rfl

/-- Maps over the same names are equal if they agree on them. -/
theorem ext_names {m m' : NameMap α} (hnames : m.names = m'.names)
    (h : ∀ n ∈ m.names, m.get? n = m'.get? n) : m = m' := by
  refine ext_get? fun n => ?_
  by_cases hn : n ∈ m.names
  · exact h n hn
  · rw [m.get?_eq_none_iff.2 hn, m'.get?_eq_none_iff.2 (hnames ▸ hn)]

/-! ### Maps of lists -/

theorem lookup_eq_some_iff_mem {l : List (String × α)} (hl : (l.map (·.1)).Nodup) {k : String}
    {x : α} : l.lookup k = some x ↔ (k, x) ∈ l := by
  induction l with
  | nil => simp
  | cons e l ih =>
    obtain ⟨k', y⟩ := e
    rw [List.map_cons, List.nodup_cons] at hl
    by_cases hk : k = k'
    · subst hk
      have hrest : (k, x) ∉ l := fun h => hl.1 (List.mem_map.2 ⟨(k, x), h, rfl⟩)
      simp [hrest, eq_comm]
    · simp [List.lookup_cons, beq_eq_false_iff_ne.2 hk, hk, ih hl.2]

/-- Where names are listed once each, the map holds exactly the listed pairs. -/
theorem get?_ofList_eq_some_iff {pairs : List (String × α)} (h : (pairs.map (·.1)).Nodup)
    {k : String} {x : α} : (ofList pairs).get? k = some x ↔ (k, x) ∈ pairs := by
  have hrev : (pairs.reverse.map (·.1)).Nodup := by
    rw [List.map_reverse, List.nodup_reverse]
    exact h
  rw [get?_ofList, lookup_eq_some_iff_mem hrev, List.mem_reverse]

theorem mem_names_ofList {pairs : List (String × α)} (h : (pairs.map (·.1)).Nodup) {k : String} :
    k ∈ (ofList pairs).names ↔ k ∈ pairs.map (·.1) := by
  rw [mem_names_iff, List.mem_map]
  constructor
  · rintro ⟨x, hx⟩
    exact ⟨(k, x), (get?_ofList_eq_some_iff h).1 hx, rfl⟩
  · rintro ⟨⟨k, x⟩, hmem, rfl⟩
    exact ⟨x, (get?_ofList_eq_some_iff h).2 hmem⟩

/-- Where names are listed once each, their order does not matter. -/
theorem ofList_eq_of_perm {pairs pairs' : List (String × α)} (hperm : pairs.Perm pairs')
    (h : (pairs.map (·.1)).Nodup) : ofList pairs = ofList pairs' := by
  have h' : (pairs'.map (·.1)).Nodup := (hperm.map _).nodup_iff.1 h
  refine ext_get? fun k => Option.ext fun x => ?_
  rw [get?_ofList_eq_some_iff h, get?_ofList_eq_some_iff h', hperm.mem_iff]

theorem entries_ofList_perm {pairs : List (String × α)} (h : (pairs.map (·.1)).Nodup) :
    (ofList pairs).entries.Perm pairs := by
  have hentries : (ofList pairs).entries.Nodup := List.Nodup.of_map _ (names_nodup _)
  refine (List.perm_ext_iff_of_nodup hentries (List.Nodup.of_map _ h)).2 fun ⟨k, x⟩ => ?_
  rw [← get?_eq_some_iff, get?_ofList_eq_some_iff h]

/-- The entries of a map make up the map. -/
theorem ofList_entries (m : NameMap α) : ofList m.entries = m := by
  refine ext_get? fun k => Option.ext fun x => ?_
  rw [get?_ofList_eq_some_iff m.names_nodup, get?_eq_some_iff]

end SelfReference.NameMap
