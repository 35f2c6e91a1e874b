import SelfReference.Run
import SelfReference.Proofs.Evidence

/-!
# Renaming what a run gives

Maps, assignments, metrics and outcomes with other names.  A renaming that keeps the names of a map
apart keeps its lookups and its values; their order may change.
-/

namespace SelfReference

/-! ### Maps -/

namespace NameMap

variable {α : Type}

def rename (r : String → String) (m : NameMap α) : NameMap α :=
  ofList (m.entries.map fun e => (r e.1, e.2))

section Apart

variable {r : String → String} {N : Set String} (hr : Set.InjOn r N) {m : NameMap α}
  (hm : ∀ n ∈ m.names, n ∈ N)
include hr hm

theorem nodup_renamed : ((m.entries.map fun e => (r e.1, e.2)).map (·.1)).Nodup := by
  have hnodup : (m.names.map r).Nodup := List.Nodup.map_on
    (fun a ha b hb hab => hr (hm a ha) (hm b hb) hab) m.names_nodup
  rw [names, List.map_map] at hnodup
  rw [List.map_map]
  exact hnodup

theorem entries_rename_perm : (m.rename r).entries.Perm (m.entries.map fun e => (r e.1, e.2)) :=
  entries_ofList_perm (nodup_renamed hr hm)

theorem get?_rename_eq_some_iff {k : String} {x : α} :
    (m.rename r).get? k = some x ↔ ∃ n, m.get? n = some x ∧ r n = k := by
  rw [rename, get?_ofList_eq_some_iff (nodup_renamed hr hm)]
  simp only [List.mem_map, Prod.exists, Prod.mk.injEq, get?_eq_some_iff]
  constructor
  · rintro ⟨n, y, hmem, rfl, rfl⟩
    exact ⟨n, hmem, rfl⟩
  · rintro ⟨n, hmem, rfl⟩
    exact ⟨n, x, hmem, rfl, rfl⟩

theorem get?_rename {n : String} (hn : n ∈ N) : (m.rename r).get? (r n) = m.get? n := by
  refine Option.ext fun x => ?_
  rw [get?_rename_eq_some_iff hr hm]
  constructor
  · rintro ⟨n', hget, hnames⟩
    have hn' : n' ∈ N := hm n' (m.mem_names_iff.2 ⟨x, hget⟩)
    exact hr hn' hn hnames ▸ hget
  · exact fun hget => ⟨n, hget, rfl⟩

/-- A map is the renamed one if it answers renamed lookups alike and holds renamed names only. -/
theorem eq_rename {m' : NameMap α} (hget : ∀ n ∈ N, m'.get? (r n) = m.get? n)
    (hnames : ∀ k ∈ m'.names, ∃ n ∈ N, r n = k) : m' = m.rename r := by
  refine ext_get? fun k => Option.ext fun x => ?_
  rw [get?_rename_eq_some_iff hr hm]
  constructor
  · intro hx
    obtain ⟨n, hn, rfl⟩ := hnames k (m'.mem_names_iff.2 ⟨x, hx⟩)
    exact ⟨n, (hget n hn).symm.trans hx, rfl⟩
  · rintro ⟨n, hx, rfl⟩
    exact (hget n (hm n (m.mem_names_iff.2 ⟨x, hx⟩))).trans hx

end Apart

end NameMap

/-! ### Outcomes -/

def Metrics.rename (r : String → String) (m : Metrics) : Metrics :=
  { m with changes := m.changes.rename r }

def Solution.rename (r : String → String) (x : Solution) : Solution where
  assignment := x.assignment.rename r
  phase := x.phase
  trace := x.trace.map (NameMap.rename r)
  metrics := x.metrics.rename r

/-- The error with another name for every sentence it speaks of. -/
def Error.rename (r : String → String) : Error → Error
  | undefinedReference s t => undefinedReference (r s) (r t)
  | malformedFormula s flaw => malformedFormula (r s) flaw
  | duplicateSentence n => duplicateSentence (r n)
  | nonConvergence bound last => nonConvergence bound (last.rename r)
  | e => e

/-- What solving gives, with other names. -/
def renameOutcome (r : String → String) : Except Error Solution → Except Error Solution
  | .ok sol => .ok (sol.rename r)
  | .error e => .error (e.rename r)

section Apart

variable {r : String → String} {N : Set String} (hr : Set.InjOn r N) {a : Assignment}
  (ha : ∀ n ∈ a.names, n ∈ N)
include hr ha

theorem Assignment.count_rename (v : Truth) :
    Assignment.count (a.rename r) v = Assignment.count a v := by
  have hvalues : (a.rename r).values.Perm a.values := by
    have hperm := (NameMap.entries_rename_perm hr ha).map (·.2)
    rw [List.map_map] at hperm
    exact hperm
  exact hvalues.count_eq v

theorem Metrics.recordFinal_rename (m : Metrics) :
    (m.rename r).recordFinal (a.rename r) = (m.recordFinal a).rename r := by
  unfold Metrics.recordFinal Metrics.rename
  simp only [Assignment.count_rename hr ha]

end Apart

end SelfReference
