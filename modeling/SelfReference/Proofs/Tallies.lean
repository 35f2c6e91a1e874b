import Mathlib.Algebra.BigOperators.Group.List.Basic
import SelfReference.Proofs.ChangeCounts

/-!
# What the counts add up to

The change counts and the final counts of a run are maps from names to numbers.  A round adds as
many changes as sentences changed in it, and the final counts count every sentence once.
-/

namespace SelfReference

theorem foldl_max_le {l : List Nat} {m b : Nat} (hm : m ≤ b) (hl : ∀ n ∈ l, n ≤ b) :
    l.foldl max m ≤ b := by
  induction l generalizing m with
  | nil => exact hm
  | cons n l ih =>
    exact ih (max_le hm (hl n (List.mem_cons_self ..))) fun k hk => hl k (List.mem_cons_of_mem _ hk)

namespace NameMap

/-- A new value takes the place of the one at its name in the sum. -/
theorem sum_insertEntry {l : List (String × Nat)} (hl : l.Pairwise fun a b => a.1 < b.1)
    (name : String) (x : Nat) :
    ((insertEntry name x l).map (·.2)).sum + (l.lookup name).getD 0 = (l.map (·.2)).sum + x := by
  induction l with
  | nil => simp [insertEntry]
  | cons e l ih =>
    obtain ⟨k, y⟩ := e
    have hrest := ih (List.pairwise_cons.1 hl).2
    unfold insertEntry
    split
    · rename_i hlt
      have hnone : ((k, y) :: l).lookup name = none := by
        refine Option.eq_none_iff_forall_ne_some.2 fun z hz => ?_
        rcases List.mem_cons.1 ((lookup_eq_some_iff hl).1 hz) with heq | hmem
        · cases heq
          exact String.lt_irrefl _ hlt
        · exact String.lt_asymm hlt ((List.pairwise_cons.1 hl).1 _ hmem)
      rw [hnone, List.map_cons, List.sum_cons, Option.getD_none]
      omega
    split
    · rename_i heq
      simp only at heq
      subst heq
      simp only [List.map_cons, List.sum_cons, List.lookup_cons_self, Option.getD_some]
      omega
    · rename_i hne
      have hlookup : ((k, y) :: l).lookup name = l.lookup name := by
        rw [List.lookup_cons, beq_eq_false_iff_ne.2 hne]
      rw [hlookup, List.map_cons, List.map_cons, List.sum_cons, List.sum_cons]
      omega

theorem sum_values_insert (m : NameMap Nat) (name : String) (x : Nat) :
    (m.insert name x).values.sum + (m.get? name).getD 0 = m.values.sum + x :=
  sum_insertEntry m.ascending name x

theorem length_values {α : Type} (m : NameMap α) : m.values.length = m.size := List.length_map ..

theorem length_values_le {α : Type} {m : NameMap α} {names : List String}
    (h : ∀ n ∈ m.names, n ∈ names) : m.values.length ≤ names.length := by
  rw [length_values, ← length_names]
  exact (List.subperm_of_subset m.names_nodup h).length_le

end NameMap

/-! ### Changes -/

namespace Metrics

theorem sum_values_countChange (changes : NameMap Nat) (n : String) :
    (countChange changes n).values.sum = changes.values.sum + 1 := by
  have h := changes.sum_values_insert n ((changes.get? n).getD 0 + 1)
  unfold countChange
  omega

theorem totalChanges_eq_sum (m : Metrics) : m.totalChanges = m.changes.values.sum :=
  List.sum_eq_foldl.symm

/-- A round adds a change for each sentence that changed. -/
theorem totalChanges_recordRound (m : Metrics) (changed : List String) :
    (m.recordRound changed).totalChanges = m.totalChanges + changed.length := by
  rw [totalChanges_eq_sum, totalChanges_eq_sum]
  show (changed.foldl countChange m.changes).values.sum = m.changes.values.sum + changed.length
  generalize m.changes = changes
  induction changed generalizing changes with
  | nil => rfl
  | cons n changed ih =>
    rw [List.foldl_cons, ih, sum_values_countChange, List.length_cons]
    omega

end Metrics

/-! ### Final values -/

theorem sum_count (l : List Truth) : (Truth.all.map fun v => l.count v).sum = l.length := by
  induction l with
  | nil => rfl
  | cons v l ih =>
    simp only [Truth.all, List.map_cons, List.map_nil, List.sum_cons, List.sum_nil] at ih ⊢
    cases v <;> simp <;> omega

theorem Assignment.count_eq_countP (a : Assignment) (v : Truth) :
    a.count v = a.names.countP fun n => a.valueOf n = v := by
  unfold Assignment.count NameMap.values NameMap.names
  rw [List.count, List.countP_map, List.countP_map]
  refine List.countP_congr fun e he => ?_
  have hvalue : a.valueOf e.1 = e.2 :=
    Assignment.valueOf_eq_of_get? (a.get?_eq_some_iff.2 he)
  simp [hvalue]

namespace Metrics

/-- The final counts before those of values that no sentence holds are left out. -/
def valueCounts (a : Assignment) : List (String × Nat) :=
  Truth.all.map fun v => (v.name, a.count v)

theorem names_valueCounts_nodup (a : Assignment) :
    (((valueCounts a).filter fun e => 0 < e.2).map (·.1)).Nodup := by
  have hnames : (Truth.all.map Truth.name).Nodup := by decide
  have hall : (valueCounts a).map (·.1) = Truth.all.map Truth.name := by
    simp [valueCounts, Function.comp_def]
  rw [← hall] at hnames
  exact hnames.sublist (List.filter_sublist.map _)

/-- The final counts are those of the values that some sentence holds. -/
theorem get?_finalValues (m : Metrics) (a : Assignment) {k : String} {c : Nat} :
    (m.recordFinal a).finalValues.get? k = some c ↔
      ∃ v : Truth, v.name = k ∧ a.count v = c ∧ 0 < c := by
  show (NameMap.ofList ((valueCounts a).filter fun e => 0 < e.2)).get? k = some c ↔ _
  rw [NameMap.get?_ofList_eq_some_iff (names_valueCounts_nodup a), List.mem_filter]
  simp only [valueCounts, List.mem_map, Prod.mk.injEq, decide_eq_true_eq]
  constructor
  · rintro ⟨⟨v, -, hname, hcount⟩, hpos⟩
    exact ⟨v, hname, hcount, hpos⟩
  · rintro ⟨v, hname, hcount, hpos⟩
    exact ⟨⟨v, Truth.mem_all v, hname, hcount⟩, hpos⟩

theorem sum_filter_pos (l : List (String × Nat)) :
    ((l.filter fun e => 0 < e.2).map (·.2)).sum = (l.map (·.2)).sum := by
  induction l with
  | nil => rfl
  | cons e l ih =>
    rw [List.filter_cons]
    split
    · rw [List.map_cons, List.map_cons, List.sum_cons, List.sum_cons, ih]
    · rename_i hzero
      simp only [decide_eq_true_eq, Nat.not_lt, Nat.le_zero] at hzero
      rw [ih, List.map_cons, List.sum_cons, hzero, Nat.zero_add]

/-- The final counts count every sentence once. -/
theorem sum_finalValues (m : Metrics) (a : Assignment) :
    (m.recordFinal a).finalValues.values.sum = a.size := by
  have hperm := NameMap.entries_ofList_perm (names_valueCounts_nodup a)
  calc (m.recordFinal a).finalValues.values.sum
      = (((NameMap.ofList ((valueCounts a).filter fun e => 0 < e.2)).entries.map (·.2)).sum) := rfl
    _ = (((valueCounts a).filter fun e => 0 < e.2).map (·.2)).sum := (hperm.map _).sum_eq
    _ = ((valueCounts a).map (·.2)).sum := sum_filter_pos _
    _ = (Truth.all.map fun v => a.values.count v).sum := by
        rw [valueCounts, List.map_map]
        rfl
    _ = a.size := by rw [sum_count, NameMap.length_values]

end Metrics

end SelfReference
