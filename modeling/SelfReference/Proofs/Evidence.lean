import Mathlib.Algebra.Order.BigOperators.Group.List
import Mathlib.Algebra.Order.Ring.Nat
import SelfReference.Graph
import SelfReference.Proofs.InformationOrder
import SelfReference.Proofs.NameMaps

/-!
# Evidence held by assignments

Lookups in assignments over the same names, and the amount of evidence that an assignment holds.
Between assignments over the same names the amount grows strictly with the information order, and
it never exceeds twice the number of names.
-/

namespace SelfReference

namespace Assignment

theorem valueOf_eq_of_get? {a : Assignment} {n : String} {v : Truth} (h : a.get? n = some v) :
    a.valueOf n = v := by
  rw [valueOf, h, Option.getD_some]

theorem valueOf_of_not_mem {a : Assignment} {n : String} (h : n ∉ a.names) :
    a.valueOf n = .neither := by
  rw [valueOf, a.get?_eq_none_iff.2 h, Option.getD_none]

theorem get?_eq_some_valueOf {a : Assignment} {n : String} (h : n ∈ a.names) :
    a.get? n = some (a.valueOf n) := by
  obtain ⟨v, hv⟩ := a.mem_names_iff.1 h
  rw [hv, valueOf_eq_of_get? hv]

theorem ext_valueOf {a b : Assignment} (hnames : a.names = b.names)
    (h : ∀ n ∈ a.names, a.valueOf n = b.valueOf n) : a = b := by
  refine NameMap.ext_names hnames fun n hn => ?_
  rw [get?_eq_some_valueOf hn, get?_eq_some_valueOf (hnames ▸ hn), h n hn]

/-- Only the names that it covers can lift an assignment above a valuation. -/
theorem valueOf_le {a : Assignment} {v : Valuation} (h : ∀ n ∈ a.names, a.valueOf n ≤ v n) :
    a.valueOf ≤ v := by
  intro n
  by_cases hn : n ∈ a.names
  · exact h n hn
  · rw [valueOf_of_not_mem hn]
    exact Truth.neither_le _

theorem leq_iff {a b : Assignment} : a.leq b = true ↔ a.valueOf ≤ b.valueOf := by
  rw [leq, List.all_eq_true]
  constructor
  · intro h
    exact valueOf_le fun n hn =>
      h (n, a.valueOf n) (a.get?_eq_some_iff.1 (get?_eq_some_valueOf hn))
  · rintro h ⟨n, v⟩ he
    have hle := h n
    rw [valueOf_eq_of_get? (a.get?_eq_some_iff.2 he)] at hle
    exact hle

theorem mem_changedSince {a b : Assignment} {n : String} :
    n ∈ a.changedSince b ↔ ∃ v, a.get? n = some v ∧ b.get? n ≠ some v := by
  simp only [changedSince, List.mem_map, List.mem_filter, decide_eq_true_eq,
    NameMap.get?_eq_some_iff]
  constructor
  · rintro ⟨⟨k, v⟩, ⟨hmem, hne⟩, rfl⟩
    exact ⟨v, hmem, hne⟩
  · rintro ⟨v, hmem, hne⟩
    exact ⟨(n, v), ⟨hmem, hne⟩, rfl⟩

/-- Nothing changed exactly if nothing differs. -/
theorem changedSince_eq_nil_iff {a b : Assignment} (hnames : a.names = b.names) :
    a.changedSince b = [] ↔ a = b := by
  constructor
  · intro h
    refine ext_valueOf hnames fun n hn => ?_
    by_contra hne
    have hb : n ∈ b.names := hnames ▸ hn
    have hmem : n ∈ a.changedSince b :=
      mem_changedSince.2 ⟨a.valueOf n, get?_eq_some_valueOf hn, by
        rw [get?_eq_some_valueOf hb]
        exact fun heq => hne (Option.some.inj heq).symm⟩
    rw [h] at hmem
    exact List.not_mem_nil hmem
  · rintro rfl
    refine List.eq_nil_iff_forall_not_mem.2 fun n hn => ?_
    obtain ⟨v, hv, hne⟩ := mem_changedSince.1 hn
    exact hne hv

/-- The number of evidence bits that an assignment holds. -/
def evidence (a : Assignment) : Nat := (a.names.map fun n => (a.valueOf n).rank).sum

theorem evidence_le (a : Assignment) : a.evidence ≤ Truth.height * a.size := by
  have h := List.sum_le_card_nsmul (a.names.map fun n => (a.valueOf n).rank) Truth.height (by
    intro r hr
    obtain ⟨n, -, rfl⟩ := List.mem_map.1 hr
    exact (a.valueOf n).rank_le_height)
  rw [List.length_map, a.length_names, Nat.nsmul_eq_mul, Nat.mul_comm] at h
  exact h

theorem evidence_lt {a b : Assignment} (hnames : a.names = b.names)
    (hle : ∀ n ∈ a.names, a.valueOf n ≤ b.valueOf n) (hne : a ≠ b) : a.evidence < b.evidence := by
  have hstrict : ∃ n ∈ a.names, a.valueOf n ≠ b.valueOf n := by
    by_contra hnone
    refine hne (ext_valueOf hnames fun n hn => ?_)
    by_contra hvalue
    exact hnone ⟨n, hn, hvalue⟩
  obtain ⟨n, hn, hvalue⟩ := hstrict
  unfold evidence
  rw [← hnames]
  exact List.sum_lt_sum _ _ (fun n hn => Truth.rank_le_of_le (hle n hn))
    ⟨n, hn, Truth.rank_lt_of_lt (lt_of_le_of_ne (hle n hn) hvalue)⟩

end Assignment

namespace SentenceGraph

theorem length_names (g : SentenceGraph) : g.names.length = g.size := g.sentences.length_names

theorem names_eq_nil (g : SentenceGraph) (h : g.size = 0) : g.names = [] :=
  List.length_eq_zero_iff.1 (g.length_names.trans h)

theorem eq_empty_of_size_eq_zero {g : SentenceGraph} (h : g.size = 0) {a : Assignment}
    (ha : a.names = g.names) : a = .empty :=
  NameMap.eq_empty_of_names (ha.trans (g.names_eq_nil h))

theorem mem_names_iff {g : SentenceGraph} {n : String} :
    n ∈ g.names ↔ ∃ f, g.formula? n = some f := g.sentences.mem_names_iff

/-- The assignment without evidence covers exactly the names of the graph. -/
theorem names_bottom (g : SentenceGraph) : g.bottom.names = g.names := by
  have h : g.bottom = g.sentences.map fun _ _ => Truth.neither := by
    refine NameMap.ext_get? fun n => ?_
    rw [NameMap.get?_map, bottom, Assignment.bottom, NameMap.get?_tabulate]
    split
    · rename_i hn
      obtain ⟨f, hf⟩ := mem_names_iff.1 hn
      rw [show g.sentences.get? n = some f from hf]
      rfl
    · rename_i hn
      rw [g.sentences.get?_eq_none_iff.2 hn]
      rfl
  rw [h, NameMap.names_map]
  rfl

theorem valueOf_bottom (g : SentenceGraph) (n : String) : g.bottom.valueOf n = .neither :=
  Assignment.valueOf_bottom g.names n

theorem bottom_le (g : SentenceGraph) (v : Valuation) : g.bottom.valueOf ≤ v := by
  intro n
  rw [g.valueOf_bottom]
  exact Truth.neither_le _

end SentenceGraph

end SelfReference
