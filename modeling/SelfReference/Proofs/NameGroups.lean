import SelfReference.Proofs.NameMaps

/-!
# Names grouped by number

The names of an ascending list of numbered names, grouped by number.  Every group is ascending, no
two groups share a name, and the groups ascend as lists, because each one starts with the least
name that no group before it holds.
-/

namespace SelfReference

/-- The names with a number, in the given order. -/
def namesOf (l : List (String × Nat)) (id : Nat) : List String :=
  (l.filter fun e => e.2 = id).map (·.1)

/-- The groups of the numbers of a list, each number at its first occurrence. -/
def nameGroups (l : List (String × Nat)) : List (List String) :=
  (l.map (·.2)).eraseDups.map (namesOf l)

theorem mem_namesOf {l : List (String × Nat)} {id : Nat} {a : String} :
    a ∈ namesOf l id ↔ (a, id) ∈ l := by
  simp [namesOf]

theorem mem_nameGroups {l : List (String × Nat)} {c : List String} :
    c ∈ nameGroups l ↔ ∃ a id, (a, id) ∈ l ∧ namesOf l id = c := by
  simp only [nameGroups, List.mem_map, List.mem_eraseDups, Prod.exists]
  constructor
  · rintro ⟨id, ⟨a, i, hmem, rfl⟩, rfl⟩
    exact ⟨a, i, hmem, rfl⟩
  · rintro ⟨a, id, hmem, rfl⟩
    exact ⟨id, ⟨a, id, hmem, rfl⟩, rfl⟩

theorem namesOf_cons_self (a : String) (id : Nat) (l : List (String × Nat)) :
    namesOf ((a, id) :: l) id = a :: namesOf l id := by
  simp [namesOf]

/-- Entries of other numbers do not matter. -/
theorem namesOf_filter_ne {i id : Nat} (h : id ≠ i) (a : String) (l : List (String × Nat)) :
    namesOf ((a, i) :: l) id = namesOf (l.filter fun e => !e.2 == i) id := by
  have hhead : ((a, i) :: l).filter (fun e => e.2 = id) = l.filter fun e => e.2 = id :=
    List.filter_cons_of_neg (by simpa using Ne.symm h)
  rw [namesOf, namesOf, hhead, List.filter_filter]
  refine congrArg (List.map _) (List.filter_congr fun e _ => ?_)
  by_cases he : e.2 = id
  · simp [he, h]
  · simp [he]

theorem nameGroups_cons (a : String) (i : Nat) (l : List (String × Nat)) :
    nameGroups ((a, i) :: l) =
      (a :: namesOf l i) :: nameGroups (l.filter fun e => !e.2 == i) := by
  rw [nameGroups, List.map_cons, List.eraseDups_cons, List.map_cons, namesOf_cons_self,
    List.filter_map]
  refine congrArg (_ :: ·) (List.map_congr_left fun id hid => ?_)
  rw [List.mem_eraseDups, List.mem_map] at hid
  obtain ⟨e, he, rfl⟩ := hid
  have hne : e.2 ≠ i := by simpa using (List.mem_filter.1 he).2
  exact namesOf_filter_ne hne a l

section Ascending

variable {l : List (String × Nat)} (hl : l.Pairwise fun a b => a.1 < b.1)
include hl

theorem namesOf_ascending (id : Nat) : (namesOf l id).Pairwise (· < ·) :=
  List.pairwise_map.2 (hl.sublist List.filter_sublist)

theorem nameGroups_ascending : (nameGroups l).Pairwise (List.Lex (· < ·)) := by
  -- The rest of the groups are the groups of a filtered rest, so the induction is on the length.
  induction hk : l.length using Nat.strongRecOn generalizing l with
  | ind k ih =>
    cases l with
    | nil => exact List.Pairwise.nil
    | cons e l =>
      obtain ⟨a, i⟩ := e
      obtain ⟨hlt, hl⟩ := List.pairwise_cons.1 hl
      rw [nameGroups_cons]
      refine List.pairwise_cons.2 ⟨fun c hc => ?_, ?_⟩
      · obtain ⟨b, id, hmem, rfl⟩ := mem_nameGroups.1 hc
        obtain ⟨d, ds, hd⟩ : ∃ d ds, namesOf (l.filter fun e => !e.2 == i) id = d :: ds :=
          List.exists_cons_of_ne_nil (List.ne_nil_of_mem (mem_namesOf.2 hmem))
        have hdmem : (d, id) ∈ l.filter fun e => !e.2 == i :=
          mem_namesOf.1 (hd ▸ List.mem_cons_self ..)
        rw [hd]
        exact List.Lex.rel (hlt _ (List.mem_filter.1 hdmem).1)
      · refine ih _ ?_ (hl.sublist List.filter_sublist) rfl
        have := List.length_filter_le (fun e => !e.2 == i) l
        rw [← hk, List.length_cons]
        omega

theorem nameGroups_disjoint : (nameGroups l).Pairwise List.Disjoint := by
  refine (nameGroups_ascending hl).imp_of_mem fun {c d} hc hd hlt a hac had => ?_
  obtain ⟨-, i, -, rfl⟩ := mem_nameGroups.1 hc
  obtain ⟨-, j, -, rfl⟩ := mem_nameGroups.1 hd
  have hi := (NameMap.lookup_eq_some_iff hl).2 (mem_namesOf.1 hac)
  have hj := (NameMap.lookup_eq_some_iff hl).2 (mem_namesOf.1 had)
  obtain rfl : i = j := Option.some.inj (hi.symm.trans hj)
  exact List.lex_irrefl String.lt_irrefl _ hlt

end Ascending

end SelfReference
