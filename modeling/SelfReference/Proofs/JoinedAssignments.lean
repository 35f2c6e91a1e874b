import SelfReference.Proofs.Evidence

/-!
# Joined assignments

Assignments over any names, compared by what they say of every name: a name that an assignment does
not cover reads as `neither`.  The order is a preorder in which `join` is the least upper bound, and
joins obey the laws of a semilattice as equations between assignments, covered names included.  What
changed does not use that reading: a name that was not covered before counts as changed.
-/

namespace SelfReference

namespace Truth

theorem join_comm (v w : Truth) : v.join w = w.join v := by cases v <;> cases w <;> rfl

theorem join_assoc (v w u : Truth) : (v.join w).join u = v.join (w.join u) := by
  cases v <;> cases w <;> cases u <;> rfl

theorem join_self (v : Truth) : v.join v = v := by cases v <;> rfl

end Truth

namespace Assignment

variable {a b c : Assignment} {n : String}

/-! ### The order -/

theorem leq_iff_forall : a.leq b = true ↔ ∀ n, a.valueOf n ≤ b.valueOf n := leq_iff

theorem leq_trans (hab : a.leq b = true) (hbc : b.leq c = true) : a.leq c = true := by
  rw [leq_iff] at hab hbc ⊢
  exact le_trans hab hbc

theorem leq_antisymm_iff :
    a.leq b = true ∧ b.leq a = true ↔ ∀ n, a.valueOf n = b.valueOf n := by
  rw [leq_iff, leq_iff, ← le_antisymm_iff, funext_iff]

theorem leq_join_left (a b : Assignment) : a.leq (a.join b) = true := by
  rw [leq_iff_forall]
  intro n
  rw [valueOf_join]
  exact Truth.left_le_join ..

/-- The join is the least upper bound. -/
theorem join_leq_iff : (a.join b).leq c = true ↔ a.leq c = true ∧ b.leq c = true := by
  simp only [leq_iff_forall, valueOf_join, Truth.join_le_iff]
  exact forall_and

/-! ### Equations between joins -/

/-- Assignments are equal if they cover the same names and say the same of every name. -/
theorem ext_names_valueOf (hnames : ∀ n, n ∈ a.names ↔ n ∈ b.names)
    (h : ∀ n, a.valueOf n = b.valueOf n) : a = b :=
  ext_valueOf (NameMap.eq_of_ascending a.names_ascending b.names_ascending hnames) fun n _ => h n

theorem join_comm (a b : Assignment) : a.join b = b.join a := by
  apply ext_names_valueOf
  · intro n
    rw [mem_names_join, mem_names_join, or_comm]
  · intro n
    rw [valueOf_join, valueOf_join, Truth.join_comm]

theorem join_assoc (a b c : Assignment) : (a.join b).join c = a.join (b.join c) := by
  apply ext_names_valueOf
  · intro n
    simp only [mem_names_join, or_assoc]
  · intro n
    simp only [valueOf_join, Truth.join_assoc]

theorem join_self (a : Assignment) : a.join a = a := by
  apply ext_names_valueOf
  · intro n
    rw [mem_names_join, or_self]
  · intro n
    rw [valueOf_join, Truth.join_self]

/-- A join adds nothing exactly if there is neither evidence nor a name to add. -/
theorem join_eq_right_iff :
    a.join b = b ↔ a.leq b = true ∧ ∀ n ∈ a.names, n ∈ b.names := by
  constructor
  · intro h
    constructor
    · rw [← h]
      exact leq_join_left a b
    · intro n hn
      rw [← h, mem_names_join]
      exact Or.inl hn
  · intro h
    obtain ⟨hle, hnames⟩ := h
    apply ext_names_valueOf
    · intro n
      rw [mem_names_join]
      exact or_iff_right_of_imp (hnames n)
    · intro n
      rw [valueOf_join, Truth.join_eq_right_iff]
      exact leq_iff_forall.1 hle n

/-! ### What changed -/

theorem changedSince_ascending (a b : Assignment) : (a.changedSince b).Pairwise (· < ·) :=
  a.names_ascending.sublist (List.filter_sublist.map _)

theorem mem_changedSince_iff :
    n ∈ a.changedSince b ↔ n ∈ a.names ∧ (n ∉ b.names ∨ a.valueOf n ≠ b.valueOf n) := by
  rw [mem_changedSince]
  constructor
  · intro h
    obtain ⟨v, ha, hb⟩ := h
    refine ⟨a.mem_names_iff.2 ⟨v, ha⟩, ?_⟩
    by_cases hn : n ∈ b.names
    · rw [get?_eq_some_valueOf hn, Ne, Option.some.injEq] at hb
      rw [valueOf_eq_of_get? ha]
      exact Or.inr (Ne.symm hb)
    · exact Or.inl hn
  · intro h
    obtain ⟨ha, hb⟩ := h
    refine ⟨a.valueOf n, get?_eq_some_valueOf ha, ?_⟩
    by_cases hn : n ∈ b.names
    · have hne := hb.resolve_left (not_not_intro hn)
      rw [get?_eq_some_valueOf hn, Ne, Option.some.injEq]
      exact Ne.symm hne
    · rw [b.get?_eq_none_iff.2 hn]
      exact Option.some_ne_none _ ∘ Eq.symm

/-- What a join changes are the names that it adds and those that it adds evidence to. -/
theorem mem_changedSince_join :
    n ∈ (a.join b).changedSince b ↔
      n ∈ a.names ∧ (n ∉ b.names ∨ ¬ a.valueOf n ≤ b.valueOf n) := by
  rw [mem_changedSince_iff, mem_names_join, valueOf_join, Ne, Truth.join_eq_right_iff]
  by_cases ha : n ∈ a.names
  · simp [ha]
  · -- a name of `b` alone keeps its value
    have hle : a.valueOf n ≤ b.valueOf n := by
      rw [valueOf_of_not_mem ha]
      exact Truth.neither_le _
    simp [ha, hle]

/-- The order compares what assignments say of every name, covered or not; it is a preorder, and two
assignments are below each other exactly if they say the same.  The join covers the names of both,
is their least upper bound, and is commutative, associative and idempotent.  It is the second
assignment exactly if the first one is below it and covers no other name.  What it changes in the
second one are, in ascending order, the names of the first that the second does not cover or does
not say as much of. -/
theorem join_semilattice (a b c : Assignment) :
    (a.leq b = true ↔ ∀ n, a.valueOf n ≤ b.valueOf n) ∧
    a.leq a = true ∧
    (a.leq b = true → b.leq c = true → a.leq c = true) ∧
    (a.leq b = true ∧ b.leq a = true ↔ ∀ n, a.valueOf n = b.valueOf n) ∧
    (∀ n, n ∈ (a.join b).names ↔ n ∈ a.names ∨ n ∈ b.names) ∧
    (a.leq c = true ∧ b.leq c = true ↔ (a.join b).leq c = true) ∧
    a.join b = b.join a ∧
    (a.join b).join c = a.join (b.join c) ∧
    a.join a = a ∧
    (a.join b = b ↔ a.leq b = true ∧ ∀ n ∈ a.names, n ∈ b.names) ∧
    ((a.join b).changedSince b).Pairwise (· < ·) ∧
    ∀ n, n ∈ (a.join b).changedSince b ↔
      n ∈ a.names ∧ (n ∉ b.names ∨ ¬ a.valueOf n ≤ b.valueOf n) := by
  have hrefl : a.leq a = true := leq_iff.2 le_rfl
  exact ⟨leq_iff_forall, hrefl, leq_trans, leq_antisymm_iff, mem_names_join a b,
    join_leq_iff.symm, join_comm a b, join_assoc a b c, join_self a, join_eq_right_iff,
    changedSince_ascending _ b, fun _ => mem_changedSince_join⟩

end Assignment

end SelfReference
