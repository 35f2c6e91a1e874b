import Mathlib.Data.Set.Finite.Lemmas
import Mathlib.Order.Bounds.Basic
import SelfReference.Proofs.ByteOrder
import SelfReference.Proofs.DefinitionOrder

/-!
# Which fault is reported

A list of definitions may be at fault in many places.  Faults of names come first, by position;
then references that lead nowhere, by the name of the sentence and then by the name referred to,
both in the order of their bytes.  Without a fault the graph holds exactly the definitions.
-/

namespace SelfReference

/-! ### First in an order -/

/-- Where the keys ascend, the search stops at the least key that it finds anything for. -/
theorem findSome?_of_least {α β : Type} (key : α → String) {f : α → Option β} {l : List α}
    (hl : l.Pairwise fun a b => key a < key b) {a : α} (ha : a ∈ l) {b : β} (hb : f a = some b)
    (hleast : ∀ x ∈ l, f x ≠ none → key a ≤ key x) : l.findSome? f = some b := by
  induction l with
  | nil => cases ha
  | cons x l ih =>
    rw [List.pairwise_cons] at hl
    rcases List.mem_cons.1 ha with rfl | hal
    · rw [List.findSome?_cons, hb]
    · have hx : f x = none := by
        by_contra hsome
        exact hleast x (List.mem_cons_self ..) hsome (hl.1 a hal)
      rw [List.findSome?_cons, hx]
      exact ih hl.2 hal fun y hy => hleast y (List.mem_cons_of_mem _ hy)

/-- The name in a set whose bytes come first. -/
def FirstByBytes (S : Set String) (n : String) : Prop :=
  n ∈ S ∧ ∀ m ∈ S, Text.bytes n ≤ Text.bytes m

theorem firstByBytes_iff {S : Set String} {n : String} : FirstByBytes S n ↔ IsLeast S n := by
  unfold FirstByBytes
  simp only [Text.bytes_le_bytes_iff]
  exact Iff.rfl

theorem exists_firstByBytes {S : Set String} (l : List String) (hl : ∀ n ∈ S, n ∈ l)
    (hS : S.Nonempty) : ∃ n, FirstByBytes S n := by
  have hfinite : S.Finite := l.finite_toSet.subset hl
  obtain ⟨n, hn, hle⟩ := Set.exists_min_image S id hfinite hS
  exact ⟨n, firstByBytes_iff.2 ⟨hn, hle⟩⟩

namespace SentenceGraph

/-! ### Faults of names -/

/-- The positions whose name is blank, or was seen or stood at an earlier position. -/
def nameFaults (seen names : List String) : Set Nat :=
  {i | ∃ n, names[i]? = some n ∧ (Text.isBlank n = true ∨ n ∈ seen ∨ n ∈ names.take i)}

def nameFault (n : String) : Error :=
  if Text.isBlank n = true then .malformedFormula n .emptyName else .duplicateSentence n

variable {seen names : List String} {ds : List (String × Formula)} {n : String} {i : Nat}

theorem nameFault?_cons (f : Formula) :
    nameFault? seen ((n, f) :: ds) =
      if Text.isBlank n = true ∨ n ∈ seen then some (nameFault n)
      else nameFault? (n :: seen) ds := by
  rw [nameFault?, nameFault]
  by_cases hblank : Text.isBlank n = true
  · rw [if_pos hblank, if_pos (Or.inl hblank), if_pos hblank]
  · by_cases hseen : n ∈ seen
    · rw [if_neg hblank, if_pos hseen, if_pos (Or.inr hseen), if_neg hblank]
    · rw [if_neg hblank, if_neg hseen, if_neg (not_or.2 ⟨hblank, hseen⟩)]

theorem zero_mem_nameFaults_iff :
    0 ∈ nameFaults seen (n :: names) ↔ Text.isBlank n = true ∨ n ∈ seen := by
  simp [nameFaults]

theorem succ_mem_nameFaults_iff :
    i + 1 ∈ nameFaults seen (n :: names) ↔ i ∈ nameFaults (n :: seen) names := by
  simp only [nameFaults, Set.mem_ofPred_eq, List.getElem?_cons_succ, List.take_succ_cons,
    List.mem_cons]
  refine exists_congr fun m => and_congr_right fun _ => or_congr_right ?_
  rw [or_left_comm, or_assoc]

/-- The fault at the first position with one is reported. -/
theorem nameFault?_of_isLeast (h : IsLeast (nameFaults seen (ds.map (·.1))) i) :
    ∃ n, (ds.map (·.1))[i]? = some n ∧ nameFault? seen ds = some (nameFault n) := by
  induction ds generalizing seen i with
  | nil =>
    obtain ⟨n, hn, -⟩ := h.1
    cases hn
  | cons d ds ih =>
    obtain ⟨n, f⟩ := d
    rw [List.map_cons] at h
    cases i with
    | zero =>
      refine ⟨n, rfl, ?_⟩
      rw [nameFault?_cons, if_pos (zero_mem_nameFaults_iff.1 h.1)]
    | succ i =>
      have hzero : 0 ∉ nameFaults seen (n :: ds.map (·.1)) := fun h0 =>
        absurd (h.2 h0) (by omega)
      have hrest : IsLeast (nameFaults (n :: seen) (ds.map (·.1))) i :=
        ⟨succ_mem_nameFaults_iff.1 h.1, fun j hj =>
          Nat.le_of_succ_le_succ (h.2 (succ_mem_nameFaults_iff.2 hj))⟩
      obtain ⟨m, hm, hfault⟩ := ih hrest
      refine ⟨m, hm, ?_⟩
      rw [nameFault?_cons, if_neg (mt zero_mem_nameFaults_iff.2 hzero), hfault]

theorem nameFault?_of_nameFaults_eq_empty (h : nameFaults seen (ds.map (·.1)) = ∅) :
    nameFault? seen ds = none := by
  induction ds generalizing seen with
  | nil => rfl
  | cons d ds ih =>
    obtain ⟨n, f⟩ := d
    rw [List.map_cons, Set.eq_empty_iff_forall_notMem] at h
    have hrest : nameFaults (n :: seen) (ds.map (·.1)) = ∅ :=
      Set.eq_empty_iff_forall_notMem.2 fun j => mt succ_mem_nameFaults_iff.2 (h (j + 1))
    rw [nameFault?_cons, if_neg (mt zero_mem_nameFaults_iff.2 (h 0)), ih hrest]

/-! ### References that lead nowhere -/

/-- The names that definitions of a sentence refer to and that are not defined. -/
def dangling (ds : List (String × Formula)) (n : String) : Set String :=
  {r | ∃ f, (n, f) ∈ ds ∧ r ∈ f.occurrences ∧ r ∉ ds.map (·.1)}

def referenceFault (n r : String) : Error :=
  if Text.isBlank r = true then .malformedFormula n .emptyReference else .undefinedReference n r

theorem referenceFault?_of_not_mem {s : Sentences} {r : String} (hr : r ∉ s.names) :
    referenceFault? s n r = some (referenceFault n r) := by
  have hcontains : s.contains r = false :=
    Bool.eq_false_iff.2 (mt s.contains_iff_mem.1 hr)
  unfold referenceFault? referenceFault
  split
  · rfl
  · rw [hcontains]
    rfl

theorem references_ascending (f : Formula) : f.references.Pairwise (· < ·) :=
  NameMap.names_ascending _

theorem exists_first_dangling (h : ∃ n, (dangling ds n).Nonempty) :
    ∃ n r, FirstByBytes {n | (dangling ds n).Nonempty} n ∧ FirstByBytes (dangling ds n) r := by
  obtain ⟨n, hn⟩ : ∃ n, FirstByBytes {n | (dangling ds n).Nonempty} n := by
    refine exists_firstByBytes (ds.map (·.1)) ?_ h
    rintro n ⟨r, f, hf, -⟩
    exact List.mem_map.2 ⟨(n, f), hf, rfl⟩
  obtain ⟨r, hr⟩ : ∃ r, FirstByBytes (dangling ds n) r := by
    refine exists_firstByBytes (ds.flatMap (·.2.occurrences)) ?_ hn.1
    rintro r ⟨f, hf, hocc, -⟩
    exact List.mem_flatMap.2 ⟨(n, f), hf, hocc⟩
  exact ⟨n, r, hn, hr⟩

section Named

variable (hnames : nameFault? [] ds = none)
include hnames

theorem mem_dangling_iff {f : Formula} (hf : (n, f) ∈ ds) {r : String} :
    r ∈ dangling ds n ↔ r ∈ f.references ∧ r ∉ (NameMap.ofList ds).names := by
  have hnodup := (nodup_of_nameFault? hnames).1
  rw [Sentences.mem_references_iff, NameMap.mem_names_ofList hnodup]
  constructor
  · rintro ⟨f', hf', hr⟩
    have hget := (NameMap.get?_ofList_eq_some_iff hnodup).2 hf
    rw [(NameMap.get?_ofList_eq_some_iff hnodup).2 hf', Option.some.injEq] at hget
    exact hget ▸ hr
  · intro hr
    exact ⟨f, hf, hr⟩

theorem referenceFault?_ofList_ne_none_iff {f : Formula} (hf : (n, f) ∈ ds) {r : String}
    (hr : r ∈ f.references) :
    referenceFault? (NameMap.ofList ds) n r ≠ none ↔ r ∈ dangling ds n := by
  have hblank : ∀ m ∈ (NameMap.ofList ds).names, Text.isBlank m = false := by
    intro m hm
    rw [NameMap.mem_names_ofList (nodup_of_nameFault? hnames).1, List.mem_map] at hm
    obtain ⟨d, hd, rfl⟩ := hm
    exact not_isBlank_of_nameFault? hnames d hd
  rw [mem_dangling_iff hnames hf, ne_eq, referenceFault?_eq_none_iff hblank]
  exact (and_iff_right hr).symm

/-- Of the references that lead nowhere, the first one of the first sentence is reported. -/
theorem resolutionFault?_of_isLeast {r : String}
    (hn : IsLeast {n | (dangling ds n).Nonempty} n) (hr : IsLeast (dangling ds n) r) :
    resolutionFault? (NameMap.ofList ds) = some (referenceFault n r) := by
  have hentries (e : String × Formula) : e ∈ (NameMap.ofList ds).entries ↔ e ∈ ds :=
    (NameMap.entries_ofList_perm (nodup_of_nameFault? hnames).1).mem_iff
  obtain ⟨f, hf, -⟩ := hr.1
  have hlost := (mem_dangling_iff hnames hf).1 hr.1
  have hsentence : f.references.findSome? (referenceFault? (NameMap.ofList ds) n) =
      some (referenceFault n r) := by
    refine findSome?_of_least id (references_ascending f) hlost.1
      (referenceFault?_of_not_mem hlost.2) fun q hq hfault => ?_
    exact hr.2 ((referenceFault?_ofList_ne_none_iff hnames hf hq).1 hfault)
  refine findSome?_of_least (·.1) (NameMap.ofList ds).ascending
    ((hentries (n, f)).2 hf) hsentence fun e he hfault => hn.2 ?_
  obtain ⟨q, hq, hsome⟩ : ∃ q ∈ e.2.references,
      referenceFault? (NameMap.ofList ds) e.1 q ≠ none := by
    by_contra hnone
    refine hfault (List.findSome?_eq_none_iff.2 fun q hq => ?_)
    by_contra hsome
    exact hnone ⟨q, hq, hsome⟩
  exact ⟨q, (referenceFault?_ofList_ne_none_iff hnames ((hentries e).1 he) hq).1 hsome⟩

theorem resolutionFault?_of_dangling_eq_empty (h : ∀ n, dangling ds n = ∅) :
    resolutionFault? (NameMap.ofList ds) = none := by
  refine List.findSome?_eq_none_iff.2 fun e he => List.findSome?_eq_none_iff.2 fun r hr => ?_
  by_contra hfault
  have hmem : e ∈ ds :=
    (NameMap.entries_ofList_perm (nodup_of_nameFault? hnames).1).mem_iff.1 he
  have hlost := (referenceFault?_ofList_ne_none_iff hnames hmem hr).1 hfault
  rw [h e.1] at hlost
  exact hlost

end Named

/-- A list of definitions with a blank or repeated name is refused for the first position of one.
Any other list with references to undefined names is refused for the first of them in the order of
bytes, by sentence and then by reference.  All other lists make up a graph. -/
theorem ofDefinitions_reports_first (ds : List (String × Formula)) :
    let names := ds.map (·.1)
    let faulty : Set Nat :=
      {i | ∃ n, names[i]? = some n ∧ (Text.isBlank n = true ∨ n ∈ names.take i)}
    (faulty.Nonempty → ∃ i n, IsLeast faulty i ∧ names[i]? = some n ∧
      ofDefinitions ds = .error
        (if Text.isBlank n = true then .malformedFormula n .emptyName else .duplicateSentence n)) ∧
    (faulty = ∅ →
      (∀ r, Text.isBlank r = true → r ∉ names) ∧
      ((∃ n, (dangling ds n).Nonempty) →
        ∃ n r, FirstByBytes {n | (dangling ds n).Nonempty} n ∧ FirstByBytes (dangling ds n) r ∧
          ofDefinitions ds = .error
            (if Text.isBlank r = true then .malformedFormula n .emptyReference
            else .undefinedReference n r)) ∧
      ((∀ n, dangling ds n = ∅) →
        ∃ g, ofDefinitions ds = .ok g ∧ g.sentences.entries.Perm ds ∧
          g.names.Pairwise fun a b => Text.bytes a < Text.bytes b)) := by
  intro names faulty
  have hfaulty : faulty = nameFaults [] names := by
    ext i
    simp [faulty, nameFaults]
  refine ⟨fun hsome => ?_, fun hnone => ?_⟩
  · obtain ⟨i, hi⟩ : ∃ i, IsLeast faulty i := by
      classical
      exact ⟨_, Set.Nonempty.isLeast_natFind hsome⟩
    obtain ⟨n, hn, hfault⟩ := nameFault?_of_isLeast (hfaulty ▸ hi)
    exact ⟨i, n, hi, hn, ofDefinitions_eq_error_iff.2 (Or.inl hfault)⟩
  · have hnames : nameFault? [] ds = none :=
      nameFault?_of_nameFaults_eq_empty (hfaulty ▸ hnone)
    refine ⟨fun r hblank hr => ?_, fun hlost => ?_, fun hresolved => ?_⟩
    · obtain ⟨d, hd, rfl⟩ := List.mem_map.1 hr
      have hnamed := not_isBlank_of_nameFault? hnames d hd
      rw [hblank] at hnamed
      cases hnamed
    · obtain ⟨n, r, hn, hr⟩ := exists_first_dangling hlost
      have hfault :=
        resolutionFault?_of_isLeast hnames (firstByBytes_iff.1 hn) (firstByBytes_iff.1 hr)
      exact ⟨n, r, hn, hr, ofDefinitions_eq_error_iff.2 (Or.inr ⟨hnames, hfault⟩)⟩
    · obtain ⟨g, hg⟩ :=
        exists_ofDefinitions hnames (resolutionFault?_of_dangling_eq_empty hnames hresolved)
      obtain ⟨-, -, hs⟩ := ofDefinitions_eq_ok_iff.1 hg
      refine ⟨g, hg, ?_, ?_⟩
      · rw [hs]
        exact NameMap.entries_ofList_perm (nodup_of_nameFault? hnames).1
      · exact g.sentences.names_ascending.imp Text.bytes_lt_bytes_iff.2

end SentenceGraph

end SelfReference
