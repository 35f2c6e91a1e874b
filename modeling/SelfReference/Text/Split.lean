/-!
# Splitting and joining

A text is split at every occurrence of a separator, so that joining the parts with the separator
gives the text back; the empty text has one empty part.  Parts without the separator come back when
what they are joined to is split.
-/

namespace SelfReference.Text

/-- The parts of a text between occurrences of a separator. -/
def split (separator : Char) : List Char → List (List Char)
  | [] => [[]]
  | c :: cs =>
    if c = separator then [] :: split separator cs
    else
      match split separator cs with
      | [] => [[c]]
      | p :: ps => (c :: p) :: ps

/-- Puts a separator between the parts of a list and joins them. -/
def join (separator : List Char) : List (List Char) → List Char
  | [] => []
  | [p] => p
  | p :: q :: ps => p ++ separator ++ join separator (q :: ps)

theorem split_ne_nil (separator : Char) (cs : List Char) : split separator cs ≠ [] := by
  cases cs with
  | nil => simp [split]
  | cons c cs =>
    unfold split
    split
    · simp
    · split <;> simp

/-- Joining undoes splitting. -/
theorem join_split (separator : Char) (cs : List Char) :
    join [separator] (split separator cs) = cs := by
  induction cs with
  | nil => rfl
  | cons c cs ih =>
    obtain ⟨p, ps, hp⟩ := List.exists_cons_of_ne_nil (split_ne_nil separator cs)
    rw [hp] at ih
    by_cases h : c = separator
    · subst h
      simp only [split, ↓reduceIte, hp, join, List.nil_append, List.cons_append, ih]
    · simp only [split, if_neg h, hp]
      cases ps with
      | nil => simpa [join] using ih
      | cons q qs =>
        simp only [join, List.cons_append] at ih ⊢
        rw [ih]

/-- Splitting goes on to both sides of a separator. -/
theorem split_append (separator : Char) (l r : List Char) :
    split separator (l ++ separator :: r) = split separator l ++ split separator r := by
  induction l with
  | nil => simp [split]
  | cons c l ih =>
    rw [List.cons_append, split, split, ih]
    split
    · rfl
    · obtain ⟨part, parts, hparts⟩ := List.exists_cons_of_ne_nil (split_ne_nil separator l)
      rw [hparts]
      rfl

/-- No part holds the separator. -/
theorem not_mem_of_mem_split (separator : Char) (cs : List Char) :
    ∀ part ∈ split separator cs, separator ∉ part := by
  induction cs with
  | nil => exact List.forall_mem_singleton.2 List.not_mem_nil
  | cons c cs ih =>
    obtain ⟨p, ps, hp⟩ := List.exists_cons_of_ne_nil (split_ne_nil separator cs)
    rw [hp] at ih
    rw [split, hp]
    by_cases hc : c = separator
    · rw [if_pos hc]
      exact List.forall_mem_cons.2 ⟨List.not_mem_nil, ih⟩
    · obtain ⟨hhead, htail⟩ := List.forall_mem_cons.1 ih
      rw [if_neg hc]
      refine List.forall_mem_cons.2 ⟨fun hmem => ?_, htail⟩
      exact hhead ((List.mem_cons.1 hmem).resolve_left (Ne.symm hc))

theorem split_of_not_mem {separator : Char} {cs : List Char} (h : separator ∉ cs) :
    split separator cs = [cs] := by
  induction cs with
  | nil => rfl
  | cons c cs ih =>
    rw [List.mem_cons, not_or] at h
    rw [split, if_neg (Ne.symm h.1), ih h.2]

/-- Splitting undoes joining, where no part holds the separator. -/
theorem split_join {separator : Char} {parts : List (List Char)} (hne : parts ≠ [])
    (h : ∀ part ∈ parts, separator ∉ part) : split separator (join [separator] parts) = parts := by
  induction parts with
  | nil => exact absurd rfl hne
  | cons part parts ih =>
    have hpart : separator ∉ part := h part (List.mem_cons_self ..)
    cases parts with
    | nil => exact split_of_not_mem hpart
    | cons next parts =>
      have hrest := ih (List.cons_ne_nil _ _) fun q hq => h q (List.mem_cons_of_mem _ hq)
      rw [join, List.append_assoc, List.singleton_append, split_append, split_of_not_mem hpart,
        hrest]
      rfl

theorem join_append_prefix (separator : List Char) (l r : List (List Char)) :
    join separator l <+: join separator (l ++ r) := by
  induction l with
  | nil => exact List.nil_prefix
  | cons p l ih =>
    cases l with
    | nil =>
      cases r with
      | nil => exact List.prefix_refl _
      | cons q r =>
        rw [List.singleton_append, join, join, List.append_assoc]
        exact List.prefix_append _ _
    | cons q l =>
      rw [List.cons_append, List.cons_append, join, join, List.append_assoc, List.append_assoc]
      exact (List.prefix_append_right_inj p).2 ((List.prefix_append_right_inj separator).2 ih)

/-- What a predicate takes from the front of a text ends where it fails. -/
theorem takeWhile_append_stop {p : Char → Bool} {body rest : List Char}
    (hbody : ∀ c ∈ body, p c = true) (hrest : ∀ c ∈ rest.head?, p c = false) :
    (body ++ rest).takeWhile p = body ∧ (body ++ rest).dropWhile p = rest := by
  rw [List.takeWhile_append_of_pos hbody, List.dropWhile_append_of_pos hbody]
  cases rest with
  | nil => exact ⟨List.append_nil _, rfl⟩
  | cons c rest =>
    have hstop : ¬ p c = true := by simp [hrest c rfl]
    rw [List.takeWhile_cons_of_neg hstop, List.dropWhile_cons_of_neg hstop]
    exact ⟨List.append_nil _, rfl⟩

def joined (separator : String) (parts : List String) : String :=
  String.ofList (join separator.toList (parts.map String.toList))

def lines (parts : List String) : String := joined "\n" parts

end SelfReference.Text
