import SelfReference.Formula
import SelfReference.Text.Split

/-!
# Displayed formulas are read in one way

A displayed formula begins with a word, with `¬` or with `(`, which tells literals and references
from negations and from brackets.  A word ends before the first mark.  So where names hold no marks
and are not those of truth values, a text determines the formula at its beginning and what follows;
in a bracket, what follows the first formula shows the connective.
-/

namespace SelfReference

theorem Truth.name_injective {t u : Truth} (h : t.name = u.name) : t = u :=
  Option.some.inj ((parse?_name t).symm.trans (h ▸ parse?_name u))

namespace Formula

/-- The characters that a displayed formula sets around its words. -/
def marks : List Char := ['(', ')', '¬', ' ']

/-- A name that is displayed as a word of its own. -/
structure IsPlainName (name : String) : Prop where
  ne_empty : name ≠ ""
  unmarked : ∀ c ∈ name.toList, c ∉ marks
  not_value : name ∉ ["true", "false", "both", "neither"]

/-- Every reference is to a plain name. -/
def IsPlain (f : Formula) : Prop := ∀ n ∈ f.occurrences, IsPlainName n

/-! ### Words -/

/-- A text that no word goes on into. -/
def EndsWord (rest : List Char) : Prop := ∀ c ∈ rest.head?, c ∈ marks

theorem endsWord_nil : EndsWord [] := fun _ h => absurd h (Option.not_mem_none _)

theorem endsWord_cons {c : Char} (h : c ∈ marks) (rest : List Char) : EndsWord (c :: rest) :=
  fun _ hd => Option.some.inj hd ▸ h

theorem word_append_inj {w w' r r' : List Char} (hw : ∀ c ∈ w, c ∉ marks)
    (hw' : ∀ c ∈ w', c ∉ marks) (hr : EndsWord r) (hr' : EndsWord r')
    (h : w ++ r = w' ++ r') : w = w' ∧ r = r' := by
  have hsplit {v rest : List Char} (hv : ∀ c ∈ v, c ∉ marks) (hrest : EndsWord rest) :
      (v ++ rest).takeWhile (fun c => decide (c ∉ marks)) = v ∧
        (v ++ rest).dropWhile (fun c => decide (c ∉ marks)) = rest :=
    Text.takeWhile_append_stop (fun c hc => decide_eq_true (hv c hc))
      fun c hc => decide_eq_false (not_not_intro (hrest c hc))
  obtain ⟨htake, hdrop⟩ := hsplit hw hr
  obtain ⟨htake', hdrop'⟩ := hsplit hw' hr'
  rw [h] at htake hdrop
  exact ⟨htake.symm.trans htake', hdrop.symm.trans hdrop'⟩

theorem truthName_mem (t : Truth) : t.name ∈ ["true", "false", "both", "neither"] := by
  cases t <;> decide

theorem truthName_unmarked (t : Truth) : ∀ c ∈ t.name.toList, c ∉ marks := by
  cases t <;> simp [Truth.name, marks]

/-! ### The beginning of a displayed formula -/

/-- The mark that a displayed formula begins with. -/
def lead : Formula → Option Char
  | lit _ | ref _ => none
  | neg _ => some '¬'
  | conj _ _ | disj _ _ => some '('

/-- Two texts in a bracket with the sign of a connective between them. -/
def bracketed (sign : Char) (left right : List Char) : List Char :=
  '(' :: (left ++ ' ' :: sign :: ' ' :: (right ++ [')']))

/-- A formula that is displayed in a bracket, the sign in it and the formulas beside the sign. -/
inductive Joins : Formula → Char → Formula → Formula → Prop
  | conj (f g : Formula) : Joins (conj f g) '∧' f g
  | disj (f g : Formula) : Joins (disj f g) '∨' f g

theorem toList_display_neg (f : Formula) :
    (neg f).display.toList = '¬' :: f.display.toList := by
  simp [display]

namespace Joins

variable {h k f g : Formula} {sign : Char}

theorem toList_display (hj : Joins h sign f g) :
    h.display.toList = bracketed sign f.display.toList g.display.toList := by
  cases hj <;> simp [display, bracketed]

theorem lead_eq (hj : Joins h sign f g) : h.lead = some '(' := by
  cases hj <;> rfl

theorem unique (hh : Joins h sign f g) (hk : Joins k sign f g) : h = k := by
  cases hh <;> cases hk <;> rfl

theorem isPlain (hj : Joins h sign f g) (hh : h.IsPlain) : f.IsPlain ∧ g.IsPlain := by
  cases hj <;> exact
    ⟨fun n hn => hh n (List.mem_append_left _ hn), fun n hn => hh n (List.mem_append_right _ hn)⟩

end Joins

theorem exists_joins {h : Formula} (hlead : h.lead = some '(') :
    ∃ sign f g, Joins h sign f g := by
  cases h with
  | conj f g => exact ⟨_, f, g, .conj f g⟩
  | disj f g => exact ⟨_, f, g, .disj f g⟩
  | lit | ref | neg => simp [lead] at hlead

theorem exists_neg {h : Formula} (hlead : h.lead = some '¬') : ∃ f, h = neg f := by
  cases h with
  | neg f => exact ⟨f, rfl⟩
  | lit | ref | conj | disj => simp [lead] at hlead

theorem unmarked_of_lead {f : Formula} (hf : f.IsPlain) (hlead : f.lead = none) :
    f.display.toList ≠ [] ∧ ∀ c ∈ f.display.toList, c ∉ marks := by
  cases f with
  | lit t => exact ⟨by cases t <;> decide, truthName_unmarked t⟩
  | ref n =>
    have hn : IsPlainName n := hf n (List.mem_singleton_self n)
    exact ⟨fun hnil => hn.ne_empty (String.toList_eq_nil_iff.1 hnil), hn.unmarked⟩
  | neg | conj | disj => cases hlead

theorem head_display_append {f : Formula} (hf : f.IsPlain) (rest : List Char) :
    (f.display.toList ++ rest).head?.filter (· ∈ marks) = f.lead := by
  have hword (hlead : f.lead = none) :
      (f.display.toList ++ rest).head?.filter (· ∈ marks) = none := by
    obtain ⟨hne, hunmarked⟩ := unmarked_of_lead hf hlead
    obtain ⟨c, cs, hcs⟩ := List.exists_cons_of_ne_nil hne
    have hc : c ∉ marks := hunmarked c (hcs ▸ List.mem_cons_self ..)
    simp [hcs, hc]
  cases f with
  | lit t => exact hword rfl
  | ref n => exact hword rfl
  | neg f =>
    rw [toList_display_neg]
    rfl
  | conj f g =>
    rw [(Joins.conj f g).toList_display]
    rfl
  | disj f g =>
    rw [(Joins.disj f g).toList_display]
    rfl

theorem lead_eq_of_append {f g : Formula} (hf : f.IsPlain) (hg : g.IsPlain) {r s : List Char}
    (h : f.display.toList ++ r = g.display.toList ++ s) : f.lead = g.lead := by
  rw [← head_display_append hf r, h, head_display_append hg s]

theorem eq_of_word {f g : Formula} (hf : f.IsPlain) (hg : g.IsPlain) (hfl : f.lead = none)
    (hgl : g.lead = none) (h : f.display.toList = g.display.toList) : f = g := by
  have htext : f.display = g.display := String.toList_inj.1 h
  cases f with
  | lit t =>
    cases g with
    | lit u => rw [Truth.name_injective htext]
    | ref m =>
      have hm : IsPlainName m := hg m (List.mem_singleton_self m)
      have hvalue : t.name = m := htext
      exact absurd (hvalue ▸ truthName_mem t) hm.not_value
    | neg | conj | disj => cases hgl
  | ref n =>
    cases g with
    | lit u =>
      have hn : IsPlainName n := hf n (List.mem_singleton_self n)
      have hvalue : n = u.name := htext
      exact absurd (hvalue ▸ truthName_mem u) hn.not_value
    | ref m => exact congrArg ref htext
    | neg | conj | disj => cases hgl
  | neg | conj | disj => cases hfl

/-! ### Reading from the left -/

/-- A formula that every text which begins with it determines, together with the rest. -/
def Determined (f : Formula) : Prop :=
  ∀ (g : Formula) (r s : List Char), g.IsPlain → EndsWord r → EndsWord s →
    f.display.toList ++ r = g.display.toList ++ s → f = g ∧ r = s

/-- In a bracket the first formula ends before the sign, the second one before the bracket. -/
theorem bracketed_append_inj {f f' g g' : Formula} (hf : f.Determined) (hf' : f'.Determined)
    (hg : g.IsPlain) (hg' : g'.IsPlain) {a b : Char} {r s : List Char}
    (h : bracketed a f.display.toList f'.display.toList ++ r =
      bracketed b g.display.toList g'.display.toList ++ s) :
    f = g ∧ a = b ∧ f' = g' ∧ r = s := by
  have hspace : ' ' ∈ marks := by decide
  have hclose : ')' ∈ marks := by decide
  simp only [bracketed, List.cons_append, List.append_assoc, List.cons.injEq, true_and,
    List.nil_append] at h
  obtain ⟨hfg, hrest⟩ := hf g _ _ hg (endsWord_cons hspace _) (endsWord_cons hspace _) h
  simp only [List.cons.injEq, true_and] at hrest
  obtain ⟨hsign, hright⟩ := hrest
  obtain ⟨hfg', hend⟩ := hf' g' _ _ hg' (endsWord_cons hclose _) (endsWord_cons hclose _) hright
  exact ⟨hfg, hsign, hfg', (List.cons.inj hend).2⟩

theorem determined_word {f : Formula} (hf : f.IsPlain) (hlead : f.lead = none) :
    f.Determined := by
  intro g r s hg hr hs h
  have hglead : g.lead = none := (lead_eq_of_append hf hg h).symm.trans hlead
  obtain ⟨htext, hrest⟩ := word_append_inj (unmarked_of_lead hf hlead).2
    (unmarked_of_lead hg hglead).2 hr hs h
  exact ⟨eq_of_word hf hg hlead hglead htext, hrest⟩

theorem determined_neg {f : Formula} (hf : f.IsPlain) (ih : f.Determined) :
    (neg f).Determined := by
  intro g r s hg hr hs h
  have hlead : (neg f).lead = g.lead := lead_eq_of_append hf hg h
  obtain ⟨g, rfl⟩ := exists_neg hlead.symm
  rw [toList_display_neg, toList_display_neg] at h
  obtain ⟨hfg, hrest⟩ := ih g r s hg hr hs (List.cons.inj h).2
  exact ⟨congrArg neg hfg, hrest⟩

theorem Joins.determined {k f f' : Formula} {sign : Char} (hj : Joins k sign f f')
    (hk : k.IsPlain) (hf : f.Determined) (hf' : f'.Determined) : k.Determined := by
  intro l r s hl hr hs h
  obtain ⟨sign', g, g', hj'⟩ := exists_joins ((lead_eq_of_append hk hl h).symm.trans hj.lead_eq)
  obtain ⟨hg, hg'⟩ := hj'.isPlain hl
  rw [hj.toList_display, hj'.toList_display] at h
  obtain ⟨hfg, hsign, hfg', hrest⟩ := bracketed_append_inj hf hf' hg hg' h
  subst hfg hsign hfg'
  exact ⟨hj.unique hj', hrest⟩

/-- The text of a formula with plain names determines the formula and what follows it. -/
theorem determined_of_isPlain {f : Formula} (hf : f.IsPlain) : f.Determined := by
  induction f with
  | lit t => exact determined_word hf rfl
  | ref n => exact determined_word hf rfl
  | neg f ih => exact determined_neg hf (ih hf)
  | conj f g ihf ihg =>
    have hj := Joins.conj f g
    exact hj.determined hf (ihf (hj.isPlain hf).1) (ihg (hj.isPlain hf).2)
  | disj f g ihf ihg =>
    have hj := Joins.disj f g
    exact hj.determined hf (ihf (hj.isPlain hf).1) (ihg (hj.isPlain hf).2)

/-- Formulas whose names are not empty, hold neither brackets nor `¬` nor spaces and are not those
of truth values are displayed alike only if they are the same formula. -/
theorem display_eq_display_iff {f g : Formula} (hf : f.IsPlain) (hg : g.IsPlain) :
    f.display = g.display ↔ f = g := by
  constructor
  · intro h
    have htext : f.display.toList ++ [] = g.display.toList ++ [] := by rw [h]
    exact (determined_of_isPlain hf g [] [] hg endsWord_nil endsWord_nil htext).1
  · intro h
    rw [h]

/-- A name may hold the sign of a connective, and a bracket may move across it. -/
theorem display_ne_display_moved :
    (neg (disj (ref "a∧b") (lit .both))).IsPlain ∧ (disj (neg (ref "a∧b")) (lit .both)).IsPlain ∧
      (neg (disj (ref "a∧b") (lit .both))).display ≠
        (disj (neg (ref "a∧b")) (lit .both)).display := by
  have hname : IsPlainName "a∧b" := ⟨by decide, by simp [marks], by decide⟩
  have hleft : (neg (disj (ref "a∧b") (lit .both))).IsPlain := by
    simpa [IsPlain, occurrences] using hname
  have hright : (disj (neg (ref "a∧b")) (lit .both)).IsPlain := by
    simpa [IsPlain, occurrences] using hname
  exact ⟨hleft, hright, mt (display_eq_display_iff hleft hright).1 (by decide)⟩

-- A name that begins with a mark is displayed as another formula is.
example : (ref "¬a").display = (neg (ref "a")).display := by decide

end Formula

end SelfReference
