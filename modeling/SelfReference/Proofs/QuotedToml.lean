import SelfReference.Text.Split
import SelfReference.Toml.Quoted

/-!
# Quoted TOML is read back

Writing picks one of four notations for a text; whichever it picks, reading gives the text back and
leaves what follows.  Between double quotes this is so of every text, on one line or over lines: of
the quotes that stand unescaped in a row at most two come before something else, and those at the
end are told from the closing ones by their number.  Between apostrophes it takes what the choice of
the notation has checked.
-/

namespace SelfReference.Toml

open Text

theorem consRead_some (c : Char) (text rest : List Char) :
    consRead c (some (text, rest)) = some (c :: text, rest) := rfl

/-! ### Between double quotes on one line -/

theorem toNat_lt_of_isControl {c : Char} (h : isControl c = true) : c.toNat < 128 := by
  simp only [isControl, Bool.and_eq_true, Bool.or_eq_true, decide_eq_true_eq] at h
  omega

theorem codePoint?_control {c : Char} (h : isControl c = true) :
    codePoint? (fourDigits capitalDigits c.toNat) = some c := by
  have hlt := toNat_lt_of_isControl h
  have hdigits := isDigitOf_fourDigits digitValue?_capitalDigits c.toNat
  have hnumeral := numeral_fourDigits digitValue?_capitalDigits (show c.toNat < 65536 by omega)
  have hvalid : c.toNat.isValidChar := Or.inl (by omega)
  rw [codePoint?, hnumeral, if_pos ⟨hdigits, hvalid⟩, Char.ofNat_toNat]

theorem isPlain_fourDigits {n : Nat} : ∀ x ∈ fourDigits capitalDigits n, isPlain x = true := by
  have hdigits : ∀ d < 16, isPlain (capitalDigits.getD d '0') = true := by decide
  intro x hx
  simp only [fourDigits, List.map_cons, List.map_nil, List.mem_cons, List.not_mem_nil,
    or_false] at hx
  rcases hx with rfl | rfl | rfl | rfl <;> exact hdigits _ (Nat.mod_lt _ (by decide))

theorem isPlain_of_not_isControl {c : Char} (h : isControl c = false) (hline : c ≠ '\n') :
    isPlain c = true := by
  by_cases htab : c = '\t'
  · rw [htab]
    rfl
  · simp only [isControl, ne_eq, htab, hline, not_false_eq_true, decide_true,
      Bool.and_eq_false_iff, Bool.or_eq_false_iff, decide_eq_false_iff_not, reduceCtorEq,
      false_or] at h
    simp only [isPlain, Bool.or_eq_true, Bool.and_eq_true, decide_eq_true_eq]
    omega

/-- What an escape is: a backslash with a letter or four digits, or the character as it is. -/
theorem escapeBasic_cases (c : Char) :
    (∃ e, escapeBasic c = ['\\', e] ∧ escaped? e = some c ∧ e ≠ 'u' ∧ e ≠ 'U' ∧
      isPlain e = true) ∨
    (isControl c = true ∧ escapeBasic c = '\\' :: 'u' :: fourDigits capitalDigits c.toNat) ∨
    (isPlain c = true ∧ c ≠ '"' ∧ c ≠ '\\' ∧ escapeBasic c = [c]) := by
  by_cases hletter : c ∈ ['"', '\\', '\x08', '\t', '\n', '\x0c', '\r']
  · left
    simp only [List.mem_cons, List.not_mem_nil, or_false] at hletter
    rcases hletter with rfl | rfl | rfl | rfl | rfl | rfl | rfl <;>
      exact ⟨_, rfl, rfl, by decide, by decide, by decide⟩
  · right
    simp only [List.mem_cons, List.not_mem_nil, or_false, not_or] at hletter
    obtain ⟨h1, h2, h3, h4, h5, h6, h7⟩ := hletter
    unfold escapeBasic
    rw [if_neg h1, if_neg h2, if_neg h3, if_neg h4, if_neg h5, if_neg h6, if_neg h7]
    by_cases hcontrol : isControl c = true
    · exact Or.inl ⟨hcontrol, if_pos hcontrol⟩
    · have hplain := isPlain_of_not_isControl (Bool.eq_false_iff.2 hcontrol) h5
      exact Or.inr ⟨hplain, h1, h2, if_neg hcontrol⟩

theorem isPlain_of_mem_escapeBasic {c x : Char} (h : x ∈ escapeBasic c) : isPlain x = true := by
  rcases escapeBasic_cases c with ⟨e, hc, -, -, -, he⟩ | ⟨hcontrol, hc⟩ | ⟨hplain, -, -, hc⟩
  · rw [hc] at h
    simp only [List.mem_cons, List.not_mem_nil, or_false] at h
    rcases h with rfl | rfl
    · rfl
    · exact he
  · rw [hc, List.mem_cons, List.mem_cons] at h
    rcases h with rfl | rfl | h
    · rfl
    · rfl
    · exact isPlain_fourDigits x h
  · rw [hc, List.mem_singleton] at h
    rw [h]
    exact hplain

theorem readBasic_escapeBasic (c : Char) (cs : List Char) :
    readBasic (escapeBasic c ++ cs) = consRead c (readBasic cs) := by
  rcases escapeBasic_cases c with ⟨e, hc, he, hu, hU, -⟩ | ⟨hcontrol, hc⟩ | ⟨hplain, h1, h2, hc⟩
  · rw [hc]
    show readBasic ('\\' :: e :: cs) = _
    rw [readBasic, he, Option.bind_some]
    · exact fun _ _ _ _ _ h => absurd h hu
    · exact fun _ _ _ _ _ _ _ _ _ h => absurd h hU
  · have hcode := codePoint?_control hcontrol
    rw [hc]
    simp only [fourDigits, List.map_cons, List.map_nil, List.cons_append,
      List.nil_append] at hcode ⊢
    rw [readBasic, hcode, Option.bind_some]
  · rw [hc]
    show readBasic (c :: cs) = _
    rw [readBasic, if_pos ⟨hplain, h2⟩]
    · exact fun h => absurd h h1
    · exact fun _ _ _ _ _ h => absurd h h2
    · exact fun _ _ _ _ _ _ _ _ _ h => absurd h h2
    · exact fun _ _ h => absurd h h2

theorem readBasic_flatMap (text rest : List Char) :
    readBasic (text.flatMap escapeBasic ++ '"' :: rest) = some (text, rest) := by
  induction text with
  | nil => rfl
  | cons c text ih =>
    rw [List.flatMap_cons, List.append_assoc, readBasic_escapeBasic, ih, consRead_some]

theorem escapeBasic_head (c : Char) : ∃ d ds, escapeBasic c = d :: ds ∧ d ≠ '"' := by
  rcases escapeBasic_cases c with ⟨e, hc, -⟩ | ⟨-, hc⟩ | ⟨-, h1, -, hc⟩
  · exact ⟨_, _, hc, by decide⟩
  · exact ⟨_, _, hc, by decide⟩
  · exact ⟨_, _, hc, h1⟩

/-! ### Between double quotes over lines -/

theorem readLongBasic_escapeBasic (c : Char) (cs : List Char) :
    readLongBasic false (escapeBasic c ++ cs) = consRead c (readLongBasic false cs) := by
  rcases escapeBasic_cases c with ⟨e, hc, he, hu, hU, -⟩ | ⟨hcontrol, hc⟩ | ⟨hplain, h1, h2, hc⟩
  · rw [hc]
    show readLongBasic false ('\\' :: e :: cs) = _
    rw [readLongBasic, he]
    · exact fun _ _ _ _ _ h => absurd h hu
    · exact fun _ _ _ _ _ _ _ _ _ h => absurd h hU
  · have hcode := codePoint?_control hcontrol
    rw [hc]
    simp only [fourDigits, List.map_cons, List.map_nil, List.cons_append,
      List.nil_append] at hcode ⊢
    rw [readLongBasic, hcode, Option.bind_some]
  · rw [hc]
    show readLongBasic false (c :: cs) = _
    rw [readLongBasic, if_neg (by simp), if_pos (Or.inl ⟨hplain, h2⟩)]
    · exact fun _ h => absurd h h1
    · exact fun _ _ _ _ _ h => absurd h h2
    · exact fun _ _ _ _ _ _ _ _ _ h => absurd h h2
    · exact fun _ _ h => absurd h h2

theorem readLongBasic_newLine (cs : List Char) :
    readLongBasic false ('\n' :: cs) = consRead '\n' (readLongBasic false cs) := by
  rw [readLongBasic, if_neg (by simp), if_pos (Or.inr rfl)]
  · exact fun _ h => absurd h (by decide)
  · exact fun _ _ _ _ _ h => absurd h (by decide)
  · exact fun _ _ _ _ _ _ _ _ _ h => absurd h (by decide)
  · exact fun _ _ h => absurd h (by decide)

/-- A quote that begins no closing mark belongs to the text. -/
theorem readLongBasic_quote {cs : List Char} (h : ∀ cs', cs ≠ '"' :: '"' :: cs') :
    readLongBasic false ('"' :: cs) = consRead '"' (readLongBasic false cs) := by
  rw [readLongBasic, if_neg (by simp), if_pos (Or.inl ⟨by decide, by decide⟩)]
  · exact fun cs' _ heq => h cs' heq
  · exact fun _ _ _ _ _ h => absurd h (by decide)
  · exact fun _ _ _ _ _ _ _ _ _ h => absurd h (by decide)
  · exact fun _ _ h => absurd h (by decide)

theorem closeLong_replicate {mark : Char} {n : Nat} (hn : n ≤ 2) {rest : List Char}
    (hrest : rest.head? ≠ some mark) :
    closeLong mark (List.replicate n mark ++ rest) = some (List.replicate n mark, rest) := by
  have hbody : ∀ c ∈ List.replicate n mark, decide (c = mark) = true := fun c hc =>
    decide_eq_true (List.eq_of_mem_replicate hc)
  have hstop : ∀ c ∈ rest.head?, decide (c = mark) = false := fun c hc =>
    decide_eq_false fun heq => hrest (heq ▸ hc)
  obtain ⟨htake, hdrop⟩ := takeWhile_append_stop (p := fun c => decide (c = mark)) hbody hstop
  rw [closeLong, htake, hdrop]
  exact if_pos (by rw [List.length_replicate]; exact hn)

theorem escapeLong_head {quotes : Nat} {c : Char} (h : ¬ (c = '"' ∧ quotes < 2))
    (cs : List Char) : ∃ d ds, escapeLong quotes (c :: cs) = d :: ds ∧ d ≠ '"' := by
  unfold escapeLong
  rw [if_neg h]
  split
  · rename_i hline
    exact ⟨c, _, rfl, by rw [hline]; decide⟩
  · obtain ⟨d, ds, hc, hd⟩ := escapeBasic_head c
    exact ⟨d, ds ++ escapeLong 0 cs, by rw [hc]; rfl, hd⟩

/-- After a quote that is not among the last two of the text no closing mark can begin. -/
theorem escapeLong_ne_quotes {quotes : Nat} {text : List Char} (hquotes : quotes < 2)
    (htext : text ≠ []) (hlast : ¬ (quotes = 0 ∧ text = ['"'])) (rest cs : List Char) :
    escapeLong (quotes + 1) text ++ rest ≠ '"' :: '"' :: cs := by
  obtain ⟨c, text, rfl⟩ := List.exists_cons_of_ne_nil htext
  by_cases hc : c = '"' ∧ quotes + 1 < 2
  · obtain ⟨rfl, hlt⟩ := hc
    obtain rfl : quotes = 0 := by omega
    have hmore : text ≠ [] := fun h => hlast ⟨rfl, by rw [h]⟩
    obtain ⟨c', text, rfl⟩ := List.exists_cons_of_ne_nil hmore
    have hfull : ¬ (c' = '"' ∧ 2 < 2) := by omega
    obtain ⟨d, ds, hd, hne⟩ := escapeLong_head hfull text
    rw [escapeLong, if_pos ⟨rfl, by omega⟩, hd]
    intro h
    simp only [List.cons_append, List.cons.injEq] at h
    exact hne h.2.1
  · obtain ⟨d, ds, hd, hne⟩ := escapeLong_head hc text
    rw [hd]
    intro h
    exact hne (List.cons.inj h).1

theorem readLongBasic_escapeLong (text : List Char) (quotes : Nat) {rest : List Char}
    (hrest : rest.head? ≠ some '"') :
    readLongBasic false (escapeLong quotes text ++ '"' :: '"' :: '"' :: rest) =
      some (text, rest) := by
  induction text generalizing quotes with
  | nil =>
    show closeLong '"' rest = _
    exact closeLong_replicate (n := 0) (by omega) hrest
  | cons c text ih =>
    by_cases hquote : c = '"' ∧ quotes < 2
    · obtain ⟨rfl, hlt⟩ := hquote
      rw [escapeLong, if_pos ⟨rfl, hlt⟩, List.cons_append]
      -- the last quotes of the text are taken together with the closing mark
      by_cases hend : text = []
      · rw [hend]
        exact closeLong_replicate (n := 1) (by omega) hrest
      by_cases hpair : quotes = 0 ∧ text = ['"']
      · rw [hpair.1, hpair.2]
        exact closeLong_replicate (n := 2) (by omega) hrest
      · rw [readLongBasic_quote (escapeLong_ne_quotes hlt hend hpair _), ih, consRead_some]
    · rw [escapeLong, if_neg hquote]
      split
      · rename_i hline
        rw [List.cons_append, hline, readLongBasic_newLine, ih, consRead_some]
      · rw [List.append_assoc, readLongBasic_escapeBasic, ih, consRead_some]

/-! ### Between apostrophes -/

theorem readLiteral_append {text : List Char} (hplain : ∀ c ∈ text, isPlain c = true)
    (hmark : '\x27' ∉ text) (rest : List Char) :
    readLiteral (text ++ '\x27' :: rest) = some (text, rest) := by
  induction text with
  | nil => rfl
  | cons c text ih =>
    rw [List.mem_cons, not_or] at hmark
    rw [List.cons_append, readLiteral, if_pos (hplain c (List.mem_cons_self ..)),
      ih (fun d hd => hplain d (List.mem_cons_of_mem _ hd)) hmark.2, consRead_some]
    exact fun h => hmark.1 h.symm

theorem readLongLiteral_append {text : List Char}
    (hplain : ∀ c ∈ text, isPlain c = true ∨ c = '\n')
    (hmarks : ∀ l r, text ≠ l ++ '\x27' :: '\x27' :: '\x27' :: r) {rest : List Char}
    (hrest : rest.head? ≠ some '\x27') :
    readLongLiteral (text ++ '\x27' :: '\x27' :: '\x27' :: rest) = some (text, rest) := by
  induction text with
  | nil =>
    show closeLong '\x27' rest = _
    exact closeLong_replicate (n := 0) (by omega) hrest
  | cons c text ih =>
    have hih := ih (fun d hd => hplain d (List.mem_cons_of_mem _ hd))
      fun l r h => hmarks (c :: l) r (by rw [h]; rfl)
    by_cases hend : c = '\x27' ∧ (text = [] ∨ text = ['\x27'])
    · obtain ⟨rfl, rfl | rfl⟩ := hend
      · exact closeLong_replicate (n := 1) (by omega) hrest
      · exact closeLong_replicate (n := 2) (by omega) hrest
    · rw [List.cons_append, readLongLiteral, if_pos (hplain c (List.mem_cons_self ..)), hih,
        consRead_some]
      rintro cs rfl heq
      -- two more marks would close the text here, so it would hold three in a row
      rcases text with _ | ⟨a, _ | ⟨b, text⟩⟩
      · exact hend ⟨rfl, Or.inl rfl⟩
      · cases heq
        exact hend ⟨rfl, Or.inr rfl⟩
      · cases heq
        exact hmarks [] text rfl

/-! ### Runs of marks -/

/-- One character more: the longest run so far and the run that ends here. -/
def countRun (mark : Char) (state : Nat × Nat) (c : Char) : Nat × Nat :=
  (max state.1 (if c = mark then state.2 + 1 else 0), if c = mark then state.2 + 1 else 0)

theorem longestRun_eq (mark : Char) (cs : List Char) :
    longestRun mark cs = (cs.foldl (countRun mark) (0, 0)).1 := rfl

theorem le_foldl_countRun (mark : Char) (cs : List Char) (state : Nat × Nat) :
    state.1 ≤ (cs.foldl (countRun mark) state).1 := by
  induction cs generalizing state with
  | nil => exact Nat.le_refl _
  | cons c cs ih => exact Nat.le_trans (Nat.le_max_left ..) (ih (countRun mark state c))

theorem foldl_countRun_replicate (mark : Char) (n : Nat) (state : Nat × Nat)
    (h : state.2 ≤ state.1) :
    state.2 + n ≤ ((List.replicate n mark).foldl (countRun mark) state).1 := by
  induction n generalizing state with
  | zero => exact h
  | succ n ih =>
    have hstep := ih (countRun mark state mark) (by
      simp only [countRun, if_true]
      exact Nat.le_max_right ..)
    simp only [countRun, if_true] at hstep
    rw [List.replicate_succ, List.foldl_cons]
    simp only [countRun, if_true]
    omega

theorem run_le_longest (mark : Char) (cs : List Char) (state : Nat × Nat) (h : state.2 ≤ state.1) :
    (cs.foldl (countRun mark) state).2 ≤ (cs.foldl (countRun mark) state).1 := by
  induction cs generalizing state with
  | nil => exact h
  | cons c cs ih => exact ih _ (Nat.le_max_right ..)

theorem le_longestRun (mark : Char) (l r : List Char) (n : Nat) :
    n ≤ longestRun mark (l ++ (List.replicate n mark ++ r)) := by
  rw [longestRun_eq, List.foldl_append, List.foldl_append]
  have hbefore := run_le_longest mark l (0, 0) (Nat.le_refl 0)
  have hrun := foldl_countRun_replicate mark n _ hbefore
  have hafter := le_foldl_countRun mark r
    ((List.replicate n mark).foldl (countRun mark) (l.foldl (countRun mark) (0, 0)))
  omega

theorem not_mem_of_longestRun {mark : Char} {cs : List Char} (h : longestRun mark cs = 0) :
    mark ∉ cs := by
  intro hmem
  obtain ⟨l, r, rfl⟩ := List.append_of_mem hmem
  have hle := le_longestRun mark l r 1
  rw [show l ++ (List.replicate 1 mark ++ r) = l ++ mark :: r from rfl] at hle
  omega

theorem ne_marks_of_longestRun {mark : Char} {cs : List Char} (h : longestRun mark cs ≤ 2)
    (l r : List Char) : cs ≠ l ++ mark :: mark :: mark :: r := by
  rintro rfl
  have hle := le_longestRun mark l r 3
  rw [show l ++ (List.replicate 3 mark ++ r) = l ++ mark :: mark :: mark :: r from rfl] at hle
  omega

/-! ### Every notation -/

theorem skipLineEnd_of_head {cs : List Char} (h : cs.head? ≠ some '\n') : skipLineEnd cs = cs := by
  cases cs with
  | nil => rfl
  | cons c cs =>
    rw [skipLineEnd]
    exact fun _ heq => h (by rw [(List.cons.inj heq).1]; rfl)

theorem mem_escapeLong {x : Char} {text : List Char} {quotes : Nat}
    (h : x ∈ escapeLong quotes text) : isPlain x = true ∨ x = '\n' ∧ '\n' ∈ text := by
  induction text generalizing quotes with
  | nil => exact absurd h List.not_mem_nil
  | cons c text ih =>
    have hrest {q : Nat} (hx : x ∈ escapeLong q text) :
        isPlain x = true ∨ x = '\n' ∧ '\n' ∈ c :: text :=
      (ih hx).imp_right fun hline => ⟨hline.1, List.mem_cons_of_mem _ hline.2⟩
    unfold escapeLong at h
    split at h
    · rename_i hquote
      rcases List.mem_cons.1 h with hx | hx
      · rw [hx, hquote.1]
        exact Or.inl rfl
      · exact hrest hx
    split at h
    · rename_i hline
      rcases List.mem_cons.1 h with hx | hx
      · exact Or.inr ⟨hx.trans hline, by rw [hline]; exact List.mem_cons_self ..⟩
      · exact hrest hx
    · rcases List.mem_append.1 h with hx | hx
      · exact Or.inl (isPlain_of_mem_escapeBasic hx)
      · exact hrest hx

theorem long_append (mark : Char) (text body rest : List Char) :
    long mark text body ++ rest = mark :: mark :: mark ::
      ((if '\n' ∈ text then ['\n'] else []) ++ (body ++ mark :: mark :: mark :: rest)) := by
  simp only [long, List.cons_append, List.nil_append, List.append_assoc]

/-- The line that a text over lines begins on holds nothing of it. -/
theorem skipLineEnd_long {text body : List Char} (h : '\n' ∈ body → '\n' ∈ text) (mark : Char)
    (hmark : mark ≠ '\n') (rest : List Char) :
    skipLineEnd ((if '\n' ∈ text then ['\n'] else []) ++ (body ++ mark :: rest)) =
      body ++ mark :: rest := by
  split
  · rfl
  · rename_i hline
    refine skipLineEnd_of_head fun hhead => ?_
    cases body with
    | nil => exact hmark (Option.some.inj hhead)
    | cons c body => exact hline (h (by rw [Option.some.inj hhead]; exact List.mem_cons_self ..))

section Quotes

variable (text : List Char) {rest : List Char} (hquote : rest.head? ≠ some '"')
include hquote

theorem readQuoted_basic :
    readQuoted ('"' :: (text.flatMap escapeBasic ++ ['"']) ++ rest) = some (text, rest) := by
  have happ : '"' :: (text.flatMap escapeBasic ++ ['"']) ++ rest =
      '"' :: (text.flatMap escapeBasic ++ '"' :: rest) := by
    simp only [List.cons_append, List.append_assoc, List.nil_append]
  rw [happ, readQuoted, readBasic_flatMap]
  intro cs heq
  cases text with
  | nil =>
    have hrest : rest = '"' :: cs := (List.cons.inj heq).2
    exact hquote (by rw [hrest]; rfl)
  | cons c text =>
    obtain ⟨d, ds, hd, hne⟩ := escapeBasic_head c
    rw [List.flatMap_cons, hd] at heq
    exact hne (List.cons.inj heq).1

theorem readQuoted_longBasic :
    readQuoted (long '"' text (escapeLong 0 text) ++ rest) = some (text, rest) := by
  have hline : '\n' ∈ escapeLong 0 text → '\n' ∈ text := fun h =>
    (mem_escapeLong h).elim (fun hplain => absurd hplain (by decide)) fun hline => hline.2
  rw [long_append, readQuoted, skipLineEnd_long hline '"' (by decide)]
  exact readLongBasic_escapeLong text 0 hquote

end Quotes

section Apostrophes

variable {text : List Char} {rest : List Char} (hmark : rest.head? ≠ some '\x27')
include hmark

theorem readQuoted_literal (hplain : ∀ c ∈ text, isPlain c = true) (hnone : '\x27' ∉ text) :
    readQuoted ('\x27' :: (text ++ ['\x27']) ++ rest) = some (text, rest) := by
  have happ : '\x27' :: (text ++ ['\x27']) ++ rest = '\x27' :: (text ++ '\x27' :: rest) := by
    simp only [List.cons_append, List.append_assoc, List.nil_append]
  rw [happ, readQuoted, readLiteral_append hplain hnone]
  intro cs heq
  cases text with
  | nil =>
    have hrest : rest = '\x27' :: cs := (List.cons.inj heq).2
    exact hmark (by rw [hrest]; rfl)
  | cons c text => exact hnone (by rw [(List.cons.inj heq).1]; exact List.mem_cons_self ..)

theorem readQuoted_longLiteral (hplain : ∀ c ∈ text, isPlain c = true ∨ c = '\n')
    (hmarks : longestRun '\x27' text ≤ 2) :
    readQuoted (long '\x27' text text ++ rest) = some (text, rest) := by
  rw [long_append, readQuoted, skipLineEnd_long id '\x27' (by decide)]
  exact readLongLiteral_append hplain (ne_marks_of_longestRun hmarks) hmark

end Apostrophes

/-! ### The choice of a notation -/

/-- The notation that a text is written in, and what its choice has checked. -/
theorem quoted_cases (text : List Char) :
    quoted text = '"' :: (text.flatMap escapeBasic ++ ['"']) ∨
    quoted text = long '"' text (escapeLong 0 text) ∨
    (quoted text = '\x27' :: (text ++ ['\x27']) ∧ (∀ c ∈ text, isPlain c = true) ∧
      '\x27' ∉ text) ∨
    (quoted text = long '\x27' text text ∧ (∀ c ∈ text, isPlain c = true ∨ c = '\n') ∧
      longestRun '\x27' text ≤ 2) := by
  have hplain (h : text.any isControl = false) : ∀ c ∈ text, isPlain c = true ∨ c = '\n' := by
    intro c hc
    have hcontrol : isControl c = false := by
      rw [List.any_eq_false] at h
      exact Bool.eq_false_iff.2 (h c hc)
    by_cases hline : c = '\n'
    · exact Or.inr hline
    · exact Or.inl (isPlain_of_not_isControl hcontrol hline)
  unfold quoted
  simp only [Bool.and_eq_true, Bool.not_eq_true', decide_eq_true_eq]
  split
  · exact Or.inl rfl
  split
  · rename_i h
    obtain ⟨⟨hcontrol, hmarks⟩, hline⟩ := h
    refine Or.inr (Or.inr (Or.inl ⟨rfl, fun c hc => ?_, not_mem_of_longestRun hmarks⟩))
    exact (hplain hcontrol c hc).resolve_right fun h => hline (h ▸ hc)
  split
  · exact Or.inr (Or.inl rfl)
  split
  · rename_i h
    exact Or.inr (Or.inr (Or.inr ⟨rfl, hplain h.1, h.2⟩))
  split
  · exact Or.inr (Or.inl rfl)
  · exact Or.inl rfl

/-- A quoted text is read back, whatever follows it other than a mark. -/
theorem readQuoted_quoted (text : List Char) {rest : List Char} (hquote : rest.head? ≠ some '"')
    (hmark : rest.head? ≠ some '\x27') :
    readQuoted (quoted text ++ rest) = some (text, rest) := by
  rcases quoted_cases text with h | h | ⟨h, hplain, hnone⟩ | ⟨h, hplain, hmarks⟩
  · rw [h, readQuoted_basic text hquote]
  · rw [h, readQuoted_longBasic text hquote]
  · rw [h, readQuoted_literal hmark hplain hnone]
  · rw [h, readQuoted_longLiteral hmark hplain hmarks]

theorem mem_long {mark x : Char} {text body : List Char} (h : x ∈ long mark text body) :
    x = mark ∨ x = '\n' ∨ x ∈ body := by
  simp only [long, List.mem_append, List.mem_cons, List.not_mem_nil, or_false] at h
  rcases h with ((h | h) | h) | h
  · exact Or.inl (by simpa using h)
  · split at h
    · exact Or.inr (Or.inl (List.mem_singleton.1 h))
    · exact absurd h List.not_mem_nil
  · exact Or.inr (Or.inr h)
  · exact Or.inl (by simpa using h)

theorem plain_of_mem_quoted {text : List Char} {x : Char} (h : x ∈ quoted text) :
    isPlain x = true ∨ x = '\n' := by
  rcases quoted_cases text with ht | ht | ⟨ht, hplain, -⟩ | ⟨ht, hplain, -⟩ <;> rw [ht] at h
  · simp only [List.mem_cons, List.mem_append, List.mem_flatMap, List.not_mem_nil, or_false] at h
    rcases h with rfl | ⟨c, -, hx⟩ | rfl
    · exact Or.inl rfl
    · exact Or.inl (isPlain_of_mem_escapeBasic hx)
    · exact Or.inl rfl
  · rcases mem_long h with rfl | hx | hx
    · exact Or.inl rfl
    · exact Or.inr hx
    · exact (mem_escapeLong hx).imp_right fun hline => hline.1
  · simp only [List.mem_cons, List.mem_append, List.not_mem_nil, or_false] at h
    rcases h with rfl | hx | rfl
    · exact Or.inl rfl
    · exact Or.inl (hplain x hx)
    · exact Or.inl rfl
  · rcases mem_long h with rfl | hx | hx
    · exact Or.inl rfl
    · exact Or.inr hx
    · exact hplain x hx

theorem quoted_head (text : List Char) :
    ∃ cs, quoted text = '"' :: cs ∨ quoted text = '\x27' :: cs := by
  rcases quoted_cases text with h | h | ⟨h, -⟩ | ⟨h, -⟩
  · exact ⟨_, Or.inl h⟩
  · exact ⟨_, Or.inl h⟩
  · exact ⟨_, Or.inr h⟩
  · exact ⟨_, Or.inr h⟩

end SelfReference.Toml
