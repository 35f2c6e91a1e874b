import SelfReference.Json.Printer
import SelfReference.Json.Reader

/-!
# Compact JSON is read back

Every text within quotes is read back character by character: an escape by letter as the character,
one by number as a unit below U+0020, which is never half of a surrogate pair.  A value that
consists of texts, arrays and objects is read back from its compact text, whatever follows it, by an
induction on the value that gives every level of it two steps of the reader for each character.
-/

namespace SelfReference.Json

open Text

/-! ### Text within quotes -/

-- below U+0020 a unit, unless the escape of the character is a letter
def pieceOf (c : Char) : Piece :=
  if c.toNat < 0x20 ∧ c ∉ ['\x08', '\t', '\n', '\x0c', '\r'] then .unit c.toNat else .char c

theorem readPieces_unicode {n : Nat} (h : n < 65536) (cs : List Char) :
    readPieces ('\\' :: 'u' :: (fourDigits smallDigits n ++ cs)) =
      (readPieces cs).map fun (ps, rest) => (.unit n :: ps, rest) := by
  have hdigits := isDigitOf_fourDigits digitValue?_smallDigits n
  have hnumeral := numeral_fourDigits digitValue?_smallDigits h
  simp only [fourDigits, List.map_cons, List.map_nil] at hdigits hnumeral
  simp only [fourDigits, List.map_cons, List.map_nil, List.cons_append, List.nil_append, readPieces]
  rw [if_pos hdigits, hnumeral]

theorem readPieces_plain {c : Char} (hquote : c ≠ '"') (hslash : c ≠ '\\') (hc : ¬ c.toNat < 0x20)
    (cs : List Char) :
    readPieces (c :: cs) = (readPieces cs).map fun (ps, rest) => (.char c :: ps, rest) := by
  rw [readPieces, if_neg (by simp only [hslash, hc, or_self, not_false_eq_true])]
  · exact fun h => absurd h hquote
  · exact fun _ _ _ _ _ h => absurd h hslash
  · exact fun _ _ h => absurd h hslash

theorem readPieces_escapeChar (c : Char) (cs : List Char) :
    readPieces (escapeChar c ++ cs) =
      (readPieces cs).map fun (ps, rest) => (pieceOf c :: ps, rest) := by
  by_cases hletter : c ∈ ['"', '\\', '\x08', '\t', '\n', '\x0c', '\r']
  · simp only [List.mem_cons, List.not_mem_nil, or_false] at hletter
    rcases hletter with rfl | rfl | rfl | rfl | rfl | rfl | rfl <;> rfl
  · simp only [List.mem_cons, List.not_mem_nil, or_false, not_or] at hletter
    obtain ⟨h1, h2, h3, h4, h5, h6, h7⟩ := hletter
    unfold escapeChar pieceOf
    rw [if_neg h1, if_neg h2, if_neg h3, if_neg h4, if_neg h5, if_neg h6, if_neg h7]
    by_cases hc : c.toNat < 0x20
    · rw [if_pos hc, if_pos ⟨hc, by simp [h3, h4, h5, h6, h7]⟩]
      exact readPieces_unicode (by omega) cs
    · rw [if_neg hc, if_neg fun h => hc h.1]
      exact readPieces_plain h1 h2 hc cs

theorem readPieces_flatMap (cs rest : List Char) :
    readPieces (cs.flatMap escapeChar ++ '"' :: rest) = some (cs.map pieceOf, rest) := by
  induction cs with
  | nil => rfl
  | cons c cs ih =>
    rw [List.flatMap_cons, List.append_assoc, readPieces_escapeChar, ih]
    rfl

theorem assemble?_pieceOf (c : Char) (ps : List Piece) :
    assemble? (pieceOf c :: ps) = (assemble? ps).map (c :: ·) := by
  unfold pieceOf
  split
  · rename_i h
    have hchar : Char.ofNat c.toNat = c := Char.ofNat_toNat c
    have hpair : ¬ (0xD800 ≤ c.toNat ∧ c.toNat < 0xE000) := by omega
    rw [assemble?.eq_def]
    split
    · rename_i heq
      cases heq
    · rename_i heq
      cases heq
    · rename_i u v ps' heq
      cases heq
      rw [if_neg (by omega), if_neg hpair, hchar]
    · rename_i u ps' _ heq
      cases heq
      rw [if_neg hpair, hchar]
  · rfl

theorem assemble?_map (cs : List Char) : assemble? (cs.map pieceOf) = some cs := by
  induction cs with
  | nil => rfl
  | cons c cs ih => rw [List.map_cons, assemble?_pieceOf, ih, Option.map_some]

theorem readText_quoted (s : String) (rest : List Char) :
    readText (s.toList.flatMap escapeChar ++ '"' :: rest) = some (some s, rest) := by
  rw [readText, readPieces_flatMap, Option.map_some]
  simp only [assemble?_map, Option.map_some, String.ofList_toList]

/-! ### Values -/

/-- A value that consists of texts, arrays and objects. -/
inductive Textual : Json → Prop where
  | str (text : String) : Textual (.str text)
  | arr {items : List Json} (h : ∀ v ∈ items, Textual v) : Textual (.arr items)
  | obj {members : List (String × Json)} (h : ∀ m ∈ members, Textual m.2) : Textual (.obj members)

def ReadsBack (v : Json) : Prop :=
  ∀ fuel rest, 2 * (compactChars v).length ≤ fuel →
    readValue fuel (compactChars v ++ rest) = some (v, rest)

theorem skipSpace_cons {c : Char} (h : isSpace c = false) (cs : List Char) :
    skipSpace (c :: cs) = c :: cs := by
  rw [skipSpace, List.dropWhile_cons_of_neg (by simp [h])]

theorem Textual.exists_head {v : Json} (h : Textual v) :
    ∃ c cs, compactChars v = c :: cs ∧ isSpace c = false ∧ c ≠ ']' := by
  cases h with
  | str text => exact ⟨'"', _, rfl, by decide, by decide⟩
  | arr h => exact ⟨'[', _, rfl, by decide, by decide⟩
  | obj h => exact ⟨'{', _, rfl, by decide, by decide⟩

theorem ReadsBack.of_succ {v : Json} {c : Char} {cs : List Char} (hhead : compactChars v = c :: cs)
    (h : ∀ fuel rest, 2 * (compactChars v).length ≤ fuel + 1 →
      readValue (fuel + 1) (compactChars v ++ rest) = some (v, rest)) : ReadsBack v := by
  intro fuel rest hfuel
  cases fuel with
  | zero =>
    rw [hhead, List.length_cons] at hfuel
    omega
  | succ fuel => exact h fuel rest hfuel

theorem ReadsBack.str (text : String) : ReadsBack (.str text) := by
  refine .of_succ (c := '"') rfl fun fuel rest _ => ?_
  simp only [compactChars, quoted, List.cons_append, List.append_assoc, List.nil_append]
  rw [readValue, skipSpace_cons (by decide)]
  simp only [readText_quoted, Option.map_some, Option.getD_some]

/-! ### Arrays -/

theorem readItems_compactItems {v : Json} {vs : List Json} (ih : ∀ w ∈ v :: vs, ReadsBack w)
    {fuel : Nat} (hfuel : 2 * (Text.join [','] (compactItems (v :: vs))).length < fuel)
    (rest : List Char) :
    readItems fuel (Text.join [','] (compactItems (v :: vs)) ++ ']' :: rest) =
      some (v :: vs, rest) := by
  induction vs generalizing v fuel with
  | nil =>
    cases fuel with
    | zero => omega
    | succ fuel =>
      simp only [compactItems, Text.join] at hfuel ⊢
      have hv := ih v (List.mem_cons_self ..) fuel (']' :: rest) (by omega)
      rw [readItems, hv]
      simp only [Option.bind_eq_bind, Option.bind_some,
        skipSpace_cons (show isSpace ']' = false by decide)]
  | cons w ws ihs =>
    cases fuel with
    | zero => omega
    | succ fuel =>
      have hjoin : Text.join [','] (compactItems (v :: w :: ws)) =
          compactChars v ++ ',' :: Text.join [','] (compactItems (w :: ws)) := by
        simp only [compactItems, Text.join, List.append_assoc, List.singleton_append]
      rw [hjoin, List.length_append, List.length_cons] at hfuel
      have hv := ih v (List.mem_cons_self ..) fuel
        (',' :: (Text.join [','] (compactItems (w :: ws)) ++ ']' :: rest)) (by omega)
      have hws := ihs (fun u hu => ih u (List.mem_cons_of_mem _ hu))
        (show 2 * (Text.join [','] (compactItems (w :: ws))).length < fuel by omega)
      rw [hjoin, List.append_assoc, List.cons_append, readItems, hv]
      simp only [Option.bind_eq_bind, Option.bind_some,
        skipSpace_cons (show isSpace ',' = false by decide), hws, Option.map_some]

theorem ReadsBack.arr {items : List Json} (htext : ∀ v ∈ items, Textual v)
    (ih : ∀ v ∈ items, ReadsBack v) : ReadsBack (.arr items) := by
  refine .of_succ (c := '[') rfl fun fuel rest hfuel => ?_
  simp only [compactChars, List.cons_append, List.append_assoc, List.nil_append,
    List.length_cons, List.length_append, List.length_nil] at hfuel ⊢
  rw [readValue, skipSpace_cons (by decide)]
  cases items with
  | nil => rfl
  | cons v vs =>
    obtain ⟨c, cs, hc, hspace, hbracket⟩ := (htext v (List.mem_cons_self ..)).exists_head
    have hhead : ∃ cs', Text.join [','] (compactItems (v :: vs)) ++ ']' :: rest = c :: cs' := by
      cases vs <;> simp [compactItems, Text.join, hc]
    obtain ⟨cs', hcs'⟩ := hhead
    have hbound : 2 * (Text.join [','] (compactItems (v :: vs))).length < fuel := by omega
    have hitems := readItems_compactItems ih hbound rest
    rw [hcs'] at hitems ⊢
    simp only [skipSpace_cons hspace]
    split
    · rename_i heq
      exact absurd (List.cons.inj heq).1 hbracket
    · rw [hitems, Option.map_some]

/-! ### Objects -/

theorem compactMembers_cons (k : String) (v : Json) (ms : List (String × Json)) :
    compactMembers ((k, v) :: ms) = (quoted k ++ ':' :: compactChars v) :: compactMembers ms := rfl

/-- The members as they are read, every name with a reading. -/
def named (ms : List (String × Json)) : List (Option String × Json) :=
  ms.map fun m => (some m.1, m.2)

theorem mapM_named {f : Option String × Json → Option (String × Json)}
    (hf : ∀ k v, f (some k, v) = some (k, v)) (ms : List (String × Json)) :
    (named ms).mapM f = some ms := by
  induction ms with
  | nil => rfl
  | cons m ms ih =>
    rw [named, List.map_cons, List.mapM_cons, hf]
    rw [named] at ih
    rw [ih]
    rfl

theorem ofMembers_named (ms : List (String × Json)) : ofMembers (named ms) = .obj ms := by
  rw [ofMembers, mapM_named]
  exact fun _ _ => rfl

theorem readMembers_compactMembers {m : String × Json} {ms : List (String × Json)}
    (ih : ∀ e ∈ m :: ms, ReadsBack e.2) {fuel : Nat}
    (hfuel : 2 * (Text.join [','] (compactMembers (m :: ms))).length < fuel) (rest : List Char) :
    readMembers fuel (Text.join [','] (compactMembers (m :: ms)) ++ '}' :: rest) =
      some (named (m :: ms), rest) := by
  induction ms generalizing m fuel with
  | nil =>
    obtain ⟨k, v⟩ := m
    cases fuel with
    | zero => omega
    | succ fuel =>
      simp only [compactMembers, Text.join, quoted, List.length_append,
        List.length_cons, List.cons_append, List.append_assoc, List.nil_append] at hfuel ⊢
      have hback : ReadsBack v := ih (k, v) (List.mem_cons_self ..)
      have hv := hback fuel ('}' :: rest) (by omega)
      rw [readMembers, skipSpace_cons (by decide)]
      simp only [readText_quoted, Option.bind_eq_bind, Option.bind_some,
        skipSpace_cons (show isSpace ':' = false by decide), hv,
        skipSpace_cons (show isSpace '}' = false by decide)]
      rfl
  | cons e es ihs =>
    obtain ⟨k, v⟩ := m
    cases fuel with
    | zero => omega
    | succ fuel =>
      have hjoin : Text.join [','] (compactMembers ((k, v) :: e :: es)) =
          quoted k ++
            ':' :: (compactChars v ++ ',' :: Text.join [','] (compactMembers (e :: es))) := by
        obtain ⟨k', v'⟩ := e
        simp only [compactMembers_cons, Text.join, List.append_assoc, List.cons_append,
          List.nil_append]
      rw [hjoin] at hfuel ⊢
      simp only [quoted, List.length_append, List.length_cons, List.cons_append, List.append_assoc,
        List.nil_append] at hfuel ⊢
      have hback : ReadsBack v := ih (k, v) (List.mem_cons_self ..)
      have hv := hback fuel
        (',' :: (Text.join [','] (compactMembers (e :: es)) ++ '}' :: rest)) (by omega)
      have hes := ihs (m := e) (fun u hu => ih u (List.mem_cons_of_mem _ hu))
        (show 2 * (Text.join [','] (compactMembers (e :: es))).length < fuel by omega)
      rw [readMembers, skipSpace_cons (by decide)]
      simp only [readText_quoted, Option.bind_eq_bind, Option.bind_some,
        skipSpace_cons (show isSpace ':' = false by decide), hv,
        skipSpace_cons (show isSpace ',' = false by decide), hes, Option.map_some]
      rfl

theorem ReadsBack.obj {members : List (String × Json)} (ih : ∀ m ∈ members, ReadsBack m.2) :
    ReadsBack (.obj members) := by
  refine .of_succ (c := '{') rfl fun fuel rest hfuel => ?_
  simp only [compactChars, List.cons_append, List.append_assoc, List.nil_append,
    List.length_cons, List.length_append, List.length_nil] at hfuel ⊢
  rw [readValue, skipSpace_cons (by decide)]
  cases members with
  | nil => rfl
  | cons m ms =>
    have hhead : ∃ cs, Text.join [','] (compactMembers (m :: ms)) ++ '}' :: rest = '"' :: cs := by
      obtain ⟨k, v⟩ := m
      cases ms with
      | nil => exact ⟨_, rfl⟩
      | cons e es =>
        obtain ⟨k', v'⟩ := e
        exact ⟨_, rfl⟩
    obtain ⟨cs, hcs⟩ := hhead
    have hbound : 2 * (Text.join [','] (compactMembers (m :: ms))).length < fuel := by omega
    have hmembers := readMembers_compactMembers ih hbound rest
    rw [hcs] at hmembers ⊢
    simp only [skipSpace_cons (show isSpace '"' = false by decide)]
    split
    · rename_i heq
      exact absurd (List.cons.inj heq).1 (by decide)
    · rw [hmembers, Option.map_some]
      simp only [ofMembers_named]

theorem Textual.readsBack {v : Json} (h : Textual v) : ReadsBack v := by
  induction h with
  | str text => exact .str text
  | arr h ih => exact .arr h ih
  | obj h ih => exact .obj ih

/-- A value of texts, arrays and objects is read back from its compact text. -/
theorem read?_compact {v : Json} (h : Textual v) : read? v.compact = some v := by
  have hread := h.readsBack (2 * (compactChars v).length + 2) [] (by omega)
  rw [List.append_nil] at hread
  simp only [read?, compact, String.toList_ofList, hread]
  rfl

end SelfReference.Json
