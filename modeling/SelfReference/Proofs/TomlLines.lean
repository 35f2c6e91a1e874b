import SelfReference.Proofs.QuotedToml
import SelfReference.Toml.Printer

/-!
# Lines of TOML are read back

A document over lines is a sequence of sections: a header, and under it a line for every key with a
value on one line.  Reading takes the lines one by one; a section comes back as its statements, and
reading fails as soon as the path of a header has more keys than a dotted key may have.
-/

namespace SelfReference.Toml

/-! ### Joined parts -/

theorem mem_join {separator : List Char} {parts : List (List Char)} {c : Char}
    (h : c ∈ Text.join separator parts) : c ∈ separator ∨ ∃ part ∈ parts, c ∈ part := by
  induction parts with
  | nil => exact absurd h List.not_mem_nil
  | cons part parts ih =>
    cases parts with
    | nil => exact Or.inr ⟨part, List.mem_cons_self .., h⟩
    | cons next parts =>
      rw [Text.join, List.mem_append, List.mem_append] at h
      rcases h with (h | h) | h
      · exact Or.inr ⟨part, List.mem_cons_self .., h⟩
      · exact Or.inl h
      · rcases ih h with h | ⟨q, hq, hc⟩
        · exact Or.inl h
        · exact Or.inr ⟨q, List.mem_cons_of_mem _ hq, hc⟩

theorem exists_join_cons (separator part : List Char) (parts : List (List Char)) :
    ∃ tail, Text.join separator (part :: parts) = part ++ tail := by
  cases parts with
  | nil => exact ⟨[], (List.append_nil part).symm⟩
  | cons next parts => exact ⟨_, List.append_assoc ..⟩

/-! ### Keys and paths -/

def IsBareKey (key : String) : Prop := key.toList ≠ [] ∧ key.toList.all isBareChar = true

theorem keyChars_bare {key : String} (h : IsBareKey key) : keyChars key = key.toList := if_pos h

theorem ne_of_isBareChar {c x : Char} (h : isBareChar c = true) (hx : isBareChar x = false) :
    c ≠ x := by
  rintro rfl
  rw [h] at hx
  exact Bool.noConfusion hx

theorem isBlank_of_isBareChar {c : Char} (h : isBareChar c = true) : isBlank c = false := by
  have hspace : c ≠ ' ' := ne_of_isBareChar h (by decide)
  have htab : c ≠ '\t' := ne_of_isBareChar h (by decide)
  simp [isBlank, hspace, htab]

theorem IsBareKey.exists_head {key : String} (h : IsBareKey key) :
    ∃ c cs, key.toList = c :: cs ∧ isBareChar c = true := by
  obtain ⟨c, cs, hc⟩ := List.exists_cons_of_ne_nil h.1
  have hall := h.2
  rw [hc, List.all_cons, Bool.and_eq_true] at hall
  exact ⟨c, cs, hc, hall.1⟩

theorem skipBlank_of_head {c : Char} (h : isBlank c = false) (cs : List Char) :
    skipBlank (c :: cs) = c :: cs := by
  rw [skipBlank, List.dropWhile_cons_of_neg (by simp [h])]

theorem skipBlank_bare {key : String} (h : IsBareKey key) (rest : List Char) :
    skipBlank (key.toList ++ rest) = key.toList ++ rest := by
  obtain ⟨c, cs, hc, hbare⟩ := h.exists_head
  rw [hc, List.cons_append]
  exact skipBlank_of_head (isBlank_of_isBareChar hbare) _

theorem isBareChar_head {x : Char} (hx : isBareChar x = false) (rest : List Char) :
    ∀ c ∈ (x :: rest).head?, isBareChar c = false := by
  intro c hc
  rw [← Option.some.inj hc]
  exact hx

theorem readKey_bare {key : String} (h : IsBareKey key) {rest : List Char}
    (hrest : ∀ c ∈ rest.head?, isBareChar c = false) :
    readKey (key.toList ++ rest) = some (key, rest) := by
  obtain ⟨htake, hdrop⟩ := Text.takeWhile_append_stop (List.all_eq_true.1 h.2) hrest
  obtain ⟨c, cs, hc, hbare⟩ := h.exists_head
  rw [readKey]
  · simp only [htake, hdrop, String.ofList_toList]
    exact if_neg (by simp [hc])
  · intro cs' heq
    rw [hc] at heq
    exact ne_of_isBareChar hbare (by decide) (List.cons.inj heq).1
  · intro cs' heq
    rw [hc] at heq
    exact ne_of_isBareChar hbare (by decide) (List.cons.inj heq).1

theorem readPath_single {key : String} (h : IsBareKey key) {rest : List Char}
    (hrest : ∀ c ∈ rest.head?, isBareChar c = false) (hdot : (skipBlank rest).head? ≠ some '.')
    (limit : Nat) :
    readPath (limit + 1) (key.toList ++ rest) = some ([key], skipBlank rest) := by
  rw [readPath, skipBlank_bare h, readKey_bare h hrest]
  simp only [Option.bind_eq_bind, Option.bind_some]
  split
  · rename_i rest' heq
    exact absurd (by rw [heq]; rfl) hdot
  · rfl

theorem readPath_cons {key : String} (h : IsBareKey key) (rest : List Char) (limit : Nat) :
    readPath (limit + 1) (key.toList ++ '.' :: rest) =
      (readPath limit rest).map fun (keys, rest) => (key :: keys, rest) := by
  have hdot : isBareChar '.' = false := by decide
  rw [readPath, skipBlank_bare h, readKey_bare h (isBareChar_head hdot rest)]
  have hskip : skipBlank ('.' :: rest) = '.' :: rest := skipBlank_of_head rfl rest
  simp only [Option.bind_eq_bind, Option.bind_some, hskip]

theorem exists_head_pathChars {path : List String} (hpath : path ≠ [])
    (hbare : ∀ key ∈ path, IsBareKey key) :
    ∃ c cs, pathChars path = c :: cs ∧ isBareChar c = true := by
  obtain ⟨key, path, rfl⟩ := List.exists_cons_of_ne_nil hpath
  have hkey := hbare key (List.mem_cons_self ..)
  obtain ⟨c, cs, hc, hfirst⟩ := hkey.exists_head
  obtain ⟨tail, htail⟩ := exists_join_cons ['.'] (keyChars key) (path.map keyChars)
  refine ⟨c, cs ++ tail, ?_, hfirst⟩
  rw [pathChars, List.map_cons, htail, keyChars_bare hkey, hc, List.cons_append]

/-- A path is read back up to the bracket that closes it, unless it has too many keys. -/
theorem readPath_pathChars {path : List String} (hpath : path ≠ [])
    (hbare : ∀ key ∈ path, IsBareKey key) (rest : List Char) (limit : Nat) :
    readPath limit (pathChars path ++ ']' :: rest) =
      if path.length ≤ limit then some (path, ']' :: rest) else none := by
  have hbracket := isBareChar_head (show isBareChar ']' = false by decide) rest
  have hskip : skipBlank (']' :: rest) = ']' :: rest := skipBlank_of_head rfl rest
  induction path generalizing limit with
  | nil => exact absurd rfl hpath
  | cons key path ih =>
    have hkey := hbare key (List.mem_cons_self ..)
    cases limit with
    | zero => rw [readPath, if_neg (by simp)]
    | succ limit =>
      cases path with
      | nil =>
        rw [show pathChars [key] = keyChars key from rfl, keyChars_bare hkey,
          readPath_single hkey hbracket (by rw [hskip]; simp), hskip, if_pos (by simp)]
      | cons key' path =>
        have happ : pathChars (key :: key' :: path) ++ ']' :: rest =
            key.toList ++ '.' :: (pathChars (key' :: path) ++ ']' :: rest) := by
          simp only [pathChars, List.map_cons, Text.join, keyChars_bare hkey, List.append_assoc,
            List.cons_append, List.nil_append]
        rw [happ, readPath_cons hkey, ih (by simp) fun k hk => hbare k (List.mem_cons_of_mem _ hk)]
        by_cases hlimit : (key' :: path).length ≤ limit
        · rw [if_pos hlimit, if_pos (by rw [List.length_cons]; omega), Option.map_some]
        · rw [if_neg hlimit, if_neg (by rw [List.length_cons]; omega), Option.map_none]

/-! ### Values on one line -/

/-- A value without a header that is read back up to the end of its line. -/
structure OnLine (v : Toml) : Prop where
  hasHeader : hasHeader v = false
  readsBack : ∀ rest, readValue depthLimit (skipBlank (flatChars v ++ '\n' :: rest)) =
    some (v, '\n' :: rest)
  noReturn : '\r' ∉ flatChars v

theorem OnLine.str (text : String) : OnLine (.str text) where
  hasHeader := rfl
  readsBack rest := by
    have hread : readQuoted (quoted text.toList ++ '\n' :: rest) =
        some (text.toList, '\n' :: rest) := readQuoted_quoted text.toList (by simp) (by simp)
    obtain ⟨cs, hcs | hcs⟩ := quoted_head text.toList <;>
      · rw [flatChars, hcs, List.cons_append, skipBlank_of_head rfl, depthLimit, readValue,
          readFlat, ← List.cons_append, ← hcs, hread, Option.map_some]
        · simp only [String.ofList_toList]
        all_goals simp
  noReturn h := by
    rcases plain_of_mem_quoted h with hplain | hline
    · exact absurd hplain (by decide)
    · exact absurd hline (by decide)

theorem OnLine.empty : OnLine (.arr []) where
  hasHeader := rfl
  readsBack _ := rfl
  noReturn := by simp [flatChars, flatItems, Text.join]

/-! ### Statements -/

/-- How the lines of a text are read, with any bound that is enough for them. -/
def Reads (cs : List Char) (statements : Option (List Statement)) : Prop :=
  ∀ bound, cs.length < bound → readStatements bound cs = statements

namespace Reads

variable {cs rest : List Char} {r : Option (List Statement)}

theorem nil : Reads [] (some []) := by
  intro bound hbound
  cases bound with
  | zero => omega
  | succ bound => rfl

theorem emptyLine (h : Reads rest r) : Reads ('\n' :: rest) r := by
  intro bound hbound
  cases bound with
  | zero => omega
  | succ bound =>
    rw [List.length_cons] at hbound
    exact h bound (by omega)

theorem statement {s : Statement} (hend : endLine? cs = none)
    (hread : readStatement (skipBlank cs) = some (s, '\n' :: rest))
    (hlength : rest.length < cs.length) (h : Reads rest r) : Reads cs (r.map (s :: ·)) := by
  intro bound hbound
  cases bound with
  | zero => omega
  | succ bound =>
    have hsome : cs.isEmpty = false := by
      cases cs with
      | nil => exact absurd hlength (Nat.not_lt_zero _)
      | cons c cs => rfl
    have hrest : endLine? ('\n' :: rest) = some rest := rfl
    rw [readStatements, hsome, hend, hread]
    simp only [Bool.false_eq_true, if_false, Option.bind_eq_bind, Option.bind_some, hrest]
    rw [h bound (by omega)]

theorem fault (hend : endLine? cs = none) (hread : readStatement (skipBlank cs) = none) :
    Reads cs none := by
  intro bound hbound
  cases bound with
  | zero => omega
  | succ bound =>
    have hsome : cs.isEmpty = false := by
      cases cs with
      | nil => exact absurd hend (by decide)
      | cons c cs => rfl
    rw [readStatements, hsome, hend, hread]
    rfl

end Reads

theorem endLine?_of_head {c : Char} (hblank : isBlank c = false) (hcomment : c ≠ '#')
    (hline : c ≠ '\n') (cs : List Char) : endLine? (c :: cs) = none := by
  have hskip : skipComment (c :: cs) = c :: cs := by
    rw [skipComment]
    exact fun _ heq => hcomment (List.cons.inj heq).1
  rw [endLine?, skipBlank_of_head hblank, hskip]
  split
  · rename_i heq
    cases heq
  · rename_i heq
    exact absurd (List.cons.inj heq).1 hline
  · rfl

/-! ### Sections -/

def lineChars (m : String × Toml) : List Char :=
  keyChars m.1 ++ " = ".toList ++ flatChars m.2 ++ ['\n']

theorem reads_line {m : String × Toml} (hkey : IsBareKey m.1) (hvalue : OnLine m.2)
    {rest : List Char} {r : Option (List Statement)} (h : Reads rest r) :
    Reads (lineChars m ++ rest) (r.map (.pair [m.1] m.2 :: ·)) := by
  have happ : lineChars m ++ rest =
      m.1.toList ++ (' ' :: '=' :: ' ' :: (flatChars m.2 ++ '\n' :: rest)) := by
    simp [lineChars, keyChars_bare hkey]
  have hpath : readPath keyLimit (lineChars m ++ rest) =
      some ([m.1], '=' :: ' ' :: (flatChars m.2 ++ '\n' :: rest)) := by
    have hstop := isBareChar_head (show isBareChar ' ' = false by decide)
      ('=' :: ' ' :: (flatChars m.2 ++ '\n' :: rest))
    have hskip : skipBlank (' ' :: '=' :: ' ' :: (flatChars m.2 ++ '\n' :: rest)) =
        '=' :: ' ' :: (flatChars m.2 ++ '\n' :: rest) := rfl
    rw [happ, keyLimit, readPath_single hkey hstop (by rw [hskip]; simp), hskip]
  have hread : readStatement (skipBlank (lineChars m ++ rest)) =
      some (.pair [m.1] m.2, '\n' :: rest) := by
    have hpair : readPair (readValue depthLimit) (lineChars m ++ rest) =
        some (([m.1], m.2), '\n' :: rest) := by
      have hskip : skipBlank (' ' :: (flatChars m.2 ++ '\n' :: rest)) =
          skipBlank (flatChars m.2 ++ '\n' :: rest) := rfl
      rw [readPair, hpath]
      simp only [Option.bind_eq_bind, Option.bind_some, hskip, hvalue.readsBack]
    obtain ⟨c, cs, hc, hbare⟩ := hkey.exists_head
    have hbracket : c ≠ '[' := ne_of_isBareChar hbare (by decide)
    rw [happ, skipBlank_bare hkey, ← happ, readStatement, hpair, Option.map_some]
    all_goals
      intro cs' heq
      rw [happ, hc] at heq
      exact hbracket (List.cons.inj heq).1
  refine .statement ?_ hread ?_ h
  · obtain ⟨c, cs, hc, hbare⟩ := hkey.exists_head
    rw [happ, hc, List.cons_append]
    exact endLine?_of_head (isBlank_of_isBareChar hbare) (ne_of_isBareChar hbare (by decide))
      (ne_of_isBareChar hbare (by decide)) _
  · rw [happ]
    simp only [List.length_append, List.length_cons]
    omega

theorem reads_lines {pairs : List (String × Toml)}
    (hpairs : ∀ m ∈ pairs, IsBareKey m.1 ∧ OnLine m.2) {rest : List Char}
    {r : Option (List Statement)} (h : Reads rest r) :
    Reads (pairs.flatMap lineChars ++ rest)
      (r.map ((pairs.map fun m => .pair [m.1] m.2) ++ ·)) := by
  induction pairs with
  | nil => simpa using h
  | cons m pairs ih =>
    have hrest := ih fun m' hm' => hpairs m' (List.mem_cons_of_mem _ hm')
    have hm := hpairs m (List.mem_cons_self ..)
    have hline := reads_line hm.1 hm.2 hrest
    rw [List.flatMap_cons, List.append_assoc]
    simpa [Option.map_map, Function.comp_def] using hline

theorem noReturn_bare {key : String} (h : IsBareKey key) : '\r' ∉ keyChars key := by
  rw [keyChars_bare h]
  intro hmem
  exact absurd (List.all_eq_true.1 h.2 _ hmem) (by decide)

theorem noReturn_lines {pairs : List (String × Toml)}
    (hpairs : ∀ m ∈ pairs, IsBareKey m.1 ∧ OnLine m.2) : '\r' ∉ pairs.flatMap lineChars := by
  intro h
  obtain ⟨m, hm, h⟩ := List.mem_flatMap.1 h
  have hkey := noReturn_bare (hpairs m hm).1
  have hvalue := (hpairs m hm).2.noReturn
  simp [lineChars, hkey, hvalue] at h

/-- A header, of a table or of an element of an array of tables, and the lines under it. -/
structure Section where
  element : Bool
  parent : List String
  key : String
  pairs : List (String × Toml)

namespace Section

def path (s : Section) : List String := s.parent ++ [s.key]

def headerChars (s : Section) : List Char :=
  if s.element then "[[".toList ++ pathChars s.path ++ "]]\n".toList
  else '[' :: (pathChars s.path ++ "]\n".toList)

def chars (s : Section) : List Char := s.headerChars ++ s.pairs.flatMap lineChars

def header (s : Section) : Statement := if s.element then .element s.path else .table s.path

def statements (s : Section) : List Statement :=
  s.header :: s.pairs.map fun m => .pair [m.1] m.2

structure WellFormed (s : Section) : Prop where
  path : ∀ key ∈ s.path, IsBareKey key
  pairs : ∀ m ∈ s.pairs, IsBareKey m.1 ∧ OnLine m.2

theorem path_ne_nil (s : Section) : s.path ≠ [] := by simp [path]

theorem length_path (s : Section) : s.path.length = s.parent.length + 1 := by
  rw [path, List.length_append, List.length_singleton]

theorem length_headerChars_pos (s : Section) : 0 < s.headerChars.length := by
  unfold headerChars
  split <;> simp

theorem exists_head_chars (s : Section) (rest : List Char) :
    ∃ cs, s.chars ++ rest = '[' :: cs := by
  unfold chars headerChars
  split <;> exact ⟨_, rfl⟩

namespace WellFormed

variable {s : Section} (hs : s.WellFormed)
include hs

theorem readStatement_header (rest : List Char) :
    readStatement (s.headerChars ++ rest) =
      if s.path.length ≤ keyLimit then some (s.header, '\n' :: rest) else none := by
  have hread := readPath_pathChars s.path_ne_nil hs.path
  cases helement : s.element with
  | true =>
    have happ : s.headerChars ++ rest =
        '[' :: '[' :: (pathChars s.path ++ ']' :: ']' :: '\n' :: rest) := by
      simp [headerChars, helement]
    rw [happ, readStatement, hread (']' :: '\n' :: rest) keyLimit, header, helement]
    split <;> rfl
  | false =>
    have happ : s.headerChars ++ rest = '[' :: (pathChars s.path ++ ']' :: '\n' :: rest) := by
      simp [headerChars, helement]
    rw [happ, readStatement, hread ('\n' :: rest) keyLimit, header, helement]
    · split <;> rfl
    · intro cs heq
      obtain ⟨c, cs', hc, hbare⟩ := exists_head_pathChars s.path_ne_nil hs.path
      rw [hc] at heq
      exact ne_of_isBareChar hbare (by decide) (List.cons.inj heq).1

theorem noReturn : '\r' ∉ s.chars := by
  have hpath : '\r' ∉ pathChars s.path := by
    intro h
    rcases mem_join h with h | ⟨part, hpart, h⟩
    · exact absurd (List.mem_singleton.1 h) (by decide)
    · obtain ⟨key, hkey, rfl⟩ := List.mem_map.1 hpart
      exact noReturn_bare (hs.path key hkey) h
  have hlines := noReturn_lines hs.pairs
  unfold chars headerChars
  split <;> simp [hpath, hlines]

/-- A section is read back as its statements, unless its path has too many keys. -/
theorem reads {rest : List Char} {r : Option (List Statement)} (h : Reads rest r) :
    Reads (s.chars ++ rest)
      (if s.path.length ≤ keyLimit then r.map (s.statements ++ ·) else none) := by
  have hlines := reads_lines hs.pairs h
  have hread := hs.readStatement_header (s.pairs.flatMap lineChars ++ rest)
  rw [← List.append_assoc] at hread
  obtain ⟨cs, hcs⟩ := s.exists_head_chars rest
  have hend : endLine? (s.chars ++ rest) = none := by
    rw [hcs]
    exact endLine?_of_head rfl (by decide) (by decide) cs
  have hskip : skipBlank (s.chars ++ rest) = s.chars ++ rest := by
    rw [hcs]
    exact skipBlank_of_head rfl cs
  by_cases hlimit : s.path.length ≤ keyLimit
  · rw [if_pos hlimit] at hread ⊢
    have hpos := s.length_headerChars_pos
    have hlength : (s.pairs.flatMap lineChars ++ rest).length < (s.chars ++ rest).length := by
      simp only [chars, List.length_append]
      omega
    have hread' := Reads.statement hend (hskip.symm ▸ hread) hlength hlines
    simpa [statements, Option.map_map, Function.comp_def] using hread'
  · rw [if_neg hlimit] at hread ⊢
    exact .fault hend (hskip.symm ▸ hread)

end WellFormed

/-- Sections with an empty line between them are read back, unless some path is too long. -/
theorem reads_join {sections : List Section} (hwf : ∀ s ∈ sections, s.WellFormed) :
    Reads (Text.join ['\n'] (sections.map chars))
      (if ∀ s ∈ sections, s.path.length ≤ keyLimit then some (sections.flatMap statements)
      else none) := by
  induction sections with
  | nil => exact .nil
  | cons s sections ih =>
    have hs := hwf s (List.mem_cons_self ..)
    have hrest := ih fun t ht => hwf t (List.mem_cons_of_mem _ ht)
    have hread : Reads (Text.join ['\n'] ((s :: sections).map chars))
        (if s.path.length ≤ keyLimit then
          (if ∀ t ∈ sections, t.path.length ≤ keyLimit then some (sections.flatMap statements)
          else none).map (s.statements ++ ·)
        else none) := by
      cases sections with
      | nil => simpa [Text.join] using hs.reads hrest
      | cons t sections => simpa [Text.join] using hs.reads hrest.emptyLine
    simp only [List.forall_mem_cons, List.flatMap_cons]
    by_cases hlimit : s.path.length ≤ keyLimit
    · rw [if_pos hlimit] at hread
      by_cases hall : ∀ t ∈ sections, t.path.length ≤ keyLimit
      · rw [if_pos hall] at hread
        rw [if_pos ⟨hlimit, hall⟩]
        exact hread
      · rw [if_neg hall] at hread
        rw [if_neg fun h => hall h.2]
        exact hread
    · rw [if_neg hlimit] at hread
      rw [if_neg fun h => hlimit h.1]
      exact hread

end Section

/-! ### Documents -/

/-- The lines of a table that has no header of its own, and the sections below it. -/
def documentChars (pairs : List (String × Toml)) (sections : List Section) : List Char :=
  Text.join ['\n'] ((if pairs.isEmpty then [] else [pairs.flatMap lineChars]) ++
    sections.map Section.chars)

section Documents

variable {pairs : List (String × Toml)} {sections : List Section}
  (hpairs : ∀ m ∈ pairs, IsBareKey m.1 ∧ OnLine m.2) (hwf : ∀ s ∈ sections, s.WellFormed)

include hpairs hwf

theorem reads_document :
    Reads (documentChars pairs sections)
      (if ∀ s ∈ sections, s.path.length ≤ keyLimit then
        some ((pairs.map fun m => .pair [m.1] m.2) ++ sections.flatMap Section.statements)
      else none) := by
  have hsections := Section.reads_join hwf
  have hlines : Reads (documentChars pairs sections)
      ((if ∀ s ∈ sections, s.path.length ≤ keyLimit then
          some (sections.flatMap Section.statements) else none).map
        ((pairs.map fun m => .pair [m.1] m.2) ++ ·)) := by
    cases hp : pairs with
    | nil => simpa [documentChars] using hsections
    | cons m pairs' =>
      rw [← hp]
      have hsome : pairs.isEmpty = false := by rw [hp]; rfl
      cases sections with
      | nil => simpa [documentChars, hsome, Text.join] using reads_lines hpairs hsections
      | cons s sections =>
        simpa [documentChars, hsome, Text.join] using reads_lines hpairs hsections.emptyLine
  by_cases hall : ∀ s ∈ sections, s.path.length ≤ keyLimit
  · rw [if_pos hall] at hlines ⊢
    exact hlines
  · rw [if_neg hall] at hlines ⊢
    exact hlines

theorem noReturn_documentChars : '\r' ∉ documentChars pairs sections := by
  intro h
  rcases mem_join h with h | ⟨block, hblock, h⟩
  · exact absurd (List.mem_singleton.1 h) (by decide)
  rcases List.mem_append.1 hblock with hblock | hblock
  · split at hblock
    · exact absurd hblock List.not_mem_nil
    · rw [List.mem_singleton.1 hblock] at h
      exact noReturn_lines hpairs h
  · obtain ⟨s, hs, rfl⟩ := List.mem_map.1 hblock
    exact (hwf s hs).noReturn h

omit hwf in
theorem documentChars_head : (documentChars pairs sections).head? ≠ some '\ufeff' := by
  cases pairs with
  | nil =>
    cases sections with
    | nil => exact fun h => Option.some_ne_none _ h.symm
    | cons s sections =>
      obtain ⟨tail, htail⟩ := exists_join_cons ['\n'] s.chars (sections.map Section.chars)
      obtain ⟨cs, hcs⟩ := s.exists_head_chars tail
      have hdoc : documentChars [] (s :: sections) = '[' :: cs := htail.trans hcs
      rw [hdoc, List.head?_cons]
      decide
  | cons m pairs =>
    obtain ⟨tail, htail⟩ := exists_join_cons ['\n'] ((m :: pairs).flatMap lineChars)
      (sections.map Section.chars)
    have hkey := (hpairs m (List.mem_cons_self ..)).1
    obtain ⟨c, cs, hc, hbare⟩ := hkey.exists_head
    have hdoc : documentChars (m :: pairs) sections =
        c :: (cs ++ " = ".toList ++ flatChars m.2 ++ ['\n'] ++ pairs.flatMap lineChars ++
          tail) := by
      refine htail.trans ?_
      simp [lineChars, keyChars_bare hkey, hc]
    rw [hdoc, List.head?_cons]
    exact fun h => ne_of_isBareChar hbare (by decide) (Option.some.inj h)

end Documents

theorem lineFeeds_of_noReturn {cs : List Char} (h : '\r' ∉ cs) : lineFeeds cs = cs := by
  induction cs with
  | nil => rfl
  | cons c cs ih =>
    rw [List.mem_cons, not_or] at h
    rw [lineFeeds, ih h.2]
    exact fun _ heq => absurd heq.symm h.1

theorem skipMark_of_head {cs : List Char} (h : cs.head? ≠ some '\ufeff') : skipMark cs = cs := by
  cases cs with
  | nil => rfl
  | cons c cs =>
    rw [skipMark]
    exact fun _ heq => h (by rw [(List.cons.inj heq).1]; rfl)

/-- A document is read back as its statements, unless the path of some header is too long. -/
theorem read?_documentChars {pairs : List (String × Toml)} {sections : List Section}
    (hpairs : ∀ m ∈ pairs, IsBareKey m.1 ∧ OnLine m.2) (hwf : ∀ s ∈ sections, s.WellFormed) :
    read? (String.ofList (documentChars pairs sections)) =
      if ∀ s ∈ sections, s.path.length ≤ keyLimit then
        Document.ofStatements?
          ((pairs.map fun m => .pair [m.1] m.2) ++ sections.flatMap Section.statements)
      else none := by
  have hread := reads_document hpairs hwf _ (Nat.lt_succ_self _)
  unfold read?
  simp only [String.toList_ofList, skipMark_of_head (documentChars_head hpairs),
    lineFeeds_of_noReturn (noReturn_documentChars hpairs hwf), hread]
  split <;> rfl

end SelfReference.Toml
