import Mathlib.Data.List.TakeWhile
import SelfReference.Config.Toml
import SelfReference.Proofs.TomlLines

/-!
# Integers in TOML

A number up to the largest integer of the format is read back from its decimal numeral, and every
integer that is read, however deep it stands in a document, is at most the largest one.
-/

namespace SelfReference.Toml

open Text

/-! ### Numerals are read back -/

theorem exists_decimalDigit {n : Nat} {c : Char} (h : c ∈ decimal n) :
    ∃ d < 10, c = decimalDigit d := by
  fun_induction decimal n with
  | case1 n hn => exact ⟨n, hn, List.mem_singleton.1 h⟩
  | case2 n hn ih =>
    rcases List.mem_append.1 h with h | h
    · exact ih h
    · exact ⟨n % 10, Nat.mod_lt _ (by omega), List.mem_singleton.1 h⟩

theorem isTokenChar_decimal {n : Nat} : ∀ c ∈ decimal n, isTokenChar c = true := by
  have hdigit : ∀ d < 10, isTokenChar (decimalDigit d) = true := by decide
  intro c hc
  obtain ⟨d, hd, hcd⟩ := exists_decimalDigit hc
  rw [hcd]
  exact hdigit d hd

theorem ne_of_isDigitOf {base : Nat} {c x : Char} (h : isDigitOf base c = true)
    (hx : isDigitOf base x = false) : c ≠ x := by
  intro heq
  rw [heq, hx] at h
  exact Bool.noConfusion h

theorem decimal_ne_nil (n : Nat) : decimal n ≠ [] := by
  unfold decimal
  split <;> simp

theorem decimal_head_zero {n : Nat} {cs : List Char} (h : decimal n = '0' :: cs) : n = 0 := by
  fun_induction decimal n generalizing cs with
  | case1 n hn =>
    have hzero : ∀ d < 10, decimalDigit d = '0' → d = 0 := by decide
    exact hzero n hn (List.cons.inj h).1
  | case2 n hn ih =>
    obtain ⟨d, ds, hds⟩ := List.exists_cons_of_ne_nil (decimal_ne_nil (n / 10))
    rw [hds, List.cons_append] at h
    have hdiv := ih (hds.trans (by rw [(List.cons.inj h).1]))
    omega

theorem mem_of_pairWithin? {low high n : Nat} {cs rest : List Char}
    (h : pairWithin? low high cs = some (n, rest)) : ∀ c ∈ rest, c ∈ cs := by
  unfold pairWithin? at h
  split at h
  · rename_i a b cs'
    simp only [Option.ite_none_right_eq_some, Option.some.injEq, Prod.mk.injEq] at h
    intro c hc
    rw [← h.2.2] at hc
    simp [hc]
  · cases h

theorem cutAt_of_forall {p : Char → Bool} {cs : List Char} (hp : ∀ c ∈ cs, p c = false) :
    cutAt p cs = (cs, none) := by
  have hdrop : cs.dropWhile (fun c => !p c) = [] := by
    rw [List.dropWhile_eq_nil_iff]
    intro c hc
    rw [hp c hc]
    rfl
  rw [cutAt, hdrop]

section Digits

variable {ds : List Char} (hdigits : ∀ c ∈ ds, isDigitOf 10 c = true)
include hdigits

theorem not_mem_of_digits {x : Char} (hx : isDigitOf 10 x = false) : x ∉ ds := by
  intro hmem
  exact ne_of_isDigitOf (hdigits x hmem) hx rfl

theorem ne_cons_cons_of_digits {x : Char} (hx : isDigitOf 10 x = false) (c : Char)
    (cs : List Char) : ds ≠ c :: x :: cs := by
  intro heq
  exact not_mem_of_digits hdigits hx (heq ▸ by simp)

theorem ne_cons_of_digits {x : Char} (hx : isDigitOf 10 x = false) (cs : List Char) :
    ds ≠ x :: cs := by
  intro heq
  exact not_mem_of_digits hdigits hx (heq ▸ by simp)

theorem digitRun?_digits (hsome : ds ≠ []) : digitRun? 10 ds = some ds := by
  induction ds with
  | nil => exact absurd rfl hsome
  | cons c ds ih =>
    have hc := hdigits c (List.mem_cons_self ..)
    cases ds with
    | nil => rw [digitRun?, if_pos hc]
    | cons d ds =>
      have hrest := ih (fun x hx => hdigits x (List.mem_cons_of_mem _ hx)) (by simp)
      rw [digitRun?, if_pos hc, hrest, Option.map_some]
      exact ne_of_isDigitOf (hdigits d (by simp)) (by decide)

theorem splitSign_digits : splitSign ds = (false, ds) := by
  unfold splitSign
  split
  · rename_i cs
    exact absurd rfl (ne_cons_of_digits hdigits (by decide) cs)
  · rename_i cs
    exact absurd rfl (ne_cons_of_digits hdigits (by decide) cs)
  · rfl

theorem isFloat_digits : isFloat ds = false := by
  have hletters : ∀ c ∈ ds, (c = 'e' || c = 'E') = false := by
    intro c hc
    have he : c ≠ 'e' := ne_of_isDigitOf (hdigits c hc) (by decide)
    have hE : c ≠ 'E' := ne_of_isDigitOf (hdigits c hc) (by decide)
    simp [he, hE]
  have hpoint : ∀ c ∈ ds, decide (c = '.') = false := by
    intro c hc
    exact decide_eq_false (ne_of_isDigitOf (hdigits c hc) (by decide))
  have hword : ¬ (ds = ['i', 'n', 'f'] ∨ ds = ['n', 'a', 'n']) := by
    intro h
    rcases h with h | h
    · exact ne_cons_of_digits hdigits (by decide) _ h
    · exact ne_cons_of_digits hdigits (by decide) _ h
  unfold isFloat
  simp only [splitSign_digits hdigits, if_neg hword, cutAt_of_forall hletters,
    cutAt_of_forall hpoint]
  split <;> simp

theorem isDateTime_digits : isDateTime ds = false := by
  have hdate : afterDate? ds = none := by
    unfold afterDate?
    split
    · rename_i a b c d cs
      exact absurd rfl (ne_of_isDigitOf (x := '-') (hdigits '-' (by simp)) (by decide))
    · rfl
  have htime : afterTime? ds = none := by
    unfold afterTime?
    cases hhour : pairWithin? 0 23 ds with
    | none => rfl
    | some hour =>
      obtain ⟨n, cs⟩ := hour
      have hsuffix := mem_of_pairWithin? hhour
      simp only [Option.bind_eq_bind, Option.bind_some]
      split
      · rename_i cs'
        exact absurd (hsuffix ':' (List.mem_cons_self ..)) (not_mem_of_digits hdigits (by decide))
      · rfl
  rw [isDateTime, hdate]
  simp [htime]

theorem integer?_digits :
    integer? ds = (wholeRun? ds).bind fun ds => ofInt? (numeral 10 ds) := by
  unfold integer?
  split
  · rename_i cs
    exact absurd rfl (ne_cons_cons_of_digits hdigits (by decide) '0' cs)
  · rename_i cs
    exact absurd rfl (ne_cons_cons_of_digits hdigits (by decide) '0' cs)
  · rename_i cs
    exact absurd rfl (ne_cons_cons_of_digits hdigits (by decide) '0' cs)
  · simp [splitSign_digits hdigits]

theorem ofToken?_digits : ofToken? ds = (integer? ds).map .int := by
  have htrue : ds ≠ ['t', 'r', 'u', 'e'] := ne_cons_of_digits hdigits (by decide) _
  have hfalse : ds ≠ ['f', 'a', 'l', 's', 'e'] := ne_cons_of_digits hdigits (by decide) _
  rw [ofToken?, if_neg htrue, if_neg hfalse, isDateTime_digits hdigits, isFloat_digits hdigits]
  rfl

end Digits

theorem wholeRun?_decimal (n : Nat) : wholeRun? (decimal n) = some (decimal n) := by
  unfold wholeRun?
  split
  · rename_i cs h
    have hzero : decimal n = ['0'] := by
      rw [decimal_head_zero h, decimal, if_pos (by decide)]
      rfl
    have hnil : cs = [] := (List.cons.inj (h.symm.trans hzero)).2
    rw [hnil, hzero]
    rfl
  · exact digitRun?_digits (isDigitOf_decimal n) (decimal_ne_nil n)

theorem integer?_decimal {n : Nat} (h : (n : Int) ≤ maxInt) :
    integer? (decimal n) = some (n : Int) := by
  have hmin : minInt ≤ (n : Int) := by
    unfold minInt
    omega
  rw [integer?_digits (isDigitOf_decimal n), wholeRun?_decimal, Option.bind_some,
    numeral_decimal, ofInt?, if_pos ⟨hmin, h⟩]

theorem readToken_line {cs : List Char} (h : ∀ c ∈ cs, isTokenChar c = true) (rest : List Char) :
    readToken (cs ++ '\n' :: rest) = (cs, '\n' :: rest) := by
  have hstop : ∀ c ∈ ('\n' :: rest).head?, isTokenChar c = false := by
    intro c hc
    rw [← Option.some.inj hc]
    decide
  obtain ⟨htake, hdrop⟩ := takeWhile_append_stop h hstop
  unfold readToken
  simp only [htake, hdrop]
  rfl

/-- A value that is written as one token is read back up to the end of its line. -/
theorem readValue_token {cs : List Char} (hsome : cs ≠ []) (h : ∀ c ∈ cs, isTokenChar c = true)
    (rest : List Char) :
    readValue depthLimit (skipBlank (cs ++ '\n' :: rest)) =
      (ofToken? cs).map fun v => (v, '\n' :: rest) := by
  obtain ⟨c, cs', hcs⟩ := List.exists_cons_of_ne_nil hsome
  have hc : isTokenChar c = true := h c (by rw [hcs]; exact List.mem_cons_self ..)
  have hne {x : Char} (hx : isTokenChar x = false) : c ≠ x := by
    intro heq
    rw [heq, hx] at hc
    exact Bool.noConfusion hc
  have hblank : isBlank c = false := by
    have hspace : c ≠ ' ' := hne (by decide)
    have htab : c ≠ '\t' := hne (by decide)
    simp [isBlank, hspace, htab]
  have hhead : cs ++ '\n' :: rest = c :: (cs' ++ '\n' :: rest) := by rw [hcs, List.cons_append]
  have hflat : readFlat (cs ++ '\n' :: rest) = (ofToken? cs).map fun v => (v, '\n' :: rest) := by
    rw [readFlat, readToken_line h]
    · intro cs heq
      exact hne (by decide) (List.cons.inj (hhead.symm.trans heq)).1
    · intro cs heq
      exact hne (by decide) (List.cons.inj (hhead.symm.trans heq)).1
  rw [← hflat, hhead, skipBlank_of_head hblank, depthLimit, readValue]
  · intro cs heq
    exact hne (by decide) (List.cons.inj heq).1
  · intro cs heq
    exact hne (by decide) (List.cons.inj heq).1

theorem OnLine.int {n : Nat} (h : (n : Int) ≤ maxInt) : OnLine (.int n) where
  hasHeader := rfl
  readsBack rest := by
    show readValue depthLimit (skipBlank (decimal n ++ '\n' :: rest)) = _
    rw [readValue_token (decimal_ne_nil n) isTokenChar_decimal,
      ofToken?_digits (isDigitOf_decimal n), integer?_decimal h]
    rfl
  noReturn h := by
    have hreturn := isTokenChar_decimal '\r' h
    exact absurd hreturn (by decide)

theorem OnLine.bool (b : Bool) : OnLine (.bool b) where
  hasHeader := rfl
  readsBack rest := by
    have hword (word : List Char) (hsome : word ≠ []) (h : word.all isTokenChar = true) :
        readValue depthLimit (skipBlank (word ++ '\n' :: rest)) =
          (ofToken? word).map fun v => (v, '\n' :: rest) :=
      readValue_token hsome (List.all_eq_true.1 h) rest
    cases b with
    | true => exact hword ['t', 'r', 'u', 'e'] (by simp) rfl
    | false => exact hword ['f', 'a', 'l', 's', 'e'] (by simp) rfl
  noReturn := by cases b <;> simp [flatChars]

/-! ### Integers that are read -/

theorem foldlM_invariant {α β : Type} {f : β → α → Option β} {P : β → Prop} {l : List α}
    (hstep : ∀ a ∈ l, ∀ b b', P b → f b a = some b' → P b') {b b' : β} (hb : P b)
    (h : l.foldlM f b = some b') : P b' := by
  induction l generalizing b with
  | nil =>
    cases h
    exact hb
  | cons a l ih =>
    obtain ⟨mid, hmid, h⟩ := Option.bind_eq_some_iff.1 h
    exact ih (fun x hx => hstep x (List.mem_cons_of_mem _ hx))
      (hstep a (List.mem_cons_self ..) b mid hb hmid) h

/-- No integer of a value is above the largest one. -/
inductive Bounded : Toml → Prop where
  | str (text : String) : Bounded (.str text)
  | int {n : Int} (h : n ≤ maxInt) : Bounded (.int n)
  | bool (b : Bool) : Bounded (.bool b)
  | float (literal : String) : Bounded (.float literal)
  | dateTime (literal : String) : Bounded (.dateTime literal)
  | arr {items : List Toml} (h : ∀ v ∈ items, Bounded v) : Bounded (.arr items)
  | table {members : List (String × Toml)} (h : ∀ m ∈ members, Bounded m.2) :
      Bounded (.table members)

theorem Bounded.of_nat? {v : Toml} {n : Nat} (h : Bounded v) (hn : v.nat? = some n) :
    (n : Int) ≤ maxInt := by
  cases h with
  | int h =>
    unfold nat? at hn
    split at hn
    · rename_i m heq
      cases heq
      cases hn
      exact h
    · cases hn
  | _ => cases hn

theorem ofInt?_le {m n : Int} (h : ofInt? m = some n) : n ≤ maxInt := by
  unfold ofInt? at h
  split at h
  · rename_i hrange
    cases h
    exact hrange.2
  · cases h

theorem integer?_le {cs : List Char} {n : Int} (h : integer? cs = some n) : n ≤ maxInt := by
  unfold integer? at h
  split at h
  all_goals
    obtain ⟨ds, -, hn⟩ := Option.bind_eq_some_iff.1 h
    exact ofInt?_le hn

theorem ofToken?_bounded {cs : List Char} {v : Toml} (h : ofToken? cs = some v) : Bounded v := by
  unfold ofToken? at h
  split at h
  · cases h
    exact .bool true
  split at h
  · cases h
    exact .bool false
  split at h
  · cases h
    exact .dateTime _
  split at h
  · cases h
    exact .float _
  · obtain ⟨n, hn, hv⟩ := Option.map_eq_some_iff.1 h
    rw [← hv]
    exact .int (integer?_le hn)

/-- Whether all that a reader gives is bounded. -/
def Gives (item : List Char → Option (Toml × List Char)) : Prop :=
  ∀ cs v rest, item cs = some (v, rest) → Bounded v

theorem readFlat_bounded : Gives readFlat := by
  intro cs v rest h
  unfold readFlat at h
  split at h
  · obtain ⟨r, -, hr⟩ := Option.map_eq_some_iff.1 h
    cases hr
    exact .str _
  · obtain ⟨r, -, hr⟩ := Option.map_eq_some_iff.1 h
    cases hr
    exact .str _
  · obtain ⟨w, hw, hr⟩ := Option.map_eq_some_iff.1 h
    cases hr
    exact ofToken?_bounded hw

section Within

variable {item : List Char → Option (Toml × List Char)} (hitem : Gives item)
include hitem

theorem readItems_bounded {bound : Nat} {cs rest : List Char} {vs : List Toml}
    (h : readItems item bound cs = some (vs, rest)) : ∀ v ∈ vs, Bounded v := by
  induction bound generalizing cs rest vs with
  | zero => cases h
  | succ bound ih =>
    unfold readItems at h
    split at h
    · cases h
      exact fun v hv => absurd hv List.not_mem_nil
    · obtain ⟨⟨w, after⟩, hw, h⟩ := Option.bind_eq_some_iff.1 h
      have hbounded : Bounded w := hitem _ _ _ hw
      dsimp only at h
      split at h
      · obtain ⟨⟨ws, after'⟩, hws, heq⟩ := Option.map_eq_some_iff.1 h
        cases heq
        exact List.forall_mem_cons.2 ⟨hbounded, ih hws⟩
      · cases h
        exact List.forall_mem_singleton.2 hbounded
      · cases h

theorem readPair_bounded {cs rest : List Char} {path : List String} {v : Toml}
    (h : readPair item cs = some ((path, v), rest)) : Bounded v := by
  obtain ⟨⟨path', after⟩, -, h⟩ := Option.bind_eq_some_iff.1 h
  dsimp only at h
  split at h
  · obtain ⟨⟨w, after'⟩, hw, heq⟩ := Option.bind_eq_some_iff.1 h
    cases heq
    exact hitem _ _ _ hw
  · cases h

theorem readPairs_bounded {bound : Nat} {cs rest : List Char} {ps : List (List String × Toml)}
    (h : readPairs item bound cs = some (ps, rest)) : ∀ p ∈ ps, Bounded p.2 := by
  induction bound generalizing cs rest ps with
  | zero => cases h
  | succ bound ih =>
    obtain ⟨⟨p, after⟩, hp, h⟩ := Option.bind_eq_some_iff.1 h
    have hbounded : Bounded p.2 := readPair_bounded hitem hp
    dsimp only at h
    split at h
    · obtain ⟨⟨ps', after'⟩, hps, heq⟩ := Option.map_eq_some_iff.1 h
      cases heq
      exact List.forall_mem_cons.2 ⟨hbounded, ih hps⟩
    · cases h
      exact List.forall_mem_singleton.2 hbounded
    · cases h

end Within

namespace Draft

/-- No integer of what stands at a key is above the largest one. -/
inductive Bounded : Draft → Prop where
  | value {v : Toml} (h : v.Bounded) : Bounded (.value v)
  | table {origin : Origin} {ms : Members} (h : ∀ m ∈ ms, Bounded m.2) : Bounded (.table origin ms)
  | tables {finished : List Toml} {ms : Members} (hfinished : ∀ v ∈ finished, v.Bounded)
      (h : ∀ m ∈ ms, Bounded m.2) : Bounded (.tables finished ms)

abbrev BoundedMembers (ms : Members) : Prop := ∀ m ∈ ms, Bounded m.2

theorem boundedMembers_nil : BoundedMembers [] := fun _ hm => absurd hm List.not_mem_nil

/-- Whether a change of members keeps them bounded. -/
def Keeps (f : Members → Option Members) : Prop :=
  ∀ ms ms', BoundedMembers ms → f ms = some ms' → BoundedMembers ms'

theorem keeps_alter (key : String) {f : Option Draft → Option Draft}
    (hnew : ∀ d, f none = some d → Bounded d)
    (hold : ∀ d d', Bounded d → f (some d) = some d' → Bounded d') : Keeps (alter key f) := by
  intro ms ms' hms h
  induction ms generalizing ms' with
  | nil =>
    obtain ⟨d, hd, heq⟩ := Option.map_eq_some_iff.1 h
    rw [← heq]
    exact List.forall_mem_singleton.2 (hnew d hd)
  | cons m ms ih =>
    obtain ⟨k, d⟩ := m
    obtain ⟨hd, hrest⟩ := List.forall_mem_cons.1 hms
    unfold alter at h
    split at h
    · obtain ⟨d', hd', heq⟩ := Option.map_eq_some_iff.1 h
      rw [← heq]
      exact List.forall_mem_cons.2 ⟨hold d d' hd hd', hrest⟩
    · obtain ⟨ms'', hms'', heq⟩ := Option.map_eq_some_iff.1 h
      rw [← heq]
      exact List.forall_mem_cons.2 ⟨hd, ih ms'' hrest hms''⟩

theorem Bounded.map_table {f : Members → Option Members} (hf : Keeps f) {origin : Origin}
    {ms : Members} {d : Draft} (hms : BoundedMembers ms) (h : (f ms).map (Draft.table origin) = some d) :
    Bounded d := by
  obtain ⟨ms', hms', heq⟩ := Option.map_eq_some_iff.1 h
  rw [← heq]
  exact .table (hf ms ms' hms hms')

theorem Bounded.map_tables {f : Members → Option Members} (hf : Keeps f) {finished : List Toml}
    {ms : Members} {d : Draft} (hfinished : ∀ v ∈ finished, v.Bounded) (hms : BoundedMembers ms)
    (h : (f ms).map (Draft.tables finished) = some d) : Bounded d := by
  obtain ⟨ms', hms', heq⟩ := Option.map_eq_some_iff.1 h
  rw [← heq]
  exact .tables hfinished (hf ms ms' hms hms')

theorem keeps_within {f : Members → Option Members} (hf : Keeps f) (path : List String) :
    Keeps (within f path) := by
  induction path with
  | nil => exact hf
  | cons k ks ih =>
    apply keeps_alter
    · intro d hd
      exact .map_table ih boundedMembers_nil hd
    · intro d d' hd h
      cases hd with
      | value => cases h
      | table hms => exact .map_table ih hms h
      | tables hfinished hms => exact .map_tables ih hfinished hms h

theorem finishMembers_eq_map (ms : Members) :
    finishMembers ms = ms.map fun m => (m.1, m.2.finish) := by
  induction ms with
  | nil => rfl
  | cons m ms ih => rw [finishMembers, ih, List.map_cons]

theorem Bounded.finish {d : Draft} (h : Bounded d) : d.finish.Bounded := by
  have hmembers {ms : Members} (h : ∀ m ∈ ms, m.2.finish.Bounded) :
      ∀ m ∈ finishMembers ms, m.2.Bounded := by
    rw [finishMembers_eq_map]
    exact List.forall_mem_map.2 h
  induction h with
  | value h => exact h
  | table _ ih => exact .table (hmembers ih)
  | tables hfinished _ ih =>
    apply Toml.Bounded.arr
    intro v hv
    rcases List.mem_append.1 hv with hv | hv
    · exact hfinished v (List.mem_reverse.1 hv)
    · rw [List.mem_singleton.1 hv]
      exact .table (hmembers ih)

theorem BoundedMembers.finish {ms : Members} (h : BoundedMembers ms) :
    ∀ m ∈ finishMembers ms, m.2.Bounded := by
  rw [finishMembers_eq_map]
  exact List.forall_mem_map.2 fun m hm => (h m hm).finish

theorem keeps_openTable (key : String) : Keeps (openTable key) := by
  apply keeps_alter
  · intro d hd
    cases hd
    exact .table boundedMembers_nil
  · intro d d' hd h
    cases hd with
    | value => cases h
    | table hms =>
      rename_i origin ms
      cases origin with
      | passed =>
        cases h
        exact .table hms
      | _ => cases h
    | tables => cases h

theorem keeps_openElement (key : String) : Keeps (openElement key) := by
  have hnil : ∀ v ∈ ([] : List Toml), v.Bounded := fun _ hv => absurd hv List.not_mem_nil
  apply keeps_alter
  · intro d hd
    cases hd
    exact .tables hnil boundedMembers_nil
  · intro d d' hd h
    cases hd with
    | value => cases h
    | table => cases h
    | tables hfinished hms =>
      cases h
      exact .tables (List.forall_mem_cons.2 ⟨.table (BoundedMembers.finish hms), hfinished⟩)
        boundedMembers_nil

theorem keeps_define {v : Toml} (hv : v.Bounded) (path : List String) (extensible : Bool) :
    Keeps (define v path extensible) := by
  induction path generalizing extensible with
  | nil =>
    intro ms ms' hms h
    cases h
  | cons k ks ih =>
    cases ks with
    | nil =>
      intro ms ms' hms h
      unfold define at h
      split at h
      · apply keeps_alter k _ _ ms ms' hms h
        · intro d hd
          cases hd
          exact .value hv
        · intro d d' _ h
          cases h
      · cases h
    | cons k' ks =>
      apply keeps_alter
      · intro d hd
        exact .map_table (ih true) boundedMembers_nil hd
      · intro d d' hd h
        cases hd with
        | value => cases h
        | table hms =>
          rename_i origin ms
          cases origin with
          | opened => cases h
          | passed => exact .map_table (ih false) hms h
          | dotted => exact .map_table (ih true) hms h
        | tables hfinished hms => exact .map_tables (ih false) hfinished hms h

theorem inlineTable?_bounded {pairs : List (List String × Toml)} {v : Toml}
    (hpairs : ∀ p ∈ pairs, p.2.Bounded) (h : inlineTable? pairs = some v) : v.Bounded := by
  obtain ⟨ms, hms, heq⟩ := Option.map_eq_some_iff.1 h
  rw [← heq]
  have hfold : BoundedMembers ms :=
    foldlM_invariant (fun p hp ms ms' => keeps_define (hpairs p hp) p.1 true ms ms')
      boundedMembers_nil hms
  exact .table hfold.finish

end Draft

theorem readInline_bounded {item : List Char → Option (Toml × List Char)} (hitem : Gives item) :
    Gives (readInline item) := by
  intro cs v rest h
  have hend {pairs : List (List String × Toml)} {after : List Char}
      (hpairs : ∀ p ∈ pairs, Bounded p.2)
      (h : (Draft.inlineTable? pairs).bind (fun w => some (w, after)) = some (v, rest)) :
      Bounded v := by
    obtain ⟨w, hw, heq⟩ := Option.bind_eq_some_iff.1 h
    cases heq
    exact Draft.inlineTable?_bounded hpairs hw
  unfold readInline at h
  dsimp only at h
  split at h
  · exact hend (fun p hp => absurd hp List.not_mem_nil) h
  · obtain ⟨⟨pairs, after⟩, hpairs, h⟩ := Option.bind_eq_some_iff.1 h
    exact hend (readPairs_bounded hitem hpairs) h

theorem readValue_bounded (depth : Nat) : Gives (readValue depth) := by
  induction depth with
  | zero => exact readFlat_bounded
  | succ depth ih =>
    intro cs v rest h
    unfold readValue at h
    split at h
    · obtain ⟨⟨vs, after⟩, hvs, heq⟩ := Option.map_eq_some_iff.1 h
      cases heq
      exact .arr (readItems_bounded ih hvs)
    · exact readInline_bounded ih _ _ _ h
    · exact readFlat_bounded _ _ _ h

/-! ### Documents -/

def Statement.Bounded : Statement → Prop
  | pair _ v => v.Bounded
  | table _ | element _ => True

theorem readStatement_bounded {cs rest : List Char} {s : Statement}
    (h : readStatement cs = some (s, rest)) : s.Bounded := by
  unfold readStatement at h
  split at h
  · obtain ⟨⟨path, after⟩, -, h⟩ := Option.bind_eq_some_iff.1 h
    dsimp only at h
    split at h
    · cases h
      trivial
    · cases h
  · obtain ⟨⟨path, after⟩, -, h⟩ := Option.bind_eq_some_iff.1 h
    dsimp only at h
    split at h
    · cases h
      trivial
    · cases h
  · obtain ⟨⟨⟨path, v⟩, after⟩, hpair, heq⟩ := Option.map_eq_some_iff.1 h
    cases heq
    exact readPair_bounded (readValue_bounded depthLimit) hpair

theorem readStatements_bounded {bound : Nat} {cs : List Char} {statements : List Statement}
    (h : readStatements bound cs = some statements) : ∀ s ∈ statements, s.Bounded := by
  induction bound generalizing cs statements with
  | zero => cases h
  | succ bound ih =>
    unfold readStatements at h
    split at h
    · cases h
      exact fun s hs => absurd hs List.not_mem_nil
    split at h
    · exact ih h
    · obtain ⟨⟨s, rest⟩, hs, h⟩ := Option.bind_eq_some_iff.1 h
      obtain ⟨rest', -, h⟩ := Option.bind_eq_some_iff.1 h
      obtain ⟨ss, hss, heq⟩ := Option.map_eq_some_iff.1 h
      rw [← heq]
      exact List.forall_mem_cons.2 ⟨readStatement_bounded hs, ih hss⟩

theorem Document.add_bounded {d d' : Document} {s : Statement} (hs : s.Bounded)
    (hd : Draft.BoundedMembers d.members) (h : d.add s = some d') :
    Draft.BoundedMembers d'.members := by
  cases s with
  | table path =>
    obtain ⟨key, -, h⟩ := Option.bind_eq_some_iff.1 h
    obtain ⟨ms, hms, heq⟩ := Option.bind_eq_some_iff.1 h
    cases heq
    exact Draft.keeps_within (Draft.keeps_openTable key) _ _ _ hd hms
  | element path =>
    obtain ⟨key, -, h⟩ := Option.bind_eq_some_iff.1 h
    obtain ⟨ms, hms, heq⟩ := Option.bind_eq_some_iff.1 h
    cases heq
    exact Draft.keeps_within (Draft.keeps_openElement key) _ _ _ hd hms
  | pair path v =>
    obtain ⟨ms, hms, heq⟩ := Option.bind_eq_some_iff.1 h
    cases heq
    exact Draft.keeps_within (Draft.keeps_define hs path true) _ _ _ hd hms

/-- No integer of a table that is read is above the largest one. -/
theorem read?_bounded {text : String} {members : List (String × Toml)}
    (h : read? text = some members) : ∀ m ∈ members, Bounded m.2 := by
  obtain ⟨statements, hread, h⟩ := Option.bind_eq_some_iff.1 h
  obtain ⟨d, hd, heq⟩ := Option.map_eq_some_iff.1 h
  have hstatements := readStatements_bounded hread
  have hfold : Draft.BoundedMembers d.members :=
    foldlM_invariant (P := fun d : Document => Draft.BoundedMembers d.members)
      (fun s hs d d' => Document.add_bounded (hstatements s hs)) Draft.boundedMembers_nil hd
  rw [← heq]
  exact hfold.finish

end SelfReference.Toml
