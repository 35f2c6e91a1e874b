import SelfReference.Proofs.NameMaps
import SelfReference.Report.Outcomes

/-!
# Quiet text is read back

The quiet text of one solved file has a line for each sentence, the value behind the last `=`.  As
no value holds `=` or a line feed, a line gives back its name and value whatever else the name
holds, and the text gives back the assignment.  Where several outcomes are given, each solved file
puts its name before its lines.
-/

namespace SelfReference.Report

/-! ### Reading -/

/-- The lines of a text; the empty text has none. -/
def linesOf (text : String) : List String :=
  if text = "" then [] else (Text.split '\n' text.toList).map String.ofList

/-- What stands before and after the last occurrence of a character. -/
def cutAtLast? (separator : Char) : List Char → Option (List Char × List Char)
  | [] => none
  | c :: cs =>
    match cutAtLast? separator cs with
    | some (left, right) => some (c :: left, right)
    | none => if c = separator then some ([], cs) else none

/-- The name and the value on a line. -/
def entryOn? (line : String) : Option (String × Truth) :=
  (cutAtLast? '=' line.toList).bind fun (name, value) =>
    (Truth.parse? (String.ofList value)).map fun v => (String.ofList name, v)

/-- The assignment whose sentences have a line each. -/
def readQuiet? (text : String) : Option Assignment :=
  ((linesOf text).mapM entryOn?).map NameMap.ofList

theorem cutAtLast?_eq_none {separator : Char} {cs : List Char} (h : separator ∉ cs) :
    cutAtLast? separator cs = none := by
  induction cs with
  | nil => rfl
  | cons c cs ih =>
    rw [List.mem_cons, not_or] at h
    rw [cutAtLast?, ih h.2]
    exact if_neg (Ne.symm h.1)

theorem cutAtLast?_append {separator : Char} (left : List Char) {right : List Char}
    (h : separator ∉ right) :
    cutAtLast? separator (left ++ separator :: right) = some (left, right) := by
  induction left with
  | nil =>
    rw [List.nil_append, cutAtLast?, cutAtLast?_eq_none h]
    exact if_pos rfl
  | cons c left ih => rw [List.cons_append, cutAtLast?, ih]

/-! ### Lines -/

/-- A sentence and its value on a line. -/
def entryLine (e : String × Truth) : String := e.1 ++ "=" ++ e.2.name

theorem toList_entryLine (e : String × Truth) :
    (entryLine e).toList = e.1.toList ++ '=' :: e.2.name.toList := by
  simp [entryLine]

theorem name_unbroken (v : Truth) : '\n' ∉ v.name.toList ∧ '=' ∉ v.name.toList := by
  cases v <;> decide

theorem entryOn?_entryLine (e : String × Truth) : entryOn? (entryLine e) = some e := by
  rw [entryOn?, toList_entryLine, cutAtLast?_append _ (name_unbroken e.2).2]
  simp [Truth.parse?_name]

theorem entryLine_ne_empty (e : String × Truth) : entryLine e ≠ "" := by
  intro h
  have hlist := toList_entryLine e
  rw [h] at hlist
  simp at hlist

theorem linesOf_lines {parts : List String} (hne : ∀ part ∈ parts, part ≠ "")
    (h : ∀ part ∈ parts, '\n' ∉ part.toList) : linesOf (Text.lines parts) = parts := by
  cases parts with
  | nil => rfl
  | cons part parts =>
    have hsplit : Text.split '\n' (Text.lines (part :: parts)).toList =
        (part :: parts).map String.toList := by
      rw [Text.lines, Text.joined, String.toList_ofList]
      refine Text.split_join (List.cons_ne_nil _ _) fun cs hcs => ?_
      obtain ⟨q, hq, hqcs⟩ := List.mem_map.1 hcs
      exact hqcs ▸ h q hq
    have hnonempty : Text.lines (part :: parts) ≠ "" := by
      intro hempty
      rw [hempty] at hsplit
      have hpart : [] = part.toList := (List.cons.inj hsplit).1
      exact hne part (List.mem_cons_self ..) (String.toList_eq_nil_iff.1 hpart.symm)
    rw [linesOf, if_neg hnonempty, hsplit, List.map_map]
    simp

/-! ### One solved file -/

/-- No name of an assignment breaks its line. -/
def Unbroken (a : Assignment) : Prop := ∀ n ∈ a.names, '\n' ∉ n.toList

instance (a : Assignment) : Decidable (Unbroken a) :=
  inferInstanceAs (Decidable (∀ n ∈ a.names, '\n' ∉ n.toList))

theorem outcomes_quiet_singleton (colored : Bool) (file : String) (s : Solution) :
    outcomes .quiet colored [⟨file, .ok s⟩] = Text.lines (s.assignment.entries.map entryLine) := by
  simp only [outcomes, quietLines, List.flatMap_cons, List.flatMap_nil, List.append_nil]
  rfl

theorem linesOf_quiet {a : Assignment} (h : Unbroken a) :
    linesOf (Text.lines (a.entries.map entryLine)) = a.entries.map entryLine := by
  apply linesOf_lines
  · intro line hline
    obtain ⟨e, he, heq⟩ := List.mem_map.1 hline
    exact heq ▸ entryLine_ne_empty e
  · intro line hline
    obtain ⟨e, he, heq⟩ := List.mem_map.1 hline
    have hname : '\n' ∉ e.1.toList := h e.1 (List.mem_map_of_mem he)
    rw [← heq, toList_entryLine, List.mem_append, List.mem_cons]
    intro hn
    rcases hn with hn | hn | hn
    · exact hname hn
    · exact absurd hn (by decide)
    · exact (name_unbroken e.2).1 hn

theorem readQuiet?_lines {a : Assignment} (h : Unbroken a) :
    readQuiet? (Text.lines (a.entries.map entryLine)) = some a := by
  have hentries : (a.entries.map entryLine).mapM entryOn? = some a.entries := by
    rw [List.mapM_map]
    simp only [Function.comp_def, entryOn?_entryLine]
    exact List.mapM_pure.trans (congrArg some (List.map_id _))
  rw [readQuiet?, linesOf_quiet h, hentries, Option.map_some, NameMap.ofList_entries]

theorem lines_eq_empty_iff {a : Assignment} (h : Unbroken a) :
    Text.lines (a.entries.map entryLine) = "" ↔ a = .empty := by
  constructor
  · intro hempty
    have hlines := linesOf_quiet h
    rw [hempty] at hlines
    have hentries : a.entries = [] := List.map_eq_nil_iff.1 hlines.symm
    exact NameMap.eq_empty_of_names (List.map_eq_nil_iff.2 hentries)
  · intro hempty
    rw [hempty]
    rfl

/-! ### Several outcomes -/

/-- The files that were solved, in the given order, with their assignments. -/
def solved (os : List Outcome) : List (String × Assignment) :=
  os.filterMap fun o =>
    match o.result with
    | .ok s => some (o.file, s.assignment)
    | .error _ => none

/-- The lines of an assignment with the name of its file before each. -/
def fileLines (file : String) (a : Assignment) : List String :=
  a.entries.map fun e => file ++ ":" ++ entryLine e

theorem flatMap_quietLines (os : List Outcome) :
    os.flatMap (quietLines true) = (solved os).flatMap fun (file, a) => fileLines file a := by
  induction os with
  | nil => rfl
  | cons o os ih =>
    obtain ⟨file, result⟩ := o
    rw [List.flatMap_cons, ih]
    cases result with
    | error e => rfl
    | ok s =>
      have hlines : quietLines true ⟨file, .ok s⟩ = fileLines file s.assignment := by
        refine List.map_congr_left fun e _ => ?_
        simp [entryLine, String.append_assoc, toString]
      rw [hlines]
      rfl

/-- The quiet text of one solved file whose names hold no line feed has a line for each sentence, in
the order of names; read back line by line it gives the assignment, so other assignments have other
texts.  Where several outcomes are given, the text has the lines of the solved files in the given
order, each behind the name of its own file, even if one file only was solved. -/
theorem quiet_tells_assignment (colored : Bool) :
    (∀ (file : String) (s : Solution), Unbroken s.assignment →
      linesOf (outcomes .quiet colored [⟨file, .ok s⟩]) = s.assignment.entries.map entryLine ∧
      s.assignment.names.Pairwise (· < ·) ∧
      (outcomes .quiet colored [⟨file, .ok s⟩] = "" ↔ s.assignment = .empty) ∧
      readQuiet? (outcomes .quiet colored [⟨file, .ok s⟩]) = some s.assignment) ∧
    (∀ (file file' : String) (s s' : Solution), Unbroken s.assignment → Unbroken s'.assignment →
      s.assignment ≠ s'.assignment →
      outcomes .quiet colored [⟨file, .ok s⟩] ≠ outcomes .quiet colored [⟨file', .ok s'⟩]) ∧
    ∀ os : List Outcome, 2 ≤ os.length →
      outcomes .quiet colored os =
        Text.lines ((solved os).flatMap fun (file, a) => fileLines file a) := by
  refine ⟨fun file s h => ?_, fun file file' s s' h h' hne heq => ?_, fun os hlength => ?_⟩
  · rw [outcomes_quiet_singleton]
    exact ⟨linesOf_quiet h, s.assignment.names_ascending, lines_eq_empty_iff h,
      readQuiet?_lines h⟩
  · rw [outcomes_quiet_singleton, outcomes_quiet_singleton] at heq
    have hread := readQuiet?_lines h
    rw [heq, readQuiet?_lines h'] at hread
    exact hne (Option.some.inj hread).symm
  · have hnamed : decide (1 < os.length) = true := decide_eq_true hlength
    rw [← flatMap_quietLines]
    simp only [outcomes, hnamed]

/-- The name of a sentence may hold both separators, and a file that was not solved counts. -/
theorem quiet_tells_assignment_separators :
    ∃ s : Solution, s.assignment.entries = [("a:b=c", .both)] ∧ Unbroken s.assignment ∧
      readQuiet? (outcomes .quiet false [⟨"f", .ok s⟩]) = some s.assignment ∧
      outcomes .quiet false [⟨"f", .ok s⟩] ≠
        outcomes .quiet false [⟨"f", .ok ⟨.empty, .stable, [], {}⟩⟩] ∧
      outcomes .quiet false [⟨"f", .ok s⟩, ⟨"g", .error .tooManyTasks⟩] = "f:a:b=c=both" := by
  have hunbroken : Unbroken ⟨[("a:b=c", .both)], List.pairwise_singleton ..⟩ := by decide
  have hempty : Unbroken (.empty : Assignment) := by decide
  obtain ⟨hone, hother, hmany⟩ := quiet_tells_assignment false
  refine ⟨⟨_, .stable, [], {}⟩, rfl, hunbroken, (hone "f" _ hunbroken).2.2.2,
    hother "f" "f" _ _ hunbroken hempty ?_, ?_⟩
  · exact fun h => absurd (congrArg NameMap.entries h) (List.cons_ne_nil _ _)
  · rw [hmany _ (by decide)]
    decide +kernel

end SelfReference.Report
