import SelfReference.Definitions.File
import SelfReference.Proofs.Construction

/-!
# Resolving written formulas

A written formula can be at fault in its leaves only: a literal may name no truth value, and a
conjunction or disjunction may have no operands.  Resolving stops at the first fault from the left
and reports it; without one it gives a formula, whose own written form resolves to it again.  The
formulas of a file are resolved in the order of the file before anything is made of their names.
-/

namespace SelfReference

namespace Written

/-! ### Nodes and their flaws -/

mutual

/-- The nodes from left to right, each one before its operands. -/
def nodes : Written → List Written
  | lit text => [lit text]
  | ref name => [ref name]
  | neg w => neg w :: nodes w
  | conj ws => conj ws :: nodesOfAll ws
  | disj ws => disj ws :: nodesOfAll ws

def nodesOfAll : List Written → List Written
  | [] => []
  | w :: ws => nodes w ++ nodesOfAll ws

end

/-- What is wrong with a node, its operands apart. -/
def flaw? : Written → Option Flaw
  | lit text => if (Truth.parse? text).isSome then none else some (.unknownLiteral text)
  | conj [] => some (.noOperands "and")
  | disj [] => some (.noOperands "or")
  | ref _ | neg _ | conj (_ :: _) | disj (_ :: _) => none

theorem flaw?_eq_none_iff {u : Written} :
    u.flaw? = none ↔
      u ≠ .conj [] ∧ u ≠ .disj [] ∧ ∀ text, u = .lit text → (Truth.parse? text).isSome = true := by
  cases u with
  | lit text => simp [flaw?, Option.isSome_iff_ne_none]
  | ref name => simp [flaw?]
  | neg w => simp [flaw?]
  | conj ws => cases ws <;> simp [flaw?]
  | disj ws => cases ws <;> simp [flaw?]

/-! ### Conjunctions and disjunctions alike -/

/-- The connective of a node with any number of operands. -/
inductive Junction where
  | conj
  | disj

namespace Junction

variable (k : Junction)

def node : Junction → List Written → Written
  | conj => .conj
  | disj => .disj

def join : Junction → Formula → Formula → Formula
  | conj => .conj
  | disj => .disj

/-- The key of the node in a definition file. -/
def key : Junction → String
  | conj => "and"
  | disj => "or"

theorem resolve_node (sentence : String) (ws : List Written) :
    resolve sentence (k.node ws) =
      (resolveAll sentence ws).bind (joined sentence k.key k.join) := by
  cases k <;> rfl

theorem nodes_node (ws : List Written) : (k.node ws).nodes = k.node ws :: nodesOfAll ws := by
  cases k <;> rfl

theorem flaw?_node_cons (w : Written) (ws : List Written) : (k.node (w :: ws)).flaw? = none := by
  cases k <;> rfl

end Junction

/-! ### The first flaw is reported -/

/-- A result if there is no flaw, and otherwise the report of it. -/
inductive Answers {α : Type} (sentence : String) : Except Error α → Option Flaw → Prop
  | ok (x : α) : Answers sentence (.ok x) none
  | error (flaw : Flaw) : Answers sentence (.error (.malformedFormula sentence flaw)) (some flaw)

namespace Answers

variable {α β : Type} {sentence : String} {r : Except Error α} {o o' : Option Flaw}

theorem bind {k : α → Except Error β} (h : Answers sentence r o)
    (hk : ∀ x, r = .ok x → Answers sentence (k x) o') : Answers sentence (r.bind k) (o.or o') := by
  cases h with
  | ok x => exact hk x rfl
  | error flaw => exact .error flaw

theorem map (f : α → β) (h : Answers sentence r o) : Answers sentence (r.map f) o := by
  cases h with
  | ok x => exact .ok (f x)
  | error flaw => exact .error flaw

theorem exists_ok_iff (h : Answers sentence r o) : (∃ x, r = .ok x) ↔ o = none := by
  cases h <;> simp

theorem error_iff (h : Answers sentence r o) {e : Error} :
    r = .error e ↔ ∃ flaw, o = some flaw ∧ e = .malformedFormula sentence flaw := by
  cases h <;> simp [eq_comm]

end Answers

theorem length_of_resolveAll {sentence : String} {ws : List Written} {fs : List Formula}
    (h : resolveAll sentence ws = .ok fs) : fs.length = ws.length := by
  induction ws generalizing fs with
  | nil =>
    cases h
    rfl
  | cons w ws ih =>
    rw [resolveAll] at h
    cases hw : resolve sentence w with
    | error e => rw [hw] at h; cases h
    | ok f =>
      cases hws : resolveAll sentence ws with
      | error e => rw [hw, hws] at h; cases h
      | ok gs =>
        rw [hw, hws] at h
        cases h
        rw [List.length_cons, List.length_cons, ih hws]

theorem answers_node (k : Junction) {sentence : String} {ws : List Written}
    (h : Answers sentence (resolveAll sentence ws) ((nodesOfAll ws).findSome? flaw?)) :
    Answers sentence (resolve sentence (k.node ws)) ((k.node ws).nodes.findSome? flaw?) := by
  rw [k.nodes_node, List.findSome?_cons, k.resolve_node]
  cases ws with
  | nil => cases k <;> exact .error _
  | cons w ws =>
    rw [k.flaw?_node_cons, ← Option.or_none (o := List.findSome? ..)]
    refine h.bind fun fs hfs => ?_
    cases fs with
    | nil => exact absurd (length_of_resolveAll hfs).symm (Nat.succ_ne_zero _)
    | cons f fs => exact .ok _

mutual

theorem answers_resolve (sentence : String) : ∀ w : Written,
    Answers sentence (resolve sentence w) (w.nodes.findSome? flaw?)
  | .lit text => by
    rw [nodes, List.findSome?_singleton, resolve, flaw?]
    cases Truth.parse? text with
    | none => exact .error (.unknownLiteral text)
    | some v => exact .ok (Formula.lit v)
  | .ref name => by
    rw [nodes, List.findSome?_singleton, resolve]
    exact .ok (Formula.ref name)
  | .neg w => by
    rw [nodes, List.findSome?_cons, resolve]
    exact (answers_resolve sentence w).map Formula.neg
  | .conj ws => answers_node .conj (answers_resolveAll sentence ws)
  | .disj ws => answers_node .disj (answers_resolveAll sentence ws)

theorem answers_resolveAll (sentence : String) : ∀ ws : List Written,
    Answers sentence (resolveAll sentence ws) ((nodesOfAll ws).findSome? flaw?)
  | [] => by
    rw [nodesOfAll, resolveAll]
    exact .ok []
  | w :: ws => by
    rw [nodesOfAll, List.findSome?_append, resolveAll]
    exact (answers_resolve sentence w).bind fun f _ =>
      (answers_resolveAll sentence ws).map (f :: ·)

end

/-! ### Normal forms -/

/-- Resolves a written formula and writes the result. -/
def normalize (sentence : String) (w : Written) : Except Error Written :=
  (resolve sentence w).map ofFormula

theorem normalize_of_resolve {sentence : String} {w : Written} {f : Formula}
    (h : resolve sentence w = .ok f) : normalize sentence w = .ok (ofFormula f) := by
  rw [normalize, h]
  rfl

end Written

/-! ### Files -/

namespace DefinitionFile

/-- The definitions of a file whose written formulas all resolve. -/
def Resolves (sentences : List (String × Written)) (ds : List (String × Formula)) : Prop :=
  List.Forall₂ (fun d d' => d'.1 = d.1 ∧ d.2.resolve d.1 = .ok d'.2) sentences ds

theorem mapM_of_resolves {sentences : List (String × Written)} {ds : List (String × Formula)}
    (h : Resolves sentences ds) :
    (sentences.mapM fun (name, w) => (w.resolve name).map (name, ·)) = .ok ds := by
  induction h with
  | nil => rfl
  | @cons d d' _ _ hd _ ih =>
    obtain ⟨n, f⟩ := d'
    obtain ⟨rfl, hf⟩ := hd
    rw [List.mapM_cons, ih]
    simp only [hf, Except.map]
    rfl

theorem graph_of_resolves {file : DefinitionFile} {ds : List (String × Formula)}
    (h : Resolves file.sentences ds) : file.graph = SentenceGraph.ofDefinitions ds := by
  rw [graph, mapM_of_resolves h]
  rfl

theorem mapM_of_first_error {before after : List (String × Written)} {n : String} {w : Written}
    {e : Error} (hbefore : ∀ d ∈ before, ∃ f, d.2.resolve d.1 = .ok f)
    (he : w.resolve n = .error e) :
    ((before ++ (n, w) :: after).mapM fun (name, w) => (w.resolve name).map (name, ·)) =
      .error e := by
  induction before with
  | nil =>
    rw [List.nil_append, List.mapM_cons]
    simp only [he, Except.map]
    rfl
  | cons d before ih =>
    obtain ⟨f, hf⟩ := hbefore d (List.mem_cons_self ..)
    rw [List.cons_append, List.mapM_cons, ih fun d hd => hbefore d (List.mem_cons_of_mem _ hd)]
    simp only [hf, Except.map]
    rfl

theorem graph_of_first_error {file : DefinitionFile} {before after : List (String × Written)}
    {n : String} {w : Written} {e : Error} (hfile : file.sentences = before ++ (n, w) :: after)
    (hbefore : ∀ d ∈ before, ∃ f, d.2.resolve d.1 = .ok f) (he : w.resolve n = .error e) :
    file.graph = .error e := by
  rw [graph, hfile, mapM_of_first_error hbefore he]
  rfl

/-- Either every sentence of a file resolves, or there is a first one that does not. -/
theorem resolves_or_exists_first (sentences : List (String × Written)) :
    (∃ ds, Resolves sentences ds) ∨
    ∃ before n w after e, sentences = before ++ (n, w) :: after ∧
      (∀ d ∈ before, ∃ f, d.2.resolve d.1 = .ok f) ∧ w.resolve n = .error e := by
  induction sentences with
  | nil => exact Or.inl ⟨[], .nil⟩
  | cons d sentences ih =>
    obtain ⟨n, w⟩ := d
    cases hw : w.resolve n with
    | error e => exact Or.inr ⟨[], n, w, sentences, e, rfl, by simp, hw⟩
    | ok f =>
      rcases ih with ⟨ds, hds⟩ | ⟨before, n', w', after, e, rfl, hbefore, he⟩
      · exact Or.inl ⟨(n, f) :: ds, .cons ⟨rfl, hw⟩ hds⟩
      · refine Or.inr ⟨(n, w) :: before, n', w', after, e, rfl, fun d hd => ?_, he⟩
        rcases List.mem_cons.1 hd with rfl | hd
        · exact ⟨f, hw⟩
        · exact hbefore d hd

theorem exists_resolves_of_graph {file : DefinitionFile} {g : SentenceGraph}
    (h : file.graph = .ok g) :
    ∃ ds, Resolves file.sentences ds ∧ SentenceGraph.ofDefinitions ds = .ok g := by
  rcases resolves_or_exists_first file.sentences with
    ⟨ds, hds⟩ | ⟨before, n, w, after, e, hfile, hbefore, he⟩
  · exact ⟨ds, hds, (graph_of_resolves hds).symm.trans h⟩
  · rw [graph_of_first_error hfile hbefore he] at h
    cases h

end DefinitionFile

/-- A written formula resolves exactly if none of its nodes is a conjunction or disjunction without
operands or a literal that names no truth value, and otherwise the first such node is reported for
the sentence.  A formula is what its written form resolves to, so that writing what a written
formula resolves to changes it once at most.  In a file the first sentence at fault in its formula
is reported whatever there is to say about names and references, which is looked at only if there
is no such sentence. -/
theorem Written.resolve_reports_first :
    (∀ (w : Written) (n : String),
      ((∃ f, w.resolve n = .ok f) ↔ ∀ u ∈ w.nodes, u ≠ .conj [] ∧ u ≠ .disj [] ∧
        ∀ text, u = .lit text → (Truth.parse? text).isSome = true) ∧
      ∀ e, w.resolve n = .error e ↔ ∃ before u after flaw, w.nodes = before ++ u :: after ∧
        (∀ x ∈ before, x.flaw? = none) ∧ u.flaw? = some flaw ∧ e = .malformedFormula n flaw) ∧
    (∀ (f : Formula) (n : String), (ofFormula f).resolve n = .ok f) ∧
    (∀ (w : Written) (n : String) (f : Formula), w.resolve n = .ok f →
      ∃ w', w.normalize n = .ok w' ∧ w'.resolve n = .ok f ∧ w'.normalize n = .ok w') ∧
    ∀ file : DefinitionFile,
      (∃ ds, DefinitionFile.Resolves file.sentences ds ∧
        file.graph = SentenceGraph.ofDefinitions ds) ∨
      ∃ before n w after e, file.sentences = before ++ (n, w) :: after ∧
        (∀ d ∈ before, ∃ f, d.2.resolve d.1 = .ok f) ∧ w.resolve n = .error e ∧
        file.graph = .error e := by
  refine ⟨fun w n => ⟨?_, fun e => ?_⟩, fun f n => resolve_ofFormula n f, fun w n f hf => ?_,
    fun file => ?_⟩
  · rw [(answers_resolve n w).exists_ok_iff, List.findSome?_eq_none_iff]
    exact forall₂_congr fun u _ => flaw?_eq_none_iff
  · rw [(answers_resolve n w).error_iff]
    simp only [List.findSome?_eq_some_iff]
    constructor
    · rintro ⟨flaw, ⟨before, u, after, hnodes, hu, hbefore⟩, rfl⟩
      exact ⟨before, u, after, flaw, hnodes, hbefore, hu, rfl⟩
    · rintro ⟨before, u, after, flaw, hnodes, hbefore, hu, rfl⟩
      exact ⟨flaw, ⟨before, u, after, hnodes, hu, hbefore⟩, rfl⟩
  · have hback := resolve_ofFormula n f
    exact ⟨ofFormula f, normalize_of_resolve hf, hback, normalize_of_resolve hback⟩
  · rcases DefinitionFile.resolves_or_exists_first file.sentences with
      ⟨ds, hds⟩ | ⟨before, n, w, after, e, hfile, hbefore, he⟩
    · exact Or.inl ⟨ds, hds, DefinitionFile.graph_of_resolves hds⟩
    · exact Or.inr ⟨before, n, w, after, e, hfile, hbefore, he,
        DefinitionFile.graph_of_first_error hfile hbefore he⟩

/-- Of a reference to no sentence, a name used twice, a literal without a value and a disjunction
without operands the literal is reported. -/
theorem Written.resolve_reports_first_literal :
    let faulty : Written := .conj [.neg (.lit "maybe"), .disj []]
    faulty.resolve "a" = .error (.malformedFormula "a" (.unknownLiteral "maybe")) ∧
    (⟨[("a", .ref "b"), ("a", faulty)]⟩ : DefinitionFile).graph =
      .error (.malformedFormula "a" (.unknownLiteral "maybe")) := by
  intro faulty
  obtain ⟨hformula, -, -, hfile⟩ := Written.resolve_reports_first
  have hfaulty : faulty.resolve "a" = .error (.malformedFormula "a" (.unknownLiteral "maybe")) := by
    refine ((hformula faulty "a").2 _).2 ⟨[faulty, .neg (.lit "maybe")], .lit "maybe", [.disj []],
      .unknownLiteral "maybe", rfl, ?_, by decide +kernel, rfl⟩
    intro x hx
    rcases List.mem_cons.1 hx with rfl | hx
    · rfl
    · rw [List.mem_singleton.1 hx]
      rfl
  refine ⟨hfaulty, ?_⟩
  rcases hfile ⟨[("a", .ref "b"), ("a", faulty)]⟩ with
    ⟨ds, hds, -⟩ | ⟨before, n, w, after, e, hsplit, -, he, hgraph⟩
  · obtain _ | ⟨-, hrest⟩ := hds
    obtain _ | ⟨⟨-, hok⟩, -⟩ := hrest
    exact absurd (hfaulty.symm.trans hok) nofun
  · refine hgraph.trans (congrArg Except.error ?_)
    match before, hsplit with
    | [], hsplit =>
      cases hsplit
      cases he
    | [_], hsplit =>
      cases hsplit
      exact Except.error.inj (he.symm.trans hfaulty)
    | _ :: _ :: _, hsplit => simp at hsplit

end SelfReference
