import SelfReference.Proofs.Cycles
import SelfReference.Proofs.StepwiseRuns
import SelfReference.Proofs.WrittenFormulas

/-!
# Rearranged operands

The operands of a conjunction or disjunction are joined from left to right, but under Belnap's
tables neither their order nor their number nor their grouping tells in the end: a joined formula
is told true, is told false or refers to a name by what all its operands or any of them do.  A file
whose operands are rearranged, at whatever depth, therefore has a graph with the same cycles and
the same runs.
-/

namespace SelfReference

/-! ### Formulas that say the same -/

/-- Two formulas with the same value under every valuation and references to the same names. -/
structure Formula.SaysAs (f f' : Formula) : Prop where
  eval_eq : ∀ v, f'.eval .belnap v = f.eval .belnap v
  mem_occurrences_iff : ∀ n, n ∈ f'.occurrences ↔ n ∈ f.occurrences

namespace Formula.SaysAs

variable {f f' f'' : Formula}

theorem refl (f : Formula) : f.SaysAs f := ⟨fun _ => rfl, fun _ => Iff.rfl⟩

theorem trans (h : f.SaysAs f') (h' : f'.SaysAs f'') : f.SaysAs f'' :=
  ⟨fun v => (h'.eval_eq v).trans (h.eval_eq v),
    fun n => (h'.mem_occurrences_iff n).trans (h.mem_occurrences_iff n)⟩

theorem neg (h : f.SaysAs f') : (Formula.neg f).SaysAs (.neg f') :=
  ⟨fun v => congrArg Connectives.belnap.neg (h.eval_eq v), h.mem_occurrences_iff⟩

theorem references_eq (h : f.SaysAs f') : f'.references = f.references := by
  refine NameMap.eq_of_ascending (NameMap.names_ascending _) (NameMap.names_ascending _) fun n => ?_
  exact Sentences.mem_references_iff.trans
    ((h.mem_occurrences_iff n).trans Sentences.mem_references_iff.symm)

end Formula.SaysAs

namespace Connectives

theorem toldTrue_belnap_conj (a b : Truth) :
    (belnap.conj a b).toldTrue = (a.toldTrue && b.toldTrue) := by
  cases a <;> cases b <;> rfl

theorem toldFalse_belnap_conj (a b : Truth) :
    (belnap.conj a b).toldFalse = (a.toldFalse || b.toldFalse) := by
  cases a <;> cases b <;> rfl

theorem toldTrue_belnap_disj (a b : Truth) :
    (belnap.disj a b).toldTrue = (a.toldTrue || b.toldTrue) := by
  cases a <;> cases b <;> rfl

theorem toldFalse_belnap_disj (a b : Truth) :
    (belnap.disj a b).toldFalse = (a.toldFalse && b.toldFalse) := by
  cases a <;> cases b <;> rfl

end Connectives

namespace Written

/-! ### Properties of all operands -/

/-- A property that a joined formula has exactly if both its parts have it. -/
structure Junction.Spreads (k : Junction) (Q : Formula → Prop) : Prop where
  join_iff : ∀ f g, Q (k.join f g) ↔ Q f ∧ Q g
  saysAs_iff : ∀ f f', f.SaysAs f' → (Q f ↔ Q f')

namespace Junction

variable {k : Junction} {Q : Formula → Prop}

theorem Spreads.foldl_iff (hQ : k.Spreads Q) (f : Formula) (fs : List Formula) :
    Q (fs.foldl k.join f) ↔ ∀ g ∈ f :: fs, Q g := by
  induction fs generalizing f with
  | nil => simp
  | cons g fs ih =>
    rw [List.foldl_cons, ih]
    simp only [List.forall_mem_cons, hQ.join_iff, and_assoc]

theorem spreads_true (k : Junction) : k.Spreads fun _ => True :=
  ⟨fun _ _ => and_self_iff.symm, fun _ _ _ => Iff.rfl⟩

/-- The evidence of a joined formula that needs the same evidence of all operands: told true for a
conjunction, not told true for a disjunction. -/
def neutral : Junction → Bool
  | conj => true
  | disj => false

theorem spreads_toldTrue (k : Junction) (v : Valuation) :
    k.Spreads fun f => (f.eval .belnap v).toldTrue = k.neutral := by
  refine ⟨fun f g => ?_, fun f f' h => by rw [h.eval_eq]⟩
  cases k with
  | conj => simp [join, neutral, Formula.eval, Connectives.toldTrue_belnap_conj]
  | disj => simp [join, neutral, Formula.eval, Connectives.toldTrue_belnap_disj]

theorem spreads_toldFalse (k : Junction) (v : Valuation) :
    k.Spreads fun f => (f.eval .belnap v).toldFalse = !k.neutral := by
  refine ⟨fun f g => ?_, fun f f' h => by rw [h.eval_eq]⟩
  cases k with
  | conj => simp [join, neutral, Formula.eval, Connectives.toldFalse_belnap_conj]
  | disj => simp [join, neutral, Formula.eval, Connectives.toldFalse_belnap_disj]

theorem spreads_not_mem (k : Junction) (n : String) : k.Spreads fun f => n ∉ f.occurrences := by
  refine ⟨fun f g => ?_, fun f f' h => not_congr (h.mem_occurrences_iff n).symm⟩
  cases k <;> simp [join, Formula.occurrences]

/-- Formulas that share all properties of all operands say the same. -/
theorem saysAs_of_spreads (k : Junction) {f f' : Formula}
    (h : ∀ Q, k.Spreads Q → (Q f ↔ Q f')) : f.SaysAs f' := by
  have hbool {a b u : Bool} (hab : a = u ↔ b = u) : b = a := by
    cases a <;> cases b <;> cases u <;> simp_all
  refine ⟨fun v => Truth.ext_told ?_ ?_, fun n => ?_⟩
  · exact hbool (h _ (k.spreads_toldTrue v))
  · exact hbool (h _ (k.spreads_toldFalse v))
  · exact (not_iff_not.1 (h _ (k.spreads_not_mem n))).symm

end Junction

/-- A written formula resolves, and to a formula with a property. -/
def Holds (sentence : String) (Q : Formula → Prop) (w : Written) : Prop :=
  ∃ f, resolve sentence w = .ok f ∧ Q f

section Holds

variable {sentence : String} {k : Junction} {Q : Formula → Prop}

theorem holds_iff {w : Written} {f : Formula} (h : resolve sentence w = .ok f) :
    Holds sentence Q w ↔ Q f := by
  unfold Holds
  rw [h]
  simp

theorem exists_resolveAll_iff {ws : List Written} :
    (∃ fs, resolveAll sentence ws = .ok fs ∧ ∀ f ∈ fs, Q f) ↔ ∀ w ∈ ws, Holds sentence Q w := by
  induction ws with
  | nil => simp [resolveAll]
  | cons w ws ih =>
    rw [List.forall_mem_cons, ← ih, resolveAll]
    unfold Holds
    cases resolve sentence w with
    | error e => simp [Except.bind]
    | ok f => cases resolveAll sentence ws <;> simp [Except.bind, Except.map]

/-- A property of all operands holds of a node exactly if the node has operands and all of them have
it. -/
theorem holds_node_iff (hQ : k.Spreads Q) {ws : List Written} :
    Holds sentence Q (k.node ws) ↔ ws ≠ [] ∧ ∀ w ∈ ws, Holds sentence Q w := by
  rw [← exists_resolveAll_iff, Holds, k.resolve_node]
  cases hws : resolveAll sentence ws with
  | error e => simp [Except.bind]
  | ok fs =>
    have hlength := length_of_resolveAll hws
    cases fs with
    | nil =>
      have hnil : ws = [] := List.length_eq_zero_iff.1 hlength.symm
      simp [Except.bind, joined, hnil]
    | cons f fs =>
      have hne : ws ≠ [] := by rintro rfl; cases hlength
      simp [Except.bind, joined, hQ.foldl_iff, hne]

/-- Written formulas that have the same properties of all operands resolve to formulas that say the
same. -/
theorem exists_saysAs (k : Junction) {w w' : Written} {f : Formula}
    (hw : resolve sentence w = .ok f)
    (h : ∀ Q, k.Spreads Q → (Holds sentence Q w ↔ Holds sentence Q w')) :
    ∃ f', resolve sentence w' = .ok f' ∧ f.SaysAs f' := by
  obtain ⟨f', hf', -⟩ := (h _ k.spreads_true).1 ⟨f, hw, trivial⟩
  refine ⟨f', hf', k.saysAs_of_spreads fun Q hQ => ?_⟩
  exact (holds_iff hw).symm.trans ((h Q hQ).trans (holds_iff hf'))

theorem exists_resolve_operand {ws : List Written} {f : Formula}
    (h : resolve sentence (k.node ws) = .ok f) {w : Written} (hw : w ∈ ws) :
    ∃ g, resolve sentence w = .ok g := by
  have hall := (holds_node_iff k.spreads_true).1 ⟨f, h, trivial⟩
  obtain ⟨g, hg, -⟩ := hall.2 w hw
  exact ⟨g, hg⟩

theorem ne_nil_of_resolve_node {ws : List Written} {f : Formula}
    (h : resolve sentence (k.node ws) = .ok f) : ws ≠ [] :=
  ((holds_node_iff k.spreads_true).1 ⟨f, h, trivial⟩).1

/-- Operands grouped into a node of the same connective keep their properties. -/
theorem holds_group_iff (hQ : k.Spreads Q) {before ws after : List Written} (hws : ws ≠ []) :
    Holds sentence Q (k.node (before ++ ws ++ after)) ↔
      Holds sentence Q (k.node (before ++ k.node ws :: after)) := by
  rw [holds_node_iff hQ, holds_node_iff hQ]
  simp only [List.forall_mem_append, List.forall_mem_cons, holds_node_iff hQ]
  simp [hws, and_assoc]

end Holds

/-! ### Rearranging operands -/

/-- The operands of a node in another order, one of them once more, some in a row grouped into a
node of the same connective, or the operands of such a node in its place. -/
inductive Regroups (k : Junction) : List Written → List Written → Prop
  | permute {ws ws' : List Written} (h : ws.Perm ws') : Regroups k ws ws'
  | duplicate (before : List Written) (w : Written) (after : List Written) :
    Regroups k (before ++ w :: after) (before ++ w :: w :: after)
  | group (before ws after : List Written) (hws : ws ≠ []) :
    Regroups k (before ++ ws ++ after) (before ++ k.node ws :: after)
  | splice (before ws after : List Written) :
    Regroups k (before ++ k.node ws :: after) (before ++ ws ++ after)

/-- One node at any depth with its operands rearranged. -/
inductive Rearranges : Written → Written → Prop
  | node (k : Junction) {ws ws' : List Written} (h : Regroups k ws ws') :
    Rearranges (k.node ws) (k.node ws')
  | neg {w w' : Written} (h : Rearranges w w') : Rearranges (neg w) (neg w')
  | operand (k : Junction) (before : List Written) {w w' : Written} (after : List Written)
    (h : Rearranges w w') :
    Rearranges (k.node (before ++ w :: after)) (k.node (before ++ w' :: after))

section Rearranges

variable {sentence : String} {k : Junction} {f : Formula}

theorem Regroups.holds_iff {ws ws' : List Written} (h : Regroups k ws ws')
    (hws : resolve sentence (k.node ws) = .ok f) {Q : Formula → Prop} (hQ : k.Spreads Q) :
    Holds sentence Q (k.node ws) ↔ Holds sentence Q (k.node ws') := by
  cases h with
  | permute h =>
    rw [holds_node_iff hQ, holds_node_iff hQ]
    have hnil : ws = [] ↔ ws' = [] := ⟨fun hw => (hw ▸ h).symm.eq_nil, fun hw => (hw ▸ h).eq_nil⟩
    simp only [ne_eq, hnil, h.mem_iff]
  | duplicate before w after =>
    rw [holds_node_iff hQ, holds_node_iff hQ]
    simp
  | group before ws after hne => exact holds_group_iff hQ hne
  | splice before ws after =>
    -- a node without operands would not have been resolved
    obtain ⟨g, hg⟩ := exists_resolve_operand hws (List.mem_append_right before List.mem_cons_self)
    exact (holds_group_iff hQ (ne_nil_of_resolve_node hg)).symm

theorem Rearranges.exists_saysAs {w w' : Written} (h : Rearranges w w')
    (hw : resolve sentence w = .ok f) : ∃ f', resolve sentence w' = .ok f' ∧ f.SaysAs f' := by
  induction h generalizing f with
  | node k h => exact Written.exists_saysAs k hw fun Q hQ => h.holds_iff hw hQ
  | @neg w w' _ ih =>
    rw [resolve] at hw
    cases hr : resolve sentence w with
    | error e => rw [hr] at hw; cases hw
    | ok g =>
      rw [hr] at hw
      cases hw
      obtain ⟨g', hg', hsays⟩ := ih hr
      exact ⟨.neg g', by rw [resolve, hg']; rfl, hsays.neg⟩
  | @operand k before w w' after _ ih =>
    obtain ⟨g, hg⟩ := exists_resolve_operand hw (List.mem_append_right before List.mem_cons_self)
    obtain ⟨g', hg', hsays⟩ := ih hg
    refine Written.exists_saysAs k hw fun Q hQ => ?_
    have hoperand : Holds sentence Q w ↔ Holds sentence Q w' := by
      rw [Written.holds_iff hg, Written.holds_iff hg', hQ.saysAs_iff g g' hsays]
    rw [holds_node_iff hQ, holds_node_iff hQ]
    simp only [List.forall_mem_append, List.forall_mem_cons, hoperand]
    simp

end Rearranges

end Written

/-! ### Graphs of the same sayings -/

namespace SentenceGraph.Corresponds

variable {g g' : SentenceGraph} (h : Corresponds Formula.SaysAs g g')
include h

theorem dependencies?_eq (n : String) : g'.dependencies? n = g.dependencies? n := by
  unfold dependencies?
  rcases h.formula?_cases n with ⟨hf, hf'⟩ | ⟨f, f', hf, hf', hsays⟩
  · rw [hf, hf']
  · rw [hf, hf', Option.map_some, Option.map_some, hsays.references_eq]

theorem refers_eq : g'.sentences.Refers = g.sentences.Refers := by
  funext a b
  show (∃ f, g'.formula? a = some f ∧ b ∈ f.occurrences) =
    ∃ f, g.formula? a = some f ∧ b ∈ f.occurrences
  rcases h.formula?_cases a with ⟨hf, hf'⟩ | ⟨f, f', hf, hf', hsays⟩
  · rw [hf, hf']
  · simp [hf, hf', hsays.mem_occurrences_iff]

theorem shareCycle_eq (a b : String) : g'.shareCycle a b = g.shareCycle a b := by
  rw [Bool.eq_iff_iff, shareCycle_iff, shareCycle_iff, DependsOn, DependsOn, h.refers_eq]
  rfl

theorem cycles_eq : g'.cycles = g.cycles := by
  refine cycles_eq_of_mem_iff fun c => ?_
  simp only [mem_cycles_iff, isCyclic_iff_shareCycle, h.shareCycle_eq]

theorem sameRounds (c : SolverConfig) :
    Run.SameRounds ⟨c, .belnap⟩ g' ⟨c, .belnap⟩ g := by
  have hstep (a : Assignment) :
      ((⟨c, .belnap⟩ : Solver).step g' a).next = ((⟨c, .belnap⟩ : Solver).step g a).next := by
    have hreading (n : String) : (⟨c, .belnap⟩ : Solver).reading g' n a =
        (⟨c, .belnap⟩ : Solver).reading g n a := by
      unfold Solver.reading Solver.cycleClosed
      simp only [h.shareCycle_eq]
    refine Assignment.ext_valueOf ?_ fun n hn => ?_
    · rw [Solver.names_step, Solver.names_step, h.names_eq]
    · rw [Solver.names_step, h.names_eq] at hn
      obtain ⟨f, hf⟩ := mem_names_iff.1 hn
      obtain ⟨f', hf', hsays⟩ := h.formula? n f hf
      rw [Solver.valueOf_step _ hf', Solver.valueOf_step _ hf, hreading, hsays.eval_eq]
  refine ⟨fun a => congrArg (Round.between a) (hstep a), ?_, ?_, rfl, rfl⟩
  · exact congrArg Assignment.bottom h.names_eq
  · rw [← length_names, ← length_names, h.names_eq]

end SentenceGraph.Corresponds

/-! ### Files -/

namespace DefinitionFile

/-- One file from another by rearranging the operands of one node in one of its formulas. -/
inductive Rearranges : DefinitionFile → DefinitionFile → Prop
  | sentence (before : List (String × Written)) (name : String) {w w' : Written}
    (after : List (String × Written)) (h : w.Rearranges w') :
    Rearranges ⟨before ++ (name, w) :: after⟩ ⟨before ++ (name, w') :: after⟩

theorem exists_resolves_of_rearranges {before after : List (String × Written)} {name : String}
    {w w' : Written} (h : w.Rearranges w') {ds : List (String × Formula)}
    (hds : Resolves (before ++ (name, w) :: after) ds) :
    ∃ ds', Resolves (before ++ (name, w') :: after) ds' ∧
      List.Forall₂ (fun d d' => d'.1 = d.1 ∧ d.2.SaysAs d'.2) ds ds' := by
  induction before generalizing ds with
  | nil =>
    obtain _ | @⟨_, d, _, ds, ⟨hname, hf⟩, hafter⟩ := hds
    obtain ⟨f', hf', hsays⟩ := h.exists_saysAs hf
    refine ⟨(d.1, f') :: ds, .cons ⟨hname, hf'⟩ hafter, .cons ⟨rfl, hsays⟩ ?_⟩
    exact List.forall₂_same.2 fun e _ => ⟨rfl, .refl e.2⟩
  | cons e before ih =>
    obtain _ | @⟨_, d, _, ds, hd, hrest⟩ := hds
    obtain ⟨ds', hds', hsays⟩ := ih hrest
    exact ⟨d :: ds', .cons hd hds', .cons ⟨rfl, .refl d.2⟩ hsays⟩

theorem exists_graph_of_rearranges {file file' : DefinitionFile} (h : file.Rearranges file')
    {g : SentenceGraph} (hg : file.graph = .ok g) :
    ∃ g', file'.graph = .ok g' ∧ SentenceGraph.Corresponds Formula.SaysAs g g' := by
  obtain ⟨before, name, after, hw⟩ := h
  obtain ⟨ds, hds, hofds⟩ := exists_resolves_of_graph hg
  obtain ⟨ds', hds', hsays⟩ := exists_resolves_of_rearranges hw hds
  obtain ⟨-, -, hresolved⟩ := SentenceGraph.exists_ofDefinitions_iff.1 ⟨g, hofds⟩
  obtain ⟨g', hg', hcorr⟩ := SentenceGraph.exists_corresponds hsays hofds
    fun n f f' hf hff' r hr => hresolved (n, f) hf r ((hff'.mem_occurrences_iff r).1 hr)
  exact ⟨g', (graph_of_resolves hds').trans hg', hcorr⟩

theorem exists_graph_of_reflTransGen {file file' : DefinitionFile}
    (h : Relation.ReflTransGen Rearranges file file') {g : SentenceGraph}
    (hg : file.graph = .ok g) :
    ∃ g', file'.graph = .ok g' ∧ SentenceGraph.Corresponds Formula.SaysAs g g' := by
  induction h with
  | refl => exact ⟨g, hg, .refl .refl g⟩
  | tail _ hstep ih =>
    obtain ⟨g', hg', hcorr⟩ := ih
    obtain ⟨g'', hg'', hcorr'⟩ := exists_graph_of_rearranges hstep hg'
    exact ⟨g'', hg'', hcorr.trans (fun _ _ _ => .trans) hcorr'⟩

/-- However often operands of an accepted file are put in another order, repeated, grouped or
spliced, the file is accepted, its graph has the same names, dependencies and cycles, and Belnap's
connectives solve it alike under every configuration. -/
theorem graph_of_rearranged {file file' : DefinitionFile}
    (h : Relation.ReflTransGen Rearranges file file') {g : SentenceGraph}
    (hg : file.graph = .ok g) :
    ∃ g', file'.graph = .ok g' ∧ g'.names = g.names ∧
      (∀ n, g'.dependencies? n = g.dependencies? n) ∧ g'.cycles = g.cycles ∧
      ∀ c : SolverConfig, (⟨c, .belnap⟩ : Solver).solve g' = (⟨c, .belnap⟩ : Solver).solve g := by
  obtain ⟨g', hg', hcorr⟩ := exists_graph_of_reflTransGen h hg
  exact ⟨g', hg', hcorr.names_eq, hcorr.dependencies?_eq, hcorr.cycles_eq,
    fun c => (hcorr.sameRounds c).solve_eq rfl⟩

/-- The operands of an inner node change places, one of the outer ones is repeated, and two of them
are grouped. -/
theorem graph_of_rearranged_doubt :
    let doubt (ws : List Written) : DefinitionFile :=
      ⟨[("fact", .neg (.ref "doubt")), ("doubt", .neg (.disj ws))]⟩
    let file := doubt [.ref "fact", .conj [.ref "doubt", .ref "fact"]]
    let file' := doubt [.ref "fact", .disj [.ref "fact", .conj [.ref "fact", .ref "doubt"]]]
    ∃ g g', Relation.ReflTransGen Rearranges file file' ∧ file.graph = .ok g ∧
      file'.graph = .ok g' ∧ g'.cycles = g.cycles ∧
      ({} : Solver).solve g' = ({} : Solver).solve g := by
  intro doubt file file'
  let inner : Written := .conj [.ref "fact", .ref "doubt"]
  have hswap : Rearranges file (doubt [.ref "fact", inner]) :=
    .sentence [_] _ [] (.neg (.operand .disj [_] [] (.node .conj (.permute (.swap ..)))))
  have hrepeat : Rearranges (doubt [.ref "fact", inner])
      (doubt [.ref "fact", .ref "fact", inner]) :=
    .sentence [_] _ [] (.neg (.node .disj (.duplicate [] _ [_])))
  have hgroup : Rearranges (doubt [.ref "fact", .ref "fact", inner]) file' :=
    .sentence [_] _ [] (.neg (.node .disj
      (.group [.ref "fact"] [.ref "fact", inner] [] (List.cons_ne_nil _ _))))
  have hall : Relation.ReflTransGen Rearranges file file' :=
    ((Relation.ReflTransGen.single hswap).tail hrepeat).tail hgroup
  obtain ⟨g, hds⟩ : ∃ g, SentenceGraph.ofDefinitions [("fact", .neg (.ref "doubt")), ("doubt",
      .neg (.disj (.ref "fact") (.conj (.ref "doubt") (.ref "fact"))))] = .ok g :=
    SentenceGraph.exists_ofDefinitions (by decide +kernel) (by decide +kernel)
  have hg : file.graph = .ok g :=
    (graph_of_resolves (.cons ⟨rfl, rfl⟩ (.cons ⟨rfl, rfl⟩ .nil))).trans hds
  obtain ⟨g', hg', -, -, hcycles, hsolve⟩ := graph_of_rearranged hall hg
  exact ⟨g, g', hall, hg, hg', hcycles, hsolve {}⟩

end DefinitionFile

end SelfReference
