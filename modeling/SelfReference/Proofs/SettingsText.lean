import SelfReference.Proofs.TomlIntegers
import SelfReference.Proofs.TomlTables
import SelfReference.Settings

/-!
# Settings as text

Settings have a text exactly when their numbers are within the range of integers, and are read back
from it.  Settings that are read from any text are within the range.
-/

namespace SelfReference

/-- Whether the numbers of a configuration can be written. -/
structure SolverConfig.InRange (c : SolverConfig) : Prop where
  bound : ∀ n ∈ c.maxIterations, (n : Int) ≤ Toml.maxInt
  workers : (c.workers : Int) ≤ Toml.maxInt

instance (c : SolverConfig) : Decidable c.InRange :=
  decidable_of_iff
    ((∀ n ∈ c.maxIterations, (n : Int) ≤ Toml.maxInt) ∧ (c.workers : Int) ≤ Toml.maxInt)
    ⟨fun h => ⟨h.1, h.2⟩, fun h => ⟨h.bound, h.workers⟩⟩

def Settings.InRange (s : Settings) : Prop := s.solver.InRange

instance (s : Settings) : Decidable s.InRange := inferInstanceAs (Decidable s.solver.InRange)

namespace SolverConfig

variable {c : SolverConfig}

/-! ### Writing -/

def tomlMembers (c : SolverConfig) : List (String × Toml) :=
  (c.maxIterations.toList.map fun n => ("max_iterations", .int n)) ++
    [("grounding", .str c.grounding.name), ("record_trace", .bool c.recordTrace),
      ("verify_operators", .bool c.verifyOperators), ("workers", .int c.workers)]

theorem toToml?_of_inRange (h : c.InRange) : c.toToml? = some c.tomlMembers := by
  have hworkers : Toml.ofNat? c.workers = some (.int c.workers) := if_pos h.workers
  unfold toToml? tomlMembers
  cases hbound : c.maxIterations with
  | none => simp [hworkers]
  | some n =>
    have hn : Toml.ofNat? n = some (.int n) := if_pos (h.bound n hbound)
    simp [hworkers, hn]

theorem inRange_of_toToml? {members : List (String × Toml)} (h : c.toToml? = some members) :
    c.InRange := by
  have hofNat {n : Nat} {v : Toml} (hv : Toml.ofNat? n = some v) : (n : Int) ≤ Toml.maxInt := by
    unfold Toml.ofNat? at hv
    split at hv
    · assumption
    · cases hv
  obtain ⟨bound, hbound, h⟩ := Option.bind_eq_some_iff.1 h
  obtain ⟨workers, hworkers, -⟩ := Option.bind_eq_some_iff.1 h
  constructor
  · intro n hn
    rw [Option.mem_def.1 hn, Option.mapM_some] at hbound
    obtain ⟨v, hv, -⟩ := Option.map_eq_some_iff.1 hbound
    exact hofNat hv
  · exact hofNat hworkers

theorem onLine_tomlMembers (h : c.InRange) :
    ∀ m ∈ c.tomlMembers, Toml.IsBareKey m.1 ∧ Toml.OnLine m.2 := by
  have hbound : Toml.IsBareKey "max_iterations" := ⟨by decide, by decide⟩
  have hgrounding : Toml.IsBareKey "grounding" := ⟨by decide, by decide⟩
  have hrecord : Toml.IsBareKey "record_trace" := ⟨by decide, by decide⟩
  have hverify : Toml.IsBareKey "verify_operators" := ⟨by decide, by decide⟩
  have hworkers : Toml.IsBareKey "workers" := ⟨by decide, by decide⟩
  intro m hm
  rcases List.mem_append.1 hm with hm | hm
  · obtain ⟨n, hn, heq⟩ := List.mem_map.1 hm
    rw [← heq]
    exact ⟨hbound, .int (h.bound n (Option.mem_toList.1 hn))⟩
  · simp only [List.mem_cons, List.not_mem_nil, or_false] at hm
    rcases hm with hm | hm | hm | hm <;> rw [hm]
    · exact ⟨hgrounding, .str _⟩
    · exact ⟨hrecord, .bool _⟩
    · exact ⟨hverify, .bool _⟩
    · exact ⟨hworkers, .int h.workers⟩

theorem nodup_tomlMembers (c : SolverConfig) : (c.tomlMembers.map (·.1)).Nodup := by
  unfold tomlMembers
  cases c.maxIterations <;> simp

/-! ### Reading -/

theorem ofTomlMembers?_tomlMembers (c : SolverConfig) :
    ofTomlMembers? c.tomlMembers = some c := by
  obtain ⟨bound, grounding, recordTrace, verifyOperators, workers⟩ := c
  unfold tomlMembers ofTomlMembers? ofTomlFields?
  cases bound with
  | none => simp [Toml.member?, List.lookup_cons, orDefault, Toml.choice?, Toml.bool?, Toml.nat?]
  | some n => simp [Toml.member?, List.lookup_cons, orDefault, Toml.choice?, Toml.bool?, Toml.nat?]

theorem inRange_default : InRange {} := by decide

theorem inRange_of_ofTomlFields? {bound grounding recordTrace verifyOperators workers : Option Toml}
    (hbound : ∀ v ∈ bound, v.Bounded) (hworkers : ∀ v ∈ workers, v.Bounded)
    (h : ofTomlFields? bound grounding recordTrace verifyOperators workers = some c) :
    c.InRange := by
  obtain ⟨maxIterations, hmax, h⟩ := Option.bind_eq_some_iff.1 h
  obtain ⟨g, -, h⟩ := Option.bind_eq_some_iff.1 h
  obtain ⟨r, -, h⟩ := Option.bind_eq_some_iff.1 h
  obtain ⟨o, -, h⟩ := Option.bind_eq_some_iff.1 h
  obtain ⟨w, hw, h⟩ := Option.bind_eq_some_iff.1 h
  cases h
  constructor
  · intro n hn
    cases bound with
    | none =>
      cases hmax
      cases hn
    | some v =>
      obtain ⟨m, hm, heq⟩ := Option.map_eq_some_iff.1 hmax
      cases heq
      cases hn
      exact (hbound v rfl).of_nat? hm
  · cases workers with
    | none =>
      cases hw
      exact inRange_default.workers
    | some v => exact (hworkers v rfl).of_nat? hw

theorem bounded_member? {key : String} {members : List (String × Toml)}
    (h : ∀ m ∈ members, m.2.Bounded) : ∀ v ∈ Toml.member? key members, v.Bounded := by
  intro v hv
  induction members with
  | nil => cases hv
  | cons m members ih =>
    obtain ⟨hm, hrest⟩ := List.forall_mem_cons.1 h
    unfold Toml.member? at hv
    rw [List.lookup_cons] at hv
    split at hv
    · cases hv
      exact hm
    · exact ih hrest hv

theorem inRange_of_ofToml? {v : Toml} (hv : v.Bounded) (h : ofToml? v = some c) : c.InRange := by
  have hmembers {members : List (String × Toml)} (hm : ∀ m ∈ members, m.2.Bounded)
      (h : ofTomlMembers? members = some c) : c.InRange :=
    inRange_of_ofTomlFields? (bounded_member? hm) (bounded_member? hm) h
  cases hv with
  | table hm => exact hmembers hm h
  | dateTime => exact hmembers (fun m hm => absurd hm List.not_mem_nil) h
  | arr hitems =>
    have hitem {vs : List Toml} (hvs : ∀ v ∈ vs, v.Bounded) (i : Nat) :
        ∀ v ∈ vs[i]?, v.Bounded := fun v hv => hvs v (List.mem_of_getElem? hv)
    exact inRange_of_ofTomlFields? (hitem hitems 0) (hitem hitems 4) h
  | _ => cases h

end SolverConfig

namespace Settings

variable {s : Settings} {text : String}

/-! ### Text -/

def outputMembers (s : Settings) : List (String × Toml) :=
  [("color", .bool s.color), ("format", .str s.format.name)]

def tomlMembers (s : Settings) : List (String × Toml) :=
  [("settings", .table s.outputMembers), ("solver", .table s.solver.tomlMembers)]

theorem toToml?_of_inRange (h : s.InRange) : s.toToml? = some s.tomlMembers := by
  rw [toToml?, SolverConfig.toToml?_of_inRange h]
  rfl

theorem onLine_outputMembers (s : Settings) :
    ∀ m ∈ s.outputMembers, Toml.IsBareKey m.1 ∧ Toml.OnLine m.2 := by
  have hcolor : Toml.IsBareKey "color" := ⟨by decide, by decide⟩
  have hformat : Toml.IsBareKey "format" := ⟨by decide, by decide⟩
  intro m hm
  simp only [outputMembers, List.mem_cons, List.not_mem_nil, or_false] at hm
  rcases hm with hm | hm <;> rw [hm]
  · exact ⟨hcolor, .bool _⟩
  · exact ⟨hformat, .str _⟩

theorem lined_own {own : List (String × Toml)}
    (hown : ∀ m ∈ own, Toml.IsBareKey m.1 ∧ Toml.OnLine m.2) (hnodup : (own.map (·.1)).Nodup) :
    Toml.Lined (.table own) := by
  rw [← List.append_nil own]
  apply Toml.Lined.table
  · exact fun m hm => (hown m hm).2
  · exact fun m hm => absurd hm List.not_mem_nil
  · rw [List.append_nil]
    exact fun m hm => (hown m hm).1
  · rwa [List.append_nil]

theorem lined_tomlMembers (h : s.InRange) : Toml.Lined (.table s.tomlMembers) := by
  have houtput : Toml.IsBareKey "settings" := ⟨by decide, by decide⟩
  have hsolver : Toml.IsBareKey "solver" := ⟨by decide, by decide⟩
  have houtputLined := lined_own s.onLine_outputMembers (by simp [outputMembers])
  have hsolverLined := lined_own (SolverConfig.onLine_tomlMembers h) s.solver.nodup_tomlMembers
  show Toml.Lined (.table ([] ++ s.tomlMembers))
  apply Toml.Lined.table
  · exact fun m hm => absurd hm List.not_mem_nil
  · simpa [tomlMembers] using And.intro houtputLined hsolverLined
  · simpa [tomlMembers] using And.intro houtput hsolver
  · simp [tomlMembers]

/-- The headers of settings have one key each. -/
theorem length_path_le (h : s.InRange) :
    ∀ t ∈ Toml.sectionsWithin [] s.tomlMembers, t.path.length ≤ Toml.keyLimit := by
  have hown {key : String} {own : List (String × Toml)}
      (hlines : ∀ m ∈ own, Toml.IsBareKey m.1 ∧ Toml.OnLine m.2) :
      ∀ t ∈ Toml.sectionsOf [] key (.table own), t.path.length ≤ Toml.keyLimit := by
    intro t ht
    rw [Toml.sectionsOf, Toml.sectionsWithin_of_no_header _ fun m hm => (hlines m hm).2.hasHeader,
      List.append_nil] at ht
    unfold Toml.tableSections at ht
    split at ht
    · rw [List.mem_singleton.1 ht]
      exact (by decide : 1 ≤ Toml.keyLimit)
    · cases ht
  intro t ht
  simp only [tomlMembers, Toml.sectionsWithin, List.append_nil, List.mem_append] at ht
  rcases ht with ht | ht
  · exact hown s.onLine_outputMembers t ht
  · exact hown (SolverConfig.onLine_tomlMembers h) t ht

theorem ofToml?_tomlMembers (s : Settings) : ofToml? s.tomlMembers = some s := by
  obtain ⟨color, format, solver⟩ := s
  have hsolver : SolverConfig.ofToml? (.table solver.tomlMembers) = some solver :=
    solver.ofTomlMembers?_tomlMembers
  simp [ofToml?, tomlMembers, outputMembers, outputOfToml?, Toml.member?, List.lookup_cons,
    SolverConfig.orDefault, Toml.bool?, Toml.choice?, hsolver]

/-! ### Round trip -/

theorem text?_of_inRange (h : s.InRange) : s.text? = some (Toml.pretty s.tomlMembers) := by
  rw [text?, toToml?_of_inRange h, Option.map_some]

theorem inRange_of_text? (h : s.text? = some text) : s.InRange := by
  obtain ⟨members, hmembers, -⟩ := Option.map_eq_some_iff.1 h
  obtain ⟨solver, hsolver, -⟩ := Option.bind_eq_some_iff.1 hmembers
  exact SolverConfig.inRange_of_toToml? hsolver

theorem text?_eq_none_iff : s.text? = none ↔ ¬ s.InRange := by
  constructor
  · intro h hrange
    rw [text?_of_inRange hrange] at h
    cases h
  · intro h
    cases htext : s.text? with
    | none => rfl
    | some text => exact absurd (inRange_of_text? htext) h

/-- Settings are read back from their text. -/
theorem read?_text (h : s.text? = some text) : read? text = some s := by
  have hrange := inRange_of_text? h
  have htext := Option.some.inj ((text?_of_inRange hrange).symm.trans h)
  have hread := Toml.read?_pretty (lined_tomlMembers hrange)
  rw [if_pos (length_path_le hrange), htext] at hread
  rw [read?, hread]
  exact s.ofToml?_tomlMembers

/-- Settings that are read from any text have a text. -/
theorem inRange_of_read? (h : read? text = some s) : s.InRange := by
  obtain ⟨members, hmembers, h⟩ := Option.bind_eq_some_iff.1 h
  have hbounded := Toml.read?_bounded hmembers
  obtain ⟨output, -, h⟩ := Option.bind_eq_some_iff.1 h
  obtain ⟨solver, hsolver, h⟩ := Option.bind_eq_some_iff.1 h
  cases h
  cases hmember : Toml.member? "solver" members with
  | none =>
    rw [hmember] at hsolver
    cases hsolver
    exact SolverConfig.inRange_default
  | some v =>
    rw [hmember] at hsolver
    exact SolverConfig.inRange_of_ofToml? (SolverConfig.bounded_member? hbounded v hmember) hsolver

end Settings

end SelfReference
