import Mathlib.Data.List.Nodup
import Mathlib.Logic.Relation
import SelfReference.Graph.Search

/-!
# Reachability and components

The edges of a graph, its paths, and what makes a list of disjoint lists of vertices the strongly
connected components closed so far: no edge leaves them, and the members of each one reach each
other.
-/

namespace SelfReference.Adjacency

variable {n : Nat} {adj : Adjacency n}

/-- The edges of a graph. -/
def Edge (adj : Adjacency n) (u v : Fin n) : Prop := v ∈ adj.get u

/-- The paths of a graph, the empty ones included. -/
def Reaches (adj : Adjacency n) : Fin n → Fin n → Prop := Relation.ReflTransGen adj.Edge

theorem reaches_refl (v : Fin n) : adj.Reaches v v := Relation.ReflTransGen.refl

theorem Reaches.trans {u v w : Fin n} (h : adj.Reaches u v) (h' : adj.Reaches v w) :
    adj.Reaches u w := Relation.ReflTransGen.trans h h'

theorem Reaches.tail {u v w : Fin n} (h : adj.Reaches u v) (h' : adj.Edge v w) :
    adj.Reaches u w := Relation.ReflTransGen.tail h h'

/-- A path stays where no edge leads out. -/
theorem mem_of_reaches {P : Fin n → Prop} (hP : ∀ u v, P u → adj.Edge u v → P v) {u v : Fin n}
    (hu : P u) (h : adj.Reaches u v) : P v := by
  induction h with
  | refl => exact hu
  | tail _ hedge ih => exact hP _ _ ih hedge

/-- A component closed after the ones in `cs`: its members reach each other, and every edge from
one of them ends in it or in an earlier component. -/
structure IsClosedAfter (adj : Adjacency n) (cs : List (List (Fin n))) (c : List (Fin n)) :
    Prop where
  ne_nil : c ≠ []
  reaches : ∀ u ∈ c, ∀ v ∈ c, adj.Reaches u v
  targets : ∀ u ∈ c, ∀ v, adj.Edge u v → v ∈ c ∨ v ∈ cs.flatten

/-- Components closed one after the other, the latest first. -/
inductive Emission (adj : Adjacency n) : List (List (Fin n)) → Prop
  | nil : Emission adj []
  | cons {c : List (Fin n)} {cs : List (List (Fin n))} (head : adj.IsClosedAfter cs c)
      (tail : Emission adj cs) : Emission adj (c :: cs)

namespace Emission

variable {cs : List (List (Fin n))}

theorem target_mem (h : adj.Emission cs) {u : Fin n} (hu : u ∈ cs.flatten) {v : Fin n}
    (hv : adj.Edge u v) : v ∈ cs.flatten := by
  induction h with
  | nil => exact absurd hu List.not_mem_nil
  | cons head _ ih =>
    rw [List.flatten_cons, List.mem_append] at hu ⊢
    rcases hu with hu | hu
    · exact head.targets u hu v hv
    · exact Or.inr (ih hu)

theorem mem_of_reaches (h : adj.Emission cs) {u v : Fin n} (hu : u ∈ cs.flatten)
    (huv : adj.Reaches u v) : v ∈ cs.flatten :=
  Adjacency.mem_of_reaches (fun _ _ hu hv => h.target_mem hu hv) hu huv

/-- A closed component holds what its members reach and are reached from. -/
theorem mem_iff (h : adj.Emission cs) (hcs : cs.flatten.Nodup) {c : List (Fin n)} (hc : c ∈ cs)
    {u : Fin n} (hu : u ∈ c) {v : Fin n} :
    v ∈ c ↔ adj.Reaches u v ∧ adj.Reaches v u := by
  induction h with
  | nil => exact absurd hc List.not_mem_nil
  | @cons d ds head tail ih =>
    rw [List.flatten_cons, List.nodup_append'] at hcs
    rcases List.mem_cons.1 hc with rfl | hc
    · refine ⟨fun hv => ⟨head.reaches u hu v hv, head.reaches v hv u hu⟩, fun ⟨huv, hvu⟩ => ?_⟩
      have hmem : v ∈ (c :: ds).flatten := by
        refine (Emission.cons head tail).mem_of_reaches ?_ huv
        exact List.mem_flatten_of_mem (List.mem_cons_self ..) hu
      rcases List.mem_append.1 (List.flatten_cons ▸ hmem) with hv | hv
      · exact hv
      · exact absurd (tail.mem_of_reaches hv hvu) (hcs.2.2 hu)
    · exact ih hcs.2.1 hc

theorem ne_nil (h : adj.Emission cs) {c : List (Fin n)} (hc : c ∈ cs) : c ≠ [] := by
  induction h with
  | nil => exact absurd hc List.not_mem_nil
  | cons head _ ih =>
    rcases List.mem_cons.1 hc with rfl | hc
    · exact head.ne_nil
    · exact ih hc

end Emission

end SelfReference.Adjacency
