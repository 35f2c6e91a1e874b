import Mathlib.Algebra.GroupWithZero.Nat
import SelfReference.Proofs.Components

/-!
# Searches kept in tables

The search for components can be kept in tables of numbers: for each vertex its discovery number,
the least number met from it and whether it is on the stack, and for each frame the position of the
next target.  A table has no place for other vertices, and an access outside it fails.  Where every
target is a vertex, no access fails, and the tables go through the states of the search move by
move.
-/

namespace SelfReference

/-- A search in tables by vertex. -/
structure SearchTables where
  index : Array (Option Nat)
  low : Array Nat
  onStack : Array Bool
  stack : List Nat
  opened : Nat
  /-- The vertices under search, each with the position of the next target to follow. -/
  frames : List (Nat × Nat)
  components : List (List Nat)
  /-- Every opening of a vertex in order of time; nothing depends on it. -/
  openings : List Nat

namespace SearchTables

def initial (n : Nat) : SearchTables :=
  ⟨Array.replicate n none, Array.replicate n 0, Array.replicate n false, [], 0, [], [], []⟩

/-- Writes into a table, where it has the place. -/
def put? {α : Type} (xs : Array α) (i : Nat) (x : α) : Option (Array α) :=
  if h : i < xs.size then some (xs.set i x h) else none

def openVertex? (v : Nat) (t : SearchTables) : Option SearchTables := do
  let index ← put? t.index v (some t.opened)
  let low ← put? t.low v t.opened
  let onStack ← put? t.onStack v true
  some { t with
    index, low, onStack
    stack := v :: t.stack
    opened := t.opened + 1
    frames := (v, 0) :: t.frames
    openings := t.openings ++ [v] }

def lower? (v k : Nat) (t : SearchTables) : Option SearchTables := do
  let low ← put? t.low v (min (← t.low[v]?) k)
  some { t with low }

/-- Follows the target `w` of `v`. -/
def follow? (v w : Nat) (t : SearchTables) : Option SearchTables := do
  match ← t.index[w]? with
  | none => t.openVertex? w
  | some k => if ← t.onStack[w]? then t.lower? v k else some t

/-- Takes vertices from a stack until `v` is taken, and marks them as taken. -/
def popTo? (v : Nat) : List Nat → Array Bool → Option (List Nat × List Nat × Array Bool)
  | [], onStack => some ([], [], onStack)
  | w :: ws, onStack => do
    let onStack ← put? onStack w false
    if w = v then some ([w], ws, onStack)
    else
      let (taken, left, onStack) ← popTo? v ws onStack
      some (w :: taken, left, onStack)

def handOn? (v : Nat) (t : SearchTables) : Option SearchTables :=
  match t.frames with
  | [] => some t
  | (parent, _) :: _ => do t.lower? parent (← t.low[v]?)

/-- Leaves the frame of `v`, which is no longer among the frames. -/
def closeFrame? (v : Nat) (t : SearchTables) : Option SearchTables := do
  let t ← t.handOn? v
  if (← t.index[v]?) = some (← t.low[v]?) then
    let (component, stack, onStack) ← popTo? v t.stack t.onStack
    some { t with stack, onStack, components := t.components ++ [component] }
  else some t

def move? (edges : Array (Array Nat)) (t : SearchTables) : Option SearchTables :=
  match t.frames with
  | [] => some t
  | (v, next) :: rest => do
    match (← edges[v]?)[next]? with
    | some w => follow? v w { t with frames := (v, next + 1) :: rest }
    | none => closeFrame? v { t with frames := rest }

/-- Moves until no frame is left, and fails after more moves than allowed. -/
def drain? (edges : Array (Array Nat)) : Nat → SearchTables → Option SearchTables
  | 0, t => if t.frames = [] then some t else none
  | moves + 1, t => if t.frames = [] then some t else (t.move? edges).bind (drain? edges moves)

def visit? (edges : Array (Array Nat)) (moves : Nat) (t : SearchTables) (v : Nat) :
    Option SearchTables := do
  match ← t.index[v]? with
  | none => (← t.openVertex? v).drain? edges moves
  | some _ => some t

/-- The search after visits to the first `k` vertices, each of so many moves at most. -/
def visits? (edges : Array (Array Nat)) (moves k : Nat) : Option SearchTables :=
  (List.range k).foldlM (visit? edges moves) (initial edges.size)

theorem put?_eq {α : Type} {xs : Array α} {i : Nat} (h : i < xs.size) (x : α) :
    put? xs i x = some (xs.set i x h) := dif_pos h

end SearchTables

variable {n : Nat} {adj : Adjacency n}

/-- The targets of each vertex by their numbers. -/
def Adjacency.table (adj : Adjacency n) : Array (Array Nat) :=
  adj.toArray.map fun targets => (targets.map Fin.val).toArray

theorem Adjacency.size_table (adj : Adjacency n) : adj.table.size = n := by
  simp [table]

theorem Adjacency.getElem?_table (adj : Adjacency n) (v : Fin n) :
    adj.table[(v : Nat)]? = some ((adj.get v).map Fin.val).toArray := by
  simp [table, Vector.get]

/-- The graph of a table whose targets are all vertices. -/
def Adjacency.ofTable {edges : Array (Array Nat)} (hsize : edges.size = n)
    (h : ∀ targets ∈ edges, ∀ w ∈ targets, w < n) : Adjacency n :=
  Vector.ofFn fun v =>
    have hv : (v : Nat) < edges.size := hsize.symm ▸ v.isLt
    edges[(v : Nat)].toList.pmap Fin.mk fun w hw =>
      h _ (Array.getElem_mem hv) w (Array.mem_toList_iff.1 hw)

theorem Adjacency.table_ofTable {edges : Array (Array Nat)} (hsize : edges.size = n)
    (h : ∀ targets ∈ edges, ∀ w ∈ targets, w < n) : (ofTable hsize h).table = edges := by
  refine Array.ext ((size_table _).trans hsize.symm) fun i hi hi' => ?_
  simp [table, ofTable, List.map_pmap]

/-- At first the work is that of following every target and of leaving every vertex. -/
theorem Search.work_initial (adj : Adjacency n) :
    (Search.initial n).work adj =
      (adj.table.toList.map fun targets => targets.size + 1).sum := by
  have hcosts : (List.finRange n).map (cost adj (Search.initial n).index) =
      adj.table.toList.map fun targets => targets.size + 1 := by
    apply List.ext_getElem
    · simp [Adjacency.table]
    · intro i hi hi'
      simp [cost, Search.initial, Adjacency.table]
  rw [work, hcosts, ← List.sum_eq_foldr]
  rfl

namespace SearchTables

/-- A write at a vertex leaves what stands at other vertices. -/
theorem getElem?_set_of_ne {α : Type} {xs : Array α} {w : Fin n} (h : (w : Nat) < xs.size) {x : α}
    {u : Fin n} (hu : u ≠ w) : (xs.set w x h)[(u : Nat)]? = xs[(u : Nat)]? :=
  Array.getElem?_set_ne h fun heq => hu (Fin.ext heq.symm)

/-- A frame as a vertex and the position of its next target. -/
structure Shows (adj : Adjacency n) (e : Nat × Nat) (f : Frame n) : Prop where
  vertex : e.1 = f.vertex
  pending : (adj.get f.vertex).drop e.2 = f.pending

/-- Tables that hold the state of a search. -/
structure Represents (adj : Adjacency n) (t : SearchTables) (s : Search n) : Prop where
  index : t.index = s.index.toArray
  low_size : t.low.size = n
  low : ∀ f ∈ s.frames, t.low[(f.vertex : Nat)]? = some f.low
  onStack_size : t.onStack.size = n
  onStack : ∀ v : Fin n, ∃ b, t.onStack[(v : Nat)]? = some b ∧ (b = true ↔ v ∈ s.stack)
  stack : t.stack = s.stack.map Fin.val
  opened : t.opened = s.opened
  frames : List.Forall₂ (Shows adj) t.frames s.frames
  components : t.components = (s.emitted.map (List.map Fin.val)).reverse
  openings_nodup : t.openings.Nodup
  mem_openings : ∀ k, k ∈ t.openings ↔ ∃ v : Fin n, (v : Nat) = k ∧ s.number? v ≠ none

namespace Represents

variable {t : SearchTables} {s : Search n} {v w : Fin n} {low : Nat} {ws : List (Fin n)}
  {rest : List (Frame n)}

theorem initial (adj : Adjacency n) : Represents adj (.initial n) (.initial n) where
  index := by simp [SearchTables.initial, Search.initial]
  low_size := Array.size_replicate
  low _ h := absurd h List.not_mem_nil
  onStack_size := Array.size_replicate
  onStack v := ⟨false, by simp [SearchTables.initial], by simp [Search.initial]⟩
  stack := rfl
  opened := rfl
  frames := .nil
  components := rfl
  openings_nodup := List.nodup_nil
  mem_openings k := by
    have hnone (v : Fin n) : (Search.initial n).number? v = none :=
      Vector.getElem_replicate v.isLt
    simp [SearchTables.initial, hnone]

theorem index_size (h : Represents adj t s) : t.index.size = n := by
  rw [h.index, Vector.size_toArray]

theorem getElem?_index (h : Represents adj t s) (v : Fin n) :
    t.index[(v : Nat)]? = some (s.number? v) := by
  rw [h.index]
  simp [Search.number?, Vector.get]

theorem frames_eq_nil_iff (h : Represents adj t s) : t.frames = [] ↔ s.frames = [] := by
  rw [← List.length_eq_zero_iff, ← List.length_eq_zero_iff, h.frames.length_eq]

theorem withFrames (h : Represents adj t s) {es : List (Nat × Nat)} {fs : List (Frame n)}
    (hshows : List.Forall₂ (Shows adj) es fs)
    (hlow : ∀ f ∈ fs, t.low[(f.vertex : Nat)]? = some f.low) :
    Represents adj { t with frames := es } { s with frames := fs } :=
  { h with frames := hshows, low := hlow }

/-! ### Opening and lowering -/

theorem nodup_openings_append (h : Represents adj t s) (hw : s.number? w = none) :
    (t.openings ++ [(w : Nat)]).Nodup := by
  refine List.nodup_append'.2 ⟨h.openings_nodup, List.nodup_singleton _, fun k hk hkw => ?_⟩
  obtain ⟨v, hv, hopened⟩ := (h.mem_openings k).1 hk
  have hvw : v = w := Fin.ext (hv.trans (List.mem_singleton.1 hkw))
  exact hopened (hvw ▸ hw)

theorem mem_openings_append (h : Represents adj t s) (hw : s.number? w = none) (k : Nat) :
    k ∈ t.openings ++ [(w : Nat)] ↔
      ∃ v : Fin n, (v : Nat) = k ∧ (Search.openVertex adj w s).number? v ≠ none := by
  rw [List.mem_append, h.mem_openings, List.mem_singleton]
  constructor
  · intro hk
    rcases hk with ⟨v, hv, hopened⟩ | hk
    · have hvw : v ≠ w := fun heq => hopened (heq ▸ hw)
      exact ⟨v, hv, by rwa [Search.number?_openVertex_of_ne hvw]⟩
    · exact ⟨w, hk.symm, Search.opened_openVertex s w⟩
  · intro hk
    obtain ⟨v, hv, hopened⟩ := hk
    by_cases hvw : v = w
    · exact Or.inr (hvw ▸ hv).symm
    · rw [Search.number?_openVertex_of_ne hvw] at hopened
      exact Or.inl ⟨v, hv, hopened⟩

theorem openVertex (h : Represents adj t s) (hw : s.number? w = none)
    (hframes : ∀ f ∈ s.frames, f.vertex ≠ w) :
    ∃ t', t.openVertex? w = some t' ∧ Represents adj t' (Search.openVertex adj w s) := by
  have hindex : (w : Nat) < t.index.size := h.index_size.symm ▸ w.isLt
  have hlow : (w : Nat) < t.low.size := h.low_size.symm ▸ w.isLt
  have honStack : (w : Nat) < t.onStack.size := h.onStack_size.symm ▸ w.isLt
  refine ⟨{ t with
      index := t.index.set w (some t.opened)
      low := t.low.set w t.opened
      onStack := t.onStack.set w true
      stack := w :: t.stack
      opened := t.opened + 1
      frames := (↑w, 0) :: t.frames
      openings := t.openings ++ [↑w] }, ?_, ?_⟩
  · simp only [openVertex?, put?_eq hindex, put?_eq hlow, put?_eq honStack, Option.bind_eq_bind,
      Option.bind_some]
  exact {
    index := by simp [Search.openVertex, h.index, h.opened]
    low_size := by simp [h.low_size]
    low := fun f hf => by
      rcases List.mem_cons.1 hf with rfl | hf
      · simp [h.opened]
      · rw [getElem?_set_of_ne hlow (hframes f hf)]
        exact h.low f hf
    onStack_size := by simp [h.onStack_size]
    onStack := fun v => by
      by_cases hv : v = w
      · exact ⟨true, by simp [hv], by simp [Search.openVertex, hv]⟩
      · rw [getElem?_set_of_ne honStack hv]
        simpa [Search.openVertex, hv] using h.onStack v
    stack := congrArg (_ :: ·) h.stack
    opened := congrArg (· + 1) h.opened
    frames := .cons ⟨rfl, rfl⟩ h.frames
    components := h.components
    openings_nodup := h.nodup_openings_append hw
    mem_openings := h.mem_openings_append hw }

theorem lower (h : Represents adj t s) {f : Frame n} {rest : List (Frame n)}
    (hframes : s.frames = f :: rest) (hrest : ∀ g ∈ rest, g.vertex ≠ f.vertex) (k : Nat) :
    ∃ t', t.lower? f.vertex k = some t' ∧
      Represents adj t' { s with frames := { f with low := min f.low k } :: rest } ∧
      ∀ u : Fin n, u ≠ f.vertex → t'.low[(u : Nat)]? = t.low[(u : Nat)]? := by
  have hlow : (f.vertex : Nat) < t.low.size := h.low_size.symm ▸ f.vertex.isLt
  have hread : t.low[(f.vertex : Nat)]? = some f.low := h.low f (hframes ▸ List.mem_cons_self ..)
  refine ⟨{ t with low := t.low.set f.vertex (min f.low k) }, ?_, ?_,
    fun u hu => getElem?_set_of_ne hlow hu⟩
  · simp only [lower?, hread, put?_eq hlow, Option.bind_eq_bind, Option.bind_some]
  have hshows := h.frames
  rw [hframes] at hshows
  obtain ⟨e, es, he, hes, htframes⟩ := List.forall₂_cons_right_iff.1 hshows
  exact { h with
    low_size := by simp [h.low_size]
    low := fun g hg => by
      rcases List.mem_cons.1 hg with rfl | hg
      · simp
      · show (t.low.set f.vertex (min f.low k))[(g.vertex : Nat)]? = some g.low
        rw [getElem?_set_of_ne hlow (hrest g hg)]
        exact h.low g (hframes ▸ List.mem_cons_of_mem _ hg)
    frames := htframes ▸ .cons ⟨he.vertex, he.pending⟩ hes }

/-! ### Following a target -/

theorem follow (h : Represents adj t { s with frames := ⟨v, low, ws⟩ :: rest })
    (hfresh : s.number? w = none → ∀ f ∈ (⟨v, low, ws⟩ :: rest : List (Frame n)), f.vertex ≠ w)
    (hrest : ∀ g ∈ rest, g.vertex ≠ v) :
    ∃ t', t.follow? v w = some t' ∧ Represents adj t' (Search.follow adj v low w ws rest s) := by
  have hindex : t.index[(w : Nat)]? = some (s.number? w) := h.getElem?_index w
  obtain ⟨b, honStack, hb⟩ := h.onStack w
  unfold Search.follow
  split
  · rename_i hw
    have hnumber : s.number? w = none := hw
    obtain ⟨t', hopen, h'⟩ := h.openVertex hnumber (hfresh hnumber)
    refine ⟨t', ?_, h'⟩
    simp only [follow?, hindex, hnumber, Option.bind_eq_bind, Option.bind_some, hopen]
  · rename_i k hw
    have hnumber : s.number? w = some k := hw
    by_cases hstack : w ∈ s.stack
    · have hon : b = true := hb.2 hstack
      obtain ⟨t', hlower, h', -⟩ := h.lower rfl hrest k
      refine ⟨t', ?_, by simpa only [if_pos hstack] using h'⟩
      simpa [follow?, hindex, hnumber, honStack, hon] using hlower
    · have hoff : b ≠ true := mt hb.1 hstack
      refine ⟨t, ?_, by simpa only [if_neg hstack] using h⟩
      simp [follow?, hindex, hnumber, honStack, hoff]

/-! ### Leaving a frame -/

theorem popTo?_eq (v : Fin n) (l : List (Fin n)) (onStack : Array Bool) (hsize : onStack.size = n) :
    ∃ left : Array Bool,
      popTo? v (l.map Fin.val) onStack = some ((Search.cutBelow v l).1.map Fin.val,
        (Search.cutBelow v l).2.map Fin.val, left) ∧
      left.size = n ∧
      (∀ u ∈ (Search.cutBelow v l).1, left[(u : Nat)]? = some false) ∧
      ∀ u : Fin n, u ∉ (Search.cutBelow v l).1 → left[(u : Nat)]? = onStack[(u : Nat)]? := by
  induction l generalizing onStack with
  | nil => exact ⟨onStack, rfl, hsize, fun u hu => absurd hu List.not_mem_nil, fun u _ => rfl⟩
  | cons w ws ih =>
    have hw : (w : Nat) < onStack.size := hsize.symm ▸ w.isLt
    have hself : (onStack.set w false)[(w : Nat)]? = some false := Array.getElem?_set_self hw
    unfold Search.cutBelow
    by_cases hwv : w = v
    · subst hwv
      rw [if_pos rfl]
      have hsize' : (onStack.set w false).size = n := by rw [Array.size_set, hsize]
      refine ⟨onStack.set w false, ?_, hsize', fun u hu => ?_, fun u hu => ?_⟩
      · simp [popTo?, put?_eq hw]
      · rw [List.mem_singleton.1 hu, hself]
      · exact getElem?_set_of_ne hw fun heq => hu (heq ▸ List.mem_singleton_self w)
    · obtain ⟨left, hpop, hleft, htaken, hkept⟩ :=
        ih (onStack.set w false) (by rw [Array.size_set, hsize])
      have hne : (w : Nat) ≠ v := fun heq => hwv (Fin.ext heq)
      rw [if_neg hwv]
      refine ⟨left, ?_, hleft, fun u hu => ?_, fun u hu => ?_⟩
      · simp [popTo?, put?_eq hw, hne, hpop]
      · by_cases hmem : u ∈ (Search.cutBelow v ws).1
        · exact htaken u hmem
        · rw [hkept u hmem, (List.mem_cons.1 hu).resolve_right hmem, hself]
      · rw [List.mem_cons, not_or] at hu
        rw [hkept u hu.2, getElem?_set_of_ne hw hu.1]

theorem handOn (h : Represents adj t { s with frames := rest }) (f : Frame n)
    (hlow : t.low[(f.vertex : Nat)]? = some f.low)
    (hdistinct : (f :: rest).Pairwise fun f g => g.vertex ≠ f.vertex) :
    ∃ t', t.handOn? f.vertex = some t' ∧
      Represents adj t' { s with frames := Search.lowerInnermost f.low rest } ∧
      t'.low[(f.vertex : Nat)]? = some f.low := by
  obtain ⟨hf, hrest⟩ := List.pairwise_cons.1 hdistinct
  cases rest with
  | nil =>
    have hnil : t.frames = [] := h.frames_eq_nil_iff.2 rfl
    exact ⟨t, by rw [handOn?, hnil], h, hlow⟩
  | cons p ps =>
    obtain ⟨e, es, he, hes, htframes⟩ := List.forall₂_cons_right_iff.1 h.frames
    obtain ⟨t', hlower, h', hother⟩ := h.lower rfl (List.pairwise_cons.1 hrest).1 f.low
    refine ⟨t', ?_, h', (hother f.vertex (hf p (List.mem_cons_self ..)).symm).trans hlow⟩
    simp only [handOn?, htframes, hlow, he.vertex, Option.bind_eq_bind, Option.bind_some, hlower]

/-- The stack holds no vertex twice, so that the vertices marked as taken are not left on it. -/
theorem closeFrame (h : Represents adj t { s with frames := rest }) (f : Frame n)
    (hlow : t.low[(f.vertex : Nat)]? = some f.low)
    (hdistinct : (f :: rest).Pairwise fun f g => g.vertex ≠ f.vertex) (hnodup : s.stack.Nodup) :
    ∃ t', t.closeFrame? f.vertex = some t' ∧ Represents adj t' (Search.closeFrame f rest s) := by
  obtain ⟨t₁, hhand, h₁, hlow₁⟩ := h.handOn f hlow hdistinct
  have hindex : t₁.index[(f.vertex : Nat)]? = some (s.number? f.vertex) := h₁.getElem?_index _
  unfold Search.closeFrame
  split
  · rename_i hroot
    have hnumber : s.number? f.vertex = some f.low := hroot
    obtain ⟨left, hpop, hleft, htaken, hkept⟩ :=
      popTo?_eq f.vertex s.stack t₁.onStack h₁.onStack_size
    have hstack : t₁.stack = s.stack.map Fin.val := h₁.stack
    refine ⟨{ t₁ with
        stack := (Search.cutBelow f.vertex s.stack).2.map Fin.val
        onStack := left
        components := t₁.components ++ [(Search.cutBelow f.vertex s.stack).1.map Fin.val] }, ?_, ?_⟩
    · simp [closeFrame?, hhand, hindex, hlow₁, hnumber, hstack, hpop]
    exact { h₁ with
      onStack_size := hleft
      onStack := fun u => by
        have hcut := Search.cutBelow_append f.vertex s.stack
        have hmem := Search.mem_cutBelow_or f.vertex (l := s.stack) (u := u)
        rw [← hcut, List.nodup_append'] at hnodup
        by_cases hu : u ∈ (Search.cutBelow f.vertex s.stack).1
        · exact ⟨false, htaken u hu, iff_of_false Bool.false_ne_true (hnodup.2.2 hu)⟩
        · obtain ⟨b, hread, hb⟩ := h₁.onStack u
          exact ⟨b, (hkept u hu).trans hread, hb.trans (hmem.trans (or_iff_right hu))⟩
      stack := rfl
      components := by simp [h₁.components] }
  · rename_i hroot
    have hnumber : s.number? f.vertex ≠ some f.low := hroot
    refine ⟨t₁, ?_, h₁⟩
    simp [closeFrame?, hhand, hindex, hlow₁, hnumber]

/-! ### One move -/

theorem move (h : Represents adj t s) (hs : Search.Sound adj s) (hne : s.frames ≠ []) :
    ∃ t', t.move? adj.table = some t' ∧ Represents adj t' (s.move adj) := by
  obtain ⟨⟨v, low, pending⟩, rest, hframes⟩ := List.exists_cons_of_ne_nil hne
  have hshows := h.frames
  rw [hframes] at hshows
  obtain ⟨⟨v', next⟩, es, he, hes, htframes⟩ := List.forall₂_cons_right_iff.1 hshows
  obtain rfl : v' = v := he.vertex
  have hpending : (adj.get v).drop next = pending := he.pending
  have hdistinct := hs.frames_distinct
  rw [hframes] at hdistinct
  have hlow : ∀ f ∈ rest, t.low[(f.vertex : Nat)]? = some f.low := fun f hf =>
    h.low f (Search.mem_of_mem_rest hframes hf)
  -- The position in the table is where the pending targets begin.
  have hread : ((adj.get v).map Fin.val).toArray[next]? = pending.head?.map Fin.val := by
    rw [List.getElem?_toArray, List.getElem?_map, ← hpending, List.head?_drop]
  cases pending with
  | nil =>
    obtain ⟨t', hclose, h'⟩ := (h.withFrames hes hlow).closeFrame ⟨v, low, []⟩
      (h.low _ (Search.innermost_mem hframes)) hdistinct (List.nodup_append'.1 hs.nodup).1
    refine ⟨t', ?_, by simpa only [Search.move, hframes] using h'⟩
    simpa [move?, htframes, adj.getElem?_table, hread] using hclose
  | cons w ws =>
    have hws : (adj.get v).drop (next + 1) = ws := by
      rw [← List.tail_drop, hpending, List.tail_cons]
    have hrest := (List.pairwise_cons.1 hdistinct).1
    have hfollowed : Represents adj { t with frames := (↑v, next + 1) :: es }
        { s with frames := ⟨v, low, ws⟩ :: rest } := by
      refine h.withFrames (.cons ⟨rfl, hws⟩ hes) fun f hf => ?_
      rcases List.mem_cons.1 hf with rfl | hf
      · exact h.low ⟨v, low, w :: ws⟩ (Search.innermost_mem hframes)
      · exact hlow f hf
    have hfresh (hw : s.number? w = none) :
        ∀ f ∈ (⟨v, low, ws⟩ :: rest : List (Frame n)), f.vertex ≠ w := by
      intro f hf hfw
      obtain ⟨g, hg, hfg⟩ := Search.exists_frame_of_replaced hframes hf
      exact hs.opened_of_mem (hs.frame_mem g hg) (hfg ▸ hfw ▸ hw)
    obtain ⟨t', hfollow, h'⟩ := hfollowed.follow hfresh hrest
    refine ⟨t', ?_, by simpa only [Search.move, hframes] using h'⟩
    simpa [move?, htframes, adj.getElem?_table, hread] using hfollow

/-! ### Whole searches -/

theorem drain?_of_frames_eq_nil {edges : Array (Array Nat)} (ht : t.frames = []) (moves : Nat) :
    t.drain? edges moves = some t := by
  cases moves <;> exact if_pos ht

/-- The work that is left bounds the moves that it takes to finish every frame. -/
theorem drain (h : Represents adj t s) (hs : Search.Invariant adj s) :
    ∃ t', (∀ moves, s.work adj ≤ moves → t.drain? adj.table moves = some t') ∧
      Represents adj t' (s.drain adj) := by
  fun_induction Search.drain adj s generalizing t with
  | case1 s hnil =>
    exact ⟨t, fun moves _ => drain?_of_frames_eq_nil (h.frames_eq_nil_iff.2 hnil) moves, h⟩
  | case2 s hne ih =>
    obtain ⟨t₁, hmove, h₁⟩ := h.move hs.toSound hne
    obtain ⟨t', hdrain, h'⟩ := ih h₁ hs.move
    refine ⟨t', fun moves hmoves => ?_, h'⟩
    have hlt := Search.work_move_lt adj s hne
    cases moves with
    | zero => omega
    | succ moves =>
      rw [drain?, if_neg (mt h.frames_eq_nil_iff.1 hne), hmove]
      exact hdrain moves (by omega)

theorem visit (h : Represents adj t s) (hs : Search.Invariant adj s) (hnil : s.frames = [])
    (v : Fin n) :
    ∃ t', (∀ moves, s.work adj ≤ moves → t.visit? adj.table moves v = some t') ∧
      Represents adj t' (s.visit adj v) := by
  have hindex := h.getElem?_index v
  unfold Search.visit
  split
  · rename_i hv
    have hnumber : s.number? v = none := hv
    have hno : ∀ f ∈ s.frames, f.vertex ≠ v := fun f hf => absurd hf (hnil ▸ List.not_mem_nil)
    obtain ⟨t₁, hopen, h₁⟩ := h.openVertex hnumber hno
    obtain ⟨t', hdrain, h'⟩ := h₁.drain (hs.openRoot hnil hnumber)
    refine ⟨t', fun moves hmoves => ?_, h'⟩
    have hwork := Search.work_openVertex adj v s hnumber
    have hdone := hdrain moves (by omega)
    simp [visit?, hindex, hnumber, hopen, hdone]
  · rename_i hv
    obtain ⟨k, hk⟩ := Option.ne_none_iff_exists'.1 (show s.number? v ≠ none from hv)
    refine ⟨t, fun moves _ => ?_, h⟩
    simp [visit?, hindex, hk]

theorem foldlM_visit (h : Represents adj t s) (hs : Search.Invariant adj s)
    (hnil : s.frames = []) (l : List (Fin n)) :
    ∃ t', (∀ moves, s.work adj ≤ moves →
        (l.map Fin.val).foldlM (visit? adj.table moves) t = some t') ∧
      Represents adj t' (l.foldl (Search.visit adj) s) := by
  induction l generalizing s t with
  | nil => exact ⟨t, fun moves _ => rfl, h⟩
  | cons v l ih =>
    obtain ⟨t₁, hvisit, h₁⟩ := h.visit hs hnil v
    obtain ⟨t', hrest, h'⟩ := ih h₁ (hs.visit hnil v) (Search.frames_visit hnil v)
    refine ⟨t', fun moves hmoves => ?_, h'⟩
    have hwork := Search.work_visit_le adj s v
    rw [List.map_cons, List.foldlM_cons, hvisit moves hmoves]
    exact hrest moves (by omega)

end Represents

/-- The visits to the first vertices, in tables and in the search. -/
theorem exists_visits (adj : Adjacency n) {k : Nat} (hk : k ≤ n) :
    ∃ t, (∀ moves, (adj.table.toList.map fun targets => targets.size + 1).sum ≤ moves →
        visits? adj.table moves k = some t) ∧
      Represents adj t
        (((List.finRange n).take k).foldl (Search.visit adj) (Search.initial n)) := by
  have hrange : ((List.finRange n).take k).map Fin.val = List.range k := by
    rw [List.map_take, List.map_coe_finRange_eq_range, List.take_range, Nat.min_eq_left hk]
  obtain ⟨t, hvisits, ht⟩ := (Represents.initial adj).foldlM_visit
    (Search.invariant_initial adj) rfl ((List.finRange n).take k)
  rw [hrange, Search.work_initial] at hvisits
  refine ⟨t, fun moves hmoves => ?_, ht⟩
  rw [visits?, adj.size_table]
  exact hvisits moves hmoves

end SearchTables

end SelfReference
