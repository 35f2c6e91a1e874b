/-!
# Strongly connected components

A depth-first search over a finite directed graph that emits its strongly connected components.
The search keeps its own frames instead of recursing: a frame holds a vertex, the least discovery
number met from it so far, and the targets still to follow.  A vertex whose frame is finished
while that number is its own closes a component, which is the stack down to that vertex.

The search ends because every move uses up work: opening a vertex spends its targets, and every
other move spends a pending target or a frame.
-/

namespace SelfReference

/-- The targets of every vertex below `n`, in the order in which they are followed. -/
abbrev Adjacency (n : Nat) := Vector (List (Fin n)) n

/-- A vertex under search. -/
structure Frame (n : Nat) where
  vertex : Fin n
  /-- The least discovery number met from the vertex so far. -/
  low : Nat
  /-- The targets still to follow. -/
  pending : List (Fin n)

structure Search (n : Nat) where
  /-- The discovery number of each opened vertex. -/
  index : Vector (Option Nat) n
  /-- How many vertices have been opened. -/
  opened : Nat
  /-- Opened vertices that belong to no component yet, the latest first. -/
  stack : List (Fin n)
  /-- The vertices under search, the innermost first. -/
  frames : List (Frame n)
  /-- The components closed so far, the latest first. -/
  emitted : List (List (Fin n))

namespace Search

variable {n : Nat}

def initial (n : Nat) : Search n := ⟨Vector.replicate n none, 0, [], [], []⟩

/-- Numbers a vertex, puts it on the stack and begins to follow its targets. -/
def openVertex (adj : Adjacency n) (v : Fin n) (s : Search n) : Search n :=
  { s with
    index := s.index.set v (some s.opened)
    opened := s.opened + 1
    stack := v :: s.stack
    frames := ⟨v, s.opened, adj[v]⟩ :: s.frames }

/-- Passes a discovery number on to the innermost frame. -/
def lowerInnermost (k : Nat) : List (Frame n) → List (Frame n)
  | [] => []
  | f :: fs => { f with low := min f.low k } :: fs

/-- Cuts a stack below a vertex. -/
def cutBelow (v : Fin n) : List (Fin n) → List (Fin n) × List (Fin n)
  | [] => ([], [])
  | w :: ws => if w = v then ([w], ws) else ((w :: (cutBelow v ws).1), (cutBelow v ws).2)

theorem cutBelow_append (v : Fin n) (l : List (Fin n)) :
    (cutBelow v l).1 ++ (cutBelow v l).2 = l := by
  induction l with
  | nil => rfl
  | cons w ws ih =>
    unfold cutBelow
    split
    · rfl
    · simp [ih]

/-- Leaves a finished frame: its number goes to the frame below, and where it is the number of the
vertex itself, the component of the vertex is emitted. -/
def closeFrame (f : Frame n) (rest : List (Frame n)) (s : Search n) : Search n :=
  if s.index[f.vertex] = some f.low then
    { s with
      frames := lowerInnermost f.low rest
      stack := (cutBelow f.vertex s.stack).2
      emitted := (cutBelow f.vertex s.stack).1 :: s.emitted }
  else { s with frames := lowerInnermost f.low rest }

/-- Follows one target of the innermost frame: an unopened one is opened, one on the stack lowers
the number of the frame, any other one is passed over. -/
def follow (adj : Adjacency n) (v : Fin n) (low : Nat) (w : Fin n) (ws : List (Fin n))
    (rest : List (Frame n)) (s : Search n) : Search n :=
  match s.index[w] with
  | none => openVertex adj w { s with frames := ⟨v, low, ws⟩ :: rest }
  | some k => { s with frames := ⟨v, if w ∈ s.stack then min low k else low, ws⟩ :: rest }

/-- One move of the search; a search without frames rests. -/
def move (adj : Adjacency n) (s : Search n) : Search n :=
  match s.frames with
  | [] => s
  | ⟨v, low, []⟩ :: rest => closeFrame ⟨v, low, []⟩ rest s
  | ⟨v, low, w :: ws⟩ :: rest => follow adj v low w ws rest s

/-! ### Termination -/

/-- What a vertex costs until it is opened. -/
def cost (adj : Adjacency n) (index : Vector (Option Nat) n) (v : Fin n) : Nat :=
  if index[v] = none then adj[v].length + 1 else 0

/-- The moves that are left at most.  The sums are folds, because the zero of `List.sum` is another
term where more algebra is imported. -/
def work (adj : Adjacency n) (s : Search n) : Nat :=
  ((List.finRange n).map (cost adj s.index)).foldr (· + ·) 0 +
    (s.frames.map fun f => f.pending.length + 1).foldr (· + ·) 0

/-- Where a vertex costs something else, the sum of the costs differs by as much. -/
theorem foldr_map_update (f g : Fin n → Nat) (v : Fin n) (hfg : ∀ u, u ≠ v → g u = f u) :
    ∀ l : List (Fin n), l.Nodup → v ∈ l →
      (l.map g).foldr (· + ·) 0 + f v = (l.map f).foldr (· + ·) 0 + g v
  | [], _, h => absurd h (by simp)
  | u :: l, hn, h => by
    rw [List.nodup_cons] at hn
    by_cases huv : u = v
    · subst huv
      have hrest : l.map g = l.map f :=
        List.map_congr_left fun x hx => hfg x fun hxu => hn.1 (hxu ▸ hx)
      simp only [List.map_cons, List.foldr_cons, hrest]
      omega
    · have hv : v ∈ l := (List.mem_cons.1 h).resolve_left (Ne.symm huv)
      have hrest := foldr_map_update f g v hfg l hn.2 hv
      simp only [List.map_cons, List.foldr_cons, hfg u huv]
      omega

/-- Opening a vertex turns its cost into the pending targets of its frame. -/
theorem work_openVertex (adj : Adjacency n) (v : Fin n) (s : Search n) (hv : s.index[v] = none) :
    (openVertex adj v s).work adj = s.work adj := by
  have hsum := foldr_map_update (cost adj s.index) (cost adj (s.index.set v (some s.opened))) v
    (fun u hu => by
      unfold cost
      rw [show (s.index.set v (some s.opened))[u] = s.index[u] from
        Vector.getElem_set_ne v.isLt u.isLt fun h => hu (Fin.ext h.symm)])
    (List.finRange n) (List.nodup_finRange n) (List.mem_finRange v)
  have h0 : cost adj s.index v = adj[v].length + 1 := by simp [cost, hv]
  have h1 : cost adj (s.index.set v (some s.opened)) v = 0 := by simp [cost]
  simp only [work, openVertex, List.map_cons, List.foldr_cons]
  omega

theorem foldr_lowerInnermost (k : Nat) (fs : List (Frame n)) :
    ((lowerInnermost k fs).map fun f => f.pending.length + 1).foldr (· + ·) 0 =
      (fs.map fun f => f.pending.length + 1).foldr (· + ·) 0 := by
  cases fs <;> rfl

/-- Every move of a search with frames uses up work. -/
theorem work_move_lt (adj : Adjacency n) (s : Search n) (h : s.frames ≠ []) :
    (s.move adj).work adj < s.work adj := by
  unfold move
  split
  · contradiction
  · rename_i v low rest hf
    unfold closeFrame
    split <;> simp only [work, foldr_lowerInnermost, hf, List.map_cons, List.foldr_cons] <;> omega
  · rename_i v low w ws rest hf
    unfold follow
    split
    · rename_i hw
      rw [work_openVertex adj w { s with frames := ⟨v, low, ws⟩ :: rest } hw]
      simp only [work, hf, List.map_cons, List.foldr_cons, List.length_cons]
      omega
    · simp only [work, hf, List.map_cons, List.foldr_cons, List.length_cons]
      omega

/-- Moves until no frame is left. -/
def drain (adj : Adjacency n) (s : Search n) : Search n :=
  if _ : s.frames = [] then s else drain adj (s.move adj)
termination_by s.work adj
decreasing_by exact work_move_lt adj s ‹_›

/-- A drained search has no frame left. -/
theorem frames_drain (adj : Adjacency n) (s : Search n) : (s.drain adj).frames = [] := by
  fun_induction drain adj s with
  | case1 s h => exact h
  | case2 s _ ih => exact ih

theorem work_drain_le (adj : Adjacency n) (s : Search n) :
    (s.drain adj).work adj ≤ s.work adj := by
  fun_induction drain adj s with
  | case1 s hs => exact Nat.le_refl _
  | case2 s hs ih => exact Nat.le_trans ih (Nat.le_of_lt (work_move_lt adj s hs))

/-! ### The whole search -/

/-- Searches from a vertex unless it has been opened. -/
def visit (adj : Adjacency n) (s : Search n) (v : Fin n) : Search n :=
  if s.index[v] = none then (openVertex adj v s).drain adj else s

theorem work_visit_le (adj : Adjacency n) (s : Search n) (v : Fin n) :
    (s.visit adj v).work adj ≤ s.work adj := by
  unfold visit
  split
  · rename_i hv
    exact Nat.le_trans (work_drain_le adj _) (Nat.le_of_eq (work_openVertex adj v s hv))
  · exact Nat.le_refl _

def complete (adj : Adjacency n) : Search n :=
  (List.finRange n).foldl (visit adj) (initial n)

end Search

/-- The strongly connected components of a graph, in the order in which the search closes them. -/
def Adjacency.components {n : Nat} (adj : Adjacency n) : List (List (Fin n)) :=
  (Search.complete adj).emitted.reverse

/-- Whether a component holds a cycle: it has several members, or one with itself as a target. -/
def Adjacency.holdsCycle {n : Nat} (adj : Adjacency n) : List (Fin n) → Bool
  | [v] => v ∈ adj[v]
  | _ => true

end SelfReference
