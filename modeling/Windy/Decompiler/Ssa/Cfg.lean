import Windy.Lib.Dominance
import Windy.Lib.Worklist
import Mathlib.Data.List.Basic
import Mathlib.Logic.Function.Iterate
import Mathlib.Data.List.Range

/- Dominator tree and dominance frontiers (`decompiler/ssa/cfg.rs`).

   Blocks are indices into the function's block list, and tables indexed by block are functions. A
   loop that the source runs until it is done runs on fuel here; the amounts are bounds on the
   number of its rounds, and that they are enough is shown with the results about each loop.

   Correspondence:
     the adjacency lists of `build_ssa_with_call_abi_inputs` ↔ `Cfg`
     `reverse_postorder` ↔ `Dfs.step`, `dfs`
     `build_idom` ↔ `intersect`, `newIdom`, `processNode`, `sweep`, `buildIdom`
     `dominance_frontier` ↔ `runFrontier`, `dominanceFrontier`
     `iterated_df` ↔ the same
   In `intersect` the two inner loops of the source are one: each round moves the block with the
   smaller postorder number up. -/
namespace Windy.Ssa

/-- Successor and predecessor lists that say the same. A list may repeat a block. -/
structure Cfg where
  succs : List (List Nat)
  preds : List (List Nat)
  preds_length : preds.length = succs.length
  consistent : ∀ i < succs.length, ∀ j < succs.length, j ∈ succs.getD i [] ↔ i ∈ preds.getD j []
  succs_lt : ∀ js ∈ succs, ∀ j ∈ js, j < succs.length
  preds_lt : ∀ is ∈ preds, ∀ i ∈ is, i < succs.length

namespace Cfg

/-- The number of blocks. -/
def size (g : Cfg) : Nat :=
  g.succs.length

def succ (g : Cfg) (b : Nat) : List Nat :=
  g.succs.getD b []

def pred (g : Cfg) (b : Nat) : List Nat :=
  g.preds.getD b []

def Edge (g : Cfg) (i j : Nat) : Prop :=
  j ∈ g.succ i

def Reachable (g : Cfg) (entry b : Nat) : Prop :=
  Relation.ReflTransGen g.Edge entry b

end Cfg

/-- The blocks with this one among their successors. -/
def predecessorsIn (succs : List (List Nat)) (b : Nat) : List Nat :=
  (List.range succs.length).filter fun i => b ∈ succs.getD i []

/-- The graph with these successor lists; the predecessor lists are put together from them. -/
def Cfg.ofSuccs (succs : List (List Nat)) (hlt : ∀ js ∈ succs, ∀ j ∈ js, j < succs.length) : Cfg where
  succs := succs
  preds := (List.range succs.length).map (predecessorsIn succs)
  preds_length := by
    simp
  consistent := by
    intro i hi j hj
    simp [predecessorsIn, List.getD_eq_getElem?_getD, hi, hj]
  succs_lt := hlt
  preds_lt := by
    intro is his i hi
    obtain ⟨b, -, rfl⟩ := List.mem_map.mp his
    exact List.mem_range.mp (List.mem_filter.mp hi).1

/-! ## Reverse postorder -/

/-- The state of the depth-first search: a stack of blocks with the next successor
to look at, and the finished blocks in order. -/
structure Dfs where
  stack : List (Nat × Nat)
  visited : Nat → Bool
  postorder : Nat → Nat
  order : List Nat

/-- One round of the search. -/
def Dfs.step (g : Cfg) (s : Dfs) : Dfs :=
  match s.stack with
  | [] => s
  | (node, next) :: rest =>
    let visited := Function.update s.visited node true
    match (g.succ node)[next]? with
    | some child =>
      if visited child then { s with stack := (node, next + 1) :: rest, visited := visited }
      else { s with stack := (child, 0) :: (node, next + 1) :: rest, visited := visited }
    | none =>
      { stack := rest
        visited := visited
        postorder := Function.update s.postorder node s.order.length
        order := s.order ++ [node] }

def Dfs.start (entry : Nat) : Dfs :=
  { stack := [(entry, 0)], visited := fun _ => false, postorder := fun _ => 2 ^ 64 - 1, order := [] }

/-- Rounds the search needs at most: one for each edge and one for each block. -/
def Cfg.rounds (g : Cfg) : Nat :=
  ((List.range g.size).map fun b => (g.succ b).length + 1).sum

/-- The search when its stack is empty. -/
def dfs (g : Cfg) (entry : Nat) : Dfs :=
  (Dfs.step g)^[g.rounds] (Dfs.start entry)

/-! ## Immediate dominators -/

/-- Walks two blocks up the tree until they meet. -/
def intersect (postorder : Nat → Nat) (idom : Nat → Option Nat) : Nat → Nat → Nat → Nat
  | 0, a, _ => a
  | fuel + 1, a, b =>
    if a = b then a
    else if postorder a < postorder b then intersect postorder idom fuel ((idom a).getD a) b
    else if postorder b < postorder a then intersect postorder idom fuel a ((idom b).getD b)
    else intersect postorder idom fuel a b

/-- The meeting point of the predecessors that have an immediate dominator. -/
def newIdom (postorder : Nat → Nat) (idom : Nat → Option Nat) (fuel : Nat) (preds : List Nat) : Option Nat :=
  preds.foldl (fun acc p =>
    if (idom p).isSome then
      some (match acc with
        | none => p
        | some cur => intersect postorder idom fuel p cur)
    else acc) none

/-- One block of a sweep; the flag tells whether anything has changed. -/
def processNode (g : Cfg) (entry : Nat) (postorder : Nat → Nat) (state : (Nat → Option Nat) × Bool)
    (node : Nat) : (Nat → Option Nat) × Bool :=
  if node = entry then state
  else
    match newIdom postorder state.1 (2 * g.size) (g.pred node) with
    | none => state
    | some ni =>
      if state.1 node ≠ some ni then (Function.update state.1 node (some ni), true) else state

/-- One pass over all blocks in reverse postorder. -/
def sweep (g : Cfg) (entry : Nat) (postorder : Nat → Nat) (rpo : List Nat) (idom : Nat → Option Nat) :
    (Nat → Option Nat) × Bool :=
  rpo.foldl (processNode g entry postorder) (idom, false)

/-- Sweeps until one changes nothing. -/
def sweeps (g : Cfg) (entry : Nat) (postorder : Nat → Nat) (rpo : List Nat) :
    Nat → (Nat → Option Nat) → (Nat → Option Nat)
  | 0, idom => idom
  | fuel + 1, idom =>
    let result := sweep g entry postorder rpo idom
    if result.2 then sweeps g entry postorder rpo fuel result.1 else result.1

/-- The immediate dominator of every block; the entry is its own, and unreachable
blocks have none. -/
def buildIdom (g : Cfg) (entry : Nat) : Nat → Option Nat :=
  sweeps g entry (dfs g entry).postorder (dfs g entry).order.reverse (g.size * g.size + 2)
    (Function.update (fun _ => none) entry (some entry))

/-! ## Dominance frontiers -/

/-- Adds `b` to the frontiers on the way from `runner` up to the dominator of `b`. -/
def runFrontier (idom : Nat → Option Nat) (b : Nat) : Nat → Nat → (Nat → List Nat) → (Nat → List Nat)
  | 0, _, df => df
  | fuel + 1, runner, df =>
    if idom b = some runner then df
    else
      let df := Function.update df runner ((df runner).insert b)
      match idom runner with
      | some next => runFrontier idom b fuel next df
      | none => df

/-- The frontiers of a block with several predecessors. -/
def joinFrontier (g : Cfg) (idom : Nat → Option Nat) (df : Nat → List Nat) (b : Nat) : Nat → List Nat :=
  if 2 ≤ (g.pred b).length then
    (g.pred b).foldl (fun df p => runFrontier idom b (g.size + 1) p df) df
  else df

/-- The dominance frontier of every block. -/
def dominanceFrontier (g : Cfg) (idom : Nat → Option Nat) : Nat → List Nat :=
  (List.range g.size).foldl (joinFrontier g idom) fun _ => []

/-- The frontier of the seed, of this frontier, and so on. The last block of the
seed is taken first; a round takes one block off the worklist. -/
def iteratedDf (df : Nat → List Nat) (size : Nat) (seed : List Nat) : List Nat :=
  (Worklist.close df (size + seed.length) ⟨[], seed.reverse⟩).marked

end Windy.Ssa
