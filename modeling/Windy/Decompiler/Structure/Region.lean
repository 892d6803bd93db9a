import Windy.Lib.Search
import Windy.Decompiler.Ir
import Windy.Decompiler.Ssa.Idom

/- Regions of a function (`structure/region.rs`, with `structure/pdom.rs`).

   The graph is the caller's: with jump-only blocks taken out it is not that of the blocks'
   own successors, and then the arms of a branch are looked up behind such blocks too. A
   block gets its region from itself alone: each step of the source writes the entry of the
   block it is at and reads no other, so the order in which it goes through the loop headers
   (those of a hash map) does not matter, and the map is given block by block.

   Where the source searches the graph with a stack, `Search.search` does.

   Correspondence:
     `virtual_exit`, `build_ipdom`, `reach`, `can_reach`, `dominates`, `is_back_edge`,
     `natural_loop_nodes` ↔ the same
     `back_edge_preds` ↔ `latches`
     the loops of `classify_with_adj` ↔ `returnRegion`, `switchRegion`, `loopRegion`, `ifRegion`
     `classify_with_adj` ↔ the same -/
namespace Windy.Decompiler

/-! ## Postdominators -/

section Reversed
variable (g : Ssa.Cfg)

/-- The blocks without a successor. -/
def exits : List Nat := (List.range g.size).filter fun i => g.succ i = []

/-- The successors, with the new block behind an exit. -/
def succOrExit (ss : List Nat) : List Nat := if ss = [] then [g.size] else ss

theorem getD_reversed (i : Nat) : (g.preds ++ [exits g]).getD i [] =
    if i = g.size then exits g else g.pred i := by
  have hlength : g.preds.length = g.size := g.preds_length
  rcases Nat.lt_trichotomy i g.size with hlt | rfl | hgt
  · rw [if_neg (Nat.ne_of_lt hlt), List.getD_append _ _ _ _ (by omega)]
    rfl
  · rw [if_pos rfl, List.getD_append_right _ _ _ _ (by omega), hlength, Nat.sub_self]
    rfl
  · rw [if_neg (by omega), List.getD_eq_default _ _ (by simp; omega), Ssa.Cfg.pred,
      List.getD_eq_default _ _ (by omega)]

theorem getD_reversed_preds {j : Nat} (hj : j < g.size) :
    (g.succs.map (succOrExit g) ++ [[]]).getD j [] = succOrExit g (g.succ j) := by
  have hj' : j < g.succs.length := hj
  rw [List.getD_append _ _ _ _ (by simpa using hj'), Ssa.Cfg.succ, List.getD_eq_getElem _ _ hj',
    List.getD_eq_getElem _ _ (by simpa using hj'), List.getElem_map]

theorem mem_succOrExit {i j : Nat} : i ∈ succOrExit g (g.succ j) ↔ i ∈ g.succ j ∨ g.succ j = [] ∧ i = g.size := by
  unfold succOrExit
  split
  · rename_i hnil
    simp [hnil]
  · rename_i hne
    simp [hne]

/-- The graph with all edges turned around, and an edge to every exit from a new block. -/
def reversedWithExit : Ssa.Cfg where
  succs := g.preds ++ [exits g]
  preds := g.succs.map (succOrExit g) ++ [[]]
  preds_length := by
    simp [g.preds_length]
  consistent := by
    intro i hi j hj
    have hsize : (g.preds ++ [exits g]).length = g.size + 1 := by
      rw [List.length_append, g.preds_length]
      rfl
    rw [hsize] at hi hj
    rw [getD_reversed]
    by_cases hjn : j < g.size
    · rw [getD_reversed_preds g hjn, mem_succOrExit]
      split
      · rename_i hi'
        have hnot : i ∉ g.succ j := fun h => by
          have := (Ssa.Cfg.mem_succ_lt h).2
          omega
        simp [exits, hi', hjn, hi' ▸ hnot]
      · rename_i hi'
        rw [Ssa.Cfg.mem_pred_iff]
        simp [hi', Ssa.Cfg.Edge]
    · -- the new block has no edge to it here, and nothing points there from the graph
      have hnone : (g.succs.map (succOrExit g) ++ [[]]).getD j [] = [] := by
        have hj' : j = (g.succs.map (succOrExit g)).length := by
          rw [List.length_map]
          exact Nat.le_antisymm (Nat.le_of_lt_succ hj) (Nat.le_of_not_lt hjn)
        rw [List.getD_append_right _ _ _ _ (by omega), hj', Nat.sub_self]
        rfl
      rw [hnone]
      split
      · simp [exits, hjn]
      · refine ⟨fun h => absurd (Ssa.Cfg.mem_pred_lt h).1 hjn, fun h => ?_⟩
        cases h
  succs_lt := by
    intro js hjs j hj
    rw [List.length_append, g.preds_length]
    rcases List.mem_append.mp hjs with hjs | hjs
    · exact Nat.lt_succ_of_lt (g.preds_lt js hjs j hj)
    · rw [List.mem_singleton.mp hjs] at hj
      exact Nat.lt_succ_of_lt (List.mem_range.mp (List.mem_filter.mp hj).1)
  preds_lt := by
    intro is his i hi
    rw [List.length_append, g.preds_length]
    rcases List.mem_append.mp his with his | his
    · obtain ⟨ss, hss, rfl⟩ := List.mem_map.mp his
      unfold succOrExit at hi
      split at hi
      · rw [List.mem_singleton.mp hi]
        exact Nat.lt_succ_self _
      · exact Nat.lt_succ_of_lt (g.succs_lt ss hss i hi)
    · rw [List.mem_singleton.mp his] at hi
      cases hi

end Reversed

def virtualExit (g : Ssa.Cfg) : Nat := g.size

def buildIpdom (g : Ssa.Cfg) : Nat → Option Nat := Ssa.buildIdom (reversedWithExit g) (virtualExit g)

/-! ## Searches -/

/-- All blocks of the graph. -/
def blockIds (g : Ssa.Cfg) : List Nat := List.range g.size

/-- Blocks that can be reached from `start` without entering `stop`. -/
def reach (g : Ssa.Cfg) (start stop : Nat) : List Nat :=
  if g.size ≤ start ∨ start = stop then []
  else
    let next := fun b => (g.succ b).filter (· ≠ stop)
    Search.search next (fun b => b = stop || g.size ≤ b) (Search.rounds next (blockIds g) [start]) [start] []

/-- The source stops as soon as the target is marked. A block to be avoided is not entered,
unless the search starts there. -/
def canReach (g : Ssa.Cfg) (start target avoid : Nat) : Bool :=
  start = target ||
    (Search.search g.succ (fun b => b = avoid && b ≠ start) (Search.rounds g.succ (blockIds g) [start]) [start]
      []).contains target

/-- Walks up the tree from a block; the entry is its own parent. -/
def climbsTo (idom : Nat → Option Nat) (a : Nat) : Nat → Nat → Bool
  | 0, _ => false
  | limit + 1, cur =>
    match idom cur with
    | some p => if p = cur then false else if p = a then true else climbsTo idom a limit p
    | none => false

def dominates (size a b : Nat) (idom : Nat → Option Nat) : Bool := a = b || climbsTo idom a (size + 1) b

def isBackEdge (size source target : Nat) (idom : Nat → Option Nat) : Bool := dominates size target source idom

/-- The blocks with a back edge to the header. -/
def latches (g : Ssa.Cfg) (idom : Nat → Option Nat) (header : Nat) : List Nat :=
  (blockIds g).filter fun b => (g.succ b).contains header && isBackEdge g.size b header idom

/-- From the latches backwards up to the header. -/
def naturalLoopNodes (g : Ssa.Cfg) (header : Nat) (latches : List Nat) : List Nat :=
  let next := fun b => (g.pred b).filter (· ≠ header)
  Search.search next (fun _ => false) (Search.rounds next (blockIds g) latches) latches.reverse [header]

/-! ## Classification -/

structure SwitchInfo where
  branchVa : Nat
  cases : List (Int × Nat)

def SsaBlock.isBranchInd (block : SsaBlock) : Bool :=
  block.ops.any fun op => match op.kind with
    | .pcode (.branchInd _) => true
    | _ => false

structure Classifier where
  ssa : SsaFunction
  switches : List SwitchInfo
  graph : Ssa.Cfg
  resolveArms : Bool

namespace Classifier
variable (c : Classifier)

def mapArm (arm : Nat) : Nat := if c.resolveArms then resolveJumpTarget c.ssa arm 16 else arm

/-- Where a branch goes if its condition is false and if it is true. -/
def arms (block : SsaBlock) : Option (Nat × Nat) :=
  block.cbranchArms.map fun arms => (c.mapArm arms.1, c.mapArm arms.2)

/-- The immediate postdominator, or the virtual exit. -/
def mergeOf (b : Nat) : Nat := (buildIpdom c.graph b).getD (virtualExit c.graph)

def returnRegion (block : SsaBlock) : Option Region := if block.hasReturn then some .ret else none

/-- The switch with this address, the last one if there are more. -/
def switchByVa (va : Nat) : Option SwitchInfo := c.switches.reverse.find? fun s => s.branchVa = va

def switchCases (block : SsaBlock) : List (Int × Nat) :=
  match c.switchByVa block.entryVa with
  | some info => info.cases
  | none => block.successorIds.mapIdx fun k target => ((k : Int), target)

def switchRegion (b : Nat) (block : SsaBlock) : Option Region :=
  if block.isBranchInd ∧ 2 ≤ block.successorIds.length then some (.switch (c.switchCases block) (c.mergeOf b)) else none

/-- A header that branches to itself. -/
def selfLoop (header : Nat) (block : SsaBlock) : Option Region :=
  match c.arms block with
  | some (fall, taken) =>
    if fall = header ∨ taken = header then some (.doWhile header header (if fall = header then taken else fall))
    else none
  | none => none

/-- The header branches out of the loop. Where both arms seem to stay in it, the body is the
one that leads to a latch. -/
def whileLoop (header : Nat) (latches : List Nat) (block : SsaBlock) : Option Region :=
  match c.arms block with
  | some (fall, taken) =>
    let nodes := naturalLoopNodes c.graph header latches
    let inLoop := fun arm => nodes.contains arm || arm = header
    let toLatch := fun arm => latches.any fun l => canReach c.graph arm l header
    let body := fun takenStays => if takenStays then some (.while taken fall) else some (.while fall taken)
    if inLoop fall ≠ inLoop taken then body (inLoop taken)
    else if inLoop fall ∧ inLoop taken ∧ toLatch fall ≠ toLatch taken then body (toLatch taken)
    else none
  | none => none

/-- The arms of a latch as they are. -/
def latchArms (latch : Nat) : Option (Nat × Nat) := (c.ssa.blocks[latch]?).bind SsaBlock.cbranchArms

/-- A latch that branches back to the header. -/
def doWhileLoop (header : Nat) (latches : List Nat) : Option Region :=
  latches.findSome? fun latch =>
    if latch = header then none
    else match c.latchArms latch with
      | some (fall, taken) =>
        if fall = header ∨ taken = header then some (.doWhile header latch (if fall = header then taken else fall))
        else none
      | none => none

/-- The first latch that branches at all. -/
def residualLoop (header : Nat) (latches : List Nat) : Option Region :=
  latches.findSome? fun latch =>
    match c.latchArms latch with
    | some (fall, taken) =>
      let exit :=
        if fall = header then taken
        else if taken = header then fall
        else if (naturalLoopNodes c.graph header latches).contains fall then taken
        else fall
      some (.doWhile header latch exit)
    | none => none

/-- The region of a loop header, over what it has already. -/
def loopRegion (header : Nat) (block : SsaBlock) (before : Option Region) : Option Region :=
  match latches c.graph (Ssa.buildIdom c.graph c.ssa.start) header with
  | [] => before
  | ls =>
    (c.selfLoop header block).or <| (c.whileLoop header ls block).or <| (c.doWhileLoop header ls).or <|
      before.or (c.residualLoop header ls)

/-- An arm that is the merge point is empty. -/
def ifRegion (b : Nat) (block : SsaBlock) : Option Region :=
  match c.arms block with
  | some (fall, taken) =>
    let merge := c.mergeOf b
    let empty := fun arm => arm = merge ∨ reach c.graph arm merge = []
    if ¬ empty taken ∧ ¬ empty fall then some (.ifElse taken fall merge false)
    else if ¬ empty taken then some (.ifThen taken merge false)
    else if ¬ empty fall then some (.ifThen fall merge true)
    else none
  | none => none

end Classifier

/-- `classify_with_adj` -/
def classifyWithAdj (c : Classifier) : RegionMap := fun b =>
  match c.ssa.blocks[b]? with
  | some block =>
    let before := (c.switchRegion b block).or (Classifier.returnRegion block)
    (c.loopRegion b block before).or (c.ifRegion b block)
  | none => none

end Windy.Decompiler
