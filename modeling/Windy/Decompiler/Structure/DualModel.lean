import Mathlib.Data.List.Sort
import Windy.Decompiler.Structure.Region

/- The presentation graph (`structure/rd_model.rs`) and the rewriting of regions
   (`structure/rewrite.rs`).

   Regions are classified over the presentation graph: jump-only blocks are taken out, and
   edges to blocks that look like cookie checks too, where another edge is left. Then moves
   are applied to them. Which moves are proposed, and in which order, is up to the cost model
   and the hash map; `applyMoves` takes any list of moves with their outcomes.

   Effects that no operation has (`Throwish`, `VolatileAccess`, `Barrier`) are left out, and
   the target of a call, which is never given.

   Correspondence:
     `is_cookie_scaffold_block` ↔ the same
     `PresentationGraph::from_semantic` ↔ `presentationSucc`, `presentationGraph`
     `block_effect_kinds`, `is_pure_return_arm` ↔ the same
     `RewriteMove`, `RewriteOutcome` ↔ the types of these names
     `apply_moves` ↔ `applyMove`, `applyMoves`
     the regions of `DualDecompModel::build` ↔ `dualRegions` -/
namespace Windy.Decompiler

/-! ## The presentation graph -/

/-- All successors are blocks. -/
def SsaFunction.Closed (ssa : SsaFunction) : Prop :=
  ∀ block ∈ ssa.blocks, ∀ s ∈ block.successorIds, s < ssa.blocks.length

instance (ssa : SsaFunction) : Decidable ssa.Closed :=
  inferInstanceAs (Decidable (∀ block ∈ ssa.blocks, ∀ s ∈ block.successorIds, s < ssa.blocks.length))

def isCookieScaffoldBlock (block : SsaBlock) : Bool :=
  let count := fun (p : PcodeOp → Bool) => block.ops.countP fun op => match op.kind with
    | .pcode op => p op
    | .phi _ _ => false
  let xors := count fun op => match op with
    | .intXor _ _ _ => true
    | _ => false
  let accesses := count fun op => match op with
    | .load _ _ | .store _ _ => true
    | _ => false
  let calls := block.ops.countP fun op => op.kind.isCall
  calls = 0 && xors ≠ 0 && accesses ≠ 0 && block.ops.length ≤ 12

def isCookieOverlay (ssa : SsaFunction) (b : Nat) : Bool := (ssa.blocks[b]?).any isCookieScaffoldBlock

/-- The successors that are left, in order and without repetitions. -/
def presentationSucc (ssa : SsaFunction) (block : SsaBlock) : List Nat :=
  let targets := presentationSuccessors ssa block
  let ordinary := targets.filter fun s => !(isCookieOverlay ssa s && 1 < block.successorIds.length)
  (if ordinary = [] then targets else ordinary).dedup.insertionSort (· ≤ ·)

theorem mem_presentationSucc {ssa : SsaFunction} {block : SsaBlock} {t : Nat} (h : t ∈ presentationSucc ssa block) :
    t ∈ presentationSuccessors ssa block := by
  simp only [presentationSucc, List.mem_insertionSort, List.mem_dedup] at h
  split at h
  · exact h
  · exact List.mem_of_mem_filter h

/-- `PresentationGraph::from_semantic` -/
def presentationGraph (ssa : SsaFunction) (hclosed : ssa.Closed) : Ssa.Cfg :=
  Ssa.Cfg.ofSuccs (ssa.blocks.map (presentationSucc ssa))
    (by
      intro js hjs j hj
      obtain ⟨block, hblock, rfl⟩ := List.mem_map.mp hjs
      obtain ⟨s, hs, rfl⟩ := List.mem_map.mp (mem_presentationSucc hj)
      rw [List.length_map]
      exact resolveJumpTarget_lt hclosed (hclosed block hblock s hs) 16)

/-- The regions of a function, before any move. -/
def dualRegions (ssa : SsaFunction) (hclosed : ssa.Closed) (switches : List SwitchInfo) : RegionMap :=
  classifyWithAdj ⟨ssa, switches, presentationGraph ssa hclosed, true⟩

/-! ## Moves -/

inductive EffectKind where
  | call
  | store
  | ret
  deriving DecidableEq, Repr

def effectKind (op : SsaOp) : Option EffectKind :=
  match op.kind with
  | .pcode (.call _) | .pcode (.callInd _) => some .call
  | .pcode (.store _ _) => some .store
  | .pcode (.ret _) => some .ret
  | _ => none

def blockEffectKinds (ssa : SsaFunction) (b : Nat) : List EffectKind :=
  match ssa.blocks[b]? with
  | some block => block.ops.filterMap effectKind
  | none => []

/-- The arm shows nothing but returns. -/
def isPureReturnArm (effects : List EffectKind) : Bool := effects ≠ [] && effects.all (· = .ret)

inductive RewriteMove where
  | invertBranch (header : Nat)
  | earlyReturnExtract (header : Nat)
  | factorPureSharedTail (merge : Nat)
  | duplicatePureBlock (block : Nat)
  deriving DecidableEq, Repr

inductive RewriteOutcome where
  | applied (costBefore costAfter : Int)
  | rejected (reason : String)
  deriving DecidableEq, Repr

/-- The region of an if and else after a return was taken out of one of its arms. -/
def extractReturn (ssa : SsaFunction) (thenEntry elseEntry merge : Nat) (invert : Bool) : Region :=
  if isPureReturnArm (blockEffectKinds ssa thenEntry) then .ifThenFallthrough thenEntry elseEntry merge invert
  else if isPureReturnArm (blockEffectKinds ssa elseEntry) then .ifThenFallthrough elseEntry thenEntry merge !invert
  else .ifElse thenEntry elseEntry merge invert

/-- Only an if with an else is changed. -/
def applyMove (ssa : SsaFunction) (regions : RegionMap) : RewriteMove × RewriteOutcome → RegionMap
  | (_, .rejected _) => regions
  | (.invertBranch header, .applied _ _) =>
    match regions header with
    | some (.ifElse thenEntry elseEntry merge invert) =>
      Function.update regions header (some (.ifElse elseEntry thenEntry merge !invert))
    | _ => regions
  | (.earlyReturnExtract header, .applied _ _) =>
    match regions header with
    | some (.ifElse thenEntry elseEntry merge invert) =>
      Function.update regions header (some (extractReturn ssa thenEntry elseEntry merge invert))
    | _ => regions
  | (.factorPureSharedTail _, .applied _ _) => regions
  | (.duplicatePureBlock _, .applied _ _) => regions

/-- `apply_moves` -/
def applyMoves (ssa : SsaFunction) (regions : RegionMap) (selected : List (RewriteMove × RewriteOutcome)) : RegionMap :=
  selected.foldl (applyMove ssa) regions

end Windy.Decompiler
