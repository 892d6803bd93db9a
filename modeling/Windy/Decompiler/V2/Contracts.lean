import Windy.Bel.Maps
import Windy.Decompiler.Ssa.Lower
import Windy.Decompiler.Structure.DualModel
import Windy.Decompiler.V2.SemanticModel

/- Contracts of a function and their fingerprints (`structure/rd_model.rs`, `v2/contracts.rs`).

   The contracts list the loops and the case partitions of the regions as the region map (a
   hash map) is gone through, and the fingerprints print them as they are listed. The order in
   which the map is gone through is a parameter: a list that enumerates it.

   Where there is no switch region, the bundle falls back to the terminators of the semantic
   model, and from there to the branches that compare with constants.

   Correspondence:
     `LoopKind`, `LoopContract`, `ReturnClass`, `CasePartition`, `ContractSet` ↔ the types of
       these names
     `varnode_const` ↔ the same
     `recover_eq_ladder_cases` ↔ `multiwayCases`, `eqConsts`, `recoverEqLadderCases`
     `ContractSet::from_regions`, `fingerprint` ↔ `ContractSet.fromRegions`,
       `ContractSet.fingerprint`
     `LoopContractV2`, `CaseContractV2` ↔ the types of these names
     `ContractBundle` ↔ `StableBundle`
     `exit_class` of `SemanticModel` ↔ `exitClass`
     `ContractBundle::from_semantic`, `fingerprint` ↔ `StableBundle.fromSemantic`,
       `StableBundle.fingerprint`
     `classify_with_adj(ssa, switches, &sem.succ, &sem.pred, true)` ↔ `semanticRegions` -/
namespace Windy.Decompiler

/-! ## Texts -/

/-- `{:?}` of a list of numbers. -/
def debugList (ns : List Int) : String := "[" ++ ", ".intercalate (ns.map toString) ++ "]"

/-- The numbers below, as labels. -/
def indexLabels (n : Nat) : List Int := (List.range n).map Int.ofNat

def sorted (ns : List Int) : List Int := ns.insertionSort (· ≤ ·)

namespace Structure

/-! ## `ContractSet` -/

inductive LoopKind where
  | while
  | doWhile
  deriving DecidableEq, Repr

/-- `{:?}` of the kind. -/
def LoopKind.debug : LoopKind → String
  | .while => "While"
  | .doWhile => "DoWhile"

structure LoopContract where
  header : Nat
  bodyEntry : Nat
  exit : Nat
  kind : LoopKind
  deriving DecidableEq, Repr

structure ReturnClass where
  classTag : String
  hasReturn : Bool
  deriving DecidableEq, Repr

structure CasePartition where
  switchBlock : Nat
  caseValues : List Int
  merge : Nat
  deriving DecidableEq, Repr

structure ContractSet where
  loops : List LoopContract
  returns : Option ReturnClass
  cases : List CasePartition
  deriving DecidableEq, Repr

def varnodeConst (v : Varnode) : Option Int := if v.space = .const then some (Lower.asI64 v.offset) else none

/-- The constant an operation compares with or subtracts, in place of what was found before. -/
def scanOp (found : Option Int) (op : SsaOp) : Option Int :=
  match op.kind with
  | .pcode (.intEq _ left right) | .pcode (.intNotEq _ left right) =>
    ((varnodeConst left).or (varnodeConst right)).or found
  | .pcode (.intSub _ _ right) => (varnodeConst right).or found
  | _ => found

def scanBlock (found : Option Int) (block : SsaBlock) : Option Int := block.ops.foldl scanOp found

/-- The label a branch compares with, in its block or else in the blocks before it. -/
def eqConst (ssa : SsaFunction) (block : SsaBlock) : Option Int :=
  if block.isCbranch then
    (block.predecessorIds.foldl (fun found p => (ssa.blocks[p]?).elim found (scanBlock found))
      (scanBlock none block)).filter fun k => 0 ≤ k ∧ k < 256
  else none

def eqConsts (ssa : SsaFunction) : List (Nat × Int) :=
  ssa.blocks.zipIdx.filterMap fun entry => (eqConst ssa entry.1).map fun k => (entry.2, k)

/-- Indirect branches with several targets. -/
def multiwayCases (ssa : SsaFunction) : List CasePartition :=
  ssa.blocks.zipIdx.filterMap fun entry =>
    if entry.1.isBranchInd ∧ 2 ≤ entry.1.successorIds.length then
      some ⟨entry.2, indexLabels entry.1.successorIds.length, entry.1.successorIds.getLast?.getD entry.2⟩
    else none

/-- Three branches that compare with constants are a ladder, if two constants differ. -/
def eqLadder (ssa : SsaFunction) : List CasePartition :=
  match eqConsts ssa with
  | [] => []
  | first :: rest =>
    let vals := (sorted ((first :: rest).map Prod.snd)).destutter (· ≠ ·)
    if rest.length < 2 ∨ vals.length < 2 then []
    else [⟨first.1, vals, (ssa.blocks.findIdx? SsaBlock.hasReturn).getD first.1⟩]

def recoverEqLadderCases (ssa : SsaFunction) : List CasePartition :=
  if multiwayCases ssa = [] then eqLadder ssa else multiwayCases ssa

def loopContract : Nat × Region → Option LoopContract
  | (b, .while bodyEntry exit) => some ⟨b, bodyEntry, exit, .while⟩
  | (b, .doWhile bodyEntry _ exit) => some ⟨b, bodyEntry, exit, .doWhile⟩
  | _ => none

def casePartition : Nat × Region → Option CasePartition
  | (b, .switch cases merge) => some ⟨b, sorted (cases.map Prod.fst), merge⟩
  | _ => none

/-- What an operation says about the value that is returned. -/
def returnOp (op : SsaOp) : Option String :=
  match op.kind with
  | .pcode (.intXor _ _ _) => some "xor"
  | .pcode (.intAdd _ _ _) => some "add"
  | .pcode (.intMult _ _ _) => some "mul"
  | .pcode (.intSub _ _ _) => some "sub"
  | .pcode (.intSLess _ _ _) | .pcode (.intLess _ _ _) => some "cmp"
  | _ => none

def classTag (returnOps : List String) (hasReturn : Bool) : String :=
  if returnOps.contains "xor" then "xor"
  else if returnOps.contains "cmp" then "arg_select"
  else if returnOps.any fun t => t = "add" || t = "sub" || t = "mul" then "arith"
  else if hasReturn then "return"
  else "none"

/-- The regions come in the order in which their map is gone through. -/
def ContractSet.fromRegions (ssa : SsaFunction) (regions : List (Nat × Region)) : ContractSet :=
  let hasReturn := regions.any (fun entry => entry.2 = .ret) || ssa.blocks.any SsaBlock.hasReturn
  let returnOps := (ssa.blocks.filter SsaBlock.hasReturn).flatMap fun block => block.ops.filterMap returnOp
  let switches := regions.filterMap casePartition
  { loops := regions.filterMap loopContract
    returns := some ⟨classTag returnOps hasReturn, hasReturn⟩
    cases := if switches = [] then recoverEqLadderCases ssa else switches }

def LoopContract.part (l : LoopContract) : String :=
  "L:" ++ l.kind.debug ++ ":" ++ toString l.header ++ ":" ++ toString l.bodyEntry ++ ":" ++ toString l.exit

def CasePartition.part (c : CasePartition) : String := "C:" ++ toString c.switchBlock ++ ":" ++ debugList c.caseValues

def ContractSet.parts (c : ContractSet) : List String :=
  ("loops=" ++ toString c.loops.length) :: c.loops.map LoopContract.part ++
    (c.returns.map fun r => "ret:" ++ r.classTag).toList ++
    ("cases=" ++ toString c.cases.length) :: c.cases.map CasePartition.part

def ContractSet.fingerprint (c : ContractSet) : String := "|".intercalate c.parts

end Structure

namespace V2

open Structure (ContractSet)

/-! ## `ContractBundle` -/

structure LoopContractV2 where
  kind : String
  bodyDepth : Nat
  multiExit : Bool
  deriving DecidableEq, Repr

/-- `ContractBundle`, but for the return exits, which no fingerprint reads. -/
structure StableBundle where
  loops : List LoopContractV2
  cases : List CaseContractV2
  returnClass : String
  hasReturn : Bool

def LoopContractV2.part (l : LoopContractV2) : String :=
  "L:" ++ l.kind ++ ":d" ++ toString l.bodyDepth ++ ":m" ++ toString l.multiExit.toNat

def CaseContractV2.part (c : CaseContractV2) : String :=
  "C:" ++ toString c.caseCount ++ ":def" ++ toString c.hasDefault.toNat ++ ":" ++ debugList c.labels

def StableBundle.parts (c : StableBundle) : List String :=
  ("loops=" ++ toString c.loops.length) :: c.loops.map LoopContractV2.part ++
    ("ret:" ++ c.returnClass) :: ("cases=" ++ toString c.cases.length) :: c.cases.map CaseContractV2.part

def StableBundle.fingerprint (c : StableBundle) : String := "|".intercalate c.parts

def loopContractV2 : Region → Option LoopContractV2
  | .while _ _ => some ⟨"while", 1, false⟩
  | .doWhile _ _ _ => some ⟨"do_while", 1, false⟩
  | _ => none

def caseContractV2 : Region → Option CaseContractV2
  | .switch cases _ => some ⟨cases.length, false, sorted (cases.map Prod.fst), "branch_ind"⟩
  | _ => none

/-- A terminator with several targets. -/
def terminatorCase : Terminator → Option CaseContractV2
  | .switch targets => if 2 ≤ targets.length then some ⟨targets.length, false, indexLabels targets.length, "terminator"⟩ else none
  | _ => none

/-- What the model records of an operation for the class of the returned value. -/
def exitOp (op : SsaOp) : Option String :=
  if isNonsurfaceOp op then none
  else
    match op.kind with
    | .pcode (.intXor _ _ _) => some "xor"
    | .pcode (.intAdd _ _ _) | .pcode (.intSub _ _ _) => some "arith"
    | .pcode (.intSLess _ _ _) | .pcode (.intLess _ _ _) => some "cmp"
    | _ => none

/-- The class of the returned value, over all blocks. -/
def exitClass (ssa : SsaFunction) : String :=
  let returnOps := ssa.blocks.flatMap fun block => block.ops.filterMap exitOp
  if returnOps.contains "xor" then "xor"
  else if returnOps.contains "cmp" then "arg_select"
  else if returnOps.contains "arith" then "arith"
  else if (fromRawPcode ssa).hasReturn then "return"
  else "none"

/-- The first of the cases that are recovered without a switch region. -/
def ladderCase (ssa : SsaFunction) (regions : List (Nat × Region)) : List CaseContractV2 :=
  ((ContractSet.fromRegions ssa regions).cases.head?.map fun c =>
    (⟨c.caseValues.length, false, c.caseValues, "eq_ladder"⟩ : CaseContractV2)).toList

/-- The regions come in the order in which their map is gone through. -/
def StableBundle.fromSemantic (ssa : SsaFunction) (regions : List (Nat × Region)) : StableBundle :=
  let model := fromRawPcode ssa
  let switches := regions.filterMap fun entry => caseContractV2 entry.2
  let terminators := model.terminators.filterMap terminatorCase
  { loops := regions.filterMap fun entry => loopContractV2 entry.2
    cases := if switches ≠ [] then switches else if terminators ≠ [] then terminators else ladderCase ssa regions
    returnClass := exitClass ssa
    hasReturn := model.hasReturn }

/-! ## The regions of the semantic model -/

/-- The graph of the semantic model. -/
def semanticGraph (ssa : SsaFunction) (hclosed : ssa.Closed) : Ssa.Cfg :=
  Ssa.Cfg.ofSuccs (ssa.blocks.map (modelSuccessors ssa))
    (by
      intro js hjs j hj
      obtain ⟨block, hblock, rfl⟩ := List.mem_map.mp hjs
      obtain ⟨s, hs, rfl⟩ := mem_modelSuccessors.mp hj
      rw [List.length_map]
      exact resolveJumpTarget_lt hclosed (hclosed block hblock s hs) 16)

def semanticClassifier (ssa : SsaFunction) (hclosed : ssa.Closed) (switches : List Decompiler.SwitchInfo) : Classifier :=
  ⟨ssa, switches, semanticGraph ssa hclosed, true⟩

/-- The regions over that graph. -/
def semanticRegions (ssa : SsaFunction) (hclosed : ssa.Closed) (switches : List Decompiler.SwitchInfo) : RegionMap :=
  classifyWithAdj (semanticClassifier ssa hclosed switches)

end V2

end Windy.Decompiler
