import Mathlib

/- Functions in SSA form as the structuring passes read them (`decompiler/ssa/mod.rs`),
   with the predicates on operations and blocks they share (`decompiler/normalize/mod.rs`,
   `structure/cfg_norm.rs`) and the regions of a function (`structure/region.rs`).

   An operation is a phi or a p-code operation with the variable it defines and those it
   uses. A block's number is its position. Only the p-code operations that one of these
   passes tells apart have a constructor of their own.

   A call defines no stack slot: what an operation other than a store defines is its
   output varnode, which lies in the register or the unique space (`ssa/lower.rs`,
   `resolve_op` and `value_location`). An operation carries this.

   Correspondence:
     `SsaFunction`, `SsaBlock`, `SsaOp`, `SsaOpKind`, `Location` ↔ the types of these names
     `is_param_home_store`, `is_frame_pointer_adjust`, `is_noise_stack_reload` ↔
       `SsaOp.isParamHomeStore`, `SsaOp.isFramePointerAdjust`, `SsaOp.isNoiseStackReload`
     `is_forwarding_block`, `is_jump_only`, `resolve_jump_target` ↔
       `SsaBlock.isForwarding`, `SsaBlock.isJumpOnly`, `resolveJumpTarget`
     `cbranch_arms`, `detect_short_circuit` ↔ the same
     `HashMap<u32, Region>` ↔ `RegionMap` -/
namespace Windy.Decompiler

/-! ## Operations -/

inductive AddressSpaceId where
  | const
  | ram
  | register
  | unique
  deriving DecidableEq, Repr

structure Varnode where
  space : AddressSpaceId
  offset : Nat
  size : Nat
  deriving DecidableEq, Repr

inductive PcodeOp where
  | copy (out input : Varnode)
  | load (out ptr : Varnode)
  | store (ptr val : Varnode)
  | branch (dest : Varnode)
  | cbranch (dest cond : Varnode)
  | branchInd (dest : Varnode)
  | call (dest : Varnode)
  | callInd (dest : Varnode)
  | ret (dest : Varnode)
  | intAdd (out left right : Varnode)
  | intSub (out left right : Varnode)
  | intMult (out left right : Varnode)
  | intAnd (out left right : Varnode)
  | intOr (out left right : Varnode)
  | intXor (out left right : Varnode)
  | intEq (out left right : Varnode)
  | intNotEq (out left right : Varnode)
  | intLess (out left right : Varnode)
  | intSLess (out left right : Varnode)
  /-- `IntZext`, `IntSext`, `Subpiece`, `IntNeg`, `IntNot` and `BoolNot`. -/
  | cast (out input : Varnode)
  | callOther (out : Option Varnode) (reads : List Varnode)
  | other (out : Option Varnode) (reads : List Varnode)
  deriving DecidableEq, Repr

inductive Location where
  | register (baseOffset : Nat)
  | stackSlot (baseReg : Nat) (disp : Int)
  | unique (instructionVa offset size : Nat)
  | rawRam
  deriving DecidableEq, Repr

def Location.isSlot : Location → Bool
  | .stackSlot _ _ => true
  | _ => false

structure SsaVar where
  location : Location
  version : Nat
  deriving DecidableEq, Repr

inductive SsaOpKind where
  | phi (out : SsaVar) (args : List (Option SsaVar))
  | pcode (op : PcodeOp)
  deriving DecidableEq, Repr

/-- `Call` and `CallInd`. -/
def SsaOpKind.isCall : SsaOpKind → Bool
  | .pcode (.call _) | .pcode (.callInd _) => true
  | _ => false

structure SsaOp where
  va : Nat
  kind : SsaOpKind
  def? : Option SsaVar
  uses : List SsaVar
  call_def : kind.isCall → ∀ v, def? = some v → v.location.isSlot = false

structure SsaBlock where
  id : Nat
  entryVa : Nat
  ops : List SsaOp
  predecessorIds : List Nat
  successorIds : List Nat

structure SsaFunction where
  entryVa : Nat
  bitness : Nat
  blocks : List SsaBlock
  imageBase : Nat
  id_eq : ∀ i (b : SsaBlock), blocks[i]? = some b → b.id = i

namespace SsaOp

def isStore (op : SsaOp) : Bool :=
  match op.kind with
  | .pcode (.store _ _) => true
  | _ => false

def isReturn (op : SsaOp) : Bool :=
  match op.kind with
  | .pcode (.ret _) => true
  | _ => false

def isCbranch (op : SsaOp) : Bool :=
  match op.kind with
  | .pcode (.cbranch _ _) => true
  | _ => false

/-- Phis and the operations that end a block. -/
def isControl (op : SsaOp) : Bool :=
  match op.kind with
  | .phi _ _ | .pcode (.branch _) | .pcode (.cbranch _ _) | .pcode (.branchInd _) | .pcode (.ret _) => true
  | _ => false

/-! ## Operations that are not shown -/

/-- The home slots of the first four parameters. -/
def isWin64HomeDisp (disp : Int) : Bool := disp = 0x8 || disp = 0x10 || disp = 0x18 || disp = 0x20

/-- RCX, RDX, R8 and R9. -/
def gprParamRank (baseOffset : Nat) : Option Nat :=
  if baseOffset = 0x08 then some 0
  else if baseOffset = 0x10 then some 1
  else if baseOffset = 0x80 then some 2
  else if baseOffset = 0x88 then some 3
  else none

/-- The source asks for the slot and the register, not for a store. -/
def isParamHomeStore (op : SsaOp) : Bool :=
  match op.def?.map SsaVar.location, op.uses.head?.map SsaVar.location with
  | some (.stackSlot _ disp), some (.register baseOffset) =>
    isWin64HomeDisp disp && (gprParamRank baseOffset).isSome
  | _, _ => false

/-- RSP and RBP. -/
def isFrameRegister (offset : Nat) : Bool := offset = 0x20 || offset = 0x28

def definesFrameRegister (op : SsaOp) : Bool :=
  match op.def?.map SsaVar.location with
  | some (.register baseOffset) => isFrameRegister baseOffset
  | _ => false

def isFrameVarnode (v : Varnode) : Bool := v.space = .register && isFrameRegister v.offset

def isFramePointerAdjust (op : SsaOp) : Bool :=
  match op.kind with
  | .pcode (.intAdd _ left right) | .pcode (.intSub _ left right) =>
    op.definesFrameRegister && (isFrameVarnode left || isFrameVarnode right)
  | .pcode (.copy _ input) => isFrameVarnode input && op.definesFrameRegister
  | _ => false

def isNoiseStackReload (op : SsaOp) : Bool :=
  match op.kind with
  | .pcode (.load _ _) =>
    match op.uses.head?.map SsaVar.location with
    | some (.stackSlot _ disp) => disp = 0
    | some (.register baseOffset) => isFrameRegister baseOffset
    | _ => false
  | _ => false

/-- What the structuring passes leave out of a block. -/
def isNoise (op : SsaOp) : Bool := op.isFramePointerAdjust || op.isParamHomeStore || op.isNoiseStackReload

theorem not_isNoise_of_isCall {op : SsaOp} (h : op.kind.isCall) : op.isNoise = false := by
  have hhome : op.isParamHomeStore = false := by
    unfold isParamHomeStore
    split
    · rename_i base disp offset hdef _
      obtain ⟨v, hv, hloc⟩ := Option.map_eq_some_iff.mp hdef
      have hslot := op.call_def h v hv
      rw [hloc] at hslot
      cases hslot
    · rfl
  unfold isNoise
  rw [hhome]
  unfold SsaOpKind.isCall at h
  split at h
  · rename_i hkind
    simp [isFramePointerAdjust, isNoiseStackReload, hkind]
  · rename_i hkind
    simp [isFramePointerAdjust, isNoiseStackReload, hkind]
  · cases h

theorem not_isControl_of_isCall {op : SsaOp} (h : op.kind.isCall) : op.isControl = false := by
  unfold SsaOpKind.isCall at h
  split at h
  · rename_i hkind
    simp [isControl, hkind]
  · rename_i hkind
    simp [isControl, hkind]
  · cases h

end SsaOp

/-! ## Blocks -/

namespace SsaBlock

def hasReturn (block : SsaBlock) : Bool := block.ops.any SsaOp.isReturn

def isCbranch (block : SsaBlock) : Bool := block.ops.any SsaOp.isCbranch

def isForwarding (block : SsaBlock) : Bool := block.ops.all fun op => op.isControl || op.isNoise

/-- A single successor, and no operation that branches, returns, calls or stores. -/
def isJumpOnly (block : SsaBlock) : Bool :=
  block.successorIds.length = 1 && !block.hasReturn &&
    !(block.ops.any fun op => match op.kind with
      | .pcode (.cbranch _ _) | .pcode (.branchInd _) | .pcode (.call _) | .pcode (.callInd _)
      | .pcode (.store _ _) => true
      | _ => false) &&
    block.isForwarding

/-- The successors if the condition is false and if it is true. -/
def cbranchArms (block : SsaBlock) : Option (Nat × Nat) :=
  if block.isCbranch then
    match block.successorIds with
    | fall :: taken :: _ => some (fall, taken)
    | [only] => some (only, only)
    | [] => none
  else none

end SsaBlock

/-- `resolve_jump_target`: follows blocks that only jump, for a bounded number of steps. -/
def resolveJumpTarget (ssa : SsaFunction) : Nat → Nat → Nat
  | b, 0 => b
  | b, limit + 1 =>
    match ssa.blocks[b]? with
    | none => b
    | some block =>
      if block.isJumpOnly then
        match block.successorIds.head? with
        | none => b
        | some next => if next = b then b else resolveJumpTarget ssa next limit
      else b

/-- Where every successor is a block, jumps lead to blocks. -/
theorem resolveJumpTarget_lt {ssa : SsaFunction}
    (hvalid : ∀ block ∈ ssa.blocks, ∀ s ∈ block.successorIds, s < ssa.blocks.length) {b : Nat}
    (hb : b < ssa.blocks.length) (limit : Nat) : resolveJumpTarget ssa b limit < ssa.blocks.length := by
  induction limit generalizing b with
  | zero => exact hb
  | succ limit ih =>
    unfold resolveJumpTarget
    split
    · exact hb
    · rename_i block hblock
      split
      · split
        · exact hb
        · rename_i next hnext
          split
          · exact hb
          · exact ih (hvalid block (List.mem_of_getElem? hblock) next (List.mem_of_mem_head? hnext))
      · exact hb

/-- The successors of a block behind those that only jump. -/
def presentationSuccessors (ssa : SsaFunction) (block : SsaBlock) : List Nat :=
  block.successorIds.map fun s => resolveJumpTarget ssa s 16

/-- The block a walk starts at. -/
def SsaFunction.start (ssa : SsaFunction) : Nat :=
  (ssa.blocks.findIdx? fun b => b.entryVa = ssa.entryVa).getD 0

/-! ## Regions -/

inductive Region where
  | ifElse (thenEntry elseEntry merge : Nat) (invert : Bool)
  | ifThen (bodyEntry merge : Nat) (invert : Bool)
  | ifThenFallthrough (thenEntry contEntry merge : Nat) (invert : Bool)
  | while (bodyEntry exit : Nat)
  | doWhile (bodyEntry condBlock exit : Nat)
  | switch (cases : List (Int × Nat)) (merge : Nat)
  | ret
  deriving DecidableEq, Repr

abbrev RegionMap := Nat → Option Region

inductive ShortCircuit where
  | and
  | or
  deriving DecidableEq, Repr

/-- `detect_short_circuit`: the operator, the second block, and the targets that both
share and that the second reaches alone. -/
def detectShortCircuit (ssa : SsaFunction) (b1 : SsaBlock) : Option (ShortCircuit × Nat × Nat × Nat) :=
  match b1.cbranchArms with
  | none => none
  | some (f1, t1) =>
    let second (b : Nat) : Option (Nat × Nat) :=
      if b = b1.id then none else (ssa.blocks[b]?).bind SsaBlock.cbranchArms
    let viaFall : Option (ShortCircuit × Nat × Nat × Nat) :=
      match second f1 with
      | some (f2, t2) => if t1 = t2 ∧ f1 ≠ t1 ∧ f2 ≠ b1.id then some (.and, f1, t1, f2) else none
      | none => none
    let viaTaken : Option (ShortCircuit × Nat × Nat × Nat) :=
      match second t1 with
      | some (f2, t2) => if f1 = f2 ∧ t1 ≠ f1 ∧ t2 ≠ b1.id then some (.or, t1, f1, t2) else none
      | none => none
    viaFall.or viaTaken

end Windy.Decompiler
