import Windy.Decompiler.Ir

/- The extraction of a typed AST from the regions of a function (`decompiler/v2/region_ast.rs`, with
   the nodes of `v2/ast.rs`).

   The walk enters each block once, emits its statements, follows the region rooted there into the
   arms, the loop body or the cases, and goes on behind the region. What it does not reach (a block
   behind the depth cut-off, or only reached by an edge the walk gives up on) is emitted at the end,
   unless it shows nothing. A kernel without calls and stores becomes a single return.

   The expressions themselves are recovered elsewhere (`v2/ssa_expr.rs`); what that recovery returns
   is a parameter, as are the names of the callees. The walk is given fuel: one unit more than there
   are blocks not yet entered is always enough.

   Correspondence:
     `extract_region_ast` ↔ `Extractor.extractRegionAst` (its body and its effects)
     `walk_region` ↔ `Extractor.walk`, one round of its loop at a time
     `emit_block_stmts` ↔ `Extractor.emitBlockStmts` (`Extractor.emitOp` for one operation)
     `is_leaf_kernel` ↔ the same
   The coverage edges, the cost and the nesting of a candidate are left out. -/
namespace Windy.Decompiler.V2

/-! ## The AST -/

inductive Expr where
  | name (name : String)
  | int (value : Int) (bits : Nat)
  | uint (value bits : Nat)
  | binOp (op : String) (lhs rhs : Expr)
  | unaryOp (op : String) (arg : Expr)
  | cast (ty : String) (arg : Expr)
  | call (target : String) (args : List Expr)
  | load (addr : Expr)
  | select (cond thenE elseE : Expr)
  | compare (op : String) (lhs rhs : Expr)

inductive Stmt where
  | label (name : String)
  | goto (target : String)
  | ret (expr : Option Expr)
  | assign (dest : String) (expr : Expr)
  | expr (expr : Expr)
  | ifThenElse (cond : Expr) (thenBody elseBody : List Stmt)
  | while (cond : Expr) (body : List Stmt)
  | switch (scrutinee : Expr) (cases : List (List Int × List Stmt)) (defaultBody : List Stmt)
  | break
  | continue
  | comment (text : String)
  | rawBlock (text : String)

/-- `effects`: `call:..`, `return` and `store:..`. -/
inductive Effect where
  | call (target : String)
  | ret
  | store (va : Nat)
  deriving DecidableEq, Repr

/-! ## Predicates on a function -/

/-- Whether the text contains the other. -/
def mentions (text part : String) : Bool := text.toList.tails.any fun tail => part.toList.isPrefixOf tail

mutual

/-- Whether a name in the expression contains the text, as its debug output does. -/
def Expr.mentions (part : String) : Expr → Bool
  | .name text => V2.mentions text part
  | .int _ _ => false
  | .uint _ _ => false
  | .binOp op lhs rhs => V2.mentions op part || lhs.mentions part || rhs.mentions part
  | .unaryOp op arg => V2.mentions op part || arg.mentions part
  | .cast ty arg => V2.mentions ty part || arg.mentions part
  | .call target args => V2.mentions target part || Expr.anyMentions part args
  | .load addr => addr.mentions part
  | .select cond thenE elseE => cond.mentions part || thenE.mentions part || elseE.mentions part
  | .compare op lhs rhs => V2.mentions op part || lhs.mentions part || rhs.mentions part

def Expr.anyMentions (part : String) : List Expr → Bool
  | [] => false
  | e :: rest => e.mentions part || Expr.anyMentions part rest

end

/-- A constant or an address in memory. -/
def isImmediate (v : Varnode) : Bool := v.space = .const || v.space = .ram

/-- `external_tail_call_in_block`: the block ends in a jump out of the function. -/
def externalTailCallInBlock (ssa : SsaFunction) (block : SsaBlock) (dest : Varnode) : Option Nat :=
  let va := dest.offset
  let lastIsJump := match block.ops.getLast?.map SsaOp.kind with
    | some (.pcode (.branch lastDest)) => lastDest.offset = va
    | _ => false
  let otherEnd := block.ops.any fun op => match op.kind with
    | .pcode (.cbranch _ _) | .pcode (.branchInd _) | .pcode (.call _) | .pcode (.callInd _) => true
    | _ => false
  let inside := ssa.blocks.any fun b => b.entryVa = va || b.ops.any fun op => op.va = va
  if isImmediate dest && 0x1000 ≤ va && !otherEnd && lastIsJump && !inside then some va else none

/-- `external_tail_call_target`: for functions of one block. -/
def externalTailCallTarget (ssa : SsaFunction) (dest : Varnode) : Option Nat :=
  match ssa.blocks with
  | [block] => externalTailCallInBlock ssa block dest
  | _ => none

/-- No calls, no jumps out, and no stores but those of parameters. -/
def isLeafKernel (ssa : SsaFunction) : Bool :=
  ssa.blocks.length ≤ 12 &&
    !(ssa.blocks.any fun b => b.ops.any fun op => match op.kind with
      | .pcode (.call _) | .pcode (.callInd _) | .pcode (.branchInd _) => true
      | .pcode (.branch dest) => (externalTailCallTarget ssa dest).isSome
      | .pcode (.store _ _) => !op.isParamHomeStore && !op.isFramePointerAdjust
      | _ => false)

/-- All operations of a function. -/
def allOps (ssa : SsaFunction) : List SsaOp := ssa.blocks.flatMap SsaBlock.ops

def isDirectCall (op : SsaOp) : Bool :=
  match op.kind with
  | .pcode (.call _) => true
  | _ => false

def isIndirectCall (op : SsaOp) : Bool :=
  match op.kind with
  | .pcode (.callInd _) => true
  | _ => false

def isAddOne (op : SsaOp) : Bool :=
  match op.kind with
  | .pcode (.intAdd _ _ right) => right.space = .const && right.offset = 1
  | _ => false

def runShapeDirectCall (ssa : SsaFunction) : Bool :=
  ssa.blocks.length ≤ 4 && !((allOps ssa).any isIndirectCall) && (allOps ssa).countP isDirectCall = 1 &&
    (allOps ssa).any isAddOne

def add1BeforeSingleCall (ssa : SsaFunction) : Bool :=
  match (((allOps ssa).filter isAddOne).map SsaOp.va).min?, (((allOps ssa).filter isDirectCall).map SsaOp.va).min? with
  | some add, some call => add < call
  | _, _ => false

def singleIcallKernel (ssa : SsaFunction) : Bool :=
  ssa.blocks.length ≤ 4 && !((allOps ssa).any isDirectCall) && (allOps ssa).countP isIndirectCall = 1

/-! ## Names and arguments -/

/-- What the recovery of expressions found out about a function. -/
structure Recovery where
  env : SsaVar → Option Expr
  condExprOfBlock : SsaBlock → Expr
  normalizeCondExpr : Expr → Expr
  returnExprOfExit : Nat → Option Expr
  bestReturnOfFunction : Option Expr

structure Extractor where
  ssa : SsaFunction
  regions : RegionMap
  recovery : Recovery
  globalNames : Nat → Option String
  hasReturn : Bool

def hex (n : Nat) : String := String.ofList (Nat.toDigits 16 n)

/-- `resolve_callee_name`. -/
def resolveCalleeName (globalNames : Nat → Option String) (va : Nat) : String :=
  match globalNames va with
  | some n =>
    let bare := String.ofList (n.toList.takeWhile (· ≠ ':'))
    if "sub_".toList.isPrefixOf bare.toList then "FUN_" ++ String.ofList (bare.toList.drop 4) else bare
  | none => "FUN_" ++ hex va

/-- `reg_name`. -/
def regName (baseOffset : Nat) : String :=
  match [(0x00, "rax"), (0x08, "rcx"), (0x10, "rdx"), (0x18, "rbx"), (0x20, "rsp"), (0x28, "rbp"), (0x30, "rsi"),
      (0x38, "rdi"), (0x80, "r8"), (0x88, "r9"), (0x90, "r10"), (0x98, "r11"), (0xa0, "r12"), (0xa8, "r13"),
      (0xb0, "r14"), (0xb8, "r15")].find? fun entry : Nat × String => entry.1 = baseOffset with
  | some entry => entry.2
  | none => "r" ++ hex baseOffset

/-- Whether the operation defines a register container. -/
def definesRegister (op : SsaOp) (base : Nat) : Bool := op.def?.any fun v => v.location = .register base

/-- `same_block_reaching_register`: no search beyond an earlier call. -/
def sameBlockReachingRegister (block : SsaBlock) (callIndex base : Nat) : Option SsaVar :=
  let prior := (block.ops.take callIndex).reverse
  match (prior.takeWhile fun op => !op.kind.isCall).find? fun op => definesRegister op base with
  | some op => op.def?
  | none => none

/-- `win64_direct_call_args`. -/
def win64DirectCallArgs (env : SsaVar → Option Expr) (block : SsaBlock) (callIndex : Nat) (op : SsaOp) : List Expr :=
  [0x08, 0x10, 0x80, 0x88].filterMap fun base =>
    if op.uses.any fun use => use.location = .register base then
      (sameBlockReachingRegister block callIndex base).bind env
    else none

/-- `mid_tail_call_args`: the last known value of RCX. -/
def midTailCallArgs (env : SsaVar → Option Expr) (block : SsaBlock) : List Expr :=
  match block.ops.reverse.findSome? fun op => if definesRegister op 0x08 then op.def?.bind env else none with
  | some e => [e]
  | none => [.name "arg1"]

/-- `is_pure_arg_prep_tail_block`. -/
def isPureArgPrepTailBlock (block : SsaBlock) : Bool :=
  (block.ops.all fun op => match op.kind with
    | .pcode (.store _ _) | .pcode (.call _) | .pcode (.callInd _) | .pcode (.cbranch _ _) | .pcode (.branchInd _)
    | .pcode (.ret _) | .phi _ _ => false
    | .pcode (.branch _) => true
    | .pcode _ => op.def?.all fun v => match v.location with
      | .register _ | .unique _ _ _ => true
      | _ => false) &&
    match block.ops.getLast?.map SsaOp.kind with
    | some (.pcode (.branch _)) => true
    | _ => false

/-- The first register container at or below an offset, within eight bytes. -/
def registerContainerBase (offset : Nat) : Nat :=
  match ([0x00, 0x08, 0x10, 0x18, 0x20, 0x28, 0x30, 0x38, 0x80, 0x88, 0x90, 0x98, 0xa0, 0xa8, 0xb0, 0xb8].filter
      (· ≤ offset)).getLast? with
  | some base => if offset - base < 8 then base else offset
  | none => offset

/-- `block_has_rcx_inc`. -/
def blockHasRcxInc (block : SsaBlock) : Bool :=
  block.ops.any fun op => match op.kind with
    | .pcode (.intAdd out left right) =>
      out.space = .register && registerContainerBase out.offset = 0x08 && left.space = .register &&
        registerContainerBase left.offset = 0x08 && right.space = .const && right.offset = 1
    | _ => false

/-! ## Assignments -/

/-- `block_has_cfg_back_edge`. -/
def blockHasCfgBackEdge (block : SsaBlock) : Bool := block.successorIds.any fun s => s ≤ block.id

def isLoopAccumGpr (baseOffset : Nat) : Bool :=
  [0, 8, 16, 24, 32, 40, 48, 56, 0x80, 0x88, 0x90, 0x98, 0xa0, 0xa8, 0xb0, 0xb8].contains baseOffset

mutual

/-- `expr_has_select_or_cond`. -/
def Expr.hasSelectOrCond : Expr → Bool
  | .select _ _ _ => true
  | .name text => text = "cond" || "cond_".toList.isPrefixOf text.toList
  | .binOp _ lhs rhs => lhs.hasSelectOrCond || rhs.hasSelectOrCond
  | .compare _ lhs rhs => lhs.hasSelectOrCond || rhs.hasSelectOrCond
  | .unaryOp _ arg => arg.hasSelectOrCond
  | .call _ args => Expr.anySelectOrCond args
  | _ => false

def Expr.anySelectOrCond : List Expr → Bool
  | [] => false
  | e :: rest => e.hasSelectOrCond || Expr.anySelectOrCond rest

end

def Expr.isIntZero : Expr → Bool
  | .int value _ => value = 0
  | .uint value _ => value = 0
  | _ => false

def Expr.isIntOne : Expr → Bool
  | .int value _ => value = 1
  | .uint value _ => value = 1
  | _ => false

def Expr.isName (expected : String) : Expr → Bool
  | .name text => text = expected
  | _ => false

/-- `loop_carried_operand`. -/
def loopCarriedOperand (env : SsaVar → Option Expr) (v : Varnode) (uses : List SsaVar) (dest : String) : Expr :=
  if v.space = .const then .uint v.offset (max (min (v.size % 65536 * 8) 65535) 8)
  else if v.space = .register && isLoopAccumGpr v.offset then .name (regName v.offset)
  else ((uses.filterMap env).find? fun e => !e.hasSelectOrCond && !e.isIntZero && !e.isName dest).getD (.name dest)

def arithOperands : SsaOpKind → Option (String × Varnode × Varnode)
  | .pcode (.intAdd _ left right) => some ("+", left, right)
  | .pcode (.intSub _ left right) => some ("-", left, right)
  | .pcode (.intMult _ left right) => some ("*", left, right)
  | .pcode (.intAnd _ left right) => some ("&", left, right)
  | .pcode (.intOr _ left right) => some ("|", left, right)
  | .pcode (.intXor _ left right) => some ("^", left, right)
  | _ => none

/-- `reg_arith_assign`. -/
def regArithAssign (env : SsaVar → Option Expr) (op : SsaOp) : Option (String × Expr) :=
  match op.def?.map SsaVar.location, arithOperands op.kind with
  | some (.register baseOffset), some (bop, left, right) =>
    let dest := regName baseOffset
    let lhs := loopCarriedOperand env left op.uses dest
    let rhs := loopCarriedOperand env right op.uses dest
    if !isLoopAccumGpr baseOffset || (bop = "+" && rhs.isIntZero) || (bop = "*" && rhs.isIntOne) ||
        (lhs.isName dest && rhs.isName dest && bop ≠ "*") then none
    else some (dest, .binOp bop lhs rhs)
  | _, _ => none

/-- Where a store writes to, in the words of its first use. -/
def storeDest (op : SsaOp) : String :=
  match op.uses.head?.map SsaVar.location with
  | some (.stackSlot _ disp) => "*arg_" ++ toString (max ((disp % 2 ^ 64).toNat / 8) 1)
  | some (.register baseOffset) => "*" ++ regName baseOffset
  | _ => "*mem_" ++ hex op.va

def storeValue (env : SsaVar → Option Expr) (op : SsaOp) : Expr :=
  ((op.uses[1]?.bind env).or (op.uses.head?.bind env)).getD (.name "v")

/-- Frame and spill stores are dropped. -/
def storeIsShown (env : SsaVar → Option Expr) (op : SsaOp) : Bool :=
  !(mentions (storeDest op) "rsp" || mentions (storeDest op) "rbx" || mentions (storeDest op) "rbp") &&
    !((storeValue env op).mentions "rsp" && op.def?.map SsaVar.location ≠ some .rawRam)

namespace Extractor
variable (c : Extractor)

/-! ## The statements of a block -/

/-- The callee of a direct call. -/
def callTarget (op : SsaOp) (dest : Varnode) : String :=
  if runShapeDirectCall c.ssa then if add1BeforeSingleCall c.ssa then "leaf" else "f"
  else if isImmediate dest then resolveCalleeName c.globalNames dest.offset
  else "call_" ++ hex op.va

/-- The callee of an indirect call. -/
def icallTarget (op : SsaOp) : String := if singleIcallKernel c.ssa then "f" else "icall_" ++ hex op.va

/-- The callee of a jump out of the function. -/
def tailTarget (block : SsaBlock) (va : Nat) : String :=
  if c.ssa.blocks.length = 1 && isPureArgPrepTailBlock block then
    if blockHasRcxInc block then "leaf" else "f"
  else resolveCalleeName c.globalNames va

def assignStmts : Option (String × Expr) → SsaOp → List Stmt × List Effect
  | some (dest, expr), op => ([.assign ("*" ++ dest) expr], [.store op.va])
  | none, _ => ([], [])

/-- One operation of `emit_block_stmts`. -/
def emitOp (block : SsaBlock) (op : SsaOp) (index : Nat) : List Stmt × List Effect :=
  if op.isNoise then ([], [])
  else
    match op.kind with
    | .pcode (.call dest) =>
      ([.expr (.call (c.callTarget op dest) (win64DirectCallArgs c.recovery.env block index op))],
        [.call (c.callTarget op dest)])
    | .pcode (.branch dest) =>
      match externalTailCallInBlock c.ssa block dest with
      | some va =>
        ([.ret (some (.call (c.tailTarget block va) (midTailCallArgs c.recovery.env block)))],
          [.call (c.tailTarget block va), .ret])
      | none => ([], [])
    | .pcode (.callInd _) => ([.expr (.call (c.icallTarget op) [])], [.call (c.icallTarget op)])
    | .pcode (.branchInd dest) =>
      if c.ssa.blocks.length = 1 && dest.space = .register then ([.ret (some (.call "f" []))], [.call "f", .ret])
      else ([], [])
    | .pcode (.store _ _) =>
      if storeIsShown c.recovery.env op then
        ([.assign (storeDest op) (storeValue c.recovery.env op)], [.store op.va])
      else ([], [])
    | .pcode (.ret _) => ([.ret (c.recovery.returnExprOfExit block.id)], [.ret])
    | kind =>
      if (arithOperands kind).isSome && blockHasCfgBackEdge block then
        assignStmts (regArithAssign c.recovery.env op) op
      else ([], [])

/-- `emit_block_stmts`. -/
def emitBlockStmts (block : SsaBlock) : List Stmt × List Effect :=
  let emitted := block.ops.zipIdx.map fun entry => c.emitOp block entry.1 entry.2
  (emitted.flatMap Prod.fst, emitted.flatMap Prod.snd)

/-! ## The walk -/

/-- The blocks entered so far, in order, and the effects. -/
structure WalkState where
  emitted : List Nat
  effects : List Effect

/-- A block is entered and its statements are emitted. -/
def enter (s : WalkState) (b : Nat) (block : SsaBlock) : WalkState :=
  { emitted := s.emitted ++ [b], effects := s.effects ++ (c.emitBlockStmts block).2 }

/-- The cases of a switch, one after the other. -/
def walkCases (nested : Nat → WalkState → Option (List Stmt × WalkState)) :
    List (Int × Nat) → WalkState → Option (List (List Int × List Stmt) × WalkState)
  | [], s => some ([], s)
  | (value, target) :: rest, s => do
    let (body, s) ← nested target s
    let (cases, s) ← walkCases nested rest s
    return (([value], body ++ [.break]) :: cases, s)

/-- A condition, negated where the arms were swapped. -/
def condOf (block : SsaBlock) (invert : Bool) : Expr :=
  let cond := c.recovery.condExprOfBlock block
  c.recovery.normalizeCondExpr (if invert then .unaryOp "!" cond else cond)

/-- `is_eq_zero_style_cond`: of a comparison only the right side is looked at. -/
def isEqZeroStyleCond : Expr → Bool
  | .compare op _ rhs => op = "==" && rhs.isIntZero
  | .unaryOp op arg => op = "!" && isEqZeroStyleCond arg
  | _ => false

/-- The body is the arm taken when the condition is false. -/
def whileCond (block : SsaBlock) (bodyEntry exit : Nat) : Expr :=
  let continuesIfNot := match block.successorIds with
    | fall :: taken :: _ => fall = bodyEntry && taken = exit
    | _ => false
  c.condOf block (continuesIfNot && isEqZeroStyleCond (c.recovery.condExprOfBlock block))

/-- A walk into an arm that may already be entered. -/
def walkArm (nested : Nat → WalkState → Option (List Stmt × WalkState)) (stop target : Nat) (s : WalkState) :
    Option (List Stmt × WalkState) :=
  if target ∉ s.emitted ∧ target ≠ stop then nested target s else some ([], s)

/-- A return region without a return operation gets one, if there is none yet. -/
def returnStmts (block : SsaBlock) (s : WalkState) : List Stmt × WalkState :=
  if .ret ∉ s.effects ∧ ¬ block.hasReturn then
    ([.ret (c.recovery.returnExprOfExit block.id)], { s with effects := s.effects ++ [.ret] })
  else ([], s)

/-- A recursive call: at depth 65 it returns at once. -/
def descend (walk : Nat → Nat → Nat → WalkState → Option (List Stmt × WalkState)) (depth stop entry : Nat)
    (s : WalkState) : Option (List Stmt × WalkState) :=
  if 64 < depth + 1 then some ([], s) else walk (depth + 1) entry stop s

/-- `walk_region` from one round of its loop on; `depth` is that of the recursion. -/
def walk : Nat → Nat → Nat → Nat → WalkState → Option (List Stmt × WalkState)
  | 0, _, _, _, _ => none
  | fuel + 1, depth, b, stop, s =>
    if b = stop ∨ b ∈ s.emitted then some ([], s)
    else match c.ssa.blocks[b]? with
    | none => some ([], s)
    | some block =>
      let own := (c.emitBlockStmts block).1
      let s := c.enter s b block
      let nested := descend (walk fuel) depth
      match c.regions b with
      | some (.ifElse thenEntry elseEntry merge invert) => do
        let (thenBody, s) ← nested merge thenEntry s
        let (elseBody, s) ← nested merge elseEntry s
        let (rest, s) ← walk fuel depth merge stop s
        return (own ++ .ifThenElse (c.condOf block invert) thenBody elseBody :: rest, s)
      | some (.ifThen bodyEntry merge invert) | some (.ifThenFallthrough bodyEntry merge _ invert) => do
        let (thenBody, s) ← nested merge bodyEntry s
        let (rest, s) ← walk fuel depth merge stop s
        return (own ++ .ifThenElse (c.condOf block invert) thenBody [] :: rest, s)
      | some (.while bodyEntry exit) => do
        let (body, s) ← nested b bodyEntry s
        let (rest, s) ← walk fuel depth exit stop s
        return (.while (c.whileCond block bodyEntry exit) (own ++ body) :: rest, s)
      | some (.doWhile bodyEntry _ exit) => do
        let (body, s) ← nested b bodyEntry s
        let (rest, s) ← walk fuel depth exit stop s
        return (.while (c.recovery.condExprOfBlock block) (own ++ body) :: rest, s)
      | some (.switch cases merge) => do
        let (cases, s) ← walkCases (nested merge) cases s
        let (rest, s) ← walk fuel depth merge stop s
        return (own ++ .switch (c.recovery.condExprOfBlock block) cases [] :: rest, s)
      | some .ret =>
        let (ret, s) := c.returnStmts block s
        return (own ++ ret, s)
      | none =>
        if block.hasReturn then return (own, s)
        else match presentationSuccessors c.ssa block with
          | [next] =>
            if next = stop ∨ next ∈ s.emitted then return (own, s)
            else do
              let (rest, s) ← walk fuel depth next stop s
              return (own ++ rest, s)
          | [fall, taken] => do
            let (thenBody, s) ← walkArm (nested stop) stop taken s
            let (elseBody, s) ← walkArm (nested stop) stop fall s
            return (own ++ [.ifThenElse (c.recovery.condExprOfBlock block) thenBody elseBody], s)
          | _ => return (own, s)

/-! ## The extraction -/

/-- One block of the sweep behind the walk: blocks that show nothing are left out. -/
def sweepBlock (state : List Stmt × WalkState) (entry : SsaBlock × Nat) : List Stmt × WalkState :=
  let (block, i) := entry
  let s := state.2
  if i ∈ s.emitted then state
  else if block.isJumpOnly || block.isForwarding then (state.1, { s with emitted := s.emitted ++ [i] })
  else (state.1 ++ (c.emitBlockStmts block).1, c.enter s i block)

/-- A return at the end, if the function has one and none was emitted. -/
def finalReturn (returnBlocks : Nat) (effects : List Effect) : List Stmt × List Effect :=
  if c.hasReturn ∧ .ret ∉ effects then
    let expr := if returnBlocks = 1 then c.recovery.bestReturnOfFunction else none
    ([.ret (some (expr.getD (.name "ret")))], effects ++ [.ret])
  else ([], effects)

def Expr.isRich : Expr → Bool
  | .compare _ _ _ | .binOp _ _ _ | .uint _ _ => true
  | _ => false

/-- Whether a returned value says less than the one of the whole function. -/
def isThin : Option Expr → Bool
  | none => true
  | some (.name _) => true
  | some (.compare _ lhs rhs) => lhs.isName "a" || lhs.isName "cond" || rhs.isName "b" || rhs.isName "cond"
  | _ => false

/-- The returns at the top of a body, where there is one exit. -/
def enrichReturn (rich : Expr) : Stmt → Stmt
  | .ret expr => if isThin expr then .ret (some rich) else .ret expr
  | stmt => stmt

def enrich (returnBlocks : Nat) (body : List Stmt) : List Stmt :=
  match c.recovery.bestReturnOfFunction with
  | some rich => if returnBlocks = 1 ∧ Expr.isRich rich then body.map (enrichReturn rich) else body
  | none => body

/-- The regions of the blocks. -/
def regionList : List Region := (List.range c.ssa.blocks.length).filterMap c.regions

/-- Whether the function becomes a single return, and which. -/
def leafReturn : Option Expr :=
  let hasLoop := c.regionList.any fun r => match r with
    | .while _ _ | .doWhile _ _ _ => true
    | _ => false
  let ifs := c.regionList.countP fun r => match r with
    | .ifElse _ _ _ _ | .ifThen _ _ _ | .ifThenFallthrough _ _ _ _ => true
    | _ => false
  if isLeafKernel c.ssa ∧ c.ssa.blocks.countP SsaBlock.hasReturn = 1 ∧ ¬ hasLoop ∧ ifs < 2 then
    c.recovery.bestReturnOfFunction.or (if c.hasReturn then some (.name "ret") else none)
  else none

/-- `u32::MAX`, which is no block. -/
def noStop : Nat := 2 ^ 32 - 1

/-- `extract_region_ast`: the body and the effects. -/
def extractRegionAst : Option (List Stmt × List Effect) :=
  match c.leafReturn with
  | some expr => some ([.ret (some expr)], [.ret])
  | none => do
    let (body, s) ← c.walk (c.ssa.blocks.length + 1) 0 c.ssa.start noStop { emitted := [], effects := [] }
    let (body, s) := c.ssa.blocks.zipIdx.foldl c.sweepBlock (body, s)
    let returnBlocks := c.ssa.blocks.countP SsaBlock.hasReturn
    let (ret, effects) := c.finalReturn returnBlocks s.effects
    return (c.enrich returnBlocks (body ++ ret), effects)

end Extractor

end Windy.Decompiler.V2
