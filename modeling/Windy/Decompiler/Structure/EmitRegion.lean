import Mathlib.Data.Finset.Basic
import Windy.Decompiler.Ir

/- The structured emitter (`decompiler/structure/emit_region.rs`): the text of a function, printed
   along its regions.

   The walk enters a block once, prints its statements, and follows the region rooted there. A
   branch pair that computes one short-circuit condition is folded into a single `if`, a self-headed
   loop prints its block inside the braces, an edge to a block that was emitted before becomes
   `break`, `return` or `goto`. Blocks the walk has not emitted are visited at the end, unless they
   have nothing to show.

   The output is a list of lines. A line that `emit_block_statements` prints names the block and the
   operation it prints. How expressions, names and types are rendered is a parameter. The walk is
   given fuel; where the source would index outside of the blocks, the result is `none`.

   `classify_with_adj` (`structure/region.rs`) roots every do-while region at its body entry and
   takes its condition from a block of the function, and the rewrite moves (`structure/rewrite.rs`)
   replace only if-else regions. An emitter carries this.

   Correspondence:
     `structure_emit_core` ↔ `Emitter.structureEmitCore` (`Emitter.sweepBlock` for one
                                    residual block)
     `emit_region` ↔ `Emitter.emitRegion`, one round of its loop `Emitter.round`
     `next_after_merge`, `loop_edge_kw`, `emit_goto_with_reason`, `try_emit_goto_alternative`,
     `emit_unstructured_term`, `ctx_indent_emit_edge`, `emit_block_statements`,
     `while_cond`, `do_while_cond_str`, `switch_val` ↔ the same
     `is_stable_contractible_pure`, `is_cheap_contractible` ↔ `SsaOp.isStableContractiblePure`,
                                    `SsaOp.isCheapContractible`
     `count_uses` ↔ the same -/
namespace Windy.Decompiler

/-! ## Operations the emitter tells apart -/

namespace SsaOp

def isTerminator (op : SsaOp) : Bool :=
  match op.kind with
  | .pcode (.branch _) | .pcode (.cbranch _ _) | .pcode (.branchInd _) | .pcode (.ret _) => true
  | _ => false

def isPhi (op : SsaOp) : Bool :=
  match op.kind with
  | .phi _ _ => true
  | _ => false

def isLoad (op : SsaOp) : Bool :=
  match op.kind with
  | .pcode (.load _ _) => true
  | _ => false

def isStableContractiblePure (op : SsaOp) : Bool :=
  !op.isFramePointerAdjust && op.def?.isSome &&
    match op.kind with
    | .phi _ _ => false
    | .pcode (.store _ _) | .pcode (.load _ _) | .pcode (.branch _) | .pcode (.cbranch _ _)
    | .pcode (.branchInd _) | .pcode (.call _) | .pcode (.callInd _) | .pcode (.ret _)
    | .pcode (.callOther _ _) => false
    | .pcode _ => true

def isCheapContractible (op : SsaOp) : Bool :=
  op.isStableContractiblePure &&
    match op.kind with
    | .pcode (.copy _ _) | .pcode (.cast _ _) => true
    | _ => false

/-- Calls, and the stores that do not save a parameter to its home slot. -/
def isEffect (op : SsaOp) : Bool := op.kind.isCall || (op.isStore && !op.isParamHomeStore)

end SsaOp

/-- How often the variable is used, phi arguments included. -/
def countUses (ssa : SsaFunction) (v : SsaVar) : Nat :=
  ((ssa.blocks.flatMap SsaBlock.ops).map fun op =>
    op.uses.count v + match op.kind with
      | .phi _ args => args.count (some v)
      | _ => 0).sum

def ShortCircuit.text : ShortCircuit → String
  | .and => "&&"
  | .or => "||"

namespace Structure

/-! ## The emitter -/

/-- A line of the output, with the operation that `emit_block_statements` prints there. -/
structure Line where
  text : String
  source : Option (Nat × Nat)
  deriving DecidableEq, Repr

structure LoopFrame where
  header : Nat
  exit : Nat
  deriving DecidableEq, Repr

/-- What the rendering of expressions, names, types and returns gives. -/
structure Rendering where
  header : List String
  inlineExprs : SsaVar → Option String
  renderVarnode : Varnode → List SsaVar → Nat → String
  renderStackPtr : Varnode → List SsaVar → Nat → String
  renderCallTarget : Varnode → List SsaVar → Nat → String
  stackSlotName : Int → String
  callArguments : Nat → Nat → Option (List String)
  renderOpExpr : SsaOp → String
  exprIsBareName : String → Bool
  typedLhs : SsaVar → Nat → String
  simplifyPredicateExpr : String → String
  emitReturn : SsaBlock → Nat → String

structure Emitter where
  ssa : SsaFunction
  regions : RegionMap
  rendering : Rendering
  rooted : ∀ b body cond exit, regions b = some (.doWhile body cond exit) → body = b ∧ cond < ssa.blocks.length

/-- `loopStack` has the innermost loop first. -/
structure EmitState where
  out : List Line
  emitted : Finset Nat
  indent : Nat
  loopStack : List LoopFrame

def ind (n : Nat) : String := String.join (List.replicate n "    ")

def label (va : Nat) : String := "L_0x" ++ String.ofList (Nat.toDigits 16 va)

namespace EmitState

def push (s : EmitState) (text : String) : EmitState := { s with out := s.out ++ [⟨text, none⟩] }

/-- A line at the current indentation. -/
def say (s : EmitState) (text : String) : EmitState := s.push (ind s.indent ++ text ++ "\n")

def mark (s : EmitState) (b : Nat) : EmitState := { s with emitted := insert b s.emitted }

def deeper (s : EmitState) : EmitState := { s with indent := s.indent + 1 }

def back (s : EmitState) : EmitState := { s with indent := s.indent - 1 }

def enterLoop (s : EmitState) (frame : LoopFrame) : EmitState := { s with loopStack := frame :: s.loopStack }

def leaveLoop (s : EmitState) : EmitState := { s with loopStack := s.loopStack.tail }

end EmitState

inductive LoopKw where
  | continue
  | break
  deriving DecidableEq, Repr

def LoopKw.text : LoopKw → String
  | .continue => "continue;"
  | .break => "break;"

/-- `emit_region` as the functions it calls see it. -/
abbrev Walk := EmitState → Nat → Nat → Option EmitState

namespace Emitter

variable (c : Emitter)

/-- The virtual exit. -/
def ve : Nat := c.ssa.blocks.length

def resolve (b : Nat) : Nat := resolveJumpTarget c.ssa b 16

/-! ## Statements -/

/-- A pure value nobody uses. -/
def isDead (op : SsaOp) : Bool :=
  match op.def? with
  | some v => (op.isStableContractiblePure || op.isLoad) && countUses c.ssa v = 0
  | none => false

/-- A value that its uses show. -/
def isInlined (op : SsaOp) : Bool :=
  match op.def? with
  | some v => (c.rendering.inlineExprs v).isSome
  | none => false

/-- The statement for one operation, if it has one. The source renders inlineable
operations and the remaining ones the same way. -/
def statement (blockId indent i : Nat) (op : SsaOp) : Option String :=
  if op.isTerminator then none
  else if op.isStore && op.isParamHomeStore then none
  else if op.isFramePointerAdjust then none
  else if op.isNoiseStackReload then none
  else if op.isPhi then none
  else if c.isDead op then none
  else if c.isInlined op && !(op.isStore || op.kind.isCall) then none
  else
    match op.kind with
    | .pcode (.store ptr val) =>
      let v := c.rendering.renderVarnode val op.uses op.va
      match op.def?.map SsaVar.location with
      | some (.stackSlot _ disp) => some (ind indent ++ c.rendering.stackSlotName disp ++ " = " ++ v ++ ";\n")
      | _ => some (ind indent ++ "*(" ++ c.rendering.renderStackPtr ptr op.uses op.va ++ ") = " ++ v ++ ";\n")
    | .pcode (.call dest) | .pcode (.callInd dest) =>
      let target := c.rendering.renderCallTarget dest op.uses op.va
      match c.rendering.callArguments blockId i with
      | some arguments => some (ind indent ++ target ++ "(" ++ ", ".intercalate arguments ++ ");\n")
      | none => some (ind indent ++ "call(" ++ target ++ ");\n")
    | .phi _ _ => none
    | .pcode _ =>
      match op.def? with
      | none => none
      | some v =>
        if (c.rendering.inlineExprs v).isSome then none
        else
          let expr := c.rendering.renderOpExpr op
          if op.isCheapContractible && c.rendering.exprIsBareName expr then none
          else some (ind indent ++ c.rendering.typedLhs v op.va ++ " = " ++ expr ++ ";\n")

def emitBlockStatements (block : SsaBlock) (indent : Nat) : List Line :=
  block.ops.zipIdx.filterMap fun entry =>
    (c.statement block.id indent entry.2 entry.1).map fun text => ⟨text, some (block.id, entry.2)⟩

def print (s : EmitState) (block : SsaBlock) : EmitState :=
  { s with out := s.out ++ c.emitBlockStatements block s.indent }

def ret (s : EmitState) (block : SsaBlock) : EmitState := s.push (c.rendering.emitReturn block s.indent)

/-! ## Conditions -/

def condOfBlock (block : SsaBlock) : Option String :=
  block.ops.findSome? fun op =>
    match op.kind with
    | .pcode (.cbranch _ cond) =>
      some (c.rendering.simplifyPredicateExpr (c.rendering.renderVarnode cond op.uses op.va))
    | _ => none

def condText (block : SsaBlock) (invert : Bool) : String :=
  let cond := (c.condOfBlock block).getD "/*cond*/"
  if invert then "!(" ++ cond ++ ")" else cond

def whileCond (block : SsaBlock) (bodyEntry : Nat) : String :=
  let cond := (c.condOfBlock block).getD "/*cond*/"
  match block.cbranchArms with
  | some (fall, _) => if fall = bodyEntry then "!(" ++ cond ++ ")" else cond
  | none => cond

def doWhileCondStr (condBlock : SsaBlock) (bodyEntry : Nat) : String :=
  let cond := (c.condOfBlock condBlock).getD "/*cond*/"
  match condBlock.cbranchArms with
  | some (fall, taken) => if fall = bodyEntry ∧ taken ≠ bodyEntry then "!(" ++ cond ++ ")" else cond
  | none => cond

def switchVal (block : SsaBlock) : String :=
  (block.ops.findSome? fun op =>
    match op.kind with
    | .pcode (.branchInd dest) => some (c.rendering.renderVarnode dest op.uses op.va)
    | _ => none).getD "/*switch*/"

/-! ## Edges -/

def nextAfterMerge (merge : Nat) : Option Nat :=
  if merge = c.ve ∨ c.ssa.blocks.length ≤ merge then none else some merge

/-- `continue` or `break`, if the target is the header or the exit of an active loop. -/
def loopEdgeKw (s : EmitState) (target : Nat) : Option LoopKw :=
  s.loopStack.findSome? fun frame =>
    if c.resolve target = frame.header then some .continue
    else if c.resolve target = frame.exit then some .break
    else none

def emitGotoWithReason (s : EmitState) (target : Nat) (reason : String) : EmitState :=
  match c.ssa.blocks[target]? with
  | none => s
  | some block => s.say ("goto " ++ label block.entryVa ++ "; /* " ++ reason ++ " */")

/-- What is printed instead of a `goto`, if anything: a block that returns becomes its
`return`, the root of a region not yet emitted is emitted here. -/
def tryEmitGotoAlternative (go : Walk) (s : EmitState) (target stop : Nat) : Option (Bool × EmitState) :=
  match c.ssa.blocks[target]? with
  | none => some (true, s)
  | some block =>
    if target = stop ∨ target = c.ve then some (true, s)
    else if block.hasReturn then some (true, (c.ret s block).mark target)
    else if target ∉ s.emitted ∧ (c.regions target).isSome then (go s target stop).map (true, ·)
    else some (false, s)

/-- A `goto` with its reason, unless there is an alternative. -/
def emitGoto (go : Walk) (s : EmitState) (target stop : Nat) (reason : String) : Option EmitState :=
  (c.tryEmitGotoAlternative go s target stop).map fun result =>
    if result.1 then result.2 else c.emitGotoWithReason result.2 target reason

/-- An edge to the header of a loop at the end of its body needs no word. -/
def sayKw (s : EmitState) : LoopKw → EmitState
  | .continue => s
  | .break => s.say LoopKw.break.text

/-- One arm of a branch without a region. -/
def ctxIndentEmitEdge (go : Walk) (s : EmitState) (edge stop : Nat) : Option EmitState :=
  let target := c.resolve edge
  if target = stop ∨ target = c.ve then some s
  else
    match c.loopEdgeKw s target with
    | some kw => some { sayKw s.deeper kw with indent := s.indent }
    | none =>
      if target ∈ s.emitted then
        match c.ssa.blocks[target]? with
        | none => none
        | some block => some (s.push (ind (s.indent + 1) ++ "goto " ++ label block.entryVa ++ "; /* arm_rejoin */\n"))
      else
        match c.tryEmitGotoAlternative go s.deeper target stop with
        | none => none
        | some (true, s') => some { s' with indent := s.indent }
        | some (false, s') =>
          match c.ssa.blocks[target]? with
          | none => none
          | some block =>
            -- a linear block is printed in the arm, any other is left for later
            if block.successorIds.length ≤ 1 ∧ ¬ block.isCbranch then
              let s₁ := (c.print s' block).mark target
              let s₂ := match block.successorIds.head?.bind fun next => c.loopEdgeKw s₁ (c.resolve next) with
                | some kw => sayKw s₁ kw
                | none => s₁
              some { s₂ with indent := s.indent }
            else some { s' with indent := s.indent }

/-- One way out of a block with more than two. -/
def emitWay (go : Walk) (stop : Nat) (s : EmitState) (target : Nat) : Option EmitState :=
  if target = stop ∨ c.ssa.blocks.length ≤ target then some s
  else
    match c.loopEdgeKw s target with
    | some kw => some (s.say kw.text)
    | none => c.emitGoto go s target stop "multiway_residual"

/-- A block without a region: the state, and the block to go on with. -/
def emitUnstructuredTerm (go : Walk) (s : EmitState) (block : SsaBlock) (stop : Nat) :
    Option (EmitState × Option Nat) :=
  if block.hasReturn then some (c.ret s block, none)
  else
    match presentationSuccessors c.ssa block with
    | [] => some (s, none)
    | [next] =>
      if next = stop ∨ next = c.ve then some (s, none)
      else
        match c.loopEdgeKw s next with
        | some kw => some (sayKw s kw, none)
        | none =>
          if next ∈ s.emitted then (c.emitGoto go s next stop "single_succ_rejoin").map (·, none)
          else some (s, some next)
    | [fall, taken] => do
      let cond := c.rendering.simplifyPredicateExpr ((c.condOfBlock block).getD "/*cond*/")
      let s₁ ← c.ctxIndentEmitEdge go (s.say ("if (" ++ cond ++ ") \x7b")) taken stop
      let s₂ ← c.ctxIndentEmitEdge go (s₁.say "\x7d else \x7b") fall stop
      let s₃ := s₂.say "\x7d"
      if fall = taken then
        if fall ≠ stop ∧ fall ≠ c.ve ∧ fall ∉ s₃.emitted then pure (s₃, some fall) else pure (s₃, none)
      else if (c.loopEdgeKw s₃ fall).isSome ∧ (c.loopEdgeKw s₃ taken).isNone ∧ taken ∉ s₃.emitted then
        pure (s₃, some taken)
      else if (c.loopEdgeKw s₃ taken).isSome ∧ (c.loopEdgeKw s₃ fall).isNone ∧ fall ∉ s₃.emitted then
        pure (s₃, some fall)
      else pure (s₃, none)
    | ways => (ways.foldlM (c.emitWay go stop) s).map (·, none)

/-! ## Regions -/

/-- An arm of a region, empty if it starts at the merge. -/
def emitArm (go : Walk) (s : EmitState) (entry merge : Nat) : Option EmitState :=
  if entry = merge then some s else go s entry merge

/-- One case of a switch. -/
def emitCase (go : Walk) (merge : Nat) (s : EmitState) (entry : Int × Nat) : Option EmitState :=
  let s₁ := (s.say ("case " ++ toString entry.1 ++ ":")).deeper
  let target := c.resolve entry.2
  let body : Option EmitState :=
    if target ≠ merge ∧ target ∉ s₁.emitted then go s₁ target merge
    else if target ∈ s₁.emitted then
      match c.loopEdgeKw s₁ target with
      | some kw => some (sayKw s₁ kw)
      | none => c.emitGoto go s₁ target merge "shared_case_body"
    else some s₁
  body.map fun s₂ => (s₂.say "break;").back

/-- Whether the statements of the block are printed inside the loop it heads. -/
def defers (b : Nat) : Bool :=
  match c.regions b with
  | some (.doWhile body _ _) => body = b
  | some (.while body _) => body = b
  | _ => false

/-- The region rooted at an entered block. -/
def emitShape (go : Walk) (s : EmitState) (b : Nat) (block : SsaBlock) (stop : Nat) :
    Option (EmitState × Option Nat) :=
  match c.regions b with
  | some .ret => some (c.ret s block, none)
  | some (.ifElse thenEntry elseEntry merge invert) => do
    let s₁ ← emitArm go (s.say ("if (" ++ c.condText block invert ++ ") \x7b")).deeper thenEntry merge
    let s₂ ← emitArm go (s₁.back.say "\x7d else \x7b").deeper elseEntry merge
    pure (s₂.back.say "\x7d", c.nextAfterMerge merge)
  | some (.ifThenFallthrough thenEntry contEntry merge invert) => do
    let s₁ ← emitArm go (s.say ("if (" ++ c.condText block invert ++ ") \x7b")).deeper thenEntry merge
    let s₂ := s₁.back.say "\x7d"
    let s₃ ← if contEntry ∈ s₂.emitted then some s₂ else emitArm go s₂ contEntry merge
    pure (s₃, c.nextAfterMerge merge)
  | some (.ifThen bodyEntry merge invert) => do
    let s₁ ← emitArm go (s.say ("if (" ++ c.condText block invert ++ ") \x7b")).deeper bodyEntry merge
    pure (s₁.back.say "\x7d", c.nextAfterMerge merge)
  | some (.while bodyEntry exit) => do
    let s₁ := (s.say ("while (" ++ c.whileCond block bodyEntry ++ ") \x7b")).deeper.enterLoop ⟨b, exit⟩
    let s₂ ← if bodyEntry = b then some (c.print s₁ block) else go s₁ bodyEntry b
    pure (s₂.leaveLoop.back.say "\x7d", c.nextAfterMerge exit)
  | some (.doWhile bodyEntry condBlock exit) => do
    let cond ← c.ssa.blocks[condBlock]?
    let text := c.doWhileCondStr cond bodyEntry
    if bodyEntry = b ∨ bodyEntry = condBlock then
      let body ← c.ssa.blocks[bodyEntry]?
      let s₁ := (s.say ("while (" ++ text ++ ") \x7b")).deeper.enterLoop ⟨bodyEntry, exit⟩
      let s₂ := ((c.print s₁ body).mark bodyEntry).mark condBlock
      pure (s₂.leaveLoop.back.say "\x7d", c.nextAfterMerge exit)
    else do
      let s₁ := (s.say "do \x7b").deeper.enterLoop ⟨bodyEntry, exit⟩
      let s₂ ← go s₁ bodyEntry condBlock
      pure ((s₂.mark condBlock).leaveLoop.back.say ("\x7d while (" ++ text ++ ");"), c.nextAfterMerge exit)
  | some (.switch cases merge) => do
    let s₁ ← cases.foldlM (c.emitCase go merge) (s.say ("switch (" ++ c.switchVal block ++ ") \x7b"))
    pure (s₁.say "\x7d", c.nextAfterMerge merge)
  | none => c.emitUnstructuredTerm go s block stop

/-- The merge of the region that a folded condition roots. -/
def foldedMerge (b target : Nat) : Nat :=
  match c.regions b with
  | some (.ifElse _ _ merge _) | some (.ifThen _ merge _) | some (.ifThenFallthrough _ _ merge _) => merge
  | _ => target

/-- The pair of branches that are one condition: the first condition, the operator, the
second block and the target behind both. -/
def shortCircuit (block : SsaBlock) : Option (String × ShortCircuit × Nat × Nat) := do
  let (op, second, _, target) ← detectShortCircuit c.ssa block
  let cond ← c.condOfBlock block
  pure (cond, op, second, target)

/-- The condition of a folded pair. -/
def foldedText (cond : String) (op : ShortCircuit) (second : Nat) : String :=
  cond ++ " " ++ op.text ++ " " ++ ((c.ssa.blocks[second]?).bind c.condOfBlock).getD "/*c2*/"

/-- A folded pair of branches. -/
def emitFolded (go : Walk) (s : EmitState) (b : Nat) (folded : String × ShortCircuit × Nat × Nat) :
    Option (EmitState × Option Nat) := do
  let (cond, op, second, target) := folded
  let s₁ := ((s.say ("if (" ++ c.foldedText cond op second ++ ") \x7b")).mark second).deeper
  let merge := c.foldedMerge b target
  let s₂ ← if target ∉ s₁.emitted ∧ target ≠ merge then go s₁ target merge else some s₁
  pure (s₂.back.say "\x7d", c.nextAfterMerge merge)

/-- An edge to a block that was emitted before. -/
def emitRejoin (go : Walk) (s : EmitState) (b stop : Nat) : Option EmitState :=
  let target := c.resolve b
  match (c.loopEdgeKw s target).or (c.loopEdgeKw s b) with
  | some kw => some (sayKw s kw)
  | none => c.emitGoto go s target stop "join_already_emitted"

/-- The label of a block outside of loops, and the mark that it was entered. -/
def enter (s : EmitState) (b : Nat) (block : SsaBlock) : EmitState :=
  let s₁ := if s.loopStack.isEmpty ∧ 1 < block.predecessorIds.length then s.say (label block.entryVa ++ ":") else s
  s₁.mark b

/-- An entered block: its statements are printed, unless they belong inside of the loop it
heads. -/
def visit (s : EmitState) (b : Nat) (block : SsaBlock) : EmitState :=
  if c.defers b then enter s b block else c.print (enter s b block) block

/-- One round of the loop of `emit_region`: the state, and the block to go on with. -/
def round (go : Walk) (s : EmitState) (b stop : Nat) : Option (EmitState × Option Nat) :=
  if b = stop ∨ b = c.ve then some (s, none)
  else
    match c.ssa.blocks[b]? with
    | none => some (s, none)
    | some block =>
      if s.loopStack.head?.any fun frame => frame.exit = b then some (s.say LoopKw.break.text, none)
      else if b ∈ s.emitted then (c.emitRejoin go s b stop).map (·, none)
      else
        match c.shortCircuit block with
        | some folded => c.emitFolded go (c.visit s b block) b folded
        | none => c.emitShape go (c.visit s b block) b block stop

def emitRegion : Nat → Walk
  | 0, _, _, _ => none
  | fuel + 1, s, b, stop =>
    match c.round (emitRegion fuel) s b stop with
    | none => none
    | some (s', none) => some s'
    | some (s', some next) => emitRegion fuel s' next stop

/-! ## The function -/

def emitFlatBlock (s : EmitState) (b : Nat) : Option EmitState :=
  if b ∈ s.emitted then some s else c.emitRegion (2 * c.ssa.blocks.length + 2) s b c.ve

def hasSurface (block : SsaBlock) : Bool := block.ops.any fun op => !op.isTerminator && !op.isPhi && !op.isNoise

/-- A block the walk has left. -/
def sweepBlock (s : EmitState) (b : Nat) : Option EmitState :=
  if b ∈ s.emitted then some s
  else
    match c.ssa.blocks[b]? with
    | none => none
    | some block =>
      if block.isJumpOnly then some (s.mark b)
      else if block.isForwarding then some (s.mark b)
      else if hasSurface block then c.emitFlatBlock s b
      else some (s.mark b)

/-- The state before the walk: the signature and the aggregates are printed. -/
def opened : EmitState where
  out := c.rendering.header.map fun text => ⟨text, none⟩
  emitted := ∅
  indent := 1
  loopStack := []

/-- The walk from the entry of the function. -/
def emitWalk : Option EmitState :=
  if c.ssa.blocks.isEmpty then some c.opened
  else c.emitRegion (2 * c.ssa.blocks.length + 2) c.opened c.ssa.start c.ve

/-- The lines of the function. -/
def emitLines : Option (List Line) := do
  let s₁ ← c.emitWalk
  let s₂ ← (List.range c.ssa.blocks.length).foldlM c.sweepBlock s₁
  pure (s₂.push "\x7d\n").out

def structureEmitCore : Option String := c.emitLines.map fun lines => String.join (lines.map Line.text)

end Emitter

end Structure

end Windy.Decompiler
