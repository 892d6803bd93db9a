import Mathlib.Logic.Function.Basic
import Windy.Analysis.Functions
import Windy.Lib.Machine

/- The discovery of functions (`discover_functions_with_entry_hints` in `analysis/functions.rs`).

   From every seed the code is followed: a block is decoded up to the first instruction that does
   not simply go on, the addresses its last instruction leads to are claimed for the function and
   queued, and the target of a call becomes the entry of a function of its own. An address is
   claimed once, by the function that comes first. After the seeds two passes add entries: code
   behind padding, and filters that compare with the code of an access violation; a filter found
   inside a function is cut out of it.

   The run is a machine. Its state holds the claims, the finished functions, the function being
   discovered with the blocks decoded so far, and the pass. One step takes the next block from the
   queue, finishes the function when there is none, takes the next entry from the worklist when
   there is no function, and starts the next pass when there is no entry.

   The machine takes only so many steps (`stepsLeft`), which is what `discover` runs it for; that it
   has come to its end by then is shown with its invariants.

   Correspondence:
     `discover_functions_with_entry_hints` ↔ `discover`
     `run` and the loops over `worklist` ↔ `step` (`visitFunction` for one entry)
     `discover_function` ↔ `visitFunction`, `visitBlock` for one round, `finish`
     `decode_block` ↔ `decodeBlock`: `walk` for its loop up to the last instruction,
       `flowEdges` for the cases of that instruction
     `claim_or_queue_block`, `function_entries.insert` with the push ↔
       `Claims.claimOrQueueBlock`, `Claims.seedFunction`
     `compute_predecessors` ↔ `withPredecessors`
     `seed_int3_gap_leaves`, `seed_access_violation_filter_leaves` ↔ the definitions of
       these names (`carve` for the loop that reclaims) -/
namespace Windy.Discovery

/-- The arguments of `discover_functions_with_entry_hints`. -/
structure Input where
  code : CodeIndex
  space : AddressSpace
  seeds : List Nat
  entryHints : List Nat

/-- `function_entries`, `block_owners`, and the two queues. -/
structure Claims where
  functionEntries : Nat → Bool
  blockOwners : Nat → Option Nat
  blockQueue : List Nat
  worklist : List Nat

/-- The function being discovered: its entry and its blocks, in the order of their starts. -/
structure Task where
  entry : Nat
  blocks : List BasicBlock

inductive Stage where
  | seeds
  | gaps
  | filters
  deriving DecidableEq, Repr

structure State where
  claims : Claims
  functions : FunctionTable
  task : Option Task
  stage : Stage

abbrev blockAt (blocks : List BasicBlock) (va : Nat) : Option BasicBlock := KeyedList.get BasicBlock.entryVa va blocks

namespace Claims

/-- `claim_or_queue_block`: only an address without an owner. -/
def claimOrQueueBlock (c : Claims) (va functionEntry : Nat) : Claims :=
  if c.blockOwners va = none then
    { c with blockOwners := Function.update c.blockOwners va (some functionEntry), blockQueue := c.blockQueue ++ [va] }
  else c

/-- `if self.function_entries.insert(va) { worklist.push_back(va) }`. -/
def seedFunction (c : Claims) (va : Nat) : Claims :=
  if c.functionEntries va then c
  else { c with functionEntries := Function.update c.functionEntries va true, worklist := c.worklist ++ [va] }

/-- The owner of an address that has none yet. -/
def own (c : Claims) (va functionEntry : Nat) : Claims :=
  if c.blockOwners va = none then { c with blockOwners := Function.update c.blockOwners va (some functionEntry) } else c

end Claims

section Machine
variable (inp : Input)

def isHardFunctionEntry (va : Nat) : Bool := inp.entryHints.contains va

def isExecutableTarget (va : Nat) : Bool := va ≠ 0 && inp.space.isExecutableVa va

def isOwnedByOther (c : Claims) (va functionEntry : Nat) : Bool := (c.blockOwners va).any fun owner => owner ≠ functionEntry

/-! ## Blocks -/

/-- Why a walk through a block has ended. -/
inductive WalkEnd where
  | undecoded
  | hardEntry (va : Nat)
  | foreign (va : Nat)
  | ownBlock (va : Nat)
  | terminator (d : DecodedInstr)

/-- The loop of `decode_block`, up to the instruction that ends the block. -/
def walk (c : Claims) (t : Task) (start : Nat) : Nat → Nat → List DecodedInstr × WalkEnd
  | 0, _ => ([], .undecoded)
  | fuel + 1, va =>
    match inp.code.atVa va with
    | none => ([], .undecoded)
    | some d =>
      if va ≠ start && isHardFunctionEntry inp va && va ≠ t.entry then ([], .hardEntry va)
      else if isOwnedByOther c va t.entry then ([], .foreign va)
      else if va ≠ start && (blockAt t.blocks va).isSome then ([], .ownBlock va)
      else if d.flowControl = .next then
        let rest := walk c t start fuel d.nextIp
        (d :: rest.1, rest.2)
      else ([d], .terminator d)

/-- An edge to an address behind or beside the block: a trusted entry of another function
is a boundary, anything else is claimed. -/
def branchTo (c : Claims) (functionEntry va : Nat) (kind : EdgeKind) : Claims × List Edge :=
  if isExecutableTarget inp va then
    if isHardFunctionEntry inp va && va ≠ functionEntry then (c, [⟨va, .tailCall⟩])
    else (c.claimOrQueueBlock va functionEntry, [⟨va, kind⟩])
  else (c, [])

/-- What the last instruction of a block claims, and its edges. -/
def flowEdges (c : Claims) (functionEntry : Nat) (d : DecodedInstr) : Claims × List Edge :=
  match d.flowControl with
  | .next => (c, [])
  | .unconditionalBranch =>
    let target := d.nearBranchTarget
    if isExecutableTarget inp target then
      -- A jump backwards past the entry is taken for a tail call.
      if (c.functionEntries target && target ≠ functionEntry) || target < functionEntry then
        (c, [⟨target, .tailCall⟩])
      else (c.claimOrQueueBlock target functionEntry, [⟨target, .unconditional⟩])
    else (c, [])
  | .conditionalBranch =>
    let next := branchTo inp c functionEntry d.nextIp .fallthrough
    let target := branchTo inp next.1 functionEntry d.nearBranchTarget .conditional
    (target.1, next.2 ++ target.2)
  | .call =>
    let next := branchTo inp c functionEntry d.nextIp .fallthrough
    let target := d.nearBranchTarget
    if isExecutableTarget inp target then (next.1.seedFunction target, next.2 ++ [⟨target, .call⟩]) else next
  | .indirectBranch => (c, [⟨0, .indirect⟩])
  | .indirectCall =>
    -- The only case that does not ask whether the address is a trusted entry.
    if isExecutableTarget inp d.nextIp then
      (c.claimOrQueueBlock d.nextIp functionEntry, [⟨d.nextIp, .fallthrough⟩, ⟨0, .indirect⟩])
    else (c, [⟨0, .indirect⟩])
  | .ret | .interrupt | .exception => (c, [⟨0, .ret⟩])
  | .xbeginXabortXend => (c, [])

/-- The claims and edges a walk ends with. -/
def endEdges (c : Claims) (functionEntry : Nat) : WalkEnd → Claims × List Edge
  | .undecoded | .foreign _ => (c, [])
  | .hardEntry va => (c, [⟨va, .tailCall⟩])
  | .ownBlock va => (c, [⟨va, .fallthrough⟩])
  | .terminator d => flowEdges inp c functionEntry d

/-- The walk through the block at `start`. -/
def walkFrom (c : Claims) (t : Task) (start : Nat) : List DecodedInstr × WalkEnd :=
  walk inp c t start (inp.code.instrs.length + 1) start

/-- `decode_block`. -/
def decodeBlock (c : Claims) (t : Task) (start : Nat) : Claims × BasicBlock :=
  let w := walkFrom inp c t start
  let ends := endEdges inp c t.entry w.2
  (ends.1,
    { entryVa := start, exitVa := (w.1.getLast?.map DecodedInstr.ip).getD start, instrCount := w.1.length
      successors := ends.2, predecessors := [] })

/-! ## Functions -/

/-- `compute_predecessors`: one entry for each edge, from the first block on. -/
def withPredecessors (blocks : List BasicBlock) : List BasicBlock :=
  blocks.map fun b =>
    { b with
      predecessors := b.predecessors ++ blocks.flatMap fun source =>
        (source.successors.filter fun e => e.target ≠ 0 && e.target = b.entryVa).map fun e => ⟨source.entryVa, e.kind⟩ }

/-- An edge to an address before the entry becomes a tail call. -/
def rewriteEdge (entry : Nat) (e : Edge) : Edge := if e.target ≠ 0 ∧ e.target < entry then { e with kind := .tailCall } else e

/-- The blocks a function keeps: those from its entry on. -/
def keptBlocks (t : Task) : List BasicBlock :=
  (t.blocks.filter fun b => t.entry ≤ b.entryVa).map fun b => { b with successors := b.successors.map (rewriteEdge t.entry) }

/-- The end of `discover_function`. -/
def finish (s : State) (t : Task) : State :=
  let function := { entryVa := t.entry, blocks := withPredecessors (keptBlocks t), stackFrame := none, signature := none }
  { s with functions := KeyedList.put Function.entryVa function s.functions, task := none }

/-- One round of `discover_function`: a block that is decoded, or owned by another
function, is passed over. -/
def visitBlock (s : State) (t : Task) (start : Nat) : State :=
  if (blockAt t.blocks start).isSome || isOwnedByOther s.claims start t.entry then s
  else
    let decoded := decodeBlock inp (s.claims.own start t.entry) t start
    { s with claims := decoded.1, task := some { t with blocks := KeyedList.put BasicBlock.entryVa decoded.2 t.blocks } }

/-- The beginning of `discover_function`, for an executable entry that is no function yet. -/
def visitFunction (s : State) (entry : Nat) : State :=
  if (s.functions.get entry).isSome || !inp.space.isExecutableVa entry || isOwnedByOther s.claims entry entry then s
  else { s with claims := { s.claims.own entry entry with blockQueue := [entry] }, task := some ⟨entry, []⟩ }

/-! ## The passes behind the seeds -/

/-- The loop of `seed_int3_gap_leaves`: code behind padding that nobody owns. -/
def gapCandidates (s : State) : Bool → List DecodedInstr → List Nat
  | _, [] => []
  | prevWasInt3, d :: rest =>
    if d.isInt3 then gapCandidates s true rest
    else if prevWasInt3 && (s.functions.get d.ip).isNone && (s.claims.blockOwners d.ip).isNone &&
        inp.space.isExecutableVa d.ip then
      d.ip :: gapCandidates s false rest
    else gapCandidates s false rest

/-- `seed_int3_gap_leaves`. -/
def seedInt3GapLeaves (s : State) : State :=
  { s with claims := (gapCandidates inp s false inp.code.instrs).foldl Claims.seedFunction s.claims, stage := .gaps }

/-- `EXCEPTION_ACCESS_VIOLATION` as an immediate, or as the lower half of one. -/
def isAccessViolation (operand : OpKind × Nat) : Bool :=
  operand.1 ≠ .other && operand.2 % 2 ^ 32 = 0xc0000005

/-- The addresses of the index, ascending. -/
def sortedIps : List Nat := (inp.code.instrs.map DecodedInstr.ip).dedup.insertionSort (· ≤ ·)

/-- `by_ip.get`: of two instructions at one address the later one. -/
def byIp (va : Nat) : Option DecodedInstr := inp.code.instrs.reverse.find? fun d => d.ip = va

/-- Back from a comparison to the first address behind padding; `before` is what lies
before the entry, the nearest first. -/
def filterEntry (entry : Nat) : List Nat → Nat
  | [] => entry
  | prev :: before =>
    match byIp inp prev with
    | none => entry
    | some d => if d.isInt3 then entry else filterEntry prev before

/-- The entries of the filters, ascending and each once. -/
def filterCandidates : List Nat :=
  let immVas := (inp.code.instrs.filter fun d => d.operands.any isAccessViolation).map DecodedInstr.ip
  let entries := immVas.map fun immVa =>
    filterEntry inp immVa ((sortedIps inp).takeWhile fun ip => ip < immVa).reverse
  ((entries.filter inp.space.isExecutableVa).dedup).insertionSort (· ≤ ·)

/-- The blocks of a function from an address on are taken from it, with their claims. -/
def carveOut (s : State) (owner entry : Nat) : State :=
  { s with
    claims := { s.claims with
      blockOwners := fun va => if s.claims.blockOwners va = some owner ∧ entry ≤ va then none else s.claims.blockOwners va }
    functions := s.functions.map fun f =>
      if f.entryVa = owner then { f with blocks := f.blocks.filter fun b => b.entryVa < entry } else f }

/-- A filter inside of another function is cut out of it. -/
def carve (s : State) (entry : Nat) : State :=
  if (s.functions.get entry).isSome then s
  else match s.claims.blockOwners entry with
    | some owner => if owner = entry then s else carveOut s owner entry
    | none => s

/-- `seed_access_violation_filter_leaves`. -/
def seedAccessViolationFilterLeaves (s : State) : State :=
  let candidates := filterCandidates inp
  let carved := candidates.foldl carve s
  { carved with claims := candidates.foldl Claims.seedFunction carved.claims, stage := .filters }

/-! ## The machine -/

/-- One step; there is none when the last pass is through. -/
def step (s : State) : Option State :=
  match s.task with
  | some t =>
    match s.claims.blockQueue with
    | [] => some (finish s t)
    | start :: rest => some (visitBlock inp { s with claims := { s.claims with blockQueue := rest } } t start)
  | none =>
    match s.claims.worklist with
    | entry :: rest => some (visitFunction inp { s with claims := { s.claims with worklist := rest } } entry)
    | [] =>
      match s.stage with
      | .seeds => some (seedInt3GapLeaves inp s)
      | .gaps => some (seedAccessViolationFilterLeaves inp s)
      | .filters => none

/-- Every seed is an entry and stands in the worklist. -/
def start : State :=
  { claims :=
      { functionEntries := fun va => inp.seeds.contains va, blockOwners := fun _ => none, blockQueue := []
        worklist := inp.seeds }
    functions := [], task := none, stage := .seeds }

/-- Every address the run can come upon. -/
def addresses : List Nat := inp.seeds ++ inp.code.instrs.flatMap fun d => [d.ip, d.nextIp, d.nearBranchTarget]

/-- Addresses that may become an entry, and the entries still to be visited. -/
def plannedEntries (c : Claims) : Nat :=
  (addresses inp).countP (fun va => !c.functionEntries va) + c.worklist.length

/-- Addresses that may become a block, and the blocks still to be visited. -/
def plannedBlocks (c : Claims) : Nat :=
  (addresses inp).countP (fun va => (c.blockOwners va).isNone) + c.blockQueue.length

def Stage.passesLeft : Stage → Nat
  | .seeds => 2
  | .gaps => 1
  | .filters => 0

/-- A bound for the steps that are left. The last pass may free every address once. -/
def stepsLeft (s : State) : Nat :=
  3 * plannedEntries inp s.claims + plannedBlocks inp s.claims + (if s.task.isSome then 1 else 0) +
    s.stage.passesLeft * ((addresses inp).length + 1)

/-- `discover_functions_with_entry_hints`. -/
def discover : FunctionTable := (Machine.runFor (step inp) (stepsLeft inp (start inp)) (start inp)).functions

end Machine

/-! ## Small images -/

/-- An instruction of which only the flow matters. -/
def flowInstr (ip len : Nat) (flow : FlowControl) (target : Nat) (hlen : 0 < len) (hend : ip + len < 2 ^ 64) :
    DecodedInstr :=
  { ip := ip, len := len, bytes := [], flowControl := flow, nearBranchTarget := target, operands := [], usedMemory := []
    memoryBase := .none, memoryIndex := .none, ipRelMemoryAddress := 0, len_pos := hlen, end_lt := hend }

theorem end_1001 : 0x1000 + 1 < 2 ^ 64 := by decide

theorem end_1002 : 0x1000 + 2 < 2 ^ 64 := by decide

theorem end_1003 : 0x1002 + 1 < 2 ^ 64 := by decide

theorem end_1004 : 0x1003 + 1 < 2 ^ 64 := by decide

theorem end_1003_of_two : 0x1001 + 2 < 2 ^ 64 := by decide

/-- One executable section at 0x1000. -/
def textSpace : AddressSpace := { imageBase := 0, sections := [⟨0x1000, 0x1000, 0, 0x1000, 2 ^ 29⟩] }

end Windy.Discovery
