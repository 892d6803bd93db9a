import Windy.Lib.Backward
import Windy.Decompiler.Hir

/- The bridge from SSA into the high-level IR (`lower_from_ssa`, `lift_win64_calls` in
   `decompiler/hir.rs`).

   Every variable gets a value when it is first seen, as a use, a definition or an argument of
   a phi, and every operation becomes one of the IR, in its place. The pass over the calls then
   adds a call site for each operation it takes for a call, with its target and with the
   argument registers the call uses for which the block has a definition.

   Blocks are only asked to have different ids. What is proved (`bridge_lossless`): the bridge
   loses nothing and gives a valid function; and after the pass, run any number of times, the
   function is valid, values and operations are as they were, the call sites are those of the
   calls, one for each, another run adds none, and every recorded argument is the last
   definition of its register in front of the call with no call behind it.

   Correspondence:
     the loops over blocks and operations ↔ `opsOf`, in order
     `ensure_ssa_value`, `ssa_value_bit_width` ↔ the same
     the body of the loop of `lower_from_ssa` ↔ `lowerOp`
     `lift_call_target`, `lift_same_block_win64_arguments`, `external_tail_call_target` ↔ the same
     the body of the loop of `lift_win64_calls` ↔ `liftOp`
   The resolver of return values (`reaching_register_at_return`) may be any function here: what
   is recorded is what it finds among the values. -/
namespace Windy.Decompiler.Hir

open Numbering (Table Dense)
open V2 (registerContainerBase isImmediate)

/-! ## Functions in SSA form -/

structure SsaOp where
  va : Nat
  kind : SsaOpKind
  def? : Option SsaVar
  uses : List SsaVar
  deriving DecidableEq

structure SsaBlock where
  id : Nat
  entryVa : Nat
  ops : List SsaOp
  predecessorIds : List Nat
  successorIds : List Nat

structure SsaFunction where
  entryVa : Nat
  bitness : Nat
  blocks : List SsaBlock
  imageBase : Nat

structure SsaOperationKey where
  blockId : Nat
  operationIndex : Nat
  deriving DecidableEq, Repr

/-- An operation with its place. -/
structure OpAt where
  block : SsaBlock
  index : Nat
  op : SsaOp

def OpAt.key (e : OpAt) : SsaOperationKey := ⟨e.block.id, e.index⟩

/-- The operations block by block. -/
def opsOf (ssa : SsaFunction) : List OpAt :=
  ssa.blocks.flatMap fun block => block.ops.zipIdx.map fun entry => ⟨block, entry.2, entry.1⟩

/-! ## Lowering -/

structure SsaLowering where
  hir : HirFunction
  values : Table SsaVar
  operations : Table SsaOperationKey
  callSites : Table SsaOperationKey

def SsaLowering.empty : SsaLowering := ⟨⟨[], [], [], [], ∅⟩, ∅, ∅, ∅⟩

def ssaValueBitWidth (var : SsaVar) : Option Nat :=
  match var.location with
  | .unique _ _ size => if size < 2 ^ 16 ∧ size * 8 < 2 ^ 16 ∧ size * 8 ≠ 0 then some (size * 8) else none
  | _ => none

def ensureSsaValue (L : SsaLowering) (var : SsaVar) (provenance : Provenance) (isDefinition : Bool) : Nat × SsaLowering :=
  match L.values.lookup var with
  | some id =>
    (id, if isDefinition then
        { L with hir := { L.hir with values := L.hir.values.modify id fun v => { v with provenance := provenance } } }
      else L)
  | none =>
    let id := L.hir.values.length
    (id, { L with
      hir := { L.hir with values := L.hir.values ++ [⟨id, ssaValueBitWidth var, provenance⟩] }
      values := L.values.insert var id })

/-- The variables one after the other. -/
def ensureUses (provenance : Provenance) : SsaLowering → List SsaVar → List Nat × SsaLowering
  | L, [] => ([], L)
  | L, var :: vars =>
    let (id, L) := ensureSsaValue L var provenance false
    let (ids, L) := ensureUses provenance L vars
    (id :: ids, L)

def kindOf (op : SsaOp) : HirOperationKind :=
  match op.kind with
  | .pcode _ => .pcode
  | .phi _ _ => .phi

/-- The variables read: of a phi the arguments that are there. -/
def inputVars (op : SsaOp) : List SsaVar :=
  match op.kind with
  | .pcode _ => op.uses
  | .phi _ args => args.filterMap id

def outputVar (op : SsaOp) : Option SsaVar :=
  match op.kind with
  | .pcode _ => op.def?
  | .phi out _ => some out

def provenanceOf (e : OpAt) : Provenance :=
  match e.op.kind with
  | .pcode _ => .lifted (.single e.op.va e.index)
  | .phi _ _ => .synthetic .phi

def lowerOp (L : SsaLowering) (e : OpAt) : SsaLowering :=
  let provenance := provenanceOf e
  let (inputs, L) := ensureUses (.derived .entry provenance.primary provenance.contributors) L (inputVars e.op)
  let (output, L) := match outputVar e.op with
    | some var =>
      let (id, L) := ensureSsaValue L var provenance true
      (some id, L)
    | none => (none, L)
  let id := L.hir.operations.length
  { L with
    hir := { L.hir with operations := L.hir.operations ++ [⟨id, kindOf e.op, inputs, output, provenance⟩] }
    operations := L.operations.insert e.key id }

/-- The value each block returns, if it is known. -/
def exitValuesOf (exitVar : SsaFunction → Nat → Option SsaVar) (ssa : SsaFunction) (values : Table SsaVar) : Table Nat :=
  ssa.blocks.foldl (fun exits block =>
    match (exitVar ssa block.id).bind fun var => values.lookup var with
    | some value => exits.insert block.id value
    | none => exits) ∅

def lowerFromSsa (exitVar : SsaFunction → Nat → Option SsaVar) (ssa : SsaFunction) : SsaLowering :=
  let L := (opsOf ssa).foldl lowerOp .empty
  { L with hir := { L.hir with exitValues := exitValuesOf exitVar ssa L.values } }

/-! ## Calls -/

def isPcodeCall (op : SsaOp) : Bool := op.kind.isCall

/-- `matches!(def.location, Location::Register { base } if base == base_offset)`. -/
def definesRegister (base : Nat) (op : SsaOp) : Bool := op.def?.any fun v => v.location = .register base

/-- `external_tail_call_target`: the only block ends in a jump out of the function. -/
def externalTailCallTarget (ssa : SsaFunction) (dest : Varnode) : Option Nat :=
  match ssa.blocks with
  | [block] =>
    let va := dest.offset
    let otherEnd := block.ops.any fun op => match op.kind with
      | .pcode (.cbranch _ _) | .pcode (.branchInd _) | .pcode (.call _) | .pcode (.callInd _) => true
      | _ => false
    let lastIsJump := match block.ops.getLast?.map SsaOp.kind with
      | some (.pcode (.branch lastDest)) => lastDest.offset = va
      | _ => false
    let inside := ssa.blocks.any fun b => b.entryVa = va || b.ops.any fun op => op.va = va
    if isImmediate dest && 0x1000 ≤ va && !otherEnd && lastIsJump && !inside then some va else none
  | _ => none

/-- The destination of an operation that is taken for a call. -/
def callDest (ssa : SsaFunction) (op : SsaOp) : Option Varnode :=
  match op.kind with
  | .pcode (.call dest) | .pcode (.callInd dest) => some dest
  | .pcode (.branch dest) => if (externalTailCallTarget ssa dest).isSome then some dest else none
  | .pcode (.branchInd dest) => if dest.space = .register ∧ ssa.blocks.length = 1 then some dest else none
  | _ => none

def win64GprArgumentRegisters : List (Nat × Gpr) := [(0x08, .rcx), (0x10, .rdx), (0x80, .r8), (0x88, .r9)]

def sameBlockReachingRegister (block : SsaBlock) (callIndex base : Nat) : Option SsaVar :=
  (Backward.search isPcodeCall (definesRegister base) (block.ops.take callIndex)).bind SsaOp.def?

/-- The same with the value at entry, if no call is in front. -/
def reachingRegisterForIndirectTarget (block : SsaBlock) (callIndex : Nat) (op : SsaOp) (base : Nat) : Option SsaVar :=
  match (block.ops.take callIndex).reverse.find? fun prior => isPcodeCall prior || definesRegister base prior with
  | some prior => if isPcodeCall prior then none else prior.def?
  | none => op.uses.find? fun use => use.location = .register base

def liftCallTarget (e : OpAt) (dest : Varnode) (values : Table SsaVar) : CallTarget :=
  match dest.space with
  | .const | .ram => .direct dest.offset
  | .register =>
    match (reachingRegisterForIndirectTarget e.block e.index e.op (registerContainerBase dest.offset)).bind
      fun var => values.lookup var with
    | some target => .indirect target []
    | none => .unknown
  | .unique =>
    match (e.op.uses.find? fun use => use.location = .unique e.op.va dest.offset dest.size).bind fun var => values.lookup var with
    | some target => .indirect target []
    | none => .unknown

def isDirectCall (op : SsaOp) : Bool :=
  match op.kind with
  | .pcode (.call _) => true
  | _ => false

def isTailBranch (op : SsaOp) : Bool :=
  match op.kind with
  | .pcode (.branch _) => true
  | _ => false

/-- Whether a register is looked at: a call lists it, and a jump passes RCX. -/
def takesArgument (op : SsaOp) (base : Nat) : Bool :=
  if isDirectCall op then op.uses.any fun use => use.location = .register base else base = 0x08

def liftSameBlockWin64Arguments (e : OpAt) (values : Table SsaVar) : List Win64Argument :=
  if isDirectCall e.op || isTailBranch e.op then
    win64GprArgumentRegisters.zipIdx.filterMap fun entry =>
      if takesArgument e.op entry.1.1 then
        ((sameBlockReachingRegister e.block e.index entry.1.1).bind fun var => values.lookup var).bind fun value =>
          Win64Argument.standard entry.2 value .integer
      else none
  else []

/-- The call site of an operation taken for a call. -/
def siteFor (values : Table SsaVar) (operation : HirOperation) (e : OpAt) (dest : Varnode) : Win64CallSite :=
  .new (.derived .abi operation.provenance.primary operation.provenance.contributors) (liftCallTarget e dest values)
    (liftSameBlockWin64Arguments e values)

/-- One operation, with the call sites added so far. -/
def liftOp (ssa : SsaFunction) (state : SsaLowering × List Nat) (e : OpAt) : SsaLowering × List Nat :=
  let (L, lifted) := state
  match callDest ssa e.op with
  | none => (L, lifted)
  | some dest =>
    if (L.callSites.lookup e.key).isSome then (L, lifted)
    else
      match (L.operations.lookup e.key).bind fun id => L.hir.operations[id]? with
      | none => (L, lifted)
      | some operation =>
        let id := L.hir.callSites.length
        ({ L with
            hir := { L.hir with callSites := L.hir.callSites ++ [siteFor L.values operation e dest] }
            callSites := L.callSites.insert e.key id },
          lifted ++ [id])

def liftWin64Calls (ssa : SsaFunction) (L : SsaLowering) : SsaLowering × List Nat := (opsOf ssa).foldl (liftOp ssa) (L, [])

/-! ## What lowering keeps -/

/-- The values are numbered: each has its position for its identity and a width, if any, that
is not zero, and belongs to one variable. -/
structure Numbered (L : SsaLowering) : Prop where
  dense : Dense L.values L.hir.values.length
  arena : ∀ (i : Nat) (value : Value), L.hir.values[i]? = some value → value.id = i ∧ value.bitWidth ≠ some 0

/-- Nothing but the values has changed, and no variable has lost its own. -/
structure Extends (L L' : SsaLowering) : Prop where
  values : ∀ var i, L.values.lookup var = some i → L'.values.lookup var = some i
  operations : L'.hir.operations = L.hir.operations
  memoryObjects : L'.hir.memoryObjects = L.hir.memoryObjects
  callSites : L'.hir.callSites = L.hir.callSites
  places : L'.operations = L.operations
  sites : L'.callSites = L.callSites

theorem Extends.refl (L : SsaLowering) : Extends L L := ⟨fun _ _ => id, rfl, rfl, rfl, rfl, rfl⟩

theorem Extends.trans {L L' L'' : SsaLowering} (h : Extends L L') (h' : Extends L' L'') : Extends L L'' :=
  ⟨fun var i hi => h'.values var i (h.values var i hi), h'.operations.trans h.operations,
    h'.memoryObjects.trans h.memoryObjects, h'.callSites.trans h.callSites, h'.places.trans h.places, h'.sites.trans h.sites⟩

/-- Values that were found are found again. -/
theorem Extends.map_lookup {L L' : SsaLowering} (h : Extends L L') {ids : List Nat} {vars : List SsaVar}
    (hids : ids.map some = vars.map fun var => L.values.lookup var) : ids.map some = vars.map fun var => L'.values.lookup var := by
  refine hids.trans (List.map_congr_left fun var hvar => ?_)
  have hmem : L.values.lookup var ∈ ids.map some := hids ▸ List.mem_map_of_mem hvar
  obtain ⟨i, -, hi⟩ := List.mem_map.mp hmem
  exact hi.symm.trans (h.values var i hi.symm).symm

theorem ssaValueBitWidth_ne_zero (var : SsaVar) : ssaValueBitWidth var ≠ some 0 := by
  unfold ssaValueBitWidth
  split
  · split
    next h => simpa using h.2.2
    next => simp
  · simp

section Ensure
variable {L : SsaLowering}

/-- A variable has a value afterwards, the one it had if there was one. -/
theorem ensureSsaValue_spec (h : Numbered L) (var : SsaVar) (provenance : Provenance) (isDefinition : Bool) :
    Numbered (ensureSsaValue L var provenance isDefinition).2 ∧ Extends L (ensureSsaValue L var provenance isDefinition).2 ∧
      (ensureSsaValue L var provenance isDefinition).2.values.lookup var =
        some (ensureSsaValue L var provenance isDefinition).1 := by
  unfold ensureSsaValue
  split
  next i hi =>
    cases isDefinition with
    | false => exact ⟨h, .refl L, hi⟩
    | true =>
      refine ⟨⟨?_, fun j value hj => ?_⟩, ⟨fun _ _ => id, rfl, rfl, rfl, rfl, rfl⟩, hi⟩
      · simpa using h.dense
      · -- The provenance is renewed; the identity and the width stay.
        simp only [if_true, List.getElem?_modify] at hj
        obtain ⟨old, hold, rfl⟩ := Option.map_eq_some_iff.mp hj
        have := h.arena j old hold
        split <;> exact this
  next hnone =>
    refine ⟨⟨?_, fun j value hj => ?_⟩, ⟨fun v j hj => Numbering.lookup_insert_of_lookup hnone hj, rfl, rfl, rfl, rfl, rfl⟩, ?_⟩
    · simpa using h.dense.insert hnone
    · rcases Nat.lt_trichotomy j L.hir.values.length with hlt | rfl | hgt
      · rw [List.getElem?_append_left hlt] at hj
        exact h.arena j value hj
      · simp only [List.getElem?_concat_length, Option.some.injEq] at hj
        rw [← hj]
        exact ⟨rfl, ssaValueBitWidth_ne_zero var⟩
      · rw [List.getElem?_eq_none (by simp; omega)] at hj
        cases hj
    · exact Finmap.lookup_insert _

theorem ensureUses_spec (provenance : Provenance) (h : Numbered L) (vars : List SsaVar) :
    Numbered (ensureUses provenance L vars).2 ∧ Extends L (ensureUses provenance L vars).2 ∧
      (ensureUses provenance L vars).1.map some = vars.map fun var => (ensureUses provenance L vars).2.values.lookup var := by
  induction vars generalizing L with
  | nil => exact ⟨h, .refl L, rfl⟩
  | cons var vars ih =>
    obtain ⟨hnumbered, hextends, hlookup⟩ := ensureSsaValue_spec h var provenance false
    obtain ⟨hnumbered', hextends', hmap⟩ := ih hnumbered
    refine ⟨hnumbered', hextends.trans hextends', ?_⟩
    rw [ensureUses, List.map_cons, List.map_cons, hmap]
    exact congrArg (· :: _) (hextends'.values _ _ hlookup).symm

end Ensure

/-- An operation of the IR for one of the function: its kind, the values of what it reads and
of what it defines. -/
structure Corresponds (values : Table SsaVar) (e : OpAt) (operation : HirOperation) : Prop where
  kind : operation.kind = kindOf e.op
  inputs : operation.inputs.map some = (inputVars e.op).map fun var => values.lookup var
  output : operation.output.map some = (outputVar e.op).map fun var => values.lookup var
  provenance : operation.provenance = provenanceOf e

theorem Corresponds.extends {L L' : SsaLowering} (hextends : Extends L L') {e : OpAt} {operation : HirOperation}
    (h : Corresponds L.values e operation) : Corresponds L'.values e operation := by
  refine ⟨h.kind, hextends.map_lookup h.inputs, h.output.trans ?_, h.provenance⟩
  have houtput := h.output
  cases hvar : outputVar e.op with
  | none => rfl
  | some var =>
    rw [hvar] at houtput
    obtain ⟨i, -, hi⟩ := Option.map_eq_some_iff.mp houtput
    exact congrArg some (hi.symm.trans (hextends.values var i hi.symm).symm)

/-- One operation: values for its variables, and then itself. -/
theorem lowerOp_spec {L : SsaLowering} (h : Numbered L) (e : OpAt) :
    ∃ M operation, Numbered M ∧ Extends L M ∧ Corresponds M.values e operation ∧
      operation.id = L.hir.operations.length ∧
      lowerOp L e =
        { M with
          hir := { M.hir with operations := L.hir.operations ++ [operation] }
          operations := L.operations.insert e.key L.hir.operations.length } := by
  obtain ⟨hnumbered, hextends, hinputs⟩ := ensureUses_spec
    (.derived .entry (provenanceOf e).primary (provenanceOf e).contributors) h (inputVars e.op)
  set read := ensureUses (.derived .entry (provenanceOf e).primary (provenanceOf e).contributors) L (inputVars e.op) with hread
  unfold lowerOp
  simp only [← hread]
  cases hvar : outputVar e.op with
  | none =>
    refine ⟨read.2, ⟨L.hir.operations.length, kindOf e.op, read.1, none, provenanceOf e⟩, hnumbered, hextends,
      ⟨rfl, hinputs, ?_, rfl⟩, rfl, ?_⟩
    · rw [hvar]; rfl
    · simp only [hextends.operations, hextends.places]
  | some var =>
    obtain ⟨hnumbered', hextends', hlookup⟩ := ensureSsaValue_spec hnumbered var (provenanceOf e) true
    set defined := ensureSsaValue read.2 var (provenanceOf e) true with hdefined
    have hboth := hextends.trans hextends'
    refine ⟨defined.2, ⟨L.hir.operations.length, kindOf e.op, read.1, some defined.1, provenanceOf e⟩, hnumbered', hboth,
      ⟨rfl, hextends'.map_lookup hinputs, ?_, rfl⟩, rfl, ?_⟩
    · rw [hvar, Option.map_some, Option.map_some, hlookup]
    · simp only [← hdefined, hboth.operations, hboth.places]

theorem getElem?_append_of_some {α : Type} {xs : List α} {i : Nat} {x : α} (h : xs[i]? = some x) (ys : List α) :
    (xs ++ ys)[i]? = some x := (List.getElem?_append_left (List.getElem?_eq_some_iff.mp h).1).trans h

/-- The operations so far are lowered, in their order, and nothing else is there. -/
structure Lowered (done : List OpAt) (L : SsaLowering) : Prop where
  numbered : Numbered L
  length : L.hir.operations.length = done.length
  places : ∀ k e, done[k]? = some e → L.operations.lookup e.key = some k
  operations : ∀ k e, done[k]? = some e →
    ∃ operation, L.hir.operations[k]? = some operation ∧ operation.id = k ∧ Corresponds L.values e operation
  keys : ∀ key k, L.operations.lookup key = some k → ∃ e, done[k]? = some e ∧ e.key = key
  memoryObjects : L.hir.memoryObjects = []
  callSites : L.hir.callSites = []
  sites : L.callSites = ∅

theorem lowered_empty : Lowered [] .empty := by
  refine ⟨⟨Numbering.dense_empty, fun i value h => ?_⟩, rfl, fun k e h => ?_, fun k e h => ?_, fun key k h => ?_, rfl, rfl, rfl⟩
  · simp [SsaLowering.empty] at h
  · simp at h
  · simp at h
  · simp [SsaLowering.empty] at h

theorem lowered_step {done : List OpAt} {L : SsaLowering} (h : Lowered done L) {e : OpAt} (hnew : e.key ∉ done.map OpAt.key) :
    Lowered (done ++ [e]) (lowerOp L e) := by
  obtain ⟨M, operation, hnumbered, hextends, hcorresponds, hid, heq⟩ := lowerOp_spec h.numbered e
  have hfree : L.operations.lookup e.key = none := by
    cases hlookup : L.operations.lookup e.key with
    | none => rfl
    | some k =>
      obtain ⟨e', he', hkey⟩ := h.keys e.key k hlookup
      exact absurd (List.mem_map.mpr ⟨e', List.mem_of_getElem? he', hkey⟩) hnew
  have hat : ∀ (k : Nat) (e' : OpAt), (done ++ [e])[k]? = some e' → done[k]? = some e' ∨ k = done.length ∧ e' = e := by
    intro k e' hk
    rcases Nat.lt_trichotomy k done.length with hlt | rfl | hgt
    · exact Or.inl (by rwa [List.getElem?_append_left hlt] at hk)
    · simp only [List.getElem?_concat_length, Option.some.injEq] at hk
      exact Or.inr ⟨rfl, hk.symm⟩
    · rw [List.getElem?_eq_none (by simp; omega)] at hk
      cases hk
  rw [heq]
  refine ⟨⟨hnumbered.dense, hnumbered.arena⟩, by simp [h.length], fun k e' hk => ?_, fun k e' hk => ?_, fun key k hk => ?_,
    hextends.memoryObjects.trans h.memoryObjects, hextends.callSites.trans h.callSites, hextends.sites.trans h.sites⟩
  · rcases hat k e' hk with hold | ⟨rfl, rfl⟩
    · exact Numbering.lookup_insert_of_lookup hfree (h.places k e' hold)
    · rw [← h.length]
      exact Finmap.lookup_insert _
  · rcases hat k e' hk with hold | ⟨rfl, rfl⟩
    · obtain ⟨operation', hget, hid', hcorresponds'⟩ := h.operations k e' hold
      exact ⟨operation', getElem?_append_of_some hget _, hid', hcorresponds'.extends hextends⟩
    · exact ⟨operation, by rw [← h.length]; simp, hid.trans h.length, hcorresponds⟩
  · rcases (Numbering.lookup_insert_eq_some hfree).mp hk with hold | ⟨rfl, rfl⟩
    · obtain ⟨e', he', hkey⟩ := h.keys key k hold
      exact ⟨e', getElem?_append_of_some he' _, hkey⟩
    · exact ⟨e, by rw [h.length]; simp, rfl⟩

theorem not_mem_of_nodup_keys {done rest : List OpAt} {e : OpAt} (h : ((done ++ e :: rest).map OpAt.key).Nodup) :
    e.key ∉ done.map OpAt.key := by
  rw [List.map_append, List.map_cons] at h
  exact fun hmem => (List.nodup_append.mp h).2.2 _ hmem _ (by simp) rfl

theorem lowered_from {done rest : List OpAt} {L : SsaLowering} (h : Lowered done L)
    (hkeys : ((done ++ rest).map OpAt.key).Nodup) : Lowered (done ++ rest) (rest.foldl lowerOp L) := by
  induction rest generalizing done L with
  | nil => simpa using h
  | cons e rest ih =>
    have hsplit : done ++ e :: rest = (done ++ [e]) ++ rest := by simp
    have hnew := not_mem_of_nodup_keys hkeys
    rw [hsplit] at hkeys ⊢
    exact ih (lowered_step h hnew) hkeys

/-- Blocks with different ids give different keys. -/
theorem nodup_keys {ssa : SsaFunction} (hids : (ssa.blocks.map SsaBlock.id).Nodup) : ((opsOf ssa).map OpAt.key).Nodup := by
  have hmap : (opsOf ssa).map OpAt.key =
      ssa.blocks.flatMap fun block => (List.range block.ops.length).map fun i => ⟨block.id, i⟩ := by
    unfold opsOf
    rw [List.map_flatMap]
    congr 1
    funext block
    rw [List.map_map, List.range_eq_range', ← List.zipIdx_map_snd 0 block.ops, List.map_map]
    rfl
  rw [hmap, List.nodup_flatMap]
  refine ⟨fun block _ => List.nodup_range.map fun i j h => (SsaOperationKey.mk.inj h).2, ?_⟩
  refine (List.pairwise_map.mp hids).imp fun {b b'} hne => ?_
  intro key hb hb'
  obtain ⟨i, -, rfl⟩ := List.mem_map.mp hb
  obtain ⟨j, -, hj⟩ := List.mem_map.mp hb'
  exact hne (SsaOperationKey.mk.inj hj).1.symm

/-- What is recorded for an exit is a value. -/
theorem exitValuesOf_lt {exitVar : SsaFunction → Nat → Option SsaVar} {ssa : SsaFunction} {values : Table SsaVar} {n : Nat}
    (h : Dense values n) {block value : Nat} (hlookup : (exitValuesOf exitVar ssa values).lookup block = some value) : value < n := by
  unfold exitValuesOf at hlookup
  have hfold : ∀ (blocks : List SsaBlock) (exits : Table Nat), (∀ b v, exits.lookup b = some v → v < n) →
      ∀ b v, (blocks.foldl (fun exits block =>
        match (exitVar ssa block.id).bind fun var => values.lookup var with
        | some value => exits.insert block.id value
        | none => exits) exits).lookup b = some v → v < n := by
    intro blocks
    induction blocks with
    | nil => exact fun exits hexits => hexits
    | cons first blocks ih =>
      intro exits hexits
      rw [List.foldl_cons]
      apply ih
      intro b v hb
      cases hfound : (exitVar ssa first.id).bind fun var => values.lookup var with
      | none =>
        rw [hfound] at hb
        exact hexits b v hb
      | some value =>
        rw [hfound] at hb
        by_cases hsame : b = first.id
        · subst hsame
          obtain rfl : value = v := by simpa using hb
          obtain ⟨var, -, hvar⟩ := Option.bind_eq_some_iff.mp hfound
          exact h.lt var value hvar
        · exact hexits b v (by simpa [hsame] using hb)
  exact hfold ssa.blocks ∅ (fun b v hb => by simp at hb) block value hlookup

section Bridge
variable (exitVar : SsaFunction → Nat → Option SsaVar) {ssa : SsaFunction}

theorem lowered_all (hids : (ssa.blocks.map SsaBlock.id).Nodup) : Lowered (opsOf ssa) ((opsOf ssa).foldl lowerOp .empty) := by
  have h : Lowered ([] ++ opsOf ssa) ((opsOf ssa).foldl lowerOp .empty) :=
    lowered_from lowered_empty (by simpa using nodup_keys hids)
  exact h

theorem mem_lt_of_map_lookup {values : Table SsaVar} {n : Nat} (h : Dense values n) {ids : List Nat} {vars : List SsaVar}
    (hids : ids.map some = vars.map fun var => values.lookup var) : ∀ id ∈ ids, id < n := by
  intro id hid
  have hmem : some id ∈ vars.map fun var => values.lookup var := hids ▸ List.mem_map_of_mem hid
  obtain ⟨var, -, hvar⟩ := List.mem_map.mp hmem
  exact h.lt var id hvar

theorem valid_lowered (hids : (ssa.blocks.map SsaBlock.id).Nodup) : Valid (lowerFromSsa exitVar ssa).hir := by
  have h := lowered_all hids
  refine ⟨h.numbered.arena, fun i object hi => ?_, fun i operation hi => ?_, fun block value hlookup => ?_, fun site hsite => ?_⟩
  · change ((opsOf ssa).foldl lowerOp .empty).hir.memoryObjects[i]? = some object at hi
    simp [h.memoryObjects] at hi
  · change ((opsOf ssa).foldl lowerOp .empty).hir.operations[i]? = some operation at hi
    obtain ⟨e, he⟩ : ∃ e, (opsOf ssa)[i]? = some e :=
      ⟨_, List.getElem?_eq_getElem (h.length ▸ (List.getElem?_eq_some_iff.mp hi).1)⟩
    obtain ⟨operation', hget, hid, hcorresponds⟩ := h.operations i e he
    obtain rfl := Option.some.inj (hi.symm.trans hget)
    refine ⟨hid, mem_lt_of_map_lookup h.numbered.dense hcorresponds.inputs, fun value hvalue => ?_⟩
    have houtput := hcorresponds.output
    rw [hvalue, eq_comm] at houtput
    obtain ⟨var, -, hvar⟩ := Option.map_eq_some_iff.mp houtput
    exact h.numbered.dense.lt var value hvar
  · exact exitValuesOf_lt h.numbered.dense hlookup
  · change site ∈ ((opsOf ssa).foldl lowerOp .empty).hir.callSites at hsite
    simp [h.callSites] at hsite

end Bridge

/-! ## The call sites -/

section Sites
variable {values : Table SsaVar} {n : Nat} {e : OpAt} {dest : Varnode}

theorem liftCallTarget_lt (h : Dense values n) {target : Nat} {candidates : List Nat}
    (htarget : liftCallTarget e dest values = .indirect target candidates) : target < n := by
  unfold liftCallTarget at htarget
  split at htarget
  · cases htarget
  · cases htarget
  · split at htarget
    next t hfound =>
      obtain ⟨var, -, hvar⟩ := Option.bind_eq_some_iff.mp hfound
      obtain ⟨rfl, -⟩ := CallTarget.indirect.inj htarget
      exact h.lt var t hvar
    next => cases htarget
  · split at htarget
    next t hfound =>
      obtain ⟨var, -, hvar⟩ := Option.bind_eq_some_iff.mp hfound
      obtain ⟨rfl, -⟩ := CallTarget.indirect.inj htarget
      exact h.lt var t hvar
    next => cases htarget

/-- A recorded argument is what the block defines its register as. -/
theorem mem_arguments {argument : Win64Argument} (h : argument ∈ liftSameBlockWin64Arguments e values) :
    ∃ base reg var, win64GprArgumentRegisters[argument.position]? = some (base, reg) ∧
      argument.locations = [.register (.gpr reg)] ∧
      sameBlockReachingRegister e.block e.index base = some var ∧ values.lookup var = some argument.value := by
  unfold liftSameBlockWin64Arguments at h
  split at h
  next =>
    obtain ⟨⟨⟨base, reg⟩, position⟩, hentry, harg⟩ := List.mem_filterMap.mp h
    obtain ⟨-, harg⟩ := Option.ite_none_right_eq_some.mp harg
    obtain ⟨value, hvalue, hstandard⟩ := Option.bind_eq_some_iff.mp harg
    obtain ⟨var, hvar, hlookup⟩ := Option.bind_eq_some_iff.mp hvalue
    have hat : win64GprArgumentRegisters[position]? = some (base, reg) := List.mem_zipIdx_iff_getElem?.mp hentry
    obtain ⟨location, hlocation, rfl⟩ := Option.map_eq_some_iff.mp hstandard
    refine ⟨base, reg, var, hat, ?_, hvar, hlookup⟩
    have hlt : position < 4 := (List.getElem?_eq_some_iff.mp hat).1
    have hreg : ([Gpr.rcx, .rdx, .r8, .r9][position]?) = some reg := by
      have : [Gpr.rcx, .rdx, .r8, .r9] = win64GprArgumentRegisters.map Prod.snd := rfl
      rw [this, List.getElem?_map, hat]
      rfl
    unfold Win64ArgumentLocation.standard at hlocation
    rw [if_neg (by omega)] at hlocation
    simp only [hreg, Option.map_some, Option.some.injEq] at hlocation
    rw [← hlocation]
  next => cases h

theorem position_eq {entry : (Nat × Gpr) × Nat} {argument : Win64Argument}
    (h : (if takesArgument e.op entry.1.1 then
        ((sameBlockReachingRegister e.block e.index entry.1.1).bind fun var => values.lookup var).bind fun value =>
          Win64Argument.standard entry.2 value .integer
      else none) = some argument) : argument.position = entry.2 := by
  obtain ⟨-, hargument⟩ := Option.ite_none_right_eq_some.mp h
  obtain ⟨value, -, hstandard⟩ := Option.bind_eq_some_iff.mp hargument
  obtain ⟨location, -, rfl⟩ := Option.map_eq_some_iff.mp hstandard
  rfl

theorem nodup_positions : ((liftSameBlockWin64Arguments e values).map Win64Argument.position).Nodup := by
  unfold liftSameBlockWin64Arguments
  split
  next =>
    -- Each argument has the place of its register for its position.
    have hplaces : win64GprArgumentRegisters.zipIdx.Pairwise fun a b => a.2 ≠ b.2 := by decide
    unfold List.Nodup
    rw [List.pairwise_map, List.pairwise_filterMap]
    refine hplaces.imp fun {a b} hne argument hargument argument' hargument' => ?_
    rw [position_eq hargument, position_eq hargument']
    exact hne
  next => exact List.nodup_nil

theorem valid_siteFor (h : Dense values n) (operation : HirOperation) : ValidCallSite n 0 (siteFor values operation e dest) := by
  refine ⟨fun target candidates htarget => liftCallTarget_lt h htarget, fun argument hargument => ?_, nodup_positions,
    fun result hresult => ?_, fun ids hids => ?_⟩
  · obtain ⟨base, reg, var, -, hlocations, -, hlookup⟩ := mem_arguments hargument
    refine ⟨h.lt var _ hlookup, by simp [hlocations], fun offset hoffset => ?_⟩
    rw [hlocations] at hoffset
    cases List.mem_singleton.mp hoffset
  · cases hresult
  · cases hids

end Sites

/-! ## The pass over the calls -/

/-- Call sites have been added to `L₀` for some of the operations: one for each of these, made
from what is in `L₀`. -/
structure Sited (ssa : SsaFunction) (L₀ : SsaLowering) (done : List OpAt) (L : SsaLowering) : Prop where
  hir : L.hir = { L₀.hir with callSites := L.hir.callSites }
  values : L.values = L₀.values
  operations : L.operations = L₀.operations
  dense : Dense L.callSites L.hir.callSites.length
  made : ∀ e ∈ done, ∀ dest, callDest ssa e.op = some dest → ∃ id operation, L.callSites.lookup e.key = some id ∧
    (L₀.operations.lookup e.key).bind (fun i => L₀.hir.operations[i]?) = some operation ∧
    L.hir.callSites[id]? = some (siteFor L₀.values operation e dest)
  only : ∀ key id, L.callSites.lookup key = some id → ∃ e ∈ done, e.key = key ∧ (callDest ssa e.op).isSome

section Pass
variable {ssa : SsaFunction} {L₀ L : SsaLowering} {done : List OpAt} {e : OpAt} {lifted : List Nat}

/-- An operation that is not there yet. -/
theorem sited_step (h : Sited ssa L₀ done L) (hnew : e.key ∉ done.map OpAt.key)
    (hplace : ∃ operation, (L₀.operations.lookup e.key).bind (fun i => L₀.hir.operations[i]?) = some operation) :
    Sited ssa L₀ (done ++ [e]) (liftOp ssa (L, lifted) e).1 := by
  obtain ⟨operation, hoperation⟩ := hplace
  have hfree : L.callSites.lookup e.key = none := by
    cases hlookup : L.callSites.lookup e.key with
    | none => rfl
    | some id =>
      obtain ⟨e', he', hkey, -⟩ := h.only e.key id hlookup
      exact absurd (List.mem_map.mpr ⟨e', he', hkey⟩) hnew
  unfold liftOp
  cases hdest : callDest ssa e.op with
  | none =>
    refine ⟨h.hir, h.values, h.operations, h.dense, fun e' he' dest hdest' => ?_, fun key id hid => ?_⟩
    · rcases List.mem_append.mp he' with he' | he'
      · exact h.made e' he' dest hdest'
      · rw [List.mem_singleton.mp he', hdest] at hdest'
        cases hdest'
    · obtain ⟨e', he', hrest⟩ := h.only key id hid
      exact ⟨e', List.mem_append_left _ he', hrest⟩
  | some dest =>
    have hfound : (L.operations.lookup e.key).bind (fun i => L.hir.operations[i]?) = some operation := by
      rw [h.hir, h.operations]
      exact hoperation
    simp only [hfree, Option.isSome_none, Bool.false_eq_true, if_false, hfound]
    refine ⟨by rw [h.hir], h.values, h.operations, by simpa using h.dense.insert hfree, fun e' he' dest' hdest' => ?_, fun key id hid => ?_⟩
    · rcases List.mem_append.mp he' with he' | he'
      · obtain ⟨id, operation', hid, hoperation', hsite⟩ := h.made e' he' dest' hdest'
        exact ⟨id, operation', Numbering.lookup_insert_of_lookup hfree hid, hoperation', getElem?_append_of_some hsite _⟩
      · obtain rfl := List.mem_singleton.mp he'
        obtain rfl := Option.some.inj (hdest.symm.trans hdest')
        exact ⟨_, operation, Finmap.lookup_insert _, hoperation, by rw [← h.values]; simp⟩
    · rcases (Numbering.lookup_insert_eq_some hfree).mp hid with hold | ⟨rfl, -⟩
      · obtain ⟨e', he', hrest⟩ := h.only key id hold
        exact ⟨e', List.mem_append_left _ he', hrest⟩
      · exact ⟨e, by simp, rfl, by rw [hdest]; rfl⟩

theorem sited_from {rest : List OpAt} (h : Sited ssa L₀ done L) (hkeys : ((done ++ rest).map OpAt.key).Nodup)
    (hplaces : ∀ e ∈ rest, ∃ operation, (L₀.operations.lookup e.key).bind (fun i => L₀.hir.operations[i]?) = some operation) :
    Sited ssa L₀ (done ++ rest) (rest.foldl (liftOp ssa) (L, lifted)).1 := by
  induction rest generalizing done L lifted with
  | nil => simpa using h
  | cons e rest ih =>
    have hsplit : done ++ e :: rest = (done ++ [e]) ++ rest := by simp
    have hnew := not_mem_of_nodup_keys hkeys
    rw [hsplit] at hkeys ⊢
    exact ih (sited_step h hnew (hplaces e (by simp))) hkeys fun e' he' => hplaces e' (by simp [he'])

/-- Where every call has its site another run adds nothing. -/
theorem liftOps_of_sited {rest : List OpAt} (h : ∀ e ∈ rest, ∀ dest, callDest ssa e.op = some dest → (L.callSites.lookup e.key).isSome) :
    rest.foldl (liftOp ssa) (L, lifted) = (L, lifted) := by
  induction rest with
  | nil => rfl
  | cons e rest ih =>
    have hhead : liftOp ssa (L, lifted) e = (L, lifted) := by
      unfold liftOp
      cases hdest : callDest ssa e.op with
      | none => rfl
      | some dest => simp only [h e (by simp) dest hdest, if_true]
    rw [List.foldl_cons, hhead]
    exact ih fun e' he' => h e' (by simp [he'])

end Pass

/-! ## The bridge -/

/-- One operation of the IR for each of the function, in the same order and under the key of its
place; one value for each variable; and the function is valid. -/
structure Lossless (ssa : SsaFunction) (L : SsaLowering) : Prop where
  length : L.hir.operations.length = (opsOf ssa).length
  operations : ∀ k e, (opsOf ssa)[k]? = some e → L.operations.lookup e.key = some k ∧
    ∃ operation, L.hir.operations[k]? = some operation ∧ Corresponds L.values e operation
  keys : ∀ key k, L.operations.lookup key = some k → ∃ e, (opsOf ssa)[k]? = some e ∧ e.key = key
  values : Dense L.values L.hir.values.length
  valid : L.hir.validate = .ok ()

/-- The values and the operations are as they were, and the function is still valid. -/
structure Kept (L₀ L : SsaLowering) : Prop where
  values : L.hir.values = L₀.hir.values ∧ L.values = L₀.values
  operations : L.hir.operations = L₀.hir.operations ∧ L.operations = L₀.operations
  valid : L.hir.validate = .ok ()

/-- The variable is the last definition of the register in front of the operation, in its block,
with no call behind it. -/
def LastDefined (e : OpAt) (base : Nat) (var : SsaVar) : Prop :=
  ∃ early d late, e.block.ops.take e.index = early ++ d :: late ∧ d.def? = some var ∧ var.location = .register base ∧
    isPcodeCall d = false ∧ ∀ x ∈ late, isPcodeCall x = false ∧ ∀ w, x.def? = some w → w.location ≠ .register base

/-- One call site for each operation taken for a call and none for the others; every argument
comes from the last definition of its register; and another run adds nothing. -/
structure Called (ssa : SsaFunction) (L : SsaLowering) : Prop where
  dense : Dense L.callSites L.hir.callSites.length
  called : ∀ e ∈ opsOf ssa, (L.callSites.lookup e.key).isSome ↔ (callDest ssa e.op).isSome
  only : ∀ key id, L.callSites.lookup key = some id → ∃ e ∈ opsOf ssa, e.key = key
  arguments : ∀ e ∈ opsOf ssa, ∀ id site, L.callSites.lookup e.key = some id → L.hir.callSites[id]? = some site →
    ∀ argument ∈ site.arguments, ∃ base reg var, win64GprArgumentRegisters[argument.position]? = some (base, reg) ∧
      argument.locations = [.register (.gpr reg)] ∧ LastDefined e base var ∧ L.values.lookup var = some argument.value
  again : liftWin64Calls ssa L = (L, [])

theorem lastDefined_of_reaching {e : OpAt} {base : Nat} {var : SsaVar}
    (h : sameBlockReachingRegister e.block e.index base = some var) : LastDefined e base var := by
  obtain ⟨d, hd, hdef⟩ := Option.bind_eq_some_iff.mp h
  obtain ⟨early, late, heq, hdefines, hgo, hlate⟩ := Backward.search_eq_some_iff.mp hd
  refine ⟨early, d, late, heq, hdef, ?_, hgo, fun x hx => ⟨(hlate x hx).1, fun w hw hloc => ?_⟩⟩
  · simpa [definesRegister, hdef] using hdefines
  · have := (hlate x hx).2
    simp [definesRegister, hw, hloc] at this

section Runs
variable (exitVar : SsaFunction → Nat → Option SsaVar) {ssa : SsaFunction}

theorem lossless (hids : (ssa.blocks.map SsaBlock.id).Nodup) : Lossless ssa (lowerFromSsa exitVar ssa) := by
  have h := lowered_all hids
  refine ⟨h.length, fun k e hk => ⟨h.places k e hk, ?_⟩, h.keys, h.numbered.dense, validate_eq_ok_iff.mpr (valid_lowered exitVar hids)⟩
  obtain ⟨operation, hget, -, hcorresponds⟩ := h.operations k e hk
  exact ⟨operation, hget, hcorresponds⟩

/-- After one run. -/
theorem sited_all (hids : (ssa.blocks.map SsaBlock.id).Nodup) :
    Sited ssa (lowerFromSsa exitVar ssa) (opsOf ssa) (liftWin64Calls ssa (lowerFromSsa exitVar ssa)).1 := by
  have h := lowered_all hids
  have hstart : Sited ssa (lowerFromSsa exitVar ssa) [] (lowerFromSsa exitVar ssa) := by
    have hsites : (lowerFromSsa exitVar ssa).callSites = ∅ := h.sites
    have hnone : (lowerFromSsa exitVar ssa).hir.callSites = [] := h.callSites
    refine ⟨rfl, rfl, rfl, ?_, fun e he => absurd he List.not_mem_nil, fun key id hid => ?_⟩
    · rw [hsites, hnone]
      exact Numbering.dense_empty
    · rw [hsites] at hid
      simp at hid
  have hplaces : ∀ e ∈ opsOf ssa, ∃ operation,
      ((lowerFromSsa exitVar ssa).operations.lookup e.key).bind (fun i => (lowerFromSsa exitVar ssa).hir.operations[i]?) =
        some operation := by
    intro e he
    obtain ⟨k, hk⟩ := List.mem_iff_getElem?.mp he
    obtain ⟨operation, hget, -⟩ := h.operations k e hk
    refine ⟨operation, ?_⟩
    rw [show (lowerFromSsa exitVar ssa).operations.lookup e.key = some k from h.places k e hk]
    exact hget
  have hall : Sited ssa (lowerFromSsa exitVar ssa) ([] ++ opsOf ssa) (liftWin64Calls ssa (lowerFromSsa exitVar ssa)).1 :=
    sited_from hstart (by simpa using nodup_keys hids) hplaces
  exact hall

theorem kept_of_sited (hids : (ssa.blocks.map SsaBlock.id).Nodup) {L : SsaLowering}
    (h : Sited ssa (lowerFromSsa exitVar ssa) (opsOf ssa) L) : Kept (lowerFromSsa exitVar ssa) L := by
  have hvalues : L.hir.values = (lowerFromSsa exitVar ssa).hir.values := by rw [h.hir]
  have hoperations : L.hir.operations = (lowerFromSsa exitVar ssa).hir.operations := by rw [h.hir]
  have hobjects : L.hir.memoryObjects = (lowerFromSsa exitVar ssa).hir.memoryObjects := by rw [h.hir]
  have hexits : L.hir.exitValues = (lowerFromSsa exitVar ssa).hir.exitValues := by rw [h.hir]
  have hnone : (lowerFromSsa exitVar ssa).hir.memoryObjects = [] := (lowered_all hids).memoryObjects
  have hvalid := valid_lowered exitVar hids
  refine ⟨⟨hvalues, h.values⟩, ⟨hoperations, h.operations⟩, validate_eq_ok_iff.mpr ⟨?_, ?_, ?_, ?_, fun site hsite => ?_⟩⟩
  · rw [hvalues]; exact hvalid.values
  · rw [hobjects, hvalues]; exact hvalid.memoryObjects
  · rw [hoperations, hvalues]; exact hvalid.operations
  · rw [hexits, hvalues]; exact hvalid.exitValues
  · -- Each site is under a key, so it was made for an operation.
    obtain ⟨id, hid⟩ := List.mem_iff_getElem?.mp hsite
    obtain ⟨key, hkey⟩ := h.dense.onto id (List.getElem?_eq_some_iff.mp hid).1
    obtain ⟨e, he, rfl, hcall⟩ := h.only key id hkey
    obtain ⟨dest, hdest⟩ := Option.isSome_iff_exists.mp hcall
    obtain ⟨id', operation, hid', -, hmade⟩ := h.made e he dest hdest
    obtain rfl := Option.some.inj (hkey.symm.trans hid')
    obtain rfl := Option.some.inj (hid.symm.trans hmade)
    rw [hvalues, hobjects, hnone]
    exact valid_siteFor (lossless exitVar hids).values operation

theorem called_of_sited (hids : (ssa.blocks.map SsaBlock.id).Nodup) {L : SsaLowering}
    (h : Sited ssa (lowerFromSsa exitVar ssa) (opsOf ssa) L) : Called ssa L := by
  have hpresent : ∀ e ∈ opsOf ssa, ∀ dest, callDest ssa e.op = some dest → (L.callSites.lookup e.key).isSome := by
    intro e he dest hdest
    obtain ⟨id, operation, hid, -⟩ := h.made e he dest hdest
    rw [hid]
    rfl
  have hcalled : ∀ e ∈ opsOf ssa, ∀ id, L.callSites.lookup e.key = some id → (callDest ssa e.op).isSome := by
    intro e he id hid
    obtain ⟨e', he', hkey, hcall⟩ := h.only e.key id hid
    rwa [← List.inj_on_of_nodup_map (nodup_keys hids) he' he hkey]
  refine ⟨h.dense, fun e he => ⟨fun hsome => ?_, fun hcall => ?_⟩, fun key id hid => ?_, fun e he id site hid hsite argument hargument => ?_,
    liftOps_of_sited hpresent⟩
  · obtain ⟨id, hid⟩ := Option.isSome_iff_exists.mp hsome
    exact hcalled e he id hid
  · obtain ⟨dest, hdest⟩ := Option.isSome_iff_exists.mp hcall
    exact hpresent e he dest hdest
  · obtain ⟨e, he, hkey, -⟩ := h.only key id hid
    exact ⟨e, he, hkey⟩
  · obtain ⟨dest, hdest⟩ := Option.isSome_iff_exists.mp (hcalled e he id hid)
    obtain ⟨id', operation, hid', -, hmade⟩ := h.made e he dest hdest
    obtain rfl := Option.some.inj (hid.symm.trans hid')
    obtain rfl := Option.some.inj (hsite.symm.trans hmade)
    obtain ⟨base, reg, var, hreg, hlocations, hreaching, hlookup⟩ := mem_arguments hargument
    exact ⟨base, reg, var, hreg, hlocations, lastDefined_of_reaching hreaching, by rw [h.values]; exact hlookup⟩

end Runs

/-- The pass run so many times. -/
def afterRuns (ssa : SsaFunction) (L : SsaLowering) (runs : Nat) : SsaLowering :=
  (fun L => (liftWin64Calls ssa L).1)^[runs] L

theorem bridge_lossless (exitVar : SsaFunction → Nat → Option SsaVar) (ssa : SsaFunction)
    (hids : (ssa.blocks.map SsaBlock.id).Nodup) :
    Lossless ssa (lowerFromSsa exitVar ssa) ∧
      ∀ runs, Kept (lowerFromSsa exitVar ssa) (afterRuns ssa (lowerFromSsa exitVar ssa) runs) ∧
        (0 < runs → Called ssa (afterRuns ssa (lowerFromSsa exitVar ssa) runs)) := by
  have hsited := sited_all exitVar hids
  have hcalled := called_of_sited exitVar hids hsited
  have hfixed : ∀ runs, afterRuns ssa (lowerFromSsa exitVar ssa) (runs + 1) =
      (liftWin64Calls ssa (lowerFromSsa exitVar ssa)).1 := by
    intro runs
    unfold afterRuns
    rw [Function.iterate_succ_apply]
    exact Function.iterate_fixed (congrArg Prod.fst hcalled.again) runs
  refine ⟨lossless exitVar hids, fun runs => ?_⟩
  cases runs with
  | zero => exact ⟨⟨⟨rfl, rfl⟩, ⟨rfl, rfl⟩, (lossless exitVar hids).valid⟩, fun h => absurd h (Nat.lt_irrefl 0)⟩
  | succ runs =>
    rw [hfixed]
    exact ⟨kept_of_sited exitVar hids hsited, fun _ => hcalled⟩

/-! ## Two calls in a row -/

def firstRcx : SsaVar := ⟨.register 0x08, 2⟩

/-- RCX is set for the first of two calls that list it. -/
def twoCalls : SsaFunction where
  entryVa := 0x401000
  bitness := 64
  blocks := [⟨3, 0x401000,
    [⟨0x401000, .pcode (.copy ⟨.register, 0x08, 8⟩ ⟨.const, 7, 8⟩), some firstRcx, []⟩,
     ⟨0x401004, .pcode (.call ⟨.const, 0x401100, 8⟩), none, [firstRcx]⟩,
     ⟨0x401008, .pcode (.call ⟨.const, 0x401200, 8⟩), none, [firstRcx]⟩], [], []⟩]
  imageBase := 0x400000

/-- The second call gets no argument. -/
example : ((liftWin64Calls twoCalls (lowerFromSsa (fun _ _ => none) twoCalls)).1.hir.callSites.map fun site =>
    site.arguments.map Win64Argument.value) = [[0], []] := by decide

theorem bridge_twoCalls :
    (twoCalls.blocks.map SsaBlock.id).Nodup ∧ Lossless twoCalls (lowerFromSsa (fun _ _ => some firstRcx) twoCalls) ∧
      ∀ runs, Kept (lowerFromSsa (fun _ _ => some firstRcx) twoCalls)
          (afterRuns twoCalls (lowerFromSsa (fun _ _ => some firstRcx) twoCalls) runs) ∧
        (0 < runs → Called twoCalls (afterRuns twoCalls (lowerFromSsa (fun _ _ => some firstRcx) twoCalls) runs)) :=
  ⟨by decide, bridge_lossless (fun _ _ => some firstRcx) twoCalls (by decide)⟩

end Windy.Decompiler.Hir
