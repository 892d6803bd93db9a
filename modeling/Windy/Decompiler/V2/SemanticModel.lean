import Mathlib.Data.List.Sort
import Windy.Lib.Collapse
import Windy.Decompiler.Structure.Effects
import Windy.Decompiler.V2.Candidate

/- The semantic model of a function (`decompiler/v2/semantic.rs`).

   The successors of a block are taken behind the blocks that only jump, sorted, and
   without repetitions. The terminators are read from these lists. What a block shows are
   its calls, stores, loads and returns, less those the structured text leaves out.

   Left out is what nothing below reads: the number of the blocks, the class of the
   returned value, the cookie and exception blocks. A terminator of the source that is
   never built (`TailCall`) has no constructor.

   What is proved:
     1. `terminator_polarity_iff`: a conditional branch keeps its polarity exactly when
        the block it falls through to has the smaller number.
     2. `blockObservations_eq`: what is recorded for a block is what its operations show.
     3. `collapse_preserves`: the paths of the function and the paths over the successor
        lists show the same, and the predecessor lists are the successor lists reversed.

   Correspondence:
     `SemanticModel` ↔ `RawModel` (over the fields in `SemanticModel`)
     `from_raw_pcode`, `is_nonsurface_op`, `classify_terminator`,
     `block_observations` ↔ the same -/
namespace Windy.Decompiler.V2

inductive Terminator where
  | jump (target : Nat)
  | branch (condHint : String) (falseTarget trueTarget : Nat)
  | switch (targets : List Nat)
  | ret
  | unreachable
  deriving DecidableEq, Repr

inductive ObservationKind where
  | call (targetHint : Option Nat) (argCount : Nat)
  | load (isStack : Bool)
  | store (isStack : Bool)
  | ret
  deriving DecidableEq, Repr

structure Observation where
  id : Nat
  block : Nat
  kind : ObservationKind
  va : Option Nat
  ordinal : Nat
  deriving DecidableEq, Repr

structure RawModel extends SemanticModel where
  entry : Nat
  pred : List (List Nat)
  terminators : List Terminator
  observations : List Observation
  byBlock : Nat → Option (List Nat)

/-! ## Observations -/

def isNonsurfaceOp (op : SsaOp) : Bool :=
  op.isNoise || match op.kind with
    | .phi _ _ => true
    | _ => false

def observationKind (op : SsaOp) : Option ObservationKind :=
  match op.kind with
  | .pcode (.call dest) => some (.call (if isImmediate dest then some dest.offset else none) 0)
  | .pcode (.callInd _) => some (.call none 0)
  | .pcode (.store _ _) => some (.store false)
  | .pcode (.load _ _) => some (.load false)
  | .pcode (.ret _) => some .ret
  | _ => none

/-- The address and the kind of what an operation shows. -/
def observed (op : SsaOp) : Option (Nat × ObservationKind) :=
  if isNonsurfaceOp op then none else (observationKind op).map fun kind => (op.va, kind)

/-- The observations of a block, numbered from `next` on. -/
def observeBlock (bid next : Nat) (ops : List SsaOp) : List Observation :=
  (ops.filterMap observed).mapIdx fun ord shown =>
    { id := next + ord
      block := bid
      kind := shown.2
      va := if shown.1 ≠ 0 then some shown.1 else none
      ordinal := ord }

/-- The observations of the blocks from number `bid` on. -/
def observeBlocks : Nat → Nat → List SsaBlock → List (List Observation)
  | _, _, [] => []
  | bid, next, block :: rest =>
    let here := observeBlock bid next block.ops
    here :: observeBlocks (bid + 1) (next + here.length) rest

/-- A block without observations has no entry. -/
def byBlockOf (shown : List (List Observation)) (b : Nat) : Option (List Nat) :=
  match shown[b]? with
  | some (first :: rest) => some ((first :: rest).map Observation.id)
  | _ => none

/-! ## Successors and terminators -/

/-- `resolve_jump_target` with the bound that is used here. -/
def presentationTarget (ssa : SsaFunction) (b : Nat) : Nat := resolveJumpTarget ssa b 16

def modelSuccessors (ssa : SsaFunction) (block : SsaBlock) : List Nat :=
  (presentationSuccessors ssa block).dedup.insertionSort (· ≤ ·)

def hasBranchInd (block : SsaBlock) : Bool :=
  block.ops.any fun op => match op.kind with
    | .pcode (.branchInd _) => true
    | _ => false

def classifyTerminator (block : SsaBlock) (succ : List Nat) : Terminator :=
  if block.hasReturn then .ret
  else if hasBranchInd block && 2 ≤ succ.length then .switch succ
  else
    match block.isCbranch, succ with
    | true, falseTarget :: trueTarget :: _ => .branch "cond" falseTarget trueTarget
    | _, [target] => .jump target
    | _, [] => .unreachable
    | _, _ => .switch succ

/-- The blocks with this one among their successors. -/
def predecessorsIn (succ : List (List Nat)) (b : Nat) : List Nat :=
  (List.range succ.length).filter fun i => b ∈ succ.getD i []

def fromRawPcode (ssa : SsaFunction) : RawModel :=
  let succ := ssa.blocks.map (modelSuccessors ssa)
  let shown := observeBlocks 0 0 ssa.blocks
  { succ := succ
    hasReturn := ssa.blocks.any fun block => block.ops.any fun op => !isNonsurfaceOp op && op.isReturn
    entry := 0
    pred := (List.range succ.length).map (predecessorsIn succ)
    terminators := ssa.blocks.map fun block => classifyTerminator block (modelSuccessors ssa block)
    observations := shown.flatten
    byBlock := byBlockOf shown }

def RawModel.blockObservations (m : RawModel) (b : Nat) : List Observation :=
  ((m.byBlock b).map fun ids => ids.filterMap fun id => m.observations.find? fun o => o.id = id).getD []

/-! ## Terminators -/

/-- Two different numbers come out in ascending order, whichever stood first. -/
theorem sorted_pair {a b : Nat} (hne : a ≠ b) :
    [a, b].dedup.insertionSort (· ≤ ·) = if a < b then [a, b] else [b, a] := by
  have hdedup : [a, b].dedup = [a, b] := List.dedup_eq_self.mpr (by simp [hne])
  rw [hdedup]
  by_cases hlt : a < b
  · simp [hlt, Nat.le_of_lt hlt]
  · simp [List.orderedInsert, hlt, Nat.not_le.mpr (Nat.lt_of_le_of_ne (Nat.not_lt.mp hlt) (Ne.symm hne))]

theorem terminators_getElem? {ssa : SsaFunction} {b : Nat} {block : SsaBlock} (hb : ssa.blocks[b]? = some block) :
    (fromRawPcode ssa).terminators[b]? = some (classifyTerminator block (modelSuccessors ssa block)) := by
  simp [fromRawPcode, hb]

/-- A conditional branch with two targets is classified as one, and its lower target is
taken for the false one. -/
theorem classifyTerminator_cbranch {ssa : SsaFunction} {block : SsaBlock} {fall taken : Nat}
    (hcbranch : block.isCbranch) (hreturn : block.hasReturn = false) (hind : hasBranchInd block = false)
    (harms : block.successorIds = [fall, taken]) (hne : presentationTarget ssa fall ≠ presentationTarget ssa taken) :
    classifyTerminator block (modelSuccessors ssa block) =
      if presentationTarget ssa fall < presentationTarget ssa taken
      then .branch "cond" (presentationTarget ssa fall) (presentationTarget ssa taken)
      else .branch "cond" (presentationTarget ssa taken) (presentationTarget ssa fall) := by
  have hsucc : modelSuccessors ssa block =
      [presentationTarget ssa fall, presentationTarget ssa taken].dedup.insertionSort (· ≤ ·) := by
    simp [modelSuccessors, presentationSuccessors, presentationTarget, harms]
  rw [hsucc, sorted_pair hne]
  by_cases hlt : presentationTarget ssa fall < presentationTarget ssa taken
  · simp [classifyTerminator, hreturn, hind, hcbranch, hlt]
  · simp [classifyTerminator, hreturn, hind, hcbranch, hlt]

/-- A conditional branch keeps its polarity exactly when its false arm leads to the block
with the smaller number. -/
theorem terminator_polarity_iff (ssa : SsaFunction) (b : Nat) (block : SsaBlock) (fall taken : Nat)
    (hb : ssa.blocks[b]? = some block) (hcbranch : block.isCbranch) (hreturn : block.hasReturn = false)
    (hind : hasBranchInd block = false) (harms : block.successorIds = [fall, taken])
    (hne : presentationTarget ssa fall ≠ presentationTarget ssa taken) :
    (∃ hint, (fromRawPcode ssa).terminators[b]? =
        some (.branch hint (presentationTarget ssa fall) (presentationTarget ssa taken))) ↔
      presentationTarget ssa fall < presentationTarget ssa taken := by
  rw [terminators_getElem? hb, classifyTerminator_cbranch hcbranch hreturn hind harms hne]
  constructor
  · intro h
    obtain ⟨hint, heq⟩ := h
    by_contra hlt
    rw [if_neg hlt, Option.some.injEq, Terminator.branch.injEq] at heq
    exact hne heq.2.2
  · intro hlt
    exact ⟨"cond", by rw [if_pos hlt]⟩

section Example
open Structure.Emitter (functionOf codeAt flagAt)

/-- `do { } while (v); return;` -/
def spin : SsaFunction :=
  functionOf [([.pcode (.cbranch (codeAt 0x1000) (flagAt 0x200))], [0], [1, 0]), ([.pcode (.ret (codeAt 0))], [0], [])]

/-- `if (v) { } return;` -/
def skip : SsaFunction :=
  functionOf [([.pcode (.cbranch (codeAt 0x1020) (flagAt 0x200))], [], [1, 2]),
    ([.pcode (.call (codeAt 0x2000))], [0], [2]), ([.pcode (.ret (codeAt 0))], [0, 1], [])]

theorem terminator_polarity_skip :
    ∃ hint, (fromRawPcode skip).terminators[0]? = some (.branch hint 1 2) :=
  (terminator_polarity_iff skip 0 _ 1 2 rfl rfl rfl rfl rfl (by decide)).mpr (by decide)

/-- The edge back has become the false arm. -/
theorem spin_inverted :
    (∃ block, spin.blocks[0]? = some block ∧ block.isCbranch ∧ block.hasReturn = false ∧ hasBranchInd block = false ∧
      block.successorIds = [1, 0]) ∧
      presentationTarget spin 1 = 1 ∧ presentationTarget spin 0 = 0 ∧
      (fromRawPcode spin).terminators[0]? = some (.branch "cond" 0 1) ∧
      ¬ ∃ hint, (fromRawPcode spin).terminators[0]? = some (.branch hint 1 0) := by
  refine ⟨⟨_, rfl, rfl, rfl, rfl, rfl⟩, rfl, rfl, rfl, fun h => ?_⟩
  obtain ⟨hint, heq⟩ := h
  cases heq

end Example

/-! ## What is recorded of a block -/

theorem observeBlock_ids (bid next : Nat) (ops : List SsaOp) :
    (observeBlock bid next ops).map Observation.id = List.range' next (observeBlock bid next ops).length := by
  apply List.ext_getElem?
  intro i
  by_cases h : i < (ops.filterMap observed).length
  · simp [observeBlock, h]
  · simp [observeBlock, h]

theorem observeBlocks_ids (bid next : Nat) (blocks : List SsaBlock) :
    (observeBlocks bid next blocks).flatten.map Observation.id =
      List.range' next (observeBlocks bid next blocks).flatten.length := by
  induction blocks generalizing bid next with
  | nil => rfl
  | cons block rest ih =>
    simp only [observeBlocks, List.flatten_cons, List.map_append, List.length_append]
    rw [observeBlock_ids, ih, List.range'_append_1]

/-- The observation with an identity is the one that was given it. -/
theorem find?_id {os : List Observation} (hnodup : (os.map Observation.id).Nodup) {o : Observation} (ho : o ∈ os) :
    os.find? (fun x => x.id = o.id) = some o := by
  induction os with
  | nil => cases ho
  | cons x xs ih =>
    rw [List.map_cons, List.nodup_cons] at hnodup
    rcases List.mem_cons.mp ho with rfl | htail
    · exact List.find?_cons_of_pos (by simp)
    · have hne : x.id ≠ o.id := fun heq => hnodup.1 (heq ▸ List.mem_map_of_mem htail)
      rw [List.find?_cons_of_neg (by simpa using hne), ih hnodup.2 htail]

theorem filterMap_find?_ids {os here : List Observation} (hnodup : (os.map Observation.id).Nodup) (hsub : here ⊆ os) :
    (here.map Observation.id).filterMap (fun id => os.find? fun o => o.id = id) = here := by
  rw [List.filterMap_map]
  calc here.filterMap ((fun id => os.find? fun o => o.id = id) ∘ Observation.id)
      = here.filterMap some := List.filterMap_congr fun o ho => find?_id hnodup (hsub ho)
    _ = here := List.filterMap_some

/-- What is recorded for a block is what its operations show. -/
theorem blockObservations_eq (ssa : SsaFunction) (b : Nat) :
    (fromRawPcode ssa).blockObservations b = ((observeBlocks 0 0 ssa.blocks)[b]?).getD [] := by
  have hnodup : ((fromRawPcode ssa).observations.map Observation.id).Nodup := by
    show ((observeBlocks 0 0 ssa.blocks).flatten.map Observation.id).Nodup
    rw [observeBlocks_ids]
    exact List.nodup_range'
  unfold RawModel.blockObservations
  show ((byBlockOf (observeBlocks 0 0 ssa.blocks) b).map _).getD [] = _
  unfold byBlockOf
  split
  · rename_i first rest hb
    rw [hb, Option.map_some, Option.getD_some, Option.getD_some]
    have hmem : first :: rest ∈ observeBlocks 0 0 ssa.blocks := List.mem_of_getElem? hb
    exact filterMap_find?_ids hnodup fun o ho => List.mem_flatten.mpr ⟨_, hmem, ho⟩
  · rename_i hnone
    cases hb : (observeBlocks 0 0 ssa.blocks)[b]? with
    | none => rfl
    | some here =>
      cases here with
      | nil => rfl
      | cons first rest => exact absurd hb (hnone first rest)

theorem observeBlocks_getElem? (bid next : Nat) (blocks : List SsaBlock) (b : Nat) :
    ∃ next', (observeBlocks bid next blocks)[b]? = (blocks[b]?).map fun block => observeBlock (bid + b) next' block.ops := by
  induction blocks generalizing bid next b with
  | nil => exact ⟨0, rfl⟩
  | cons block rest ih =>
    cases b with
    | zero => exact ⟨next, rfl⟩
    | succ b =>
      obtain ⟨next', h⟩ := ih (bid + 1) (next + (observeBlock bid next block.ops).length) b
      refine ⟨next', ?_⟩
      rw [show bid + (b + 1) = bid + 1 + b by omega]
      exact h

/-! ## Blocks that only jump -/

/-- An operation of a block that only jumps shows nothing. -/
theorem observed_of_isJumpOnly {block : SsaBlock} (h : block.isJumpOnly) {op : SsaOp} (hop : op ∈ block.ops) :
    observed op = none := by
  simp only [SsaBlock.isJumpOnly, Bool.and_eq_true, Bool.not_eq_true', SsaBlock.hasReturn, List.any_eq_false,
    SsaBlock.isForwarding, List.all_eq_true] at h
  obtain ⟨⟨⟨-, hreturn⟩, hsurface⟩, hforward⟩ := h
  have hnoReturn := hreturn op hop
  have hnoSurface := hsurface op hop
  have hcontrol := hforward op hop
  cases hnoise : op.isNoise with
  | true => simp [observed, isNonsurfaceOp, hnoise]
  | false =>
    rw [hnoise, Bool.or_false] at hcontrol
    cases hkind : op.kind with
    | phi out args => simp [observed, isNonsurfaceOp, hkind]
    | pcode code =>
      rw [SsaOp.isReturn, hkind] at hnoReturn
      rw [SsaOp.isControl, hkind] at hcontrol
      cases code with
      | branch dest => simp [observed, observationKind, hkind]
      | branchInd dest => simp [observed, observationKind, hkind]
      | cbranch cond dest => simp [observed, observationKind, hkind]
      | ret dest => exact absurd rfl hnoReturn
      | _ => cases hcontrol

variable {ssa : SsaFunction}

theorem blockObservations_of_isJumpOnly {b : Nat} {block : SsaBlock}
    (hb : ssa.blocks[b]? = some block) (h : block.isJumpOnly) : (fromRawPcode ssa).blockObservations b = [] := by
  obtain ⟨next, hobs⟩ := observeBlocks_getElem? 0 0 ssa.blocks b
  have hnone : block.ops.filterMap observed = [] :=
    List.filterMap_eq_nil_iff.mpr fun op hop => observed_of_isJumpOnly h hop
  rw [blockObservations_eq, hobs, hb]
  simp [observeBlock, hnone]

/-! ## Paths -/

/-- An edge of the function. -/
def RawEdge (ssa : SsaFunction) (a b : Nat) : Prop := ∃ block, ssa.blocks[a]? = some block ∧ b ∈ block.successorIds

/-- An edge of the semantic model. -/
def ModelEdge (m : RawModel) (a b : Nat) : Prop := ∃ succs, m.succ[a]? = some succs ∧ b ∈ succs

def JumpsOnly (ssa : SsaFunction) (b : Nat) : Prop := ∃ block, ssa.blocks[b]? = some block ∧ block.isJumpOnly

theorem mem_modelSuccessors {block : SsaBlock} {t : Nat} :
    t ∈ modelSuccessors ssa block ↔ ∃ s ∈ block.successorIds, presentationTarget ssa s = t := by
  simp [modelSuccessors, presentationSuccessors, presentationTarget, List.mem_insertionSort]

/-- The model has the edges of the function, each moved to where its jumps lead. -/
theorem modelEdge_iff {a c : Nat} :
    ModelEdge (fromRawPcode ssa) a c ↔ Collapse.Skips (RawEdge ssa) (presentationTarget ssa) a c := by
  constructor
  · intro h
    obtain ⟨succs, hsuccs, hc⟩ := h
    simp only [fromRawPcode, List.getElem?_map, Option.map_eq_some_iff] at hsuccs
    obtain ⟨block, hblock, rfl⟩ := hsuccs
    obtain ⟨s, hs, htarget⟩ := mem_modelSuccessors.mp hc
    exact ⟨s, ⟨block, hblock, hs⟩, htarget⟩
  · intro h
    obtain ⟨s, ⟨block, hblock, hs⟩, htarget⟩ := h
    refine ⟨modelSuccessors ssa block, ?_, mem_modelSuccessors.mpr ⟨s, hs, htarget⟩⟩
    simp [fromRawPcode, hblock]

/-- However far a chain of jumps is followed, only blocks that jump are passed. -/
theorem resolveJumpTarget_forwards (ssa : SsaFunction) (b limit : Nat) :
    Collapse.Forwards (RawEdge ssa) (JumpsOnly ssa) b (resolveJumpTarget ssa b limit) := by
  induction limit generalizing b with
  | zero => exact .refl b
  | succ limit ih =>
    unfold resolveJumpTarget
    split
    · exact .refl b
    rename_i block hblock
    split
    · rename_i hjump
      split
      · exact .refl b
      rename_i next hnext
      split
      · exact .refl b
      · exact .step ⟨block, hblock, hjump⟩ ⟨block, hblock, List.mem_of_mem_head? hnext⟩ (ih next)
    · exact .refl b

theorem quiet (ssa : SsaFunction) :
    Collapse.Quiet (RawEdge ssa) (JumpsOnly ssa) (fromRawPcode ssa).blockObservations where
  mute := by
    intro b h
    obtain ⟨block, hb, hjump⟩ := h
    exact blockObservations_of_isJumpOnly hb hjump
  forced := by
    intro a b c hsilent hab hac
    obtain ⟨block, hblock, hjump⟩ := hsilent
    obtain ⟨block', hblock', hb⟩ := hab
    obtain ⟨block'', hblock'', hc⟩ := hac
    obtain rfl : block = block' := Option.some.inj (hblock.symm.trans hblock')
    obtain rfl : block = block'' := Option.some.inj (hblock.symm.trans hblock'')
    have hone : block.successorIds.length = 1 := by
      simp only [SsaBlock.isJumpOnly, Bool.and_eq_true, decide_eq_true_eq] at hjump
      exact hjump.1.1.1
    obtain ⟨only, honly⟩ := List.length_eq_one_iff.mp hone
    rw [honly, List.mem_singleton] at hb hc
    rw [hb, hc]

/-- The blocks with an edge to this one, each once. -/
theorem mem_pred {a b : Nat} (hb : b < ssa.blocks.length) :
    a ∈ (fromRawPcode ssa).pred.getD b [] ↔ ModelEdge (fromRawPcode ssa) a b := by
  have hpred : (fromRawPcode ssa).pred.getD b [] = predecessorsIn (fromRawPcode ssa).succ b := by
    simp [fromRawPcode, hb]
  rw [hpred, predecessorsIn, List.mem_filter, List.mem_range, decide_eq_true_eq]
  constructor
  · intro h
    have hget := List.getElem?_eq_getElem h.1
    have hmem := h.2
    rw [List.getD_eq_getElem?_getD, hget, Option.getD_some] at hmem
    exact ⟨_, hget, hmem⟩
  · intro h
    obtain ⟨succs, hsuccs, hmem⟩ := h
    refine ⟨(List.getElem?_eq_some_iff.mp hsuccs).1, ?_⟩
    rw [List.getD_eq_getElem?_getD, hsuccs]
    exact hmem

/-- The edges of the model stay among its blocks. -/
theorem ModelEdge.lt
    (hvalid : ∀ block ∈ ssa.blocks, ∀ s ∈ block.successorIds, s < ssa.blocks.length) {a b : Nat}
    (h : ModelEdge (fromRawPcode ssa) a b) : b < ssa.blocks.length := by
  obtain ⟨s, ⟨block, hblock, hs⟩, rfl⟩ := modelEdge_iff.mp h
  exact resolveJumpTarget_lt hvalid (hvalid block (List.mem_of_getElem? hblock) s hs) 16

/-- From the entry, or any other block, the paths of the function and the paths of its
model show the same observations up to the same block, and the predecessor lists of the
model are its successor lists reversed. -/
theorem collapse_preserves (ssa : SsaFunction)
    (hvalid : ∀ block ∈ ssa.blocks, ∀ s ∈ block.successorIds, s < ssa.blocks.length) :
    (∀ entry b shown, ¬ JumpsOnly ssa b →
      (∃ n, Collapse.Shows (RawEdge ssa) (fromRawPcode ssa).blockObservations n entry b shown) →
        ∃ n, Collapse.Shows (ModelEdge (fromRawPcode ssa)) (fromRawPcode ssa).blockObservations n entry b shown) ∧
    (∀ entry b shown,
      (∃ n, Collapse.Shows (ModelEdge (fromRawPcode ssa)) (fromRawPcode ssa).blockObservations n entry b shown) →
        ∃ n, Collapse.Shows (RawEdge ssa) (fromRawPcode ssa).blockObservations n entry b shown) ∧
    (∀ a b, a ∈ (fromRawPcode ssa).pred.getD b [] ↔ b ∈ (fromRawPcode ssa).succ.getD a []) ∧
    ∀ b, ((fromRawPcode ssa).pred.getD b []).Nodup := by
  have hedges : ModelEdge (fromRawPcode ssa) = Collapse.Skips (RawEdge ssa) (presentationTarget ssa) := by
    funext a c
    exact propext modelEdge_iff
  have hforward : ∀ b, Collapse.Forwards (RawEdge ssa) (JumpsOnly ssa) b (presentationTarget ssa b) :=
    fun b => resolveJumpTarget_forwards ssa b 16
  refine ⟨?_, ?_, ?_, ?_⟩
  · intro entry b shown hb h
    obtain ⟨n, hn⟩ := h
    rw [hedges]
    exact hn.collapse (quiet ssa) hforward hb
  · intro entry b shown h
    obtain ⟨n, hn⟩ := h
    rw [hedges] at hn
    exact hn.expand (quiet ssa) hforward
  · intro a b
    have hedge : b ∈ (fromRawPcode ssa).succ.getD a [] ↔ ModelEdge (fromRawPcode ssa) a b := by
      unfold ModelEdge
      rw [List.getD_eq_getElem?_getD]
      cases (fromRawPcode ssa).succ[a]? with
      | none => simp
      | some succs => simp
    rw [hedge]
    by_cases hb : b < ssa.blocks.length
    · exact mem_pred hb
    · have hpred : (fromRawPcode ssa).pred.getD b [] = [] := by simp [fromRawPcode, hb]
      rw [hpred]
      exact ⟨fun h => absurd h List.not_mem_nil, fun h => absurd (ModelEdge.lt hvalid h) hb⟩
  · intro b
    by_cases hb : b < ssa.blocks.length
    · have hpred : (fromRawPcode ssa).pred.getD b [] = predecessorsIn (fromRawPcode ssa).succ b := by
        simp [fromRawPcode, hb]
      rw [hpred]
      exact List.nodup_range.filter _
    · have hpred : (fromRawPcode ssa).pred.getD b [] = [] := by simp [fromRawPcode, hb]
      rw [hpred]
      exact List.nodup_nil

section Example
open Structure.Emitter (functionOf codeAt)

/-- `t(); goto M; M: goto L; L: return;` -/
def hop : SsaFunction :=
  functionOf [([.pcode (.call (codeAt 0x2000)), .pcode (.branch (codeAt 0x1010))], [], [1]),
    ([.pcode (.branch (codeAt 0x1020))], [0], [2]), ([.pcode (.ret (codeAt 0))], [1], [])]

theorem collapse_preserves_hop :
    ∃ n, Collapse.Shows (ModelEdge (fromRawPcode hop)) (fromRawPcode hop).blockObservations n 0 2
      [⟨0, 0, .call (some 0x2000) 0, some 0x1000, 0⟩, ⟨1, 2, .ret, some 0x1020, 0⟩] := by
  refine (collapse_preserves hop (by decide)).1 0 2 _ ?_ ⟨2, ?_⟩
  · intro h
    obtain ⟨block, hb, hjump⟩ := h
    cases hb
    exact absurd hjump (by decide)
  · exact .step ⟨_, rfl, .head []⟩ (.step ⟨_, rfl, .head []⟩ (.stay 2))

end Example

end Windy.Decompiler.V2
