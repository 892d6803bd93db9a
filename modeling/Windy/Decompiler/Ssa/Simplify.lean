import Windy.Lib.Worklist
import Windy.Decompiler.Structure.Effects

/- The simplification of a function in SSA form (`decompiler/ssa/simplify.rs`).

   Copies and trivial phis make a variable an alias of another; every use is re-pointed to
   the root of its aliases. What no side effect and no value in RAX needs is removed, and
   last of all what refers to itself.

   Aliases are kept as the list of the links that were made, the newest first. A link leads
   from a root to a root, so the links of a variable end at its root in the order they were
   made in, whether or not the source has shortened its chains in between (`find`).

   What is proved:
     1. `live_closed`: what the live operations use is defined by live operations.
     2. `mem_simplify`: the operations that are left are the live ones that do not refer to
        themselves.
     3. `simplify_closed_iff`: so every variable that is used keeps its definition exactly
        when no operation that is left uses one that refers to itself.

   Correspondence:
     `find`, `resolve_var`, `is_side_effect` ↔ the same
     `simplify`, pass 1 ↔ `copyStep`
     `simplify`, pass 2 ↔ `phiStep`, `phiRounds`
     `simplify`, pass 3 ↔ `repoint`
     `simplify`, pass 4 ↔ `seeds`, `uses`, `liveOps`; `refersToItself` -/
namespace Windy.Decompiler.Simplify

structure SsaConstant where
  va : Nat
  value : Nat
  size : Nat
  deriving DecidableEq, Repr

structure SsaCopy where
  defVa : Nat
  targetVa : Nat
  deriving DecidableEq, Repr

structure SsaAnalysis where
  opCountBefore : Nat
  opCountAfter : Nat
  copiesPropagated : Nat
  constantsPropagated : Nat
  phisCollapsed : Nat
  deadOpsRemoved : Nat
  constants : List SsaConstant
  copies : List SsaCopy

/-! ## Operations -/

def flatOps (ssa : SsaFunction) : List SsaOp := ssa.blocks.flatMap SsaBlock.ops

/-- The block of each operation. -/
def blockOf (ssa : SsaFunction) : List Nat :=
  ssa.blocks.zipIdx.flatMap fun entry => entry.1.ops.map fun _ => entry.2

/-- The position of the operation that defines a variable, the last one if there are more. -/
def defIndex (work : List SsaOp) (v : SsaVar) : Option Nat :=
  (work.zipIdx.reverse.find? fun entry => entry.1.def? = some v).map Prod.snd

def isSideEffect (op : SsaOp) : Bool :=
  match op.kind with
  | .pcode (.store _ _) | .pcode (.load _ _) | .pcode (.branch _) | .pcode (.cbranch _ _) | .pcode (.branchInd _)
  | .pcode (.call _) | .pcode (.callInd _) | .pcode (.ret _) | .pcode (.callOther _ _) => true
  | _ => false

def isCopy (op : SsaOp) : Bool :=
  match op.kind with
  | .pcode (.copy _ _) => true
  | _ => false

/-- The variables an operation uses, and those that a phi merges. -/
def usedVars (op : SsaOp) : List SsaVar :=
  op.uses ++ match op.kind with
    | .phi _ args => args.filterMap id
    | .pcode _ => []

def isRax (v : SsaVar) : Bool := v.location = .register 0

/-! ## Aliases -/

def find : List (SsaVar × SsaVar) → SsaVar → SsaVar
  | [], v => v
  | (source, target) :: older, v => if find older v = source then target else find older v

/-- What the first two passes find out. -/
structure Aliasing where
  links : List (SsaVar × SsaVar)
  constVal : SsaVar → Option (Nat × Nat)
  constants : List SsaConstant
  copies : List SsaCopy
  phisCollapsed : Nat

/-- An operation of the first pass. -/
def copyStep (work : List SsaOp) (a : Aliasing) (op : SsaOp) : Aliasing :=
  match op.kind, op.def? with
  | .pcode (.copy _ input), some d =>
    if input.space = .const then
      { a with
        constVal := Function.update a.constVal d (some (input.offset, input.size))
        constants := a.constants ++ [⟨op.va, input.offset, input.size⟩] }
    else
      match op.uses.head? with
      | none => a
      | some target =>
        let rd := find a.links d
        let rt := find a.links target
        if rd = rt then a
        else
          let targetVa := (((defIndex work target).bind fun i => work[i]?).map SsaOp.va).getD 0
          { a with links := (rd, rt) :: a.links, copies := a.copies ++ [⟨op.va, targetVa⟩] }
  | _, _ => a

inductive ResolvedArg where
  | var (v : SsaVar)
  | const (value size : Nat)
  deriving DecidableEq, Repr

def resolveVar (a : Aliasing) (v : SsaVar) : ResolvedArg :=
  let root := find a.links v
  match (a.constVal root).or (a.constVal v) with
  | some (value, size) => .const value size
  | none => .var root

/-- What all arguments of a phi resolve to, if they are all defined and there is one. -/
def phiValue (a : Aliasing) (args : List (Option SsaVar)) : Option ResolvedArg :=
  match args.mapM fun arg => arg.map (resolveVar a) with
  | some (first :: rest) => if rest.all (· = first) then some first else none
  | _ => none

/-- An operation of a round of the second pass, and whether a phi has collapsed in it. -/
def phiStep (s : Aliasing × Bool) (op : SsaOp) : Aliasing × Bool :=
  match op.kind with
  | .phi out args =>
    match phiValue s.1 args with
    | some (.var t) =>
      let rd := find s.1.links out
      let rt := find s.1.links t
      if rd = rt then s
      else ({ s.1 with links := (rd, rt) :: s.1.links, phisCollapsed := s.1.phisCollapsed + 1 }, true)
    | some (.const value size) =>
      ({ s.1 with constVal := Function.update s.1.constVal out (some (value, size)) }, s.2)
    | none => s
  | .pcode _ => s

def phiRounds (work : List SsaOp) : Nat → Aliasing → Aliasing
  | 0, a => a
  | rounds + 1, a =>
    let (a, changed) := work.foldl phiStep (a, false)
    if changed then phiRounds work rounds a else a

def aliasing (ssa : SsaFunction) : Aliasing :=
  let work := flatOps ssa
  phiRounds work (work.length + 1) (work.foldl (copyStep work) ⟨[], fun _ => none, [], [], 0⟩)

/-! ## Re-pointing -/

def repointKind (root : SsaVar → SsaVar) : SsaOpKind → SsaOpKind
  | .phi out args => .phi out (args.map (Option.map root))
  | .pcode code => .pcode code

theorem isCall_repointKind (root : SsaVar → SsaVar) (kind : SsaOpKind) :
    (repointKind root kind).isCall = kind.isCall := by
  cases kind <;> rfl

/-- Every use leads to the root of its aliases; definitions stay. -/
def repoint (root : SsaVar → SsaVar) (op : SsaOp) : SsaOp where
  va := op.va
  kind := repointKind root op.kind
  def? := op.def?
  uses := op.uses.map root
  call_def := by
    rw [isCall_repointKind]
    exact op.call_def

/-- The operations before any is removed. -/
def repointed (ssa : SsaFunction) : List SsaOp := (flatOps ssa).map (repoint (find (aliasing ssa).links))

/-! ## Dead code -/

/-- The side effects, and where the function returns whatever defines RAX, with the root of
its aliases. -/
def seeds (root : SsaVar → SsaVar) (work : List SsaOp) : List Nat :=
  let effects := (work.zipIdx.filter fun entry => isSideEffect entry.1).map Prod.snd
  let values := work.zipIdx.flatMap fun entry =>
    match entry.1.def? with
    | none => []
    | some d =>
      if isRax d then
        entry.2 :: if root d ≠ d && !isRax (root d) then (defIndex work (root d)).toList else []
      else []
  effects ++ if work.any SsaOp.isReturn then values else []

/-- The operations that define what an operation uses. -/
def uses (work : List SsaOp) (i : Nat) : List Nat :=
  match work[i]? with
  | none => []
  | some op => (usedVars op).filterMap (defIndex work)

def liveOps (ssa : SsaFunction) : List Nat :=
  let work := repointed ssa
  (Worklist.close (uses work) work.length (Worklist.Work.addAll ⟨[], []⟩ (seeds (find (aliasing ssa).links) work))).marked

/-- A pure operation, other than a copy, with its own result among what it uses. -/
def refersToItself (root : SsaVar → SsaVar) (op : SsaOp) : Bool :=
  !isSideEffect op && !isCopy op && match op.def? with
    | none => false
    | some d => (usedVars op).contains (root d)

def retained (ssa : SsaFunction) (i : Nat) : Bool :=
  (liveOps ssa).contains i && !(((repointed ssa)[i]?).any (refersToItself (find (aliasing ssa).links)))

/-- The operations of a block that are left. -/
def keptOps (ssa : SsaFunction) (bi : Nat) : List SsaOp :=
  (((repointed ssa).zip (blockOf ssa)).zipIdx.filter fun entry => entry.1.2 = bi && retained ssa entry.2).map
    fun entry => entry.1.1

def simplified (ssa : SsaFunction) : SsaFunction where
  entryVa := ssa.entryVa
  bitness := ssa.bitness
  blocks := ssa.blocks.mapIdx fun bi block => { block with id := bi, ops := keptOps ssa bi }
  imageBase := ssa.imageBase
  id_eq := by
    intro i b hb
    rw [List.getElem?_mapIdx] at hb
    obtain ⟨block, -, rfl⟩ := Option.map_eq_some_iff.mp hb
    rfl

def simplify (ssa : SsaFunction) : SsaFunction × SsaAnalysis :=
  let a := aliasing ssa
  let before := (flatOps ssa).length
  let after := (flatOps (simplified ssa)).length
  (simplified ssa,
    { opCountBefore := before
      opCountAfter := after
      copiesPropagated := a.copies.length
      constantsPropagated := a.constants.length
      phisCollapsed := a.phisCollapsed
      deadOpsRemoved := before - after - a.copies.length - a.phisCollapsed
      constants := a.constants
      copies := a.copies })

/-! ## Definitions -/

/-- Every variable is defined by one operation at most. -/
def SingleDefs (ssa : SsaFunction) : Prop := ((flatOps ssa).filterMap SsaOp.def?).Nodup

instance (ssa : SsaFunction) : Decidable (SingleDefs ssa) := inferInstanceAs (Decidable (List.Nodup _))

/-- What is used is still defined, where it was before. -/
def KeepsDefs (before after : SsaFunction) : Prop :=
  ∀ op ∈ flatOps after, ∀ v ∈ usedVars op, (∃ op' ∈ flatOps before, op'.def? = some v) →
    ∃ op' ∈ flatOps after, op'.def? = some v

variable {work : List SsaOp}

theorem defIndex_eq_some {v : SsaVar} {i : Nat} (h : defIndex work v = some i) :
    ∃ op, work[i]? = some op ∧ op.def? = some v := by
  obtain ⟨entry, hentry, rfl⟩ := Option.map_eq_some_iff.mp h
  have hmem : entry ∈ work.zipIdx := List.mem_reverse.mp (List.mem_of_find?_eq_some hentry)
  have hdef := List.find?_some hentry
  exact ⟨entry.1, List.mem_zipIdx_iff_getElem?.mp hmem, by simpa using hdef⟩

theorem exists_defIndex {v : SsaVar} {op : SsaOp} (hop : op ∈ work) (hdef : op.def? = some v) :
    ∃ i, defIndex work v = some i := by
  obtain ⟨i, hi⟩ := List.mem_iff_getElem?.mp hop
  have hfound : (work.zipIdx.reverse.find? fun entry => entry.1.def? = some v).isSome := by
    rw [List.find?_isSome]
    exact ⟨(op, i), List.mem_reverse.mpr (List.mem_zipIdx_iff_getElem?.mpr hi), by simpa using hdef⟩
  obtain ⟨entry, hentry⟩ := Option.isSome_iff_exists.mp hfound
  exact ⟨entry.2, by rw [defIndex, hentry]; rfl⟩

theorem uses_lt {i j : Nat} (h : j ∈ uses work i) : j < work.length := by
  unfold uses at h
  split at h
  · cases h
  · obtain ⟨v, -, hv⟩ := List.mem_filterMap.mp h
    obtain ⟨op, hop, -⟩ := defIndex_eq_some hv
    exact (List.getElem?_eq_some_iff.mp hop).1

theorem seeds_lt {root : SsaVar → SsaVar} {i : Nat} (h : i ∈ seeds root work) :
    i < work.length := by
  have hentry : ∀ {entry : SsaOp × Nat}, entry ∈ work.zipIdx → entry.2 < work.length := fun hmem =>
    (List.getElem?_eq_some_iff.mp (List.mem_zipIdx_iff_getElem?.mp hmem)).1
  rcases List.mem_append.mp h with heffect | hvalue
  · obtain ⟨entry, hmem, rfl⟩ := List.mem_map.mp heffect
    exact hentry (List.mem_filter.mp hmem).1
  · split at hvalue
    · obtain ⟨entry, hmem, hi⟩ := List.mem_flatMap.mp hvalue
      split at hi
      · cases hi
      rename_i d _
      split at hi
      · rcases List.mem_cons.mp hi with rfl | hroot
        · exact hentry hmem
        split at hroot
        · obtain ⟨op, hop, -⟩ := defIndex_eq_some (Option.mem_toList.mp hroot)
          exact (List.getElem?_eq_some_iff.mp hop).1
        · cases hroot
      · cases hi
    · cases hvalue

/-! ## Live operations -/

/-- What a live operation uses is defined by a live operation. -/
theorem live_closed (ssa : SsaFunction) :
    (∀ i ∈ liveOps ssa, i < (repointed ssa).length) ∧
      ∀ i ∈ liveOps ssa, ∀ j ∈ uses (repointed ssa) i, j ∈ liveOps ssa := by
  have hall : ∀ i ∈ Finset.range (repointed ssa).length, ∀ j ∈ uses (repointed ssa) i,
      j ∈ Finset.range (repointed ssa).length := fun i _ j hj => Finset.mem_range.mpr (uses_lt hj)
  have hempty : Worklist.Invariant (uses (repointed ssa)) (Finset.range (repointed ssa).length) [] ⟨[], []⟩ :=
    ⟨List.nodup_nil, by simp, by simp, by simp⟩
  have hseeds : ∀ i ∈ seeds (find (aliasing ssa).links) (repointed ssa), i ∈ Finset.range (repointed ssa).length :=
    fun i hi => Finset.mem_range.mpr (seeds_lt hi)
  have hleft : Worklist.left (Finset.range (repointed ssa).length)
      (Worklist.Work.addAll ⟨[], []⟩ (seeds (find (aliasing ssa).links) (repointed ssa))) ≤ (repointed ssa).length := by
    rw [hempty.left_addAll hseeds]
    simp [Worklist.left]
  obtain ⟨hbounded, hclosed⟩ := Worklist.close_closed hall (hempty.addAll hseeds) hleft
  exact ⟨fun i hi => Finset.mem_range.mp (hbounded i hi), hclosed⟩

/-! ## What is left -/

theorem length_repointed (ssa : SsaFunction) : (repointed ssa).length = (flatOps ssa).length := by
  simp [repointed]

theorem length_blockOf (ssa : SsaFunction) : (blockOf ssa).length = (flatOps ssa).length := by
  unfold blockOf flatOps
  rw [List.length_flatMap, List.length_flatMap]
  congr 1
  calc (ssa.blocks.zipIdx.map fun entry => (entry.1.ops.map fun _ => entry.2).length)
      = ssa.blocks.zipIdx.map ((fun block => block.ops.length) ∘ Prod.fst) := by simp [Function.comp_def]
    _ = (ssa.blocks.zipIdx.map Prod.fst).map fun block => block.ops.length := List.map_map.symm
    _ = ssa.blocks.map fun block => block.ops.length := by rw [List.zipIdx_map_fst]

variable {ssa : SsaFunction}

theorem blockOf_lt {bi : Nat} (h : bi ∈ blockOf ssa) : bi < ssa.blocks.length := by
  obtain ⟨entry, hmem, hbi⟩ := List.mem_flatMap.mp h
  obtain ⟨_, -, rfl⟩ := List.mem_map.mp hbi
  exact (List.getElem?_eq_some_iff.mp (List.mem_zipIdx_iff_getElem?.mp hmem)).1

theorem mem_keptOps {bi : Nat} {op : SsaOp} :
    op ∈ keptOps ssa bi ↔ ∃ i, retained ssa i ∧ (repointed ssa)[i]? = some op ∧ (blockOf ssa)[i]? = some bi := by
  unfold keptOps
  constructor
  · intro h
    obtain ⟨entry, hentry, rfl⟩ := List.mem_map.mp h
    obtain ⟨hmem, hkept⟩ := List.mem_filter.mp hentry
    rw [Bool.and_eq_true, decide_eq_true_eq] at hkept
    have hget := List.getElem?_zip_eq_some.mp (List.mem_zipIdx_iff_getElem?.mp hmem)
    exact ⟨entry.2, hkept.2, hget.1, hkept.1 ▸ hget.2⟩
  · intro h
    obtain ⟨i, hkept, hop, hbi⟩ := h
    have hget : ((repointed ssa).zip (blockOf ssa))[i]? = some (op, bi) := List.getElem?_zip_eq_some.mpr ⟨hop, hbi⟩
    refine List.mem_map.mpr ⟨((op, bi), i), List.mem_filter.mpr ⟨List.mem_zipIdx_iff_getElem?.mpr hget, ?_⟩, rfl⟩
    simp [hkept]

/-- The operations that are left are those that are retained. -/
theorem mem_simplify {op : SsaOp} :
    op ∈ flatOps (simplify ssa).1 ↔ ∃ i, retained ssa i ∧ (repointed ssa)[i]? = some op := by
  constructor
  · intro h
    obtain ⟨block, hblock, hop⟩ := List.mem_flatMap.mp h
    obtain ⟨bi, hlt, rfl⟩ := List.mem_mapIdx.mp hblock
    obtain ⟨i, hkept, hi, -⟩ := mem_keptOps.mp hop
    exact ⟨i, hkept, hi⟩
  · intro h
    obtain ⟨i, hkept, hi⟩ := h
    have hlt : i < (blockOf ssa).length := by
      rw [length_blockOf, ← length_repointed]
      exact (List.getElem?_eq_some_iff.mp hi).1
    have hbi := List.getElem?_eq_getElem hlt
    have hblock := blockOf_lt (List.mem_of_getElem? hbi)
    exact List.mem_flatMap.mpr ⟨_, List.mem_mapIdx.mpr ⟨_, hblock, rfl⟩, mem_keptOps.mpr ⟨i, hkept, hi, hbi⟩⟩

/-- No operation that is left uses what an operation that refers to itself defines. -/
def SelfFree (ssa : SsaFunction) : Prop :=
  ∀ i ∈ liveOps ssa, ∀ op, (repointed ssa)[i]? = some op → refersToItself (find (aliasing ssa).links) op = false →
    ∀ v ∈ usedVars op, ∀ op' ∈ repointed ssa, op'.def? = some v → refersToItself (find (aliasing ssa).links) op' = false

theorem retained_iff {i : Nat} {op : SsaOp} (hop : (repointed ssa)[i]? = some op) :
    retained ssa i ↔ i ∈ liveOps ssa ∧ refersToItself (find (aliasing ssa).links) op = false := by
  simp [retained, hop]

theorem def_repointed {i : Nat} {op : SsaOp} (hop : (repointed ssa)[i]? = some op) :
    ∃ op', (flatOps ssa)[i]? = some op' ∧ op'.def? = op.def? := by
  rw [repointed, List.getElem?_map] at hop
  obtain ⟨op', hop', rfl⟩ := Option.map_eq_some_iff.mp hop
  exact ⟨op', hop', rfl⟩

theorem SingleDefs.index_unique (h : SingleDefs ssa) {i j : Nat} {op op' : SsaOp} {v : SsaVar}
    (hi : (flatOps ssa)[i]? = some op) (hj : (flatOps ssa)[j]? = some op') (hdef : op.def? = some v)
    (hdef' : op'.def? = some v) : i = j := by
  have hpairs := List.pairwise_iff_getElem.mp (List.pairwise_filterMap.mp h)
  obtain ⟨hilt, rfl⟩ := List.getElem?_eq_some_iff.mp hi
  obtain ⟨hjlt, rfl⟩ := List.getElem?_eq_some_iff.mp hj
  rcases Nat.lt_trichotomy i j with hlt | heq | hgt
  · exact absurd rfl (hpairs i j hilt hjlt hlt v hdef v hdef')
  · exact heq
  · exact absurd rfl (hpairs j i hjlt hilt hgt v hdef' v hdef)

/-- Re-pointing keeps the definitions in their places. -/
theorem SingleDefs.repointed (h : SingleDefs ssa) {i j : Nat} {op op' : SsaOp} {v : SsaVar}
    (hi : (repointed ssa)[i]? = some op) (hj : (Simplify.repointed ssa)[j]? = some op') (hdef : op.def? = some v)
    (hdef' : op'.def? = some v) : i = j := by
  obtain ⟨before, hbefore, heq⟩ := def_repointed hi
  obtain ⟨before', hbefore', heq'⟩ := def_repointed hj
  exact h.index_unique hbefore hbefore' (heq.trans hdef) (heq'.trans hdef')

theorem exists_def_repointed {v : SsaVar} :
    (∃ op ∈ flatOps ssa, op.def? = some v) ↔ ∃ op ∈ repointed ssa, op.def? = some v := by
  simp [repointed, repoint]

/-- Every variable that is used keeps its definition exactly when no operation that is left
uses one that refers to itself. -/
theorem simplify_closed_iff (ssa : SsaFunction) (hsingle : SingleDefs ssa) :
    KeepsDefs ssa (simplify ssa).1 ↔ SelfFree ssa := by
  constructor
  · intro h i hlive op hop hself v hv op' hop' hdef
    have hleft : op ∈ flatOps (simplify ssa).1 := mem_simplify.mpr ⟨i, (retained_iff hop).mpr ⟨hlive, hself⟩, hop⟩
    obtain ⟨kept, hkept, hkeptDef⟩ := h op hleft v hv (exists_def_repointed.mpr ⟨op', hop', hdef⟩)
    obtain ⟨k, hretained, hk⟩ := mem_simplify.mp hkept
    obtain ⟨j, hj⟩ := List.mem_iff_getElem?.mp hop'
    -- there is one definition only, so the one that is left is this one
    obtain rfl : k = j := hsingle.repointed hk hj hkeptDef hdef
    obtain rfl : kept = op' := Option.some.inj (hk.symm.trans hj)
    exact ((retained_iff hk).mp hretained).2
  · intro h op hop v hv hdefined
    obtain ⟨i, hretained, hi⟩ := mem_simplify.mp hop
    obtain ⟨hlive, hself⟩ := (retained_iff hi).mp hretained
    obtain ⟨op', hop', hdef⟩ := exists_def_repointed.mp hdefined
    obtain ⟨j, hj⟩ := exists_defIndex hop' hdef
    obtain ⟨found, hfound, hfoundDef⟩ := defIndex_eq_some hj
    have huses : j ∈ uses (repointed ssa) i := by
      rw [uses, hi]
      exact List.mem_filterMap.mpr ⟨v, hv, hj⟩
    have hkept : retained ssa j := (retained_iff hfound).mpr
      ⟨(live_closed ssa).2 i hlive j huses, h i hlive op hi hself v hv found (List.mem_of_getElem? hfound) hfoundDef⟩
    exact ⟨found, mem_simplify.mpr ⟨j, hkept, hfound⟩, hfoundDef⟩

section Example
open Structure.Emitter (codeAt flagAt)

def rcx (version : Nat) : SsaVar := ⟨.register 8, version⟩

def rcxNode : Varnode := ⟨.register, 8, 8⟩

def one : Varnode := ⟨.const, 1, 8⟩

def storeRcx (va version : Nat) : SsaOp :=
  ⟨va, .pcode (.store (codeAt 0x4000) rcxNode), none, [rcx version], by simp⟩

def addRcx (va used defined : Nat) : SsaOp :=
  ⟨va, .pcode (.intAdd rcxNode rcxNode one), some (rcx defined), [rcx used], by simp [SsaOpKind.isCall]⟩

/-- `rcx = rcx + 1; *p = rcx; return;` -/
def stored : SsaFunction where
  entryVa := 0x1000
  bitness := 64
  blocks := [⟨0, 0x1000, [addRcx 0x1000 0 1, storeRcx 0x1004 1, ⟨0x1008, .pcode (.ret (codeAt 0)), none, [], by simp⟩], [], []⟩]
  imageBase := 0
  id_eq := by
    intro i b h
    match i, h with
    | 0, h => cases h; rfl
    | _ + 1, h => cases h

theorem simplify_closed_stored : KeepsDefs stored (simplify stored).1 := by
  refine (simplify_closed_iff stored (by decide)).mpr ?_
  intro i _ op _ _ v _ op' hop' _
  have hnone : ∀ op ∈ repointed stored, refersToItself (find (aliasing stored).links) op = false := by decide
  exact hnone op' hop'

/-- A loop that stores RCX and either counts it up or goes on with it as it is. -/
def mergedLoop : SsaFunction where
  entryVa := 0x1000
  bitness := 64
  blocks :=
    [⟨0, 0x1000, [addRcx 0x1000 0 1, ⟨0x1004, .pcode (.branch (codeAt 0x1010)), none, [], by simp⟩], [], [1]⟩,
     ⟨1, 0x1010, [⟨0, .phi (rcx 2) [some (rcx 1), some (rcx 3), some (rcx 2)], some (rcx 2), [], by simp [SsaOpKind.isCall]⟩,
        storeRcx 0x1010 2, ⟨0x1014, .pcode (.cbranch (codeAt 0x1030) (flagAt 0x200)), none, [], by simp⟩], [0, 2, 3], [2, 3]⟩,
     ⟨2, 0x1020, [addRcx 0x1020 2 3, ⟨0x1024, .pcode (.branch (codeAt 0x1010)), none, [], by simp⟩], [1], [1]⟩,
     ⟨3, 0x1030, [⟨0x1030, .pcode (.cbranch (codeAt 0x1010) (flagAt 0x206)), none, [], by simp⟩], [1], [4, 1]⟩,
     ⟨4, 0x1040, [⟨0x1040, .pcode (.ret (codeAt 0)), none, [], by simp⟩], [3], []⟩]
  imageBase := 0
  id_eq := by
    intro i b h
    match i, h with
    | 0, h => cases h; rfl
    | 1, h => cases h; rfl
    | 2, h => cases h; rfl
    | 3, h => cases h; rfl
    | 4, h => cases h; rfl
    | _ + 5, h => cases h

/-- The phi at the head of the loop is gone, and what it defined is still stored. -/
theorem mergedLoop_loses :
    SingleDefs mergedLoop ∧ storeRcx 0x1010 2 ∈ flatOps (simplify mergedLoop).1 ∧
      ¬ KeepsDefs mergedLoop (simplify mergedLoop).1 := by
  have hstore : storeRcx 0x1010 2 ∈ flatOps (simplify mergedLoop).1 := mem_simplify.mpr ⟨3, by decide, rfl⟩
  have hgone : ∀ op ∈ flatOps (simplify mergedLoop).1, op.def? ≠ some (rcx 2) := by decide
  refine ⟨by decide, hstore, fun h => ?_⟩
  obtain ⟨op, hop, hdef⟩ := h _ hstore (rcx 2) (by decide) ⟨_, .tail _ (.tail _ (.head _)), rfl⟩
  exact hgone op hop hdef

end Example

end Windy.Decompiler.Simplify
