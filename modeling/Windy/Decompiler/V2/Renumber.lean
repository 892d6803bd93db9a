import Windy.Decompiler.V2.Contracts

/- Functions whose blocks are numbered differently.

   A renumbering moves the blocks and renames their successors and predecessors. Everything
   the classification asks of the graph is a question about paths, and paths are renamed
   along with the blocks: which edges are back edges (`isBackEdge_iff`), which blocks are in
   a loop, which arm leads to a latch.

   What is proved:
     `contracts_rename`: if the entry is the first block and stays it, a block has the same
     contracts in both functions, under its number in each. -/
namespace Windy.Decompiler

open Dominance (Above Ranked Dominates)

/-- The block under its new number. -/
def SsaBlock.rename (π : Equiv.Perm Nat) (block : SsaBlock) : SsaBlock :=
  { block with
    id := π block.id
    predecessorIds := block.predecessorIds.map π
    successorIds := block.successorIds.map π }

def SwitchInfo.rename (π : Equiv.Perm Nat) (info : SwitchInfo) : SwitchInfo :=
  { info with cases := info.cases.map fun entry => (entry.1, π entry.2) }

/-- The second function has the blocks of the first one under their new numbers. -/
structure Renumbers (π : Equiv.Perm Nat) (ssa ssa' : SsaFunction) : Prop where
  entryVa : ssa'.entryVa = ssa.entryVa
  bitness : ssa'.bitness = ssa.bitness
  imageBase : ssa'.imageBase = ssa.imageBase
  length : ssa'.blocks.length = ssa.blocks.length
  lt_iff : ∀ i, π i < ssa.blocks.length ↔ i < ssa.blocks.length
  block : ∀ i, ssa'.blocks[π i]? = (ssa.blocks[i]?).map (SsaBlock.rename π)

namespace SsaBlock
variable (π : Equiv.Perm Nat) (block : SsaBlock)

@[simp] theorem rename_ops : (block.rename π).ops = block.ops := rfl

@[simp] theorem rename_entryVa : (block.rename π).entryVa = block.entryVa := rfl

@[simp] theorem rename_successorIds : (block.rename π).successorIds = block.successorIds.map π := rfl

@[simp] theorem rename_predecessorIds : (block.rename π).predecessorIds = block.predecessorIds.map π := rfl

@[simp] theorem rename_hasReturn : (block.rename π).hasReturn = block.hasReturn := rfl

@[simp] theorem rename_isBranchInd : (block.rename π).isBranchInd = block.isBranchInd := rfl

@[simp] theorem rename_isCbranch : (block.rename π).isCbranch = block.isCbranch := rfl

@[simp] theorem rename_isJumpOnly : (block.rename π).isJumpOnly = block.isJumpOnly := by
  simp [isJumpOnly, isForwarding]

theorem rename_cbranchArms : (block.rename π).cbranchArms = block.cbranchArms.map fun arms => (π arms.1, π arms.2) := by
  unfold cbranchArms
  rw [rename_isCbranch, rename_successorIds]
  split
  · rcases block.successorIds with _ | ⟨fall, _ | ⟨taken, rest⟩⟩ <;> rfl
  · rfl

end SsaBlock

/-! ## The function with renumbered blocks -/

section Renumber
variable (π : Equiv.Perm Nat) (ssa : SsaFunction) (hlt : ∀ i, π i < ssa.blocks.length ↔ i < ssa.blocks.length)

theorem symm_lt {j : Nat} (hlt : ∀ i, π i < ssa.blocks.length ↔ i < ssa.blocks.length) (hj : j < ssa.blocks.length) :
    π.symm j < ssa.blocks.length := by
  rw [← hlt, π.apply_symm_apply]
  exact hj

def SsaFunction.renumber : SsaFunction :=
  { ssa with
    blocks := List.ofFn fun j : Fin ssa.blocks.length => (ssa.blocks.get ⟨π.symm j, symm_lt π ssa hlt j.isLt⟩).rename π
    id_eq := by
      intro j block hblock
      rw [List.getElem?_ofFn] at hblock
      split at hblock
      · next hj =>
        rw [← Option.some.inj hblock]
        have hid := ssa.id_eq (π.symm j) _ (List.getElem?_eq_getElem (symm_lt π ssa hlt hj))
        show π (ssa.blocks.get _).id = j
        rw [List.get_eq_getElem, hid, π.apply_symm_apply]
      · cases hblock }

theorem renumbers_renumber : Renumbers π ssa (ssa.renumber π hlt) where
  entryVa := rfl
  bitness := rfl
  imageBase := rfl
  length := List.length_ofFn
  lt_iff := hlt
  block := by
    intro i
    simp only [SsaFunction.renumber, List.getElem?_ofFn]
    by_cases hi : i < ssa.blocks.length
    · rw [dif_pos ((hlt i).mpr hi), List.getElem?_eq_getElem hi, Option.map_some]
      simp
    · rw [dif_neg (mt (hlt i).mp hi), List.getElem?_eq_none (Nat.le_of_not_lt hi)]
      rfl

end Renumber

theorem Renumbers.closed {π : Equiv.Perm Nat} {ssa ssa' : SsaFunction} (R : Renumbers π ssa ssa') (hclosed : ssa.Closed) :
    ssa'.Closed := by
  intro block' hblock' s' hs'
  obtain ⟨j, hj⟩ := List.mem_iff_getElem?.mp hblock'
  rw [← π.apply_symm_apply j, R.block] at hj
  obtain ⟨block, hblock, rfl⟩ := Option.map_eq_some_iff.mp hj
  obtain ⟨s, hs, rfl⟩ := List.mem_map.mp hs'
  rw [R.length, R.lt_iff]
  exact hclosed block (List.mem_of_getElem? hblock) s hs

namespace V2

section Rename
variable {π : Equiv.Perm Nat} {ssa ssa' : SsaFunction}

/-! ## Jumps and edges -/

theorem resolveJumpTarget_rename (R : Renumbers π ssa ssa') (b limit : Nat) :
    resolveJumpTarget ssa' (π b) limit = π (resolveJumpTarget ssa b limit) := by
  induction limit generalizing b with
  | zero => rfl
  | succ limit ih =>
    unfold resolveJumpTarget
    rw [R.block]
    cases ssa.blocks[b]? with
    | none => rfl
    | some block =>
      simp only [Option.map_some, SsaBlock.rename_isJumpOnly, SsaBlock.rename_successorIds, List.head?_map]
      split
      · cases block.successorIds.head? with
        | none => rfl
        | some next =>
          simp only [Option.map_some, EmbeddingLike.apply_eq_iff_eq, ih]
          split <;> rfl
      · rfl

theorem mem_modelSuccessors_rename (R : Renumbers π ssa ssa') {block : SsaBlock} {t : Nat} :
    π t ∈ modelSuccessors ssa' (block.rename π) ↔ t ∈ modelSuccessors ssa block := by
  simp [mem_modelSuccessors, presentationTarget, resolveJumpTarget_rename R]

theorem length_modelSuccessors_rename (R : Renumbers π ssa ssa') (block : SsaBlock) :
    (modelSuccessors ssa' (block.rename π)).length = (modelSuccessors ssa block).length := by
  have htargets : presentationSuccessors ssa' (block.rename π) = (presentationSuccessors ssa block).map π := by
    simp [presentationSuccessors, resolveJumpTarget_rename R, Function.comp_def]
  simp only [modelSuccessors, List.length_insertionSort, htargets, List.dedup_map_of_injective π.injective, List.length_map]

theorem edge_iff {hclosed : ssa.Closed} {a b : Nat} :
    (semanticGraph ssa hclosed).Edge a b ↔ ∃ block, ssa.blocks[a]? = some block ∧ b ∈ modelSuccessors ssa block := by
  simp only [Ssa.Cfg.Edge, Ssa.Cfg.succ, semanticGraph, Ssa.Cfg.ofSuccs, List.getD_eq_getElem?_getD, List.getElem?_map]
  cases ssa.blocks[a]? with
  | none => simp
  | some block => simp

theorem size_semanticGraph (hclosed : ssa.Closed) : (semanticGraph ssa hclosed).size = ssa.blocks.length := by
  simp [Ssa.Cfg.size, semanticGraph, Ssa.Cfg.ofSuccs]

variable {hclosed : ssa.Closed} {hclosed' : ssa'.Closed} {ls ls' : List Nat}

theorem edge_rename (hclosed : ssa.Closed) (hclosed' : ssa'.Closed) (R : Renumbers π ssa ssa') (a b : Nat) :
    (semanticGraph ssa hclosed).Edge a b ↔ (semanticGraph ssa' hclosed').Edge (π a) (π b) := by
  rw [edge_iff, edge_iff, R.block]
  cases ssa.blocks[a]? with
  | none => simp
  | some block => simp [mem_modelSuccessors_rename R]

/-! ## Back edges -/

theorem start_rename (R : Renumbers π ssa ssa') (hstart : ssa.start = 0) (hfirst : π 0 = 0) : ssa'.start = 0 := by
  unfold SsaFunction.start at hstart ⊢
  rw [R.entryVa]
  cases hfind : ssa.blocks.findIdx? fun b => b.entryVa = ssa.entryVa with
  | none =>
    have hnone : ssa'.blocks.findIdx? (fun b => b.entryVa = ssa.entryVa) = none := by
      rw [List.findIdx?_eq_none_iff] at hfind ⊢
      intro block' hblock'
      obtain ⟨j, hj⟩ := List.mem_iff_getElem?.mp hblock'
      rw [← π.apply_symm_apply j, R.block] at hj
      obtain ⟨block, hblock, rfl⟩ := Option.map_eq_some_iff.mp hj
      exact hfind block (List.mem_of_getElem? hblock)
    rw [hnone]
    rfl
  | some i =>
    have hi : i = 0 := by
      rw [hfind] at hstart
      exact hstart
    rw [hi] at hfind
    obtain ⟨hlt, hva, -⟩ := List.findIdx?_eq_some_iff_getElem.mp hfind
    have hzero : ssa'.blocks[0]? = some (ssa.blocks[0].rename π) := by
      have := R.block 0
      rwa [hfirst, List.getElem?_eq_getElem hlt] at this
    cases hblocks : ssa'.blocks with
    | nil => rfl
    | cons first rest =>
      rw [hblocks] at hzero
      rw [Option.some.inj hzero]
      have hva' : ssa.blocks[0].entryVa = ssa.entryVa := by simpa using hva
      simp [List.findIdx?_cons, hva']

/-- Climbing up a ranked tree finds the proper ancestors, if it goes on for long enough. -/
theorem climbsTo_iff {idom : Nat → Option Nat} {root bound : Nat} {rank : Nat → Nat} (hranked : Ranked idom root rank)
    (hbound : ∀ c, (idom c).isSome → rank c < bound) {a : Nat} (limit : Nat) {b : Nat} (hlimit : bound ≤ rank b + limit) :
    climbsTo idom a limit b ↔ Above idom b a ∧ a ≠ b := by
  induction limit generalizing b with
  | zero =>
    have hnone : idom b = none := by
      cases h : idom b with
      | none => rfl
      | some p =>
        have := hbound b (by rw [h]; rfl)
        omega
    constructor
    · intro h
      cases h
    · intro h
      exact absurd (h.1.of_none hnone).symm h.2
  | succ limit ih =>
    rw [climbsTo]
    cases hp : idom b with
    | none =>
      constructor
      · intro h
        cases h
      · intro h
        exact absurd (h.1.of_none hp).symm h.2
    | some p =>
      dsimp only
      by_cases hself : p = b
      · -- only the root is its own parent
        have hroot : b = root := by
          by_contra hne
          have := hranked.lt b p hp hne
          rw [hself] at this
          omega
        rw [if_pos hself]
        constructor
        · intro h
          cases h
        · intro h
          rw [hroot] at h
          exact absurd (hranked.above_root h.1) h.2
      · rw [if_neg hself]
        have hne : b ≠ root := by
          intro heq
          rw [heq, hranked.self] at hp
          exact hself ((Option.some.inj hp).symm.trans heq.symm)
        have hlt := hranked.lt b p hp hne
        by_cases ha : p = a
        · rw [if_pos ha, ← ha]
          exact iff_of_true rfl ⟨.single hp, hself⟩
        · rw [if_neg ha, ih (by omega)]
          constructor
          · intro h
            refine ⟨h.1.head hp, fun heq => ?_⟩
            have := hranked.le h.1
            rw [heq] at this
            omega
          · intro h
            rcases h.1.cases_head with heq | ⟨q, hq, habove⟩
            · exact absurd heq.symm h.2
            · rw [hp] at hq
              rw [← Option.some.inj hq] at habove
              exact ⟨habove, fun heq => ha heq.symm⟩

theorem isBackEdge_iff {g : Ssa.Cfg} {entry : Nat} (hentry : entry < g.size) (b h : Nat) :
    isBackEdge g.size b h (Ssa.buildIdom g entry) ↔ b = h ∨ Dominates g.Edge entry h b := by
  obtain ⟨hsettled, -⟩ := Ssa.buildIdom_settled hentry
  have hbound : ∀ c, (Ssa.buildIdom g entry c).isSome → (Ssa.dfs g entry).postorder c < g.size := fun c hc =>
    (Ssa.dfs_numbering hentry).lt c (hsettled.valid.reach c hc)
  have hclimbs := climbsTo_iff (a := h) (b := b) hsettled.valid.ranked hbound (g.size + 1) (by omega)
  simp only [isBackEdge, dominates, Bool.or_eq_true, decide_eq_true_eq, hclimbs]
  by_cases hself : b = h
  · simp [hself]
  · simp only [hself, Ne.symm hself, false_or, ne_eq, not_false_eq_true, and_true]
    constructor
    · intro habove
      have hreach : g.Reachable entry b := by
        by_contra hnot
        have hnone : Ssa.buildIdom g entry b = none := by
          cases hb : Ssa.buildIdom g entry b with
          | none => rfl
          | some p => exact absurd (hsettled.valid.reach b (by rw [hb]; rfl)) hnot
        exact hself (habove.of_none hnone)
      exact (Ssa.above_buildIdom hentry hreach).mp habove
    · exact fun hdom => (Ssa.above_buildIdom hentry hdom.1).mpr hdom

theorem mem_latches {g : Ssa.Cfg} {entry : Nat} (hentry : entry < g.size) {b h : Nat} :
    b ∈ latches g (Ssa.buildIdom g entry) h ↔ g.Edge b h ∧ (b = h ∨ Dominates g.Edge entry h b) := by
  simp only [latches, List.mem_filter, Bool.and_eq_true, List.contains_eq_mem, decide_eq_true_eq, isBackEdge_iff hentry,
    blockIds, List.mem_range]
  constructor
  · exact fun h => h.2
  · exact fun h => ⟨(Ssa.Cfg.mem_succ_lt h.1).1, h⟩

theorem mem_latches_rename (hclosed : ssa.Closed) (hclosed' : ssa'.Closed) (R : Renumbers π ssa ssa') (hsize : 0 < ssa.blocks.length) (hfirst : π 0 = 0) (b h : Nat) :
    b ∈ latches (semanticGraph ssa hclosed) (Ssa.buildIdom (semanticGraph ssa hclosed) 0) h ↔
      π b ∈ latches (semanticGraph ssa' hclosed') (Ssa.buildIdom (semanticGraph ssa' hclosed') 0) (π h) := by
  have hentry : 0 < (semanticGraph ssa hclosed).size := by rwa [size_semanticGraph]
  have hentry' : 0 < (semanticGraph ssa' hclosed').size := by rwa [size_semanticGraph, R.length]
  rw [mem_latches hentry, mem_latches hentry', ← edge_rename hclosed hclosed' R,
    Dominance.dominates_rename π (edge_rename hclosed hclosed' R), hfirst, EmbeddingLike.apply_eq_iff_eq]

/-! ## Searches -/

theorem mem_naturalLoopNodes {g : Ssa.Cfg} {header : Nat} {ls : List Nat} {b : Nat} :
    b ∈ naturalLoopNodes g header ls ↔
      b = header ∨ Search.Found (fun b => (g.pred b).filter (· ≠ header)) (fun _ => false) [header] ls.reverse b := by
  have hall : ∀ a ∉ blockIds g, (g.pred a).filter (· ≠ header) = [] := by
    intro a ha
    rw [List.filter_eq_nil_iff]
    intro p hp
    exact absurd (List.mem_range.mpr (Ssa.Cfg.mem_pred_lt hp).2) ha
  have hrounds : Search.rounds (fun b => (g.pred b).filter (· ≠ header)) (blockIds g) ls =
      Search.rounds (fun b => (g.pred b).filter (· ≠ header)) (blockIds g) ls.reverse := by
    simp [Search.rounds]
  rw [naturalLoopNodes, hrounds, Search.mem_search_rounds (show (blockIds g).Nodup from List.nodup_range) hall,
    List.mem_singleton]

theorem mem_naturalLoopNodes_rename (R : Renumbers π ssa ssa') {header : Nat}
    (hls : ∀ b, b ∈ ls ↔ π b ∈ ls') (b : Nat) :
    b ∈ naturalLoopNodes (semanticGraph ssa hclosed) header ls ↔
      π b ∈ naturalLoopNodes (semanticGraph ssa' hclosed') (π header) ls' := by
  rw [mem_naturalLoopNodes, mem_naturalLoopNodes, EmbeddingLike.apply_eq_iff_eq]
  apply or_congr Iff.rfl
  apply Search.found_rename π
  · intro a c
    simp [Ssa.Cfg.mem_pred_iff, ← edge_rename hclosed hclosed' R]
  · exact fun _ => rfl
  · simp
  · simpa using hls

theorem canReach_iff {g : Ssa.Cfg} {start target avoid : Nat} :
    canReach g start target avoid ↔
      start = target ∨ Search.Found g.succ (fun b => b = avoid && b ≠ start) [] [start] target := by
  have hall : ∀ a ∉ blockIds g, g.succ a = [] := by
    intro a ha
    rw [List.eq_nil_iff_forall_not_mem]
    intro b hb
    exact absurd (List.mem_range.mpr (Ssa.Cfg.mem_succ_lt hb).1) ha
  simp only [canReach, Bool.or_eq_true, decide_eq_true_eq, List.contains_eq_mem,
    Search.mem_search_rounds (show (blockIds g).Nodup from List.nodup_range) hall, List.not_mem_nil, false_or]

theorem canReach_rename (R : Renumbers π ssa ssa') (start target avoid : Nat) :
    canReach (semanticGraph ssa' hclosed') (π start) (π target) (π avoid) =
      canReach (semanticGraph ssa hclosed) start target avoid := by
  rw [Bool.eq_iff_iff, canReach_iff, canReach_iff, EmbeddingLike.apply_eq_iff_eq]
  apply or_congr Iff.rfl
  symm
  apply Search.found_rename π
  · exact fun a c => edge_rename hclosed hclosed' R a c
  · simp
  · simp
  · simp

/-! ## Regions -/

/-- What the bundle reads of a region. -/
def contracts (region : Option Region) : Option LoopContractV2 × Option CaseContractV2 :=
  (region.bind loopContractV2, region.bind caseContractV2)

/-- Both are there or none is, and the bundle reads the same of both. -/
structure SameKind (a b : Option Region) : Prop where
  isSome : a.isSome = b.isSome
  contracts : contracts a = contracts b

theorem SameKind.or {a b a' b' : Option Region} (ha : SameKind a a') (hb : SameKind b b') :
    SameKind (a.or b) (a'.or b') := by
  cases a with
  | none =>
    cases a' with
    | none => simpa using hb
    | some _ => cases ha.isSome
  | some _ =>
    cases a' with
    | none => cases ha.isSome
    | some _ => simpa using ha

theorem SameKind.ite {p q : Prop} [Decidable p] [Decidable q] {a b a' b' : Option Region} (hpq : p ↔ q)
    (ha : SameKind a a') (hb : SameKind b b') : SameKind (if p then a else b) (if q then a' else b') := by
  by_cases h : p
  · rw [if_pos h, if_pos (hpq.mp h)]
    exact ha
  · rw [if_neg h, if_neg (mt hpq.mpr h)]
    exact hb

variable {switches : List Decompiler.SwitchInfo}

theorem arms_rename (hclosed : ssa.Closed) (hclosed' : ssa'.Closed) (R : Renumbers π ssa ssa') (block : SsaBlock) :
    (semanticClassifier ssa' hclosed' (switches.map (SwitchInfo.rename π))).arms (block.rename π) =
      ((semanticClassifier ssa hclosed switches).arms block).map fun arms => (π arms.1, π arms.2) := by
  simp [Classifier.arms, Classifier.mapArm, semanticClassifier, SsaBlock.rename_cbranchArms, resolveJumpTarget_rename R,
    Function.comp_def]

theorem labels_switchCases_rename (π : Equiv.Perm Nat) (hclosed : ssa.Closed) (hclosed' : ssa'.Closed) (switches : List Decompiler.SwitchInfo)
    (block : SsaBlock) :
    (((semanticClassifier ssa' hclosed' (switches.map (SwitchInfo.rename π))).switchCases (block.rename π)).map Prod.fst) =
      ((semanticClassifier ssa hclosed switches).switchCases block).map Prod.fst := by
  have hfind : (semanticClassifier ssa' hclosed' (switches.map (SwitchInfo.rename π))).switchByVa block.entryVa =
      ((semanticClassifier ssa hclosed switches).switchByVa block.entryVa).map (SwitchInfo.rename π) := by
    simp only [Classifier.switchByVa, semanticClassifier, ← List.map_reverse, List.find?_map]
    rfl
  unfold Classifier.switchCases
  rw [SsaBlock.rename_entryVa, hfind]
  cases (semanticClassifier ssa hclosed switches).switchByVa block.entryVa with
  | none =>
    apply List.ext_getElem?
    intro k
    simp only [Option.map_none, SsaBlock.rename_successorIds, List.getElem?_map, List.getElem?_mapIdx, Option.map_map]
    rfl
  | some info => simp [SwitchInfo.rename, Function.comp_def]

theorem switchRegion_rename (b : Nat) (block : SsaBlock) :
    SameKind ((semanticClassifier ssa hclosed switches).switchRegion b block)
      ((semanticClassifier ssa' hclosed' (switches.map (SwitchInfo.rename π))).switchRegion (π b) (block.rename π)) := by
  have hlabels : _ = ((semanticClassifier ssa hclosed switches).switchCases block).map Prod.fst :=
    labels_switchCases_rename π hclosed hclosed' switches block
  have hlength := congrArg List.length hlabels
  rw [List.length_map, List.length_map] at hlength
  unfold Classifier.switchRegion
  rw [SsaBlock.rename_isBranchInd, SsaBlock.rename_successorIds, List.length_map]
  split
  · exact ⟨rfl, by simp [contracts, loopContractV2, caseContractV2, hlabels, hlength]⟩
  · exact ⟨rfl, rfl⟩

theorem returnRegion_rename (block : SsaBlock) :
    SameKind (Classifier.returnRegion block) (Classifier.returnRegion (block.rename π)) := by
  unfold Classifier.returnRegion
  rw [SsaBlock.rename_hasReturn]
  exact ⟨rfl, rfl⟩

theorem selfLoop_rename (R : Renumbers π ssa ssa') (header : Nat) (block : SsaBlock) :
    SameKind ((semanticClassifier ssa hclosed switches).selfLoop header block)
      ((semanticClassifier ssa' hclosed' (switches.map (SwitchInfo.rename π))).selfLoop (π header) (block.rename π)) := by
  unfold Classifier.selfLoop
  rw [arms_rename hclosed hclosed' R]
  cases (semanticClassifier ssa hclosed switches).arms block with
  | none => exact ⟨rfl, rfl⟩
  | some arms =>
    simp only [Option.map_some, EmbeddingLike.apply_eq_iff_eq]
    exact .ite Iff.rfl ⟨rfl, rfl⟩ ⟨rfl, rfl⟩

theorem whileLoop_rename (R : Renumbers π ssa ssa') (header : Nat) (hls : ∀ b, b ∈ ls ↔ π b ∈ ls')
    (block : SsaBlock) :
    SameKind ((semanticClassifier ssa hclosed switches).whileLoop header ls block)
      ((semanticClassifier ssa' hclosed' (switches.map (SwitchInfo.rename π))).whileLoop (π header) ls' (block.rename π)) := by
  unfold Classifier.whileLoop
  rw [arms_rename hclosed hclosed' R]
  cases (semanticClassifier ssa hclosed switches).arms block with
  | none => exact ⟨rfl, rfl⟩
  | some arms =>
    have hnodes : ∀ arm, (naturalLoopNodes (semanticGraph ssa' hclosed') (π header) ls').contains (π arm) =
        (naturalLoopNodes (semanticGraph ssa hclosed) header ls).contains arm := by
      intro arm
      rw [Bool.eq_iff_iff, List.contains_iff_mem, List.contains_iff_mem]
      exact (mem_naturalLoopNodes_rename R hls arm).symm
    have htoLatch : ∀ arm, (ls'.any fun l => canReach (semanticGraph ssa' hclosed') (π arm) l (π header)) =
        ls.any fun l => canReach (semanticGraph ssa hclosed) arm l header := by
      intro arm
      rw [Bool.eq_iff_iff, List.any_eq_true, List.any_eq_true]
      constructor
      · intro h
        obtain ⟨l', hl', hreach⟩ := h
        obtain ⟨l, rfl⟩ := π.surjective l'
        exact ⟨l, (hls l).mpr hl', (canReach_rename R arm l header).symm.trans hreach⟩
      · intro h
        obtain ⟨l, hl, hreach⟩ := h
        exact ⟨π l, (hls l).mp hl, (canReach_rename R arm l header).trans hreach⟩
    simp only [Option.map_some, semanticClassifier, hnodes, htoLatch, EmbeddingLike.apply_eq_iff_eq]
    apply SameKind.ite Iff.rfl
    · exact .ite Iff.rfl ⟨rfl, rfl⟩ ⟨rfl, rfl⟩
    · apply SameKind.ite Iff.rfl
      · exact .ite Iff.rfl ⟨rfl, rfl⟩ ⟨rfl, rfl⟩
      · exact ⟨rfl, rfl⟩

theorem latchArms_rename (hclosed : ssa.Closed) (hclosed' : ssa'.Closed) (R : Renumbers π ssa ssa') (latch : Nat) :
    (semanticClassifier ssa' hclosed' (switches.map (SwitchInfo.rename π))).latchArms (π latch) =
      ((semanticClassifier ssa hclosed switches).latchArms latch).map fun arms => (π arms.1, π arms.2) := by
  simp only [Classifier.latchArms, semanticClassifier, R.block]
  cases ssa.blocks[latch]? with
  | none => rfl
  | some block => exact SsaBlock.rename_cbranchArms π block

/-- Searches for a first loop over the same latches in different orders find loops of the same kind. -/
theorem findSome_sameKind (hls : ∀ b, b ∈ ls ↔ π b ∈ ls') {f f' : Nat → Option Region}
    (hsome : ∀ b, (f' (π b)).isSome = (f b).isSome) (hkind : ∀ b r, f b = some r → ∃ body cond exit, r = .doWhile body cond exit)
    (hkind' : ∀ b r, f' b = some r → ∃ body cond exit, r = .doWhile body cond exit) :
    SameKind (ls.findSome? f) (ls'.findSome? f') := by
  have hiff : (ls.findSome? f).isSome = (ls'.findSome? f').isSome := by
    rw [Bool.eq_iff_iff, List.findSome?_isSome_iff, List.findSome?_isSome_iff]
    constructor
    · intro h
      obtain ⟨b, hb, hsomeb⟩ := h
      exact ⟨π b, (hls b).mp hb, (hsome b).trans hsomeb⟩
    · intro h
      obtain ⟨b', hb', hsomeb⟩ := h
      obtain ⟨b, rfl⟩ := π.surjective b'
      exact ⟨b, (hls b).mpr hb', (hsome b).symm.trans hsomeb⟩
  refine ⟨hiff, ?_⟩
  cases h : ls.findSome? f with
  | none =>
    rw [h, Option.isSome_none, eq_comm, Option.isSome_eq_false_iff, Option.isNone_iff_eq_none] at hiff
    rw [hiff]
  | some r =>
    rw [h, Option.isSome_some, eq_comm, Option.isSome_iff_exists] at hiff
    obtain ⟨r', h'⟩ := hiff
    obtain ⟨b, -, hb⟩ := List.exists_of_findSome?_eq_some h
    obtain ⟨b', -, hb'⟩ := List.exists_of_findSome?_eq_some h'
    obtain ⟨_, _, _, rfl⟩ := hkind b r hb
    obtain ⟨_, _, _, rfl⟩ := hkind' b' r' hb'
    rw [h']
    rfl

theorem isDoWhile_of_doWhileLoop {c : Classifier} {header latch : Nat} {r : Region}
    (h : c.doWhileLoop header [latch] = some r) : ∃ body cond exit, r = .doWhile body cond exit := by
  rw [Classifier.doWhileLoop, List.findSome?_cons, List.findSome?_nil] at h
  split at h
  · rename_i found hfound
    obtain rfl := Option.some.inj h
    split at hfound
    · cases hfound
    · split at hfound
      · split at hfound
        · exact ⟨_, _, _, (Option.some.inj hfound).symm⟩
        · cases hfound
      · cases hfound
  · cases h

theorem doWhileLoop_rename (R : Renumbers π ssa ssa') (header : Nat) (hls : ∀ b, b ∈ ls ↔ π b ∈ ls') :
    SameKind ((semanticClassifier ssa hclosed switches).doWhileLoop header ls)
      ((semanticClassifier ssa' hclosed' (switches.map (SwitchInfo.rename π))).doWhileLoop (π header) ls') := by
  apply findSome_sameKind hls
  · intro latch
    rw [latchArms_rename hclosed hclosed' R]
    simp only [EmbeddingLike.apply_eq_iff_eq]
    cases (semanticClassifier ssa hclosed switches).latchArms latch with
    | none => rfl
    | some arms =>
      simp only [Option.map_some, EmbeddingLike.apply_eq_iff_eq]
      split
      · rfl
      · split <;> rfl
  · exact fun latch r h => isDoWhile_of_doWhileLoop (by rw [Classifier.doWhileLoop, List.findSome?_cons, h])
  · exact fun latch r h => isDoWhile_of_doWhileLoop (by rw [Classifier.doWhileLoop, List.findSome?_cons, h])

theorem residualLoop_rename (R : Renumbers π ssa ssa') (header : Nat) (hls : ∀ b, b ∈ ls ↔ π b ∈ ls') :
    SameKind ((semanticClassifier ssa hclosed switches).residualLoop header ls)
      ((semanticClassifier ssa' hclosed' (switches.map (SwitchInfo.rename π))).residualLoop (π header) ls') := by
  apply findSome_sameKind hls
  · intro latch
    rw [latchArms_rename hclosed hclosed' R]
    cases (semanticClassifier ssa hclosed switches).latchArms latch <;> rfl
  · intro latch r h
    split at h
    · exact ⟨_, _, _, (Option.some.inj h).symm⟩
    · cases h
  · intro latch r h
    split at h
    · exact ⟨_, _, _, (Option.some.inj h).symm⟩
    · cases h

theorem loopRegion_rename (R : Renumbers π ssa ssa') (hsize : 0 < ssa.blocks.length) (hstart : ssa.start = 0)
    (hfirst : π 0 = 0) (header : Nat) (block : SsaBlock) {before before' : Option Region} (hbefore : SameKind before before') :
    SameKind ((semanticClassifier ssa hclosed switches).loopRegion header block before)
      ((semanticClassifier ssa' hclosed' (switches.map (SwitchInfo.rename π))).loopRegion (π header) (block.rename π)
        before') := by
  have hmem := fun b => mem_latches_rename hclosed hclosed' R hsize hfirst b header
  simp only [Classifier.loopRegion, semanticClassifier, hstart, start_rename R hstart hfirst]
  cases hls : latches (semanticGraph ssa hclosed) (Ssa.buildIdom (semanticGraph ssa hclosed) 0) header with
  | nil =>
    have hnil : latches (semanticGraph ssa' hclosed') (Ssa.buildIdom (semanticGraph ssa' hclosed') 0) (π header) = [] := by
      rw [List.eq_nil_iff_forall_not_mem]
      intro b' hb'
      obtain ⟨b, rfl⟩ := π.surjective b'
      have := (hmem b).mpr hb'
      rw [hls] at this
      cases this
    rw [hnil]
    exact hbefore
  | cons l rest =>
    rw [hls] at hmem
    cases hls' : latches (semanticGraph ssa' hclosed') (Ssa.buildIdom (semanticGraph ssa' hclosed') 0) (π header) with
    | nil =>
      have := (hmem l).mp List.mem_cons_self
      rw [hls'] at this
      cases this
    | cons l' rest' =>
      rw [hls'] at hmem
      exact (selfLoop_rename R header block).or <| (whileLoop_rename R header hmem block).or <|
        (doWhileLoop_rename R header hmem).or <| hbefore.or (residualLoop_rename R header hmem)

theorem contracts_ifRegion (c : Classifier) (b : Nat) (block : SsaBlock) : contracts (c.ifRegion b block) = (none, none) := by
  unfold Classifier.ifRegion
  split
  · simp only
    split
    · rfl
    · split
      · rfl
      · split <;> rfl
  · rfl

/-- A region that is looked for only where there is none changes nothing, if the bundle
reads nothing of it. -/
theorem SameKind.contracts_or {a a' b b' : Option Region} (ha : SameKind a a') (hb : V2.contracts b = (none, none))
    (hb' : V2.contracts b' = (none, none)) : V2.contracts (a.or b) = V2.contracts (a'.or b') := by
  cases a with
  | none =>
    cases a' with
    | none => simpa using hb.trans hb'.symm
    | some _ => cases ha.isSome
  | some _ =>
    cases a' with
    | none => cases ha.isSome
    | some _ => simpa using ha.contracts

/-- A block has the same contracts under its new number. -/
theorem contracts_rename (R : Renumbers π ssa ssa') (hstart : ssa.start = 0) (hfirst : π 0 = 0) (b : Nat) :
    contracts (semanticRegions ssa hclosed switches b) =
      contracts (semanticRegions ssa' hclosed' (switches.map (SwitchInfo.rename π)) (π b)) := by
  unfold semanticRegions classifyWithAdj
  have hblock : (semanticClassifier ssa' hclosed' (switches.map (SwitchInfo.rename π))).ssa.blocks[π b]? =
      ((semanticClassifier ssa hclosed switches).ssa.blocks[b]?).map (SsaBlock.rename π) := R.block b
  rw [hblock]
  cases hb : (semanticClassifier ssa hclosed switches).ssa.blocks[b]? with
  | none => rfl
  | some block =>
    have hsize : 0 < ssa.blocks.length := Nat.zero_lt_of_lt (List.getElem?_eq_some_iff.mp hb).1
    apply SameKind.contracts_or
    · apply loopRegion_rename R hsize hstart hfirst
      exact (switchRegion_rename b block).or (returnRegion_rename block)
    · exact contracts_ifRegion _ _ _
    · exact contracts_ifRegion _ _ _

end Rename

end V2

end Windy.Decompiler
