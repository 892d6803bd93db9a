import Windy.Lib.Fields
import Windy.Decompiler.V2.Renumber

/- Which contracts are reproducible.

   The lists of loops and of switches take over the order in which the region map is gone
   through, and the terminators the order of the blocks; the fingerprints print the lists as
   they are. A list of at most one element has only one order.

   What is proved:
     `reproducible_iff`: the fingerprints of a function depend neither on the order in which
     the region map is gone through nor on the numbers of the blocks exactly when there is at
     most one loop, at most one switch, and, if there is none and the first block is the
     entry, the other blocks that end in several ways all end in equally many. -/
namespace Windy.Decompiler.V2

open Bel (Enumerates)
open Structure (ContractSet)

/-! ## Texts -/

section Texts
variable {sep : Char}

theorem not_mem_debugList (hdigit : sep.isDigit = false) (hsep : sep ∉ "[, -]".toList) (ns : List Int) :
    sep ∉ (debugList ns).toList := by
  simp only [show "[, -]".toList = ['[', ',', ' ', '-', ']'] from rfl, List.mem_cons, not_or] at hsep
  have hints : sep ∉ (", ".toList).intercalate ((ns.map toString).map String.toList) := by
    apply Fields.not_mem_intercalate
    · simp [hsep]
    · intro l hl
      simp only [List.map_map, List.mem_map] at hl
      obtain ⟨n, -, rfl⟩ := hl
      exact Fields.not_mem_int hdigit hsep.2.2.2.1 n
  simp only [debugList, String.toList_append, String.toList_intercalate, List.mem_append, not_or]
  exact ⟨⟨by simp [hsep], hints⟩, by simp [hsep]⟩

theorem header_of_part {l m : Structure.LoopContract} (h : l.part = m.part) : l.header = m.header := by
  have hpart : ∀ l : Structure.LoopContract, l.part = (String.singleton ':').intercalate
      ["L", l.kind.debug, toString l.header, toString l.bodyEntry, toString l.exit] := by
    intro l
    apply String.toList_injective
    simp [Structure.LoopContract.part]
  have hfields : ∀ l : Structure.LoopContract,
      ∀ field ∈ ["L", l.kind.debug, toString l.header, toString l.bodyEntry, toString l.exit], ':' ∉ field.toList := by
    intro l
    have hkind : ':' ∉ l.kind.debug.toList := by cases l.kind <;> decide
    simp only [List.forall_mem_cons]
    exact ⟨by decide, hkind, Fields.not_mem_nat rfl _, Fields.not_mem_nat rfl _, Fields.not_mem_nat rfl _, by simp⟩
  rw [hpart, hpart] at h
  have hlists := Fields.join_inj (hfields l) (hfields m) (by simp) (by simp) h
  simp only [List.cons.injEq] at hlists
  exact Fields.nat_inj (congrArg String.toList hlists.2.2.1)

theorem switchBlock_of_part {c d : Structure.CasePartition} (h : c.part = d.part) : c.switchBlock = d.switchBlock := by
  have hpart : ∀ c : Structure.CasePartition, c.part = (String.singleton ':').intercalate
      ["C", toString c.switchBlock, debugList c.caseValues] := by
    intro c
    apply String.toList_injective
    simp [Structure.CasePartition.part]
  have hfields : ∀ c : Structure.CasePartition,
      ∀ field ∈ ["C", toString c.switchBlock, debugList c.caseValues], ':' ∉ field.toList := by
    intro c
    simp only [List.forall_mem_cons]
    exact ⟨by decide, Fields.not_mem_nat rfl _, not_mem_debugList rfl (by decide) _, by simp⟩
  rw [hpart, hpart] at h
  have hlists := Fields.join_inj (hfields c) (hfields d) (by simp) (by simp) h
  simp only [List.cons.injEq] at hlists
  exact Fields.nat_inj (congrArg String.toList hlists.2.1)

theorem caseCount_of_part {c d : CaseContractV2} (h : c.part = d.part) : c.caseCount = d.caseCount := by
  have hpart : ∀ c : CaseContractV2, c.part = (String.singleton ':').intercalate
      ["C", toString c.caseCount, "def" ++ toString c.hasDefault.toNat, debugList c.labels] := by
    intro c
    apply String.toList_injective
    simp [CaseContractV2.part]
  have hfields : ∀ c : CaseContractV2,
      ∀ field ∈ ["C", toString c.caseCount, "def" ++ toString c.hasDefault.toNat, debugList c.labels], ':' ∉ field.toList := by
    intro c
    have hdefault : ':' ∉ ("def" ++ toString c.hasDefault.toNat).toList := by
      rw [String.toList_append, List.mem_append, not_or]
      exact ⟨by decide, Fields.not_mem_nat rfl _⟩
    simp only [List.forall_mem_cons]
    exact ⟨by decide, Fields.not_mem_nat rfl _, hdefault, not_mem_debugList rfl (by decide) _, by simp⟩
  rw [hpart, hpart] at h
  have hlists := Fields.join_inj (hfields c) (hfields d) (by simp) (by simp) h
  simp only [List.cons.injEq] at hlists
  exact Fields.nat_inj (congrArg String.toList hlists.2.1)

theorem bar_loopPart (l : Structure.LoopContract) : '|' ∉ l.part.toList := by
  have hkind : '|' ∉ l.kind.debug.toList := by cases l.kind <;> decide
  have hnat : ∀ n : Nat, '|' ∉ (toString n).toList := Fields.not_mem_nat rfl
  simp only [Structure.LoopContract.part, String.toList_append, List.mem_append, not_or]
  exact ⟨⟨⟨⟨⟨⟨⟨by decide, hkind⟩, by decide⟩, hnat _⟩, by decide⟩, hnat _⟩, by decide⟩, hnat _⟩

theorem bar_casePart (c : Structure.CasePartition) : '|' ∉ c.part.toList := by
  simp only [Structure.CasePartition.part, String.toList_append, List.mem_append, not_or]
  exact ⟨⟨⟨by decide, Fields.not_mem_nat rfl _⟩, by decide⟩, not_mem_debugList rfl (by decide) _⟩

theorem bar_count (word : String) (n : Nat) (h : '|' ∉ word.toList) : '|' ∉ (word ++ toString n).toList := by
  rw [String.toList_append, List.mem_append, not_or]
  exact ⟨h, Fields.not_mem_nat rfl n⟩

theorem bar_classTag (returnOps : List String) (hasReturn : Bool) : '|' ∉ (Structure.classTag returnOps hasReturn).toList := by
  unfold Structure.classTag
  split
  · decide
  · split
    · decide
    · split
      · decide
      · split <;> decide

theorem bar_exitClass (ssa : SsaFunction) : '|' ∉ (exitClass ssa).toList := by
  unfold exitClass
  simp only
  split
  · decide
  · split
    · decide
    · split
      · decide
      · split <;> decide

/-- The parts of the fingerprint of a contract set can be read off it. -/
theorem fromRegions_parts_inj {ssa : SsaFunction} {entries entries' : List (Nat × Region)}
    (h : (ContractSet.fromRegions ssa entries).fingerprint = (ContractSet.fromRegions ssa entries').fingerprint) :
    (ContractSet.fromRegions ssa entries).parts = (ContractSet.fromRegions ssa entries').parts := by
  have hfree : ∀ entries, ∀ part ∈ (ContractSet.fromRegions ssa entries).parts, '|' ∉ part.toList := by
    intro entries part hpart
    have hclass := bar_classTag
      ((ssa.blocks.filter SsaBlock.hasReturn).flatMap fun block => block.ops.filterMap Structure.returnOp)
      (entries.any (fun entry => entry.2 = .ret) || ssa.blocks.any SsaBlock.hasReturn)
    simp only [ContractSet.parts, List.mem_append, List.mem_cons, List.mem_map] at hpart
    rcases hpart with ((rfl | ⟨l, -, rfl⟩) | hret) | rfl | ⟨c, -, rfl⟩
    · exact bar_count _ _ (by decide)
    · exact bar_loopPart l
    · simp only [ContractSet.fromRegions, Option.map_some, Option.toList_some, List.mem_singleton] at hret
      rw [hret, String.toList_append, List.mem_append, not_or]
      exact ⟨by decide, hclass⟩
    · exact bar_count _ _ (by decide)
    · exact bar_casePart c
  exact Fields.join_inj (hfree entries) (hfree entries') (by simp [ContractSet.parts]) (by simp [ContractSet.parts]) h

theorem bar_loopPartV2 {region : Region} {l : LoopContractV2} (h : loopContractV2 region = some l) : '|' ∉ l.part.toList := by
  unfold loopContractV2 at h
  split at h
  · rw [← Option.some.inj h]
    decide
  · rw [← Option.some.inj h]
    decide
  · cases h

theorem bar_casePartV2 (c : CaseContractV2) : '|' ∉ c.part.toList := by
  simp only [CaseContractV2.part, String.toList_append, List.mem_append, not_or]
  exact ⟨⟨⟨⟨⟨by decide, Fields.not_mem_nat rfl _⟩, by decide⟩, Fields.not_mem_nat rfl _⟩, by decide⟩,
    not_mem_debugList rfl (by decide) _⟩

/-- The parts of the fingerprint of a bundle can be read off it. -/
theorem fromSemantic_parts_inj {ssa ssa' : SsaFunction} {entries entries' : List (Nat × Region)}
    (h : (StableBundle.fromSemantic ssa entries).fingerprint = (StableBundle.fromSemantic ssa' entries').fingerprint) :
    (StableBundle.fromSemantic ssa entries).parts = (StableBundle.fromSemantic ssa' entries').parts := by
  have hfree : ∀ ssa entries, ∀ part ∈ (StableBundle.fromSemantic ssa entries).parts, '|' ∉ part.toList := by
    intro ssa entries part hpart
    simp only [StableBundle.parts, List.mem_append, List.mem_cons, List.mem_map] at hpart
    rcases hpart with (rfl | ⟨l, hl, rfl⟩) | rfl | rfl | ⟨c, -, rfl⟩
    · exact bar_count _ _ (by decide)
    · obtain ⟨entry, -, hentry⟩ := List.mem_filterMap.mp hl
      exact bar_loopPartV2 hentry
    · rw [String.toList_append, List.mem_append, not_or]
      exact ⟨by decide, bar_exitClass ssa⟩
    · exact bar_count _ _ (by decide)
    · exact bar_casePartV2 c
  exact Fields.join_inj (hfree ssa entries) (hfree ssa' entries') (by simp [StableBundle.parts]) (by simp [StableBundle.parts]) h

end Texts

section Entries
variable {β : Type} {regions regions' : RegionMap} {entries entries' : List (Nat × Region)} {read : Region → Option β}

/-! ## Lists over the region map -/

/-- At most one block has a region of which something is read. -/
def AtMostOne (regions : RegionMap) (read : Region → Option β) : Prop :=
  ∀ a b, ((regions a).bind read).isSome → ((regions b).bind read).isSome → a = b

theorem mem_filterMap_entries (henum : Enumerates entries regions) {x : β} :
    (x ∈ entries.filterMap fun entry => read entry.2) ↔ ∃ b, (regions b).bind read = some x := by
  rw [List.mem_filterMap]
  constructor
  · intro h
    obtain ⟨entry, hentry, hx⟩ := h
    exact ⟨entry.1, Option.bind_eq_some_iff.mpr ⟨entry.2, (henum.mem_iff _ _).mp hentry, hx⟩⟩
  · intro h
    obtain ⟨b, hb⟩ := h
    obtain ⟨region, hregion, hx⟩ := Option.bind_eq_some_iff.mp hb
    exact ⟨(b, region), (henum.mem_iff _ _).mpr hregion, hx⟩

theorem length_le_one_iff (henum : Enumerates entries regions) :
    (entries.filterMap fun entry => read entry.2).length ≤ 1 ↔ AtMostOne regions read := by
  have hlength : (entries.filterMap fun entry => read entry.2).length =
      (entries.filter fun entry => (read entry.2).isSome).length := by
    rw [List.length_filterMap_eq_countP, List.countP_eq_length_filter]
  have hmem : ∀ b, ((regions b).bind read).isSome →
      ∃ region, (b, region) ∈ entries.filter fun entry => (read entry.2).isSome := by
    intro b hb
    obtain ⟨x, hx⟩ := Option.isSome_iff_exists.mp hb
    obtain ⟨region, hregion, hread⟩ := Option.bind_eq_some_iff.mp hx
    refine ⟨region, List.mem_filter.mpr ⟨(henum.mem_iff _ _).mpr hregion, ?_⟩⟩
    rw [hread]
    rfl
  rw [hlength]
  constructor
  · intro hshort a b ha hb
    obtain ⟨ra, hra⟩ := hmem a ha
    obtain ⟨rb, hrb⟩ := hmem b hb
    exact congrArg Prod.fst (Fields.eq_of_mem_short hshort hra hrb)
  · intro hone
    apply Fields.short_of_nodup (henum.nodup.filter _)
    intro x hx y hy
    have hx' := List.mem_filter.mp hx
    have hy' := List.mem_filter.mp hy
    have hrx := (henum.mem_iff x.1 x.2).mp hx'.1
    have hry := (henum.mem_iff y.1 y.2).mp hy'.1
    have hkey : x.1 = y.1 := hone x.1 y.1 (by rw [hrx]; exact hx'.2) (by rw [hry]; exact hy'.2)
    rw [← hkey, hrx] at hry
    exact Prod.ext hkey (Option.some.inj hry)

/-- Lists that are read off at most one region do not depend on the order of the entries. -/
theorem filterMap_entries_eq (henum : Enumerates entries regions) (henum' : Enumerates entries' regions')
    (hone : AtMostOne regions read) (hone' : AtMostOne regions' read)
    (hsame : ∀ x, (∃ b, (regions b).bind read = some x) ↔ ∃ b, (regions' b).bind read = some x) :
    (entries.filterMap fun entry => read entry.2) = entries'.filterMap fun entry => read entry.2 := by
  apply Fields.eq_of_short ((length_le_one_iff henum).mpr hone) ((length_le_one_iff henum').mpr hone')
  intro x
  rw [mem_filterMap_entries henum, mem_filterMap_entries henum', hsame x]

/-- Lists that are read off at most one region do not depend on the numbers of the blocks. -/
theorem filterMap_entries_rename {π : Equiv.Perm Nat} (henum : Enumerates entries regions)
    (henum' : Enumerates entries' regions') (hread : ∀ b, (regions' (π b)).bind read = (regions b).bind read)
    (hone : AtMostOne regions read) :
    (entries.filterMap fun entry => read entry.2) = entries'.filterMap fun entry => read entry.2 := by
  apply filterMap_entries_eq henum henum' hone
  · intro a' b' ha' hb'
    obtain ⟨a, rfl⟩ := π.surjective a'
    obtain ⟨b, rfl⟩ := π.surjective b'
    rw [hread] at ha' hb'
    exact congrArg π (hone a b ha' hb')
  · intro x
    symm
    rw [π.surjective.exists]
    simp only [hread]

end Entries

section Blocks
variable {π : Equiv.Perm Nat} {ssa ssa' : SsaFunction}

/-! ## Blocks -/

theorem filterMap_range_getElem? {α : Type} (l : List α) : (List.range l.length).filterMap (l[·]?) = l := by
  induction l with
  | nil => rfl
  | cons x l ih =>
    rw [List.length_cons, List.range_succ_eq_map, List.filterMap_cons]
    simp [List.filterMap_map, ih]

theorem blocks_perm (R : Renumbers π ssa ssa') : (ssa.blocks.map (SsaBlock.rename π)).Perm ssa'.blocks := by
  have hids : (List.range ssa.blocks.length).Perm ((List.range ssa.blocks.length).map π) := by
    rw [List.perm_ext_iff_of_nodup List.nodup_range (List.nodup_range.map π.injective)]
    intro i
    obtain ⟨j, rfl⟩ := π.surjective i
    simp [R.lt_iff]
  have hblocks : ((List.range ssa.blocks.length).map π).filterMap (ssa'.blocks[·]?) =
      ssa.blocks.map (SsaBlock.rename π) := by
    rw [List.filterMap_map, Function.comp_def]
    simp only [R.block, ← List.map_filterMap, filterMap_range_getElem?]
  have hperm := (hids.filterMap (ssa'.blocks[·]?)).symm
  rwa [hblocks, ← R.length, filterMap_range_getElem?] at hperm

/-- The blocks after the first one keep their places among themselves, up to their order. -/
theorem tail_perm (R : Renumbers π ssa ssa') (hfirst : π 0 = 0) :
    (ssa.blocks.tail.map (SsaBlock.rename π)).Perm ssa'.blocks.tail := by
  have hperm := blocks_perm R
  have hzero := R.block 0
  rw [hfirst] at hzero
  cases hblocks : ssa.blocks with
  | nil =>
    rw [hblocks] at hperm
    rw [List.nil_perm.mp hperm]
    exact List.Perm.refl _
  | cons first rest =>
    cases hblocks' : ssa'.blocks with
    | nil =>
      rw [hblocks, hblocks'] at hzero
      cases hzero
    | cons first' rest' =>
      rw [hblocks, hblocks'] at hzero hperm
      rw [Option.some.inj hzero] at hperm
      exact hperm.cons_inv

/-! ## Cases without a switch region -/

/-- The case a block makes of its terminator. -/
def blockCase (ssa : SsaFunction) (block : SsaBlock) : Option CaseContractV2 :=
  terminatorCase (classifyTerminator block (modelSuccessors ssa block))

theorem terminators_filterMap (ssa : SsaFunction) :
    (fromRawPcode ssa).terminators.filterMap terminatorCase = ssa.blocks.filterMap (blockCase ssa) := by
  simp only [fromRawPcode, List.filterMap_map]
  rfl

theorem blockCase_eq (ssa : SsaFunction) (block : SsaBlock) :
    blockCase ssa block =
      if block.hasReturn = false ∧ 2 ≤ (modelSuccessors ssa block).length ∧ (hasBranchInd block ∨ block.isCbranch = false) then
        some ⟨(modelSuccessors ssa block).length, false, indexLabels (modelSuccessors ssa block).length, "terminator"⟩
      else none := by
  unfold blockCase classifyTerminator
  cases block.hasReturn with
  | true => simp [terminatorCase]
  | false =>
    cases hasBranchInd block with
    | true =>
      by_cases hlen : 2 ≤ (modelSuccessors ssa block).length
      · simp [terminatorCase, hlen]
      · match hsucc : modelSuccessors ssa block with
        | [] => simp [terminatorCase]
        | [target] => simp [terminatorCase]
        | _ :: _ :: _ => exact absurd (by rw [hsucc]; simp) hlen
    | false =>
      cases block.isCbranch with
      | true =>
        match modelSuccessors ssa block with
        | [] => simp [terminatorCase]
        | [target] => simp [terminatorCase]
        | _ :: _ :: _ => simp [terminatorCase]
      | false =>
        match modelSuccessors ssa block with
        | [] => simp [terminatorCase]
        | [target] => simp [terminatorCase]
        | _ :: _ :: _ => simp [terminatorCase]

theorem blockCase_rename (R : Renumbers π ssa ssa') (block : SsaBlock) :
    blockCase ssa' (block.rename π) = blockCase ssa block := by
  rw [blockCase_eq, blockCase_eq, length_modelSuccessors_rename R]
  rfl

/-- Cases of blocks with equally many ways out are the same. -/
theorem blockCase_inj {block other : SsaBlock} {c d : CaseContractV2} (hc : blockCase ssa block = some c)
    (hd : blockCase ssa' other = some d) (h : c.caseCount = d.caseCount) : c = d := by
  rw [blockCase_eq, Option.ite_none_right_eq_some] at hc hd
  rw [← Option.some.inj hc.2, ← Option.some.inj hd.2] at h ⊢
  dsimp only at h
  rw [h]

/-- The labels of an indirect branch with several targets. -/
def multiwayLabels (block : SsaBlock) : Option (List Int) :=
  if block.isBranchInd ∧ 2 ≤ block.successorIds.length then some (indexLabels block.successorIds.length) else none

theorem filterMap_zipIdx {α β : Type} (f : α → Option β) (l : List α) : (l.zipIdx.filterMap fun entry => f entry.1) = l.filterMap f := by
  calc (l.zipIdx.filterMap fun entry => f entry.1) = (l.zipIdx.map Prod.fst).filterMap f := by
        rw [List.filterMap_map]
        rfl
    _ = l.filterMap f := by rw [List.zipIdx_map_fst]

theorem multiwayCases_labels (ssa : SsaFunction) :
    (Structure.multiwayCases ssa).map (·.caseValues) = ssa.blocks.filterMap multiwayLabels := by
  rw [Structure.multiwayCases, List.map_filterMap, ← filterMap_zipIdx multiwayLabels]
  congr 1
  funext entry
  unfold multiwayLabels
  split <;> rfl

theorem eqConsts_values (ssa : SsaFunction) :
    (Structure.eqConsts ssa).map Prod.snd = ssa.blocks.filterMap (Structure.eqConst ssa) := by
  rw [Structure.eqConsts, List.map_filterMap, ← filterMap_zipIdx (Structure.eqConst ssa)]
  congr 1
  funext entry
  cases Structure.eqConst ssa entry.1 <;> rfl

/-- The labels of a ladder, from all the constants that are compared with. -/
def ladderLabels (values : List Int) : Option (List Int) :=
  let vals := (sorted values).destutter (· ≠ ·)
  if values.length < 3 ∨ vals.length < 2 then none else some vals

theorem eqLadder_labels (ssa : SsaFunction) :
    (Structure.eqLadder ssa).head?.map (·.caseValues) = ladderLabels ((Structure.eqConsts ssa).map Prod.snd) := by
  unfold Structure.eqLadder ladderLabels
  cases Structure.eqConsts ssa with
  | nil => rfl
  | cons first rest =>
    simp only [List.length_map, List.length_cons, Nat.succ_lt_succ_iff]
    split <;> rfl

theorem ladderLabels_perm {values others : List Int} (h : values.Perm others) : ladderLabels values = ladderLabels others := by
  have hsorted : sorted values = sorted others := by
    have hperm := (List.perm_insertionSort (· ≤ ·) values).trans (h.trans (List.perm_insertionSort (· ≤ ·) others).symm)
    exact hperm.eq_of_pairwise (fun a b _ _ => Int.le_antisymm) (List.pairwise_insertionSort _ _)
      (List.pairwise_insertionSort _ _)
  rw [ladderLabels, ladderLabels, hsorted, h.length_eq]

theorem eqConst_rename (R : Renumbers π ssa ssa') (block : SsaBlock) :
    Structure.eqConst ssa' (block.rename π) = Structure.eqConst ssa block := by
  unfold Structure.eqConst
  rw [SsaBlock.rename_isCbranch, SsaBlock.rename_predecessorIds, List.foldl_map]
  have hscan : ∀ found p, (ssa'.blocks[π p]?).elim found (Structure.scanBlock found) =
      (ssa.blocks[p]?).elim found (Structure.scanBlock found) := by
    intro found p
    rw [R.block]
    cases ssa.blocks[p]? <;> rfl
  simp only [hscan]
  rfl

/-- The labels that are recovered do not depend on the numbers of the blocks, if at most one
of them is an indirect branch with several targets. -/
theorem recoverEqLadderCases_rename (R : Renumbers π ssa ssa') (hone : (ssa.blocks.filterMap multiwayLabels).length ≤ 1) :
    (Structure.recoverEqLadderCases ssa').head?.map (·.caseValues) =
      (Structure.recoverEqLadderCases ssa).head?.map (·.caseValues) := by
  have hmulti : (Structure.multiwayCases ssa').map (·.caseValues) = (Structure.multiwayCases ssa).map (·.caseValues) := by
    have hperm := (blocks_perm R).filterMap multiwayLabels
    have hsame : (ssa.blocks.map (SsaBlock.rename π)).filterMap multiwayLabels = ssa.blocks.filterMap multiwayLabels := by
      rw [List.filterMap_map]
      congr 1
      funext block
      simp [multiwayLabels]
    rw [hsame] at hperm
    rw [multiwayCases_labels, multiwayCases_labels]
    apply Fields.eq_of_short (hperm.length_eq ▸ hone) hone
    exact fun _ => hperm.symm.mem_iff
  have hladder : (Structure.eqLadder ssa').head?.map (·.caseValues) = (Structure.eqLadder ssa).head?.map (·.caseValues) := by
    have hperm := (blocks_perm R).filterMap (Structure.eqConst ssa')
    rw [List.filterMap_map] at hperm
    simp only [Function.comp_def, eqConst_rename R] at hperm
    rw [eqLadder_labels, eqLadder_labels, eqConsts_values, eqConsts_values]
    exact (ladderLabels_perm hperm).symm
  unfold Structure.recoverEqLadderCases
  by_cases hnil : Structure.multiwayCases ssa = []
  · have hnil' : Structure.multiwayCases ssa' = [] := by
      rw [hnil] at hmulti
      simpa using hmulti
    rw [if_pos hnil, if_pos hnil', hladder]
  · have hnil' : Structure.multiwayCases ssa' ≠ [] := by
      intro h
      rw [h] at hmulti
      exact hnil (by simpa using hmulti.symm)
    rw [if_neg hnil, if_neg hnil', ← List.head?_map, ← List.head?_map, hmulti]

theorem hasReturn_rename (R : Renumbers π ssa ssa') : (fromRawPcode ssa').hasReturn = (fromRawPcode ssa).hasReturn := by
  rw [fromRawPcode, fromRawPcode, ← (blocks_perm R).any_eq, List.any_map]
  rfl

theorem exitClass_rename (R : Renumbers π ssa ssa') : exitClass ssa' = exitClass ssa := by
  have hperm : (ssa.blocks.flatMap fun block => block.ops.filterMap exitOp).Perm
      (ssa'.blocks.flatMap fun block => block.ops.filterMap exitOp) := by
    have h := (blocks_perm R).flatMap_right fun block => block.ops.filterMap exitOp
    rwa [List.flatMap_map] at h
  have hcontains : ∀ tag, ((ssa'.blocks.flatMap fun block => block.ops.filterMap exitOp).contains tag) =
      (ssa.blocks.flatMap fun block => block.ops.filterMap exitOp).contains tag := by
    intro tag
    rw [Bool.eq_iff_iff, List.contains_iff_mem, List.contains_iff_mem]
    exact hperm.mem_iff.symm
  simp only [exitClass, hcontains, hasReturn_rename R]

end Blocks

section Regions
variable (c : Classifier)

/-! ## Indirect branches -/

theorem loop_selfLoop {header : Nat} {block : SsaBlock} {r : Region} (h : c.selfLoop header block = some r) :
    (loopContractV2 r).isSome := by
  unfold Classifier.selfLoop at h
  split at h
  · split at h
    · rw [← Option.some.inj h]
      rfl
    · cases h
  · cases h

theorem loop_whileLoop {header : Nat} {ls : List Nat} {block : SsaBlock} {r : Region}
    (h : c.whileLoop header ls block = some r) : (loopContractV2 r).isSome := by
  have hbody : ∀ (stays : Bool) (fall taken : Nat),
      (if stays then some (Region.while taken fall) else some (Region.while fall taken)) = some r → (loopContractV2 r).isSome := by
    intro stays fall taken heq
    cases stays <;> rw [← Option.some.inj heq] <;> rfl
  unfold Classifier.whileLoop at h
  split at h
  · simp only at h
    split at h
    · exact hbody _ _ _ h
    · split at h
      · exact hbody _ _ _ h
      · cases h
  · cases h

theorem loop_doWhileLoop {header : Nat} {ls : List Nat} {r : Region} (h : c.doWhileLoop header ls = some r) :
    (loopContractV2 r).isSome := by
  obtain ⟨latch, -, hlatch⟩ := List.exists_of_findSome?_eq_some h
  split at hlatch
  · cases hlatch
  · split at hlatch
    · split at hlatch
      · rw [← Option.some.inj hlatch]
        rfl
      · cases hlatch
    · cases hlatch

/-- A switch that heads a loop keeps its region, if it is not taken for a loop. -/
theorem loopRegion_switch (b : Nat) (block : SsaBlock) {before : Region} (hswitch : (caseContractV2 before).isSome) :
    ((c.loopRegion b block (some before)).bind loopContractV2).isSome ∨
      ((c.loopRegion b block (some before)).bind caseContractV2).isSome := by
  unfold Classifier.loopRegion
  generalize latches c.graph (Ssa.buildIdom c.graph c.ssa.start) b = ls
  cases ls with
  | nil => exact .inr hswitch
  | cons l rest =>
    dsimp only
    cases hself : c.selfLoop b block with
    | some r => exact .inl (loop_selfLoop c hself)
    | none =>
      cases hwhile : c.whileLoop b (l :: rest) block with
      | some r => exact .inl (loop_whileLoop c hwhile)
      | none =>
        cases hdo : c.doWhileLoop b (l :: rest) with
        | some r => exact .inl (loop_doWhileLoop c hdo)
        | none => exact .inr hswitch

/-- An indirect branch with several targets is a switch or a loop. -/
theorem multiway_region {b : Nat} {block : SsaBlock} (hb : c.ssa.blocks[b]? = some block) (hmulti : (multiwayLabels block).isSome) :
    ((classifyWithAdj c b).bind loopContractV2).isSome ∨ ((classifyWithAdj c b).bind caseContractV2).isSome := by
  have hind : block.isBranchInd ∧ 2 ≤ block.successorIds.length := by
    by_contra hnot
    rw [multiwayLabels, if_neg hnot] at hmulti
    cases hmulti
  have hswitch : c.switchRegion b block = some (.switch (c.switchCases block) (c.mergeOf b)) := if_pos hind
  have hregion : ((c.loopRegion b block (some (.switch (c.switchCases block) (c.mergeOf b)))).bind loopContractV2).isSome ∨
      ((c.loopRegion b block (some (.switch (c.switchCases block) (c.mergeOf b)))).bind caseContractV2).isSome :=
    loopRegion_switch c b block rfl
  simp only [classifyWithAdj, hb, hswitch, Option.some_or]
  cases hloop : c.loopRegion b block (some (.switch (c.switchCases block) (c.mergeOf b))) with
  | none =>
    rw [hloop] at hregion
    simp at hregion
  | some r =>
    rw [hloop] at hregion
    exact hregion

end Regions

section Condition
variable {ssa : SsaFunction} {hclosed : ssa.Closed} {switches : List Decompiler.SwitchInfo}

/-! ## The condition -/

/-- Nothing that is printed has an order that could be different. -/
structure OrderFree (ssa : SsaFunction) (hclosed : ssa.Closed) (switches : List Decompiler.SwitchInfo) : Prop where
  oneLoop : AtMostOne (semanticRegions ssa hclosed switches) loopContractV2
  oneSwitch : AtMostOne (semanticRegions ssa hclosed switches) caseContractV2
  evenTargets : ssa.start = 0 → (∀ b, (semanticRegions ssa hclosed switches b).bind caseContractV2 = none) →
    ∀ i j ts us, 0 < i → 0 < j → (fromRawPcode ssa).terminators[i]? = some (.switch ts) →
      (fromRawPcode ssa).terminators[j]? = some (.switch us) → ts.length = us.length

theorem multiway_short (hone : AtMostOne (semanticRegions ssa hclosed switches) loopContractV2)
    (hnone : ∀ b, (semanticRegions ssa hclosed switches b).bind caseContractV2 = none) :
    (ssa.blocks.filterMap multiwayLabels).length ≤ 1 := by
  have hloop : ∀ i, ((ssa.blocks[i]?).bind multiwayLabels).isSome →
      ((semanticRegions ssa hclosed switches i).bind loopContractV2).isSome := by
    intro i hi
    obtain ⟨labels, hlabels⟩ := Option.isSome_iff_exists.mp hi
    obtain ⟨block, hblock, hmulti⟩ := Option.bind_eq_some_iff.mp hlabels
    have hregion : ((semanticRegions ssa hclosed switches i).bind loopContractV2).isSome ∨
        ((semanticRegions ssa hclosed switches i).bind caseContractV2).isSome :=
      multiway_region (semanticClassifier ssa hclosed switches) hblock (by rw [hmulti]; rfl)
    rw [hnone i] at hregion
    simpa using hregion
  have hindices : (ssa.blocks.filterMap multiwayLabels).length =
      ((List.range ssa.blocks.length).filter fun i => ((ssa.blocks[i]?).bind multiwayLabels).isSome).length := by
    rw [← List.countP_eq_length_filter, ← List.length_filterMap_eq_countP]
    conv_lhs => rw [← filterMap_range_getElem? ssa.blocks, List.filterMap_filterMap]
  rw [hindices]
  apply Fields.short_of_nodup (List.nodup_range.filter _)
  intro i hi j hj
  exact hone i j (hloop i (List.mem_filter.mp hi).2) (hloop j (List.mem_filter.mp hj).2)

/-! ## One function, two orders -/

section Orders
variable {entries entries' : List (Nat × Region)}

theorem isSome_loopContract (entry : Nat × Region) :
    (Structure.loopContract entry).isSome = (loopContractV2 entry.2).isSome := by
  obtain ⟨b, region⟩ := entry
  cases region <;> rfl

theorem isSome_casePartition (entry : Nat × Region) :
    (Structure.casePartition entry).isSome = (caseContractV2 entry.2).isSome := by
  obtain ⟨b, region⟩ := entry
  cases region <;> rfl

theorem length_loops (entries : List (Nat × Region)) :
    (entries.filterMap Structure.loopContract).length = (entries.filterMap fun entry => loopContractV2 entry.2).length := by
  simp only [List.length_filterMap_eq_countP, isSome_loopContract]

theorem length_cases (entries : List (Nat × Region)) :
    (entries.filterMap Structure.casePartition).length = (entries.filterMap fun entry => caseContractV2 entry.2).length := by
  simp only [List.length_filterMap_eq_countP, isSome_casePartition]

theorem fromRegions_eq (H : OrderFree ssa hclosed switches) (henum : Enumerates entries (semanticRegions ssa hclosed switches))
    (henum' : Enumerates entries' (semanticRegions ssa hclosed switches)) :
    ContractSet.fromRegions ssa entries = ContractSet.fromRegions ssa entries' := by
  have hperm := henum.perm henum'
  have hloops : entries.filterMap Structure.loopContract = entries'.filterMap Structure.loopContract := by
    apply Fields.eq_of_short
    · rw [length_loops]
      exact (length_le_one_iff henum).mpr H.oneLoop
    · rw [length_loops]
      exact (length_le_one_iff henum').mpr H.oneLoop
    · exact fun _ => (hperm.filterMap _).mem_iff
  have hcases : entries.filterMap Structure.casePartition = entries'.filterMap Structure.casePartition := by
    apply Fields.eq_of_short
    · rw [length_cases]
      exact (length_le_one_iff henum).mpr H.oneSwitch
    · rw [length_cases]
      exact (length_le_one_iff henum').mpr H.oneSwitch
    · exact fun _ => (hperm.filterMap _).mem_iff
  simp only [ContractSet.fromRegions, hloops, hcases, hperm.any_eq]

theorem fromSemantic_eq (H : OrderFree ssa hclosed switches) (henum : Enumerates entries (semanticRegions ssa hclosed switches))
    (henum' : Enumerates entries' (semanticRegions ssa hclosed switches)) :
    StableBundle.fromSemantic ssa entries = StableBundle.fromSemantic ssa entries' := by
  have hloops := filterMap_entries_eq henum henum' H.oneLoop H.oneLoop fun _ => Iff.rfl
  have hcases := filterMap_entries_eq henum henum' H.oneSwitch H.oneSwitch fun _ => Iff.rfl
  simp only [StableBundle.fromSemantic, ladderCase, hloops, hcases, fromRegions_eq H henum henum']

end Orders

/-! ## Two numberings -/

theorem blockCase_terminator {block : SsaBlock} {c : CaseContractV2} (h : blockCase ssa block = some c) :
    ∃ ts, classifyTerminator block (modelSuccessors ssa block) = .switch ts ∧ ts.length = c.caseCount := by
  unfold blockCase terminatorCase at h
  split at h
  · next ts heq =>
    rw [Option.ite_none_right_eq_some] at h
    exact ⟨ts, heq, by rw [← Option.some.inj h.2]⟩
  · cases h

/-- What the blocks after the first one make of their terminators is all the same. -/
theorem tail_cases_same (H : OrderFree ssa hclosed switches) (hstart : ssa.start = 0)
    (hnone : ∀ b, (semanticRegions ssa hclosed switches b).bind caseContractV2 = none) {c d : CaseContractV2}
    (hc : c ∈ ssa.blocks.tail.filterMap (blockCase ssa)) (hd : d ∈ ssa.blocks.tail.filterMap (blockCase ssa)) : c = d := by
  have hindex : ∀ {c : CaseContractV2} {block : SsaBlock}, block ∈ ssa.blocks.tail → blockCase ssa block = some c →
      ∃ i ts, 0 < i ∧ (fromRawPcode ssa).terminators[i]? = some (.switch ts) ∧ ts.length = c.caseCount := by
    intro c block hblock hcase
    obtain ⟨k, hk⟩ := List.mem_iff_getElem?.mp hblock
    rw [List.getElem?_tail] at hk
    obtain ⟨ts, hts, hcount⟩ := blockCase_terminator hcase
    exact ⟨k + 1, ts, Nat.succ_pos k, by rw [terminators_getElem? hk, hts], hcount⟩
  obtain ⟨block, hblock, hcase⟩ := List.mem_filterMap.mp hc
  obtain ⟨other, hother, hcase'⟩ := List.mem_filterMap.mp hd
  obtain ⟨i, ts, hi, hts, hcount⟩ := hindex hblock hcase
  obtain ⟨j, us, hj, hus, hcount'⟩ := hindex hother hcase'
  apply blockCase_inj hcase hcase'
  rw [← hcount, ← hcount']
  exact H.evenTargets hstart hnone i j ts us hi hj hts hus

section Renumbered
variable {π : Equiv.Perm Nat} {ssa' : SsaFunction} {hclosed' : ssa'.Closed}

theorem filterMap_head_tail {α β : Type} (f : α → Option β) (l : List α) :
    l.filterMap f = (l.head?.bind f).toList ++ l.tail.filterMap f := by
  cases l with
  | nil => rfl
  | cons x l =>
    rw [List.filterMap_cons, List.head?_cons, List.tail_cons, Option.bind_some]
    cases f x <;> rfl

theorem terminators_rename (H : OrderFree ssa hclosed switches) (R : Renumbers π ssa ssa') (hstart : ssa.start = 0)
    (hfirst : π 0 = 0) (hnone : ∀ b, (semanticRegions ssa hclosed switches b).bind caseContractV2 = none) :
    ssa.blocks.filterMap (blockCase ssa) = ssa'.blocks.filterMap (blockCase ssa') := by
  have htail : ssa.blocks.tail.filterMap (blockCase ssa) = ssa'.blocks.tail.filterMap (blockCase ssa') := by
    apply Fields.eq_of_perm_of_forall
    · have hperm := (tail_perm R hfirst).filterMap (blockCase ssa')
      rw [List.filterMap_map] at hperm
      simpa only [Function.comp_def, blockCase_rename R] using hperm
    · exact fun c hc d hd => tail_cases_same H hstart hnone hc hd
  have hhead : ssa'.blocks.head?.bind (blockCase ssa') = ssa.blocks.head?.bind (blockCase ssa) := by
    have hzero := R.block 0
    rw [hfirst] at hzero
    rw [List.head?_eq_getElem?, List.head?_eq_getElem?, hzero, Option.bind_map]
    simp only [Function.comp_def, blockCase_rename R]
  rw [filterMap_head_tail (blockCase ssa), filterMap_head_tail (blockCase ssa'), hhead, htail]

theorem loops_rename (R : Renumbers π ssa ssa') (hstart : ssa.start = 0) (hfirst : π 0 = 0) (b : Nat) :
    (semanticRegions ssa' hclosed' (switches.map (SwitchInfo.rename π)) (π b)).bind loopContractV2 =
      (semanticRegions ssa hclosed switches b).bind loopContractV2 :=
  (congrArg Prod.fst (contracts_rename R hstart hfirst b)).symm

theorem cases_rename (R : Renumbers π ssa ssa') (hstart : ssa.start = 0) (hfirst : π 0 = 0) (b : Nat) :
    (semanticRegions ssa' hclosed' (switches.map (SwitchInfo.rename π)) (π b)).bind caseContractV2 =
      (semanticRegions ssa hclosed switches b).bind caseContractV2 :=
  (congrArg Prod.snd (contracts_rename R hstart hfirst b)).symm

variable {entries entries' : List (Nat × Region)}

theorem no_switch_iff (henum : Enumerates entries (semanticRegions ssa hclosed switches)) :
    (entries.filterMap fun entry => caseContractV2 entry.2) = [] ↔
      ∀ b, (semanticRegions ssa hclosed switches b).bind caseContractV2 = none := by
  rw [List.eq_nil_iff_forall_not_mem]
  simp only [mem_filterMap_entries henum, not_exists, Option.eq_none_iff_forall_ne_some]
  exact forall_comm

theorem cases_of_no_switch {entries : List (Nat × Region)} (h : (entries.filterMap fun entry => caseContractV2 entry.2) = []) :
    (ContractSet.fromRegions ssa entries).cases = Structure.recoverEqLadderCases ssa := by
  have hnil : entries.filterMap Structure.casePartition = [] := by
    rw [← List.length_eq_zero_iff, length_cases, h]
    rfl
  simp only [ContractSet.fromRegions, hnil, if_true]

theorem fromSemantic_rename (H : OrderFree ssa hclosed switches) (R : Renumbers π ssa ssa') (hstart : ssa.start = 0)
    (hfirst : π 0 = 0) (henum : Enumerates entries (semanticRegions ssa hclosed switches))
    (henum' : Enumerates entries' (semanticRegions ssa' hclosed' (switches.map (SwitchInfo.rename π)))) :
    StableBundle.fromSemantic ssa entries = StableBundle.fromSemantic ssa' entries' := by
  have hloops := filterMap_entries_rename henum henum' (loops_rename R hstart hfirst) H.oneLoop
  have hcases := filterMap_entries_rename henum henum' (cases_rename R hstart hfirst) H.oneSwitch
  simp only [StableBundle.fromSemantic, hloops, hcases, exitClass_rename R, hasReturn_rename R, terminators_filterMap]
  congr 1
  split
  · rfl
  · next hnil =>
    -- without a switch region the terminators are the same, and what is recovered from the branches
    rw [ne_eq, not_not] at hnil
    have hnone := (no_switch_iff henum).mp (hcases.trans hnil)
    rw [terminators_rename H R hstart hfirst hnone]
    split
    · rfl
    · have hladder := recoverEqLadderCases_rename R (multiway_short H.oneLoop hnone)
      rw [ladderCase, ladderCase, cases_of_no_switch hnil, cases_of_no_switch (hcases.trans hnil)]
      cases h : (Structure.recoverEqLadderCases ssa).head? with
      | none =>
        rw [h, Option.map_none, Option.map_eq_none_iff] at hladder
        rw [hladder]
      | some c =>
        rw [h, Option.map_some, Option.map_eq_some_iff] at hladder
        obtain ⟨d, hd, hlabels⟩ := hladder
        rw [hd, Option.map_some, Option.map_some, hlabels]

end Renumbered

/-! ## What the fingerprints show -/

section Shown
variable {entries entries' : List (Nat × Region)}

theorem loops_of_parts {c d : ContractSet} (hlength : c.loops.length = d.loops.length)
    (hreturns : c.returns = d.returns) (hcases : c.cases.length = d.cases.length) (h : c.parts = d.parts) :
    c.loops.map (·.part) = d.loops.map (·.part) ∧ c.cases.map (·.part) = d.cases.map (·.part) := by
  unfold ContractSet.parts at h
  obtain ⟨hfirst, hlast⟩ := List.append_inj' h (by simp [hcases])
  rw [hreturns] at hfirst
  have hloops := List.append_cancel_right hfirst
  rw [List.cons.injEq] at hloops hlast
  exact ⟨hloops.2, hlast.2⟩

theorem cases_of_parts {c d : StableBundle} (hloops : c.loops = d.loops) (h : c.parts = d.parts) :
    c.cases.map (·.part) = d.cases.map (·.part) := by
  unfold StableBundle.parts at h
  rw [hloops] at h
  have hrest := List.append_cancel_left h
  rw [List.cons.injEq, List.cons.injEq] at hrest
  exact hrest.2.2

theorem nodup_headers (henum : Enumerates entries (semanticRegions ssa hclosed switches)) :
    ((entries.filterMap Structure.loopContract).map (·.header)).Nodup := by
  rw [List.Nodup, List.pairwise_map, List.pairwise_filterMap]
  have hkey : ∀ entry l, Structure.loopContract entry = some l → l.header = entry.1 := by
    intro entry l hl
    unfold Structure.loopContract at hl
    split at hl
    · rw [← Option.some.inj hl]
    · rw [← Option.some.inj hl]
    · cases hl
  apply henum.distinct.imp
  intro a b hne l hl m hm
  rw [hkey a l hl, hkey b m hm]
  exact hne

theorem nodup_switchBlocks (henum : Enumerates entries (semanticRegions ssa hclosed switches)) :
    ((entries.filterMap Structure.casePartition).map (·.switchBlock)).Nodup := by
  rw [List.Nodup, List.pairwise_map, List.pairwise_filterMap]
  have hkey : ∀ entry c, Structure.casePartition entry = some c → c.switchBlock = entry.1 := by
    intro entry c hc
    unfold Structure.casePartition at hc
    split at hc
    · rw [← Option.some.inj hc]
    · cases hc
  apply henum.distinct.imp
  intro a b hne c hc d hd
  rw [hkey a c hc, hkey b d hd]
  exact hne

/-- The fingerprint of the contract set shows the order of the loops and of the switches. -/
theorem atMostOne_of_reverse (henum : Enumerates entries (semanticRegions ssa hclosed switches))
    (h : (ContractSet.fromRegions ssa entries.reverse).fingerprint = (ContractSet.fromRegions ssa entries).fingerprint) :
    AtMostOne (semanticRegions ssa hclosed switches) loopContractV2 ∧
      AtMostOne (semanticRegions ssa hclosed switches) caseContractV2 := by
  have hlength : (ContractSet.fromRegions ssa entries.reverse).cases.length =
      (ContractSet.fromRegions ssa entries).cases.length := by
    simp only [ContractSet.fromRegions, List.filterMap_reverse, List.reverse_eq_nil_iff]
    split
    · rfl
    · exact List.length_reverse
  obtain ⟨hloops, hcases⟩ := loops_of_parts (by simp [ContractSet.fromRegions, List.filterMap_reverse])
    (by simp [ContractSet.fromRegions]) hlength (fromRegions_parts_inj h)
  simp only [ContractSet.fromRegions, List.filterMap_reverse] at hloops hcases
  constructor
  · rw [← length_le_one_iff henum, ← length_loops]
    exact Fields.short_of_printed (fun _ _ => header_of_part) (nodup_headers henum) hloops
  · rw [← length_le_one_iff henum, ← length_cases]
    by_cases hnil : entries.filterMap Structure.casePartition = []
    · rw [hnil]
      exact Nat.zero_le 1
    · rw [if_neg hnil, if_neg (mt List.reverse_eq_nil_iff.mp hnil)] at hcases
      exact Fields.short_of_printed (fun _ _ => switchBlock_of_part) (nodup_switchBlocks henum) hcases

end Shown

/-! ## Two blocks that change places -/

theorem two_le_of_switch {block : SsaBlock} {succ ts : List Nat} (h : classifyTerminator block succ = .switch ts) :
    2 ≤ ts.length := by
  by_contra hlt
  have hsucc : ts = succ := by
    unfold classifyTerminator at h
    split at h
    · cases h
    · split at h
      · exact (Terminator.switch.inj h).symm
      · split at h
        · cases h
        · cases h
        · cases h
        · exact (Terminator.switch.inj h).symm
  rw [hsucc] at h hlt
  -- fewer than two successors are a jump or a dead end
  match succ with
  | [] => cases hreturn : block.hasReturn <;> cases hcbranch : block.isCbranch <;> simp [classifyTerminator, hreturn, hcbranch] at h
  | [target] => cases hreturn : block.hasReturn <;> cases hcbranch : block.isCbranch <;> simp [classifyTerminator, hreturn, hcbranch] at h
  | _ :: _ :: _ => exact hlt (by simp)

theorem exists_entries (ssa : SsaFunction) (hclosed : ssa.Closed) (switches : List Decompiler.SwitchInfo) :
    ∃ entries, Enumerates entries (semanticRegions ssa hclosed switches) := by
  apply Bel.exists_enumerates _ (List.range ssa.blocks.length)
  intro b region hregion
  rw [List.mem_range]
  by_contra hlt
  have hnone : (semanticClassifier ssa hclosed switches).ssa.blocks[b]? = none := List.getElem?_eq_none (Nat.le_of_not_lt hlt)
  simp only [semanticRegions, classifyWithAdj, hnone] at hregion
  cases hregion

section Swap
variable {i j : Nat}

theorem swap_lt {n : Nat} (hi : i < n) (hj : j < n) (k : Nat) : Equiv.swap i j k < n ↔ k < n := by
  rw [Equiv.swap_apply_def]
  split
  · next h =>
    rw [h]
    exact iff_of_true hj hi
  · split
    · next h =>
      rw [h]
      exact iff_of_true hi hj
    · exact Iff.rfl

/-- The list of the terminators starts differently, once two blocks with different numbers of
targets have changed places. -/
theorem caseCount_of_swap {ssa' : SsaFunction} (R : Renumbers (Equiv.swap i j) ssa ssa') (hij : i < j) {block other : SsaBlock}
    (hblock : ssa.blocks[i]? = some block) (hother : ssa.blocks[j]? = some other) {c d : CaseContractV2}
    (hc : blockCase ssa block = some c) (hd : blockCase ssa other = some d)
    (h : (ssa.blocks.filterMap (blockCase ssa)).map (·.part) = (ssa'.blocks.filterMap (blockCase ssa')).map (·.part)) :
    c.caseCount = d.caseCount := by
  have hi : i < ssa.blocks.length := (List.getElem?_eq_some_iff.mp hblock).1
  have hat : ∀ k, (ssa'.blocks[Equiv.swap i j k]?).bind (blockCase ssa') = (ssa.blocks[k]?).bind (blockCase ssa) := by
    intro k
    rw [R.block, Option.bind_map]
    simp only [Function.comp_def, blockCase_rename R]
  -- both lists, cut at the first of the two blocks
  have hcut : ∀ (s : SsaFunction) (e : CaseContractV2), s.blocks.length = ssa.blocks.length →
      (s.blocks[i]?).bind (blockCase s) = some e → ∃ rest, s.blocks.filterMap (blockCase s) =
        ((List.range i).filterMap fun k => (s.blocks[k]?).bind (blockCase s)) ++ e :: rest := by
    intro s e hlength he
    refine ⟨(List.range' (i + 1) (s.blocks.length - (i + 1))).filterMap fun k => (s.blocks[k]?).bind (blockCase s), ?_⟩
    have hrange : List.range s.blocks.length = List.range i ++ i :: List.range' (i + 1) (s.blocks.length - (i + 1)) := by
      have hlen : s.blocks.length = i + (s.blocks.length - (i + 1) + 1) := by omega
      calc List.range s.blocks.length = List.range (i + (s.blocks.length - (i + 1) + 1)) := by rw [← hlen]
        _ = List.range i ++ List.range' i (s.blocks.length - (i + 1) + 1) := by
          rw [List.range_eq_range', List.range_eq_range', ← List.range'_append_1, Nat.zero_add]
        _ = List.range i ++ i :: List.range' (i + 1) (s.blocks.length - (i + 1)) := by rw [List.range'_succ]
    calc s.blocks.filterMap (blockCase s)
        = ((List.range s.blocks.length).filterMap (s.blocks[·]?)).filterMap (blockCase s) := by
          rw [filterMap_range_getElem?]
      _ = (List.range s.blocks.length).filterMap fun k => (s.blocks[k]?).bind (blockCase s) := List.filterMap_filterMap
      _ = _ := by rw [hrange, List.filterMap_append, List.filterMap_cons, he]
  obtain ⟨rest, hrest⟩ := hcut ssa c rfl (by rw [hblock]; exact hc)
  obtain ⟨rest', hrest'⟩ := hcut ssa' d R.length (by
    have := hat j
    rwa [Equiv.swap_apply_right, hother, Option.bind_some, hd] at this)
  have hprefix : ((List.range i).filterMap fun k => (ssa'.blocks[k]?).bind (blockCase ssa')) =
      (List.range i).filterMap fun k => (ssa.blocks[k]?).bind (blockCase ssa) := by
    apply List.filterMap_congr
    intro k hk
    have hlt := List.mem_range.mp hk
    have := hat k
    rwa [Equiv.swap_apply_of_ne_of_ne (by omega) (by omega)] at this
  rw [hrest, hrest', hprefix, List.map_append, List.map_append] at h
  have hparts := List.append_cancel_left h
  rw [List.map_cons, List.map_cons, List.cons.injEq] at hparts
  exact caseCount_of_part hparts.1

theorem targets_eq (hone : AtMostOne (semanticRegions ssa hclosed switches) loopContractV2)
    (hnone : ∀ b, (semanticRegions ssa hclosed switches b).bind caseContractV2 = none) (hstart : ssa.start = 0) (hi : 0 < i)
    (hij : i < j) {ts us : List Nat} (hts : (fromRawPcode ssa).terminators[i]? = some (.switch ts))
    (hus : (fromRawPcode ssa).terminators[j]? = some (.switch us))
    (h : ∀ (ssa' : SsaFunction) (R : Renumbers (Equiv.swap i j) ssa ssa') (entries entries' : List (Nat × Region)),
      Enumerates entries (semanticRegions ssa hclosed switches) →
      Enumerates entries' (semanticRegions ssa' (R.closed hclosed) (switches.map (SwitchInfo.rename (Equiv.swap i j)))) →
      (StableBundle.fromSemantic ssa entries).fingerprint = (StableBundle.fromSemantic ssa' entries').fingerprint) :
    ts.length = us.length := by
  have hblock : ∀ (k : Nat) (vs : List Nat), (fromRawPcode ssa).terminators[k]? = some (.switch vs) →
      ∃ block, ssa.blocks[k]? = some block ∧
        blockCase ssa block = some ⟨vs.length, false, indexLabels vs.length, "terminator"⟩ := by
    intro k vs hvs
    rw [fromRawPcode, List.getElem?_map] at hvs
    obtain ⟨block, hblock, hclass⟩ := Option.map_eq_some_iff.mp hvs
    refine ⟨block, hblock, ?_⟩
    rw [blockCase, hclass, terminatorCase, if_pos (two_le_of_switch hclass)]
  obtain ⟨block, hb, hc⟩ := hblock i ts hts
  obtain ⟨other, ho, hd⟩ := hblock j us hus
  have hlt := swap_lt (List.getElem?_eq_some_iff.mp hb).1 (List.getElem?_eq_some_iff.mp ho).1
  have R := renumbers_renumber (Equiv.swap i j) ssa hlt
  have hfirst : Equiv.swap i j 0 = 0 := Equiv.swap_apply_of_ne_of_ne (by omega) (by omega)
  obtain ⟨entries, henum⟩ := exists_entries ssa hclosed switches
  obtain ⟨entries', henum'⟩ := exists_entries _ (R.closed hclosed) (switches.map (SwitchInfo.rename (Equiv.swap i j)))
  have hparts := fromSemantic_parts_inj (h _ R entries entries' henum henum')
  have hloops := filterMap_entries_rename henum henum' (loops_rename R hstart hfirst) hone
  have hcases := filterMap_entries_rename henum henum' (cases_rename R hstart hfirst) fun a b ha _ => by
    rw [hnone a] at ha
    cases ha
  have hnil := (no_switch_iff henum).mpr hnone
  have hcases' := cases_of_parts hloops hparts
  have hmem : ssa.blocks.filterMap (blockCase ssa) ≠ [] :=
    List.ne_nil_of_mem (List.mem_filterMap.mpr ⟨block, List.mem_of_getElem? hb, hc⟩)
  have hmem' : (ssa.renumber (Equiv.swap i j) hlt).blocks.filterMap (blockCase (ssa.renumber (Equiv.swap i j) hlt)) ≠ [] := by
    have hb' := R.block i
    rw [hb] at hb'
    exact List.ne_nil_of_mem (List.mem_filterMap.mpr ⟨_, List.mem_of_getElem? hb', (blockCase_rename R block).trans hc⟩)
  simp only [StableBundle.fromSemantic, ← hcases, hnil, ne_eq, not_true_eq_false, if_false, terminators_filterMap, hmem, hmem',
    not_false_eq_true, if_true] at hcases'
  exact caseCount_of_swap R hij hb ho hc hd hcases'

end Swap

/-! ## The fingerprints -/

/-- The fingerprints of a function are the same in whatever order the region map is gone
through, and that of the bundle is the same if the blocks are renumbered. -/
def Reproducible (ssa : SsaFunction) (hclosed : ssa.Closed) (switches : List Decompiler.SwitchInfo) : Prop :=
  (∀ entries entries', Enumerates entries (semanticRegions ssa hclosed switches) →
    Enumerates entries' (semanticRegions ssa hclosed switches) →
    (StableBundle.fromSemantic ssa entries).fingerprint = (StableBundle.fromSemantic ssa entries').fingerprint ∧
      (ContractSet.fromRegions ssa entries).fingerprint = (ContractSet.fromRegions ssa entries').fingerprint) ∧
  (ssa.start = 0 → ∀ (π : Equiv.Perm Nat) (ssa' : SsaFunction) (R : Renumbers π ssa ssa'), π 0 = 0 →
    ∀ entries entries', Enumerates entries (semanticRegions ssa hclosed switches) →
      Enumerates entries' (semanticRegions ssa' (R.closed hclosed) (switches.map (SwitchInfo.rename π))) →
      (StableBundle.fromSemantic ssa entries).fingerprint = (StableBundle.fromSemantic ssa' entries').fingerprint)

/-- The fingerprints are reproducible exactly when nothing that is printed has an order that
could be different. -/
theorem reproducible_iff (ssa : SsaFunction) (hclosed : ssa.Closed) (switches : List Decompiler.SwitchInfo) :
    Reproducible ssa hclosed switches ↔ OrderFree ssa hclosed switches := by
  constructor
  · intro h
    obtain ⟨horder, hnumbers⟩ := h
    obtain ⟨entries, henum⟩ := exists_entries ssa hclosed switches
    obtain ⟨hloop, hswitch⟩ := atMostOne_of_reverse henum (horder _ _ henum.reverse henum).2
    refine ⟨hloop, hswitch, fun hstart hnone i j ts us hi hj hts hus => ?_⟩
    obtain hij | hij | hij := Nat.lt_trichotomy i j
    · apply targets_eq hloop hnone hstart hi hij hts hus
      exact fun ssa' R => hnumbers hstart _ ssa' R (Equiv.swap_apply_of_ne_of_ne (by omega) (by omega))
    · rw [hij, hus] at hts
      rw [Terminator.switch.inj (Option.some.inj hts)]
    · symm
      apply targets_eq hloop hnone hstart hj hij hus hts
      exact fun ssa' R => hnumbers hstart _ ssa' R (Equiv.swap_apply_of_ne_of_ne (by omega) (by omega))
  · intro H
    constructor
    · intro entries entries' henum henum'
      rw [fromSemantic_eq H henum henum', fromRegions_eq H henum henum']
      exact ⟨rfl, rfl⟩
    · intro hstart π ssa' R hfirst entries entries' henum henum'
      rw [fromSemantic_rename H R hstart hfirst henum henum']

end Condition

section Example
open Structure.Emitter (functionOf codeAt flagAt)

theorem spin_closed : spin.Closed := by decide

/-- Only the first block of the function is a loop. -/
theorem spin_regions (b : Nat) (hb : b ≠ 0) :
    (semanticRegions spin spin_closed [] b).bind loopContractV2 = none ∧
      (semanticRegions spin spin_closed [] b).bind caseContractV2 = none := by
  match b with
  | 0 => exact absurd rfl hb
  | 1 => decide +kernel
  | b + 2 => exact ⟨rfl, rfl⟩

theorem reproducible_spin : Reproducible spin spin_closed [] := by
  have hloop : ∀ b, ((semanticRegions spin spin_closed [] b).bind loopContractV2).isSome → b = 0 := by
    intro b hb
    by_contra hne
    rw [(spin_regions b hne).1] at hb
    cases hb
  have hcase : ∀ b, ((semanticRegions spin spin_closed [] b).bind caseContractV2).isSome → b = 0 := by
    intro b hb
    by_contra hne
    rw [(spin_regions b hne).2] at hb
    cases hb
  refine (reproducible_iff spin spin_closed []).mpr ⟨?_, ?_, ?_⟩
  · exact fun a b ha hb => (hloop a ha).trans (hloop b hb).symm
  · exact fun a b ha hb => (hcase a ha).trans (hcase b hb).symm
  · intro _ _ i j ts us hi hj hts hus
    match i with
    | 1 => cases hts
    | i + 2 => cases hts

/-- `do { } while (v); do { } while (v); return;` -/
def spinTwice : SsaFunction :=
  functionOf [([.pcode (.cbranch (codeAt 0x1000) (flagAt 0x200))], [0], [1, 0]),
    ([.pcode (.cbranch (codeAt 0x1010) (flagAt 0x200))], [0, 1], [2, 1]), ([.pcode (.ret (codeAt 0))], [1], [])]

theorem spinTwice_closed : spinTwice.Closed := by decide

/-- The fingerprint of the contract set lists the loops in the order of the region map. -/
theorem spinTwice_not_reproducible : ¬ Reproducible spinTwice spinTwice_closed [] := by
  intro h
  obtain ⟨entries, henum⟩ := exists_entries spinTwice spinTwice_closed []
  have hone := (atMostOne_of_reverse henum (h.1 _ _ henum.reverse henum).2).1
  exact absurd (hone 0 1 (by decide +kernel) (by decide +kernel)) (by decide)

end Example

end Windy.Decompiler.V2
