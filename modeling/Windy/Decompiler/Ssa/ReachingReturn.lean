import Mathlib.Data.Finset.Range
import Mathlib.Data.List.TakeWhile
import Windy.Decompiler.Structure.Effects

/- The value of a register at a return (`decompiler/ssa/mod.rs`, `reaching_register_at_return`).

   The value is the one the return itself uses, else the last one defined before it in its block,
   else the one that all predecessors of the block agree on. Results are kept for every block, and a
   block that is still being looked at has none. The recursion is given fuel; the blocks looked at
   are different ones, so one unit more than there are blocks is enough (`resolve_fuel`).

   A path starts at the entry and follows the predecessor lists, in which every edge is recorded; it
   does not go on behind a block that returns.

   What is proved:
     1. `resolve_sound`: a value that is found is found along all predecessors.
     2. `lastDef_of_resolved`: on every path the register is last defined as that value, or
        not defined at all.
     3. `reachingRegister_sound_iff`: the value is right on every path exactly when every
        path defines the register, and so where the entry has no predecessors
        (`reachingRegister_sound_of_entry`).

   Correspondence:
     `reaching_register_at_return` ↔ the same
     its inner `resolve` ↔ `resolve`, with the loop over the predecessors in `agree` -/
namespace Windy.Decompiler

/-! ## Definitions in a list of operations -/

def isContainer (r : Nat) (v : SsaVar) : Bool := v.location = .register r

/-- The last variable of the register that the operations define. -/
def lastDef (r : Nat) (ops : List SsaOp) : Option SsaVar := (ops.reverse.filterMap SsaOp.def?).find? (isContainer r)

theorem lastDef_append (r : Nat) (xs ys : List SsaOp) :
    lastDef r (xs ++ ys) = (lastDef r ys).or (lastDef r xs) := by
  simp [lastDef, List.filterMap_append, List.find?_append]

namespace SsaBlock

/-- The operations before the first return. -/
def beforeReturn (block : SsaBlock) : List SsaOp := block.ops.takeWhile fun op => !op.isReturn

theorem beforeReturn_eq {block : SsaBlock} (h : block.hasReturn = false) : block.beforeReturn = block.ops := by
  refine List.takeWhile_eq_self_iff.mpr fun op hop => ?_
  have hnone := List.any_eq_false.mp h op hop
  simpa using hnone

/-- The variable of the register among those the first return uses. -/
def returnUse (r : Nat) (block : SsaBlock) : Option SsaVar :=
  (block.ops.find? SsaOp.isReturn).bind fun op => op.uses.find? (isContainer r)

theorem returnUse_eq_none {block : SsaBlock} (h : block.hasReturn = false) (r : Nat) : block.returnUse r = none := by
  have hnone : block.ops.find? SsaOp.isReturn = none :=
    List.find?_eq_none.mpr fun op hop => List.any_eq_false.mp h op hop
  simp [returnUse, hnone]

end SsaBlock

/-! ## The resolver -/

/-- The results kept so far. -/
abbrev Memo := Nat → Option (Option SsaVar)

/-- The value the blocks agree on, looked up one after the other until there is none. -/
def agree (go : Nat → Memo → Option SsaVar × Memo) : Option SsaVar → List Nat → Memo → Option SsaVar × Memo
  | common, [], memo => (common, memo)
  | common, p :: ps, memo =>
    match go p memo with
    | (none, memo) => (none, memo)
    | (some incoming, memo) =>
      match common with
      | none => agree go (some incoming) ps memo
      | some existing => if existing = incoming then agree go common ps memo else (none, memo)

/-- A result is kept when it is there. -/
def keep (b : Nat) (found : Option SsaVar × Memo) : Option SsaVar × Memo :=
  (found.1, Function.update found.2 b (some found.1))

def resolve (ssa : SsaFunction) (r : Nat) : Nat → List Nat → Nat → Memo → Option SsaVar × Memo
  | 0, _, _, memo => (none, memo)
  | fuel + 1, visiting, b, memo =>
    match memo b with
    | some cached => (cached, memo)
    | none =>
      if b ∈ visiting then (none, memo)
      else
        keep b (match ssa.blocks[b]? with
          | none => (none, memo)
          | some block =>
            match (block.returnUse r).or (lastDef r block.beforeReturn) with
            | some v => (some v, memo)
            | none => agree (resolve ssa r fuel (b :: visiting)) none block.predecessorIds memo)

def reachingRegisterAtReturn (ssa : SsaFunction) (b r : Nat) : Option SsaVar :=
  match ssa.blocks[b]? with
  | none => none
  | some block =>
    if block.hasReturn then (resolve ssa r (ssa.blocks.length + 1) [] b fun _ => none).1 else none

/-! ## Fuel -/

/-- The blocks that are not being looked at. -/
def unvisited (ssa : SsaFunction) (visiting : List Nat) : Finset Nat :=
  (Finset.range ssa.blocks.length).filter (· ∉ visiting)

variable {ssa : SsaFunction}

theorem unvisited_card_lt {visiting : List Nat} {b : Nat} (hb : b < ssa.blocks.length)
    (hfresh : b ∉ visiting) : (unvisited ssa (b :: visiting)).card < (unvisited ssa visiting).card := by
  apply Finset.card_lt_card
  rw [Finset.ssubset_iff_of_subset]
  · exact ⟨b, by simp [unvisited, hb, hfresh], by simp [unvisited]⟩
  · intro x hx
    simp only [unvisited, Finset.mem_filter, List.mem_cons, not_or] at hx ⊢
    exact ⟨hx.1, hx.2.2⟩

/-- Whatever the fuel, if only it is more than there are blocks left. -/
theorem resolve_fuel {r fuel fuel' : Nat} {visiting : List Nat}
    (h : (unvisited ssa visiting).card < fuel) (h' : (unvisited ssa visiting).card < fuel') :
    resolve ssa r fuel visiting = resolve ssa r fuel' visiting := by
  induction fuel generalizing fuel' visiting with
  | zero => omega
  | succ fuel ih =>
    cases fuel' with
    | zero => omega
    | succ fuel' =>
      funext b memo
      simp only [resolve]
      split
      · rfl
      split
      · rfl
      rename_i hfresh
      split
      · rfl
      rename_i block hblock
      have hless := unvisited_card_lt (List.getElem?_eq_some_iff.mp hblock).1 hfresh
      have hsame : resolve ssa r fuel (b :: visiting) = resolve ssa r fuel' (b :: visiting) := ih (by omega) (by omega)
      rw [hsame]

/-! ## What is found -/

/-- The value is found at the block, or at each of its predecessors. -/
inductive Resolved (ssa : SsaFunction) (r : Nat) (v : SsaVar) : Nat → Prop
  | use {b : Nat} {block : SsaBlock} (hblock : ssa.blocks[b]? = some block) (huse : block.returnUse r = some v) :
      Resolved ssa r v b
  | defined {b : Nat} {block : SsaBlock} (hblock : ssa.blocks[b]? = some block)
      (hdef : lastDef r block.beforeReturn = some v) : Resolved ssa r v b
  | merged {b : Nat} {block : SsaBlock} (hblock : ssa.blocks[b]? = some block)
      (hdef : lastDef r block.beforeReturn = none) (hsome : block.predecessorIds ≠ [])
      (hall : ∀ p ∈ block.predecessorIds, Resolved ssa r v p) : Resolved ssa r v b

/-- Every value that is kept was found. -/
def MemoSound (ssa : SsaFunction) (r : Nat) (memo : Memo) : Prop :=
  ∀ b v, memo b = some (some v) → Resolved ssa r v b

/-- A value that blocks agree on was found at each of them, and at least at one unless it
was there before. -/
theorem agree_sound {r : Nat} {go : Nat → Memo → Option SsaVar × Memo}
    (hgo : ∀ p memo, MemoSound ssa r memo →
      (∀ v, (go p memo).1 = some v → Resolved ssa r v p) ∧ MemoSound ssa r (go p memo).2)
    (common : Option SsaVar) (ps : List Nat) (memo : Memo) (hmemo : MemoSound ssa r memo) :
    (∀ v, (agree go common ps memo).1 = some v →
      (∀ p ∈ ps, Resolved ssa r v p) ∧ (common = some v ∨ common = none ∧ ps ≠ [])) ∧
      MemoSound ssa r (agree go common ps memo).2 := by
  induction ps generalizing common memo with
  | nil => exact ⟨fun v hv => ⟨by simp, .inl hv⟩, hmemo⟩
  | cons p ps ih =>
    obtain ⟨hfound, hkept⟩ := hgo p memo hmemo
    rw [agree]
    split
    · rename_i memo' heq
      rw [heq] at hkept
      exact ⟨fun v hv => (nomatch hv), hkept⟩
    rename_i incoming memo' heq
    rw [heq] at hfound hkept
    have hp : Resolved ssa r incoming p := hfound incoming rfl
    split
    · obtain ⟨hrest, hkept'⟩ := ih (some incoming) memo' hkept
      refine ⟨fun v hv => ?_, hkept'⟩
      obtain ⟨hps, hcommon⟩ := hrest v hv
      obtain rfl : incoming = v := by simpa using hcommon
      exact ⟨List.forall_mem_cons.mpr ⟨hp, hps⟩, .inr ⟨rfl, by simp⟩⟩
    · rename_i existing
      split
      · rename_i hsame
        obtain ⟨hrest, hkept'⟩ := ih (some existing) memo' hkept
        refine ⟨fun v hv => ?_, hkept'⟩
        obtain ⟨hps, hcommon⟩ := hrest v hv
        obtain rfl : existing = v := by simpa using hcommon
        exact ⟨List.forall_mem_cons.mpr ⟨hsame ▸ hp, hps⟩, .inl rfl⟩
      · exact ⟨fun v hv => (nomatch hv), hkept⟩

theorem keep_sound {r b : Nat} {found : Option SsaVar × Memo}
    (hvalue : ∀ v, found.1 = some v → Resolved ssa r v b) (hmemo : MemoSound ssa r found.2) :
    (∀ v, (keep b found).1 = some v → Resolved ssa r v b) ∧ MemoSound ssa r (keep b found).2 := by
  refine ⟨hvalue, fun b' v hv => ?_⟩
  by_cases hb : b' = b
  · subst hb
    simp only [keep, Function.update_self] at hv
    exact hvalue v (Option.some.inj hv)
  · simp only [keep, Function.update_of_ne hb] at hv
    exact hmemo b' v hv

theorem resolve_sound (ssa : SsaFunction) (r fuel : Nat) (visiting : List Nat) (b : Nat) (memo : Memo)
    (hmemo : MemoSound ssa r memo) :
    (∀ v, (resolve ssa r fuel visiting b memo).1 = some v → Resolved ssa r v b) ∧
      MemoSound ssa r (resolve ssa r fuel visiting b memo).2 := by
  induction fuel generalizing visiting b memo with
  | zero => exact ⟨fun v hv => (nomatch hv), hmemo⟩
  | succ fuel ih =>
    rw [resolve]
    split
    · rename_i cached hcached
      exact ⟨fun v hv => hmemo b v (hcached.trans (congrArg some hv)), hmemo⟩
    split
    · exact ⟨fun v hv => (nomatch hv), hmemo⟩
    split
    · exact keep_sound (fun v hv => nomatch hv) hmemo
    rename_i block hblock
    split
    · rename_i w hw
      refine keep_sound (fun v hv => ?_) hmemo
      obtain rfl : w = v := Option.some.inj hv
      rcases Option.or_eq_some_iff.mp hw with huse | ⟨-, hdef⟩
      · exact .use hblock huse
      · exact .defined hblock hdef
    · rename_i hnone
      have hdef := (Option.or_eq_none_iff.mp hnone).2
      obtain ⟨hagree, hkept⟩ := agree_sound (fun p memo => ih (b :: visiting) p memo) none block.predecessorIds memo hmemo
      refine keep_sound (fun v hv => ?_) hkept
      obtain ⟨hall, hsome⟩ := hagree v hv
      exact .merged hblock hdef (by simpa using hsome) hall

/-! ## Paths -/

/-- The operations of a path from the entry up to a block, which is not part of it. -/
inductive PathTo (ssa : SsaFunction) (entry : Nat) : Nat → List SsaOp → Prop
  | start : PathTo ssa entry entry []
  | step {a b : Nat} {source target : SsaBlock} {ops : List SsaOp} (hpath : PathTo ssa entry a ops)
      (hsource : ssa.blocks[a]? = some source) (hstays : source.hasReturn = false)
      (htarget : ssa.blocks[b]? = some target) (hedge : a ∈ target.predecessorIds) :
      PathTo ssa entry b (ops ++ source.ops)

/-- On every path to a block at which a value is found by its definitions, the register is
last defined as that value; or not at all, which needs an entry with predecessors. -/
theorem lastDef_of_resolved {r entry b : Nat} {v : SsaVar} {block : SsaBlock} {ops : List SsaOp}
    (hpath : PathTo ssa entry b ops) (hblock : ssa.blocks[b]? = some block) (huse : block.returnUse r = none)
    (h : Resolved ssa r v b) :
    lastDef r (ops ++ block.beforeReturn) = some v ∨ lastDef r (ops ++ block.beforeReturn) = none ∧
      ∃ head, ssa.blocks[entry]? = some head ∧ head.predecessorIds ≠ [] := by
  induction hpath generalizing block with
  | start =>
    cases h with
    | use hblock' huse' =>
      rw [Option.some.inj (hblock.symm.trans hblock'), huse'] at huse
      cases huse
    | defined hblock' hdef =>
      obtain rfl := Option.some.inj (hblock.symm.trans hblock')
      exact .inl hdef
    | merged hblock' hdef hsome =>
      obtain rfl := Option.some.inj (hblock.symm.trans hblock')
      exact .inr ⟨hdef, block, hblock, hsome⟩
  | @step a b source target ops _ hsource hstays htarget hedge ih =>
    obtain rfl := Option.some.inj (hblock.symm.trans htarget)
    rw [lastDef_append]
    cases h with
    | use hblock' huse' =>
      rw [Option.some.inj (hblock.symm.trans hblock'), huse'] at huse
      cases huse
    | defined hblock' hdef =>
      obtain rfl := Option.some.inj (hblock.symm.trans hblock')
      rw [hdef]
      exact .inl rfl
    | merged hblock' hdef _ hall =>
      obtain rfl := Option.some.inj (hblock.symm.trans hblock')
      -- the block itself defines nothing, so its predecessor on the path decides
      rw [hdef, Option.none_or]
      have hbefore := ih hsource (SsaBlock.returnUse_eq_none hstays r) (hall a hedge)
      rwa [SsaBlock.beforeReturn_eq hstays] at hbefore

/-- What the resolver finds was found. -/
theorem resolved_of_reachingRegister {b r : Nat} {v : SsaVar}
    (h : reachingRegisterAtReturn ssa b r = some v) : Resolved ssa r v b := by
  unfold reachingRegisterAtReturn at h
  split at h
  · cases h
  split at h
  · have hempty : MemoSound ssa r fun _ => none := by
      intro b v hv
      cases hv
    exact (resolve_sound ssa r _ [] b _ hempty).1 v h
  · cases h

/-- A value found by definitions is the last definition on every path to the return exactly
when every path defines the register. -/
theorem reachingRegister_sound_iff (ssa : SsaFunction) (entry b r : Nat) (v : SsaVar) (block : SsaBlock)
    (hblock : ssa.blocks[b]? = some block) (huse : block.returnUse r = none)
    (h : reachingRegisterAtReturn ssa b r = some v) :
    (∀ ops, PathTo ssa entry b ops → lastDef r (ops ++ block.beforeReturn) = some v) ↔
      ∀ ops, PathTo ssa entry b ops → lastDef r (ops ++ block.beforeReturn) ≠ none := by
  constructor
  · intro hall ops hpath
    rw [hall ops hpath]
    exact Option.some_ne_none v
  · intro hall ops hpath
    rcases lastDef_of_resolved hpath hblock huse (resolved_of_reachingRegister h) with hv | ⟨hnone, -⟩
    · exact hv
    · exact absurd hnone (hall ops hpath)

/-- Where nothing leads back to the entry, a value found by definitions is right. -/
theorem reachingRegister_sound_of_entry {entry b r : Nat} {v : SsaVar} {block head : SsaBlock}
    (hhead : ssa.blocks[entry]? = some head) (hfirst : head.predecessorIds = [])
    (hblock : ssa.blocks[b]? = some block) (huse : block.returnUse r = none)
    (h : reachingRegisterAtReturn ssa b r = some v) {ops : List SsaOp} (hpath : PathTo ssa entry b ops) :
    lastDef r (ops ++ block.beforeReturn) = some v := by
  rcases lastDef_of_resolved hpath hblock huse (resolved_of_reachingRegister h) with hv | ⟨-, head', hhead', hsome⟩
  · exact hv
  · rw [Option.some.inj (hhead'.symm.trans hhead)] at hsome
    exact absurd hfirst hsome

section Example
open Structure.Emitter (codeAt flagAt)

def rax (version : Nat) : SsaVar := ⟨.register 0, version⟩

theorem ret_defines_nothing : (SsaOpKind.pcode (.ret (codeAt 0))).isCall → ∀ v : SsaVar, none = some v →
    v.location.isSlot = false := by
  simp

/-- `rax = 0; return;` -/
def zero : SsaFunction where
  entryVa := 0x1000
  bitness := 64
  blocks :=
    [⟨0, 0x1000, [⟨0x1000, .pcode (.copy ⟨.register, 0, 8⟩ ⟨.const, 0, 8⟩), some (rax 1), [], by simp [SsaOpKind.isCall]⟩,
      ⟨0x1003, .pcode (.ret (codeAt 0)), none, [], ret_defines_nothing⟩], [], []⟩]
  imageBase := 0
  id_eq := by
    intro i b h
    match i, h with
    | 0, h => cases h; rfl
    | _ + 1, h => cases h

theorem reachingRegister_sound_zero :
    ∃ block, zero.blocks[0]? = some block ∧
      ∀ ops, PathTo zero 0 0 ops → lastDef 0 (ops ++ block.beforeReturn) = some (rax 1) := by
  refine ⟨_, rfl, (reachingRegister_sound_iff zero 0 0 0 (rax 1) _ rfl rfl rfl).mpr fun ops _ => ?_⟩
  rw [lastDef_append]
  exact Option.some_ne_none _

/-- `while (v) { rax = 0; } return;`, entered at its condition. -/
def headLoop : SsaFunction where
  entryVa := 0x1000
  bitness := 64
  blocks :=
    [⟨0, 0x1000, [⟨0x1000, .pcode (.cbranch (codeAt 0x1010) (flagAt 0x200)), none, [], by simp⟩], [1], [2, 1]⟩,
     ⟨1, 0x1010, [⟨0x1010, .pcode (.copy ⟨.register, 0, 8⟩ ⟨.const, 0, 8⟩), some (rax 1), [], by simp [SsaOpKind.isCall]⟩],
      [0], [0]⟩,
     ⟨2, 0x1020, [⟨0x1020, .pcode (.ret (codeAt 0)), none, [], ret_defines_nothing⟩], [0], []⟩]
  imageBase := 0
  id_eq := by
    intro i b h
    match i, h with
    | 0, h => cases h; rfl
    | 1, h => cases h; rfl
    | 2, h => cases h; rfl
    | _ + 3, h => cases h

/-- The value of the loop is found, and the path that never enters the loop defines none. -/
theorem headLoop_unsound :
    reachingRegisterAtReturn headLoop 2 0 = some (rax 1) ∧
      ∃ block ops, headLoop.blocks[2]? = some block ∧ block.returnUse 0 = none ∧ PathTo headLoop 0 2 ops ∧
        lastDef 0 (ops ++ block.beforeReturn) = none := by
  refine ⟨rfl, _, _, rfl, rfl, .step .start rfl rfl rfl ?_, rfl⟩
  exact List.mem_singleton.mpr rfl

end Example

end Windy.Decompiler
