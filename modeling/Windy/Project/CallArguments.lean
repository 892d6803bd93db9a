import Windy.Lib.Backward
import Windy.Project.SsaCache
import Windy.Decompiler.V2.RegionAst
import Windy.Decompiler.Ssa.Simplify

/- The arguments shown at the call sites of a function (`call_sites_with_args` in `project/mod.rs`).

   For every `Call` and `CallInd` of the optimized SSA the callee is resolved, and for as many of
   RCX, RDX, R8 and R9 as its signature has parameters the block is scanned from its start to the
   first operation of the call's instruction. The last definition of the register is what the
   argument is traced to, unless the call itself uses the register.

   The lifter of the calls (`same_block_reaching_register` in `decompiler/hir.rs`) answers the same
   question from the call backward and gives up at an earlier call, since a call does not keep these
   registers. The scan here crosses calls. What is proved (`agrees_iff`): at every call, for every
   register the call does not use, the two agree just if no call stands between the definition the
   scan ends with and the call, and the call's own instruction defines the register nowhere that a
   backward search would find.

   Correspondence:
     `arg_regs` ↔ the same
     the callee and `max_args` ↔ `calleeVa`, `maxArgs`
     the loop over `block.ops` and over `op.uses` ↔ `reachingArgument`
     `call_sites_with_args` ↔ the same
   What is shown of the definition (its class, its recovered type, its string) is read off it
   afterwards and left out, as are the names of the callees. -/
namespace Windy.CallArguments

open Decompiler
open Decompiler.V2 (definesRegister sameBlockReachingRegister)
open Simplify (flatOps SingleDefs)
open SsaCache (Image signatureForTarget)

/-! ## Call sites -/

/-- The argument registers in the order of the calling convention. -/
def argRegs : List (Nat × String) := [(0x08, "rcx"), (0x10, "rdx"), (0x80, "r8"), (0x88, "r9")]

structure CallArg where
  base : Nat
  reg : String
  param : Option String
  reaching : Option SsaVar
  deriving DecidableEq, Repr

structure CallSite where
  callVa : Nat
  calleeVa : Option Nat
  args : List CallArg
  deriving DecidableEq, Repr

/-- The operations in front of the call's instruction: the scan stops at the first operation
with the address of the call that is not a phi. -/
def priorOps (block : SsaBlock) (op : SsaOp) : List SsaOp :=
  block.ops.takeWhile fun prior => !(prior.va = op.va && !prior.isPhi)

/-- The variable an operation defines in a register. -/
def defIn (base : Nat) (op : SsaOp) : Option SsaVar := if definesRegister op base then op.def? else none

/-- The last definition in front of the call, replaced by what the call itself uses. -/
def reachingArgument (block : SsaBlock) (op : SsaOp) (base : Nat) : Option SsaVar :=
  op.uses.foldl (fun reaching use => if use.location = .register base then some use else reaching)
    (Backward.last (defIn base) (priorOps block op))

def dest? (op : SsaOp) : Option Varnode :=
  match op.kind with
  | .pcode (.call dest) | .pcode (.callInd dest) => some dest
  | _ => none

section Sites
variable {σ : Type} (img : Image σ) (p : Project) (callEdges : Nat → List Nat)

/-- The address in the operation, or the target of the first call edge of the block. -/
def calleeVa (block : SsaBlock) (dest : Varnode) : Option Nat :=
  let direct := if dest.space = .const then dest.offset else 0
  if direct ≠ 0 then some direct else (callEdges block.entryVa).find? fun target => target ≠ 0

def calleeSignature (block : SsaBlock) (op : SsaOp) : Option FunctionSignature :=
  ((dest? op).bind (calleeVa callEdges block)).bind (signatureForTarget img p)

def maxArgs (signature : Option FunctionSignature) : Nat := min (signature.elim 4 fun s => s.params.length) 4

def callArgs (block : SsaBlock) (op : SsaOp) : List CallArg :=
  let signature := calleeSignature img p callEdges block op
  (argRegs.take (maxArgs signature)).zipIdx.map fun entry =>
    { base := entry.1.1
      reg := entry.1.2
      param := (signature.bind fun s => s.params[entry.2]?).map Prod.fst
      reaching := reachingArgument block op entry.1.1 }

def callSitesWithArgs (ssa : SsaFunction) : List CallSite :=
  ssa.blocks.flatMap fun block =>
    (block.ops.filter fun op => op.kind.isCall).map fun op =>
      { callVa := op.va
        calleeVa := (dest? op).bind (calleeVa callEdges block)
        args := callArgs img p callEdges block op }

end Sites

/-! ## The two scans -/

theorem defIn_eq_some_iff {base : Nat} {op : SsaOp} {v : SsaVar} :
    defIn base op = some v ↔ op.def? = some v ∧ v.location = .register base := by
  unfold defIn definesRegister
  cases hdef : op.def? with
  | none => simp
  | some w =>
    by_cases hloc : w.location = .register base
    · simp only [Option.any_some, hloc, decide_true, if_true, Option.some.injEq]
      exact ⟨fun h => ⟨h, h ▸ hloc⟩, And.left⟩
    · simp only [Option.any_some, hloc, decide_false, Bool.false_eq_true, if_false, Option.some.injEq, reduceCtorEq, false_iff]
      rintro ⟨rfl, h⟩
      exact hloc h

theorem defIn_eq_none_iff {base : Nat} {op : SsaOp} : defIn base op = none ↔ definesRegister op base = false := by
  unfold defIn definesRegister
  cases hdef : op.def? with
  | none => simp
  | some w => by_cases hloc : w.location = .register base <;> simp [hloc]

theorem definesRegister_of_defIn {base : Nat} {op : SsaOp} {v : SsaVar} (h : defIn base op = some v) :
    definesRegister op base = true := by
  cases hdefines : definesRegister op base with
  | true => rfl
  | false =>
    rw [defIn_eq_none_iff.mpr hdefines] at h
    cases h

theorem exists_defIn {base : Nat} {op : SsaOp} (h : definesRegister op base) : ∃ v, defIn base op = some v := by
  cases hdef : defIn base op with
  | none =>
    rw [defIn_eq_none_iff.mp hdef] at h
    cases h
  | some v => exact ⟨v, rfl⟩

theorem reachingArgument_of_unused {block : SsaBlock} {op : SsaOp} {base : Nat}
    (hunused : ∀ use ∈ op.uses, use.location ≠ .register base) :
    reachingArgument block op base = Backward.last (defIn base) (priorOps block op) := by
  unfold reachingArgument
  generalize Backward.last (defIn base) (priorOps block op) = reaching
  generalize op.uses = uses at hunused
  induction uses with
  | nil => rfl
  | cons use uses ih =>
    rw [List.foldl_cons, if_neg (hunused use (by simp))]
    exact ih fun u hu => hunused u (by simp [hu])

/-- What the backward search of the lifter finds. -/
theorem sameBlock_eq_some_iff {block : SsaBlock} {i base : Nat} {v : SsaVar} :
    sameBlockReachingRegister block i base = some v ↔
      ∃ early d late, block.ops.take i = early ++ d :: late ∧ defIn base d = some v ∧ d.kind.isCall = false ∧
        ∀ x ∈ late, x.kind.isCall = false ∧ definesRegister x base = false := by
  have hsearch : sameBlockReachingRegister block i base =
      (Backward.search (fun op => op.kind.isCall) (fun op => definesRegister op base) (block.ops.take i)).bind SsaOp.def? := by
    simp only [sameBlockReachingRegister, Backward.search]
    split
    next d hfind => rw [hfind]; rfl
    next hfind => rw [hfind]; rfl
  rw [hsearch, Option.bind_eq_some_iff]
  constructor
  · rintro ⟨d, hd, hdef⟩
    obtain ⟨early, late, heq, hdefines, hgo, hlate⟩ := Backward.search_eq_some_iff.mp hd
    exact ⟨early, d, late, heq, by simp [defIn, hdefines, hdef], hgo, hlate⟩
  · rintro ⟨early, d, late, heq, hdef, hgo, hlate⟩
    exact ⟨d, Backward.search_eq_some_iff.mpr ⟨early, late, heq, definesRegister_of_defIn hdef, hgo, hlate⟩,
      (defIn_eq_some_iff.mp hdef).1⟩

/-! ## When they agree -/

/-- No call stands between the last definition in front of the call's instruction and the call
itself. -/
def NotCrossed (block : SsaBlock) (i : Nat) (op : SsaOp) (base : Nat) : Prop :=
  ∀ early d late, priorOps block op = early ++ d :: late → definesRegister d base →
    (∀ x ∈ late, definesRegister x base = false) → ∀ x ∈ (block.ops.take i).drop early.length, x.kind.isCall = false

/-- A definition behind which no call and no other definition stands up to the call is in front
of the call's instruction. -/
def DefinedBefore (block : SsaBlock) (i : Nat) (op : SsaOp) (base : Nat) : Prop :=
  ∀ early d late, block.ops.take i = early ++ d :: late → definesRegister d base → d.kind.isCall = false →
    (∀ x ∈ late, x.kind.isCall = false ∧ definesRegister x base = false) → early.length < (priorOps block op).length

section Block
variable {block : SsaBlock} {i : Nat} {op : SsaOp} {base : Nat}

/-- The scan stops at the call, if not before. -/
theorem priorOps_front (hop : block.ops[i]? = some op) (hcall : op.kind.isCall) :
    priorOps block op <+: block.ops.take i := by
  have hphi : op.isPhi = false := by
    unfold SsaOp.isPhi
    cases hkind : op.kind with
    | phi out args => simp [SsaOpKind.isCall, hkind] at hcall
    | pcode code => rfl
  have hsplit : block.ops = block.ops.take i ++ op :: block.ops.drop (i + 1) := by
    obtain ⟨hi, rfl⟩ := List.getElem?_eq_some_iff.mp hop
    rw [← List.drop_eq_getElem_cons hi, List.take_append_drop]
  unfold priorOps
  rw [hsplit, List.takeWhile_append, List.takeWhile_cons_of_neg (by simp [hphi]), ← hsplit, List.append_nil]
  split
  · exact List.prefix_rfl
  · exact List.takeWhile_prefix _

/-- Variables are defined once, so a definition has one place in the block. -/
theorem length_eq_of_defIn (hnodup : (block.ops.filterMap SsaOp.def?).Nodup) {early early' late late' : List SsaOp}
    {d d' : SsaOp} {v : SsaVar} {xs xs' : List SsaOp} (hxs : xs <+: block.ops) (hxs' : xs' <+: block.ops)
    (heq : xs = early ++ d :: late) (heq' : xs' = early' ++ d' :: late') (hdef : defIn base d = some v)
    (hdef' : defIn base d' = some v) : early.length = early'.length := by
  have hplace : block.ops[early.length]? = some d := by
    obtain ⟨tail, htail⟩ := hxs
    rw [← htail, heq]
    simp
  have hplace' : block.ops[early'.length]? = some d' := by
    obtain ⟨tail, htail⟩ := hxs'
    rw [← htail, heq']
    simp
  obtain ⟨hlt, rfl⟩ := List.getElem?_eq_some_iff.mp hplace
  obtain ⟨hlt', rfl⟩ := List.getElem?_eq_some_iff.mp hplace'
  have hpairs := List.pairwise_iff_getElem.mp (List.pairwise_filterMap.mp hnodup)
  have hv := (defIn_eq_some_iff.mp hdef).1
  have hv' := (defIn_eq_some_iff.mp hdef').1
  rcases Nat.lt_trichotomy early.length early'.length with hlt'' | heq'' | hgt
  · exact absurd rfl (hpairs _ _ hlt hlt' hlt'' v hv v hv')
  · exact heq''
  · exact absurd rfl (hpairs _ _ hlt' hlt hgt v hv' v hv)

/-- What the scan keeps is what the search finds, unless a call is crossed or the call's own
instruction defines the register. -/
theorem last_eq_sameBlock_iff (hnodup : (block.ops.filterMap SsaOp.def?).Nodup) (hop : block.ops[i]? = some op)
    (hcall : op.kind.isCall) :
    Backward.last (defIn base) (priorOps block op) = sameBlockReachingRegister block i base ↔
      NotCrossed block i op base ∧ DefinedBefore block i op base := by
  have hprior : priorOps block op <+: block.ops.take i := priorOps_front hop hcall
  have htake : block.ops.take i <+: block.ops := List.take_prefix _ _
  obtain ⟨own, hown⟩ := hprior
  constructor
  · intro hagree
    refine ⟨fun early d late heq hdefines hlate => ?_, fun early d late heq hdefines hgo hlate => ?_⟩
    · obtain ⟨v, hv⟩ := exists_defIn hdefines
      have hlast : Backward.last (defIn base) (priorOps block op) = some v :=
        Backward.last_eq_some_iff.mpr ⟨early, d, late, heq, hv, fun x hx => defIn_eq_none_iff.mpr (hlate x hx)⟩
      obtain ⟨early', d', late', heq', hv', hgo', hlate'⟩ := sameBlock_eq_some_iff.mp (hagree.symm.trans hlast)
      have hlength := length_eq_of_defIn hnodup (priorOps_front hop hcall |>.trans htake) htake heq heq' hv hv'
      intro x hx
      rw [heq', hlength, List.drop_left] at hx
      rcases List.mem_cons.mp hx with rfl | hx
      · exact hgo'
      · exact (hlate' x hx).1
    · obtain ⟨v, hv⟩ := exists_defIn hdefines
      have hfound : sameBlockReachingRegister block i base = some v :=
        sameBlock_eq_some_iff.mpr ⟨early, d, late, heq, hv, hgo, hlate⟩
      obtain ⟨early', d', late', heq', hv', -⟩ := Backward.last_eq_some_iff.mp (hagree.trans hfound)
      have hlength := length_eq_of_defIn hnodup (priorOps_front hop hcall |>.trans htake) htake heq' heq hv' hv
      rw [heq', ← hlength]
      simp
  · rintro ⟨hcrossed, hbefore⟩
    refine Option.ext fun v => ?_
    rw [Backward.last_eq_some_iff, sameBlock_eq_some_iff]
    constructor
    · rintro ⟨early, d, late, heq, hv, hlate⟩
      have hlate' : ∀ x ∈ late, definesRegister x base = false := fun x hx => defIn_eq_none_iff.mp (hlate x hx)
      have htake' : block.ops.take i = early ++ d :: (late ++ own) := by rw [← hown, heq]; simp
      have hnocall : ∀ x ∈ d :: (late ++ own), x.kind.isCall = false := by
        have := hcrossed early d late heq (definesRegister_of_defIn hv) hlate'
        rwa [htake', List.drop_left] at this
      -- The call's instruction does not define the register: its last definition would be found.
      have hownfree : ∀ x ∈ own, definesRegister x base = false := by
        by_contra hdefines
        push Not at hdefines
        obtain ⟨x, hx, hdef⟩ := hdefines
        obtain ⟨early', d', late', hsplit, hd', hbehind⟩ :=
          Backward.exists_last (p := fun y => definesRegister y base) ⟨x, hx, by simpa using hdef⟩
        have hbefore' := hbefore (priorOps block op ++ early') d' late' (by rw [← hown, hsplit]; simp) hd'
          (hnocall d' (by simp [hsplit])) fun y hy => ⟨hnocall y (by simp [hsplit, hy]), hbehind y hy⟩
        rw [List.length_append] at hbefore'
        omega
      refine ⟨early, d, late ++ own, htake', hv, hnocall d (by simp), fun x hx => ⟨hnocall x (by simp [List.mem_append.mp hx]), ?_⟩⟩
      rcases List.mem_append.mp hx with hx | hx
      · exact hlate' x hx
      · exact hownfree x hx
    · rintro ⟨early, d, late, heq, hv, hgo, hlate⟩
      have hlength := hbefore early d late heq (definesRegister_of_defIn hv) hgo hlate
      rcases List.append_eq_append_iff.mp (hown.trans heq) with ⟨rest, hearly, -⟩ | ⟨rest, hprior, hrest⟩
      · rw [hearly, List.length_append] at hlength
        omega
      · cases rest with
        | nil =>
          rw [hprior, List.append_nil] at hlength
          omega
        | cons d' late' =>
          obtain ⟨rfl, rfl⟩ := List.cons.inj hrest
          exact ⟨early, d, late', hprior, hv, fun x hx => defIn_eq_none_iff.mpr (hlate x (by simp [hx])).2⟩

end Block

/-- What every call shows for a register it does not use is what the lifter of the calls
traces it to. -/
def Agrees {σ : Type} (img : Image σ) (p : Project) (callEdges : Nat → List Nat) (ssa : SsaFunction) : Prop :=
  ∀ block ∈ ssa.blocks, ∀ i op, block.ops[i]? = some op → op.kind.isCall →
    ∀ arg ∈ callArgs img p callEdges block op, (∀ use ∈ op.uses, use.location ≠ .register arg.base) →
      arg.reaching = sameBlockReachingRegister block i arg.base

/-- At every call, for every register looked at that the call does not use. -/
def CallsClear {σ : Type} (img : Image σ) (p : Project) (callEdges : Nat → List Nat) (ssa : SsaFunction) : Prop :=
  ∀ block ∈ ssa.blocks, ∀ i op, block.ops[i]? = some op → op.kind.isCall →
    ∀ entry ∈ argRegs.take (maxArgs (calleeSignature img p callEdges block op)),
      (∀ use ∈ op.uses, use.location ≠ .register entry.1) → NotCrossed block i op entry.1 ∧ DefinedBefore block i op entry.1

theorem mem_callArgs {σ : Type} {img : Image σ} {p : Project} {callEdges : Nat → List Nat} {block : SsaBlock} {op : SsaOp}
    {P : Nat → Option SsaVar → Prop} :
    (∀ arg ∈ callArgs img p callEdges block op, P arg.base arg.reaching) ↔
      ∀ entry ∈ argRegs.take (maxArgs (calleeSignature img p callEdges block op)),
        P entry.1 (reachingArgument block op entry.1) := by
  simp only [callArgs, List.forall_mem_map]
  constructor
  · intro h entry hentry
    obtain ⟨k, hk⟩ := List.mem_iff_getElem?.mp hentry
    exact h (entry, k) (List.mem_zipIdx_iff_getElem?.mpr hk)
  · intro h entry hentry
    exact h entry.1 (List.mem_of_getElem? (List.mem_zipIdx_iff_getElem?.mp hentry))

theorem nodup_defs_of_mem {ssa : SsaFunction} (hsingle : SingleDefs ssa) {block : SsaBlock} (hblock : block ∈ ssa.blocks) :
    (block.ops.filterMap SsaOp.def?).Nodup := by
  have hsub : block.ops.Sublist (flatOps ssa) := by
    unfold flatOps
    rw [List.flatMap_def]
    exact List.sublist_flatten_of_mem (List.mem_map_of_mem hblock)
  exact List.Nodup.sublist (hsub.filterMap _) hsingle

theorem agrees_iff {σ : Type} (img : Image σ) (p : Project) (callEdges : Nat → List Nat) (ssa : SsaFunction)
    (hsingle : SingleDefs ssa) : Agrees img p callEdges ssa ↔ CallsClear img p callEdges ssa := by
  have hcall : ∀ block ∈ ssa.blocks, ∀ i op, block.ops[i]? = some op → op.kind.isCall → ∀ base,
      (∀ use ∈ op.uses, use.location ≠ .register base) →
        (reachingArgument block op base = sameBlockReachingRegister block i base ↔
          NotCrossed block i op base ∧ DefinedBefore block i op base) := by
    intro block hblock i op hop hiscall base hunused
    rw [reachingArgument_of_unused hunused]
    exact last_eq_sameBlock_iff (nodup_defs_of_mem hsingle hblock) hop hiscall
  unfold Agrees CallsClear
  constructor
  · intro h block hblock i op hop hiscall entry hentry hunused
    have hargs := mem_callArgs (P := fun base reaching => (∀ use ∈ op.uses, use.location ≠ .register base) →
      reaching = sameBlockReachingRegister block i base) |>.mp (h block hblock i op hop hiscall)
    exact (hcall block hblock i op hop hiscall entry.1 hunused).mp (hargs entry hentry hunused)
  · intro h block hblock i op hop hiscall
    refine mem_callArgs (P := fun base reaching => (∀ use ∈ op.uses, use.location ≠ .register base) →
      reaching = sameBlockReachingRegister block i base) |>.mpr fun entry hentry hunused => ?_
    exact (hcall block hblock i op hop hiscall entry.1 hunused).mpr (h block hblock i op hop hiscall entry hentry hunused)

/-! ## Two calls in a row -/

def rcx : SsaVar := ⟨.register 0x08, 2⟩

def setRcx : SsaOp :=
  ⟨0x401000, .pcode (.copy ⟨.register, 0x08, 8⟩ ⟨.const, 7, 8⟩), some rcx, [], by simp [SsaOpKind.isCall]⟩

def callTo (va target : Nat) (uses : List SsaVar) : SsaOp :=
  ⟨va, .pcode (.call ⟨.const, target, 8⟩), none, uses, by simp⟩

def callsBlock : SsaBlock := ⟨0, 0x401000, [setRcx, callTo 0x401004 0x401100 [rcx], callTo 0x401008 0x401200 []], [], []⟩

/-- RCX is set for the first call, which a second follows. -/
def twoCalls : SsaFunction where
  entryVa := 0x401000
  bitness := 64
  blocks := [callsBlock]
  imageBase := 0x400000
  id_eq := by
    intro i b h
    cases i with
    | zero => exact (Option.some.inj h) ▸ rfl
    | succ i => simp at h

theorem agrees_twoCalls :
    SingleDefs twoCalls ∧
      (Agrees SsaCache.mainImage SsaCache.noEdits (fun _ => []) twoCalls ↔
        CallsClear SsaCache.mainImage SsaCache.noEdits (fun _ => []) twoCalls) :=
  ⟨by decide, agrees_iff SsaCache.mainImage SsaCache.noEdits (fun _ => []) twoCalls (by decide)⟩

/-- The second call is shown with the value set for the first, which it need not have left. -/
theorem twoCalls_not_agrees : ¬ Agrees SsaCache.mainImage SsaCache.noEdits (fun _ => []) twoCalls := by
  intro h
  have hshown : (⟨0x08, "rcx", none, some rcx⟩ : CallArg) ∈
      callArgs SsaCache.mainImage SsaCache.noEdits (fun _ => []) callsBlock (callTo 0x401008 0x401200 []) := by decide
  have hagree := h callsBlock (by simp [twoCalls]) 2 (callTo 0x401008 0x401200 []) rfl rfl _ hshown (by simp [callTo])
  exact absurd hagree (by decide)

end Windy.CallArguments
