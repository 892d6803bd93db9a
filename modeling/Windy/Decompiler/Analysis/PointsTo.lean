import Mathlib.Data.Finmap
import Windy.Lib.Run
import Windy.Decompiler.Ssa.Lower
import Windy.Decompiler.Ssa.Simplify

/- Where loads and stores point to (`decompiler/analysis/points_to.rs`).

   The pointer of a load or a store is traced back through copies and additions to a constant.
   The trace keeps the variable it goes on with, not the displacement that is added, and what
   it finds is filed under the address of the instruction, where the next load or store of that
   instruction overwrites it.

   Above the code are runs of a function in SSA form: variables get values, copies and
   additions those they compute, everything else any value. A run may take the operations in
   any order in which what they use has been defined.

   What is proved:
     1. `target_of_lookup`: a global that is recorded is the target of the last load or store
        of the instruction, as far as the definitions lead.
     2. `global_accessed`: in a run in which the trace loses nothing, every load and store of
        the instruction goes to the global that is recorded.

   Correspondence:
     the map `def_op` ↔ `defOp`
     one round of the trace ↔ `traceStep`, the entries it returns ↔ `TraceStep.entry?`
     `resolve_pointer`, `compute_points_to` ↔ the same -/
namespace Windy.Decompiler.PointsTo

open Lower (registerContainerBase isFramePtr asI64)
open Simplify (flatOps SingleDefs)

inductive PointsToKind where
  | global
  | iatSlot
  | stackRef
  | heapUnknown
  | paramPtr
  deriving DecidableEq, Repr

structure PointsToEntry where
  kind : PointsToKind
  va : Option Nat
  symbol : Option String
  stackDisp : Option Int
  deriving DecidableEq, Repr

/-- The context: which addresses hold data, the names of addresses, what the operands of
instructions refer to, and which addresses are import slots. -/
structure PointsToCtx where
  isDataVa : Nat → Bool
  symbolName : Nat → Option String
  insnGlobal : Nat → Option Nat
  isIat : Nat → Bool

/-- The entry says that an access goes to a global or an import slot at `g`. -/
def PointsToEntry.PointsAt (entry : PointsToEntry) (g : Nat) : Prop :=
  (entry.kind = .global ∨ entry.kind = .iatSlot) ∧ entry.va = some g

/-- `(instruction, operand index) → target`. -/
abbrev PointsToMap := Finmap fun _ : Nat × Nat => PointsToEntry

def isParamReg (base : Nat) : Bool := base = 0x08 || base = 0x10 || base = 0x80 || base = 0x88

def regLabel (base : Nat) : String :=
  if base = 0x08 then "rcx"
  else if base = 0x10 then "rdx"
  else if base = 0x80 then "r8"
  else if base = 0x88 then "r9"
  else "reg"

/-- The operation that defines a variable, the last one if there are more. -/
def defOp (ssa : SsaFunction) (x : SsaVar) : Option SsaOp := (flatOps ssa).reverse.find? fun op => op.def? = some x

/-- The first variable of this container that an operation uses. -/
def registerUse (op : SsaOp) (base : Nat) : Option SsaVar := op.uses.find? fun u => u.location = .register base

section Trace
variable (ssa : SsaFunction) (ctx : PointsToCtx)

def PointsToCtx.globalEntry (va : Nat) : PointsToEntry :=
  { kind := if ctx.isIat va then .iatSlot else .global
    va := some va
    symbol := ctx.symbolName va
    stackDisp := none }

/-- An entry of a kind that tells no address. -/
def unknownEntry (va : Option Nat) (symbol : Option String) : PointsToEntry :=
  { kind := .heapUnknown, va := va, symbol := symbol, stackDisp := none }

def stackEntry (disp : Int) : PointsToEntry :=
  { kind := .stackRef, va := none, symbol := none, stackDisp := some disp }

/-- What the definition of a variable makes of the trace. -/
inductive TraceStep where
  | constant (va : Nat)
  | frame (disp : Int)
  | loaded (va : Nat)
  | next (u : SsaVar)
  | stop

/-- The first use, if there is one. -/
def firstUse (op : SsaOp) : TraceStep :=
  match op.uses.head? with
  | some u => .next u
  | none => .stop

/-- The variable of the container of a register, else the first use. -/
def useOf (op : SsaOp) (vn : Varnode) : TraceStep :=
  if vn.space = .register then
    match registerUse op (registerContainerBase vn.offset) with
    | some u => .next u
    | none => firstUse op
  else firstUse op

/-- The base of an addition and its displacement, which only a stack reference keeps. -/
def addBase (left right : Varnode) : Option (Varnode × Int) :=
  if right.space = .const then some (left, asI64 right.offset)
  else if left.space = .const then some (right, asI64 left.offset)
  else none

def traceStep (definer : SsaOp) : TraceStep :=
  match definer.kind with
  | .pcode (.copy _ input) => if input.space = .const then .constant input.offset else useOf definer input
  | .pcode (.intAdd _ left right) =>
    match addBase left right with
    | some (base, disp) =>
      if base.space = .register ∧ isFramePtr (registerContainerBase base.offset) then .frame disp
      else useOf definer base
    | none => firstUse definer
  | .pcode (.load _ _) =>
    match ctx.insnGlobal definer.va with
    | some gva => .loaded gva
    | none => .stop
  | _ => .stop

/-- The loop of `resolve_pointer`: the entry it returns, or the variable it ends at. -/
def trace : Nat → SsaVar → PointsToEntry ⊕ SsaVar
  | 0, current => .inr current
  | rounds + 1, current =>
    match defOp ssa current with
    | none => .inr current
    | some definer =>
      match traceStep ctx definer with
      | .constant va =>
        .inl (if va ≠ 0 ∧ ctx.isDataVa va then ctx.globalEntry va else unknownEntry (some va) none)
      | .frame disp => .inl (stackEntry disp)
      | .loaded gva => .inl (unknownEntry (some gva) ((ctx.symbolName gva).map ("*" ++ ·)))
      | .next u => trace rounds u
      | .stop => .inr current

/-- The entry of a live-in parameter. -/
def paramEntry (x : SsaVar) : Option PointsToEntry :=
  match x.location with
  | .register base =>
    if x.version = 1 ∧ (defOp ssa x).isNone ∧ isParamReg base then
      some { kind := .paramPtr, va := none, symbol := some ("param_" ++ regLabel base), stackDisp := none }
    else none
  | _ => none

/-- The variable a pointer is: of a register the one of its container, of a temporary the one
of this instruction with its offset and size. -/
def pointerUse (op : SsaOp) (ptr : Varnode) : Option SsaVar :=
  match ptr.space with
  | .register => registerUse op (registerContainerBase ptr.offset)
  | .unique => op.uses.find? fun u => u.location = .unique op.va ptr.offset ptr.size
  | _ => none

def resolvePointer (ptr : Varnode) (op : SsaOp) : PointsToEntry :=
  if ptr.space = .const ∨ ptr.space = .ram then
    if ptr.offset ≠ 0 ∧ ctx.isDataVa ptr.offset then ctx.globalEntry ptr.offset
    else unknownEntry (if ptr.offset ≠ 0 then some ptr.offset else none) none
  else
    match pointerUse op ptr with
    | none => unknownEntry none none
    | some sv =>
      (paramEntry ssa sv).getD <|
        match trace ssa ctx 16 sv with
        | .inl entry => entry
        | .inr current => (paramEntry ssa current).getD (unknownEntry none none)

/-- The pointer of a load or a store. -/
def pointer (op : SsaOp) : Option Varnode :=
  match op.kind with
  | .pcode p => Lower.pointer p
  | _ => none

/-- What is recorded for one operation. -/
def entryOf (op : SsaOp) (ptr : Varnode) : PointsToEntry :=
  match op.uses.head?.map SsaVar.location with
  | some (.stackSlot _ disp) => stackEntry disp
  | _ =>
    match ctx.insnGlobal op.va with
    | some gva => ctx.globalEntry gva
    | none => resolvePointer ssa ctx ptr op

/-- The entry of a load or a store replaces the one its instruction has. -/
def record (map : PointsToMap) (op : SsaOp) : PointsToMap :=
  match pointer op with
  | some ptr => map.insert (op.va, 0) (entryOf ssa ctx op ptr)
  | none => map

def computePointsTo : PointsToMap := (flatOps ssa).foldl (record ssa ctx) ∅

end Trace

/-! ## Runs -/

/-- The values of the variables that are defined so far. -/
abbrev Values := SsaVar → Option Nat

/-- What an operation reads in a varnode: of a register the bytes of its container. -/
def readVar (values : Values) (op : SsaOp) (vn : Varnode) : Option Nat :=
  match vn.space with
  | .const => some (vn.offset % 256 ^ vn.size)
  | .register => ((registerUse op (registerContainerBase vn.offset)).bind values).map fun x =>
      x / 256 ^ (vn.offset - registerContainerBase vn.offset) % 256 ^ vn.size
  | .unique => ((op.uses.find? fun u => u.location = .unique op.va vn.offset vn.size).bind values).map fun x =>
      x % 256 ^ vn.size
  | .ram => none

/-- A varnode that takes its whole variable. -/
def isWhole (vn : Varnode) : Bool :=
  match vn.space with
  | .register => registerContainerBase vn.offset = vn.offset && vn.size = 8
  | .unique => true
  | _ => false

/-- The value a copy or an addition gives to its variable, if it writes the whole of it. -/
def computed (values : Values) (op : SsaOp) : Option Nat :=
  match op.kind with
  | .pcode (.copy out input) => if isWhole out then readVar values op input else none
  | .pcode (.intAdd out left right) =>
    if isWhole out then
      (readVar values op left).bind fun x => (readVar values op right).map fun y => (x + y) % 256 ^ out.size
    else none
  | _ => none

/-- An operation is executed: its position, the value its variable gets and the address it
accesses, if it does either. -/
structure Event where
  index : Nat
  value : Nat
  address : Nat

/-- Whether an instruction that refers to an address does so with this load or store. -/
abbrev ThroughRip := SsaOp → Bool

section Runs
variable (ssa : SsaFunction) (ctx : PointsToCtx) (rip : ThroughRip)

/-- What an operation uses is defined; a phi uses the variable of one predecessor. -/
def isReady (values : Values) (op : SsaOp) : Bool :=
  match op.kind with
  | .phi _ _ => true
  | .pcode _ => op.uses.all fun u => (values u).isSome

def valueFits (values : Values) (op : SsaOp) (value : Nat) : Bool := (computed values op).all (· == value)

/-- The address is what the pointer holds; that of an operand relative to RIP is the one the
context has for the instruction. -/
def addressFits (values : Values) (op : SsaOp) (address : Nat) : Bool :=
  ((pointer op).bind (readVar values op)).all (· == address) &&
    (!rip op || (ctx.insnGlobal op.va).all (· == address))

def define (values : Values) (op : SsaOp) (value : Nat) : Values :=
  match op.def? with
  | some x => Function.update values x (some value)
  | none => values

def step (values : Values) (e : Event) : Option Values :=
  match (flatOps ssa)[e.index]? with
  | some op =>
    if isReady values op && valueFits values op e.value && addressFits ctx rip values op e.address then
      some (define values op e.value)
    else none
  | none => none

/-- At the start only what comes in from outside has a value. -/
def Starts (values : Values) : Prop := ∀ x, (defOp ssa x).isSome → values x = none

/-- In every run the loads and stores of the instruction go to one address. -/
def AlwaysAccesses (va g : Nat) : Prop :=
  ∀ values, Starts ssa values → ∀ events values', Run.exec (step ssa ctx rip) values events = some values' →
    ∀ e ∈ events, ∀ op, (flatOps ssa)[e.index]? = some op → op.va = va → (pointer op).isSome → e.address = g

/-! ## Targets -/

/-- The definitions of a variable lead to a constant. -/
inductive StartsFrom : SsaVar → Nat → Prop
  | constant {x : SsaVar} {definer : SsaOp} {c : Nat} (hdef : defOp ssa x = some definer)
      (hstep : traceStep ctx definer = .constant c) : StartsFrom x c
  | next {x u : SsaVar} {definer : SsaOp} {c : Nat} (hdef : defOp ssa x = some definer)
      (hstep : traceStep ctx definer = .next u) (hrest : StartsFrom u c) : StartsFrom x c

/-- The address a load or a store is meant to go to. -/
inductive Target (op : SsaOp) (c : Nat) : Prop
  | operand (hglobal : ctx.insnGlobal op.va = some c) (hrip : rip op = true)
  | constant {ptr : Varnode} (hglobal : ctx.insnGlobal op.va = none) (hptr : pointer op = some ptr)
      (hconst : ptr.space = .const) (hc : ptr.offset = c)
  | traced {ptr : Varnode} {x : SsaVar} (hglobal : ctx.insnGlobal op.va = none) (hptr : pointer op = some ptr)
      (huse : pointerUse op ptr = some x) (hfrom : StartsFrom ssa ctx x c)

/-- The trace goes from one variable on to the other. -/
def Follows (x u : SsaVar) : Prop := ∃ definer, defOp ssa x = some definer ∧ traceStep ctx definer = .next u

/-- The variable is on the trace of a load or store of the instruction. -/
def OnTrace (va : Nat) (x : SsaVar) : Prop :=
  ∃ op ∈ flatOps ssa, op.va = va ∧ ∃ ptr sv, pointer op = some ptr ∧ pointerUse op ptr = some sv ∧
    Relation.ReflTransGen (Follows ssa ctx) sv x

/-- The loads and stores of the instruction are meant to go to one address: all of them with
the operand relative to RIP if there is one, else wherever one of them is meant to go. -/
structure OneTarget (va : Nat) : Prop where
  operand : (ctx.insnGlobal va).isSome → ∀ op ∈ flatOps ssa, op.va = va → (pointer op).isSome → rip op = true
  agree : ∀ op ∈ flatOps ssa, ∀ op' ∈ flatOps ssa, op.va = va → op'.va = va → (pointer op').isSome →
    ∀ c, Target ssa ctx rip op c → Target ssa ctx rip op' c
  direct : ctx.insnGlobal va = none → ∀ op ∈ flatOps ssa, op.va = va → ∀ ptr, pointer op = some ptr → ptr.space ≠ .ram

/-- Nothing is lost on the way to the pointers of the instruction when this operation is
executed: what it defines gets the constant, or the value of the variable the trace goes on
with, and a pointer is all of its constant or variable. -/
structure LosesNothing (va : Nat) (values : Values) (op : SsaOp) : Prop where
  constant : ∀ x c, op.def? = some x → OnTrace ssa ctx va x → traceStep ctx op = .constant c →
    computed values op = some c
  next : ∀ x u, op.def? = some x → OnTrace ssa ctx va x → traceStep ctx op = .next u →
    ∃ n, values u = some n ∧ computed values op = some n
  pointer : op.va = va → ctx.insnGlobal va = none → ∀ ptr, pointer op = some ptr →
    (ptr.space = .const → readVar values op ptr = some ptr.offset) ∧
      ∀ sv, pointerUse op ptr = some sv → readVar values op ptr = values sv

end Runs

/-! ## What is recorded -/

section Recorded
variable {ssa : SsaFunction} {ctx : PointsToCtx} {rip : ThroughRip} {g : Nat} {entry : PointsToEntry}

theorem pointsAt_globalEntry {va : Nat} (h : (ctx.globalEntry va).PointsAt g) : va = g := Option.some.inj h.2

theorem not_pointsAt_unknown {va : Option Nat} {symbol : Option String} : ¬ (unknownEntry va symbol).PointsAt g := by
  intro h
  rcases h.1 with hkind | hkind
  · cases hkind
  · cases hkind

theorem not_pointsAt_stack {disp : Int} : ¬ (stackEntry disp).PointsAt g := by
  intro h
  cases h.2

theorem not_pointsAt_param {x : SsaVar} (h : paramEntry ssa x = some entry) :
    ¬ entry.PointsAt g := by
  intro hat
  unfold paramEntry at h
  split at h
  · split at h
    · obtain rfl := Option.some.inj h
      cases hat.2
    · cases h
  · cases h

/-- A global the trace ends at is the constant that the definitions start from. -/
theorem startsFrom_of_trace {rounds : Nat} {x : SsaVar} (h : trace ssa ctx rounds x = .inl entry)
    (hat : entry.PointsAt g) : StartsFrom ssa ctx x g := by
  induction rounds generalizing x with
  | zero => cases h
  | succ rounds ih =>
    unfold trace at h
    split at h
    · cases h
    · next definer hdef =>
      split at h
      · next va hstep =>
        obtain rfl := Sum.inl.inj h
        split at hat
        · obtain rfl := pointsAt_globalEntry hat
          exact .constant hdef hstep
        · exact absurd hat not_pointsAt_unknown
      · obtain rfl := Sum.inl.inj h
        exact absurd hat not_pointsAt_stack
      · obtain rfl := Sum.inl.inj h
        exact absurd hat not_pointsAt_unknown
      · next u hstep => exact .next hdef hstep (ih h)
      · cases h

theorem startsFrom_of_resolved {ptr : Varnode} {op : SsaOp} (hspace : ¬ (ptr.space = .const ∨ ptr.space = .ram))
    (hat : (resolvePointer ssa ctx ptr op).PointsAt g) : ∃ sv, pointerUse op ptr = some sv ∧ StartsFrom ssa ctx sv g := by
  unfold resolvePointer at hat
  rw [if_neg hspace] at hat
  split at hat
  · exact absurd hat not_pointsAt_unknown
  · next sv huse =>
    refine ⟨sv, huse, ?_⟩
    cases hparam : paramEntry ssa sv with
    | some entry =>
      rw [hparam, Option.getD_some] at hat
      exact absurd hat (not_pointsAt_param hparam)
    | none =>
      rw [hparam, Option.getD_none] at hat
      split at hat
      · next entry htrace => exact startsFrom_of_trace htrace hat
      · next current htrace =>
        cases hend : paramEntry ssa current with
        | some entry =>
          rw [hend, Option.getD_some] at hat
          exact absurd hat (not_pointsAt_param hend)
        | none =>
          rw [hend, Option.getD_none] at hat
          exact absurd hat not_pointsAt_unknown

/-- A global that is recorded for an operation is its target, unless its pointer is in memory
or the instruction refers to the global with another operand. -/
theorem target_of_entryOf {op : SsaOp} {ptr : Varnode} (hptr : pointer op = some ptr)
    (hrip : (ctx.insnGlobal op.va).isSome → rip op = true) (hram : ctx.insnGlobal op.va = none → ptr.space ≠ .ram)
    (hat : (entryOf ssa ctx op ptr).PointsAt g) : Target ssa ctx rip op g := by
  unfold entryOf at hat
  split at hat
  · exact absurd hat not_pointsAt_stack
  · split at hat
    · next gva hglobal =>
      obtain rfl := pointsAt_globalEntry hat
      exact .operand hglobal (hrip (by rw [hglobal]; rfl))
    · next hglobal =>
      by_cases hspace : ptr.space = .const ∨ ptr.space = .ram
      · have hconst := hspace.resolve_right (hram hglobal)
        unfold resolvePointer at hat
        rw [if_pos hspace] at hat
        split at hat
        · exact .constant hglobal hptr hconst (pointsAt_globalEntry hat)
        · exact absurd hat not_pointsAt_unknown
      · obtain ⟨sv, huse, hfrom⟩ := startsFrom_of_resolved hspace hat
        exact .traced hglobal hptr huse hfrom

/-- Every entry is that of a load or store of its instruction. -/
theorem entry_of_lookup {va : Nat} (h : (computePointsTo ssa ctx).lookup (va, 0) = some entry) :
    ∃ op ∈ flatOps ssa, op.va = va ∧ ∃ ptr, pointer op = some ptr ∧ entry = entryOf ssa ctx op ptr := by
  have hrecord : ∀ (map : PointsToMap) (op : SsaOp), (record ssa ctx map op).lookup (va, 0) = some entry →
      (op.va = va ∧ ∃ ptr, pointer op = some ptr ∧ entry = entryOf ssa ctx op ptr) ∨ map.lookup (va, 0) = some entry := by
    intro map op h
    unfold record at h
    split at h
    · next ptr hptr =>
      by_cases hva : op.va = va
      · rw [hva, Finmap.lookup_insert, Option.some.injEq] at h
        exact .inl ⟨hva, ptr, hptr, h.symm⟩
      · rw [Finmap.lookup_insert_of_ne _ (fun heq => hva (Prod.mk.inj heq).1.symm)] at h
        exact .inr h
    · exact .inr h
  have hall : ∀ ops : List SsaOp, (ops.foldl (record ssa ctx) ∅).lookup (va, 0) = some entry →
      ∃ op ∈ ops, op.va = va ∧ ∃ ptr, pointer op = some ptr ∧ entry = entryOf ssa ctx op ptr := by
    intro ops
    induction ops using List.reverseRecOn with
    | nil =>
      intro h
      rw [List.foldl_nil, Finmap.lookup_empty] at h
      cases h
    | append_singleton ops op ih =>
      intro h
      rw [List.foldl_append, List.foldl_cons, List.foldl_nil] at h
      rcases hrecord _ op h with hop | hearlier
      · exact ⟨op, by simp, hop⟩
      · obtain ⟨op', hmem, hrest⟩ := ih hearlier
        exact ⟨op', List.mem_append_left _ hmem, hrest⟩
  exact hall _ h

/-- What is recorded is the target of a load or store of the instruction, and so of all. -/
theorem target_of_lookup {va : Nat} (hone : OneTarget ssa ctx rip va)
    (h : (computePointsTo ssa ctx).lookup (va, 0) = some entry) (hat : entry.PointsAt g) {op : SsaOp}
    (hop : op ∈ flatOps ssa) (hva : op.va = va) (hptr : (pointer op).isSome) : Target ssa ctx rip op g := by
  obtain ⟨last, hlast, hlastVa, ptr, hlastPtr, rfl⟩ := entry_of_lookup h
  apply hone.agree last hlast op hop hlastVa hva hptr
  apply target_of_entryOf hlastPtr _ _ hat
  · intro hglobal
    rw [hlastVa] at hglobal
    exact hone.operand hglobal last hlast hlastVa (by rw [hlastPtr]; rfl)
  · intro hglobal
    rw [hlastVa] at hglobal
    exact hone.direct hglobal last hlast hlastVa ptr hlastPtr

end Recorded

/-! ## What is accessed -/

section Accessed
variable {ssa : SsaFunction} {ctx : PointsToCtx} {rip : ThroughRip} {va g : Nat} {values values' : Values} {e : Event}

/-- With single definitions the operation that is found is the one that defines. -/
theorem defOp_eq (hsingle : SingleDefs ssa) {op : SsaOp} {x : SsaVar} (hop : op ∈ flatOps ssa) (hdef : op.def? = some x) :
    defOp ssa x = some op := by
  have hsome : (defOp ssa x).isSome := by
    rw [defOp, List.find?_isSome]
    exact ⟨op, List.mem_reverse.mpr hop, decide_eq_true hdef⟩
  obtain ⟨op', hop'⟩ := Option.isSome_iff_exists.mp hsome
  rw [hop']
  unfold defOp at hop'
  have hfound := List.find?_some hop'
  rw [decide_eq_true_eq] at hfound
  obtain ⟨i, hi⟩ := List.mem_iff_getElem?.mp hop
  obtain ⟨j, hj⟩ := List.mem_iff_getElem?.mp (List.mem_reverse.mp (List.mem_of_find?_eq_some hop'))
  rw [hsingle.index_unique hi hj hdef hfound] at hi
  exact hj.symm.trans hi

theorem step_cases (h : step ssa ctx rip values e = some values') :
    ∃ op, (flatOps ssa)[e.index]? = some op ∧ isReady values op = true ∧ valueFits values op e.value = true ∧
      addressFits ctx rip values op e.address = true ∧ values' = define values op e.value := by
  unfold step at h
  split at h
  · next op hop =>
    split at h
    · next hfits =>
      rw [Bool.and_eq_true, Bool.and_eq_true] at hfits
      exact ⟨op, hop, hfits.1.1, hfits.1.2, hfits.2, (Option.some.inj h).symm⟩
    · cases h
  · cases h

/-- A variable on a trace of the instruction has the constant it starts from for a value. -/
def Carries (ssa : SsaFunction) (ctx : PointsToCtx) (va : Nat) (values : Values) : Prop :=
  ∀ x c n, OnTrace ssa ctx va x → StartsFrom ssa ctx x c → values x = some n → n = c

theorem carries_of_starts (h : Starts ssa values) : Carries ssa ctx va values := by
  intro x c n _ hfrom hn
  have hdef : (defOp ssa x).isSome := by
    cases hfrom with
    | constant hdef _ => rw [hdef]; rfl
    | next hdef _ _ => rw [hdef]; rfl
  rw [h x hdef] at hn
  cases hn

theorem carries_step (hsingle : SingleDefs ssa) (hcarries : Carries ssa ctx va values)
    (hexact : ∀ op, (flatOps ssa)[e.index]? = some op → LosesNothing ssa ctx va values op)
    (hstep : step ssa ctx rip values e = some values') : Carries ssa ctx va values' := by
  obtain ⟨op, hop, -, hvalue, -, rfl⟩ := step_cases hstep
  have hmem := List.mem_of_getElem? hop
  intro x c n htrace hfrom hn
  have hold : values x = some n → n = c := hcarries x c n htrace hfrom
  cases hdef : op.def? with
  | none =>
    rw [define, hdef] at hn
    exact hold hn
  | some y =>
    rw [define, hdef] at hn
    dsimp only at hn
    by_cases hxy : x = y
    · -- the operation defines the variable: it passes the constant on
      subst hxy
      rw [Function.update_self, Option.some.injEq] at hn
      subst hn
      have hcomputed : ∀ m, computed values op = some m → e.value = m := by
        intro m hm
        rw [valueFits, hm] at hvalue
        exact (beq_iff_eq.mp hvalue).symm
      have hdefOp := defOp_eq hsingle hmem hdef
      cases hfrom with
      | constant hdef' hconst =>
        rw [hdefOp, Option.some.injEq] at hdef'
        subst hdef'
        exact hcomputed c ((hexact op hop).constant x c hdef htrace hconst)
      | next hdef' hnext hrest =>
        rw [hdefOp, Option.some.injEq] at hdef'
        subst hdef'
        obtain ⟨m, hm, hcomp⟩ := (hexact op hop).next x _ hdef htrace hnext
        rw [hcomputed m hcomp]
        obtain ⟨start, hstart, hva, ptr, sv, hptr, huse, hreach⟩ := htrace
        exact hcarries _ c m ⟨start, hstart, hva, ptr, sv, hptr, huse, hreach.tail ⟨op, hdefOp, hnext⟩⟩ hrest hm
    · rw [Function.update_of_ne hxy] at hn
      exact hold hn

/-- A load or store of the instruction goes to its target. -/
theorem address_eq (hcarries : Carries ssa ctx va values) {op : SsaOp} (hop : op ∈ flatOps ssa) (hva : op.va = va)
    (hexact : LosesNothing ssa ctx va values op) (htarget : Target ssa ctx rip op g) (hready : isReady values op = true)
    {address : Nat} (haddress : addressFits ctx rip values op address = true) : address = g := by
  rw [addressFits, Bool.and_eq_true] at haddress
  have hread : ∀ {ptr a}, pointer op = some ptr → readVar values op ptr = some a → address = a := by
    intro ptr a hptr ha
    have h := haddress.1
    rw [hptr, Option.bind_some, ha] at h
    exact (beq_iff_eq.mp h).symm
  cases htarget with
  | operand hglobal hrip =>
    have h := haddress.2
    rw [hrip, hglobal] at h
    exact (beq_iff_eq.mp h).symm
  | constant hglobal hptr hconst hc =>
    rw [hva] at hglobal
    rw [← hc]
    exact hread hptr ((hexact.pointer hva hglobal _ hptr).1 hconst)
  | @traced ptr x hglobal hptr huse hfrom =>
    rw [hva] at hglobal
    have hwhole := (hexact.pointer hva hglobal ptr hptr).2 x huse
    -- what a load or store uses is defined
    have hsome : (values x).isSome := by
      have hx : x ∈ op.uses := by
        unfold pointerUse at huse
        split at huse
        · exact List.mem_of_find?_eq_some huse
        · exact List.mem_of_find?_eq_some huse
        · cases huse
      unfold isReady at hready
      split at hready
      · next hkind => simp [pointer, hkind] at hptr
      · exact List.all_eq_true.mp hready x hx
    obtain ⟨n, hn⟩ := Option.isSome_iff_exists.mp hsome
    rw [hread hptr (hwhole.trans hn)]
    exact hcarries x g n ⟨op, hop, hva, ptr, x, hptr, huse, .refl⟩ hfrom hn

/-- In a run in which nothing is lost on the way to them, the loads and stores of an
instruction go to the global that is recorded for it. -/
theorem global_accessed (hsingle : SingleDefs ssa) {entry : PointsToEntry}
    (hentry : (computePointsTo ssa ctx).lookup (va, 0) = some entry) (hat : entry.PointsAt g)
    (hone : OneTarget ssa ctx rip va) {events : List Event} (hstart : Starts ssa values)
    (hrun : Run.Guarded (step ssa ctx rip)
      (fun values e => ∀ op, (flatOps ssa)[e.index]? = some op → LosesNothing ssa ctx va values op) values events values') :
    ∀ e ∈ events, ∀ op, (flatOps ssa)[e.index]? = some op → op.va = va → (pointer op).isSome → e.address = g := by
  refine hrun.forall_mem (P := Carries ssa ctx va) (Q := fun e => ∀ op, (flatOps ssa)[e.index]? = some op →
    op.va = va → (pointer op).isSome → e.address = g) ?_ (carries_of_starts hstart)
  intro values e values' hcarries hexact hstep
  refine ⟨carries_step hsingle hcarries hexact hstep, ?_⟩
  intro op hop hva hptr
  obtain ⟨op', hop', hready, -, haddress, -⟩ := step_cases hstep
  rw [hop, Option.some.injEq] at hop'
  subst hop'
  have hmem := List.mem_of_getElem? hop
  exact address_eq hcarries hmem hva (hexact op hop) (target_of_lookup hone hentry hat hmem hva hptr) hready haddress

end Accessed

/-! ## A displacement on the way -/

def raxNode : Varnode := ⟨.register, 0, 8⟩

def rcxNode : Varnode := ⟨.register, 8, 8⟩

def rax : SsaVar := ⟨.register 0, 2⟩

def rcx : SsaVar := ⟨.register 8, 2⟩

/-- `mov rax, 0x140001000` -/
def loadTable : SsaOp :=
  ⟨0x1000, .pcode (.copy raxNode ⟨.const, 0x140001000, 8⟩), some rax, [], by decide⟩

/-- `lea rcx, [rax + 0x10]` -/
def pickEntry : SsaOp :=
  ⟨0x1007, .pcode (.intAdd rcxNode raxNode ⟨.const, 0x10, 8⟩), some rcx, [rax], by decide⟩

/-- `mov rdx, [..]` -/
def readAt (ptr : Varnode) (x : SsaVar) : SsaOp :=
  ⟨0x100b, .pcode (.load ⟨.register, 0x10, 8⟩ ptr), some ⟨.register 0x10, 2⟩, [x], by simp [SsaOpKind.isCall]⟩

def straight (ops : List SsaOp) : SsaFunction where
  entryVa := 0x1000
  bitness := 64
  blocks := [⟨0, 0x1000, ops, [], []⟩]
  imageBase := 0x140000000
  id_eq := by
    intro i b h
    match i, h with
    | 0, h => cases h; rfl
    | _ + 1, h => cases h

/-- The table at 0x140001000 is data. -/
def tables : PointsToCtx where
  isDataVa va := 0x140001000 ≤ va && va < 0x140002000
  symbolName _ := none
  insnGlobal _ := none
  isIat _ := false

def noRip : ThroughRip := fun _ => false

/-- Reading the table itself. -/
def readTable : SsaFunction := straight [loadTable, readAt raxNode rax]

theorem readTable_oneTarget : OneTarget readTable tables noRip 0x100b := by
  have hall : ∀ op ∈ flatOps readTable, op.va = 0x100b → op = readAt raxNode rax := by
    intro op hop hva
    rcases List.mem_cons.mp hop with rfl | hop
    · exact absurd hva (by decide)
    · exact List.mem_singleton.mp hop
  constructor
  · intro h
    cases h
  · intro op hop op' hop' hva hva' _ c htarget
    rw [hall op' hop' hva', ← hall op hop hva]
    exact htarget
  · intro _ op hop hva ptr hptr
    rw [hall op hop hva] at hptr
    rw [← Option.some.inj hptr]
    decide

/-- The two steps of a run that reads the table. -/
theorem readTable_run : ∃ values', Run.Guarded (step readTable tables noRip)
    (fun values e => ∀ op, (flatOps readTable)[e.index]? = some op → LosesNothing readTable tables 0x100b values op)
    (fun _ => none) [⟨0, 0x140001000, 0⟩, ⟨1, 7, 0x140001000⟩] values' := by
  refine ⟨_, .cons ?_ rfl (.cons ?_ rfl (.nil _))⟩
  · intro op hop
    obtain rfl := Option.some.inj hop
    constructor
    · intro x c _ _ hc
      cases hc
      rfl
    · intro x u _ _ hu
      cases hu
    · intro hva
      exact absurd hva (by decide)
  · intro op hop
    obtain rfl := Option.some.inj hop
    constructor
    · intro x c _ _ hc
      cases hc
    · intro x u _ _ hu
      cases hu
    · intro _ _ ptr hptr
      obtain rfl := Option.some.inj hptr
      refine ⟨fun h => absurd h (by decide), ?_⟩
      intro sv hsv
      obtain rfl := Option.some.inj hsv
      rfl

/-- The table itself is read: what is recorded is accessed. -/
theorem table_accessed :
    (computePointsTo readTable tables).lookup (0x100b, 0) = some ⟨.global, some 0x140001000, none, none⟩ ∧
      ∀ e ∈ [(⟨0, 0x140001000, 0⟩ : Event), ⟨1, 7, 0x140001000⟩], ∀ op, (flatOps readTable)[e.index]? = some op →
        op.va = 0x100b → (pointer op).isSome → e.address = 0x140001000 := by
  obtain ⟨values', hrun⟩ := readTable_run
  have hentry : (computePointsTo readTable tables).lookup (0x100b, 0) = some ⟨.global, some 0x140001000, none, none⟩ := by
    decide
  refine ⟨hentry, global_accessed (by decide) hentry ⟨.inl rfl, rfl⟩ readTable_oneTarget ?_ hrun⟩
  intro x _
  rfl

/-- Reading the entry at 0x10 of the table. -/
def readEntry : SsaFunction := straight [loadTable, pickEntry, readAt rcxNode rcx]

/-- The table is recorded for the access to its entry. -/
theorem entry_misses :
    SingleDefs readEntry ∧
      (computePointsTo readEntry tables).lookup (0x100b, 0) = some ⟨.global, some 0x140001000, none, none⟩ ∧
      ¬ AlwaysAccesses readEntry tables noRip 0x100b 0x140001000 := by
  refine ⟨by decide, by decide, ?_⟩
  intro h
  have hentry := h (fun _ => none) (fun _ _ => rfl) [⟨0, 0x140001000, 0⟩, ⟨1, 0x140001010, 0⟩, ⟨2, 7, 0x140001010⟩] _ rfl
    ⟨2, 7, 0x140001010⟩ (by simp) _ rfl rfl rfl
  exact absurd hentry (by decide)

end Windy.Decompiler.PointsTo
