import Mathlib.Data.Finmap
import Windy.Decompiler.Types.Aggregate

/- Types recovered from a function in SSA form (`decompiler/types/recover.rs`).

   A guess is kept for each variable. A round goes over the calls with known callees, then over
   all operations for what they say of their results, then over all operations for what they
   say of their operands; evidence is met into the guess that is there. Rounds go on until one
   changes nothing, or there have been five more of them than blocks. The report projects the
   guesses onto stack locals, parameters, the return type and candidates for typed globals.

   What is proved of the candidates (`globals_iff`): every instruction with an operation that
   carries a typed value to or from a global is reported just if the first operation with its
   address carries one. An address is looked at once, and what is reported is never more than
   one candidate for it, with the type of one of its operations (`globals_sound`).

   Correspondence:
     `meet`, `infer_def_type`, `operand_constraints` ↔ the same
     `use_for_varnode`, `varnode_type`, `pcode_out_size` ↔ the same
     `seed_call_constraints`, and the two loops of a round ↔ `seedPass`, `forwardPass`, `backwardPass`
     `recover_types` ↔ `defTypes` (the rounds) and `recoverTypes`
     `collect_live_ins`, `global_value_type` ↔ the same
   Operations with the same operands share a constructor. The aggregates of the report are
   found afterwards, from the locals (`inferAggregates`), and are left out. -/
namespace Windy.Decompiler.Recover

open Types (TyGuess)
open V2 (registerContainerBase)
open SsaOp (gprParamRank isFrameRegister)

/-! ## Functions -/

inductive BinaryOp where
  | intAdd | intSub | intMult | intDiv | intSDiv | intRem | intSRem
  | intAnd | intOr | intXor | intLsl | intLsr | intAsr
  | intEq | intNotEq | intLess | intLessEq | intSLess | intSLessEq
  | intCarry | intSCarry | intSBorrow
  | boolAnd | boolOr | boolXor
  | floatAdd | floatSub | floatMult | floatDiv
  | floatEq | floatNotEq | floatLess | floatLessEq
  deriving DecidableEq, Repr

inductive UnaryOp where
  | copy | intSext | intZext | subpiece | intNeg | intNot | boolNot | popcount | lzcount
  | floatNeg | floatAbs | floatSqrt | floatCeil | floatFloor | floatRound | floatNan
  | int2Float | float2Float | trunc
  deriving DecidableEq, Repr

inductive PcodeOp where
  | unary (code : UnaryOp) (out input : Varnode)
  | binary (code : BinaryOp) (out left right : Varnode)
  | load (out ptr : Varnode)
  | store (ptr val : Varnode)
  | branch (dest : Varnode)
  | cbranch (dest cond : Varnode)
  | branchInd (dest : Varnode)
  | call (dest : Varnode)
  | callInd (dest : Varnode)
  | ret (dest : Varnode)
  | other (out : Option Varnode)
  deriving DecidableEq, Repr

/-- `pcode_ir::get_output`. -/
def PcodeOp.output : PcodeOp → Option Varnode
  | .unary _ out _ | .binary _ out _ _ | .load out _ => some out
  | .other out => out
  | _ => none

inductive SsaOpKind where
  | phi (out : SsaVar) (args : List (Option SsaVar))
  | pcode (op : PcodeOp)
  deriving DecidableEq, Repr

structure SsaOp where
  va : Nat
  kind : SsaOpKind
  def? : Option SsaVar
  uses : List SsaVar
  deriving DecidableEq, Repr

structure SsaBlock where
  id : Nat
  entryVa : Nat
  ops : List SsaOp
  predecessorIds : List Nat
  successorIds : List Nat
  deriving DecidableEq, Repr

structure SsaFunction where
  entryVa : Nat
  bitness : Nat
  blocks : List SsaBlock
  imageBase : Nat

def SsaFunction.ops (ssa : SsaFunction) : List SsaOp := ssa.blocks.flatMap SsaBlock.ops

structure CallConstraint where
  callVa : Nat
  argTypes : List TyGuess

/-! ## Guesses -/

/-- `as u8` of the number of bits. -/
def fromSizeSigned (size : Nat) : TyGuess := .int (UInt8.ofNat (size * 8))

def fromSizeUnsigned (size : Nat) : TyGuess := .uint (UInt8.ofNat (size * 8))

def isFloat : TyGuess → Bool
  | .float | .double => true
  | _ => false

/-- What is not known gives way, and what is known in two ways is not known. -/
def meet : TyGuess → TyGuess → TyGuess
  | .unknown, other | other, .unknown => other
  | .int b1, .uint b2 | .uint b1, .int b2 => if b1 = b2 then .uint b1 else .unknown
  | x, y => if x = y then x else .unknown

/-- The guesses so far. -/
abbrev Guesses := Finmap (fun _ : SsaVar => TyGuess)

/-- What is known of a variable. -/
def guess (types : Guesses) (v : SsaVar) : TyGuess := (types.lookup v).getD .unknown

/-! ## Evidence -/

def registerUse (uses : List SsaVar) (offset : Nat) : Option SsaVar :=
  uses.find? fun u => u.location = .register (registerContainerBase offset)

def useForVarnode (op : SsaOp) (vn : Varnode) : Option SsaVar :=
  match vn.space with
  | .register => registerUse op.uses vn.offset
  | .unique => op.uses.find? fun u => u.location = .unique op.va vn.offset vn.size
  | _ => none

/-- A temporary of any instruction, with the offset and the size of the varnode. -/
def uniqueUse (uses : List SsaVar) (vn : Varnode) : Option SsaVar :=
  uses.find? fun u => match u.location with
    | .unique _ offset size => offset = vn.offset && size = vn.size
    | _ => false

def varnodeType (vn : Varnode) (uses : List SsaVar) (types : Guesses) : TyGuess :=
  match vn.space with
  | .const => fromSizeUnsigned vn.size
  | .register => ((registerUse uses vn.offset).bind types.lookup).getD .unknown
  | .unique => ((uniqueUse uses vn).bind types.lookup).getD (fromSizeUnsigned vn.size)
  | .ram => .ptr .unknown

def pcodeOutSize : SsaOpKind → Nat
  | .phi _ _ => 0
  | .pcode op => (op.output.map Varnode.size).getD 0

/-- What an operation with two operands says of a result of some bytes. -/
def binaryType (code : BinaryOp) (outSize : Nat) : Option TyGuess :=
  match code with
  | .intEq | .intNotEq | .intLess | .intLessEq | .intSLess | .intSLessEq | .intCarry | .intSCarry | .intSBorrow
  | .boolAnd | .boolOr | .boolXor | .floatEq | .floatNotEq | .floatLess | .floatLessEq => some .bool
  | .intSDiv | .intSRem | .intAsr | .intAdd | .intSub | .intMult | .intAnd | .intOr | .intXor | .intLsl =>
    if 0 < outSize then some (fromSizeSigned outSize) else none
  | .intDiv | .intRem | .intLsr => if 0 < outSize then some (fromSizeUnsigned outSize) else none
  | .floatAdd | .floatSub | .floatMult | .floatDiv =>
    if 0 < outSize then some (if 8 ≤ outSize then .double else .float) else none

def inferDefType (op : SsaOp) (types : Guesses) : Option TyGuess :=
  let outSize := pcodeOutSize op.kind
  match op.kind with
  | .phi _ args =>
    (args.filterMap id).foldl (fun acc v =>
      match acc with
      | some a => some (meet a (guess types v))
      | none => some (guess types v)) none
  | .pcode (.binary code _ _ _) => binaryType code outSize
  | .pcode (.unary code _ input) =>
    match code with
    | .copy | .intSext | .intZext | .subpiece => some (varnodeType input op.uses types)
    | .boolNot | .floatNan => some .bool
    | .intNeg | .intNot => if 0 < outSize then some (fromSizeSigned outSize) else none
    | .floatNeg | .floatAbs | .floatSqrt | .int2Float | .float2Float | .trunc | .floatCeil | .floatFloor | .floatRound =>
      if 0 < outSize then some (if 8 ≤ outSize then .double else .float) else none
    | .popcount | .lzcount => if 0 < outSize then some (fromSizeUnsigned outSize) else none
  | .pcode _ => if 0 < outSize then some (fromSizeUnsigned outSize) else none

/-- Whether the operands of an operation are signed, if it says anything of them. -/
def operandSign : BinaryOp → Option Bool
  | .intSDiv | .intSRem | .intSCarry | .intSBorrow | .intSLess | .intSLessEq | .intAsr => some true
  | .intDiv | .intRem | .intCarry | .intLsr => some false
  | _ => none

def fromSize (signed : Bool) (size : Nat) : TyGuess := if signed then fromSizeSigned size else fromSizeUnsigned size

def operandConstraints (op : SsaOp) (types : Guesses) : List (SsaVar × TyGuess) :=
  let defTy := op.def?.bind types.lookup
  match op.kind with
  | .phi _ args =>
    match defTy with
    | some dt => (args.filterMap id).map fun v => (v, dt)
    | none => []
  | .pcode (.unary code _ input) =>
    match code with
    | .copy =>
      match useForVarnode op input, defTy with
      | some u, some dt => [(u, dt)]
      | _, _ => []
    | .boolNot | .int2Float | .popcount | .lzcount =>
      (useForVarnode op input).toList.map fun u => (u, fromSizeSigned input.size)
    | _ => []
  | .pcode (.binary code _ left right) =>
    match operandSign code with
    | some signed => [left, right].filterMap fun vn => (useForVarnode op vn).map fun u => (u, fromSize signed vn.size)
    | none => []
  | .pcode (.store ptr val) =>
    let valTy := (useForVarnode op val).bind types.lookup
    match useForVarnode op ptr, valTy, op.def? with
    | some u, _, _ => [(u, .ptr (valTy.getD .unknown))]
    | none, some vt, some d => if d.location.isSlot then [(d, vt)] else []
    | _, _, _ => []
  | .pcode (.load _ _) =>
    match op.uses.head? with
    | none => []
    | some u =>
      let value := defTy.getD .unknown
      match u.location with
      | .stackSlot _ _ | .rawRam => [(u, value)]
      | .register _ | .unique _ _ _ => [(u, .ptr value)]
  | .pcode _ => []

/-! ## Rounds -/

/-- The guesses in a round, and whether it has changed any. -/
structure Round where
  types : Guesses
  changed : Bool

/-- A constraint on a variable. -/
def Round.constrain (r : Round) (v : SsaVar) (ty : TyGuess) : Round :=
  let prev := guess r.types v
  let merged := meet prev ty
  if merged ≠ prev then ⟨r.types.insert v merged, true⟩ else r

/-- What the operation that defines a variable says of it. -/
def Round.define (r : Round) (v : SsaVar) (ty : TyGuess) : Round :=
  let merged := match r.types.lookup v with
    | some p => meet p ty
    | none => ty
  if r.types.lookup v ≠ some merged then ⟨r.types.insert v merged, true⟩ else r

def paramRegBase (rank : Nat) : Option Nat := [0x08, 0x10, 0x80, 0x88][rank]?

/-- The constraint of an address, the last one if there are more. -/
def constraintAt (constraints : List CallConstraint) (va : Nat) : Option CallConstraint :=
  constraints.reverse.find? fun c => c.callVa = va

def isCall (op : SsaOp) : Bool :=
  match op.kind with
  | .pcode (.call _) | .pcode (.callInd _) => true
  | _ => false

/-- The versions of the registers behind an operation: a use tells of a version that was not known. -/
def versionsAfter (current : Nat → Option Nat) (op : SsaOp) : Nat → Option Nat :=
  let used := op.uses.foldl (fun current u =>
    match u.location with
    | .register base => if (current base).isNone then Function.update current base (some u.version) else current
    | _ => current) current
  match op.def? with
  | some ⟨.register base, version⟩ => Function.update used base (some version)
  | _ => used

/-- The types of the arguments of a call. -/
def constrainArgs (current : Nat → Option Nat) (r : Round) (argTypes : List TyGuess) : Round :=
  argTypes.zipIdx.foldl (fun r entry =>
    match entry.1, paramRegBase entry.2 with
    | .unknown, _ => r
    | ty, some base => r.constrain ⟨.register base, (current base).getD 1⟩ ty
    | _, none => r) r

def seedOp (constraints : List CallConstraint) (s : (Nat → Option Nat) × Round) (op : SsaOp) : (Nat → Option Nat) × Round :=
  let current := versionsAfter s.1 op
  match if isCall op then constraintAt constraints op.va else none with
  | some c => (current, constrainArgs current s.2 c.argTypes)
  | none => (current, s.2)

def seedPass (ssa : SsaFunction) (constraints : List CallConstraint) (r : Round) : Round :=
  ssa.blocks.foldl (fun r block => (block.ops.foldl (seedOp constraints) (fun _ => none, r)).2) r

def forwardPass (ssa : SsaFunction) (r : Round) : Round :=
  ssa.ops.foldl (fun r op =>
    match op.def?, inferDefType op r.types with
    | some d, some ty => r.define d ty
    | _, _ => r) r

def backwardPass (ssa : SsaFunction) (r : Round) : Round :=
  ssa.ops.foldl (fun r op => (operandConstraints op r.types).foldl (fun r c => r.constrain c.1 c.2) r) r

def round (ssa : SsaFunction) (constraints : List CallConstraint) (types : Guesses) : Round :=
  backwardPass ssa (forwardPass ssa (seedPass ssa constraints ⟨types, false⟩))

def rounds (ssa : SsaFunction) (constraints : List CallConstraint) : Nat → Guesses → Guesses
  | 0, types => types
  | more + 1, types =>
    let r := round ssa constraints types
    if r.changed then rounds ssa constraints more r.types else r.types

/-- The guesses after the last round. -/
def defTypes (ssa : SsaFunction) (constraints : List CallConstraint) : Guesses :=
  rounds ssa constraints (ssa.blocks.length + 5) ∅

/-! ## The report -/

structure StackLocalType where
  offset : Int
  ty : TyGuess
  oldTy : TyGuess
  deriving DecidableEq

structure ParamType where
  rank : Nat
  ty : TyGuess
  oldTy : TyGuess
  deriving DecidableEq

structure ReturnGuess where
  ty : TyGuess
  oldTy : TyGuess
  deriving DecidableEq

structure GlobalCandidate where
  instructionVa : Nat
  ty : TyGuess
  deriving DecidableEq

structure TypeRecoveryReport where
  functionVa : Nat
  locals : List StackLocalType
  params : List ParamType
  returnType : Option ReturnGuess
  globals : List GlobalCandidate
  typedDefCount : Nat
  localsRetyped : Nat
  defTypes : Guesses

/-- The first definition of each stack slot. -/
def recoverLocals (ssa : SsaFunction) (types : Guesses) : List StackLocalType :=
  (ssa.ops.foldl (fun (out : List StackLocalType) op =>
    match op.def? with
    | some d =>
      match d.location with
      | .stackSlot _ disp => if out.any (·.offset = disp) then out else out ++ [⟨disp, guess types d, .unknown⟩]
      | _ => out
    | none => out) [])

/-- What is used and not defined, apart from version 0, in the order of the first use. -/
def collectLiveIns (ssa : SsaFunction) : List SsaVar :=
  let defs := ssa.ops.filterMap SsaOp.def?
  let used := ssa.ops.flatMap fun op => op.uses ++ match op.kind with
    | .phi _ args => args.filterMap id
    | .pcode _ => []
  used.foldl (fun out u => if u.version ≠ 0 ∧ u ∉ defs ∧ u ∉ out then out ++ [u] else out) []

def paramRank (v : SsaVar) (ty : TyGuess) : Option Nat :=
  match v.location with
  | .register base =>
    match gprParamRank base with
    | some r => some r
    | none => if isFloat ty && !isFrameRegister base then some (0x100 + base) else none
  | .stackSlot _ disp => if 0 < disp then some disp.toNat else none
  | _ => none

def recoverParams (ssa : SsaFunction) (types : Guesses) : List ParamType :=
  let found := (collectLiveIns ssa).filterMap fun v =>
    (paramRank v (guess types v)).map fun rank => (⟨rank, guess types v, .unknown⟩ : ParamType)
  (found.mergeSort fun p q => p.rank ≤ q.rank).destutter fun p q => p.rank ≠ q.rank

def isRegister (v : SsaVar) : Bool :=
  match v.location with
  | .register _ => true
  | _ => false

/-- The registers that the returns use. -/
def returnedVars (ssa : SsaFunction) : List SsaVar :=
  ssa.ops.flatMap fun op => match op.kind with
    | .pcode (.ret _) => op.uses.filter isRegister
    | _ => []

def recoverReturn (ssa : SsaFunction) (types : Guesses) : Option ReturnGuess :=
  let met := (returnedVars ssa).foldl (fun acc v =>
    match acc with
    | some r => some (meet r (guess types v))
    | none => some (guess types v)) none
  (met.filter (· ≠ .unknown)).map fun ty => ⟨ty, .unknown⟩

/-- A definition that is not in memory at large is not that of a global. -/
def definesOther (op : SsaOp) : Bool := op.def?.any fun d => d.location ≠ .rawRam

def globalValueType (op : SsaOp) (types : Guesses) : Option TyGuess :=
  match op.kind with
  | .pcode (.store _ val) => if definesOther op then none else (useForVarnode op val).bind types.lookup
  | .pcode (.load _ _) => if definesOther op then none else op.def?.bind types.lookup
  | _ => none

/-- The loop over the operations, with the addresses that were seen. -/
def globalLoop (types : Guesses) : List SsaOp → List Nat → List GlobalCandidate
  | [], _ => []
  | op :: ops, seen =>
    if op.va ∈ seen then globalLoop types ops seen
    else
      match globalValueType op types with
      | none | some .unknown => globalLoop types ops (op.va :: seen)
      | some ty => ⟨op.va, ty⟩ :: globalLoop types ops (op.va :: seen)

def recoverGlobals (ssa : SsaFunction) (types : Guesses) : List GlobalCandidate := globalLoop types ssa.ops []

def recoverTypes (ssa : SsaFunction) (functionVa : Nat) (constraints : List CallConstraint) : TypeRecoveryReport :=
  let types := defTypes ssa constraints
  { functionVa := functionVa
    locals := recoverLocals ssa types
    params := recoverParams ssa types
    returnType := recoverReturn ssa types
    globals := recoverGlobals ssa types
    typedDefCount := (types.entries.filter fun entry => entry.2 ≠ .unknown).card
    localsRetyped := 0
    defTypes := types }

/-! ## Candidates for globals -/

/-- The operation carries a value of a known type to or from a global. -/
def Carries (types : Guesses) (op : SsaOp) (ty : TyGuess) : Prop := globalValueType op types = some ty ∧ ty ≠ .unknown

section Globals
variable {types : Guesses} {ops : List SsaOp} {seen : List Nat} {g : GlobalCandidate}

theorem globalLoop_cons (op : SsaOp) : globalLoop types (op :: ops) seen =
    if op.va ∈ seen then globalLoop types ops seen
    else (globalValueType op types).toList.filterMap (fun ty => if ty = .unknown then none else some ⟨op.va, ty⟩) ++
      globalLoop types ops (op.va :: seen) := by
  rw [globalLoop]
  split
  · rfl
  · cases globalValueType op types with
    | none => rfl
    | some ty => cases ty <;> rfl

/-- A candidate is what the first operation with its address carries. -/
theorem mem_globalLoop : g ∈ globalLoop types ops seen ↔ g.instructionVa ∉ seen ∧
    ∃ before op after, ops = before ++ op :: after ∧ (∀ o ∈ before, o.va ≠ op.va) ∧ op.va = g.instructionVa ∧
      Carries types op g.ty := by
  induction ops generalizing seen with
  | nil => simp [globalLoop]
  | cons o ops ih =>
    rw [globalLoop_cons]
    by_cases hseen : o.va ∈ seen
    · rw [if_pos hseen, ih]
      refine and_congr_right fun hg => ⟨?_, ?_⟩
      · rintro ⟨before, op, after, rfl, hbefore, hva, hcarries⟩
        refine ⟨o :: before, op, after, rfl, ?_, hva, hcarries⟩
        intro o' ho'
        rcases List.mem_cons.mp ho' with rfl | ho'
        · exact fun h => hg (hva ▸ h ▸ hseen)
        · exact hbefore o' ho'
      · rintro ⟨before, op, after, heq, hbefore, hva, hcarries⟩
        cases before with
        | nil =>
          obtain ⟨rfl, -⟩ := List.cons.inj heq
          exact absurd (hva ▸ hseen) hg
        | cons b before =>
          obtain ⟨rfl, rfl⟩ := List.cons.inj heq
          exact ⟨before, op, after, rfl, fun o' ho' => hbefore o' (List.mem_cons_of_mem _ ho'), hva, hcarries⟩
    · rw [if_neg hseen, List.mem_append, ih]
      constructor
      · rintro (hhead | ⟨hg, before, op, after, rfl, hbefore, hva, hcarries⟩)
        · obtain ⟨ty, hty, hfound⟩ := List.mem_filterMap.mp hhead
          split at hfound
          · cases hfound
          · rename_i hknown
            obtain rfl := Option.some.inj hfound
            exact ⟨hseen, [], o, ops, rfl, by simp, rfl, Option.mem_toList.mp hty, hknown⟩
        · obtain ⟨hne, hg⟩ := List.ne_and_not_mem_of_not_mem_cons hg
          refine ⟨hg, o :: before, op, after, rfl, ?_, hva, hcarries⟩
          intro o' ho'
          rcases List.mem_cons.mp ho' with rfl | ho'
          · exact fun h => hne (hva ▸ h.symm)
          · exact hbefore o' ho'
      · rintro ⟨hg, before, op, after, heq, hbefore, hva, hcarries⟩
        cases before with
        | nil =>
          obtain ⟨rfl, -⟩ := List.cons.inj heq
          refine .inl (List.mem_filterMap.mpr ⟨g.ty, Option.mem_toList.mpr hcarries.1, ?_⟩)
          rw [if_neg hcarries.2, hva]
        | cons b before =>
          obtain ⟨rfl, rfl⟩ := List.cons.inj heq
          have hne : g.instructionVa ≠ o.va := fun h => hbefore o List.mem_cons_self (h.symm.trans hva.symm)
          exact .inr ⟨List.not_mem_cons_of_ne_of_not_mem hne hg, before, op, after, rfl,
            fun o' ho' => hbefore o' (List.mem_cons_of_mem _ ho'), hva, hcarries⟩

theorem nodup_globalLoop (types : Guesses) (ops : List SsaOp) (seen : List Nat) :
    ((globalLoop types ops seen).map GlobalCandidate.instructionVa).Nodup := by
  induction ops generalizing seen with
  | nil => exact List.nodup_nil
  | cons op ops ih =>
    rw [globalLoop]
    split
    · exact ih seen
    · split
      · exact ih _
      · exact ih _
      · refine List.nodup_cons.mpr ⟨fun hmem => ?_, ih _⟩
        obtain ⟨g, hg, hva⟩ := List.mem_map.mp hmem
        exact (mem_globalLoop.mp hg).1 (hva ▸ List.mem_cons_self)

end Globals

/-- Every operation that carries a typed value to or from a global is reported with the address of its
instruction, each address once, with the type of one of its operations. -/
structure GlobalsComplete (ssa : SsaFunction) (types : Guesses) (globals : List GlobalCandidate) : Prop where
  reported : ∀ op ∈ ssa.ops, ∀ ty, Carries types op ty → ∃ g ∈ globals, g.instructionVa = op.va
  once : (globals.map GlobalCandidate.instructionVa).Nodup
  typed : ∀ g ∈ globals, ∃ op ∈ ssa.ops, op.va = g.instructionVa ∧ Carries types op g.ty

/-- The first operation of an instruction carries a typed value if any operation of it does. -/
def FirstCarries (ssa : SsaFunction) (types : Guesses) : Prop :=
  ∀ before first rest, ssa.ops = before ++ first :: rest → (∀ o ∈ before, o.va ≠ first.va) →
    ∀ op ∈ rest, op.va = first.va → ∀ ty, Carries types op ty → ∃ ty', Carries types first ty'

theorem globals_sound (ssa : SsaFunction) (types : Guesses) :
    ((recoverGlobals ssa types).map GlobalCandidate.instructionVa).Nodup ∧
      ∀ g ∈ recoverGlobals ssa types, ∃ op ∈ ssa.ops, op.va = g.instructionVa ∧ Carries types op g.ty := by
  refine ⟨nodup_globalLoop types ssa.ops [], fun g hg => ?_⟩
  obtain ⟨-, before, op, after, heq, -, hva, hcarries⟩ := mem_globalLoop.mp hg
  exact ⟨op, by rw [heq]; simp, hva, hcarries⟩

/-- An operation is the first with its address, or behind the first one. -/
theorem exists_first {ops : List SsaOp} {op : SsaOp} (h : op ∈ ops) :
    ∃ before first rest, ops = before ++ first :: rest ∧ (∀ o ∈ before, o.va ≠ first.va) ∧ first.va = op.va ∧
      (op = first ∨ op ∈ rest) := by
  induction ops with
  | nil => cases h
  | cons o ops ih =>
    by_cases hva : o.va = op.va
    · refine ⟨[], o, ops, rfl, by simp, hva, ?_⟩
      exact (List.mem_cons.mp h).imp id id
    · have hmem : op ∈ ops := (List.mem_cons.mp h).resolve_left fun heq => hva (heq ▸ rfl)
      obtain ⟨before, first, rest, rfl, hbefore, hfirst, hop⟩ := ih hmem
      refine ⟨o :: before, first, rest, rfl, ?_, hfirst, hop⟩
      intro o' ho'
      rcases List.mem_cons.mp ho' with rfl | ho'
      · exact fun heq => hva (heq.trans hfirst)
      · exact hbefore o' ho'

theorem recoverGlobals_iff (ssa : SsaFunction) (types : Guesses) :
    GlobalsComplete ssa types (recoverGlobals ssa types) ↔ FirstCarries ssa types := by
  constructor
  · intro h before first rest heq hbefore op hop hva ty hcarries
    obtain ⟨g, hg, hgva⟩ := h.reported op (by rw [heq]; simp [hop]) ty hcarries
    obtain ⟨-, before', first', rest', heq', hbefore', hva', hcarries'⟩ := mem_globalLoop.mp hg
    -- both are the first operation with this address
    have hsame : first' = first := by
      have hfind : ssa.ops.find? (fun o => o.va = op.va) = some first := by
        rw [List.find?_eq_some_iff_append]
        exact ⟨by simpa using hva.symm, before, rest, heq, fun o ho => by simpa [hva] using hbefore o ho⟩
      have hfind' : ssa.ops.find? (fun o => o.va = op.va) = some first' := by
        rw [List.find?_eq_some_iff_append]
        refine ⟨by simpa using hva'.trans hgva, before', rest', heq', fun o ho => ?_⟩
        simpa [hva', hgva] using hbefore' o ho
      exact Option.some.inj (hfind'.symm.trans hfind)
    exact ⟨g.ty, hsame ▸ hcarries'⟩
  · intro h
    obtain ⟨honce, htyped⟩ := globals_sound ssa types
    refine ⟨fun op hop ty hcarries => ?_, honce, htyped⟩
    obtain ⟨before, first, rest, heq, hbefore, hva, hwhere⟩ := exists_first hop
    obtain ⟨ty', hfirst⟩ : ∃ ty', Carries types first ty' := by
      rcases hwhere with rfl | hrest
      · exact ⟨ty, hcarries⟩
      · exact h before first rest heq hbefore op hrest hva.symm ty hcarries
    exact ⟨⟨op.va, ty'⟩, mem_globalLoop.mpr ⟨by simp, before, first, rest, heq, hbefore, hva, hfirst⟩, rfl⟩

theorem globals_iff (ssa : SsaFunction) (functionVa : Nat) (constraints : List CallConstraint) :
    GlobalsComplete ssa (recoverTypes ssa functionVa constraints).defTypes (recoverTypes ssa functionVa constraints).globals ↔
      FirstCarries ssa (recoverTypes ssa functionVa constraints).defTypes :=
  recoverGlobals_iff ssa (defTypes ssa constraints)

/-! ## An instruction that counts a global up -/

def straight (ops : List SsaOp) : SsaFunction := ⟨0x1000, 64, [⟨0, 0x1000, ops, [], []⟩], 0x140000000⟩

def sum : Varnode := ⟨.unique, 0x100, 4⟩

def slot : Varnode := ⟨.unique, 0x80, 8⟩

/-- `add [global], eax`: the sum is made and then stored. -/
def addGlobal : SsaFunction :=
  straight
    [⟨0x1000, .pcode (.binary .intAdd sum ⟨.register, 0, 4⟩ ⟨.register, 0, 4⟩), some ⟨.unique 0x1000 0x100 4, 1⟩, [⟨.register 0, 1⟩]⟩,
     ⟨0x1000, .pcode (.store slot sum), some ⟨.rawRam, 1⟩, [⟨.unique 0x1000 0x100 4, 1⟩]⟩]

/-- The store is behind the addition, so it is not looked at. -/
theorem addGlobal_not_complete :
    ¬ GlobalsComplete addGlobal (recoverTypes addGlobal 0x1000 []).defTypes (recoverTypes addGlobal 0x1000 []).globals := by
  intro h
  obtain ⟨g, hg, -⟩ := h.reported ⟨0x1000, .pcode (.store slot sum), some ⟨.rawRam, 1⟩, [⟨.unique 0x1000 0x100 4, 1⟩]⟩
    (by decide) (.int 32) ⟨by decide, by decide⟩
  have hnone : (recoverTypes addGlobal 0x1000 []).globals = [] := by decide
  rw [hnone] at hg
  cases hg

end Windy.Decompiler.Recover
