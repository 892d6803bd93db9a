import Mathlib.Data.Finset.Sort
import Windy.Lib.Numbering
import Windy.Decompiler.V2.RegionAst

/- The high-level IR and its validator (`decompiler/hir.rs`).

   A function is a set of arenas: values, operations, memory objects and call sites, each referred
   to by its position. An identity is a number here, since nothing comes near 2^32 of them. The
   validator goes over the arenas one after the other and stops at the first thing that is wrong.

   What is proved (`validate_eq_ok_iff`): it accepts exactly the functions in which every identity
   is the position, every reference has a target, and every width, alignment and stack slot is one.

   Correspondence:
     `HirFunction` and what it holds ↔ the same
     `validate`, `require_value`, `require_memory_object` ↔ the same
   A register slice is a register with an offset and a width. The counters of memory versions are
   left out: no function of the bridge reads them. -/
namespace Windy.Decompiler.Hir

/-! ## The arenas -/

structure PcodeOrigin where
  instructionVa : Nat
  loweredOperationOrdinal : Nat
  deriving DecidableEq, Repr

structure OriginSpan where
  first : PcodeOrigin
  last : PcodeOrigin
  deriving DecidableEq, Repr

/-- `OriginSpan::single`. -/
def OriginSpan.single (instructionVa ordinal : Nat) : OriginSpan := ⟨⟨instructionVa, ordinal⟩, ⟨instructionVa, ordinal⟩⟩

inductive ProvenanceKind where
  | lifted
  | abi
  | phi
  | entry
  | simplified
  | recovered
  | synthetic
  deriving DecidableEq, Repr

structure Provenance where
  primary : Option OriginSpan
  contributors : List OriginSpan
  kind : ProvenanceKind
  deriving DecidableEq, Repr

def Provenance.lifted (span : OriginSpan) : Provenance := ⟨some span, [], .lifted⟩

def Provenance.derived (kind : ProvenanceKind) (primary : Option OriginSpan) (contributors : List OriginSpan) : Provenance :=
  ⟨primary, contributors, kind⟩

def Provenance.synthetic (kind : ProvenanceKind) : Provenance := Provenance.derived kind none []

structure Value where
  id : Nat
  bitWidth : Option Nat
  provenance : Provenance
  deriving DecidableEq, Repr

inductive Gpr where
  | rax | rcx | rdx | rbx | rsp | rbp | rsi | rdi | r8 | r9 | r10 | r11 | r12 | r13 | r14 | r15
  deriving DecidableEq, Repr

inductive Register where
  | gpr (register : Gpr)
  | rip
  | vector (index : Nat)
  | rflags
  deriving DecidableEq, Repr

structure RegisterSlice where
  register : Register
  bitOffset : Nat
  bitWidth : Nat
  deriving DecidableEq, Repr

def RegisterSlice.gpr (register : Gpr) : RegisterSlice := ⟨.gpr register, 0, 64⟩

def RegisterSlice.xmm (index : Nat) : RegisterSlice := ⟨.vector index, 0, 128⟩

def RegisterSlice.zmm (index : Nat) : RegisterSlice := ⟨.vector index, 0, 512⟩

inductive MemoryObjectKind where
  | stackSlot (frameOffset : Int)
  | global (va : Nat)
  | readOnlyData (va : Nat)
  | importSlot (iatVa : Nat)
  | tls (offset : Int)
  | heap (allocation : Option Nat)
  | unknown
  deriving DecidableEq, Repr

structure MemoryObject where
  id : Nat
  kind : MemoryObjectKind
  sizeBytes : Option Nat
  alignment : Option Nat
  provenance : Provenance
  deriving DecidableEq, Repr

inductive CallTarget where
  | direct (va : Nat)
  | imported (iatVa : Nat) (symbol : Option String)
  | indirect (target : Nat) (candidates : List Nat)
  | unknown
  deriving DecidableEq, Repr

inductive Win64ArgumentClass where
  | integer
  | floatingPoint
  | aggregateByReference
  | unknown
  deriving DecidableEq, Repr

inductive Win64ArgumentLocation where
  | register (slice : RegisterSlice)
  | stack (offsetFromPreCallRsp : Nat)
  deriving DecidableEq, Repr

/-- `WIN64_SHADOW_SPACE_BYTES`, `WIN64_STACK_ARGUMENT_SLOT_BYTES`. -/
def win64ShadowSpaceBytes : Nat := 32

def win64StackArgumentSlotBytes : Nat := 8

/-- `Win64ArgumentLocation::standard`. -/
def Win64ArgumentLocation.standard (position : Nat) (cls : Win64ArgumentClass) : Option Win64ArgumentLocation :=
  if 4 ≤ position then some (.stack (win64ShadowSpaceBytes + win64StackArgumentSlotBytes * (position - 4)))
  else
    match cls with
    | .integer | .aggregateByReference => ([Gpr.rcx, .rdx, .r8, .r9][position]?).map fun gpr => .register (.gpr gpr)
    | .floatingPoint => some (.register (.xmm position))
    | .unknown => none

structure Win64Argument where
  position : Nat
  value : Nat
  cls : Win64ArgumentClass
  locations : List Win64ArgumentLocation
  deriving DecidableEq, Repr

/-- `Win64Argument::standard`. -/
def Win64Argument.standard (position value : Nat) (cls : Win64ArgumentClass) : Option Win64Argument :=
  (Win64ArgumentLocation.standard position cls).map fun location => ⟨position, value, cls, [location]⟩

inductive Win64ResultClass where
  | integer
  | floatingPoint
  | aggregateIndirect
  | unknown
  deriving DecidableEq, Repr

inductive Win64ResultLocation where
  | register (slice : RegisterSlice)
  | indirect (storagePointer : Nat) (returnedPointer : Option RegisterSlice)
  deriving DecidableEq, Repr

structure Win64Result where
  value : Nat
  cls : Win64ResultClass
  location : Win64ResultLocation
  deriving DecidableEq, Repr

inductive MemoryClobber where
  | none
  | objects (ids : List Nat)
  | unknown
  deriving DecidableEq, Repr

structure CallClobbers where
  registers : List RegisterSlice
  memory : MemoryClobber
  deriving DecidableEq, Repr

/-- `CallClobbers::windows_x64_default`. -/
def CallClobbers.windowsX64Default : CallClobbers where
  registers := ([Gpr.rax, .rcx, .rdx, .r8, .r9, .r10, .r11].map RegisterSlice.gpr) ++ ⟨.rflags, 0, 64⟩ ::
    (List.range 6).map RegisterSlice.zmm
  memory := .unknown

structure Win64CallSite where
  provenance : Provenance
  target : CallTarget
  arguments : List Win64Argument
  result : Option Win64Result
  clobbers : CallClobbers
  deriving DecidableEq, Repr

/-- `Win64CallSite::new`. -/
def Win64CallSite.new (provenance : Provenance) (target : CallTarget) (arguments : List Win64Argument) : Win64CallSite :=
  ⟨provenance, target, arguments, Option.none, CallClobbers.windowsX64Default⟩

inductive HirOperationKind where
  | pcode
  | phi
  | select
  | load
  | store
  | call
  | cast
  | compare
  deriving DecidableEq, Repr

structure HirOperation where
  id : Nat
  kind : HirOperationKind
  inputs : List Nat
  output : Option Nat
  provenance : Provenance
  deriving DecidableEq, Repr

structure HirFunction where
  values : List Value
  operations : List HirOperation
  memoryObjects : List MemoryObject
  callSites : List Win64CallSite
  /-- the value each exit block returns -/
  exitValues : Numbering.Table Nat

/-! ## The validator -/

inductive HirValidationError where
  | valueIdMismatch (expected actual : Nat)
  | operationIdMismatch (expected actual : Nat)
  | memoryObjectIdMismatch (expected actual : Nat)
  | invalidValueWidth (value : Nat)
  | invalidMemoryObjectSize (object : Nat)
  | invalidMemoryAlignment (object alignment : Nat)
  | unknownValue (value : Nat)
  | unknownMemoryObject (object : Nat)
  | emptyArgumentLocations (call position : Nat)
  | duplicateArgumentPosition (call position : Nat)
  | invalidStackArgumentLocation (call position offsetFromPreCallRsp : Nat)
  deriving DecidableEq, Repr

abbrev Check := Except HirValidationError Unit

def ensure (condition : Bool) (error : HirValidationError) : Check := if condition then .ok () else .error error

/-- The elements one after the other, up to the first that is refused. -/
def checkAll {α : Type} (check : α → Check) : List α → Check
  | [] => .ok ()
  | x :: xs => do
    check x
    checkAll check xs

/-- A check of what is there. -/
def checkSome {α : Type} (check : α → Check) : Option α → Check
  | some x => check x
  | none => .ok ()

/-- `u32::is_power_of_two`. -/
def isPowerOfTwo (n : Nat) : Bool := n ≠ 0 && 2 ^ n.log2 = n

namespace HirFunction

variable (hir : HirFunction)

def requireValue (value : Nat) : Check := ensure (hir.values[value]?).isSome (.unknownValue value)

def requireMemoryObject (object : Nat) : Check := ensure (hir.memoryObjects[object]?).isSome (.unknownMemoryObject object)

def checkValue (entry : Value × Nat) : Check := do
  ensure (entry.1.id = entry.2) (.valueIdMismatch entry.2 entry.1.id)
  ensure (entry.1.bitWidth ≠ some 0) (.invalidValueWidth entry.1.id)

def checkMemoryObject (entry : MemoryObject × Nat) : Check := do
  ensure (entry.1.id = entry.2) (.memoryObjectIdMismatch entry.2 entry.1.id)
  ensure (entry.1.sizeBytes ≠ some 0) (.invalidMemoryObjectSize entry.1.id)
  checkSome (fun alignment => ensure (isPowerOfTwo alignment) (.invalidMemoryAlignment entry.1.id alignment)) entry.1.alignment
  match entry.1.kind with
  | .heap allocation => checkSome hir.requireValue allocation
  | _ => .ok ()

def checkOperation (entry : HirOperation × Nat) : Check := do
  ensure (entry.1.id = entry.2) (.operationIdMismatch entry.2 entry.1.id)
  checkAll hir.requireValue entry.1.inputs
  checkSome hir.requireValue entry.1.output

def checkLocation (call position : Nat) : Win64ArgumentLocation → Check
  | .stack offset => ensure (win64ShadowSpaceBytes ≤ offset && offset % win64StackArgumentSlotBytes = 0)
      (.invalidStackArgumentLocation call position offset)
  | .register _ => .ok ()

/-- The arguments of a call behind those with the positions seen. -/
def checkArguments (call : Nat) : List Nat → List Win64Argument → Check
  | _, [] => .ok ()
  | seen, argument :: rest => do
    hir.requireValue argument.value
    ensure (argument.position ∉ seen) (.duplicateArgumentPosition call argument.position)
    ensure (!argument.locations.isEmpty) (.emptyArgumentLocations call argument.position)
    checkAll (checkLocation call argument.position) argument.locations
    checkArguments call (argument.position :: seen) rest

def checkTarget : CallTarget → Check
  | .indirect target _ => hir.requireValue target
  | _ => .ok ()

def checkResult (result : Win64Result) : Check := do
  hir.requireValue result.value
  match result.location with
  | .indirect storagePointer _ => hir.requireValue storagePointer
  | .register _ => .ok ()

def checkClobber : MemoryClobber → Check
  | .objects ids => checkAll hir.requireMemoryObject ids
  | _ => .ok ()

def checkCallSite (entry : Win64CallSite × Nat) : Check := do
  hir.checkTarget entry.1.target
  hir.checkArguments entry.2 [] entry.1.arguments
  checkSome hir.checkResult entry.1.result
  hir.checkClobber entry.1.clobbers.memory

/-- The exit values by block. -/
def exits : List Nat := (hir.exitValues.keys.sort (· ≤ ·)).filterMap hir.exitValues.lookup

def validate : Check := do
  checkAll checkValue hir.values.zipIdx
  checkAll hir.checkMemoryObject hir.memoryObjects.zipIdx
  checkAll hir.checkOperation hir.operations.zipIdx
  checkAll hir.requireValue hir.exits
  checkAll hir.checkCallSite hir.callSites.zipIdx

end HirFunction

/-! ## What is accepted -/

section Checks
variable {α : Type}

@[simp] theorem ensure_eq_ok_iff {condition : Bool} {error : HirValidationError} : ensure condition error = .ok () ↔ condition := by
  unfold ensure
  split <;> simp_all

@[simp] theorem seq_eq_ok_iff {first second : Check} : (first >>= fun _ => second) = .ok () ↔ first = .ok () ∧ second = .ok () := by
  cases first with
  | ok u => simp [bind, Except.bind]
  | error e => simp [bind, Except.bind]

@[simp] theorem checkAll_eq_ok_iff {check : α → Check} {xs : List α} : checkAll check xs = .ok () ↔ ∀ x ∈ xs, check x = .ok () := by
  induction xs with
  | nil => simp [checkAll]
  | cons x xs ih => rw [checkAll, seq_eq_ok_iff, ih, List.forall_mem_cons]

@[simp] theorem checkSome_eq_ok_iff {check : α → Check} {x : Option α} : checkSome check x = .ok () ↔ ∀ y, x = some y → check y = .ok () := by
  cases x <;> simp [checkSome]

end Checks

structure ValidArgument (values : Nat) (argument : Win64Argument) : Prop where
  value : argument.value < values
  located : argument.locations ≠ []
  stack : ∀ offset, .stack offset ∈ argument.locations →
    win64ShadowSpaceBytes ≤ offset ∧ offset % win64StackArgumentSlotBytes = 0

/-- A call site in a function with so many values and memory objects. -/
structure ValidCallSite (values objects : Nat) (site : Win64CallSite) : Prop where
  target : ∀ target candidates, site.target = .indirect target candidates → target < values
  arguments : ∀ argument ∈ site.arguments, ValidArgument values argument
  positions : (site.arguments.map Win64Argument.position).Nodup
  result : ∀ result, site.result = some result → result.value < values ∧
    ∀ pointer returned, result.location = .indirect pointer returned → pointer < values
  clobbers : ∀ ids, site.clobbers.memory = .objects ids → ∀ id ∈ ids, id < objects

structure ValidObject (values i : Nat) (object : MemoryObject) : Prop where
  id : object.id = i
  size : object.sizeBytes ≠ some 0
  alignment : ∀ alignment, object.alignment = some alignment → isPowerOfTwo alignment
  allocation : ∀ value, object.kind = .heap (some value) → value < values

structure ValidOperation (values i : Nat) (operation : HirOperation) : Prop where
  id : operation.id = i
  inputs : ∀ value ∈ operation.inputs, value < values
  output : ∀ value, operation.output = some value → value < values

/-- Every identity is a position and every reference has a target. -/
structure Valid (hir : HirFunction) : Prop where
  values : ∀ (i : Nat) (value : Value), hir.values[i]? = some value → value.id = i ∧ value.bitWidth ≠ some 0
  memoryObjects : ∀ (i : Nat) (object : MemoryObject), hir.memoryObjects[i]? = some object → ValidObject hir.values.length i object
  operations : ∀ (i : Nat) (operation : HirOperation), hir.operations[i]? = some operation → ValidOperation hir.values.length i operation
  exitValues : ∀ block value, hir.exitValues.lookup block = some value → value < hir.values.length
  callSites : ∀ site ∈ hir.callSites, ValidCallSite hir.values.length hir.memoryObjects.length site

section Accepted
variable {hir : HirFunction}

@[simp] theorem requireValue_eq_ok_iff {value : Nat} : hir.requireValue value = .ok () ↔ value < hir.values.length := by
  simp [HirFunction.requireValue]

@[simp] theorem requireMemoryObject_eq_ok_iff {object : Nat} :
    hir.requireMemoryObject object = .ok () ↔ object < hir.memoryObjects.length := by
  simp [HirFunction.requireMemoryObject]

theorem checkValue_eq_ok_iff {value : Value} {i : Nat} :
    HirFunction.checkValue (value, i) = .ok () ↔ value.id = i ∧ value.bitWidth ≠ some 0 := by
  simp [HirFunction.checkValue]

theorem checkMemoryObject_eq_ok_iff {object : MemoryObject} {i : Nat} :
    hir.checkMemoryObject (object, i) = .ok () ↔ ValidObject hir.values.length i object := by
  have hkind : (match object.kind with
      | .heap allocation => checkSome hir.requireValue allocation
      | _ => Except.ok ()) = .ok () ↔ ∀ value, object.kind = .heap (some value) → value < hir.values.length := by
    cases object.kind <;> simp
  simp only [HirFunction.checkMemoryObject, seq_eq_ok_iff, ensure_eq_ok_iff, checkSome_eq_ok_iff, hkind, decide_eq_true_eq]
  exact ⟨fun ⟨hid, hsize, halign, halloc⟩ => ⟨hid, hsize, halign, halloc⟩, fun h => ⟨h.id, h.size, h.alignment, h.allocation⟩⟩

theorem checkOperation_eq_ok_iff {operation : HirOperation} {i : Nat} :
    hir.checkOperation (operation, i) = .ok () ↔ ValidOperation hir.values.length i operation := by
  simp only [HirFunction.checkOperation, seq_eq_ok_iff, ensure_eq_ok_iff, checkAll_eq_ok_iff, checkSome_eq_ok_iff,
    requireValue_eq_ok_iff, decide_eq_true_eq]
  exact ⟨fun ⟨hid, hin, hout⟩ => ⟨hid, hin, hout⟩, fun h => ⟨h.id, h.inputs, h.output⟩⟩

theorem checkLocation_eq_ok_iff {call position : Nat} {location : Win64ArgumentLocation} :
    HirFunction.checkLocation call position location = .ok () ↔
      ∀ offset, location = .stack offset → win64ShadowSpaceBytes ≤ offset ∧ offset % win64StackArgumentSlotBytes = 0 := by
  cases location <;> simp [HirFunction.checkLocation]

theorem checkArguments_eq_ok_iff {call : Nat} {seen : List Nat} {arguments : List Win64Argument} :
    hir.checkArguments call seen arguments = .ok () ↔
      (∀ argument ∈ arguments, ValidArgument hir.values.length argument ∧ argument.position ∉ seen) ∧
        (arguments.map Win64Argument.position).Nodup := by
  induction arguments generalizing seen with
  | nil => simp [HirFunction.checkArguments]
  | cons argument rest ih =>
    have hhead : ValidArgument hir.values.length argument ↔ argument.value < hir.values.length ∧ argument.locations ≠ [] ∧
        ∀ location ∈ argument.locations, ∀ offset, location = .stack offset →
          win64ShadowSpaceBytes ≤ offset ∧ offset % win64StackArgumentSlotBytes = 0 :=
      ⟨fun h => ⟨h.value, h.located, fun location hl offset ho => h.stack offset (ho ▸ hl)⟩,
        fun ⟨hvalue, hlocated, hstack⟩ => ⟨hvalue, hlocated, fun offset ho => hstack _ ho offset rfl⟩⟩
    rw [List.forall_mem_cons, hhead, List.map_cons, List.nodup_cons]
    simp only [HirFunction.checkArguments, seq_eq_ok_iff, ensure_eq_ok_iff, requireValue_eq_ok_iff, checkAll_eq_ok_iff,
      checkLocation_eq_ok_iff, ih, List.mem_cons, not_or, List.mem_map, decide_eq_true_eq, Bool.not_eq_true',
      List.isEmpty_eq_false_iff]
    constructor
    · rintro ⟨hvalue, hnew, hlocated, hstack, hrest, hnodup⟩
      refine ⟨⟨⟨⟨hvalue, hlocated, hstack⟩, hnew⟩, fun a ha => ⟨(hrest a ha).1, (hrest a ha).2.2⟩⟩, ?_, hnodup⟩
      rintro ⟨a, ha, heq⟩
      exact (hrest a ha).2.1 heq
    · rintro ⟨⟨⟨⟨hvalue, hlocated, hstack⟩, hnew⟩, hrest⟩, hfresh, hnodup⟩
      refine ⟨hvalue, hnew, hlocated, hstack, fun a ha => ⟨(hrest a ha).1, fun heq => hfresh ⟨a, ha, heq⟩, (hrest a ha).2⟩, hnodup⟩

theorem checkCallSite_eq_ok_iff {site : Win64CallSite} {i : Nat} :
    hir.checkCallSite (site, i) = .ok () ↔ ValidCallSite hir.values.length hir.memoryObjects.length site := by
  have htarget : hir.checkTarget site.target = .ok () ↔
      ∀ target candidates, site.target = .indirect target candidates → target < hir.values.length := by
    cases site.target <;> simp [HirFunction.checkTarget]
  have hresult : ∀ result : Win64Result, hir.checkResult result = .ok () ↔ result.value < hir.values.length ∧
      ∀ pointer returned, result.location = .indirect pointer returned → pointer < hir.values.length := by
    intro result
    cases hlocation : result.location <;> simp [HirFunction.checkResult, hlocation]
  have hclobber : hir.checkClobber site.clobbers.memory = .ok () ↔
      ∀ ids, site.clobbers.memory = .objects ids → ∀ id ∈ ids, id < hir.memoryObjects.length := by
    cases site.clobbers.memory <;> simp [HirFunction.checkClobber]
  simp only [HirFunction.checkCallSite, seq_eq_ok_iff, htarget, checkArguments_eq_ok_iff, checkSome_eq_ok_iff, hresult, hclobber,
    List.not_mem_nil, not_false_eq_true, and_true]
  exact ⟨fun ⟨h1, ⟨h2, h3⟩, h4, h5⟩ => ⟨h1, h2, h3, h4, h5⟩, fun h => ⟨h.target, ⟨h.arguments, h.positions⟩, h.result, h.clobbers⟩⟩

theorem mem_exits {value : Nat} : value ∈ hir.exits ↔ ∃ block, hir.exitValues.lookup block = some value := by
  simp only [HirFunction.exits, List.mem_filterMap, Finset.mem_sort, Finmap.mem_keys]
  refine exists_congr fun block => and_iff_right_of_imp fun h => ?_
  exact Finmap.lookup_isSome.mp (by rw [h]; rfl)

theorem forall_zipIdx {α : Type} {xs : List α} {P : α × Nat → Prop} :
    (∀ entry ∈ xs.zipIdx, P entry) ↔ ∀ (i : Nat) (x : α), xs[i]? = some x → P (x, i) :=
  ⟨fun h i x hx => h (x, i) (List.mem_zipIdx_iff_getElem?.mpr hx), fun h entry hentry =>
    h entry.2 entry.1 (List.mem_zipIdx_iff_getElem?.mp hentry)⟩

theorem validate_eq_ok_iff : hir.validate = .ok () ↔ Valid hir := by
  simp only [HirFunction.validate, seq_eq_ok_iff, checkAll_eq_ok_iff, forall_zipIdx, checkValue_eq_ok_iff,
    checkMemoryObject_eq_ok_iff, checkOperation_eq_ok_iff, checkCallSite_eq_ok_iff, requireValue_eq_ok_iff, mem_exits]
  constructor
  · rintro ⟨hvalues, hobjects, hoperations, hexits, hsites⟩
    refine ⟨hvalues, hobjects, hoperations, fun block value h => hexits value ⟨block, h⟩, fun site hsite => ?_⟩
    obtain ⟨i, hi⟩ := List.mem_iff_getElem?.mp hsite
    exact hsites i site hi
  · intro h
    exact ⟨h.values, h.memoryObjects, h.operations, fun value ⟨block, hblock⟩ => h.exitValues block value hblock,
      fun i site hi => h.callSites site (List.mem_of_getElem? hi)⟩

end Accepted

end Windy.Decompiler.Hir
