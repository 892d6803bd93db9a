import Windy.Analysis.CodeIndex
import Windy.Project.State

/- Stack frames from prologues (`analysis/stack_frame.rs`).

   At most 12 instructions are scanned from the entry on, until one ends a prologue. An allocation
   is a `sub` from the stack pointer, or a `lea` of the stack pointer with a displacement. The size
   of the frame is that of the last allocation, and the displacement of a `lea` is read as it is
   encoded in 32-bit code.

   What is proved: the size is the sum by which the scanned instructions lower the stack pointer
   exactly when the last allocation `Accounts` for all of them (`frameExact_iff`), and the locals
   are slots of the frame, one below the other, whatever its size (`slots_locals`).

   Correspondence:
     `analyze_prologue` ↔ `analyzePrologue` (its loop is `scan`)
     `is_immediate_op` ↔ `immediateOp`
     `lea_stack_adjustment`, `is_prologue_terminator` ↔ the same
   What the disassembler says of the operands of an instruction is a parameter, `view`. -/
namespace Windy.Prologue

/-! ## The scan -/

inductive Mnemonic where
  | push
  | mov
  | sub
  | lea
  | nop
  | other
  deriving DecidableEq

inductive Gpr where
  | none
  | rsp
  | esp
  | rbp
  | ebp
  | rip
  | other
  deriving DecidableEq

/-- The operands of an instruction. Nothing is subtracted from RIP. -/
structure Operands where
  mnemonic : Mnemonic
  op0Register : Gpr
  op1Register : Gpr
  op0IsRegister : Bool
  memoryBase : Gpr
  memoryIndex : Gpr
  memoryDisplacement64 : Nat
  not_sub_rip : mnemonic = .sub → op0Register ≠ .rip

def maxPrologueInstructions : Nat := 12

def maxLocalSlots : Nat := 64

def isStackPointer (r : Gpr) : Bool := r = .rsp || r = .esp

def isFramePointer (r : Gpr) : Bool := r = .rbp || r = .ebp

/-- The immediate of an operand, if it is one. -/
def immediateOp (d : DecodedInstr) (index : Nat) : Option Nat :=
  match d.operands[index]? with
  | some (.other, _) => none
  | some (_, n) => some n
  | none => none

/-- An amount that is plausible for a frame. -/
def inRange (n : Nat) : Bool := 0 < n && n ≤ 0x1000000

/-- The displacement of an address, as an `i32`. -/
def signed32 (n : Nat) : Int := if n % 2 ^ 32 < 2 ^ 31 then n % 2 ^ 32 else n % 2 ^ 32 - 2 ^ 32

section Scan
variable (view : DecodedInstr → Operands) (bitness : Nat)

def leaStackAdjustment (d : DecodedInstr) : Option Nat :=
  if !(view d).op0IsRegister then none
  else if !isStackPointer (view d).memoryBase then none
  else if (view d).memoryIndex ≠ .none then none
  else
    let disp := (view d).memoryDisplacement64
    if bitness = 64 then if signed32 disp < 0 then some (-signed32 disp).toNat else none
    else some disp

def isPrologueTerminator (d : DecodedInstr) : Bool :=
  (match d.flowControl with
    | .ret | .unconditionalBranch | .conditionalBranch | .call | .indirectBranch | .indirectCall => true
    | _ => false) || (view d).mnemonic = .nop

/-- `push rbp` or `mov rbp, rsp`. -/
def setsFramePointer (d : DecodedInstr) : Bool :=
  ((view d).mnemonic = .push && isFramePointer (view d).op0Register) ||
    ((view d).mnemonic = .mov && isFramePointer (view d).op0Register && isStackPointer (view d).op1Register)

/-- `sub rsp, N` -/
def isSubImmediate (d : DecodedInstr) : Bool :=
  (view d).mnemonic = .sub && (isStackPointer (view d).op0Register || (view d).op0Register = .rip) && (immediateOp d 1).isSome

/-- `lea rsp, …` by an amount in range. -/
def leaAmount (d : DecodedInstr) : Option Nat :=
  if (view d).mnemonic = .lea && isStackPointer (view d).op0Register then (leaStackAdjustment view bitness d).filter inRange
  else none

/-- Whether the frame pointer is used and the size so far, after so many more steps. -/
def scan (code : CodeIndex) : Nat → Nat → Bool × Nat → Bool × Nat
  | 0, _, found => found
  | steps + 1, va, found =>
    match code.atVa va with
    | none => found
    | some d =>
      if setsFramePointer view d then scan code steps d.nextIp (true, found.2)
      else if isSubImmediate view d then
        scan code steps d.nextIp (found.1, ((immediateOp d 1).filter inRange).getD found.2)
      else
        match leaAmount view bitness d with
        | some n => scan code steps d.nextIp (found.1, n)
        | none => if isPrologueTerminator view d then found else scan code steps d.nextIp found

/-- `format!("var_{:x}", offset)` -/
def slotName (offset : Nat) : String := "var_" ++ String.ofList (Nat.toDigits 16 offset)

/-- So many slots at most, from an offset on. -/
def localsFrom (ptrSize localSize : Nat) : Nat → Nat → List StackVariable
  | 0, _ => []
  | slots + 1, offset =>
    if offset ≤ localSize then
      ⟨some (slotName offset), .unknown (ptrSize * 8), -offset, ptrSize⟩ :: localsFrom ptrSize localSize slots (offset + ptrSize)
    else []

def analyzePrologue (code : CodeIndex) (entry ptrSize : Nat) : Option StackFrame :=
  let found := scan view bitness code maxPrologueInstructions entry (false, 0)
  if found.2 = 0 ∧ found.1 = false then none
  else some
    { localSize := found.2
      argSize := 0
      returnAddrOffset := ptrSize
      locals := localsFrom ptrSize found.2 maxLocalSlots ptrSize
      args := [] }

end Scan

/-! ## What a frame should be -/

section Spec
variable (view : DecodedInstr → Operands) (bitness : Nat)

/-- How much an instruction lowers the stack pointer, if it does so by a constant in range. -/
def lowered (d : DecodedInstr) : Nat :=
  if (view d).mnemonic = .sub && isStackPointer (view d).op0Register then ((immediateOp d 1).filter inRange).getD 0
  else if (view d).mnemonic = .lea && isStackPointer (view d).op0Register && (view d).op0IsRegister &&
      isStackPointer (view d).memoryBase && (view d).memoryIndex = .none then
    if inRange (-signed32 (view d).memoryDisplacement64).toNat then (-signed32 (view d).memoryDisplacement64).toNat else 0
  else 0

/-- The size that the scan takes an instruction for. -/
def taken (d : DecodedInstr) : Option Nat :=
  if setsFramePointer view d then none
  else if isSubImmediate view d then (immediateOp d 1).filter inRange
  else leaAmount view bitness d

/-- The scan ends before the instruction. -/
def endsScan (d : DecodedInstr) : Bool :=
  !setsFramePointer view d && !isSubImmediate view d && (leaAmount view bitness d).isNone && isPrologueTerminator view d

def scanned (code : CodeIndex) (entry : Nat) : List DecodedInstr :=
  (code.sweep entry maxPrologueInstructions).takeWhile fun d => !endsScan view bitness d

/-- Slots of the size of a pointer, one below the other, within the frame. -/
structure Slots (ptrSize : Nat) (frame : StackFrame) : Prop where
  within : ∀ v ∈ frame.locals, v.size = ptrSize ∧ -(frame.localSize : Int) ≤ v.offset ∧ v.offset + (v.size : Int) ≤ 0
  below : frame.locals.Pairwise fun v v' => v'.offset + (v'.size : Int) ≤ v.offset

/-- The frame that is found, if any, is what the scanned instructions allocate. -/
def FrameExact (code : CodeIndex) (entry : Nat) : Prop :=
  ∀ frame, analyzePrologue view bitness code entry (bitness / 8) = some frame →
    frame.localSize = ((scanned view bitness code entry).map (lowered view)).sum ∧ Slots (bitness / 8) frame

/-- The last allocation accounts for the instructions: there is none and nothing lowers the
stack pointer, or it is the only one that does, or it raises the stack pointer by as much as
the others lower it. -/
def Accounts (ds : List DecodedInstr) : Prop :=
  (∀ d ∈ ds, taken view bitness d = none ∧ lowered view d = 0) ∨
  ∃ before d after n, ds = before ++ d :: after ∧ taken view bitness d = some n ∧ (∀ d' ∈ after, taken view bitness d' = none) ∧
    (lowered view d = n ∧ (∀ d' ∈ before ++ after, lowered view d' = 0) ∨
      lowered view d = 0 ∧ ((before ++ after).map (lowered view)).sum = n)

end Spec

/-! ## The scanned instructions -/

section Scanned
variable {view : DecodedInstr → Operands} {bitness : Nat} {code : CodeIndex} {d : DecodedInstr}

/-- What one instruction does to what is found. -/
def effect (view : DecodedInstr → Operands) (bitness : Nat) (found : Bool × Nat) (d : DecodedInstr) : Bool × Nat :=
  (found.1 || setsFramePointer view d, (taken view bitness d).getD found.2)

theorem scan_succ {va : Nat} (hd : code.atVa va = some d) (steps : Nat) (found : Bool × Nat) :
    scan view bitness code (steps + 1) va found =
      if endsScan view bitness d then found else scan view bitness code steps d.nextIp (effect view bitness found d) := by
  rw [scan, hd]
  rcases Bool.eq_false_or_eq_true (setsFramePointer view d) with hframe | hframe
  · simp [endsScan, effect, taken, hframe]
  · rcases Bool.eq_false_or_eq_true (isSubImmediate view d) with hsub | hsub
    · simp [endsScan, effect, taken, hframe, hsub]
    · cases hlea : leaAmount view bitness d with
      | some n => simp [endsScan, effect, taken, hframe, hsub, hlea]
      | none => simp [endsScan, effect, taken, hframe, hsub, hlea]

theorem scan_eq (steps va : Nat) (found : Bool × Nat) : scan view bitness code steps va found =
    ((code.sweep va steps).takeWhile fun d => !endsScan view bitness d).foldl (effect view bitness) found := by
  induction steps generalizing va found with
  | zero => rfl
  | succ steps ih =>
    cases hd : code.atVa va with
    | none => rw [scan, CodeIndex.sweep, hd]; rfl
    | some d =>
      rw [scan_succ hd, CodeIndex.sweep_succ hd]
      cases hends : endsScan view bitness d with
      | true => rw [List.takeWhile_cons_of_neg (by simp [hends])]; rfl
      | false => rw [List.takeWhile_cons_of_pos (by simp [hends]), List.foldl_cons, ← ih]; rfl

/-- The size is the last one taken. -/
theorem foldl_effect (ds : List DecodedInstr) (found : Bool × Nat) : ds.foldl (effect view bitness) found =
    (found.1 || ds.any (setsFramePointer view), ((ds.filterMap (taken view bitness)).getLast?).getD found.2) := by
  induction ds generalizing found with
  | nil => simp
  | cons d ds ih =>
    rw [List.foldl_cons, ih, effect, List.any_cons, Bool.or_assoc]
    cases htaken : taken view bitness d with
    | none => rw [List.filterMap_cons_none htaken]; rfl
    | some n => rw [List.filterMap_cons_some htaken, List.getLast?_cons, Option.getD_some]; rfl

theorem scan_entry (entry : Nat) : scan view bitness code maxPrologueInstructions entry (false, 0) =
    ((scanned view bitness code entry).any (setsFramePointer view),
      (((scanned view bitness code entry).filterMap (taken view bitness)).getLast?).getD 0) := by
  rw [scan_eq, foldl_effect, scanned, Bool.false_or]

theorem pos_of_taken {n : Nat} (h : taken view bitness d = some n) : 0 < n := by
  have hpos : ∀ o : Option Nat, o.filter inRange = some n → 0 < n := by
    intro o ho
    have hrange := (Option.filter_eq_some_iff.mp ho).2
    simp only [inRange, Bool.and_eq_true, decide_eq_true_eq] at hrange
    exact hrange.1
  rw [taken] at h
  split at h
  · cases h
  · split at h
    · exact hpos _ h
    · rw [leaAmount] at h
      split at h
      · exact hpos _ h
      · cases h

/-- A small displacement in 32-bit code raises. -/
theorem signed32_of_inRange {n : Nat} (h : inRange n = true) : signed32 n = n := by
  simp only [inRange, Bool.and_eq_true, decide_eq_true_eq] at h
  have hmod : n % 2 ^ 32 = n := Nat.mod_eq_of_lt (by omega)
  have hcast : (n : Int) % 2 ^ 32 = n := by exact_mod_cast hmod
  rw [signed32, hmod, if_pos (by omega), hcast]

theorem leaStackAdjustment_eq_some {n : Nat} (h : leaStackAdjustment view bitness d = some n) :
    n = (-signed32 (view d).memoryDisplacement64).toNat ∨ n = (view d).memoryDisplacement64 := by
  rw [leaStackAdjustment] at h
  split at h
  · cases h
  · split at h
    · cases h
    · split at h
      · cases h
      · dsimp only at h
        split at h
        · split at h
          · exact .inl (Option.some.inj h).symm
          · cases h
        · exact .inr (Option.some.inj h).symm

/-- What is taken for an allocation is one, or raises the stack pointer. -/
theorem lowered_of_taken {n : Nat} (h : taken view bitness d = some n) :
    lowered view d = n ∨ lowered view d = 0 := by
  rw [taken] at h
  split at h
  · cases h
  · split at h
    · next hsub =>
      left
      simp only [isSubImmediate, Bool.and_eq_true, Bool.or_eq_true, decide_eq_true_eq] at hsub
      have hsp : isStackPointer (view d).op0Register = true := hsub.1.2.resolve_right ((view d).not_sub_rip hsub.1.1)
      rw [lowered, if_pos (by simp [hsub.1.1, hsp]), h, Option.getD_some]
    · rw [leaAmount] at h
      split at h
      · next hlea =>
        simp only [Bool.and_eq_true, decide_eq_true_eq] at hlea
        obtain ⟨hadjust, hrange⟩ := Option.filter_eq_some_iff.mp h
        rw [lowered, if_neg (by simp [hlea.1])]
        split
        · rcases leaStackAdjustment_eq_some hadjust with rfl | rfl
          · rw [if_pos hrange]
            exact .inl rfl
          · rw [signed32_of_inRange hrange]
            refine .inr (if_neg ?_)
            simp [inRange]
        · exact .inr rfl
      · cases h

/-- The last allocation and what comes before and behind it. -/
theorem split_last {ds : List DecodedInstr} {n : Nat} (h : (ds.filterMap (taken view bitness)).getLast? = some n) :
    ∃ before d after, ds = before ++ d :: after ∧ taken view bitness d = some n ∧
      ∀ d' ∈ after, taken view bitness d' = none := by
  induction ds with
  | nil => cases h
  | cons d ds ih =>
    by_cases hrest : ds.filterMap (taken view bitness) = []
    · cases htaken : taken view bitness d with
      | none =>
        rw [List.filterMap_cons_none htaken, hrest] at h
        cases h
      | some m =>
        rw [List.filterMap_cons_some htaken, hrest] at h
        obtain rfl : m = n := Option.some.inj h
        exact ⟨[], d, ds, rfl, htaken, List.filterMap_eq_nil_iff.mp hrest⟩
    · have hlast : (ds.filterMap (taken view bitness)).getLast? = some n := by
        cases htaken : taken view bitness d with
        | none => rwa [List.filterMap_cons_none htaken] at h
        | some m =>
          rw [List.filterMap_cons_some htaken, List.getLast?_cons_of_ne_nil hrest] at h
          exact h
      obtain ⟨before, d', after, rfl, htaken, hafter⟩ := ih hlast
      exact ⟨d :: before, d', after, rfl, htaken, hafter⟩

theorem getLast?_of_split {before after : List DecodedInstr} {n : Nat} (hd : taken view bitness d = some n)
    (hafter : ∀ d' ∈ after, taken view bitness d' = none) :
    ((before ++ d :: after).filterMap (taken view bitness)).getLast? = some n := by
  rw [List.filterMap_append, List.filterMap_cons_some hd, List.filterMap_eq_nil_iff.mpr hafter, List.getLast?_concat]

/-- The size is the sum exactly if the last allocation accounts for it. -/
theorem size_eq_sum_iff (ds : List DecodedInstr) :
    ((ds.filterMap (taken view bitness)).getLast?).getD 0 = (ds.map (lowered view)).sum ↔ Accounts view bitness ds := by
  cases hlast : (ds.filterMap (taken view bitness)).getLast? with
  | none =>
    have hnone : ∀ d ∈ ds, taken view bitness d = none := List.filterMap_eq_nil_iff.mp (List.getLast?_eq_none_iff.mp hlast)
    rw [Option.getD_none, eq_comm, List.sum_eq_zero_iff]
    constructor
    · intro h
      exact .inl fun d hd => ⟨hnone d hd, h _ (List.mem_map_of_mem hd)⟩
    · rintro (h | ⟨before, d, after, n, rfl, htaken, -, -⟩)
      · intro x hx
        obtain ⟨d, hd, rfl⟩ := List.mem_map.mp hx
        exact (h d hd).2
      · rw [hnone d List.mem_append_cons_self] at htaken
        cases htaken
  | some n =>
    rw [Option.getD_some]
    have hsum : ∀ (before after : List DecodedInstr) (d : DecodedInstr), ((before ++ d :: after).map (lowered view)).sum =
        lowered view d + ((before ++ after).map (lowered view)).sum := by
      intro before after d
      simp only [List.map_append, List.map_cons, List.sum_append, List.sum_cons]
      omega
    constructor
    · intro h
      obtain ⟨before, d, after, rfl, htaken, hafter⟩ := split_last hlast
      refine .inr ⟨before, d, after, n, rfl, htaken, hafter, ?_⟩
      rw [hsum] at h
      rcases lowered_of_taken htaken with hlow | hlow
      · have hzero : ((before ++ after).map (lowered view)).sum = 0 := by omega
        exact .inl ⟨hlow, fun d' hd' => List.sum_eq_zero_iff.mp hzero _ (List.mem_map_of_mem hd')⟩
      · exact .inr ⟨hlow, by omega⟩
    · rintro (h | ⟨before, d, after, m, rfl, htaken, hafter, hrest⟩)
      · have hnil : ds.filterMap (taken view bitness) = [] := List.filterMap_eq_nil_iff.mpr fun d hd => (h d hd).1
        rw [hnil] at hlast
        cases hlast
      · rw [getLast?_of_split htaken hafter] at hlast
        obtain rfl := Option.some.inj hlast
        rw [hsum]
        rcases hrest with ⟨hlow, hothers⟩ | ⟨hlow, hothers⟩
        · have hzero : ((before ++ after).map (lowered view)).sum = 0 := by
            refine List.sum_eq_zero_iff.mpr fun x hx => ?_
            obtain ⟨d', hd', rfl⟩ := List.mem_map.mp hx
            exact hothers d' hd'
          omega
        · omega

end Scanned

/-! ## The slots -/

section Slots

theorem mem_localsFrom {ptrSize localSize slots offset : Nat} {v : StackVariable}
    (h : v ∈ localsFrom ptrSize localSize slots offset) :
    v.size = ptrSize ∧ -(localSize : Int) ≤ v.offset ∧ v.offset ≤ -(offset : Int) := by
  induction slots generalizing offset with
  | zero => cases h
  | succ slots ih =>
    rw [localsFrom] at h
    split at h
    · rcases List.mem_cons.mp h with rfl | h
      · exact ⟨rfl, by simp only; omega, Int.le_refl _⟩
      · obtain ⟨hsize, hlow, hhigh⟩ := ih h
        exact ⟨hsize, hlow, by omega⟩
    · cases h

theorem localsFrom_below (ptrSize localSize slots offset : Nat) :
    (localsFrom ptrSize localSize slots offset).Pairwise fun v v' => v'.offset + (v'.size : Int) ≤ v.offset := by
  induction slots generalizing offset with
  | zero => exact List.Pairwise.nil
  | succ slots ih =>
    rw [localsFrom]
    split
    · refine List.pairwise_cons.mpr ⟨fun v hv => ?_, ih _⟩
      obtain ⟨hsize, -, hhigh⟩ := mem_localsFrom hv
      rw [hsize]
      simp only
      omega
    · exact List.Pairwise.nil

theorem slots_locals {view : DecodedInstr → Operands} {bitness : Nat} {code : CodeIndex} {entry ptrSize : Nat} {frame : StackFrame}
    (h : analyzePrologue view bitness code entry ptrSize = some frame) : Slots ptrSize frame := by
  simp only [analyzePrologue] at h
  split at h
  · cases h
  · obtain rfl := Option.some.inj h
    refine ⟨fun v hv => ?_, localsFrom_below _ _ _ _⟩
    obtain ⟨hsize, hlow, hhigh⟩ := mem_localsFrom hv
    exact ⟨hsize, hlow, by rw [hsize]; omega⟩

end Slots

/-- No frame is found, or the last allocation accounts for the scanned instructions. -/
theorem frameExact_iff (view : DecodedInstr → Operands) (bitness : Nat) (code : CodeIndex) (entry : Nat) :
    FrameExact view bitness code entry ↔
      (∀ d ∈ scanned view bitness code entry, setsFramePointer view d = false ∧ taken view bitness d = none) ∨
        Accounts view bitness (scanned view bitness code entry) := by
  have hsize := @size_eq_sum_iff view bitness (scanned view bitness code entry)
  have hnone : ((scanned view bitness code entry).filterMap (taken view bitness)).getLast?.getD 0 = 0 ↔
      ∀ d ∈ scanned view bitness code entry, taken view bitness d = none := by
    cases hlast : ((scanned view bitness code entry).filterMap (taken view bitness)).getLast? with
    | none => exact iff_of_true rfl (List.filterMap_eq_nil_iff.mp (List.getLast?_eq_none_iff.mp hlast))
    | some n =>
      obtain ⟨d, hd, htaken⟩ := List.mem_filterMap.mp (List.mem_of_getLast? hlast)
      refine iff_of_false (Nat.ne_of_gt (pos_of_taken htaken)) fun h => ?_
      rw [h d hd] at htaken
      cases htaken
  by_cases hfound : ∀ d ∈ scanned view bitness code entry, setsFramePointer view d = false ∧ taken view bitness d = none
  · refine iff_of_true (fun frame hframe => ?_) (.inl hfound)
    rw [analyzePrologue, scan_entry] at hframe
    dsimp only at hframe
    rw [if_pos ⟨hnone.mpr fun d hd => (hfound d hd).2, List.any_eq_false.mpr fun d hd => by simp [(hfound d hd).1]⟩] at hframe
    cases hframe
  · rw [or_iff_right hfound, ← hsize]
    have hsome : ¬ (((scanned view bitness code entry).filterMap (taken view bitness)).getLast?.getD 0 = 0 ∧
        (scanned view bitness code entry).any (setsFramePointer view) = false) := by
      rintro ⟨hzero, hframe⟩
      refine hfound fun d hd => ⟨?_, hnone.mp hzero d hd⟩
      simpa using List.any_eq_false.mp hframe d hd
    constructor
    · intro h
      have hframe := h _ (by rw [analyzePrologue, scan_entry]; exact if_neg hsome)
      exact hframe.1
    · intro heq frame hframe
      refine ⟨?_, slots_locals hframe⟩
      rw [analyzePrologue, scan_entry] at hframe
      dsimp only at hframe
      rw [if_neg hsome] at hframe
      obtain rfl := Option.some.inj hframe
      exact heq


/-! ## Two allocations -/

theorem fourBytes_pos : 0 < 4 := Nat.succ_pos 3

theorem end_1004 : 0x1000 + 4 < 2 ^ 64 := by decide

theorem end_1008 : 0x1004 + 4 < 2 ^ 64 := by decide

/-- An instruction of four bytes with an immediate as its second operand. -/
def immediateInstr (ip n : Nat) (h : ip + 4 < 2 ^ 64) : DecodedInstr :=
  ⟨ip, 4, [], .next, 0, [(.other, 0), (.immediate8to64, n)], [], .none, .none, 0, fourBytes_pos, h⟩

def subRsp : Operands := ⟨.sub, .rsp, .none, true, .none, .none, 0, fun _ h => Gpr.noConfusion h⟩

def pushEbp : Operands := ⟨.push, .ebp, .none, true, .none, .none, 0, fun h => Mnemonic.noConfusion h⟩

/-- `lea esp, [esp - 0x20]` in 32-bit code. -/
def leaEsp : Operands := ⟨.lea, .esp, .none, true, .esp, .none, 0xffffffe0, fun h => Mnemonic.noConfusion h⟩

def twoInstrs : CodeIndex := .ofList [immediateInstr 0x1000 8 end_1004, immediateInstr 0x1004 0x20 end_1008]

/-- Of `sub rsp, 8` and `sub rsp, 0x20` the second one is the size, and a `lea` in 32-bit code is
none. -/
theorem frame_not_exact : ¬ FrameExact (fun _ => subRsp) 64 twoInstrs 0x1000 ∧
    ¬ FrameExact (fun d => if d.ip = 0x1000 then pushEbp else leaEsp) 32 twoInstrs 0x1000 := by
  constructor
  · intro h
    exact absurd (h _ rfl).1 (by decide)
  · intro h
    exact absurd (h _ rfl).1 (by decide)

end Windy.Prologue
