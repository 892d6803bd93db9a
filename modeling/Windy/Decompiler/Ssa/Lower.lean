import Mathlib.Data.Int.ModEq
import Windy.Lib.Bytes
import Windy.Decompiler.Ir

/- Stack slots of loads and stores (`decompiler/ssa/lower.rs`).

   A pointer is looked up among the operations of its own machine instruction. If it is RSP or RBP,
   or one of them plus a constant, the access goes to the stack slot of that register and that
   displacement, whatever the register holds at the time. The slot is what a store defines and what
   a load uses first, so a load whose slot has the version of a store shows what was stored
   (`v2/ssa_expr.rs`).

   Below that is what the operations do to registers, temporaries and memory. Copies, additions,
   subtractions, loads and stores do what they say; any other operation, a call among them, leaves
   registers and memory in any state and writes no temporary but its output. An instruction is run
   as a list of operations of its own, in any order, since p-code may jump inside of an instruction.

   What is proved:
     1. `read_eq_baseRead`, `read_ptr`: a pointer that is lowered to a slot is the value the
        base register had when the address was formed, plus the displacement.
     2. `slots_agree_iff`: in a run all accesses to a slot go to one address exactly when,
        for each slot, the base register held the same value each time.

   Correspondence:
     `register_container_base`, `is_frame_ptr`, `resolve_ptr`, `resolve_base_register` ↔ the same
     the map `defs` of an instruction ↔ `defOf`
     `resolve_op` on loads and stores ↔ `accessedSlot` -/
namespace Windy.Decompiler.Lower

/-! ## Lowering of pointers -/

def regBases : List Nat :=
  [0x00, 0x08, 0x10, 0x18, 0x20, 0x28, 0x30, 0x38, 0x80, 0x88, 0x90, 0x98, 0xa0, 0xa8, 0xb0, 0xb8]

/-- `register_container_base`: the bases ascend, so the last one not above the offset is
the nearest. -/
def registerContainerBase (offset : Nat) : Nat :=
  match (regBases.takeWhile (· ≤ offset)).getLast? with
  | some base => if offset - base < 8 then base else offset
  | none => offset

def isFramePtr (base : Nat) : Bool := base = 0x20 || base = 0x28

/-- The output of an operation. -/
def getOutput : PcodeOp → Option Varnode
  | .copy out _ | .load out _ | .cast out _ => some out
  | .intAdd out _ _ | .intSub out _ _ | .intMult out _ _ | .intAnd out _ _ | .intOr out _ _ | .intXor out _ _
  | .intEq out _ _ | .intNotEq out _ _ | .intLess out _ _ | .intSLess out _ _ => some out
  | .callOther out _ | .other out _ => out
  | .store _ _ | .branch _ | .cbranch _ _ | .branchInd _ | .call _ | .callInd _ | .ret _ => none

/-- The operation of the instruction that has this output, the last one if there are more. -/
def defOf (instr : List PcodeOp) (vn : Varnode) : Option PcodeOp :=
  instr.reverse.find? fun op => getOutput op = some vn

/-- `resolve_base_register`, with one unit of fuel for each copy that is looked through. -/
def resolveBaseRegister (instr : List PcodeOp) : Nat → Varnode → Option Nat
  | 0, vn => if vn.space = .register then some vn.offset else none
  | fuel + 1, vn =>
    if vn.space = .register then some vn.offset
    else if vn.space = .unique then
      match defOf instr vn with
      | some (.copy _ input) => resolveBaseRegister instr fuel input
      | _ => none
    else none

/-- What a `u64` is as an `i64`. -/
def asI64 (n : Nat) : Int := (n : Int).bmod (2 ^ 64)

def frameSlot (baseReg : Nat) (disp : Int) : Location :=
  if isFramePtr (registerContainerBase baseReg) then .stackSlot baseReg disp else .rawRam

def resolvePtr (instr : List PcodeOp) (ptr : Varnode) : Location :=
  if ptr.space = .register then frameSlot ptr.offset 0
  else if ptr.space = .unique then
    match defOf instr ptr with
    | some (.intAdd _ left right) =>
      if right.space = .const then
        match resolveBaseRegister instr instr.length left with
        | some reg => frameSlot reg (asI64 right.offset)
        | none => .rawRam
      else if left.space = .const then
        match resolveBaseRegister instr instr.length right with
        | some reg => frameSlot reg (asI64 left.offset)
        | none => .rawRam
      else .rawRam
    | some (.copy _ input) => if input.space = .register then frameSlot input.offset 0 else .rawRam
    | _ => .rawRam
  else .rawRam

/-- The pointer of a load or a store. -/
def pointer : PcodeOp → Option Varnode
  | .load _ ptr | .store ptr _ => some ptr
  | _ => none

/-- The register and the displacement of the slot an operation is lowered to. -/
def accessedSlot (instr : List PcodeOp) (op : PcodeOp) : Option (Nat × Int) :=
  match (pointer op).map (resolvePtr instr) with
  | some (.stackSlot baseReg disp) => some (baseReg, disp)
  | _ => none

/-! ## What operations do -/

structure PState where
  register : Nat → Nat
  unique : Nat → Nat
  ram : Nat → Nat

namespace PState

def read (s : PState) (vn : Varnode) : Nat :=
  match vn.space with
  | .const => vn.offset % 256 ^ vn.size
  | .register => Bytes.read s.register vn.offset vn.size
  | .unique => Bytes.read s.unique vn.offset vn.size
  | .ram => Bytes.read s.ram vn.offset vn.size

def write (s : PState) (vn : Varnode) (value : Nat) : PState :=
  match vn.space with
  | .const => s
  | .register => { s with register := Bytes.write s.register vn.offset vn.size value }
  | .unique => { s with unique := Bytes.write s.unique vn.offset vn.size value }
  | .ram => { s with ram := Bytes.write s.ram vn.offset vn.size value }

end PState

/-- What the other operations do: to the registers, to memory, and the value of the output. -/
structure OtherOps where
  register : PcodeOp → PState → Nat → Nat
  ram : PcodeOp → PState → Nat → Nat
  value : PcodeOp → PState → Nat

def stepOp (others : OtherOps) (op : PcodeOp) (s : PState) : PState :=
  match op with
  | .copy out input => s.write out (s.read input)
  | .intAdd out left right => s.write out (s.read left + s.read right)
  | .intSub out left right => s.write out (s.read left + (256 ^ right.size - s.read right))
  | .load out ptr => s.write out (Bytes.read s.ram (s.read ptr) out.size)
  | .store ptr val => { s with ram := Bytes.write s.ram (s.read ptr) val.size (s.read val) }
  | op =>
    let s' := { s with register := others.register op s, ram := others.ram op s }
    match getOutput op with
    | some out => if out.space = .unique then s'.write out (others.value op s) else s'
    | none => s'

/-- The state behind a list of operations. -/
def stepOps (others : OtherOps) (s : PState) (ops : List PcodeOp) : PState :=
  ops.foldl (fun s op => stepOp others op s) s

/-! ## Accesses of a run -/

/-- The operation writes bytes of the temporary. -/
def writesTo (op : PcodeOp) (vn : Varnode) : Bool :=
  match getOutput op with
  | some out =>
    out.space = .unique && vn.space = .unique && out.offset < vn.offset + vn.size && vn.offset < out.offset + out.size
  | none => false

/-- What an instruction has done so far, the last operation first, each with the state it
started from. -/
abbrev History := List (PcodeOp × PState)

/-- The value of the register that the address in a varnode was formed from, as it was
then: what wrote a temporary is looked up in what the instruction has done. -/
def baseRead : History → PState → Varnode → Nat
  | [], s, vn => if vn.space = .register then s.read vn else 0
  | (op, before) :: earlier, s, vn =>
    if vn.space = .register then s.read vn
    else if writesTo op vn then
      match op with
      | .copy _ input => baseRead earlier before input
      | .intAdd _ left right => baseRead earlier before (if right.space = .const then left else right)
      | _ => 0
    else baseRead earlier before vn

structure Access where
  slot : Nat × Int
  address : Nat
  base : Nat
  deriving DecidableEq

/-- The access of an operation that is lowered to a slot. -/
def accessOf (instr : List PcodeOp) (earlier : History) (s : PState) (op : PcodeOp) : Option Access :=
  match pointer op, accessedSlot instr op with
  | some ptr, some slot => some ⟨slot, s.read ptr, baseRead earlier s ptr⟩
  | _, _ => none

def accesses (others : OtherOps) (instr : List PcodeOp) : History → PState → List PcodeOp → List Access
  | _, _, [] => []
  | earlier, s, op :: ops =>
    (accessOf instr earlier s op).toList ++ accesses others instr ((op, s) :: earlier) (stepOp others op s) ops

/-- An instruction that is run: its operations, and those that were executed, one after the
other. -/
structure Executed where
  instr : List PcodeOp
  ops : List PcodeOp

/-- The accesses of a run from this state. -/
def runAccesses (others : OtherOps) : PState → List Executed → List Access
  | _, [] => []
  | s, e :: rest => accesses others e.instr [] s e.ops ++ runAccesses others (stepOps others s e.ops) rest

/-! ## What a lifter promises -/

/-- The varnodes an address is computed from, as far as lowering looks. -/
def addressReads : PcodeOp → List Varnode
  | .copy _ input => [input]
  | .intAdd _ left right => [left, right]
  | .load _ ptr | .store ptr _ => [ptr]
  | _ => []

/-- The widths of copies and additions agree, and addresses have 64 bits. -/
def WidthsAgree : PcodeOp → Prop
  | .copy out input => out.size = input.size
  | .intAdd out left right => out.size = left.size ∧ out.size = right.size
  | .load _ ptr | .store ptr _ => ptr.size = 8
  | _ => True

theorem size_of_pointer {op : PcodeOp} {ptr : Varnode} (hptr : pointer op = some ptr) (hwidths : WidthsAgree op) :
    ptr.size = 8 := by
  cases op with
  | load out p => obtain rfl := Option.some.inj hptr; exact hwidths
  | store p value => obtain rfl := Option.some.inj hptr; exact hwidths
  | _ => cases hptr

theorem mem_addressReads_of_pointer {op : PcodeOp} {ptr : Varnode} (hptr : pointer op = some ptr) :
    ptr ∈ addressReads op := by
  cases op with
  | load out p => obtain rfl := Option.some.inj hptr; exact List.mem_singleton_self p
  | store p value => obtain rfl := Option.some.inj hptr; exact List.mem_singleton_self p
  | _ => cases hptr

/-- The temporaries that `resolve_base_register` looks through. -/
def baseTemps (instr : List PcodeOp) : Nat → Varnode → List Varnode
  | 0, _ => []
  | fuel + 1, vn =>
    if vn.space = .unique then
      vn :: match defOf instr vn with
        | some (.copy _ input) => baseTemps instr fuel input
        | _ => []
    else []

/-- The temporaries that `resolve_ptr` looks through. -/
def addressTemps (instr : List PcodeOp) (ptr : Varnode) : List Varnode :=
  if ptr.space = .unique then
    ptr :: match defOf instr ptr with
      | some (.intAdd _ left right) => baseTemps instr instr.length (if right.space = .const then left else right)
      | _ => []
  else []

/-- Only one operation of the instruction writes to the temporary. -/
def WrittenOnce (instr : List PcodeOp) (vn : Varnode) : Prop := ∀ op ∈ instr, writesTo op vn → defOf instr vn = some op

/-- Temporaries belong to an instruction: they are written before they are read, those of an
address by one operation only. -/
structure WellLifted (e : Executed) : Prop where
  executed : ∀ op ∈ e.ops, op ∈ e.instr
  written_first : ∀ before op after, e.ops = before ++ op :: after → ∀ vn ∈ addressReads op, vn.space = .unique →
    ∃ op' ∈ before, writesTo op' vn
  written_once : ∀ op ∈ e.instr, ∀ ptr, pointer op = some ptr → (accessedSlot e.instr op).isSome →
    ∀ vn ∈ addressTemps e.instr ptr, WrittenOnce e.instr vn
  widths : ∀ op ∈ e.instr, WidthsAgree op

/-! ## Reading what was written -/

namespace PState

theorem read_lt (s : PState) (vn : Varnode) : s.read vn < 256 ^ vn.size := by
  unfold read
  split
  · exact Nat.mod_lt _ (Nat.pow_pos (by decide))
  · exact Bytes.read_lt _ _ _
  · exact Bytes.read_lt _ _ _
  · exact Bytes.read_lt _ _ _

/-- A temporary that is written holds the value, cut to its width. -/
theorem read_write_unique (s : PState) {vn : Varnode} (hvn : vn.space = .unique) (value : Nat) :
    (s.write vn value).read vn = value % 256 ^ vn.size := by
  simp only [write, read, hvn]
  exact Bytes.read_write _ _ _ _

/-- Writing elsewhere leaves a temporary as it is. -/
theorem read_write_frame (s : PState) {out vn : Varnode} (hvn : vn.space = .unique) (value : Nat)
    (h : out.space = .unique → out.offset + out.size ≤ vn.offset ∨ vn.offset + vn.size ≤ out.offset) :
    (s.write out value).read vn = s.read vn := by
  unfold write
  split
  · rfl
  · simp only [read, hvn]
  · rename_i hout
    simp only [read, hvn]
    exact Bytes.read_write_disjoint _ _ (h hout)
  · simp only [read, hvn]

end PState

/-- An operation leaves a temporary that it does not write to as it is. -/
theorem read_stepOp_frame (others : OtherOps) {op : PcodeOp} (s : PState) {vn : Varnode} (hvn : vn.space = .unique)
    (h : ¬ writesTo op vn) : (stepOp others op s).read vn = s.read vn := by
  have hframe : ∀ {out : Varnode} {s' : PState} (value : Nat), getOutput op = some out → s'.unique = s.unique →
      (s'.write out value).read vn = s.read vn := by
    intro out s' value hout hsame
    rw [PState.read_write_frame s' hvn]
    · simp only [PState.read, hvn, hsame]
    · intro hspace
      by_contra hboth
      exact h (by simp [writesTo, hout, hspace, hvn]; omega)
  have hother : ∀ {s' : PState}, s'.unique = s.unique → s'.read vn = s.read vn := by
    intro s' hsame
    simp only [PState.read, hvn, hsame]
  unfold stepOp
  split
  · exact hframe _ rfl rfl
  · exact hframe _ rfl rfl
  · exact hframe _ rfl rfl
  · exact hframe _ rfl rfl
  · exact hother rfl
  · dsimp only
    split
    · rename_i out hout
      split
      · exact hframe _ hout rfl
      · exact hother rfl
    · exact hother rfl

/-- The history of an instruction leads to the state. -/
def Leads (others : OtherOps) (instr : List PcodeOp) : History → PState → Prop
  | [], _ => True
  | (op, before) :: earlier, s =>
    s = stepOp others op before ∧ op ∈ instr ∧
      (∀ vn ∈ addressReads op, vn.space = .unique → ∃ e ∈ earlier, writesTo e.1 vn) ∧
      Leads others instr earlier before

theorem defOf_spec {instr : List PcodeOp} {vn : Varnode} {op : PcodeOp} (h : defOf instr vn = some op) :
    getOutput op = some vn ∧ op ∈ instr := by
  have hout := List.find?_some h
  exact ⟨by simpa using hout, List.mem_reverse.mp (List.mem_of_find?_eq_some h)⟩

/-! ## Addresses -/

section Addresses
variable {others : OtherOps} {instr : List PcodeOp} {earlier : History} {vn : Varnode}

theorem baseRead_register {s : PState} (h : vn.space = .register) :
    baseRead earlier s vn = s.read vn := by
  cases earlier with
  | nil => exact if_pos h
  | cons e earlier => exact if_pos h

theorem baseRead_frame {op : PcodeOp} {before s : PState}
    (hspace : vn.space ≠ .register) (h : ¬ writesTo op vn) :
    baseRead ((op, before) :: earlier) s vn = baseRead earlier before vn :=
  (if_neg hspace).trans (if_neg h)

theorem baseRead_copy {out input vn : Varnode} {before s : PState}
    (hspace : vn.space ≠ .register) (h : writesTo (.copy out input) vn) :
    baseRead ((.copy out input, before) :: earlier) s vn = baseRead earlier before input :=
  (if_neg hspace).trans (if_pos h)

theorem baseRead_intAdd {out left right vn : Varnode} {before s : PState}
    (hspace : vn.space ≠ .register) (h : writesTo (.intAdd out left right) vn) :
    baseRead ((.intAdd out left right, before) :: earlier) s vn =
      baseRead earlier before (if right.space = .const then left else right) :=
  (if_neg hspace).trans (if_pos h)

/-- A base that is not a register is a temporary that some copy of the instruction writes. -/
theorem resolveBaseRegister_copy {fuel : Nat} {reg : Nat}
    (h : resolveBaseRegister instr fuel vn = some reg) (hspace : vn.space ≠ .register) :
    vn.space = .unique ∧ ∃ n input, fuel = n + 1 ∧ defOf instr vn = some (.copy vn input) ∧
      resolveBaseRegister instr n input = some reg := by
  cases fuel with
  | zero => simp [resolveBaseRegister, hspace] at h
  | succ n =>
    rw [resolveBaseRegister, if_neg hspace] at h
    split at h
    · rename_i hunique
      split at h
      · rename_i out input hdef
        obtain rfl : out = vn := by simpa [getOutput] using (defOf_spec hdef).1
        exact ⟨hunique, n, input, rfl, hdef, h⟩
      · cases h
    · cases h

/-- The one operation that writes a temporary is the one it is looked up as. -/
theorem WrittenOnce.eq_of_writes {op op' : PcodeOp} (h : WrittenOnce instr vn) (hop : op ∈ instr)
    (hwrites : writesTo op vn) (hdef : defOf instr vn = some op') : op = op' := by
  have := h op hop hwrites
  rw [hdef] at this
  exact (Option.some.inj this).symm

/-- A base that is resolved to a register is the value the register had when it was read. -/
theorem read_eq_baseRead (hwidths : ∀ op ∈ instr, WidthsAgree op) {s : PState}
    (hleads : Leads others instr earlier s) {fuel : Nat} {reg : Nat}
    (hreg : resolveBaseRegister instr fuel vn = some reg) (honce : ∀ t ∈ baseTemps instr fuel vn, WrittenOnce instr t)
    (hready : vn.space = .unique → ∃ e ∈ earlier, writesTo e.1 vn) :
    s.read vn = baseRead earlier s vn := by
  by_cases hspace : vn.space = .register
  · exact (baseRead_register hspace).symm
  induction earlier generalizing s fuel vn with
  | nil =>
    obtain ⟨e, he, -⟩ := hready (resolveBaseRegister_copy hreg hspace).1
    cases he
  | cons e earlier ih =>
    obtain ⟨op, before⟩ := e
    obtain ⟨rfl, hop, hfirst, hleads⟩ := hleads
    obtain ⟨hunique, n, input, rfl, hdef, hreg'⟩ := resolveBaseRegister_copy hreg hspace
    have honce' : WrittenOnce instr vn := honce vn (by simp [baseTemps, hunique])
    by_cases hwrites : writesTo op vn
    · -- the copy: the base is what its input was
      obtain rfl : op = .copy vn input := honce'.eq_of_writes hop hwrites hdef
      have hsize : vn.size = input.size := hwidths _ hop
      have hinput : before.read input = baseRead earlier before input := by
        by_cases hin : input.space = .register
        · exact (baseRead_register hin).symm
        · refine ih hleads hreg' (fun t ht => honce t ?_) (fun h => hfirst input (by simp [addressReads]) h) hin
          simp [baseTemps, hunique, hdef, ht]
      calc (stepOp others (.copy vn input) before).read vn
          = before.read input % 256 ^ vn.size := PState.read_write_unique before hunique _
        _ = before.read input := Nat.mod_eq_of_lt (hsize ▸ PState.read_lt before input)
        _ = baseRead earlier before input := hinput
        _ = _ := (baseRead_copy hspace hwrites).symm
    · rw [baseRead_frame hspace hwrites, read_stepOp_frame others before hunique hwrites]
      refine ih hleads hreg honce (fun h => ?_) hspace
      obtain ⟨e, he, hw⟩ := hready h
      rcases List.mem_cons.mp he with rfl | he
      · exact absurd hw hwrites
      · exact ⟨e, he, hw⟩

/-- The temporary in which a frame register and a constant are added. -/
theorem resolvePtr_slot {ptr : Varnode} {reg : Nat} {disp : Int} (h : resolvePtr instr ptr = .stackSlot reg disp) :
    ptr.space = .register ∧ disp = 0 ∨
    ptr.space = .unique ∧ (
      (∃ left right base k, defOf instr ptr = some (.intAdd ptr left right) ∧
        (base, k) = (if right.space = .const then (left, right) else (right, left)) ∧ k.space = .const ∧
        resolveBaseRegister instr instr.length base = some reg ∧ disp = asI64 k.offset) ∨
      ∃ input, defOf instr ptr = some (.copy ptr input) ∧ input.space = .register ∧ disp = 0) := by
  have hframe : ∀ {base : Nat} {k : Int}, frameSlot base k = .stackSlot reg disp → base = reg ∧ k = disp := by
    intro base k hslot
    unfold frameSlot at hslot
    split at hslot
    · simpa using hslot
    · cases hslot
  have hout : ∀ {op : PcodeOp}, defOf instr ptr = some op → getOutput op = some ptr := fun hdef => (defOf_spec hdef).1
  unfold resolvePtr at h
  split at h
  · rename_i hspace
    exact .inl ⟨hspace, (hframe h).2.symm⟩
  · split at h
    · rename_i hspace
      refine .inr ⟨hspace, ?_⟩
      split at h
      · rename_i out left right hdef
        obtain rfl : out = ptr := by simpa [getOutput] using hout hdef
        split at h
        · rename_i hright
          split at h
          · rename_i base hbase
            obtain ⟨rfl, rfl⟩ := hframe h
            exact .inl ⟨left, right, left, right, hdef, by simp [hright], hright, hbase, rfl⟩
          · cases h
        · rename_i hright
          split at h
          · rename_i hleft
            split at h
            · rename_i base hbase
              obtain ⟨rfl, rfl⟩ := hframe h
              exact .inl ⟨left, right, right, left, hdef, by simp [hright], hleft, hbase, rfl⟩
            · cases h
          · cases h
      · rename_i out input hdef
        obtain rfl : out = ptr := by simpa [getOutput] using hout hdef
        split at h
        · rename_i hinput
          exact .inr ⟨input, hdef, hinput, (hframe h).2.symm⟩
        · cases h
      · cases h
    · cases h

/-- An address that is a base plus a displacement, in 64 bits. -/
def IsOffset (address base : Nat) (disp : Int) : Prop := base < 2 ^ 64 ∧ (address : Int) = (base + disp) % 2 ^ 64

theorem isOffset_self {address : Nat} (h : address < 2 ^ 64) : IsOffset address address 0 := by
  refine ⟨h, ?_⟩
  rw [Int.add_zero, Int.emod_eq_of_lt (by omega) (by omega)]

theorem isOffset_add {base k : Nat} (h : base < 2 ^ 64) : IsOffset ((base + k % 2 ^ 64) % 2 ^ 64) base (asI64 k) := by
  refine ⟨h, ?_⟩
  have hk : (asI64 k) % 2 ^ 64 = (k : Int) % 2 ^ 64 := Int.bmod_emod
  omega

/-- The sum in a temporary is an offset from the base that was added. -/
theorem read_intAdd (hwidths : ∀ op ∈ instr, WidthsAgree op) {s : PState}
    (hleads : Leads others instr earlier s) {ptr left right base k : Varnode} {reg : Nat} (hspace : ptr.space = .unique)
    (hsize : ptr.size = 8) (hdef : defOf instr ptr = some (.intAdd ptr left right))
    (hpair : (base, k) = (if right.space = .const then (left, right) else (right, left))) (hk : k.space = .const)
    (hreg : resolveBaseRegister instr instr.length base = some reg) (honce : WrittenOnce instr ptr)
    (hbase : ∀ t ∈ baseTemps instr instr.length base, WrittenOnce instr t)
    (hready : ∃ e ∈ earlier, writesTo e.1 ptr) :
    IsOffset (s.read ptr) (baseRead earlier s ptr) (asI64 k.offset) := by
  have hnot : ptr.space ≠ .register := by simp [hspace]
  induction earlier generalizing s with
  | nil =>
    obtain ⟨e, he, -⟩ := hready
    cases he
  | cons e earlier ih =>
    obtain ⟨op, before⟩ := e
    obtain ⟨rfl, hop, hfirst, hleads⟩ := hleads
    by_cases hwrites : writesTo op ptr
    · obtain rfl : op = .intAdd ptr left right := honce.eq_of_writes hop hwrites hdef
      obtain ⟨hleft, hright⟩ : ptr.size = left.size ∧ ptr.size = right.size := hwidths _ hop
      -- of the two summands one is the base and the other the constant
      obtain ⟨hmem, hwidth, hsum, hselect⟩ : base ∈ [left, right] ∧ base.size = 8 ∧
          before.read left + before.read right = before.read base + k.offset % 256 ^ 8 ∧
          (if right.space = .const then left else right) = base := by
        split at hpair
        · obtain ⟨rfl, rfl⟩ := Prod.mk.inj hpair
          refine ⟨by simp, by omega, ?_, by simp [*]⟩
          simp [PState.read, hk, ← hright, hsize]
        · obtain ⟨rfl, rfl⟩ := Prod.mk.inj hpair
          refine ⟨by simp, by omega, ?_, by simp [*]⟩
          rw [Nat.add_comm]
          simp [PState.read, hk, ← hleft, hsize]
      have hread : before.read base = baseRead earlier before base :=
        read_eq_baseRead hwidths hleads hreg hbase (hfirst base hmem)
      have hlt : before.read base < 2 ^ 64 := by
        have := PState.read_lt before base
        rwa [hwidth] at this
      have haddress : (stepOp others (.intAdd ptr left right) before).read ptr =
          (before.read base + k.offset % 2 ^ 64) % 2 ^ 64 := by
        calc (stepOp others (.intAdd ptr left right) before).read ptr
            = (before.read left + before.read right) % 256 ^ ptr.size := PState.read_write_unique before hspace _
          _ = (before.read base + k.offset % 256 ^ 8) % 256 ^ 8 := by rw [hsum, hsize]
      rw [haddress, baseRead_intAdd hnot hwrites, hselect, ← hread]
      exact isOffset_add hlt
    · rw [baseRead_frame hnot hwrites, read_stepOp_frame others before hspace hwrites]
      refine ih hleads ?_
      obtain ⟨e, he, hw⟩ := hready
      rcases List.mem_cons.mp he with rfl | he
      · exact absurd hw hwrites
      · exact ⟨e, he, hw⟩

/-- A pointer that is lowered to a slot is an offset from the register of the slot. -/
theorem read_ptr (hwidths : ∀ op ∈ instr, WidthsAgree op) {s : PState}
    (hleads : Leads others instr earlier s) {ptr : Varnode} {reg : Nat} {disp : Int} (hsize : ptr.size = 8)
    (hslot : resolvePtr instr ptr = .stackSlot reg disp) (honce : ∀ t ∈ addressTemps instr ptr, WrittenOnce instr t)
    (hready : ptr.space = .unique → ∃ e ∈ earlier, writesTo e.1 ptr) :
    IsOffset (s.read ptr) (baseRead earlier s ptr) disp := by
  have hlt : s.read ptr < 2 ^ 64 := by
    have := PState.read_lt s ptr
    rwa [hsize] at this
  rcases resolvePtr_slot hslot with ⟨hspace, rfl⟩ | ⟨hspace, hcase⟩
  · rw [baseRead_register hspace]
    exact isOffset_self hlt
  have hptr : WrittenOnce instr ptr := honce ptr (by simp [addressTemps, hspace])
  rcases hcase with ⟨left, right, base, k, hdef, hpair, hk, hreg, hdisp⟩ | ⟨input, hdef, hinput, rfl⟩
  · rw [hdisp]
    refine read_intAdd hwidths hleads hspace hsize hdef hpair hk hreg hptr (fun t ht => honce t ?_) (hready hspace)
    have hbase : base = if right.space = .const then left else right := by
      split at hpair
      · rename_i hright
        simp [hright, (Prod.mk.inj hpair).1]
      · rename_i hright
        simp [hright, (Prod.mk.inj hpair).1]
    simp [addressTemps, hspace, hdef, ← hbase, ht]
  · -- a copy of the register is looked through once
    have hreg : resolveBaseRegister instr 1 ptr = some input.offset := by
      simp [resolveBaseRegister, hspace, hdef, hinput]
    have htemps : ∀ t ∈ baseTemps instr 1 ptr, WrittenOnce instr t := by
      intro t ht
      obtain rfl : t = ptr := by simpa [baseTemps, hspace, hdef] using ht
      exact hptr
    rw [← read_eq_baseRead hwidths hleads hreg htemps hready]
    exact isOffset_self hlt

end Addresses

/-! ## Runs -/

section Runs
variable {others : OtherOps}

theorem accessOf_isOffset {e : Executed} (hlifted : WellLifted e) {earlier : History} {s : PState}
    (hleads : Leads others e.instr earlier s) {op : PcodeOp} (hop : op ∈ e.instr)
    (hfirst : ∀ vn ∈ addressReads op, vn.space = .unique → ∃ w ∈ earlier, writesTo w.1 vn) {x : Access}
    (hx : accessOf e.instr earlier s op = some x) : IsOffset x.address x.base x.slot.2 := by
  unfold accessOf at hx
  split at hx
  · rename_i ptr slot hptr haccessed
    obtain rfl := Option.some.inj hx
    have hslot : resolvePtr e.instr ptr = .stackSlot slot.1 slot.2 := by
      simp only [accessedSlot, hptr, Option.map_some] at haccessed
      split at haccessed
      · rename_i base disp heq
        obtain rfl := Option.some.inj haccessed
        exact Option.some.inj heq
      · cases haccessed
    exact read_ptr hlifted.widths hleads (size_of_pointer hptr (hlifted.widths op hop)) hslot
      (hlifted.written_once op hop ptr hptr (by rw [haccessed]; rfl)) (hfirst ptr (mem_addressReads_of_pointer hptr))
  · cases hx

/-- Each access of an instruction is at the offset of its slot. -/
theorem accesses_isOffset {e : Executed} (hlifted : WellLifted e) {earlier : History} {s : PState} {ops : List PcodeOp}
    (hleads : Leads others e.instr earlier s) (hops : e.ops = (earlier.map Prod.fst).reverse ++ ops) :
    ∀ x ∈ accesses others e.instr earlier s ops, IsOffset x.address x.base x.slot.2 := by
  induction ops generalizing earlier s with
  | nil => simp [accesses]
  | cons op ops ih =>
    have hop : op ∈ e.instr := hlifted.executed op (by simp [hops])
    have hfirst : ∀ vn ∈ addressReads op, vn.space = .unique → ∃ w ∈ earlier, writesTo w.1 vn := by
      intro vn hvn hspace
      obtain ⟨op', hmem, hw⟩ := hlifted.written_first _ op ops hops vn hvn hspace
      obtain ⟨w, hw', rfl⟩ := List.mem_map.mp (List.mem_reverse.mp hmem)
      exact ⟨w, hw', hw⟩
    intro x hx
    rcases List.mem_append.mp hx with hx | hx
    · exact accessOf_isOffset hlifted hleads hop hfirst (Option.mem_toList.mp hx)
    · have hleads' : Leads others e.instr ((op, s) :: earlier) (stepOp others op s) := ⟨rfl, hop, hfirst, hleads⟩
      exact ih hleads' (by simp [hops]) x hx

theorem runAccesses_isOffset {run : List Executed} (hlifted : ∀ e ∈ run, WellLifted e) (s : PState) :
    ∀ x ∈ runAccesses others s run, IsOffset x.address x.base x.slot.2 := by
  induction run generalizing s with
  | nil => simp [runAccesses]
  | cons e rest ih =>
    intro x hx
    rcases List.mem_append.mp hx with hx | hx
    · have hleads : Leads others e.instr [] s := trivial
      exact accesses_isOffset (hlifted e List.mem_cons_self) hleads (by simp) x hx
    · exact ih (fun e' he => hlifted e' (List.mem_cons_of_mem e he)) _ x hx

theorem IsOffset.address_eq_iff {address address' base base' : Nat} {disp : Int} (h : IsOffset address base disp)
    (h' : IsOffset address' base' disp) : address = address' ↔ base = base' := by
  obtain ⟨hlt, heq⟩ := h
  obtain ⟨hlt', heq'⟩ := h'
  omega

/-- In a run all accesses to a slot go to one address exactly when the base register of the
slot held the same value each time. -/
theorem slots_agree_iff (others : OtherOps) (s : PState) (run : List Executed) (hlifted : ∀ e ∈ run, WellLifted e) :
    (∀ x ∈ runAccesses others s run, ∀ y ∈ runAccesses others s run, x.slot = y.slot → x.address = y.address) ↔
      (∀ x ∈ runAccesses others s run, ∀ y ∈ runAccesses others s run, x.slot = y.slot → x.base = y.base) := by
  have hoffset : ∀ x ∈ runAccesses others s run, IsOffset x.address x.base x.slot.2 := runAccesses_isOffset hlifted s
  apply forall₂_congr
  intro x hx
  apply forall₂_congr
  intro y hy
  apply imp_congr_right
  intro hslot
  exact (hoffset x hx).address_eq_iff (hslot ▸ hoffset y hy)

end Runs

section Push

def rsp : Varnode := ⟨.register, 0x20, 8⟩

def rax : Varnode := ⟨.register, 0x00, 8⟩

def eight : Varnode := ⟨.const, 8, 8⟩

def temp : Varnode := ⟨.unique, 0x100, 8⟩

/-- `push rax` -/
def push : Executed :=
  let ops := [.intSub rsp rsp eight, .store rsp rax]
  ⟨ops, ops⟩

/-- `sub rsp, 8` -/
def subRsp : Executed := ⟨[.intSub rsp rsp eight], [.intSub rsp rsp eight]⟩

/-- `mov rax, [rsp]` -/
def loadTop : Executed := ⟨[.load rax rsp], [.load rax rsp]⟩

/-- `mov [rsp + 8], rax` -/
def storeSlot : Executed :=
  let ops := [.intAdd temp rsp eight, .store temp rax]
  ⟨ops, ops⟩

/-- `mov rax, [rsp + 8]` -/
def loadSlot : Executed :=
  let ops := [.intAdd temp rsp eight, .load rax temp]
  ⟨ops, ops⟩

/-- RSP is 0x1000, all else zero. -/
def entryState : PState := ⟨fun a => if a = 0x21 then 0x10 else 0, fun _ => 0, fun _ => 0⟩

/-- No other operation is there to be run. -/
def noOthers : OtherOps := ⟨fun _ s => s.register, fun _ s => s.ram, fun _ _ => 0⟩

/-- An instruction that adds a constant to RSP in a temporary and goes on with an access. -/
theorem wellLifted_slot {op : PcodeOp} (hptr : pointer op = some temp) (hreads : addressReads op = [temp])
    (hout : ∀ out, getOutput op = some out → out.space ≠ .unique) (hwidths : WidthsAgree op) :
    WellLifted ⟨[.intAdd temp rsp eight, op], [.intAdd temp rsp eight, op]⟩ where
  executed := fun _ h => h
  written_first := by
    intro before op' after h vn hvn hspace
    rcases before with _ | ⟨first, _ | ⟨second, rest⟩⟩
    · obtain ⟨rfl, -⟩ := List.cons.inj h
      have : vn = rsp ∨ vn = eight := by simpa [addressReads] using hvn
      rcases this with rfl | rfl <;> cases hspace
    · obtain ⟨rfl, hrest⟩ := List.cons.inj h
      obtain ⟨rfl, -⟩ := List.cons.inj hrest
      obtain rfl : vn = temp := by simpa [hreads] using hvn
      exact ⟨_, List.mem_cons_self, by decide⟩
    · simp at h
  written_once := by
    have hne : getOutput op ≠ some temp := fun h => hout temp h rfl
    have hdef : defOf [.intAdd temp rsp eight, op] temp = some (.intAdd temp rsp eight) := by
      have hadd : getOutput (.intAdd temp rsp eight) = some temp := rfl
      simp [defOf, hne, hadd]
    have htemps : addressTemps [.intAdd temp rsp eight, op] temp = [temp] := by
      have hspace : temp.space = .unique := rfl
      rw [addressTemps, if_pos hspace, hdef]
      rfl
    intro op' hop ptr hptr' _ vn hvn
    obtain rfl : ptr = temp := by
      rcases List.mem_pair.mp hop with rfl | rfl
      · cases hptr'
      · simpa [hptr, eq_comm] using hptr'
    obtain rfl : vn = temp := by
      simpa [htemps] using hvn
    intro op'' hop'' hwrites
    rcases List.mem_pair.mp hop'' with rfl | rfl
    · exact hdef
    · simp only [writesTo] at hwrites
      split at hwrites
      · rename_i out h
        simp [hout out h] at hwrites
      · cases hwrites
  widths := by
    intro op' hop
    rcases List.mem_pair.mp hop with rfl | rfl
    · exact ⟨rfl, rfl⟩
    · exact hwidths

theorem slots_agree_storeSlot :
    (∀ e ∈ [storeSlot, loadSlot], WellLifted e) ∧
      ∀ x ∈ runAccesses noOthers entryState [storeSlot, loadSlot],
        ∀ y ∈ runAccesses noOthers entryState [storeSlot, loadSlot], x.slot = y.slot → x.address = y.address := by
  have hlifted : ∀ e ∈ [storeSlot, loadSlot], WellLifted e := by
    intro e he
    rcases List.mem_pair.mp he with rfl | rfl
    · exact wellLifted_slot rfl rfl (fun out h => nomatch h) rfl
    · exact wellLifted_slot rfl rfl (fun out h => by cases h; decide) rfl
  exact ⟨hlifted, (slots_agree_iff noOthers entryState [storeSlot, loadSlot] hlifted).mpr (by decide)⟩

/-- Between a push and a load from the top RSP moves: the load is lowered to the slot of the
push and reads eight bytes below it. -/
theorem pushed_slot_moves :
    ¬ ∀ x ∈ runAccesses noOthers entryState [push, subRsp, loadTop],
      ∀ y ∈ runAccesses noOthers entryState [push, subRsp, loadTop], x.slot = y.slot → x.address = y.address := by
  decide

end Push

end Windy.Decompiler.Lower
