import Windy.Analysis.Functions

/- Import thunks (`analysis/thunks.rs`, `rip_relative_target_va` of `analysis/indirect.rs`).

   A function of one block with the one instruction `jmp [slot]` gets the name of the import whose
   slot it jumps through. The slot of a RIP-relative operand is an absolute address as the decoder
   tells it: both `memory_displacement64` and `ip_rel_memory_address` are the sum already
   (`Documented`). `rip_relative_target_va` takes it as it is, with a comment that the next address
   must not be added a second time; `memory_target_va` cuts it to 32 bits and adds the next address.

   Operands without any register are looked up at their displacement, in a 64-bit image too.

   What is proved: the two agree on a RIP-relative instruction exactly when the address behind it is
   a multiple of 2^32 (`memoryTargetVa_eq_iff`), and the renames are those of the import thunks
   exactly when the lookups at the addresses that the code computes come to the same names
   (`findThunkRenames_iff`).

   Correspondence:
     `memory_target_va`, `rip_relative_target_va` ↔ the same
     the loop body ↔ `thunkRename`
     `find_thunk_renames` ↔ the same
   The code index is its `at_va`, the symbol table its `get`. -/
namespace Windy.Thunks

inductive Mnemonic where
  | jmp
  | other
  deriving DecidableEq, Repr

inductive OperandKind where
  | memory
  | other
  deriving DecidableEq, Repr

/-- What the decoder says of an instruction, as far as it is asked. -/
structure Instruction where
  mnemonic : Mnemonic
  op0Kind : OperandKind
  memoryBase : Register
  memoryIndex : Register
  nextIp : Nat
  memoryDisplacement64 : Nat
  ipRelMemoryAddress : Nat
  deriving DecidableEq, Repr

/-- `n as i32 as i64 as u64`. -/
def signExtend32 (n : Nat) : Nat := if n % 2 ^ 32 < 2 ^ 31 then n % 2 ^ 32 else n % 2 ^ 32 + (2 ^ 64 - 2 ^ 32)

def memoryTargetVa (instr : Instruction) (bitness : Nat) : Option Nat :=
  if instr.memoryBase = .rip ∧ instr.memoryIndex = .none ∧ bitness = 64 then
    some ((instr.nextIp + signExtend32 instr.memoryDisplacement64) % 2 ^ 64)
  else if instr.memoryBase = .none ∧ instr.memoryIndex = .none then some instr.memoryDisplacement64
  else none

def ripRelativeTargetVa (instr : Instruction) (bitness : Nat) : Option Nat :=
  if bitness ≠ 64 then none
  else if instr.memoryBase ≠ .rip ∨ instr.memoryIndex ≠ .none then none
  else some instr.ipRelMemoryAddress

structure ThunkRename where
  thunkVa : Nat
  apiName : String
  slotVa : Nat
  deriving DecidableEq, Repr

/-- The name of an import behind `__imp_`. -/
def apiName (sym : Symbol) : Option String :=
  if sym.kind ≠ .import then none
  else if "__imp_".toList.isPrefixOf sym.name.toList then
    let api := String.ofList (sym.name.toList.drop "__imp_".toList.length)
    if api = "" then none else some api
  else none

section Renames
variable (atVa : Nat → Option Instruction) (symbols : Nat → Option Symbol) (bitness : Nat)

def thunkRename (func : Function) : Option ThunkRename :=
  match func.blocks with
  | [block] =>
    if block.instrCount ≠ 1 then none
    else do
      let instr ← atVa func.entryVa
      if instr.mnemonic ≠ .jmp then none
      else if instr.op0Kind ≠ .memory then none
      else do
        let slotVa ← memoryTargetVa instr bitness
        let sym ← symbols slotVa
        let api ← apiName sym
        return ⟨func.entryVa, api, slotVa⟩
  | _ => none

def findThunkRenames (functions : FunctionTable) : List ThunkRename := functions.filterMap (thunkRename atVa symbols bitness)

end Renames

/-! ## The decoder -/

/-- The operand is relative to the instruction pointer. -/
def RipRelative (instr : Instruction) : Prop := instr.memoryBase = .rip ∧ instr.memoryIndex = .none

instance (instr : Instruction) : Decidable (RipRelative instr) := inferInstanceAs (Decidable (_ ∧ _))

/-- Both accessors give the absolute address: the next address and a displacement of 32 bits. -/
def Documented (instr : Instruction) : Prop :=
  instr.nextIp < 2 ^ 64 ∧ (RipRelative instr → instr.memoryDisplacement64 = instr.ipRelMemoryAddress ∧
    ∃ d < 2 ^ 32, instr.ipRelMemoryAddress = (instr.nextIp + signExtend32 d) % 2 ^ 64)

theorem signExtend32_mod (n : Nat) : signExtend32 n % 2 ^ 32 = n % 2 ^ 32 := by
  unfold signExtend32
  split <;> omega

theorem signExtend32_congr {m n : Nat} (h : m % 2 ^ 32 = n % 2 ^ 32) : signExtend32 m = signExtend32 n := by
  unfold signExtend32
  rw [h]

theorem signExtend32_lt (n : Nat) : signExtend32 n < 2 ^ 64 := by
  unfold signExtend32
  split <;> omega

/-- The next address is added twice. -/
theorem memoryTargetVa_eq_iff {instr : Instruction} (hdocumented : Documented instr) (hrip : RipRelative instr) :
    memoryTargetVa instr 64 = ripRelativeTargetVa instr 64 ↔ instr.nextIp % 2 ^ 32 = 0 := by
  obtain ⟨hnext, hoperand⟩ := hdocumented
  obtain ⟨hdisplacement, d, hd, haddress⟩ := hoperand hrip
  obtain ⟨hbase, hindex⟩ := hrip
  have hmemory : memoryTargetVa instr 64 = some ((instr.nextIp + signExtend32 instr.ipRelMemoryAddress) % 2 ^ 64) := by
    rw [memoryTargetVa, if_pos ⟨hbase, hindex, rfl⟩, hdisplacement]
  have hrelative : ripRelativeTargetVa instr 64 = some instr.ipRelMemoryAddress := by
    simp [ripRelativeTargetVa, hbase, hindex]
  rw [hmemory, hrelative, Option.some.injEq]
  have hlow : instr.ipRelMemoryAddress % 2 ^ 32 = (instr.nextIp + d) % 2 ^ 32 := by
    have hmod := signExtend32_mod d
    omega
  rw [signExtend32_congr hlow]
  constructor
  · intro h
    have hlt := signExtend32_lt (instr.nextIp + d)
    have hlt' := signExtend32_lt d
    have hsame : signExtend32 (instr.nextIp + d) = signExtend32 d := by omega
    have hmod := signExtend32_mod (instr.nextIp + d)
    have hmod' := signExtend32_mod d
    omega
  · intro h
    rw [@signExtend32_congr (instr.nextIp + d) d (by omega), haddress]

/-! ## Names -/

theorem apiName_eq_some {sym : Symbol} {api : String} :
    apiName sym = some api ↔ sym.kind = .import ∧ sym.name = "__imp_" ++ api ∧ api ≠ "" := by
  unfold apiName
  by_cases hkind : sym.kind = .import
  · rw [if_neg (by simp [hkind])]
    constructor
    · intro h
      split at h
      · next hprefix =>
        obtain ⟨rest, hrest⟩ := List.isPrefixOf_iff_prefix.mp hprefix
        dsimp only at h
        rw [← hrest, List.drop_left] at h
        split at h
        · cases h
        · next hne =>
          obtain rfl := Option.some.inj h
          refine ⟨hkind, ?_, hne⟩
          calc sym.name = String.ofList sym.name.toList := String.ofList_toList.symm
            _ = "__imp_" ++ String.ofList rest := by rw [← hrest, String.ofList_append, String.ofList_toList]
      · cases h
    · rintro ⟨-, hname, hne⟩
      have hlist : sym.name.toList = "__imp_".toList ++ api.toList := by rw [hname, String.toList_append]
      have hprefix : "__imp_".toList.isPrefixOf sym.name.toList = true :=
        List.isPrefixOf_iff_prefix.mpr ⟨api.toList, hlist.symm⟩
      rw [if_pos hprefix]
      dsimp only
      rw [hlist, List.drop_left, String.ofList_toList, if_neg hne]
  · rw [if_pos hkind]
    simp [hkind]

section Exactness
variable (atVa : Nat → Option Instruction) (symbols : Nat → Option Symbol)

/-- The name of the import whose slot is at the address. -/
def importAt (va : Nat) : Option String := (symbols va).bind apiName

/-- The function is one block with this one instruction, a jump through memory. -/
def SingleJump (func : Function) (instr : Instruction) : Prop :=
  (∃ block, func.blocks = [block] ∧ block.instrCount = 1) ∧ atVa func.entryVa = some instr ∧
    instr.mnemonic = .jmp ∧ instr.op0Kind = .memory

/-- The function is `jmp [rip+d]`, and the operand is the slot of the import. -/
def ForwardsTo (func : Function) (api : String) : Prop :=
  ∃ instr, SingleJump atVa func instr ∧ RipRelative instr ∧ api ≠ "" ∧
    ∃ sym, symbols instr.ipRelMemoryAddress = some sym ∧ sym.kind = .import ∧ sym.name = "__imp_" ++ api

/-- The renames of a 64-bit image are those of its import thunks. -/
def RenamesExact (functions : FunctionTable) : Prop :=
  ∀ va api, (∃ rename ∈ findThunkRenames atVa symbols 64 functions, rename.thunkVa = va ∧ rename.apiName = api) ↔
    ∃ func ∈ functions, func.entryVa = va ∧ ForwardsTo atVa symbols func api

def AddressesAgree : Prop :=
  ∀ va instr, atVa va = some instr → RipRelative instr → memoryTargetVa instr 64 = ripRelativeTargetVa instr 64

/-- The lookup of a thunk at the computed address comes to the name at the right one, and
there is no import at the displacement of a jump without registers. -/
def LookupsRight (functions : FunctionTable) : Prop :=
  ∀ func ∈ functions, ∀ instr, SingleJump atVa func instr →
    (RipRelative instr → importAt symbols ((instr.nextIp + signExtend32 instr.ipRelMemoryAddress) % 2 ^ 64) =
      importAt symbols instr.ipRelMemoryAddress) ∧
    (instr.memoryBase = .none → instr.memoryIndex = .none → importAt symbols instr.memoryDisplacement64 = none)

variable {atVa symbols} {functions : FunctionTable}

/-- What a rename says of its function. -/
theorem thunkRename_eq_some {func : Function} {rename : ThunkRename} :
    thunkRename atVa symbols 64 func = some rename ↔ rename.thunkVa = func.entryVa ∧ ∃ instr, SingleJump atVa func instr ∧
      memoryTargetVa instr 64 = some rename.slotVa ∧ importAt symbols rename.slotVa = some rename.apiName := by
  constructor
  · intro h
    unfold thunkRename at h
    split at h
    · next block hblocks =>
      split at h
      · cases h
      · next hcount =>
        obtain ⟨instr, hat, h⟩ := Option.bind_eq_some_iff.mp h
        split at h
        · cases h
        · next hjmp =>
          split at h
          · cases h
          · next hmemory =>
            obtain ⟨slotVa, hslot, h⟩ := Option.bind_eq_some_iff.mp h
            obtain ⟨sym, hsym, h⟩ := Option.bind_eq_some_iff.mp h
            obtain ⟨api, hapi, h⟩ := Option.bind_eq_some_iff.mp h
            obtain rfl := Option.some.inj h
            exact ⟨rfl, instr, ⟨⟨block, hblocks, not_not.mp hcount⟩, hat, not_not.mp hjmp, not_not.mp hmemory⟩, hslot,
              Option.bind_eq_some_iff.mpr ⟨sym, hsym, hapi⟩⟩
    · cases h
  · obtain ⟨thunkVa, api, slotVa⟩ := rename
    rintro ⟨rfl, instr, ⟨⟨block, hblocks, hcount⟩, hat, hjmp, hmemory⟩, hslot, hname⟩
    obtain ⟨sym, hsym, hapi⟩ := Option.bind_eq_some_iff.mp hname
    dsimp only at hslot hsym hapi
    simp [thunkRename, hblocks, hcount, hat, hjmp, hmemory, hslot, hsym, hapi]

/-- The name that a function gets. -/
theorem named_iff {func : Function} {api : String} :
    (∃ rename, thunkRename atVa symbols 64 func = some rename ∧ rename.apiName = api) ↔
      ∃ instr slotVa, SingleJump atVa func instr ∧ memoryTargetVa instr 64 = some slotVa ∧ importAt symbols slotVa = some api := by
  constructor
  · rintro ⟨rename, hrename, rfl⟩
    obtain ⟨-, instr, hjump, hslot, hname⟩ := thunkRename_eq_some.mp hrename
    exact ⟨instr, rename.slotVa, hjump, hslot, hname⟩
  · rintro ⟨instr, slotVa, hjump, hslot, hname⟩
    exact ⟨⟨func.entryVa, api, slotVa⟩, thunkRename_eq_some.mpr ⟨rfl, instr, hjump, hslot, hname⟩, rfl⟩

theorem forwardsTo_iff {func : Function} {api : String} : ForwardsTo atVa symbols func api ↔
    ∃ instr, SingleJump atVa func instr ∧ RipRelative instr ∧ importAt symbols instr.ipRelMemoryAddress = some api := by
  unfold ForwardsTo importAt
  refine exists_congr fun instr => and_congr_right fun _ => and_congr_right fun _ => ?_
  rw [Option.bind_eq_some_iff]
  constructor
  · rintro ⟨hne, sym, hsym, hkind, hname⟩
    exact ⟨sym, hsym, apiName_eq_some.mpr ⟨hkind, hname, hne⟩⟩
  · rintro ⟨sym, hsym, hname⟩
    obtain ⟨hkind, hname, hne⟩ := apiName_eq_some.mp hname
    exact ⟨hne, sym, hsym, hkind, hname⟩

/-- Function by function, as the entries differ. -/
theorem renamesExact_iff_each (hordered : KeyedList.Ordered Function.entryVa functions) :
    RenamesExact atVa symbols functions ↔ ∀ func ∈ functions, ∀ api,
      (∃ rename, thunkRename atVa symbols 64 func = some rename ∧ rename.apiName = api) ↔ ForwardsTo atVa symbols func api := by
  have hunique : ∀ func ∈ functions, ∀ other ∈ functions, other.entryVa = func.entryVa → other = func := by
    intro func hfunc other hother heq
    have hget := KeyedList.get_of_mem hordered hother
    rw [heq, KeyedList.get_of_mem hordered hfunc] at hget
    exact (Option.some.inj hget).symm
  constructor
  · intro h func hfunc api
    constructor
    · rintro ⟨rename, hrename, hname⟩
      obtain ⟨other, hother, heq, hforwards⟩ := (h func.entryVa api).mp
        ⟨rename, List.mem_filterMap.mpr ⟨func, hfunc, hrename⟩, (thunkRename_eq_some.mp hrename).1, hname⟩
      rwa [hunique func hfunc other hother heq] at hforwards
    · intro hforwards
      obtain ⟨rename, hmem, hva, hname⟩ := (h func.entryVa api).mpr ⟨func, hfunc, rfl, hforwards⟩
      obtain ⟨other, hother, hrename⟩ := List.mem_filterMap.mp hmem
      rw [(thunkRename_eq_some.mp hrename).1] at hva
      rw [hunique func hfunc other hother hva] at hrename
      exact ⟨rename, hrename, hname⟩
  · intro h va api
    constructor
    · rintro ⟨rename, hmem, rfl, hname⟩
      obtain ⟨func, hfunc, hrename⟩ := List.mem_filterMap.mp hmem
      exact ⟨func, hfunc, (thunkRename_eq_some.mp hrename).1.symm, (h func hfunc api).mp ⟨rename, hrename, hname⟩⟩
    · rintro ⟨func, hfunc, rfl, hforwards⟩
      obtain ⟨rename, hrename, hname⟩ := (h func hfunc api).mpr hforwards
      exact ⟨rename, List.mem_filterMap.mpr ⟨func, hfunc, hrename⟩, (thunkRename_eq_some.mp hrename).1, hname⟩

theorem renamesExact_iff (hordered : KeyedList.Ordered Function.entryVa functions)
    (hdocumented : ∀ va instr, atVa va = some instr → Documented instr) :
    RenamesExact atVa symbols functions ↔ LookupsRight atVa symbols functions := by
  rw [renamesExact_iff_each hordered]
  constructor
  · intro h func hfunc instr hjump
    have heach := fun api => (named_iff.symm.trans (h func hfunc api)).trans forwardsTo_iff
    have hone : ∀ other, SingleJump atVa func other → other = instr := fun other hother =>
      Option.some.inj (hother.2.1.symm.trans hjump.2.1)
    constructor
    · intro hrip
      obtain ⟨hdisplacement, -⟩ := (hdocumented _ _ hjump.2.1).2 hrip
      apply Option.ext
      intro api
      have htarget : memoryTargetVa instr 64 =
          some ((instr.nextIp + signExtend32 instr.ipRelMemoryAddress) % 2 ^ 64) := by
        rw [memoryTargetVa, if_pos ⟨hrip.1, hrip.2, rfl⟩, hdisplacement]
      constructor
      · intro hname
        obtain ⟨other, hother, -, hname'⟩ := (heach api).mp ⟨instr, _, hjump, htarget, hname⟩
        rwa [hone other hother] at hname'
      · intro hname
        obtain ⟨other, slotVa, hother, hslot, hname'⟩ := (heach api).mpr ⟨instr, hjump, hrip, hname⟩
        rw [hone other hother, htarget] at hslot
        rwa [← Option.some.inj hslot] at hname'
    · intro hbase hindex
      apply Option.eq_none_iff_forall_ne_some.mpr
      intro api hname
      have htarget : memoryTargetVa instr 64 = some instr.memoryDisplacement64 := by
        simp [memoryTargetVa, hbase, hindex]
      obtain ⟨other, hother, hrip, -⟩ := (heach api).mp ⟨instr, _, hjump, htarget, hname⟩
      rw [hone other hother] at hrip
      exact absurd (hbase.symm.trans hrip.1) (by decide)
  · intro h func hfunc api
    rw [named_iff, forwardsTo_iff]
    constructor
    · rintro ⟨instr, slotVa, hjump, hslot, hname⟩
      obtain ⟨hrelative, habsolute⟩ := h func hfunc instr hjump
      unfold memoryTargetVa at hslot
      split at hslot
      · next hrip =>
        have hrip' : RipRelative instr := ⟨hrip.1, hrip.2.1⟩
        obtain ⟨hdisplacement, -⟩ := (hdocumented _ _ hjump.2.1).2 hrip'
        obtain rfl := Option.some.inj hslot
        rw [hdisplacement, hrelative hrip'] at hname
        exact ⟨instr, hjump, hrip', hname⟩
      · split at hslot
        · next hnone =>
          obtain rfl := Option.some.inj hslot
          rw [habsolute hnone.1 hnone.2] at hname
          cases hname
        · cases hslot
    · rintro ⟨instr, hjump, hrip, hname⟩
      obtain ⟨hdisplacement, -⟩ := (hdocumented _ _ hjump.2.1).2 hrip
      rw [← (h func hfunc instr hjump).1 hrip] at hname
      refine ⟨instr, _, hjump, ?_, hname⟩
      rw [memoryTargetVa, if_pos ⟨hrip.1, hrip.2, rfl⟩, hdisplacement]

theorem addressesAgree_iff (hdocumented : ∀ va instr, atVa va = some instr → Documented instr) :
    AddressesAgree atVa ↔ ∀ va instr, atVa va = some instr → RipRelative instr → instr.nextIp % 2 ^ 32 = 0 := by
  refine forall_congr' fun va => forall_congr' fun instr => forall_congr' fun hat => forall_congr' fun hrip => ?_
  exact memoryTargetVa_eq_iff (hdocumented va instr hat) hrip

theorem findThunkRenames_iff (hordered : KeyedList.Ordered Function.entryVa functions)
    (hdocumented : ∀ va instr, atVa va = some instr → Documented instr) :
    RenamesExact atVa symbols functions ∧ AddressesAgree atVa ↔
      LookupsRight atVa symbols functions ∧
        ∀ va instr, atVa va = some instr → RipRelative instr → instr.nextIp % 2 ^ 32 = 0 := by
  rw [renamesExact_iff hordered hdocumented, addressesAgree_iff hdocumented]

end Exactness

/-- `jmp [rip+20h]` in front of an address. -/
def jumpBefore (nextIp : Nat) : Instruction where
  mnemonic := .jmp
  op0Kind := .memory
  memoryBase := .rip
  memoryIndex := .none
  nextIp := nextIp
  memoryDisplacement64 := nextIp + 0x20
  ipRelMemoryAddress := nextIp + 0x20

/-- A function of this one instruction. -/
def thunkBefore (nextIp : Nat) : Function where
  entryVa := nextIp - 6
  blocks := [⟨nextIp - 6, nextIp - 6, 1, [], []⟩]
  stackFrame := none
  signature := none

def codeBefore (nextIp va : Nat) : Option Instruction := if va = nextIp - 6 then some (jumpBefore nextIp) else none

def slotBehind (nextIp va : Nat) : Option Symbol := if va = nextIp + 0x20 then some ⟨"__imp_Sleep", .import⟩ else none

theorem codeBefore_eq_some {nextIp va : Nat} {instr : Instruction} (h : codeBefore nextIp va = some instr) :
    instr = jumpBefore nextIp := by
  unfold codeBefore at h
  split at h
  · exact (Option.some.inj h).symm
  · cases h

theorem documented_jumpBefore {nextIp : Nat} (h : nextIp + 0x20 < 2 ^ 64) : Documented (jumpBefore nextIp) := by
  refine ⟨by show nextIp < 2 ^ 64; omega, fun _ => ⟨rfl, 0x20, by decide, ?_⟩⟩
  exact (Nat.mod_eq_of_lt h).symm

/-- With the code up to a multiple of 2^32. -/
theorem findThunkRenames_below : RenamesExact (codeBefore 0x100000000) (slotBehind 0x100000000) [thunkBefore 0x100000000] ∧
    AddressesAgree (codeBefore 0x100000000) := by
  have hdocumented : ∀ va instr, codeBefore 0x100000000 va = some instr → Documented instr := by
    intro va instr h
    rw [codeBefore_eq_some h]
    exact documented_jumpBefore (by decide)
  refine (findThunkRenames_iff (List.pairwise_singleton _ _) hdocumented).mpr ⟨?_, ?_⟩
  · intro func _ instr hjump
    rw [codeBefore_eq_some hjump.2.1]
    refine ⟨fun _ => by decide, fun hbase => ?_⟩
    cases hbase
  · intro va instr h _
    rw [codeBefore_eq_some h]
    decide

/-- In an image at 180000000h the slot is looked up at 10000202Ch. -/
theorem findThunkRenames_misses :
    memoryTargetVa (jumpBefore 0x180001006) 64 = some 0x10000202C ∧
    ripRelativeTargetVa (jumpBefore 0x180001006) 64 = some 0x180001026 ∧
    findThunkRenames (codeBefore 0x180001006) (slotBehind 0x180001006) 64 [thunkBefore 0x180001006] = [] ∧
    ¬(RenamesExact (codeBefore 0x180001006) (slotBehind 0x180001006) [thunkBefore 0x180001006] ∧
      AddressesAgree (codeBefore 0x180001006)) := by
  have hnone : findThunkRenames (codeBefore 0x180001006) (slotBehind 0x180001006) 64 [thunkBefore 0x180001006] = [] := by
    decide
  refine ⟨by decide, by decide, hnone, fun hexact => ?_⟩
  have hforwards : ForwardsTo (codeBefore 0x180001006) (slotBehind 0x180001006) (thunkBefore 0x180001006) "Sleep" :=
    ⟨jumpBefore 0x180001006, ⟨⟨_, rfl, rfl⟩, by decide, rfl, rfl⟩, ⟨rfl, rfl⟩, by decide, ⟨"__imp_Sleep", .import⟩,
      by decide, rfl, by decide⟩
  obtain ⟨rename, hmem, -⟩ := (hexact.1 _ "Sleep").mpr ⟨_, List.mem_cons_self, rfl, hforwards⟩
  rw [hnone] at hmem
  cases hmem

end Windy.Thunks
