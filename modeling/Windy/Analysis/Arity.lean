import Windy.Analysis.CodeIndex
import Windy.Project.State

/- Arities of x64 functions from their first instructions (`analysis/signatures.rs`,
   `recover_x64_signature`).

   At most 24 instructions are scanned, up to the first that is not followed by the next
   one. Each register they use is a parameter if it is read before it is written, in the order
   in which the disassembler lists the uses. A use that reads and writes counts as a write.

   What is proved: a signature has a parameter for every argument register that is live at the
   entry, and for those before it, exactly when more registers than its rank are read first
   (`coversLiveIn_iff`).

   Correspondence:
     `recover_x64_signature` ↔ `recoverX64Signature` (its loops are `scan`, `useRegister`)
     `is_read`, `is_write`, `full_gpr`, `name_hint` ↔ the same
     `WIN64_GPR_ARGUMENT_BASES` ↔ `win64GprArgumentBases`
   The uses that the disassembler lists are a parameter, `usedRegisters`. -/
namespace Windy.Arity

/-! ## The scan -/

inductive OpAccess where
  | none
  | read
  | condRead
  | write
  | condWrite
  | readWrite
  | readCondWrite
  | noMemAccess
  deriving DecidableEq

inductive Reg where
  | rcx | ecx | cx | cl | ch
  | rdx | edx | dx | dl | dh
  | r8 | r8d | r8w | r8l
  | r9 | r9d | r9w | r9l
  | xmm0 | xmm1 | xmm2 | xmm3
  | other
  deriving DecidableEq

def isRead : OpAccess → Bool
  | .read | .condRead | .readWrite | .readCondWrite => true
  | _ => false

def isWrite : OpAccess → Bool
  | .write | .condWrite | .readWrite | .readCondWrite => true
  | _ => false

def fullGpr : Reg → Reg
  | .ecx | .cx | .cl | .ch => .rcx
  | .edx | .dx | .dl | .dh => .rdx
  | .r8d | .r8w | .r8l => .r8
  | .r9d | .r9w | .r9l => .r9
  | r => r

def maxEntryScanInstructions : Nat := 24

def paramRegs : List Reg := [.rcx, .rdx, .r8, .r9, .xmm0, .xmm1, .xmm2, .xmm3]

structure Found where
  params : List (String × DataType)
  killed : List Reg

/-- `format!("arg{}", …)` -/
def argName (n : Nat) : String := "arg" ++ toString n

def useRegister (found : Found) (ur : Reg × OpAccess) : Found :=
  let r := fullGpr ur.1
  if r ∉ paramRegs then found
  else if isWrite ur.2 then { found with killed := r :: found.killed }
  else if isRead ur.2 && r ∉ found.killed then
    ⟨found.params ++ [(argName (found.params.length + 1), .unknown 64)], r :: found.killed⟩
  else found

def nameHint (name : String) : String := if name = "" then "sub" else name

section Scan
variable (usedRegisters : DecodedInstr → List (Reg × OpAccess)) (code : CodeIndex)

/-- So many more instructions. Where there is none, there is no signature. -/
def scan : Nat → Nat → Found → Option Found
  | 0, _, found => some found
  | rounds + 1, va, found =>
    match code.atVa va with
    | none => none
    | some d =>
      let found := (usedRegisters d).foldl useRegister found
      match d.flowControl with
      | .next => scan rounds d.nextIp found
      | _ => some found

def recoverX64Signature (entryVa : Nat) (name : String) : Option FunctionSignature :=
  (scan usedRegisters code maxEntryScanInstructions entryVa ⟨[], []⟩).map fun found =>
    { name := nameHint name, params := found.params, ret := .void, callingConv := some "fastcall" }

end Scan

/-- The registers of the arguments as the lifter numbers them. -/
def win64GprArgumentBases : List Nat := [0x08, 0x10, 0x80, 0x88]

/-! ## What is live at the entry -/

/-- The argument registers, by rank. -/
def argumentRegisters : List Reg := [.rcx, .rdx, .r8, .r9]

section Spec
variable (usedRegisters : DecodedInstr → List (Reg × OpAccess)) (code : CodeIndex)

/-- The scanned instructions, if the code goes on as far as it is scanned. -/
def scannedFrom : Nat → Nat → Option (List DecodedInstr)
  | 0, _ => some []
  | rounds + 1, va =>
    match code.atVa va with
    | none => none
    | some d =>
      match d.flowControl with
      | .next => (scannedFrom rounds d.nextIp).map (d :: ·)
      | _ => some [d]

/-- An instruction reads the register, and none before writes it. -/
def LiveIn (ds : List DecodedInstr) (p : Reg) : Prop :=
  ∃ before d after, ds = before ++ d :: after ∧ (∃ ur ∈ usedRegisters d, fullGpr ur.1 = p ∧ isRead ur.2 = true) ∧
    ∀ d' ∈ before, ∀ ur ∈ usedRegisters d', fullGpr ur.1 = p → isWrite ur.2 = false

/-- A signature has parameters up to the rank of every register that is live, and the inputs
of a call have the register. -/
def CoversLiveIn (entryVa : Nat) (name : String) : Prop :=
  ∀ ds signature, scannedFrom code maxEntryScanInstructions entryVa = some ds →
    recoverX64Signature usedRegisters code entryVa name = some signature →
    ∀ rank p, argumentRegisters[rank]? = some p → LiveIn usedRegisters ds p →
      rank + 1 ≤ signature.params.length ∧
        ∃ base ∈ win64GprArgumentBases.take signature.params.length, win64GprArgumentBases[rank]? = some base

end Spec

/-- The first use of a register that reads or writes it only reads it. -/
def readFirst (uses : List (Reg × OpAccess)) (p : Reg) : Bool :=
  (uses.find? fun ur => fullGpr ur.1 = p && (isRead ur.2 || isWrite ur.2)).any fun ur => !isWrite ur.2

/-- The registers that are read first, in this order. -/
def readFirstRegs (usedRegisters : DecodedInstr → List (Reg × OpAccess)) (ds : List DecodedInstr) : List Reg :=
  paramRegs.filter (readFirst (ds.flatMap usedRegisters))

/-! ## The parameters -/

section Params

theorem readFirst_cons (ur : Reg × OpAccess) (uses : List (Reg × OpAccess)) (p : Reg) : readFirst (ur :: uses) p =
    if fullGpr ur.1 = p ∧ (isRead ur.2 = true ∨ isWrite ur.2 = true) then !isWrite ur.2 else readFirst uses p := by
  rw [readFirst, List.find?_cons]
  by_cases h : fullGpr ur.1 = p ∧ (isRead ur.2 = true ∨ isWrite ur.2 = true)
  · have huse : (isRead ur.2 || isWrite ur.2) = true := by simpa using h.2
    rw [if_pos h]
    simp [h.1, huse]
  · rw [if_neg h]
    have hskip : (fullGpr ur.1 = p && (isRead ur.2 || isWrite ur.2)) = false := by
      simpa using h
    rw [hskip, readFirst]

/-- The registers that are still to be counted. -/
def toCount (uses : List (Reg × OpAccess)) (killed : List Reg) : Finset Reg :=
  paramRegs.toFinset.filter fun p => p ∉ killed ∧ readFirst uses p = true

theorem mem_toCount {uses : List (Reg × OpAccess)} {killed : List Reg} {p : Reg} :
    p ∈ toCount uses killed ↔ p ∈ paramRegs ∧ p ∉ killed ∧ readFirst uses p = true := by
  simp [toCount]

theorem params_length (uses : List (Reg × OpAccess)) (found : Found) :
    (uses.foldl useRegister found).params.length = found.params.length + (toCount uses found.killed).card := by
  induction uses generalizing found with
  | nil =>
    have hnone : toCount [] found.killed = ∅ := Finset.filter_eq_empty_iff.mpr fun p _ h => by cases h.2
    rw [List.foldl_nil, hnone, Finset.card_empty, Nat.add_zero]
  | cons ur uses ih =>
    rw [List.foldl_cons, ih, useRegister]
    -- The use counts a register, ends its count, or changes nothing.
    by_cases hparam : fullGpr ur.1 ∈ paramRegs
    · rw [if_neg (not_not.mpr hparam)]
      by_cases hwrite : isWrite ur.2 = true
      · rw [if_pos hwrite]
        congr 2
        ext p
        rw [mem_toCount, mem_toCount, readFirst_cons, List.mem_cons]
        by_cases hp : fullGpr ur.1 = p
        · simp [hp, hwrite]
        · simp [hp, Ne.symm hp]
      · rw [if_neg hwrite]
        by_cases hread : isRead ur.2 = true ∧ fullGpr ur.1 ∉ found.killed
        · rw [if_pos (by simpa using hread)]
          have hinsert : toCount (ur :: uses) found.killed = insert (fullGpr ur.1) (toCount uses (fullGpr ur.1 :: found.killed)) := by
            ext p
            rw [Finset.mem_insert, mem_toCount, mem_toCount, readFirst_cons, List.mem_cons]
            by_cases hp : fullGpr ur.1 = p
            · subst hp
              simp [hparam, hread.1, hread.2, hwrite]
            · simp [hp, Ne.symm hp]
          have hnew : fullGpr ur.1 ∉ toCount uses (fullGpr ur.1 :: found.killed) := by
            simp [mem_toCount]
          rw [hinsert, Finset.card_insert_of_notMem hnew, List.length_append, List.length_singleton, Nat.add_assoc,
            Nat.add_comm 1]
        · rw [if_neg (by simpa using hread)]
          congr 2
          ext p
          rw [mem_toCount, mem_toCount, readFirst_cons]
          by_cases hp : fullGpr ur.1 = p ∧ (isRead ur.2 = true ∨ isWrite ur.2 = true)
          · obtain ⟨rfl, huse⟩ := hp
            have hkilled : fullGpr ur.1 ∈ found.killed := by
              by_contra hnot
              exact hread ⟨huse.resolve_right hwrite, hnot⟩
            simp [hkilled]
          · rw [if_neg hp]
    · rw [if_pos hparam]
      congr 2
      ext p
      rw [mem_toCount, mem_toCount, readFirst_cons]
      by_cases hp : fullGpr ur.1 = p
      · subst hp
        simp [hparam]
      · simp [hp]

theorem params_length_start (uses : List (Reg × OpAccess)) :
    (uses.foldl useRegister ⟨[], []⟩).params.length = (paramRegs.filter (readFirst uses)).length := by
  have hset : toCount uses [] = (paramRegs.filter (readFirst uses)).toFinset := by
    ext p
    simp [mem_toCount]
  have hnodup : paramRegs.Nodup := by decide
  rw [params_length, hset, List.toFinset_card_of_nodup (hnodup.filter _)]
  exact Nat.zero_add _

end Params

section Scanned
variable {usedRegisters : DecodedInstr → List (Reg × OpAccess)} {code : CodeIndex}

/-- The scan uses the registers of the scanned instructions, one after the other. -/
theorem scan_eq (rounds va : Nat) (found : Found) : scan usedRegisters code rounds va found =
    (scannedFrom code rounds va).map fun ds => (ds.flatMap usedRegisters).foldl useRegister found := by
  induction rounds generalizing va found with
  | zero => rfl
  | succ rounds ih =>
    rw [scan, scannedFrom]
    cases code.atVa va with
    | none => rfl
    | some d =>
      cases hflow : d.flowControl
      case next =>
        simp only [hflow, ih, Option.map_map]
        congr 1
        funext ds
        simp [List.flatMap_cons, List.foldl_append]
      all_goals simp [hflow, List.flatMap_cons]

theorem params_of_recover {entryVa : Nat} {name : String} {ds : List DecodedInstr}
    (hds : scannedFrom code maxEntryScanInstructions entryVa = some ds) :
    ∃ signature, recoverX64Signature usedRegisters code entryVa name = some signature ∧
      signature.params.length = (readFirstRegs usedRegisters ds).length := by
  rw [recoverX64Signature, scan_eq, hds]
  exact ⟨_, rfl, params_length_start _⟩

end Scanned

/-- Every live register has its parameter if more registers than its rank are read first. -/
theorem coversLiveIn_iff (usedRegisters : DecodedInstr → List (Reg × OpAccess)) (code : CodeIndex) (entryVa : Nat) (name : String) :
    CoversLiveIn usedRegisters code entryVa name ↔
      ∀ ds, scannedFrom code maxEntryScanInstructions entryVa = some ds →
        ∀ rank p, argumentRegisters[rank]? = some p → LiveIn usedRegisters ds p →
          rank < (readFirstRegs usedRegisters ds).length := by
  constructor
  · intro h ds hds rank p hrank hlive
    obtain ⟨signature, hsignature, hlength⟩ := @params_of_recover usedRegisters code entryVa name ds hds
    rw [← hlength]
    exact (h ds signature hds hsignature rank p hrank hlive).1
  · intro h ds signature hds hsignature rank p hrank hlive
    obtain ⟨signature', hsignature', hlength⟩ := @params_of_recover usedRegisters code entryVa name ds hds
    obtain rfl := Option.some.inj (hsignature.symm.trans hsignature')
    have hlt := h ds hds rank p hrank hlive
    rw [← hlength] at hlt
    have hbase : rank < win64GprArgumentBases.length := (List.getElem?_eq_some_iff.mp hrank).1
    refine ⟨hlt, win64GprArgumentBases[rank], ?_, List.getElem?_eq_getElem hbase⟩
    exact @List.mem_of_getElem? _ _ rank _ (by rw [List.getElem?_take_of_lt hlt, List.getElem?_eq_getElem hbase])

/-! ## A second argument alone -/

/-- An instruction of four bytes. -/
def plainInstr (ip : Nat) (flow : FlowControl) (h : ip + 4 < 2 ^ 64) : DecodedInstr :=
  ⟨ip, 4, [], flow, 0, [], [], .none, .none, 0, Nat.succ_pos 3, h⟩

/-- An instruction and a return. -/
def useThenReturn : CodeIndex := .ofList [plainInstr 0x1000 .next (by decide), plainInstr 0x1004 .ret (by decide)]

/-- The registers of the first instruction, and none of the return. -/
def firstUses (uses : List (Reg × OpAccess)) (d : DecodedInstr) : List (Reg × OpAccess) := if d.ip = 0x1000 then uses else []

/-- A signature for RDX alone has one parameter, and one for `add rcx, 1` has none. -/
theorem second_not_covered : ¬ CoversLiveIn (firstUses [(.rdx, .read)]) useThenReturn 0x1000 "f" ∧
    ¬ CoversLiveIn (firstUses [(.rcx, .readWrite)]) useThenReturn 0x1000 "f" := by
  constructor
  · intro h
    refine absurd (h _ _ rfl rfl 1 .rdx rfl ⟨[], _, _, rfl, ⟨(.rdx, .read), ?_, rfl, rfl⟩, ?_⟩).1 (by decide)
    · exact List.mem_singleton_self _
    · exact fun d hd => absurd hd List.not_mem_nil
  · intro h
    refine absurd (h _ _ rfl rfl 0 .rcx rfl ⟨[], _, _, rfl, ⟨(.rcx, .readWrite), ?_, rfl, rfl⟩, ?_⟩).1 (by decide)
    · exact List.mem_singleton_self _
    · exact fun d hd => absurd hd List.not_mem_nil

end Windy.Arity
