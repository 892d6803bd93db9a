import Mathlib

/- The decoded code of an image (`analysis/code_index.rs`) and its sections
   (`loader/address_space.rs`).

   The index is the list of all decoded instructions with a binary search over their
   addresses. Of the search only what the library promises is used: a position it returns
   holds the address that was looked for. Sections may overlap, so the list need not be
   sorted, and then the search may miss.

   An instruction has at least one byte (the sweep stops at a length of zero) and ends
   below the top of the address space. What the disassembler says of it (its flow, its
   target, its operands) is part of its record.

   Correspondence:
     `CodeIndex::at_va`, `window` ↔ the same
       (`sweep` for `at_va` with `next_ip`, over and over)
     `DecodedInstr::next_ip` ↔ the same
     `AddressSpace::is_executable_va`, `is_data_va`, `slice_for_va` ↔
       `AddressSpace.isExecutableVa`, `isDataVa`, `sliceForVa` -/
namespace Windy

inductive FlowControl where
  | next
  | unconditionalBranch
  | indirectBranch
  | conditionalBranch
  | ret
  | call
  | indirectCall
  | interrupt
  | xbeginXabortXend
  | exception
  deriving DecidableEq, Repr

inductive OpKind where
  | immediate8
  | immediate8to16
  | immediate8to32
  | immediate8to64
  | immediate16
  | immediate32
  | immediate32to64
  | immediate64
  | other
  deriving DecidableEq, Repr

inductive Register where
  | none
  | rip
  | eip
  | other
  deriving DecidableEq, Repr

structure UsedMemory where
  base : Register
  index : Register
  displacement : Nat
  deriving Repr

/-- One decoded instruction with what the disassembler reports of it. -/
structure DecodedInstr where
  ip : Nat
  len : Nat
  bytes : List Nat
  flowControl : FlowControl
  nearBranchTarget : Nat
  /-- The kind of each operand, with `immediate(i)`. -/
  operands : List (OpKind × Nat)
  usedMemory : List UsedMemory
  memoryBase : Register
  memoryIndex : Register
  ipRelMemoryAddress : Nat
  len_pos : 0 < len
  end_lt : ip + len < 2 ^ 64

namespace DecodedInstr

/-- `next_ip`. -/
def nextIp (d : DecodedInstr) : Nat := d.ip + d.len

theorem ip_lt_nextIp (d : DecodedInstr) : d.ip < d.nextIp := Nat.lt_add_of_pos_right d.len_pos

/-- `dec.len == 1 && dec.bytes_slice() == [0xcc]`. -/
def isInt3 (d : DecodedInstr) : Bool := d.len = 1 && d.bytes.take d.len = [0xcc]

end DecodedInstr

structure CodeIndex where
  instrs : List DecodedInstr
  /-- `binary_search_by_key` for an address: its position, or where it would stand. -/
  search : Nat → Except Nat Nat
  search_ok : ∀ va i, search va = .ok i → (instrs[i]?).map DecodedInstr.ip = some va

namespace CodeIndex

variable (code : CodeIndex)

/-- `at_va`. -/
def atVa (va : Nat) : Option DecodedInstr :=
  match code.search va with
  | .ok i => code.instrs[i]?
  | .error _ => none

/-- `window`: from the last instruction at or before the address. -/
def window (va count : Nat) : List DecodedInstr :=
  let idx := match code.search va with
    | .ok i => i
    | .error i => i - 1
  (code.instrs.drop idx).take count

variable {code} {d : DecodedInstr}

theorem atVa_ip {va : Nat} (h : code.atVa va = some d) : d.ip = va := by
  unfold atVa at h
  split at h
  · next i hi => simpa [h] using code.search_ok va i hi
  · cases h

theorem atVa_mem {va : Nat} (h : code.atVa va = some d) : d ∈ code.instrs := by
  unfold atVa at h
  split at h
  · exact List.mem_of_getElem? h
  · cases h

variable (code) in
/-- The instructions that follow each other from an address on, at most this many. -/
def sweep : Nat → Nat → List DecodedInstr
  | _, 0 => []
  | va, n + 1 =>
    match code.atVa va with
    | none => []
    | some d => d :: sweep d.nextIp n

theorem sweep_none {va : Nat} (h : code.atVa va = none) (n : Nat) : code.sweep va (n + 1) = [] := by
  simp [sweep, h]

theorem sweep_succ {va : Nat} (h : code.atVa va = some d) (n : Nat) :
    code.sweep va (n + 1) = d :: code.sweep d.nextIp n := by
  simp [sweep, h]

/-- What a sweep holds lies at or behind its start, and the index has it. -/
theorem mem_sweep {va n : Nat} (h : d ∈ code.sweep va n) : va ≤ d.ip ∧ code.atVa d.ip = some d := by
  induction n generalizing va with
  | zero => cases h
  | succ n ih =>
    cases hfirst : code.atVa va with
    | none =>
      rw [sweep_none hfirst] at h
      cases h
    | some first =>
      rw [sweep_succ hfirst] at h
      have hip : first.ip = va := atVa_ip hfirst
      rcases List.mem_cons.mp h with rfl | hrest
      · exact ⟨Nat.le_of_eq hip.symm, by rw [hip]; exact hfirst⟩
      · have hlt := first.ip_lt_nextIp
        obtain ⟨hle, hat⟩ := ih hrest
        exact ⟨by omega, hat⟩

/-- A sweep that holds something starts at an instruction. -/
theorem atVa_isSome_of_mem_sweep {va n : Nat} (h : d ∈ code.sweep va n) : (code.atVa va).isSome := by
  cases n with
  | zero => cases h
  | succ n =>
    cases hat : code.atVa va with
    | none =>
      rw [sweep_none hat] at h
      cases h
    | some first => rfl

/-- The addresses of a sweep ascend. -/
theorem sweep_pairwise (va n : Nat) : (code.sweep va n).Pairwise fun a b => a.ip < b.ip := by
  induction n generalizing va with
  | zero => exact List.Pairwise.nil
  | succ n ih =>
    cases hd : code.atVa va with
    | none =>
      rw [sweep_none hd]
      exact List.Pairwise.nil
    | some d =>
      rw [sweep_succ hd]
      refine List.pairwise_cons.mpr ⟨fun b hb => ?_, ih d.nextIp⟩
      exact Nat.lt_of_lt_of_le d.ip_lt_nextIp (mem_sweep hb).1

/-- Behind the first instruction of a sweep. -/
theorem mem_tail_sweep {va n : Nat} :
    d ∈ (code.sweep va n).tail ↔ d ∈ code.sweep va n ∧ d.ip ≠ va := by
  have hpair : (code.sweep va n).Pairwise fun a b => a.ip < b.ip := sweep_pairwise va n
  cases n with
  | zero => simp [sweep]
  | succ n =>
    cases hfirst : code.atVa va with
    | none => simp [sweep_none hfirst]
    | some first =>
      rw [sweep_succ hfirst] at hpair ⊢
      have hip : first.ip = va := atVa_ip hfirst
      rw [List.tail_cons, List.mem_cons]
      constructor
      · intro hd
        have hlt := (List.pairwise_cons.mp hpair).1 d hd
        exact ⟨.inr hd, by omega⟩
      · rintro ⟨rfl | hd, hne⟩
        · exact absurd hip hne
        · exact hd

/-- An instruction of a sweep is the last one, or the one it leads to follows. -/
theorem getLast?_or_next {va n : Nat} (h : d ∈ code.sweep va n) :
    (code.sweep va n).getLast? = some d ∨ ∃ b ∈ code.sweep va n, b.ip = d.nextIp := by
  induction n generalizing va with
  | zero => cases h
  | succ n ih =>
    cases hfirst : code.atVa va with
    | none =>
      rw [sweep_none hfirst] at h
      cases h
    | some first =>
      rw [sweep_succ hfirst] at h ⊢
      rcases List.mem_cons.mp h with rfl | hrest
      · cases n with
        | zero => exact .inl rfl
        | succ n =>
          cases hnext : code.atVa d.nextIp with
          | none =>
            rw [sweep_none hnext]
            exact .inl rfl
          | some b =>
            refine .inr ⟨b, List.mem_cons_of_mem _ ?_, atVa_ip hnext⟩
            rw [sweep_succ hnext]
            exact List.mem_cons_self
      · rcases ih hrest with hlast | ⟨b, hb, hip⟩
        · left
          cases hsweep : code.sweep first.nextIp n with
          | nil => rw [hsweep] at hlast; cases hlast
          | cons c cs => simpa [hsweep] using hlast
        · exact .inr ⟨b, List.mem_cons_of_mem _ hb, hip⟩

/-- The index of a list of instructions, searched from the front. -/
def ofList (instrs : List DecodedInstr) : CodeIndex where
  instrs := instrs
  search va := match instrs.findIdx? fun d => d.ip = va with
    | some i => .ok i
    | none => .error (instrs.countP fun d => d.ip < va)
  search_ok va i h := by
    split at h
    · next j hj =>
      obtain rfl : j = i := by simpa using h
      obtain ⟨hlt, hip, -⟩ := List.findIdx?_eq_some_iff_getElem.mp hj
      simpa [List.getElem?_eq_getElem hlt] using hip
    · cases h

end CodeIndex

/-! ## Sections -/

structure Section where
  vaddr : Nat
  vsize : Nat
  rawAddr : Nat
  rawSize : Nat
  characteristics : Nat

namespace Section

/-- `IMAGE_SCN_MEM_EXECUTE` is bit 29. -/
def isExecutable (s : Section) : Bool := s.characteristics.testBit 29

def containsVa (s : Section) (imageBase va : Nat) : Bool :=
  imageBase + s.vaddr ≤ va && va < min (imageBase + s.vaddr + s.vsize) (2 ^ 64 - 1)

/-- `va_to_offset`: only bytes that are in the file have one. -/
def vaToOffset (s : Section) (imageBase va : Nat) : Option Nat :=
  if s.containsVa imageBase va then
    let offset := va - imageBase - s.vaddr
    if s.rawSize ≤ offset then none else some (s.rawAddr + offset)
  else none

end Section

structure AddressSpace where
  imageBase : Nat
  sections : List Section

namespace AddressSpace

variable (space : AddressSpace)

def sectionAtVa (va : Nat) : Option Section := space.sections.find? fun s => s.containsVa space.imageBase va

def isExecutableVa (va : Nat) : Bool := (space.sectionAtVa va).any Section.isExecutable

/-- A loaded section that is not executable. -/
def isDataVa (va : Nat) : Bool := (space.sectionAtVa va).any fun s => !s.isExecutable

/-- `slice_for_va`: all of the bytes, or nothing. -/
def sliceForVa (image : List Nat) (va len : Nat) : Option (List Nat) :=
  ((space.sectionAtVa va).bind fun s => s.vaToOffset space.imageBase va).bind fun offset =>
    if offset + len ≤ image.length then some ((image.drop offset).take len) else none

end AddressSpace

end Windy
