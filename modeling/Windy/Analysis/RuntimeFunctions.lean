import Mathlib.Data.List.Sort
import Windy.Analysis.Unwind

/- The runtime functions of an x64 image (`analysis/unwind.rs`).

   The exception directory lists ranges of addresses. A record is accepted when its range starts in
   an executable section and ends no further than the section does; the others are counted. What a
   section's end is has two answers: `executable_range` takes the larger of the virtual and the raw
   size, and the address map, which every lookup goes through, the virtual size. An address of the
   range may also be in a section that comes earlier in the table than the one its start is in.

   Checked sums of `usize` in the header are sums here: its offset has 32 bits.

   What is proved: the table is sorted and accounts for each record, and its ranges are executable,
   each in one section, exactly when no accepted range runs past the virtual end of its section or
   into an earlier one (`runtimeFunctions_iff`).

   Correspondence:
     `exception_directory`, `optional_field_offset`, `executable_range` ↔ the same
     the loop of `parse_runtime_functions` ↔ `addRecord`
     `parse_runtime_functions` ↔ the same -/
namespace Windy.Unwind

def imageFileMachineAmd64 : Nat := 0x8664

def imageNtOptionalHdr64Magic : Nat := 0x20b

def imageDirectoryEntryException : Nat := 3

def optionalHeader64NumberOfRvaAndSizes : Nat := 108

def optionalHeader64DataDirectories : Nat := 112

structure RuntimeFunction where
  beginRva : Nat
  endRva : Nat
  unwindInfoRva : Nat
  beginVa : Nat
  endVa : Nat
  unwindInfoVa : Nat
  unwindInfo : Option UnwindInfo
  deriving DecidableEq, Repr

structure RuntimeFunctionTable where
  entries : List RuntimeFunction
  rejectedEntries : Nat
  deriving DecidableEq, Repr

def optionalFieldOffset (optionalOffset optionalEnd relativeOffset width : Nat) : Option Nat :=
  let offset := optionalOffset + relativeOffset
  if offset + width ≤ optionalEnd then some offset else none

/-- `some none` is an x64 image without a directory. -/
def exceptionDirectory (image : List UInt8) : Option (Option (Nat × Nat)) := do
  if (← Outcome.get image 0 2) ≠ [0x4d, 0x5a] then none
  let peOffset ← readU32Le image 0x3c
  if (← Outcome.get image peOffset (peOffset + 4)) ≠ [0x50, 0x45, 0, 0] then none
  let coffOffset := peOffset + 4
  if (← readU16Le image coffOffset) ≠ imageFileMachineAmd64 then none
  let optionalHeaderSize ← readU16Le image (coffOffset + 16)
  let optionalOffset := coffOffset + 20
  let optionalEnd := optionalOffset + optionalHeaderSize
  let _ ← Outcome.get image optionalOffset optionalEnd
  let magicOffset ← optionalFieldOffset optionalOffset optionalEnd 0 2
  if (← readU16Le image magicOffset) ≠ imageNtOptionalHdr64Magic then none
  let numberOfDirectoriesOffset ← optionalFieldOffset optionalOffset optionalEnd optionalHeader64NumberOfRvaAndSizes 4
  let numberOfDirectories ← readU32Le image numberOfDirectoriesOffset
  if numberOfDirectories ≤ imageDirectoryEntryException then return none
  let directoryOffset ← optionalFieldOffset optionalOffset optionalEnd
    (optionalHeader64DataDirectories + imageDirectoryEntryException * 8) 8
  let rva ← readU32Le image directoryOffset
  let size ← readU32Le image (directoryOffset + 4)
  if rva = 0 ∧ size = 0 then return none
  if rva = 0 ∨ size = 0 then none
  return some (rva, size)

def executableRange (addressSpace : AddressSpace) (beginRva endRva : Nat) : Outcome (Nat × Nat) :=
  if endRva ≤ beginRva then Outcome.none
  else do
    let beginVa ← Outcome.ofOption (Outcome.checkedAdd 64 addressSpace.imageBase beginRva)
    let endVa ← Outcome.ofOption (Outcome.checkedAdd 64 addressSpace.imageBase endRva)
    let s ← Loader.sectionAtVa addressSpace beginVa
    if !s.isExecutable then Outcome.none
    else do
      let sectionBeginVa ← Outcome.ofOption (Outcome.checkedAdd 64 addressSpace.imageBase s.vaddr)
      let sectionEndVa ← Outcome.ofOption (Outcome.checkedAdd 64 sectionBeginVa (max s.vsize s.rawSize))
      if sectionBeginVa ≤ beginVa ∧ endVa ≤ sectionEndVa then return (beginVa, endVa) else Outcome.none

def addRecord (image : List UInt8) (addressSpace : AddressSpace) (table : RuntimeFunctionTable) (record : List UInt8) :
    Outcome RuntimeFunctionTable := do
  let beginRva ← Outcome.ofOption (readU32Le record 0)
  let endRva ← Outcome.ofOption (readU32Le record 4)
  let unwindInfoRva ← Outcome.ofOption (readU32Le record 8)
  match ← Outcome.attempt (executableRange addressSpace beginRva endRva) with
  | none => return { table with rejectedEntries := table.rejectedEntries + 1 }
  | some (beginVa, endVa) =>
    match Outcome.checkedAdd 64 addressSpace.imageBase unwindInfoRva with
    | none => return { table with rejectedEntries := table.rejectedEntries + 1 }
    | some unwindInfoVa => do
      let unwindInfo ← Outcome.attempt (parseUnwindInfoAt image addressSpace unwindInfoVa)
      return { table with
        entries := table.entries ++ [⟨beginRva, endRva, unwindInfoRva, beginVa, endVa, unwindInfoVa, unwindInfo⟩] }

/-- The order of the sort. Entries with the same key are the same. -/
def KeyLE (entry entry' : RuntimeFunction) : Prop :=
  entry.beginVa < entry'.beginVa ∨ entry.beginVa = entry'.beginVa ∧
    (entry.endVa < entry'.endVa ∨ entry.endVa = entry'.endVa ∧ entry.unwindInfoVa ≤ entry'.unwindInfoVa)

instance : DecidableRel KeyLE := fun _ _ => inferInstanceAs (Decidable (_ ∨ _))

def parseRuntimeFunctions (image : List UInt8) (addressSpace : AddressSpace) : Outcome RuntimeFunctionTable := do
  match ← Outcome.ofOption (exceptionDirectory image) with
  | none => return ⟨[], 0⟩
  | some (directoryRva, directorySize) =>
    if directorySize = 0 ∨ directorySize % imageRuntimeFunctionEntrySize ≠ 0 then Outcome.none
    else do
      let directoryVa ← Outcome.ofOption (Outcome.checkedAdd 64 addressSpace.imageBase directoryRva)
      let directory ← Loader.sliceForVa addressSpace image directoryVa directorySize
      let table ← (Bytes.chunksExact imageRuntimeFunctionEntrySize directory).foldlM (addRecord image addressSpace) ⟨[], 0⟩
      return { table with entries := table.entries.insertionSort KeyLE }

/-! ## Ranges -/

section Ranges
variable {addressSpace : AddressSpace} {beginVa endVa : Nat}

/-- Every address of the range is executable, and in the section of the first one. -/
def RangeExecutable (addressSpace : AddressSpace) (beginVa endVa : Nat) : Prop :=
  ∀ v, beginVa ≤ v → v < endVa → Loader.isExecutableVa addressSpace v = .some true ∧
    Loader.sectionAtVa addressSpace v = Loader.sectionAtVa addressSpace beginVa

/-- The range ends within the virtual size of its section, and no earlier section has an
address of it. -/
def RangeIntact (addressSpace : AddressSpace) (beginVa endVa : Nat) : Prop :=
  ∃ before s after, addressSpace.sections = before ++ s :: after ∧
    Loader.sectionContainsVa s addressSpace.imageBase beginVa = .some true ∧ endVa ≤ Loader.virtualEnd addressSpace s ∧
    ∀ t ∈ before, ∀ v, beginVa ≤ v → v < endVa → Loader.sectionContainsVa t addressSpace.imageBase v = .some false

/-- What the range check promises. -/
theorem executableRange_some {beginRva endRva : Nat}
    (h : executableRange addressSpace beginRva endRva = .some (beginVa, endVa)) :
    beginVa < endVa ∧ ∃ s, Loader.sectionAtVa addressSpace beginVa = .some s ∧ s.isExecutable = true := by
  unfold executableRange at h
  split at h
  · cases h
  rename_i hlt
  obtain ⟨start, hstart, h⟩ := Outcome.bind_eq_some.mp h
  obtain ⟨stop, hstop, h⟩ := Outcome.bind_eq_some.mp h
  obtain ⟨s, hs, h⟩ := Outcome.bind_eq_some.mp h
  split at h
  · cases h
  rename_i hexecutable
  obtain ⟨sectionStart, -, h⟩ := Outcome.bind_eq_some.mp h
  obtain ⟨sectionStop, -, h⟩ := Outcome.bind_eq_some.mp h
  split at h
  · obtain ⟨rfl, rfl⟩ := Prod.mk.inj (Outcome.some.inj h)
    obtain ⟨-, hstart⟩ := Option.ite_none_right_eq_some.mp (Outcome.ofOption_eq_some.mp hstart)
    obtain ⟨-, hstop⟩ := Option.ite_none_right_eq_some.mp (Outcome.ofOption_eq_some.mp hstop)
    rw [Option.some.injEq] at hstart hstop
    exact ⟨by omega, s, hs, by simpa using hexecutable⟩
  · cases h

/-- The two agree on a range that was accepted. -/
theorem rangeExecutable_iff {s : Section} (hlt : beginVa < endVa) (hs : Loader.sectionAtVa addressSpace beginVa = .some s)
    (hexecutable : s.isExecutable = true) :
    RangeExecutable addressSpace beginVa endVa ↔ RangeIntact addressSpace beginVa endVa := by
  obtain ⟨before, after, heq, hbegin, hbefore⟩ := Outcome.find_eq_some.mp hs
  constructor
  · intro h
    have hfound : ∀ v, beginVa ≤ v → v < endVa → Loader.sectionAtVa addressSpace v = .some s := by
      intro v hlo hhi
      rw [(h v hlo hhi).2, hs]
    refine ⟨before, s, after, heq, hbegin, ?_, fun t ht v hlo hhi => ?_⟩
    · -- The virtual end would be an address of the range in no section.
      by_contra hend
      rw [Loader.sectionContainsVa_eq_true] at hbegin
      have hvirtual : beginVa ≤ Loader.virtualEnd addressSpace s := by
        rw [Loader.virtualEnd, Outcome.saturatingAdd]
        omega
      have hlast := (Loader.sectionAtVa_contains (hfound _ hvirtual (by omega))).2
      rw [Loader.sectionContainsVa_eq_true, Loader.virtualEnd, Outcome.saturatingAdd] at hlast
      omega
    · have htest : ∀ x ∈ before, ∃ contained, Loader.sectionContainsVa x addressSpace.imageBase v = .some contained := by
        intro x hx
        have hfits : addressSpace.imageBase + x.vaddr < 2 ^ 64 :=
          Loader.sectionContainsVa_ne_panic.mp (by rw [hbefore x hx]; simp)
        exact ⟨_, Loader.sectionContainsVa_eq hfits⟩
      obtain ⟨contained, hcontained⟩ := htest t ht
      cases contained with
      | false => exact hcontained
      | true =>
        -- The section found would be an earlier one, which does not contain the first address.
        obtain ⟨x, hx, hfirst⟩ := Outcome.find_mem_before (s :: after) htest ⟨t, ht, hcontained⟩
        rw [← heq] at hfirst
        have hsame : x = s := Outcome.some.inj (hfirst.symm.trans (hfound v hlo hhi))
        rw [hsame] at hx
        rw [hbefore s hx] at hbegin
        cases hbegin
  · rintro ⟨before', t, after', heq', hbegin', hend, hapart⟩ v hlo hhi
    have hfirst : Loader.sectionAtVa addressSpace beginVa = .some t :=
      Outcome.find_eq_some.mpr ⟨before', after', heq', hbegin', fun y hy => hapart y hy beginVa (Nat.le_refl _) hlt⟩
    have hcontains : Loader.sectionContainsVa t addressSpace.imageBase v = .some true := by
      rw [Loader.sectionContainsVa_eq_true] at hbegin' ⊢
      rw [Loader.virtualEnd, Outcome.saturatingAdd] at hend
      omega
    have hfound : Loader.sectionAtVa addressSpace v = .some t :=
      Outcome.find_eq_some.mpr ⟨before', after', heq', hcontains, fun y hy => hapart y hy v hlo hhi⟩
    obtain rfl : t = s := Outcome.some.inj (hfirst.symm.trans hs)
    rw [Loader.isExecutableVa, hfound, hfirst]
    exact ⟨congrArg Outcome.some hexecutable, rfl⟩

end Ranges

/-! ## Tables -/

/-- The record has a range that the check accepts, and its unwind information has an address. -/
def Accepted (addressSpace : AddressSpace) (record : List UInt8) (beginVa endVa : Nat) : Prop :=
  ∃ beginRva endRva unwindInfoRva, readU32Le record 0 = some beginRva ∧ readU32Le record 4 = some endRva ∧
    readU32Le record 8 = some unwindInfoRva ∧
    executableRange addressSpace beginRva endRva = .some (beginVa, endVa) ∧ addressSpace.imageBase + unwindInfoRva < 2 ^ 64

instance : Std.Total KeyLE := ⟨fun entry entry' => by unfold KeyLE; omega⟩

instance : IsTrans RuntimeFunction KeyLE := ⟨fun entry entry' entry'' h h' => by unfold KeyLE at *; omega⟩

section Records
variable {image : List UInt8} {addressSpace : AddressSpace} {table table' : RuntimeFunctionTable} {record : List UInt8}

def HasRange (table : RuntimeFunctionTable) (beginVa endVa : Nat) : Prop :=
  ∃ entry ∈ table.entries, entry.beginVa = beginVa ∧ entry.endVa = endVa

/-- A record is counted, or its range is added. -/
theorem addRecord_some (h : addRecord image addressSpace table record = .some table') :
    table'.entries.length + table'.rejectedEntries = table.entries.length + table.rejectedEntries + 1 ∧
    ∀ beginVa endVa, HasRange table' beginVa endVa ↔
      HasRange table beginVa endVa ∨ Accepted addressSpace record beginVa endVa := by
  unfold addRecord at h
  obtain ⟨beginRva, hbegin, h⟩ := Outcome.bind_eq_some.mp h
  obtain ⟨endRva, hend, h⟩ := Outcome.bind_eq_some.mp h
  obtain ⟨unwindInfoRva, hunwind, h⟩ := Outcome.bind_eq_some.mp h
  obtain ⟨range, hrange, h⟩ := Outcome.bind_eq_some.mp h
  rw [Outcome.ofOption_eq_some] at hbegin hend hunwind
  have haccepted : ∀ beginVa endVa, Accepted addressSpace record beginVa endVa ↔
      range = some (beginVa, endVa) ∧ addressSpace.imageBase + unwindInfoRva < 2 ^ 64 := by
    intro beginVa endVa
    constructor
    · rintro ⟨_, _, _, hbegin', hend', hunwind', hrange', hfits⟩
      obtain rfl := Option.some.inj (hbegin.symm.trans hbegin')
      obtain rfl := Option.some.inj (hend.symm.trans hend')
      obtain rfl := Option.some.inj (hunwind.symm.trans hunwind')
      rw [← Outcome.attempt_eq_some, hrange] at hrange'
      exact ⟨Outcome.some.inj hrange', hfits⟩
    · rintro ⟨rfl, hfits⟩
      exact ⟨beginRva, endRva, unwindInfoRva, hbegin, hend, hunwind, Outcome.attempt_eq_some.mp hrange, hfits⟩
  cases range with
  | none =>
    obtain rfl := Outcome.some.inj h
    exact ⟨rfl, fun beginVa endVa => by simp [haccepted, HasRange]⟩
  | some range =>
    obtain ⟨beginVa, endVa⟩ := range
    dsimp only at h
    by_cases hfits : addressSpace.imageBase + unwindInfoRva < 2 ^ 64
    · rw [Outcome.checkedAdd, if_pos hfits] at h
      obtain ⟨unwindInfo, -, h⟩ := Outcome.bind_eq_some.mp h
      obtain rfl := Outcome.some.inj h
      refine ⟨by simp; omega, fun beginVa' endVa' => ?_⟩
      rw [haccepted, and_iff_left hfits]
      simp [HasRange, or_and_right, exists_or]
    · rw [Outcome.checkedAdd, if_neg hfits] at h
      obtain rfl := Outcome.some.inj h
      refine ⟨rfl, fun beginVa' endVa' => ?_⟩
      exact ⟨.inl, fun h => h.resolve_right fun hacc => hfits ((haccepted beginVa' endVa').mp hacc).2⟩

theorem addRecords_some {records : List (List UInt8)}
    (h : records.foldlM (addRecord image addressSpace) table = .some table') :
    table'.entries.length + table'.rejectedEntries = table.entries.length + table.rejectedEntries + records.length ∧
    ∀ beginVa endVa, HasRange table' beginVa endVa ↔
      HasRange table beginVa endVa ∨ ∃ record ∈ records, Accepted addressSpace record beginVa endVa := by
  induction records generalizing table with
  | nil =>
    obtain rfl := Outcome.some.inj h
    simp
  | cons record records ih =>
    rw [List.foldlM_cons] at h
    obtain ⟨next, hnext, hrest⟩ := Outcome.bind_eq_some.mp h
    obtain ⟨hcount, hranges⟩ := addRecord_some hnext
    obtain ⟨hcounts, hall⟩ := ih hrest
    refine ⟨by rw [hcounts, hcount, List.length_cons]; omega, fun beginVa endVa => ?_⟩
    rw [hall, hranges, or_assoc]
    simp

end Records

/-- The records of the exception directory. -/
def directoryRecords (image : List UInt8) (addressSpace : AddressSpace) : List (List UInt8) :=
  match exceptionDirectory image with
  | some (some (directoryRva, directorySize)) =>
    match Loader.sliceForVa addressSpace image (addressSpace.imageBase + directoryRva) directorySize with
    | .some directory => Bytes.chunksExact imageRuntimeFunctionEntrySize directory
    | _ => []
  | _ => []

/-- How many records the header says there are. -/
def recordCount (image : List UInt8) : Nat :=
  match exceptionDirectory image with
  | some (some (_, directorySize)) => directorySize / imageRuntimeFunctionEntrySize
  | _ => 0

theorem parseRuntimeFunctions_some {image : List UInt8} {addressSpace : AddressSpace} {table : RuntimeFunctionTable}
    (h : parseRuntimeFunctions image addressSpace = .some table) :
    table.entries.length + table.rejectedEntries = recordCount image ∧ table.entries.Pairwise KeyLE ∧
    ∀ beginVa endVa, HasRange table beginVa endVa ↔
      ∃ record ∈ directoryRecords image addressSpace, Accepted addressSpace record beginVa endVa := by
  unfold parseRuntimeFunctions at h
  obtain ⟨directory, hdirectory, h⟩ := Outcome.bind_eq_some.mp h
  rw [Outcome.ofOption_eq_some] at hdirectory
  unfold recordCount directoryRecords
  rw [hdirectory]
  cases directory with
  | none =>
    obtain rfl := Outcome.some.inj h
    exact ⟨rfl, List.Pairwise.nil, fun beginVa endVa => by simp [HasRange]⟩
  | some entry =>
    obtain ⟨directoryRva, directorySize⟩ := entry
    dsimp only at h ⊢
    split at h
    · cases h
    obtain ⟨directoryVa, hva, h⟩ := Outcome.bind_eq_some.mp h
    obtain ⟨bytes, hbytes, h⟩ := Outcome.bind_eq_some.mp h
    obtain ⟨unsorted, hunsorted, h⟩ := Outcome.bind_eq_some.mp h
    obtain rfl := Outcome.some.inj h
    obtain ⟨-, hva⟩ := Option.ite_none_right_eq_some.mp (Outcome.ofOption_eq_some.mp hva)
    rw [Option.some.inj hva, hbytes]
    obtain ⟨hcount, hranges⟩ := addRecords_some hunsorted
    have hperm := List.perm_insertionSort KeyLE unsorted.entries
    refine ⟨?_, List.pairwise_insertionSort KeyLE _, fun beginVa endVa => ?_⟩
    · calc (unsorted.entries.insertionSort KeyLE).length + unsorted.rejectedEntries
          = 0 + (Bytes.chunksExact imageRuntimeFunctionEntrySize bytes).length := by rw [hperm.length_eq, hcount]; rfl
        _ = bytes.length / imageRuntimeFunctionEntrySize := by simp [Bytes.chunksExact]
        _ = directorySize / imageRuntimeFunctionEntrySize := by rw [Loader.sliceForVa_length hbytes]
    · have hsame : HasRange { unsorted with entries := unsorted.entries.insertionSort KeyLE } beginVa endVa ↔
          HasRange unsorted beginVa endVa := exists_congr fun entry => and_congr_left fun _ => hperm.mem_iff
      rw [hsame, hranges]
      simp [HasRange]

/-- The entries are sorted, every record of the directory is accounted for, and the ranges
are executable. -/
structure TableExact (image : List UInt8) (addressSpace : AddressSpace) (table : RuntimeFunctionTable) : Prop where
  sorted : table.entries.Pairwise fun entry entry' =>
    entry.beginVa < entry'.beginVa ∨ entry.beginVa = entry'.beginVa ∧ entry.endVa ≤ entry'.endVa
  counted : table.entries.length + table.rejectedEntries = recordCount image
  executable : ∀ entry ∈ table.entries, RangeExecutable addressSpace entry.beginVa entry.endVa

theorem runtimeFunctions_iff {image : List UInt8} {addressSpace : AddressSpace} {table : RuntimeFunctionTable}
    (h : parseRuntimeFunctions image addressSpace = .some table) : TableExact image addressSpace table ↔
      ∀ record ∈ directoryRecords image addressSpace, ∀ beginVa endVa,
        Accepted addressSpace record beginVa endVa → RangeIntact addressSpace beginVa endVa := by
  obtain ⟨hcount, hsorted, hranges⟩ := parseRuntimeFunctions_some h
  have hagree : ∀ record beginVa endVa, Accepted addressSpace record beginVa endVa →
      (RangeExecutable addressSpace beginVa endVa ↔ RangeIntact addressSpace beginVa endVa) := by
    rintro record beginVa endVa ⟨beginRva, endRva, _, -, -, -, hrange, -⟩
    obtain ⟨hlt, s, hs, hexecutable⟩ := executableRange_some hrange
    exact rangeExecutable_iff hlt hs hexecutable
  constructor
  · intro hexact record hrecord beginVa endVa haccepted
    obtain ⟨entry, hentry, rfl, rfl⟩ := (hranges beginVa endVa).mpr ⟨record, hrecord, haccepted⟩
    exact (hagree record _ _ haccepted).mp (hexact.executable entry hentry)
  · intro hintact
    refine ⟨hsorted.imp fun hle => ?_, hcount, fun entry hentry => ?_⟩
    · unfold KeyLE at hle
      omega
    · obtain ⟨record, hrecord, haccepted⟩ := (hranges _ _).mp ⟨entry, hentry, rfl, rfl⟩
      exact (hagree record _ _ haccepted).mpr (hintact record hrecord _ _ haccepted)

/-- An x64 header whose exception directory is at 2000h, and the directory behind it: a
range from 1000h to 1018h, with unwind information that no section has. -/
def oneRecordImage : List UInt8 :=
  [0x4d, 0x5a] ++ List.replicate 58 0 ++ [0x40, 0, 0, 0] ++
  [0x50, 0x45, 0, 0, 0x64, 0x86] ++ List.replicate 14 0 ++ [144, 0, 0, 0] ++
  [0x0b, 0x02] ++ List.replicate 106 0 ++ [4, 0, 0, 0] ++ List.replicate 24 0 ++ [0x00, 0x20, 0, 0, 12, 0, 0, 0] ++
  [0x00, 0x10, 0, 0, 0x18, 0x10, 0, 0, 0x00, 0x30, 0, 0]

/-- Code with 32 bytes in the file, and this many addresses. -/
def codeSection (vsize : Nat) : Section where
  vaddr := 0x1000
  vsize := vsize
  rawAddr := 0
  rawSize := 32
  characteristics := 0x60000020

def recordSection : Section where
  vaddr := 0x2000
  vsize := 12
  rawAddr := 232
  rawSize := 12
  characteristics := 0x40000040

def codeSpace (vsize : Nat) : AddressSpace where
  imageBase := 0x140000000
  sections := [codeSection vsize, recordSection]

def oneEntry : RuntimeFunctionTable where
  entries := [⟨0x1000, 0x1018, 0x3000, 0x140001000, 0x140001018, 0x140003000, none⟩]
  rejectedEntries := 0

theorem runtimeFunctions_oneEntry : TableExact oneRecordImage (codeSpace 32) oneEntry := by
  have hparse : parseRuntimeFunctions oneRecordImage (codeSpace 32) = .some oneEntry := by decide +kernel
  have hrecords : directoryRecords oneRecordImage (codeSpace 32) =
      [[0x00, 0x10, 0, 0, 0x18, 0x10, 0, 0, 0x00, 0x30, 0, 0]] := by decide +kernel
  have hrange : executableRange (codeSpace 32) 0x1000 0x1018 = .some (0x140001000, 0x140001018) := by decide +kernel
  refine (runtimeFunctions_iff hparse).mpr fun record hrecord beginVa endVa haccepted => ?_
  rw [hrecords, List.mem_singleton] at hrecord
  obtain ⟨beginRva, endRva, _, hbegin, hend, -, hrange', -⟩ := haccepted
  rw [hrecord] at hbegin hend
  obtain rfl := Option.some.inj hbegin
  obtain rfl := Option.some.inj hend
  obtain ⟨rfl, rfl⟩ := Prod.mk.inj (Outcome.some.inj (hrange.symm.trans hrange'))
  exact ⟨[], codeSection 32, [recordSection], rfl, by decide +kernel, by decide +kernel, by simp⟩

/-- With 16 addresses for the 32 bytes, the last 8 bytes of the range have none. -/
theorem runtimeFunctions_not_exact : parseRuntimeFunctions oneRecordImage (codeSpace 16) = .some oneEntry ∧
    Loader.isExecutableVa (codeSpace 16) 0x140001010 = .some false ∧
    ¬ TableExact oneRecordImage (codeSpace 16) oneEntry := by
  have hparse : parseRuntimeFunctions oneRecordImage (codeSpace 16) = .some oneEntry := by decide +kernel
  have hnone : Loader.isExecutableVa (codeSpace 16) 0x140001010 = .some false := by decide +kernel
  refine ⟨hparse, hnone, fun hexact => ?_⟩
  have htrue := (hexact.executable _ List.mem_cons_self 0x140001010 (by decide) (by decide)).1
  rw [hnone] at htrue
  cases htrue

end Windy.Unwind
