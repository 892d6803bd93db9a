import Windy.Lib.Bytes
import Windy.Lib.Utf8
import Windy.Loader.AddressSpace

/- The debug directory (`loader/debug_dir.rs`).

   The directory lists a CodeView record with the name of the symbol file. Where the directory
   cannot be read, the whole file is searched for a record, and the first one with a plausible name
   is taken, whoever it belongs to.

   To find the directory in the file, its relative address is looked up in the section table. This
   is a second reader of the table: the loader has one already, and it agrees with the layout of
   `IMAGE_SECTION_HEADER`. Here the fields from +16 on are read as if there were one field less in
   front of them: the raw size is taken for the virtual size, and the pointer to the relocations for
   the raw size. An image has no relocations, so the pointer is zero, and no address has an offset.

   Slices of the image panic when they are out of range. Sums of `usize` do not overflow here: each
   is of fields with 32 bits.

   What is proved: the two readers agree on the initialized bytes of the first 32 sections, and the
   listed record is preferred, exactly when the sections that the walk comes to have a pointer to
   relocations behind these bytes (`rvaToFileOffset_iff`, `agrees_iff_of_disjoint`).

   Correspondence:
     `rva_to_file_offset` ↔ `rvaToFileOffset` (its loop is `walkSections`)
     `debug_directory_location` ↔ `debugDirectoryEntry`, `debugDirectoryLocation`
     `find_codeview_in_debug_directory`, `parse_pdb70_at_offset`, `scan_image_for_rsds`,
     `find_codeview_record` ↔ the same -/
namespace Windy.DebugDir

/-- `Uuid::from_fields`. -/
structure Uuid where
  d1 : Nat
  d2 : Nat
  d3 : Nat
  d4 : List UInt8
  deriving DecidableEq, Repr

structure CodeViewRecord where
  guid : Uuid
  age : Nat
  pdbName : List Char
  deriving DecidableEq, Repr

def imageDebugDirectorySize : Nat := 28

def imageDebugTypeCodeview : Nat := 2

def rsds : List UInt8 := [0x52, 0x53, 0x44, 0x53]

/-- `read_u32_le(&bytes[offset..offset + 4])`. -/
def readU32Le (bytes : List UInt8) (offset : Nat) : Outcome Nat :=
  match Bytes.numberAt bytes offset 4 with
  | some n => .some n
  | none => .panic

def readU16Le (bytes : List UInt8) (offset : Nat) : Outcome Nat :=
  match Bytes.numberAt bytes offset 2 with
  | some n => .some n
  | none => .panic

section Image
variable (image : List UInt8)

/-! ## The walk over the sections -/

/-- Some tiny images have the directory at its address. -/
def fallback (rva : Nat) : Outcome Nat := if rva < image.length then return rva else Outcome.none

def walkSections (rva sectionTableOffset : Nat) : Nat → Nat → Outcome Nat
  | 0, _ => fallback image rva
  | rounds + 1, i =>
    let entry := sectionTableOffset + i * 40
    if image.length < entry + 40 then fallback image rva
    else do
      let vaddr ← readU32Le image (entry + 12)
      let vsize ← readU32Le image (entry + 16)
      let rawAddr ← readU32Le image (entry + 20)
      let rawSize ← readU32Le image (entry + 24)
      if vaddr ≤ rva ∧ rva < Outcome.saturatingAdd 64 vaddr vsize then
        let inside := rva - vaddr
        if rawSize ≤ inside then Outcome.none else return rawAddr + inside
      else walkSections rva sectionTableOffset rounds (i + 1)

def rvaToFileOffset (rva : Nat) : Outcome Nat := do
  let eLfanew ← readU32Le image 0x3c
  let coffOffset := eLfanew + 4
  let numSections ← readU16Le image (coffOffset + 2)
  let optionalSize ← readU16Le image (coffOffset + 16)
  let sectionTableOffset := coffOffset + 20 + optionalSize
  walkSections image rva sectionTableOffset (min numSections 32) 0

/-! ## Records -/

/-- The relative address of the directory and its size. -/
def debugDirectoryEntry : Outcome (Nat × Nat) :=
  if image.length < 0x40 then Outcome.none
  else do
    let peOffset ← readU32Le image 0x3c
    if image.length < peOffset + 24 then Outcome.none
    if (← Outcome.slice image peOffset (peOffset + 4)) ≠ [0x50, 0x45, 0, 0] then Outcome.none
    let optionalOffset := peOffset + 4 + 20
    if image.length < optionalOffset + 2 then Outcome.none
    let magic ← readU16Le image optionalOffset
    let (numDirsOffset, dataDirsOffset) ← (if magic = 0x10b then return (92, 96)
      else if magic = 0x20b then return (108, 112)
      else Outcome.none : Outcome (Nat × Nat))
    let numDirsAddr := optionalOffset + numDirsOffset
    if image.length < numDirsAddr + 4 then Outcome.none
    let numDirs ← readU32Le image numDirsAddr
    if numDirs ≤ 4 then Outcome.none
    let debugEntryOffset := optionalOffset + dataDirsOffset + 4 * 8
    if image.length < debugEntryOffset + 8 then Outcome.none
    let rva ← readU32Le image debugEntryOffset
    let size ← readU32Le image (debugEntryOffset + 4)
    if rva = 0 ∨ size = 0 then Outcome.none
    return (rva, size)

def debugDirectoryLocation : Outcome (Nat × Nat) := do
  let (rva, size) ← debugDirectoryEntry image
  let fileOffset ← rvaToFileOffset image rva
  return (fileOffset, size)

def parsePdb70AtOffset (offset size : Nat) : Option CodeViewRecord :=
  if size < 24 then none
  else do
    let record ← Outcome.get image offset (offset + size)
    if record.take 4 ≠ rsds then none
    let d1 ← Bytes.numberAt record 4 4
    let d2 ← Bytes.numberAt record 8 2
    let d3 ← Bytes.numberAt record 10 2
    let age ← Bytes.numberAt record 20 4
    let pdbName := Utf8.fromUtf8Lossy ((record.drop 24).takeWhile (· != 0))
    if pdbName = [] then none
    return ⟨⟨d1, d2, d3, (record.take 20).drop 12⟩, age, pdbName⟩

/-- The entries of the directory, so many from this one on. -/
def codeviewEntry (debugBytes : List UInt8) : Nat → Nat → Outcome CodeViewRecord
  | 0, _ => Outcome.none
  | rounds + 1, i => do
    let type ← readU32Le debugBytes (i * imageDebugDirectorySize + 12)
    if type ≠ imageDebugTypeCodeview then codeviewEntry debugBytes rounds (i + 1)
    else do
      let sizeData ← readU32Le debugBytes (i * imageDebugDirectorySize + 16)
      let ptrRaw ← readU32Le debugBytes (i * imageDebugDirectorySize + 24)
      Outcome.ofOption (parsePdb70AtOffset image ptrRaw sizeData)

def findCodeviewInDebugDirectory : Outcome CodeViewRecord := do
  let (debugOffset, debugSize) ← debugDirectoryLocation image
  if debugSize < imageDebugDirectorySize then Outcome.none
  else do
    let debugBytes ← Outcome.ofOption (Outcome.get image debugOffset (debugOffset + debugSize))
    codeviewEntry image debugBytes (debugBytes.length / imageDebugDirectorySize) 0

/-- So many offsets from this one on. -/
def scanImageForRsds : Nat → Nat → Option CodeViewRecord
  | 0, _ => none
  | rounds + 1, offset =>
    if (image.drop offset).take 4 = rsds then
      match parsePdb70AtOffset image offset (image.length - offset) with
      | some record =>
        if ['.', 'p', 'd', 'b'].isSuffixOf (record.pdbName.map Char.toLower) then some record
        else scanImageForRsds rounds (offset + 1)
      | none => scanImageForRsds rounds (offset + 1)
    else scanImageForRsds rounds (offset + 1)

def findCodeviewRecord : Outcome CodeViewRecord := do
  match ← Outcome.attempt (findCodeviewInDebugDirectory image) with
  | some record => return record
  | none => Outcome.ofOption (scanImageForRsds image (image.length - 24) 0)

end Image

/-! ## The layout of the table -/

/-- `IMAGE_SECTION_HEADER`. -/
structure SectionHeader where
  virtualSize : Nat
  virtualAddress : Nat
  sizeOfRawData : Nat
  pointerToRawData : Nat
  pointerToRelocations : Nat
  characteristics : Nat
  deriving DecidableEq, Repr

namespace SectionHeader

/-- What the loader makes of it. -/
def toSection (h : SectionHeader) : Section where
  vaddr := h.virtualAddress
  vsize := h.virtualSize
  rawAddr := h.pointerToRawData
  rawSize := h.sizeOfRawData
  characteristics := h.characteristics

/-- The relative address is one of the section. -/
def contains (rva : Nat) (h : SectionHeader) : Bool :=
  h.virtualAddress ≤ rva && rva < h.virtualAddress + h.virtualSize

/-- The relative address is one of the section, for the walk. -/
def reaches (rva : Nat) (h : SectionHeader) : Bool :=
  h.virtualAddress ≤ rva && rva < h.virtualAddress + h.sizeOfRawData

end SectionHeader

def sectionHeaderAt (image : List UInt8) (entry : Nat) : Option SectionHeader := do
  let virtualSize ← Bytes.numberAt image (entry + 8) 4
  let virtualAddress ← Bytes.numberAt image (entry + 12) 4
  let sizeOfRawData ← Bytes.numberAt image (entry + 16) 4
  let pointerToRawData ← Bytes.numberAt image (entry + 20) 4
  let pointerToRelocations ← Bytes.numberAt image (entry + 24) 4
  let characteristics ← Bytes.numberAt image (entry + 36) 4
  return ⟨virtualSize, virtualAddress, sizeOfRawData, pointerToRawData, pointerToRelocations, characteristics⟩

/-- The file has a header with this section table. -/
def HasSections (image : List UInt8) (headers : List SectionHeader) : Prop :=
  ∃ peOffset optionalSize, Bytes.numberAt image 0x3c 4 = some peOffset ∧
    Bytes.numberAt image (peOffset + 6) 2 = some headers.length ∧
    Bytes.numberAt image (peOffset + 20) 2 = some optionalSize ∧
    ∀ i h, headers[i]? = some h → sectionHeaderAt image (peOffset + 24 + optionalSize + i * 40) = some h

def spaceOf (imageBase : Nat) (headers : List SectionHeader) : AddressSpace where
  imageBase := imageBase
  sections := headers.map SectionHeader.toSection

/-- The loader's lookup, for an address relative to the image base. -/
def mapOffset (headers : List SectionHeader) (rva : Nat) : Option Nat :=
  (headers.find? (SectionHeader.contains rva)).bind fun h =>
    if rva - h.virtualAddress < h.sizeOfRawData then some (h.pointerToRawData + (rva - h.virtualAddress)) else none

/-- The walk, over headers that were read. -/
def walkOffset (image : List UInt8) (headers : List SectionHeader) (rva : Nat) : Outcome Nat :=
  match headers.find? (SectionHeader.reaches rva) with
  | none => fallback image rva
  | some h =>
    if h.pointerToRelocations ≤ rva - h.virtualAddress then Outcome.none
    else .some (h.pointerToRawData + (rva - h.virtualAddress))

section Readers
variable {image : List UInt8} {headers : List SectionHeader} {rva : Nat}

/-- The fields of a header, and the bounds that the walk relies on. -/
theorem sectionHeaderAt_eq_some {entry : Nat} {h : SectionHeader} (hentry : sectionHeaderAt image entry = some h) :
    entry + 40 ≤ image.length ∧ readU32Le image (entry + 12) = .some h.virtualAddress ∧
      readU32Le image (entry + 16) = .some h.sizeOfRawData ∧ readU32Le image (entry + 20) = .some h.pointerToRawData ∧
      readU32Le image (entry + 24) = .some h.pointerToRelocations ∧ h.virtualSize < 2 ^ 32 ∧ h.virtualAddress < 2 ^ 32 ∧
      h.sizeOfRawData < 2 ^ 32 ∧ h.pointerToRawData < 2 ^ 32 := by
  obtain ⟨virtualSize, hsize, hentry⟩ := Option.bind_eq_some_iff.mp hentry
  obtain ⟨virtualAddress, haddress, hentry⟩ := Option.bind_eq_some_iff.mp hentry
  obtain ⟨sizeOfRawData, hraw, hentry⟩ := Option.bind_eq_some_iff.mp hentry
  obtain ⟨pointerToRawData, hpointer, hentry⟩ := Option.bind_eq_some_iff.mp hentry
  obtain ⟨pointerToRelocations, hrelocations, hentry⟩ := Option.bind_eq_some_iff.mp hentry
  obtain ⟨characteristics, hlast, hentry⟩ := Option.bind_eq_some_iff.mp hentry
  obtain rfl := Option.some.inj hentry
  have hfits : (Bytes.numberAt image (entry + 36) 4).isSome := by rw [hlast]; rfl
  rw [Bytes.numberAt_isSome] at hfits
  refine ⟨by omega, ?_, ?_, ?_, ?_, Bytes.numberAt_lt hsize, Bytes.numberAt_lt haddress, Bytes.numberAt_lt hraw,
    Bytes.numberAt_lt hpointer⟩
  · rw [readU32Le, haddress]
  · rw [readU32Le, hraw]
  · rw [readU32Le, hpointer]
  · rw [readU32Le, hrelocations]

theorem walkSections_eq {table : Nat} (hheaders : ∀ i h, headers[i]? = some h → sectionHeaderAt image (table + i * 40) = some h)
    {rounds i : Nat} (hrounds : i + rounds ≤ headers.length) :
    walkSections image rva table rounds i = walkOffset image ((headers.drop i).take rounds) rva := by
  induction rounds generalizing i with
  | zero => rfl
  | succ rounds ih =>
    obtain ⟨h, hget⟩ : ∃ h, headers[i]? = some h := ⟨_, List.getElem?_eq_getElem (by omega)⟩
    obtain ⟨hlt, hi⟩ := List.getElem?_eq_some_iff.mp hget
    obtain ⟨hfits, haddress, hraw, hpointer, hrelocations, -, haddressLt, hrawLt, -⟩ :=
      sectionHeaderAt_eq_some (hheaders i h hget)
    have hsum : Outcome.saturatingAdd 64 h.virtualAddress h.sizeOfRawData = h.virtualAddress + h.sizeOfRawData := by
      rw [Outcome.saturatingAdd]
      omega
    rw [walkSections]
    dsimp only
    rw [if_neg (by omega), haddress, hraw, hpointer, hrelocations]
    simp only [Outcome.some_bind, hsum]
    rw [List.drop_eq_getElem_cons hlt, hi, List.take_succ_cons, walkOffset, List.find?_cons]
    by_cases hreaches : h.virtualAddress ≤ rva ∧ rva < h.virtualAddress + h.sizeOfRawData
    · rw [if_pos hreaches]
      simp [SectionHeader.reaches, hreaches]
    · have hnot : SectionHeader.reaches rva h = false := by
        rw [← Bool.not_eq_true, SectionHeader.reaches, Bool.and_eq_true, decide_eq_true_eq, decide_eq_true_eq]
        exact hreaches
      rw [if_neg hreaches, hnot, ih (by omega), walkOffset]

theorem rvaToFileOffset_eq (h : HasSections image headers) :
    rvaToFileOffset image rva = walkOffset image (headers.take 32) rva := by
  obtain ⟨peOffset, optionalSize, hpe, hcount, hoptional, hheaders⟩ := h
  have hnew : readU32Le image 0x3c = .some peOffset := by rw [readU32Le, hpe]
  have hnum : readU16Le image (peOffset + 4 + 2) = .some headers.length := by
    show readU16Le image (peOffset + 6) = _
    rw [readU16Le, hcount]
  have hsize : readU16Le image (peOffset + 4 + 16) = .some optionalSize := by
    show readU16Le image (peOffset + 20) = _
    rw [readU16Le, hoptional]
  rw [rvaToFileOffset, hnew]
  simp only [Outcome.some_bind, hnum, hsize]
  have htake : headers.take (min headers.length 32) = headers.take 32 := List.take_eq_take_iff.mpr (by omega)
  rw [← htake]
  exact walkSections_eq hheaders (by omega)

theorem vaToOffset_eq (h : HasSections image headers) {imageBase : Nat} (hbase : imageBase + 2 ^ 33 < 2 ^ 64) :
    Loader.vaToOffset (spaceOf imageBase headers) (imageBase + rva) = Outcome.ofOption (mapOffset headers rva) := by
  obtain ⟨peOffset, optionalSize, -, -, -, hheaders⟩ := h
  have hbounds : ∀ h ∈ headers, h.virtualSize < 2 ^ 32 ∧ h.virtualAddress < 2 ^ 32 ∧ h.sizeOfRawData < 2 ^ 32 ∧
      h.pointerToRawData < 2 ^ 32 := by
    intro h hmem
    obtain ⟨i, hi⟩ := List.getElem?_of_mem hmem
    obtain ⟨-, -, -, -, -, hsize, haddress, hraw, hpointer⟩ := sectionHeaderAt_eq_some (hheaders i h hi)
    exact ⟨hsize, haddress, hraw, hpointer⟩
  have hcontains : ∀ h ∈ headers, Loader.sectionContainsVa h.toSection imageBase (imageBase + rva) =
      .some (SectionHeader.contains rva h) := by
    intro h hmem
    obtain ⟨hsize, haddress, -, -⟩ := hbounds h hmem
    rw [Loader.sectionContainsVa_eq (show imageBase + h.virtualAddress < 2 ^ 64 by omega), Outcome.some.injEq,
      Section.containsVa, SectionHeader.contains]
    have hlo : imageBase + h.virtualAddress ≤ imageBase + rva ↔ h.virtualAddress ≤ rva := by omega
    have hhi : imageBase + rva < min (imageBase + h.virtualAddress + h.virtualSize) (2 ^ 64 - 1) ↔
        rva < h.virtualAddress + h.virtualSize := by omega
    simp only [SectionHeader.toSection, hlo, hhi]
  have hlookup : Loader.sectionAtVa (spaceOf imageBase headers) (imageBase + rva) =
      (Outcome.ofOption (headers.find? (SectionHeader.contains rva)) >>= fun h => .some h.toSection) := by
    rw [Loader.sectionAtVa, spaceOf, Outcome.find_map, Outcome.find_eq hcontains]
  rw [Loader.vaToOffset, hlookup, mapOffset]
  cases hfound : headers.find? (SectionHeader.contains rva) with
  | none => rfl
  | some h =>
    have hmem := List.mem_of_find?_eq_some hfound
    have hpass := List.find?_some hfound
    have hlt : rva < h.virtualAddress + h.virtualSize := by
      rw [SectionHeader.contains, Bool.and_eq_true, decide_eq_true_eq, decide_eq_true_eq] at hpass
      exact hpass.2
    obtain ⟨hsize, haddress, hraw, hpointer⟩ := hbounds h hmem
    have hinside : imageBase + rva - imageBase - h.virtualAddress = rva - h.virtualAddress := by omega
    have hsum : Outcome.saturatingAdd 64 h.pointerToRawData (rva - h.virtualAddress) =
        h.pointerToRawData + (rva - h.virtualAddress) := by
      rw [Outcome.saturatingAdd]
      omega
    rw [Outcome.ofOption_some, Outcome.some_bind, Outcome.some_bind, Option.bind_some, Loader.sectionVaToOffset]
    show (Loader.sectionContainsVa h.toSection imageBase (imageBase + rva) >>= _) = _
    rw [hcontains h hmem, hpass, Outcome.some_bind]
    simp only [Bool.not_true, Bool.false_eq_true, if_false, spaceOf, SectionHeader.toSection, hinside, hsum]
    by_cases hin : rva - h.virtualAddress < h.sizeOfRawData
    · rw [if_neg (Nat.not_le.mpr hin), if_pos hin]
      rfl
    · rw [if_pos (Nat.le_of_not_lt hin), if_neg hin]
      rfl

end Readers

/-! ## Agreement -/

/-- The relative address is initialized in one of the first 32 sections. -/
def Initialized (headers : List SectionHeader) (rva : Nat) : Prop :=
  ∃ h ∈ headers.take 32, h.virtualAddress ≤ rva ∧ rva < h.virtualAddress + min h.virtualSize h.sizeOfRawData

/-- The two readers have the same offset for every such address. -/
def ReadersAgree (image : List UInt8) (headers : List SectionHeader) (imageBase : Nat) : Prop :=
  ∀ rva, Initialized headers rva →
    rvaToFileOffset image rva = Loader.vaToOffset (spaceOf imageBase headers) (imageBase + rva)

/-- The directory at an offset lists the record: its first CodeView entry does. -/
def Lists (image : List UInt8) (debugOffset debugSize : Nat) (record : CodeViewRecord) : Prop :=
  debugOffset + debugSize ≤ image.length ∧ ∃ k < debugSize / imageDebugDirectorySize,
    (∀ i < k, Bytes.numberAt image (debugOffset + i * imageDebugDirectorySize + 12) 4 ≠ some imageDebugTypeCodeview) ∧
    Bytes.numberAt image (debugOffset + k * imageDebugDirectorySize + 12) 4 = some imageDebugTypeCodeview ∧
    ∃ sizeData ptrRaw, Bytes.numberAt image (debugOffset + k * imageDebugDirectorySize + 16) 4 = some sizeData ∧
      Bytes.numberAt image (debugOffset + k * imageDebugDirectorySize + 24) 4 = some ptrRaw ∧
      parsePdb70AtOffset image ptrRaw sizeData = some record

/-- A record that the directory lists is the one that is found. -/
def ListedFirst (image : List UInt8) (headers : List SectionHeader) (imageBase : Nat) : Prop :=
  ∀ rva size offset record, debugDirectoryEntry image = .some (rva, size) → Initialized headers rva →
    Loader.vaToOffset (spaceOf imageBase headers) (imageBase + rva) = .some offset → Lists image offset size record →
      findCodeviewRecord image = .some record

/-- The first section whose raw size reaches over the address has a pointer to relocations
that is larger than the address is far from its start, and the byte of the file is the one
of the first section whose virtual size reaches over the address; or both have no byte. -/
def WalkRight (headers : List SectionHeader) (rva : Nat) : Prop :=
  ∀ h, (headers.take 32).find? (SectionHeader.reaches rva) = some h →
    ∀ s, headers.find? (SectionHeader.contains rva) = some s →
      if h.pointerToRelocations ≤ rva - h.virtualAddress then s.sizeOfRawData ≤ rva - s.virtualAddress
      else rva - s.virtualAddress < s.sizeOfRawData ∧
        h.pointerToRawData + (rva - h.virtualAddress) = s.pointerToRawData + (rva - s.virtualAddress)

section Agreement
variable {image : List UInt8} {headers : List SectionHeader} {imageBase : Nat}

theorem Initialized.found {rva : Nat} (h : Initialized headers rva) :
    (∃ h, (headers.take 32).find? (SectionHeader.reaches rva) = some h) ∧
      ∃ s, headers.find? (SectionHeader.contains rva) = some s := by
  obtain ⟨h, hmem, hlo, hhi⟩ := h
  rw [← Option.isSome_iff_exists, ← Option.isSome_iff_exists, List.find?_isSome, List.find?_isSome]
  refine ⟨⟨h, hmem, ?_⟩, h, List.mem_of_mem_take hmem, ?_⟩
  · rw [SectionHeader.reaches, Bool.and_eq_true, decide_eq_true_eq, decide_eq_true_eq]
    omega
  · rw [SectionHeader.contains, Bool.and_eq_true, decide_eq_true_eq, decide_eq_true_eq]
    omega

theorem walkRight_iff {rva : Nat} (h : Initialized headers rva) :
    walkOffset image (headers.take 32) rva = Outcome.ofOption (mapOffset headers rva) ↔ WalkRight headers rva := by
  obtain ⟨⟨h, hwalk⟩, s, hmap⟩ := h.found
  unfold walkOffset mapOffset WalkRight
  simp only [hwalk, hmap, Option.some.injEq, forall_eq', Option.bind_some]
  by_cases hrelocations : h.pointerToRelocations ≤ rva - h.virtualAddress
  · rw [if_pos hrelocations, if_pos hrelocations]
    by_cases hraw : rva - s.virtualAddress < s.sizeOfRawData
    · simp [hraw]
    · simp [hraw, Nat.le_of_not_lt hraw]
  · rw [if_neg hrelocations, if_neg hrelocations]
    by_cases hraw : rva - s.virtualAddress < s.sizeOfRawData
    · simp [hraw]
    · simp [hraw]

/-- The loop passes over the entries of other kinds. -/
theorem codeviewEntry_of_first {debugBytes : List UInt8} {debugOffset debugSize k sizeData ptrRaw : Nat}
    {record : CodeViewRecord}
    (hbytes : ∀ o n, o + n ≤ debugSize → Bytes.numberAt debugBytes o n = Bytes.numberAt image (debugOffset + o) n)
    (hfile : debugOffset + debugSize ≤ image.length) (hk : k < debugSize / imageDebugDirectorySize)
    (hbefore : ∀ i < k,
      Bytes.numberAt image (debugOffset + i * imageDebugDirectorySize + 12) 4 ≠ some imageDebugTypeCodeview)
    (htype : Bytes.numberAt image (debugOffset + k * imageDebugDirectorySize + 12) 4 = some imageDebugTypeCodeview)
    (hsize : Bytes.numberAt image (debugOffset + k * imageDebugDirectorySize + 16) 4 = some sizeData)
    (hptr : Bytes.numberAt image (debugOffset + k * imageDebugDirectorySize + 24) 4 = some ptrRaw)
    (hparse : parsePdb70AtOffset image ptrRaw sizeData = some record) {rounds i : Nat} (hi : i ≤ k) (hrounds : k < i + rounds) :
    codeviewEntry image debugBytes rounds i = .some record := by
  have hentry : k * 28 + 28 ≤ debugSize := by
    unfold imageDebugDirectorySize at hk
    omega
  induction rounds generalizing i with
  | zero => omega
  | succ rounds ih =>
    rw [codeviewEntry]
    by_cases hlast : i = k
    · subst hlast
      have hread : ∀ o n, o + 4 ≤ 28 → Bytes.numberAt image (debugOffset + i * imageDebugDirectorySize + o) 4 = some n →
          readU32Le debugBytes (i * imageDebugDirectorySize + o) = .some n := by
        intro o n ho hn
        rw [readU32Le, hbytes _ 4 (by unfold imageDebugDirectorySize; omega), ← Nat.add_assoc, hn]
      rw [hread 12 _ (by decide) htype, Outcome.some_bind, if_neg (by simp), hread 16 _ (by decide) hsize,
        Outcome.some_bind, hread 24 _ (by decide) hptr, Outcome.some_bind, hparse, Outcome.ofOption_some]
    · have hlt : i < k := by omega
      have hother := hbefore i hlt
      obtain ⟨type, htypeAt⟩ : ∃ type, Bytes.numberAt image (debugOffset + i * imageDebugDirectorySize + 12) 4 = some type := by
        rw [← Option.isSome_iff_exists, Bytes.numberAt_isSome]
        unfold imageDebugDirectorySize
        omega
      have hread : readU32Le debugBytes (i * imageDebugDirectorySize + 12) = .some type := by
        rw [readU32Le, hbytes _ 4 (by unfold imageDebugDirectorySize; omega), ← Nat.add_assoc, htypeAt]
      have hne : type ≠ imageDebugTypeCodeview := by
        rintro rfl
        exact hother htypeAt
      rw [hread, Outcome.some_bind, if_pos hne]
      exact ih (by omega) (by omega)

theorem listedFirst_of_agree (hagree : ReadersAgree image headers imageBase) : ListedFirst image headers imageBase := by
  rintro rva size offset record hentry hinitialized hoffset
    ⟨hfile, k, hk, hbefore, htype, sizeData, ptrRaw, hsize, hptr, hparse⟩
  have hlocation : debugDirectoryLocation image = .some (offset, size) := by
    rw [debugDirectoryLocation, hentry, Outcome.some_bind]
    dsimp only
    rw [hagree rva hinitialized, hoffset]
    rfl
  have hmany : ¬size < imageDebugDirectorySize := by
    unfold imageDebugDirectorySize at hk ⊢
    omega
  have hbytes : ∀ o n, o + n ≤ size →
      Bytes.numberAt ((image.take (offset + size)).drop offset) o n = Bytes.numberAt image (offset + o) n := by
    intro o n hon
    rw [Bytes.numberAt_drop, Bytes.numberAt_take (by omega)]
  have hlen : ((image.take (offset + size)).drop offset).length = size := by
    rw [List.length_drop, List.length_take]
    omega
  have hfound : findCodeviewInDebugDirectory image = .some record := by
    rw [findCodeviewInDebugDirectory, hlocation, Outcome.some_bind]
    dsimp only
    rw [if_neg hmany, Outcome.get, if_pos ⟨Nat.le_add_right _ _, hfile⟩, Outcome.ofOption_some, Outcome.some_bind, hlen]
    exact codeviewEntry_of_first hbytes hfile hk hbefore htype hsize hptr hparse (Nat.zero_le _) (by omega)
  rw [findCodeviewRecord, hfound]
  rfl

theorem rvaToFileOffset_iff (h : HasSections image headers) (hbase : imageBase + 2 ^ 33 < 2 ^ 64) :
    ReadersAgree image headers imageBase ∧ ListedFirst image headers imageBase ↔
      ∀ rva, Initialized headers rva → WalkRight headers rva := by
  have hagree : ReadersAgree image headers imageBase ↔ ∀ rva, Initialized headers rva → WalkRight headers rva := by
    refine forall_congr' fun rva => forall_congr' fun hinitialized => ?_
    rw [rvaToFileOffset_eq h, vaToOffset_eq h hbase, walkRight_iff hinitialized]
  rw [hagree, and_iff_left_iff_imp, ← hagree]
  exact listedFirst_of_agree

/-- Sections that share no address, be it one that they only have in the file. -/
def Disjoint (headers : List SectionHeader) : Prop :=
  headers.Pairwise fun h s => Loader.Apart h.virtualAddress (max h.virtualSize h.sizeOfRawData)
    s.virtualAddress (max s.virtualSize s.sizeOfRawData)

theorem Disjoint.eq {headers : List SectionHeader} (hdisjoint : Disjoint headers) {h s : SectionHeader} {rva : Nat}
    (hh : h ∈ headers) (hs : s ∈ headers) (hlo : h.virtualAddress ≤ rva)
    (hhi : rva < h.virtualAddress + max h.virtualSize h.sizeOfRawData) (hslo : s.virtualAddress ≤ rva)
    (hshi : rva < s.virtualAddress + max s.virtualSize s.sizeOfRawData) : h = s := by
  by_contra hne
  have hsymm : Std.Symm fun h s : SectionHeader => Loader.Apart h.virtualAddress (max h.virtualSize h.sizeOfRawData)
      s.virtualAddress (max s.virtualSize s.sizeOfRawData) := ⟨fun _ _ h => h.symm⟩
  have hapart := hdisjoint.forall hh hs hne rva hlo hhi hslo
  omega

/-- An initialized address is found by both readers in its section. -/
theorem Disjoint.found {headers : List SectionHeader} (hdisjoint : Disjoint headers) {h : SectionHeader} {rva : Nat}
    (hh : h ∈ headers.take 32) (hlo : h.virtualAddress ≤ rva)
    (hhi : rva < h.virtualAddress + min h.virtualSize h.sizeOfRawData) :
    (headers.take 32).find? (SectionHeader.reaches rva) = some h ∧ headers.find? (SectionHeader.contains rva) = some h := by
  have hmem := List.mem_of_mem_take hh
  obtain ⟨⟨w, hw⟩, s, hs⟩ := Initialized.found ⟨h, hh, hlo, hhi⟩
  have hreaches := List.find?_some hw
  have hcontains := List.find?_some hs
  rw [SectionHeader.reaches, Bool.and_eq_true, decide_eq_true_eq, decide_eq_true_eq] at hreaches
  rw [SectionHeader.contains, Bool.and_eq_true, decide_eq_true_eq, decide_eq_true_eq] at hcontains
  have hwalk : h = w := hdisjoint.eq hmem (List.mem_of_mem_take (List.mem_of_find?_eq_some hw)) hlo (by omega)
    hreaches.1 (by omega)
  have hmap : h = s := hdisjoint.eq hmem (List.mem_of_find?_eq_some hs) hlo (by omega) hcontains.1 (by omega)
  exact ⟨by rw [hw, hwalk], by rw [hs, hmap]⟩

theorem agrees_iff_of_disjoint (hdisjoint : Disjoint headers) : (∀ rva, Initialized headers rva → WalkRight headers rva) ↔
    ∀ h ∈ headers.take 32, min h.virtualSize h.sizeOfRawData ≤ h.pointerToRelocations := by
  constructor
  · intro hright h hh
    by_contra hlt
    have hlt' : h.pointerToRelocations < min h.virtualSize h.sizeOfRawData := Nat.lt_of_not_le hlt
    -- The first address that the walk takes for uninitialized.
    obtain ⟨hwalk, hmap⟩ := hdisjoint.found hh (Nat.le_add_right _ h.pointerToRelocations) (by omega)
    have hwrong := hright _ ⟨h, hh, Nat.le_add_right _ h.pointerToRelocations, by omega⟩ h hwalk h hmap
    rw [Nat.add_sub_cancel_left, if_pos (Nat.le_refl _)] at hwrong
    omega
  · rintro hreloc rva ⟨h, hh, hlo, hhi⟩
    have hle := hreloc h hh
    obtain ⟨hwalk, hmap⟩ := hdisjoint.found hh hlo hhi
    intro w hw s hs
    obtain rfl := Option.some.inj (hwalk.symm.trans hw)
    obtain rfl := Option.some.inj (hmap.symm.trans hs)
    rw [if_neg (by omega)]
    exact ⟨by omega, rfl⟩

end Agreement

/-- The offsets before the first signature are skipped. -/
theorem scanImageForRsds_skip {image : List UInt8} (rounds : Nat) {k offset : Nat}
    (h : ∀ rest ∈ (image.drop offset).tails.take k, rest.take 4 ≠ rsds) :
    scanImageForRsds image (rounds + k) offset = scanImageForRsds image rounds (offset + k) := by
  induction k generalizing offset with
  | zero => rfl
  | succ k ih =>
    have hhere : (image.drop offset).take 4 ≠ rsds := by
      cases hdrop : image.drop offset with
      | nil => exact h [] (by simp [hdrop])
      | cons b rest => exact h (b :: rest) (by simp [hdrop])
    have hnext : ∀ rest ∈ (image.drop (offset + 1)).tails.take k, rest.take 4 ≠ rsds := by
      rw [← List.drop_drop]
      cases hdrop : image.drop offset with
      | nil =>
        intro rest hrest
        exact h rest (by rw [hdrop]; exact List.take_subset_take_left _ (Nat.le_succ k) hrest)
      | cons b rest' =>
        intro rest hrest
        exact h rest (by rw [hdrop]; exact List.mem_cons_of_mem _ hrest)
    rw [← Nat.add_assoc, scanImageForRsds, if_neg hhere, ih hnext, Nat.add_assoc, Nat.add_comm 1 k]

/-- A record with a name of one letter before `.pdb`. -/
def recordBytes (letter : UInt8) : List UInt8 :=
  rsds ++ List.replicate 16 letter ++ [1, 0, 0, 0] ++ [letter, 0x2E, 0x70, 0x64, 0x62, 0]

def recordOf (letter : UInt8) : CodeViewRecord where
  guid := ⟨letter.toNat * 0x1010101, letter.toNat * 0x101, letter.toNat * 0x101, List.replicate 8 letter⟩
  age := 1
  pdbName := [Char.ofNat letter.toNat, '.', 'p', 'd', 'b']

/-- An x64 image with one section, which is the debug directory. It lists the second of the
two records behind it. -/
def listedImage (pointerToRelocations : UInt8) : List UInt8 :=
  [0x4d, 0x5a] ++ List.replicate 58 0 ++ [0x40, 0, 0, 0] ++
  [0x50, 0x45, 0, 0, 0x64, 0x86, 1, 0] ++ List.replicate 12 0 ++ [152, 0, 0, 0] ++
  [0x0b, 0x02] ++ List.replicate 106 0 ++ [16, 0, 0, 0] ++ List.replicate 32 0 ++ [0x00, 0x10, 0, 0, 28, 0, 0, 0] ++
  List.replicate 8 0 ++ [28, 0, 0, 0, 0x00, 0x10, 0, 0, 28, 0, 0, 0, 0x18, 0x01, 0, 0] ++
  [pointerToRelocations, 0, 0, 0] ++ List.replicate 8 0 ++ [0x40, 0, 0, 0x40] ++
  List.replicate 12 0 ++ [2, 0, 0, 0, 30, 0, 0, 0, 0, 0, 0, 0, 0x52, 0x01, 0, 0] ++ recordBytes 0x62 ++ recordBytes 0x61

def listedHeader (pointerToRelocations : Nat) : SectionHeader where
  virtualSize := 28
  virtualAddress := 0x1000
  sizeOfRawData := 28
  pointerToRawData := 0x118
  pointerToRelocations := pointerToRelocations
  characteristics := 0x40000040

theorem hasSections_listedImage {pointerToRelocations : UInt8}
    (hread : Bytes.numberAt (listedImage pointerToRelocations) 0x3c 4 = some 0x40 ∧
      Bytes.numberAt (listedImage pointerToRelocations) 0x46 2 = some 1 ∧
      Bytes.numberAt (listedImage pointerToRelocations) 0x54 2 = some 152 ∧
      sectionHeaderAt (listedImage pointerToRelocations) 240 = some (listedHeader pointerToRelocations.toNat)) :
    HasSections (listedImage pointerToRelocations) [listedHeader pointerToRelocations.toNat] := by
  obtain ⟨hpe, hcount, hoptional, hheader⟩ := hread
  refine ⟨0x40, 152, hpe, hcount, hoptional, fun i h hi => ?_⟩
  cases i with
  | zero =>
    obtain rfl := Option.some.inj hi
    exact hheader
  | succ i => cases hi

/-- With a pointer to relocations behind the data. -/
theorem readersAgree_listedImage : ReadersAgree (listedImage 28) [listedHeader 28] 0x140000000 ∧
    ListedFirst (listedImage 28) [listedHeader 28] 0x140000000 := by
  have hsections := @hasSections_listedImage 28 (by decide +kernel)
  refine (rvaToFileOffset_iff hsections (by decide)).mpr ((agrees_iff_of_disjoint (List.pairwise_singleton _ _)).mpr ?_)
  intro h hh
  obtain rfl := List.mem_singleton.mp hh
  decide

/-- Without relocations the directory is not found, and the first record of the file is taken
for the one of the image. -/
theorem readers_disagree : HasSections (listedImage 0) [listedHeader 0] ∧
    rvaToFileOffset (listedImage 0) 0x1000 = .none ∧
    Loader.vaToOffset (spaceOf 0x140000000 [listedHeader 0]) 0x140001000 = .some 0x118 ∧
    Lists (listedImage 0) 0x118 28 (recordOf 0x61) ∧ findCodeviewRecord (listedImage 0) = .some (recordOf 0x62) ∧
    ¬(ReadersAgree (listedImage 0) [listedHeader 0] 0x140000000 ∧
      ListedFirst (listedImage 0) [listedHeader 0] 0x140000000) := by
  have hsections := @hasSections_listedImage 0 (by decide +kernel)
  have hwalk : rvaToFileOffset (listedImage 0) 0x1000 = .none := by decide +kernel
  have hmap : Loader.vaToOffset (spaceOf 0x140000000 [listedHeader 0]) 0x140001000 = .some 0x118 := by decide +kernel
  have hlists : Lists (listedImage 0) 0x118 28 (recordOf 0x61) :=
    ⟨by decide +kernel, 0, by decide, by simp, by decide +kernel, 30, 0x152, by decide +kernel, by decide +kernel,
      by decide +kernel⟩
  have hfound : findCodeviewRecord (listedImage 0) = .some (recordOf 0x62) := by
    have hscan := @scanImageForRsds_skip (listedImage 0) 36 308 0 (by decide +kernel)
    rw [findCodeviewRecord, show (listedImage 0).length - 24 = 36 + 308 by decide +kernel, hscan]
    decide +kernel
  refine ⟨hsections, hwalk, hmap, hlists, hfound, fun hagree => ?_⟩
  have hsame := hagree.1 0x1000 ⟨listedHeader 0, List.mem_cons_self, by decide, by decide⟩
  rw [hwalk] at hsame
  exact absurd (hsame.trans hmap) (by simp)

end Windy.DebugDir
