import Windy.Lib.Bytes
import Windy.Lib.Utf8
import Windy.Loader.AddressSpace

/- The import tables (`loader/imports.rs`).

   The import directory is an array of descriptors, one for each library. A descriptor leads
   to the name of the library and to a table of entries, and each entry to the name of a
   function, or it is an ordinal. There is a slot of the import address table for each entry.

   Addresses are relative to the image base, and the sums are checked. The header is sliced
   before its length is known. An entry that cannot be read ends the whole list, and so does
   the name of a library; the name of a function does not.

   A name is read through a window of 256 bytes: if the file ends before the window does there
   is no name, and a longer name is cut.

   What is proved: the parser panics exactly where a header with a known magic is cut off, or
   a sum overflows that it comes to (`parseImportSlots_ne_panic`).

   Correspondence:
     `parse_import_slots` ↔ `parseImportSlots`; the loop over the descriptors
                               `walkDescriptors`, its body `descriptorSlots`; the loop over the
                               entries `walkEntries`, `entryAt` and `slotAt` its body
     `import_directory_rva`, `read_ascii_at_rva` ↔ the same
     `read_u32_le`, .. ↔ `readLe`, with the number of bytes -/
namespace Windy.Imports

def imageImportDescriptorSize : Nat := 20

def imageDirectoryEntryImport : Nat := 1

structure ImportSlot where
  dll : List Char
  name : Option (List Char)
  ordinal : Option Nat
  iatVa : Nat
  deriving DecidableEq, Repr

/-- The number in the first bytes, zero if there are fewer. -/
def readLe (width : Nat) (bytes : List UInt8) : Nat := (Bytes.numberAt bytes 0 width).getD 0

section Directory
variable (image : List UInt8)

/-- The import directory in an optional header, by the offsets of its fields. -/
def importDirectoryEntry (optionalOffset dataDirsOffset numDirsOffset : Nat) : Outcome (Nat × Nat) := do
  let numDirs ← Outcome.slice image (optionalOffset + numDirsOffset) (optionalOffset + numDirsOffset + 4)
  let entryOffset := optionalOffset + dataDirsOffset + imageDirectoryEntryImport * 8
  if readLe 4 numDirs ≤ imageDirectoryEntryImport then Outcome.none
  else if image.length < Outcome.saturatingAdd 64 entryOffset 8 then Outcome.none
  else do
    let rva ← Outcome.slice image entryOffset (entryOffset + 4)
    let size ← Outcome.slice image (entryOffset + 4) (entryOffset + 8)
    if readLe 4 rva = 0 ∨ readLe 4 size = 0 then Outcome.none else return (readLe 4 rva, readLe 4 size)

def importDirectoryRva : Outcome (Nat × Nat) :=
  if image.length < 0x40 then Outcome.none
  else do
    let peOffset := readLe 4 (← Outcome.slice image 0x3c 0x40)
    if image.length < Outcome.saturatingAdd 64 peOffset 24 then Outcome.none
    else do
      let signature ← Outcome.slice image peOffset (peOffset + 4)
      if signature ≠ [0x50, 0x45, 0, 0] then Outcome.none
      else do
        let coffOffset := peOffset + 4
        let optionalOffset := coffOffset + 20
        let magic := readLe 2 (← Outcome.slice image optionalOffset (optionalOffset + 2))
        if magic = 0x10b then importDirectoryEntry image optionalOffset 96 92
        else if magic = 0x20b then importDirectoryEntry image optionalOffset 112 108
        else Outcome.none

end Directory

section Parse
variable (image : List UInt8) (space : AddressSpace) (imageBase : Nat)

def readAsciiAtRva (rva : Nat) : Outcome (List Char) := do
  let va ← Outcome.add 64 imageBase rva
  let bytes ← Loader.sliceForVa space image va 256
  return Utf8.fromUtf8Lossy (bytes.takeWhile fun b => b ≠ 0)

/-- The entry of a table at this index. -/
def entryAt (ptrSize iltRva idx : Nat) : Outcome Nat := do
  let start ← Outcome.add 64 imageBase iltRva
  let offset ← Outcome.mul 64 idx ptrSize
  let entryVa ← Outcome.add 64 start offset
  let entryBytes ← Loader.sliceForVa space image entryVa ptrSize
  return if ptrSize = 8 then readLe 8 entryBytes else readLe 4 entryBytes

/-- The top bit of an entry: it is an ordinal. -/
def isOrdinal (ptrSize entry : Nat) : Bool := if ptrSize = 8 then entry.testBit 63 else entry.testBit 31

/-- The slot for an entry that is not zero. -/
def slotAt (dll : List Char) (iatStartVa ptrSize idx entry : Nat) : Outcome ImportSlot := do
  let offset ← Outcome.mul 64 idx ptrSize
  let iatVa ← Outcome.add 64 iatStartVa offset
  if isOrdinal ptrSize entry then return ⟨dll, none, some (entry % 2 ^ 16), iatVa⟩
  else
    let importByNameRva := entry % 2 ^ 32
    let nameRva ← Outcome.add 32 importByNameRva 2
    let name ← Outcome.attempt (readAsciiAtRva image space imageBase nameRva)
    return ⟨dll, name, none, iatVa⟩

/-- The loop over the entries from this index on. The index is a `usize`: there are so many
rounds before its sum panics. -/
def walkEntries (dll : List Char) (iatStartVa ptrSize iltRva : Nat) : Nat → Nat → Outcome (List ImportSlot)
  | 0, _ => Outcome.panic
  | rounds + 1, idx => do
    let entry ← entryAt image space imageBase ptrSize iltRva idx
    if entry = 0 then return []
    else
      let slot ← slotAt image space imageBase dll iatStartVa ptrSize idx entry
      let rest ← walkEntries dll iatStartVa ptrSize iltRva rounds (idx + 1)
      return slot :: rest

def originalFirstThunk (desc : List UInt8) : Nat := readLe 4 (desc.take 4)

def nameRva (desc : List UInt8) : Nat := readLe 4 ((desc.take 16).drop 12)

def firstThunk (desc : List UInt8) : Nat := readLe 4 ((desc.take 20).drop 16)

/-- The table that is read: that of the names, or else the one of the addresses. -/
def iltRva (desc : List UInt8) : Nat := if originalFirstThunk desc ≠ 0 then originalFirstThunk desc else firstThunk desc

/-- The slots of a descriptor that is not the last. -/
def descriptorSlots (ptrSize : Nat) (desc : List UInt8) : Outcome (List ImportSlot) :=
  if nameRva desc = 0 then return []
  else do
    let dll ← readAsciiAtRva image space imageBase (nameRva desc)
    let iatStartVa ← Outcome.add 64 imageBase (firstThunk desc)
    walkEntries image space imageBase dll iatStartVa ptrSize (iltRva desc) (2 ^ 64) 0

def walkDescriptors (ptrSize : Nat) : List (List UInt8) → Outcome (List ImportSlot)
  | [] => return []
  | desc :: rest =>
    if firstThunk desc = 0 then return []
    else do
      let slots ← descriptorSlots image space imageBase ptrSize desc
      let others ← walkDescriptors ptrSize rest
      return slots ++ others

def parseImportSlots (bitness : Nat) : Outcome (List ImportSlot) := do
  let (importDescRva, importSize) ← importDirectoryRva image
  if importSize = 0 then return []
  let ptrSize := bitness / 8
  let descVa ← Outcome.add 64 imageBase importDescRva
  let descBytes ← Loader.sliceForVa space image descVa importSize
  walkDescriptors image space imageBase ptrSize (Bytes.chunksExact imageImportDescriptorSize descBytes)

end Parse

/-! ## The header -/

/-- The header of a PE file with a known magic goes on up to the number of directories. -/
def HeaderFits (image : List UInt8) : Prop :=
  ∀ peOffset, 0x40 ≤ image.length → Bytes.numberAt image 0x3c 4 = some peOffset → peOffset + 24 ≤ image.length →
    (image.take (peOffset + 4)).drop peOffset = [0x50, 0x45, 0, 0] → peOffset + 26 ≤ image.length ∧
      (Bytes.numberAt image (peOffset + 24) 2 = some 0x10b → peOffset + 120 ≤ image.length) ∧
      (Bytes.numberAt image (peOffset + 24) 2 = some 0x20b → peOffset + 136 ≤ image.length)

section Header
variable {image : List UInt8}

/-- A slice of an image, and the number in it. -/
theorem slice_number {offset width : Nat} (hfits : offset + width ≤ image.length) :
    ∃ bytes n, Outcome.slice image offset (offset + width) = .some bytes ∧ readLe width bytes = n ∧
      Bytes.numberAt image offset width = some n := by
  have hsome : (Bytes.numberAt image offset width).isSome := Bytes.numberAt_isSome.mpr (.inr hfits)
  obtain ⟨n, hn⟩ := Option.isSome_iff_exists.mp hsome
  refine ⟨_, n, if_pos ⟨Nat.le_add_right _ _, hfits⟩, ?_, hn⟩
  rw [readLe, Bytes.numberAt_drop, Bytes.numberAt_take (by omega), Nat.add_zero, hn, Option.getD_some]

theorem slice_panic {start stop : Nat} (hout : image.length < stop) : Outcome.slice image start stop = .panic :=
  if_neg fun h => by omega

theorem importDirectoryEntry_ne_panic {optionalOffset dataDirsOffset numDirsOffset : Nat} (hoptional : optionalOffset < 2 ^ 33)
    (hdirs : dataDirsOffset < 2 ^ 32) : importDirectoryEntry image optionalOffset dataDirsOffset numDirsOffset ≠ .panic ↔
      optionalOffset + numDirsOffset + 4 ≤ image.length := by
  have hone : imageDirectoryEntryImport = 1 := rfl
  unfold importDirectoryEntry
  by_cases hfits : optionalOffset + numDirsOffset + 4 ≤ image.length
  · obtain ⟨numDirs, n, hnumDirs, -, -⟩ := slice_number hfits
    rw [hnumDirs, Outcome.some_bind, iff_true_right hfits]
    dsimp only
    rw [Outcome.saturatingAdd, Nat.min_eq_left (by omega)]
    split
    · simp
    · split
      · simp
      · obtain ⟨rva, n₁, hrva, -, -⟩ :=
          @slice_number image (optionalOffset + dataDirsOffset + imageDirectoryEntryImport * 8) 4 (by omega)
        obtain ⟨size, n₂, hsize, -, -⟩ :=
          @slice_number image (optionalOffset + dataDirsOffset + imageDirectoryEntryImport * 8 + 4) 4 (by omega)
        rw [hrva, Outcome.some_bind, hsize, Outcome.some_bind]
        split <;> simp
  · rw [slice_panic (by omega), Outcome.panic_bind]
    exact iff_of_false (fun h => h rfl) hfits

theorem importDirectoryRva_ne_panic : importDirectoryRva image ≠ .panic ↔ HeaderFits image := by
  unfold importDirectoryRva HeaderFits
  by_cases hdos : image.length < 0x40
  · rw [if_pos hdos]
    refine iff_of_true (by simp) fun _ hlength => ?_
    omega
  rw [if_neg hdos]
  obtain ⟨bytes, peOffset, hslice, hread, hnumber⟩ := @slice_number image 0x3c 4 (by omega)
  have hpe := Bytes.numberAt_lt hnumber
  rw [hslice, Outcome.some_bind, hread]
  dsimp only
  rw [Outcome.saturatingAdd, Nat.min_eq_left (by omega)]
  simp only [hnumber, Option.some.injEq]
  by_cases hcoff : image.length < peOffset + 24
  · rw [if_pos hcoff]
    refine iff_of_true (by simp) fun _ _ heq hlength => ?_
    omega
  rw [if_neg hcoff, Outcome.slice, if_pos ⟨Nat.le_add_right _ _, by omega⟩, Outcome.some_bind]
  by_cases hsignature : (image.take (peOffset + 4)).drop peOffset ≠ [0x50, 0x45, 0, 0]
  · rw [if_pos hsignature]
    refine iff_of_true (by simp) fun _ _ heq _ hsame => ?_
    subst heq
    exact absurd hsame hsignature
  rw [if_neg hsignature]
  rw [not_not] at hsignature
  have hthis : ∀ {P : Nat → Prop}, (∀ o, 0x40 ≤ image.length → peOffset = o → o + 24 ≤ image.length →
      (image.take (o + 4)).drop o = [0x50, 0x45, 0, 0] → P o) ↔ P peOffset := by
    intro P
    constructor
    · intro h
      exact h peOffset (by omega) rfl (by omega) hsignature
    · rintro h o - rfl - -
      exact h
  rw [hthis]
  by_cases hoptional : peOffset + 26 ≤ image.length
  · obtain ⟨magicBytes, magic, hmagic, hreadMagic, hmagicAt⟩ := @slice_number image (peOffset + 4 + 20) 2 (by omega)
    rw [hmagic, Outcome.some_bind, hreadMagic, and_iff_right hoptional]
    have hat : Bytes.numberAt image (peOffset + 24) 2 = some magic := hmagicAt
    rw [hat]
    by_cases hpe32 : magic = 0x10b
    · rw [if_pos hpe32, importDirectoryEntry_ne_panic (by omega) (by omega), hpe32]
      simp
    · rw [if_neg hpe32]
      by_cases hplus : magic = 0x20b
      · rw [if_pos hplus, importDirectoryEntry_ne_panic (by omega) (by omega), hplus]
        simp
      · rw [if_neg hplus]
        simp [hpe32, hplus]
  · rw [slice_panic (by omega), Outcome.panic_bind]
    exact iff_of_false (fun h => h rfl) fun h => hoptional h.1

/-- A directory that is found is not empty. -/
theorem importDirectoryRva_ne_zero {rva size : Nat} (h : importDirectoryRva image = .some (rva, size)) : size ≠ 0 := by
  have hentry : ∀ optionalOffset dataDirsOffset numDirsOffset,
      importDirectoryEntry image optionalOffset dataDirsOffset numDirsOffset = .some (rva, size) → size ≠ 0 := by
    intro optionalOffset dataDirsOffset numDirsOffset hfound
    unfold importDirectoryEntry at hfound
    obtain ⟨_, -, hfound⟩ := Outcome.bind_eq_some.mp hfound
    dsimp only at hfound
    split at hfound
    · cases hfound
    · split at hfound
      · cases hfound
      · obtain ⟨_, -, hfound⟩ := Outcome.bind_eq_some.mp hfound
        obtain ⟨_, -, hfound⟩ := Outcome.bind_eq_some.mp hfound
        split at hfound
        · cases hfound
        · next hne =>
          cases hfound
          exact fun hzero => hne (.inr hzero)
  unfold importDirectoryRva at h
  split at h
  · cases h
  · obtain ⟨_, -, h⟩ := Outcome.bind_eq_some.mp h
    dsimp only at h
    split at h
    · cases h
    · obtain ⟨_, -, h⟩ := Outcome.bind_eq_some.mp h
      split at h
      · cases h
      · obtain ⟨_, -, h⟩ := Outcome.bind_eq_some.mp h
        split at h
        · exact hentry _ _ _ h
        · split at h
          · exact hentry _ _ _ h
          · cases h

end Header

/-! ## Sums -/

/-- No section that a lookup comes to begins behind the last address. -/
def LookupFits (space : AddressSpace) (va : Nat) : Prop :=
  ∀ before s after, space.sections = before ++ s :: after →
    (∀ t ∈ before, Loader.sectionContainsVa t space.imageBase va = .some false) → space.imageBase + s.vaddr < 2 ^ 64

theorem sliceForVa_ne_panic {space : AddressSpace} {image : List UInt8} {va len : Nat} :
    Loader.sliceForVa space image va len ≠ .panic ↔ LookupFits space va := by
  have hsection : Loader.sectionAtVa space va ≠ .panic ↔ LookupFits space va := by
    rw [Loader.sectionAtVa, Outcome.find_ne_panic_iff fun s _ => Loader.sectionContainsVa_ne_none]
    simp only [Loader.sectionContainsVa_ne_panic, LookupFits]
  rw [Loader.sliceForVa, Outcome.bind_ne_panic, hsection]
  apply and_iff_left_of_imp
  intro _ s hs
  -- What follows the lookup does not panic.
  obtain ⟨-, hcontains⟩ := Loader.sectionAtVa_contains hs
  rw [Outcome.bind_ne_panic]
  refine ⟨?_, fun offset _ => ?_⟩
  · rw [Loader.sectionVaToOffset, hcontains, Outcome.some_bind]
    split
    · simp
    · dsimp only
      split <;> simp
  · rw [Outcome.bind_ne_panic]
    exact ⟨Outcome.ofOption_ne_panic _, fun stop _ => Outcome.ofOption_ne_panic _⟩

section Fits
variable (image : List UInt8) (space : AddressSpace) (imageBase : Nat)

/-- The sums of a name. -/
def NameFits (rva : Nat) : Prop := imageBase + rva < 2 ^ 64 ∧ LookupFits space (imageBase + rva)

/-- The entry is there, and it is not the last. -/
def GoesOn (ptrSize iltRva idx : Nat) : Prop :=
  ∃ entry, entryAt image space imageBase ptrSize iltRva idx = .some entry ∧ entry ≠ 0

/-- All entries of a table in front of this index go on. -/
def Reached (ptrSize iltRva idx : Nat) : Prop := ∀ j < idx, GoesOn image space imageBase ptrSize iltRva j

/-- The sums of an entry. -/
structure EntryFits (ptrSize iltRva firstThunk idx : Nat) : Prop where
  address : imageBase + iltRva + idx * ptrSize < 2 ^ 64
  lookup : LookupFits space (imageBase + iltRva + idx * ptrSize)
  slot : ∀ entry, entryAt image space imageBase ptrSize iltRva idx = .some entry → entry ≠ 0 →
    imageBase + firstThunk + idx * ptrSize < 2 ^ 64 ∧ (isOrdinal ptrSize entry = false →
      entry % 2 ^ 32 + 2 < 2 ^ 32 ∧ NameFits space imageBase (entry % 2 ^ 32 + 2))

/-- The sums of a descriptor: those for the name of its library and, if that is there, those
for the entries of its table. -/
structure DescriptorFits (ptrSize : Nat) (desc : List UInt8) : Prop where
  name : NameFits space imageBase (nameRva desc)
  table : ∀ dll, readAsciiAtRva image space imageBase (nameRva desc) = .some dll →
    imageBase + firstThunk desc < 2 ^ 64 ∧ ∀ idx, Reached image space imageBase ptrSize (iltRva desc) idx →
      EntryFits image space imageBase ptrSize (iltRva desc) (firstThunk desc) idx

/-- The slots of a descriptor are read to their end. -/
def Ends (ptrSize : Nat) (desc : List UInt8) : Prop :=
  nameRva desc = 0 ∨ (∃ dll, readAsciiAtRva image space imageBase (nameRva desc) = .some dll) ∧
    ∃ idx, Reached image space imageBase ptrSize (iltRva desc) idx ∧
      entryAt image space imageBase ptrSize (iltRva desc) idx = .some 0

/-- The sums of the descriptors up to the last one, or to the first that is not read to its end. -/
def DescriptorsFit (ptrSize : Nat) (descs : List (List UInt8)) : Prop :=
  ∀ before desc after, descs = before ++ desc :: after →
    (∀ d ∈ before, firstThunk d ≠ 0 ∧ Ends image space imageBase ptrSize d) → firstThunk desc ≠ 0 → nameRva desc ≠ 0 →
    DescriptorFits image space imageBase ptrSize desc

/-- The sums of the whole list. -/
def SumsFit (bitness : Nat) : Prop :=
  ∀ rva size, importDirectoryRva image = .some (rva, size) → imageBase + rva < 2 ^ 64 ∧ LookupFits space (imageBase + rva) ∧
    ∀ descBytes, Loader.sliceForVa space image (imageBase + rva) size = .some descBytes →
      DescriptorsFit image space imageBase (bitness / 8) (Bytes.chunksExact imageImportDescriptorSize descBytes)

end Fits

section Sums
variable {image : List UInt8} {space : AddressSpace} {imageBase ptrSize ilt idx : Nat} {dll : List Char}

theorem readAsciiAtRva_ne_panic {rva : Nat} : readAsciiAtRva image space imageBase rva ≠ .panic ↔ NameFits space imageBase rva := by
  rw [readAsciiAtRva, Outcome.bind_ne_panic, Outcome.add_ne_panic]
  apply and_congr_right
  intro hsum
  simp only [Outcome.add_eq hsum, Outcome.some.injEq, forall_eq', Outcome.bind_ne_panic, sliceForVa_ne_panic]
  simp

theorem entryAt_ne_panic : entryAt image space imageBase ptrSize ilt idx ≠ .panic ↔
    imageBase + ilt + idx * ptrSize < 2 ^ 64 ∧ LookupFits space (imageBase + ilt + idx * ptrSize) := by
  unfold entryAt
  by_cases hsum : imageBase + ilt + idx * ptrSize < 2 ^ 64
  · rw [Outcome.add_eq (by omega), Outcome.some_bind, Outcome.mul_eq (by omega), Outcome.some_bind, Outcome.add_eq hsum,
      Outcome.some_bind, Outcome.bind_ne_panic, sliceForVa_ne_panic, and_iff_right hsum]
    simp
  · refine iff_of_false (fun hcalm => ?_) fun h => hsum h.1
    rw [Outcome.bind_ne_panic] at hcalm
    obtain ⟨hstart, hcalm⟩ := hcalm
    rw [Outcome.add_ne_panic] at hstart
    have hrest := hcalm _ (Outcome.add_eq hstart)
    rw [Outcome.bind_ne_panic, Outcome.mul_ne_panic] at hrest
    have hlast := hrest.2 _ (Outcome.mul_eq hrest.1)
    rw [Outcome.bind_ne_panic, Outcome.add_ne_panic] at hlast
    exact hsum hlast.1

/-- The slot of an entry whose address fits. -/
theorem slotAt_ne_panic {start entry : Nat} (hidx : idx * ptrSize < 2 ^ 64) :
    slotAt image space imageBase dll start ptrSize idx entry ≠ .panic ↔ start + idx * ptrSize < 2 ^ 64 ∧
      (isOrdinal ptrSize entry = false → entry % 2 ^ 32 + 2 < 2 ^ 32 ∧ NameFits space imageBase (entry % 2 ^ 32 + 2)) := by
  rw [slotAt, Outcome.mul_eq hidx, Outcome.some_bind, Outcome.bind_ne_panic, Outcome.add_ne_panic]
  apply and_congr_right
  intro hsum
  simp only [Outcome.add_eq hsum, Outcome.some.injEq, forall_eq']
  cases isOrdinal ptrSize entry with
  | true => simp
  | false =>
    simp only [Bool.false_eq_true, if_false, true_imp_iff]
    rw [Outcome.bind_ne_panic, Outcome.add_ne_panic]
    apply and_congr_right
    intro hname
    simp only [Outcome.add_eq hname, Outcome.some.injEq, forall_eq', Outcome.bind_ne_panic]
    rw [← readAsciiAtRva_ne_panic]
    cases readAsciiAtRva image space imageBase (entry % 2 ^ 32 + 2) <;> simp [Outcome.attempt]

/-- A slot is there, if nothing panics: a name that cannot be read is left out. -/
theorem slotAt_eq_some {start entry : Nat}
    (hcalm : slotAt image space imageBase dll start ptrSize idx entry ≠ .panic) :
    ∃ slot, slotAt image space imageBase dll start ptrSize idx entry = .some slot := by
  cases hslot : slotAt image space imageBase dll start ptrSize idx entry with
  | panic => exact absurd hslot hcalm
  | some slot => exact ⟨slot, rfl⟩
  | none =>
    exfalso
    unfold slotAt Outcome.mul Outcome.add at hslot
    split at hslot
    · rw [Outcome.some_bind] at hslot
      split at hslot
      · rw [Outcome.some_bind] at hslot
        split at hslot
        · cases hslot
        · dsimp only at hslot
          split at hslot
          · rw [Outcome.some_bind] at hslot
            cases hname : readAsciiAtRva image space imageBase (entry % 2 ^ 32 + 2) <;> rw [hname] at hslot <;> cases hslot
          · cases hslot
      · cases hslot
    · cases hslot

/-- The entry and its slot do not panic. -/
def Calm (image : List UInt8) (space : AddressSpace) (imageBase ptrSize ilt : Nat) (dll : List Char) (start idx : Nat) : Prop :=
  entryAt image space imageBase ptrSize ilt idx ≠ .panic ∧
    ∀ entry, entryAt image space imageBase ptrSize ilt idx = .some entry → entry ≠ 0 →
      slotAt image space imageBase dll start ptrSize idx entry ≠ .panic

/-- One round: the entry, and the rounds behind it if it is not zero. -/
theorem walkEntries_succ_ne_panic {start rounds : Nat} :
    walkEntries image space imageBase dll start ptrSize ilt (rounds + 1) idx ≠ .panic ↔
      Calm image space imageBase ptrSize ilt dll start idx ∧
      (GoesOn image space imageBase ptrSize ilt idx →
        walkEntries image space imageBase dll start ptrSize ilt rounds (idx + 1) ≠ .panic) := by
  rw [walkEntries, Outcome.bind_ne_panic, Calm, and_assoc]
  apply and_congr_right
  intro _
  constructor
  · intro h
    refine ⟨fun entry hentry hne hpanic => ?_, fun ⟨entry, hentry, hne⟩ hpanic => ?_⟩
    · have hround := h entry hentry
      rw [if_neg hne, hpanic] at hround
      exact hround rfl
    · have hround := h entry hentry
      rw [if_neg hne, Outcome.bind_ne_panic] at hround
      obtain ⟨slot, hslot⟩ := slotAt_eq_some hround.1
      have hrest := hround.2 slot hslot
      rw [hpanic] at hrest
      exact hrest rfl
  · rintro ⟨hslots, hrest⟩ entry hentry
    by_cases hzero : entry = 0
    · rw [if_pos hzero]
      simp
    · rw [if_neg hzero, Outcome.bind_ne_panic]
      refine ⟨hslots entry hentry hzero, fun slot _ => ?_⟩
      rw [Outcome.bind_ne_panic]
      exact ⟨hrest ⟨entry, hentry, hzero⟩, fun rest _ => by simp⟩

/-- What holds of so many entries from an index on holds of the first, and of the others. -/
theorem forall_from_succ {P : Nat → Prop} {start k : Nat} :
    (∀ j < k + 1, P (start + j)) ↔ P start ∧ ∀ j < k, P (start + 1 + j) := by
  rw [Nat.forall_lt_succ_left, Nat.add_zero]
  simp only [Nat.add_right_comm start 1, Nat.add_assoc]

/-- Every round that is reached is calm, and there are enough of them. -/
theorem walkEntries_ne_panic {start rounds : Nat} :
    walkEntries image space imageBase dll start ptrSize ilt rounds idx ≠ .panic ↔
      ∀ k, (∀ j < k, GoesOn image space imageBase ptrSize ilt (idx + j)) →
        k < rounds ∧ Calm image space imageBase ptrSize ilt dll start (idx + k) := by
  induction rounds generalizing idx with
  | zero =>
    refine iff_of_false (fun h => h rfl) fun h => ?_
    exact absurd (h 0 fun j hj => absurd hj (Nat.not_lt_zero j)).1 (Nat.not_lt_zero 0)
  | succ rounds ih =>
    have hshift : ∀ k, idx + 1 + k = idx + (k + 1) := fun k => by omega
    rw [walkEntries_succ_ne_panic, ih]
    constructor
    · rintro ⟨hhere, hrest⟩ k hreached
      cases k with
      | zero => exact ⟨Nat.succ_pos rounds, hhere⟩
      | succ k =>
        rw [forall_from_succ] at hreached
        obtain ⟨hlt, hcalm⟩ := hrest hreached.1 k hreached.2
        rw [hshift] at hcalm
        exact ⟨by omega, hcalm⟩
    · intro h
      refine ⟨(h 0 fun j hj => absurd hj (Nat.not_lt_zero j)).2, fun hhere k hreached => ?_⟩
      obtain ⟨hlt, hcalm⟩ := h (k + 1) (forall_from_succ.mpr ⟨hhere, hreached⟩)
      rw [hshift]
      exact ⟨by omega, hcalm⟩

/-- An entry with fewer than four bytes is zero, so the index does not run out. -/
theorem lt_of_reached (hreached : Reached image space imageBase ptrSize ilt idx) : idx < 2 ^ 64 := by
  by_contra hlong
  obtain ⟨entry, hentry, hne⟩ := hreached (2 ^ 64 - 1) (by omega)
  have hcalm : entryAt image space imageBase ptrSize ilt (2 ^ 64 - 1) ≠ .panic := by
    rw [hentry]
    simp
  have hsum := (entryAt_ne_panic.mp hcalm).1
  have hsmall : ptrSize ≤ 1 := by
    by_contra hlarge
    have hmul : (2 ^ 64 - 1) * 2 ≤ (2 ^ 64 - 1) * ptrSize := Nat.mul_le_mul_left _ (by omega)
    omega
  -- Fewer than four bytes have no number of four bytes.
  unfold entryAt at hentry
  obtain ⟨_, -, hentry⟩ := Outcome.bind_eq_some.mp hentry
  obtain ⟨_, -, hentry⟩ := Outcome.bind_eq_some.mp hentry
  obtain ⟨_, -, hentry⟩ := Outcome.bind_eq_some.mp hentry
  obtain ⟨bytes, hbytes, hentry⟩ := Outcome.bind_eq_some.mp hentry
  have hlength := Loader.sliceForVa_length hbytes
  have hnone : Bytes.numberAt bytes 0 4 = none := by
    rw [← Option.not_isSome_iff_eq_none, Bytes.numberAt_isSome]
    omega
  rw [if_neg (by omega), readLe, hnone] at hentry
  exact hne (Outcome.some.inj hentry).symm

theorem calm_iff {ft : Nat} : Calm image space imageBase ptrSize ilt dll (imageBase + ft) idx ↔
    EntryFits image space imageBase ptrSize ilt ft idx := by
  rw [Calm, entryAt_ne_panic]
  constructor
  · rintro ⟨⟨haddress, hlookup⟩, hslots⟩
    refine ⟨haddress, hlookup, fun entry hentry hne => ?_⟩
    exact (slotAt_ne_panic (by omega)).mp (hslots entry hentry hne)
  · intro h
    have haddress := h.address
    refine ⟨⟨haddress, h.lookup⟩, fun entry hentry hne => ?_⟩
    exact (slotAt_ne_panic (by omega)).mpr (h.slot entry hentry hne)

/-- The whole table. -/
theorem walkTable_ne_panic {ft : Nat} :
    walkEntries image space imageBase dll (imageBase + ft) ptrSize ilt (2 ^ 64) 0 ≠ .panic ↔
      ∀ idx, Reached image space imageBase ptrSize ilt idx → EntryFits image space imageBase ptrSize ilt ft idx := by
  rw [walkEntries_ne_panic]
  simp only [Nat.zero_add, calm_iff]
  constructor
  · intro h idx hreached
    exact (h idx hreached).2
  · intro h idx hreached
    exact ⟨lt_of_reached hreached, h idx hreached⟩

/-- A table has slots if it has an end. -/
theorem exists_walkEntries {start rounds : Nat}
    (hcalm : walkEntries image space imageBase dll start ptrSize ilt rounds idx ≠ .panic) :
    (∃ slots, walkEntries image space imageBase dll start ptrSize ilt rounds idx = .some slots) ↔
      ∃ k, (∀ j < k, GoesOn image space imageBase ptrSize ilt (idx + j)) ∧
        entryAt image space imageBase ptrSize ilt (idx + k) = .some 0 := by
  induction rounds generalizing idx with
  | zero => exact absurd rfl hcalm
  | succ rounds ih =>
    have hshift : ∀ k, idx + 1 + k = idx + (k + 1) := fun k => by omega
    obtain ⟨hhere, hrest⟩ := walkEntries_succ_ne_panic.mp hcalm
    constructor
    · rintro ⟨slots, hslots⟩
      rw [walkEntries] at hslots
      obtain ⟨entry, hentry, hround⟩ := Outcome.bind_eq_some.mp hslots
      by_cases hzero : entry = 0
      · subst hzero
        exact ⟨0, fun j hj => absurd hj (Nat.not_lt_zero j), hentry⟩
      · rw [if_neg hzero] at hround
        obtain ⟨slot, -, hround⟩ := Outcome.bind_eq_some.mp hround
        obtain ⟨others, hothers, -⟩ := Outcome.bind_eq_some.mp hround
        obtain ⟨k, hreached, hend⟩ := (ih (hrest ⟨entry, hentry, hzero⟩)).mp ⟨others, hothers⟩
        rw [hshift] at hend
        exact ⟨k + 1, forall_from_succ.mpr ⟨⟨entry, hentry, hzero⟩, hreached⟩, hend⟩
    · rintro ⟨k, hreached, hend⟩
      cases k with
      | zero =>
        refine ⟨[], ?_⟩
        rw [Nat.add_zero] at hend
        rw [walkEntries, hend, Outcome.some_bind, if_pos rfl, Outcome.pure_eq]
      | succ k =>
        obtain ⟨⟨entry, hentry, hne⟩, hreached⟩ := forall_from_succ.mp hreached
        rw [← hshift] at hend
        obtain ⟨others, hothers⟩ := (ih (hrest ⟨entry, hentry, hne⟩)).mpr ⟨k, hreached, hend⟩
        obtain ⟨slot, hslot⟩ := slotAt_eq_some (hhere.2 entry hentry hne)
        refine ⟨slot :: others, ?_⟩
        rw [walkEntries, hentry, Outcome.some_bind, if_neg hne, hslot, Outcome.some_bind, hothers, Outcome.some_bind,
          Outcome.pure_eq]

theorem descriptorSlots_ne_panic {desc : List UInt8} : descriptorSlots image space imageBase ptrSize desc ≠ .panic ↔
    (nameRva desc ≠ 0 → DescriptorFits image space imageBase ptrSize desc) := by
  unfold descriptorSlots
  by_cases hname : nameRva desc = 0
  · rw [if_pos hname]
    exact iff_of_true (by simp) fun hne => absurd hname hne
  rw [if_neg hname, Outcome.bind_ne_panic, readAsciiAtRva_ne_panic]
  constructor
  · rintro ⟨hfits, htable⟩ -
    refine ⟨hfits, fun dll hdll => ?_⟩
    have hwalk := htable dll hdll
    rw [Outcome.bind_ne_panic, Outcome.add_ne_panic] at hwalk
    exact ⟨hwalk.1, walkTable_ne_panic.mp (hwalk.2 _ (Outcome.add_eq hwalk.1))⟩
  · intro h
    obtain ⟨hfits, htable⟩ := h hname
    refine ⟨hfits, fun dll hdll => ?_⟩
    obtain ⟨hstart, hentries⟩ := htable dll hdll
    rw [Outcome.add_eq hstart, Outcome.some_bind]
    exact walkTable_ne_panic.mpr hentries

theorem exists_descriptorSlots {desc : List UInt8} (hcalm : descriptorSlots image space imageBase ptrSize desc ≠ .panic) :
    (∃ slots, descriptorSlots image space imageBase ptrSize desc = .some slots) ↔ Ends image space imageBase ptrSize desc := by
  have hfits := descriptorSlots_ne_panic.mp hcalm
  unfold descriptorSlots Ends
  by_cases hname : nameRva desc = 0
  · rw [if_pos hname]
    exact iff_of_true ⟨[], rfl⟩ (.inl hname)
  have hwalk : ∀ dll, readAsciiAtRva image space imageBase (nameRva desc) = .some dll →
      ((∃ slots, walkEntries image space imageBase dll (imageBase + firstThunk desc) ptrSize (iltRva desc) (2 ^ 64) 0 =
        .some slots) ↔ ∃ idx, Reached image space imageBase ptrSize (iltRva desc) idx ∧
          entryAt image space imageBase ptrSize (iltRva desc) idx = .some 0) := by
    intro dll hdll
    have hends := exists_walkEntries (walkTable_ne_panic.mpr ((hfits hname).table dll hdll).2 :
      walkEntries image space imageBase dll (imageBase + firstThunk desc) ptrSize (iltRva desc) (2 ^ 64) 0 ≠ .panic)
    simp only [Nat.zero_add] at hends
    exact hends
  rw [if_neg hname, or_iff_right hname]
  constructor
  · rintro ⟨slots, hslots⟩
    obtain ⟨dll, hdll, hrest⟩ := Outcome.bind_eq_some.mp hslots
    rw [Outcome.add_eq ((hfits hname).table dll hdll).1, Outcome.some_bind] at hrest
    exact ⟨⟨dll, hdll⟩, (hwalk dll hdll).mp ⟨slots, hrest⟩⟩
  · rintro ⟨⟨dll, hdll⟩, hend⟩
    obtain ⟨slots, hslots⟩ := (hwalk dll hdll).mpr hend
    refine ⟨slots, ?_⟩
    rw [hdll, Outcome.some_bind, Outcome.add_eq ((hfits hname).table dll hdll).1, Outcome.some_bind, hslots]

theorem walkDescriptors_ne_panic {descs : List (List UInt8)} : walkDescriptors image space imageBase ptrSize descs ≠ .panic ↔
    DescriptorsFit image space imageBase ptrSize descs := by
  induction descs with
  | nil =>
    refine iff_of_true (by simp [walkDescriptors]) fun before desc after heq => ?_
    simp at heq
  | cons first rest ih =>
    rw [walkDescriptors]
    by_cases hlast : firstThunk first = 0
    · rw [if_pos hlast]
      refine iff_of_true (by simp) fun before desc after heq hbefore hft => ?_
      cases before with
      | nil =>
        obtain ⟨rfl, -⟩ := List.cons.inj heq
        exact absurd hlast hft
      | cons d before =>
        obtain ⟨rfl, -⟩ := List.cons.inj heq
        exact absurd hlast (hbefore first List.mem_cons_self).1
    rw [if_neg hlast, Outcome.bind_ne_panic]
    constructor
    · rintro ⟨hfirst, hothers⟩ before desc after heq hbefore hft hname
      cases before with
      | nil =>
        obtain ⟨rfl, -⟩ := List.cons.inj heq
        exact descriptorSlots_ne_panic.mp hfirst hname
      | cons d before =>
        obtain ⟨rfl, htail⟩ := List.cons.inj heq
        -- The first descriptor is read to its end, so the walk comes to the others.
        obtain ⟨slots, hslots⟩ := (exists_descriptorSlots hfirst).mpr (hbefore first List.mem_cons_self).2
        have hrest := hothers slots hslots
        rw [Outcome.bind_ne_panic] at hrest
        exact ih.mp hrest.1 before desc after htail (fun d hd => hbefore d (List.mem_cons_of_mem first hd)) hft hname
    · intro h
      have hfirst : descriptorSlots image space imageBase ptrSize first ≠ .panic := by
        apply descriptorSlots_ne_panic.mpr
        intro hname
        exact h [] first rest rfl (by simp) hlast hname
      refine ⟨hfirst, fun slots hslots => ?_⟩
      rw [Outcome.bind_ne_panic]
      refine ⟨ih.mpr fun before desc after heq hbefore => ?_, fun others _ => by simp⟩
      apply h (first :: before) desc after (by rw [heq]; rfl)
      intro d hd
      rcases List.mem_cons.mp hd with rfl | hd
      · exact ⟨hlast, (exists_descriptorSlots hfirst).mp ⟨slots, hslots⟩⟩
      · exact hbefore d hd

/-- Where the parser panics. -/
theorem parseImportSlots_ne_panic {bitness : Nat} : parseImportSlots image space imageBase bitness ≠ .panic ↔
    HeaderFits image ∧ SumsFit image space imageBase bitness := by
  rw [parseImportSlots, Outcome.bind_ne_panic, importDirectoryRva_ne_panic]
  apply and_congr_right
  intro _
  have hwalk : ∀ rva size, importDirectoryRva image = .some (rva, size) → (((do
      if size = 0 then return []
      let ptrSize := bitness / 8
      let descVa ← Outcome.add 64 imageBase rva
      let descBytes ← Loader.sliceForVa space image descVa size
      walkDescriptors image space imageBase ptrSize (Bytes.chunksExact imageImportDescriptorSize descBytes) :
        Outcome (List ImportSlot)) ≠ .panic) ↔ imageBase + rva < 2 ^ 64 ∧ LookupFits space (imageBase + rva) ∧
      ∀ descBytes, Loader.sliceForVa space image (imageBase + rva) size = .some descBytes →
        DescriptorsFit image space imageBase (bitness / 8) (Bytes.chunksExact imageImportDescriptorSize descBytes)) := by
    intro rva size hfound
    rw [if_neg (importDirectoryRva_ne_zero hfound), Outcome.bind_ne_panic, Outcome.add_ne_panic]
    apply and_congr_right
    intro hsum
    simp only [Outcome.add_eq hsum, Outcome.some.injEq, forall_eq', Outcome.bind_ne_panic, sliceForVa_ne_panic,
      walkDescriptors_ne_panic]
  constructor
  · intro h rva size hfound
    exact (hwalk rva size hfound).mp (h _ hfound)
  · rintro h ⟨rva, size⟩ hfound
    exact (hwalk rva size hfound).mpr (h rva size hfound)

end Sums

end Windy.Imports
