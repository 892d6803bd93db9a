import Windy.Loader.Imports

/- The slots of a well-formed import directory.

   A directory is well formed if its descriptors end with a descriptor of zeros, and the
   tables and names that they lead to end with zero, all in the initialized data of sections.
   It has one slot for each entry of each library, in order.

   The parser returns these slots, but for names: it needs 256 bytes of the file from the
   start of a name on, and shows as many of the name.

   What is proved: for an image the parser returns without a panic, and returns all the slots
   if the directory is well formed, exactly when the header and the sums fit
   (`parseImportSlots_ne_panic`), and the windows of all names are in the file and show the
   whole names (`parseImportSlots_iff`). -/
namespace Windy.Imports

/-! ## Well-formed directories -/

inductive Thunk where
  | byOrdinal (entry : Nat)
  | byName (rva : Nat) (name : List UInt8)
  deriving DecidableEq, Repr

namespace Thunk

def entry : Thunk → Nat
  | byOrdinal entry => entry
  | byName rva _ => rva

def ordinal : Thunk → Option Nat
  | byOrdinal entry => some (entry % 2 ^ 16)
  | byName _ _ => none

def name : Thunk → Option (List Char)
  | byOrdinal _ => none
  | byName _ name => some (Utf8.fromUtf8Lossy name)

end Thunk

/-- A descriptor, with what it leads to. -/
structure Library where
  originalFirstThunk : Nat
  nameRva : Nat
  firstThunk : Nat
  dll : List UInt8
  thunks : List Thunk
  deriving DecidableEq, Repr

def Library.ilt (lib : Library) : Nat := if lib.originalFirstThunk ≠ 0 then lib.originalFirstThunk else lib.firstThunk

section WellFormed
variable (image : List UInt8) (space : AddressSpace) (imageBase : Nat)

/-- The bytes are at the address, in the initialized data of its section. -/
def Holds (va : Nat) (bytes : List UInt8) : Prop :=
  ∃ s, Loader.sectionAtVa space va = .some s ∧ va - space.imageBase - s.vaddr + bytes.length ≤ min s.vsize s.rawSize ∧
    (image.drop (s.rawAddr + (va - space.imageBase - s.vaddr))).take bytes.length = bytes

/-- A name that ends with zero. -/
def HoldsName (rva : Nat) (name : List UInt8) : Prop := 0 ∉ name ∧ Holds image space (imageBase + rva) (name ++ [0])

/-- The second data directory of a PE header. -/
def HasDirectory (rva size : Nat) : Prop :=
  ∃ peOffset dataDirs num, Bytes.numberAt image 0x3c 4 = some peOffset ∧
    (image.take (peOffset + 4)).drop peOffset = [0x50, 0x45, 0, 0] ∧
    (Bytes.numberAt image (peOffset + 24) 2 = some 0x10b ∧ dataDirs = peOffset + 24 + 96 ∨
      Bytes.numberAt image (peOffset + 24) 2 = some 0x20b ∧ dataDirs = peOffset + 24 + 112) ∧
    Bytes.numberAt image (dataDirs - 4) 4 = some num ∧ 2 ≤ num ∧ Bytes.numberAt image (dataDirs + 8) 4 = some rva ∧
    Bytes.numberAt image (dataDirs + 12) 4 = some size ∧ rva ≠ 0 ∧ size ≠ 0

/-- An array of descriptors, with a descriptor of zeros at its end. -/
structure Describes (descBytes : List UInt8) (libs : List Library) : Prop where
  descriptors : ∀ i lib, libs[i]? = some lib → Bytes.numberAt descBytes (i * 20) 4 = some lib.originalFirstThunk ∧
    Bytes.numberAt descBytes (i * 20 + 12) 4 = some lib.nameRva ∧
    Bytes.numberAt descBytes (i * 20 + 16) 4 = some lib.firstThunk
  terminator : (descBytes.drop (libs.length * 20)).take 20 = List.replicate 20 0

/-- An entry with the top bit is an ordinal; another one leads to a hint and a name. -/
def ThunkHeld (ptrSize : Nat) : Thunk → Prop
  | .byOrdinal entry => 2 ^ (8 * ptrSize - 1) ≤ entry ∧ entry < 2 ^ (8 * ptrSize)
  | .byName rva name => 0 < rva ∧ rva < 2 ^ 31 ∧ HoldsName image space imageBase (rva + 2) name

structure LibraryHeld (ptrSize : Nat) (lib : Library) : Prop where
  nameRva : lib.nameRva ≠ 0
  firstThunk : lib.firstThunk ≠ 0
  dll : HoldsName image space imageBase lib.nameRva lib.dll
  table : ∀ i entry, (lib.thunks.map Thunk.entry ++ [0])[i]? = some entry →
    Holds image space (imageBase + lib.ilt + i * ptrSize) (Bytes.toBytes ptrSize entry)
  thunks : ∀ t ∈ lib.thunks, ThunkHeld image space imageBase ptrSize t
  slots : imageBase + lib.firstThunk + lib.thunks.length * ptrSize < 2 ^ 64

structure WellFormed (bitness : Nat) (libs : List Library) : Prop where
  width : bitness = 32 ∨ bitness = 64
  directory : ∃ rva size descBytes, HasDirectory image rva size ∧ descBytes.length = size ∧
    Holds image space (imageBase + rva) descBytes ∧ Describes descBytes libs
  libraries : ∀ lib ∈ libs, LibraryHeld image space imageBase (bitness / 8) lib

end WellFormed

/-- The slots of a library, by what is shown of the names. -/
def slotsOf (imageBase ptrSize : Nat) (dll : List Char) (nameOf : Thunk → Option (List Char)) (lib : Library) :
    List ImportSlot :=
  lib.thunks.zipIdx.map fun (t, i) => ⟨dll, nameOf t, t.ordinal, imageBase + lib.firstThunk + i * ptrSize⟩

/-- All slots of a directory. -/
def expectedSlots (imageBase ptrSize : Nat) (libs : List Library) : List ImportSlot :=
  libs.flatMap fun lib => slotsOf imageBase ptrSize (Utf8.fromUtf8Lossy lib.dll) Thunk.name lib

/-! ## What is read of them -/

section Read
variable {image : List UInt8} {space : AddressSpace} {imageBase : Nat} (hsized : Loader.Sized space)
include hsized

/-- Held bytes are at the offset of their address. -/
theorem offset_of_holds {va : Nat} {bytes : List UInt8} (hheld : Holds image space va bytes) (hne : bytes ≠ []) :
    va < 2 ^ 64 ∧ ∃ offset, Loader.vaToOffset space va = .some offset ∧ offset + bytes.length ≤ image.length ∧
      (image.drop offset).take bytes.length = bytes := by
  obtain ⟨s, hs, hwithin, hbytes⟩ := hheld
  have hpos := List.length_pos_iff.mpr hne
  obtain ⟨-, hcontains⟩ := Loader.sectionAtVa_contains hs
  obtain ⟨-, -, -, hlast⟩ := Loader.sectionContainsVa_eq_true.mp hcontains
  refine ⟨by omega, _, (Loader.vaToOffset_eq_some hsized).mpr ⟨s, hs, by omega, rfl⟩, ?_, hbytes⟩
  have hlength := congrArg List.length hbytes
  rw [List.length_take, List.length_drop] at hlength
  omega

theorem slice_of_holds (himage : image.length < 2 ^ 64) {va : Nat} {bytes : List UInt8} (hheld : Holds image space va bytes)
    (hne : bytes ≠ []) : va < 2 ^ 64 ∧ Loader.sliceForVa space image va bytes.length = .some bytes := by
  obtain ⟨hva, offset, hoffset, hfits, hbytes⟩ := offset_of_holds hsized hheld hne
  refine ⟨hva, ?_⟩
  rw [Loader.sliceForVa_of_offset himage hoffset, if_pos hfits, hbytes]

end Read

section Numbers

theorem readLe_toBytes {width n : Nat} (hn : n < 256 ^ width) : readLe width (Bytes.toBytes width n) = n := by
  have hnumber := Bytes.numberAt_toBytes width n []
  rw [List.append_nil, Nat.mod_eq_of_lt hn] at hnumber
  rw [readLe, hnumber, Option.getD_some]

theorem readLe_take {bytes : List UInt8} {start width n : Nat} (hn : Bytes.numberAt bytes start width = some n) :
    readLe width ((bytes.take (start + width)).drop start) = n := by
  rw [readLe, Bytes.numberAt_drop, Bytes.numberAt_take (by omega), Nat.add_zero, hn, Option.getD_some]

/-- The parser finds the directory of a header. -/
theorem importDirectoryRva_of_hasDirectory {image : List UInt8} {rva size : Nat} (h : HasDirectory image rva size) :
    importDirectoryRva image = .some (rva, size) := by
  obtain ⟨peOffset, dataDirs, num, hpe, hsignature, hmagic, hnum, htwo, hrva, hsize, hrvane, hsizene⟩ := h
  have hfits : ∀ {offset width n : Nat}, 0 < width → Bytes.numberAt image offset width = some n →
      offset + width ≤ image.length := by
    intro offset width n hwidth hn
    have hsome : (Bytes.numberAt image offset width).isSome := by rw [hn]; rfl
    have hor := Bytes.numberAt_isSome.mp hsome
    omega
  have hslice : ∀ {offset width n : Nat}, 0 < width → Bytes.numberAt image offset width = some n →
      ∃ bytes, Outcome.slice image offset (offset + width) = .some bytes ∧ readLe width bytes = n := by
    intro offset width n hwidth hn
    exact ⟨_, if_pos ⟨Nat.le_add_right _ _, hfits hwidth hn⟩, readLe_take hn⟩
  have hpelt := Bytes.numberAt_lt hpe
  have hentry : ∀ optionalOffset dataDirsOffset numDirsOffset, dataDirs = optionalOffset + dataDirsOffset →
      dataDirs - 4 = optionalOffset + numDirsOffset → dataDirs < 2 ^ 33 →
      importDirectoryEntry image optionalOffset dataDirsOffset numDirsOffset = .some (rva, size) := by
    intro optionalOffset dataDirsOffset numDirsOffset hdirs hnums hlt
    obtain ⟨numBytes, hnumBytes, hreadNum⟩ := hslice (by omega) hnum
    obtain ⟨rvaBytes, hrvaBytes, hreadRva⟩ := hslice (by omega) hrva
    obtain ⟨sizeBytes, hsizeBytes, hreadSize⟩ := hslice (by omega) hsize
    have hend := hfits (by omega) hsize
    have hat : optionalOffset + dataDirsOffset + imageDirectoryEntryImport * 8 = dataDirs + 8 := by
      rw [imageDirectoryEntryImport, ← hdirs]
    unfold importDirectoryEntry
    rw [← hnums, hnumBytes, Outcome.some_bind, hreadNum]
    dsimp only
    rw [hat, if_neg (by rw [imageDirectoryEntryImport]; omega), Outcome.saturatingAdd, Nat.min_eq_left (by omega),
      if_neg (by omega), hrvaBytes, Outcome.some_bind, hsizeBytes, Outcome.some_bind, hreadRva, hreadSize,
      if_neg (by omega), Outcome.pure_eq]
  obtain ⟨peBytes, hpeBytes, hreadPe⟩ := hslice (by omega) hpe
  have hdos := hfits (by omega) hpe
  unfold importDirectoryRva
  rw [if_neg (by omega), hpeBytes, Outcome.some_bind, hreadPe]
  dsimp only
  obtain ⟨magic, hnumber⟩ : ∃ magic, Bytes.numberAt image (peOffset + 24) 2 = some magic :=
    hmagic.elim (fun h => ⟨_, h.1⟩) fun h => ⟨_, h.1⟩
  obtain ⟨magicBytes, hmagicBytes, hreadMagic⟩ := hslice (by omega) hnumber
  have hend := hfits (by omega) hnumber
  rw [Outcome.saturatingAdd, Nat.min_eq_left (by omega), if_neg (by omega), Outcome.slice,
    if_pos ⟨Nat.le_add_right _ _, by omega⟩, Outcome.some_bind, if_neg (not_not.mpr hsignature), hmagicBytes,
    Outcome.some_bind, hreadMagic]
  rcases hmagic with ⟨hmagic, hdirs⟩ | ⟨hmagic, hdirs⟩
  · rw [Option.some.inj (hnumber.symm.trans hmagic), if_pos rfl]
    exact hentry _ 96 92 hdirs (by omega) (by omega)
  · rw [Option.some.inj (hnumber.symm.trans hmagic), if_neg (by decide), if_pos rfl]
    exact hentry _ 112 108 hdirs (by omega) (by omega)

end Numbers

/-! ## Names -/

/-- The file goes on for 256 bytes from the address on. -/
def WindowFits (image : List UInt8) (space : AddressSpace) (va : Nat) : Prop :=
  ∃ offset, Loader.vaToOffset space va = .some offset ∧ offset + 256 ≤ image.length

/-- The window shows the whole name. -/
def Uncut (name : List UInt8) : Prop := Utf8.fromUtf8Lossy (name.take 256) = Utf8.fromUtf8Lossy name

variable {name : List UInt8}

theorem uncut_of_length (h : name.length ≤ 256) : Uncut name := by
  rw [Uncut, List.take_of_length_le h]

/-- What is seen of a name. -/
def windowText (image : List UInt8) (space : AddressSpace) (va : Nat) (name : List UInt8) : Option (List Char) :=
  match Loader.vaToOffset space va with
  | .some offset => if offset + 256 ≤ image.length then some (Utf8.fromUtf8Lossy (name.take 256)) else none
  | _ => none

theorem windowText_isSome {image : List UInt8} {space : AddressSpace} {va : Nat} :
    (∃ text, windowText image space va name = some text) ↔ WindowFits image space va := by
  unfold windowText WindowFits
  cases Loader.vaToOffset space va with
  | panic => simp
  | none => simp
  | some offset => simp

theorem windowText_eq_some {image : List UInt8} {space : AddressSpace} {va : Nat} :
    windowText image space va name = some (Utf8.fromUtf8Lossy name) ↔ WindowFits image space va ∧ Uncut name := by
  unfold windowText WindowFits Uncut
  cases Loader.vaToOffset space va with
  | panic => simp
  | none => simp
  | some offset => simp

/-- The bytes up to the zero, as far as the window goes. -/
theorem takeWhile_window (hname : 0 ∉ name) (tail : List UInt8) (n : Nat) :
    (((name ++ 0 :: tail).take n).takeWhile fun b => b ≠ 0) = name.take n := by
  induction name generalizing n with
  | nil =>
    cases n with
    | zero => rfl
    | succ n => rfl
  | cons b name ih =>
    have hb : b ≠ 0 := fun hzero => hname (by rw [hzero]; exact List.mem_cons_self)
    cases n with
    | zero => rfl
    | succ n =>
      rw [List.cons_append, List.take_succ_cons, List.takeWhile_cons, if_pos (by simpa using hb), List.take_succ_cons,
        ih (fun hmem => hname (List.mem_cons_of_mem b hmem))]

theorem readAsciiAtRva_of_holds {image : List UInt8} {space : AddressSpace} {imageBase rva : Nat}
    (hsized : Loader.Sized space) (himage : image.length < 2 ^ 64) (hname : HoldsName image space imageBase rva name) :
    readAsciiAtRva image space imageBase rva = Outcome.ofOption (windowText image space (imageBase + rva) name) := by
  obtain ⟨hzero, hheld⟩ := hname
  obtain ⟨hva, offset, hoffset, -, hbytes⟩ := offset_of_holds hsized hheld (by simp)
  rw [readAsciiAtRva, Outcome.add_eq hva, Outcome.some_bind, Loader.sliceForVa_of_offset himage hoffset, windowText, hoffset]
  dsimp only
  split
  · -- The name and its zero come first.
    have hdrop : image.drop offset = name ++ 0 :: (image.drop offset).drop (name ++ [0]).length := by
      have hsplit := List.take_append_drop (name ++ [0]).length (image.drop offset)
      rw [hbytes] at hsplit
      rw [← hsplit]
      simp
    rw [Outcome.some_bind, hdrop, takeWhile_window hzero]
    rfl
  · rfl

/-! ## Tables -/

section Table
variable {image : List UInt8} {space : AddressSpace} {imageBase ptrSize : Nat} (hsized : Loader.Sized space)
  (himage : image.length < 2 ^ 64) (hptr : ptrSize = 4 ∨ ptrSize = 8)
include hsized himage hptr

/-- The entry at an index of a table. -/
theorem entryAt_of_holds {ilt idx entry : Nat} (hentry : entry < 256 ^ ptrSize)
    (hheld : Holds image space (imageBase + ilt + idx * ptrSize) (Bytes.toBytes ptrSize entry)) :
    entryAt image space imageBase ptrSize ilt idx = .some entry := by
  have hne : Bytes.toBytes ptrSize entry ≠ [] := by
    rw [← List.length_pos_iff, Bytes.length_toBytes]
    omega
  obtain ⟨hva, hslice⟩ := slice_of_holds hsized himage hheld hne
  rw [Bytes.length_toBytes] at hslice
  rw [entryAt, Outcome.add_eq (by omega), Outcome.some_bind, Outcome.mul_eq (by omega), Outcome.some_bind,
    Outcome.add_eq hva, Outcome.some_bind, hslice, Outcome.some_bind]
  cases hptr with
  | inl hfour =>
    subst hfour
    rw [if_neg (by decide), readLe_toBytes hentry, Outcome.pure_eq]
  | inr height =>
    subst height
    rw [if_pos rfl, readLe_toBytes hentry, Outcome.pure_eq]

omit hsized himage in
theorem entry_of_held {t : Thunk} (ht : ThunkHeld image space imageBase ptrSize t) :
    t.entry ≠ 0 ∧ t.entry < 256 ^ ptrSize := by
  cases t with
  | byOrdinal entry =>
    obtain ⟨hlo, hhi⟩ := ht
    have hpos := Nat.two_pow_pos (8 * ptrSize - 1)
    rw [Nat.pow_mul] at hhi
    exact ⟨by simp only [Thunk.entry]; omega, hhi⟩
  | byName rva name =>
    obtain ⟨hpos, hlt, -⟩ := ht
    refine ⟨Nat.ne_of_gt hpos, ?_⟩
    simp only [Thunk.entry]
    rcases hptr with rfl | rfl <;> omega

omit hsized himage in
/-- The top bit tells the two kinds of entries apart. -/
theorem isOrdinal_of_held {t : Thunk} (ht : ThunkHeld image space imageBase ptrSize t) :
    isOrdinal ptrSize t.entry = t.ordinal.isSome := by
  have hbit : isOrdinal ptrSize t.entry = t.entry.testBit (8 * ptrSize - 1) := by
    rcases hptr with rfl | rfl
    · rfl
    · rfl
  rw [hbit]
  cases t with
  | byOrdinal entry =>
    obtain ⟨hlo, hhi⟩ := ht
    have htwo : 2 ^ (8 * ptrSize) = 2 ^ (8 * ptrSize - 1) * 2 := by
      rw [← Nat.pow_succ]
      congr 1
      omega
    have hdiv : entry / 2 ^ (8 * ptrSize - 1) = 1 := Nat.div_eq_of_lt_le (by omega) (by omega)
    simp only [Thunk.entry, Thunk.ordinal, Option.isSome_some]
    rw [Nat.testBit_eq_decide_div_mod_eq, hdiv]
    rfl
  | byName rva name =>
    obtain ⟨-, hlt, -⟩ := ht
    have hle : 2 ^ 31 ≤ 2 ^ (8 * ptrSize - 1) := Nat.pow_le_pow_right (by omega) (by omega)
    exact Nat.testBit_lt_two_pow (Nat.lt_of_lt_of_le hlt hle)

end Table

/-- What the parser has of the name of an entry. -/
def windowName (image : List UInt8) (space : AddressSpace) (imageBase : Nat) : Thunk → Option (List Char)
  | .byOrdinal _ => none
  | .byName rva name => windowText image space (imageBase + (rva + 2)) name

section Slots
variable {image : List UInt8} {space : AddressSpace} {imageBase ptrSize : Nat} (hsized : Loader.Sized space)
  (himage : image.length < 2 ^ 64) (hptr : ptrSize = 4 ∨ ptrSize = 8)
include hsized himage hptr

theorem slotAt_of_held {dll : List Char} {start idx : Nat} {t : Thunk} (ht : ThunkHeld image space imageBase ptrSize t)
    (hstart : start + idx * ptrSize < 2 ^ 64) : slotAt image space imageBase dll start ptrSize idx t.entry =
      .some ⟨dll, windowName image space imageBase t, t.ordinal, start + idx * ptrSize⟩ := by
  have hordinal := isOrdinal_of_held hptr ht
  rw [slotAt, Outcome.mul_eq (by omega), Outcome.some_bind, Outcome.add_eq hstart, Outcome.some_bind, hordinal]
  cases t with
  | byOrdinal entry => rfl
  | byName rva name =>
    obtain ⟨-, hlt, hname⟩ := ht
    have hread := readAsciiAtRva_of_holds hsized himage hname
    have hmod : rva % 2 ^ 32 = rva := Nat.mod_eq_of_lt (by omega)
    simp only [Thunk.ordinal, Thunk.entry, Option.isSome_none, Bool.false_eq_true, if_false, windowName]
    rw [hmod, Outcome.add_eq (by omega), Outcome.some_bind, hread]
    cases windowText image space (imageBase + (rva + 2)) name with
    | none => rfl
    | some text => rfl

/-- The entries from an index on. -/
theorem walkEntries_of_held {dll : List Char} {start ilt : Nat} {ts : List Thunk} {rounds idx : Nat} (hrounds : ts.length < rounds)
    (htable : ∀ i entry, (ts.map Thunk.entry ++ [0])[i]? = some entry →
      entryAt image space imageBase ptrSize ilt (idx + i) = .some entry)
    (hts : ∀ t ∈ ts, ThunkHeld image space imageBase ptrSize t) (hstart : start + (idx + ts.length) * ptrSize < 2 ^ 64) :
    walkEntries image space imageBase dll start ptrSize ilt rounds idx =
      .some ((ts.zipIdx idx).map fun (t, i) => ⟨dll, windowName image space imageBase t, t.ordinal, start + i * ptrSize⟩) := by
  induction ts generalizing rounds idx with
  | nil =>
    obtain ⟨rounds, rfl⟩ : ∃ n, rounds = n + 1 := ⟨rounds - 1, by simp at hrounds; omega⟩
    have hend : entryAt image space imageBase ptrSize ilt idx = .some 0 := htable 0 0 rfl
    rw [walkEntries, hend, Outcome.some_bind, if_pos rfl]
    rfl
  | cons t ts ih =>
    obtain ⟨rounds, rfl⟩ : ∃ n, rounds = n + 1 := ⟨rounds - 1, by simp at hrounds; omega⟩
    have ht := hts t List.mem_cons_self
    have hentry : entryAt image space imageBase ptrSize ilt idx = .some t.entry := htable 0 t.entry rfl
    rw [List.length_cons] at hrounds hstart
    have hidx : idx * ptrSize ≤ (idx + (ts.length + 1)) * ptrSize := Nat.mul_le_mul_right ptrSize (by omega)
    have hrest := @ih rounds (idx + 1) (by omega)
      (fun i entry hi => by
        have hnext := htable (i + 1) entry hi
        rwa [Nat.add_right_comm, Nat.add_assoc])
      (fun u hu => hts u (List.mem_cons_of_mem t hu)) (by rwa [Nat.add_right_comm, Nat.add_assoc])
    rw [walkEntries, hentry, Outcome.some_bind, if_neg (entry_of_held hptr ht).1,
      slotAt_of_held hsized himage hptr ht (by omega), Outcome.some_bind, hrest, Outcome.some_bind]
    rfl

/-- A descriptor whose fields are those of a library. -/
structure RowOf (row : List UInt8) (lib : Library) : Prop where
  originalFirstThunk : originalFirstThunk row = lib.originalFirstThunk
  nameRva : nameRva row = lib.nameRva
  firstThunk : firstThunk row = lib.firstThunk

/-- The slots of a library, if the window on its name fits. -/
theorem descriptorSlots_of_held {row : List UInt8} {lib : Library} (hrow : RowOf row lib)
    (hlib : LibraryHeld image space imageBase ptrSize lib) : descriptorSlots image space imageBase ptrSize row =
      Outcome.ofOption ((windowText image space (imageBase + lib.nameRva) lib.dll).map fun dll =>
        slotsOf imageBase ptrSize dll (windowName image space imageBase) lib) := by
  have hilt : iltRva row = lib.ilt := by rw [iltRva, hrow.originalFirstThunk, hrow.firstThunk, Library.ilt]
  have hslots := hlib.slots
  have hlength : lib.thunks.length < 2 ^ 64 := by
    have hmul : lib.thunks.length * 1 ≤ lib.thunks.length * ptrSize := Nat.mul_le_mul_left _ (by omega)
    omega
  rw [descriptorSlots, hrow.nameRva, if_neg hlib.nameRva, readAsciiAtRva_of_holds hsized himage hlib.dll]
  cases windowText image space (imageBase + lib.nameRva) lib.dll with
  | none => rfl
  | some dll =>
    rw [Outcome.ofOption_some, Outcome.some_bind, hrow.firstThunk, hilt, Outcome.add_eq (by omega), Outcome.some_bind]
    apply walkEntries_of_held hsized himage hptr hlength
    · intro i entry hi
      rw [Nat.zero_add]
      have hlt : entry < 256 ^ ptrSize := by
        rcases List.mem_append.mp (List.mem_of_getElem? hi) with hmem | hzero
        · obtain ⟨t, ht, rfl⟩ := List.mem_map.mp hmem
          exact (entry_of_held hptr (hlib.thunks t ht)).2
        · rw [List.mem_singleton.mp hzero]
          exact Nat.pow_pos (by omega)
      exact entryAt_of_holds hsized himage hptr hlt (hlib.table i entry hi)
    · exact hlib.thunks
    · rwa [Nat.zero_add]

end Slots

/-! ## Directories -/

/-- What the parser returns, if the windows on the names of the libraries fit. -/
def windowSlots (image : List UInt8) (space : AddressSpace) (imageBase ptrSize : Nat) : List Library → Option (List ImportSlot)
  | [] => some []
  | lib :: rest => do
    let dll ← windowText image space (imageBase + lib.nameRva) lib.dll
    let others ← windowSlots image space imageBase ptrSize rest
    return slotsOf imageBase ptrSize dll (windowName image space imageBase) lib ++ others

section Directory
variable {image : List UInt8} {space : AddressSpace} {imageBase ptrSize : Nat}

theorem walkDescriptors_of_held (hsized : Loader.Sized space) (himage : image.length < 2 ^ 64)
    (hptr : ptrSize = 4 ∨ ptrSize = 8) {libs : List Library} {rows : List (List UInt8)}
    (hrows : ∀ (i : Nat) (lib : Library), libs[i]? = some lib → ∃ row, rows[i]? = some row ∧ RowOf row lib)
    (hend : ∃ row, rows[libs.length]? = some row ∧ firstThunk row = 0)
    (hlibs : ∀ lib ∈ libs, LibraryHeld image space imageBase ptrSize lib) :
    walkDescriptors image space imageBase ptrSize rows = Outcome.ofOption (windowSlots image space imageBase ptrSize libs) := by
  induction libs generalizing rows with
  | nil =>
    obtain ⟨row, hrow, hzero⟩ := hend
    cases rows with
    | nil => cases hrow
    | cons first rows =>
      obtain rfl := Option.some.inj hrow
      rw [walkDescriptors, if_pos hzero]
      rfl
  | cons lib libs ih =>
    obtain ⟨row, hrow, hof⟩ := hrows 0 lib rfl
    cases rows with
    | nil => cases hrow
    | cons first rows =>
      obtain rfl := Option.some.inj hrow
      have hlib := hlibs lib List.mem_cons_self
      have hothers := ih (fun i other hi => hrows (i + 1) other hi) hend fun other hmem => hlibs other (List.mem_cons_of_mem lib hmem)
      rw [walkDescriptors, if_neg (by rw [hof.firstThunk]; exact hlib.firstThunk),
        descriptorSlots_of_held hsized himage hptr hof hlib, hothers, windowSlots]
      cases windowText image space (imageBase + lib.nameRva) lib.dll with
      | none => rfl
      | some dll => cases windowSlots image space imageBase ptrSize libs <;> rfl

/-- The rows of an array of descriptors. -/
theorem row_of_chunks {descBytes : List UInt8} {i : Nat} (hfits : i * 20 + 20 ≤ descBytes.length) :
    (Bytes.chunksExact imageImportDescriptorSize descBytes)[i]? = some ((descBytes.drop (i * 20)).take 20) := by
  have hlt : i < descBytes.length / 20 := (Nat.le_div_iff_mul_le (by omega)).mpr (by omega)
  rw [Bytes.chunksExact, imageImportDescriptorSize, List.getElem?_map, List.getElem?_range hlt]
  rfl

theorem rows_of_describes {descBytes : List UInt8} {libs : List Library} (h : Describes descBytes libs) :
    (∀ (i : Nat) (lib : Library), libs[i]? = some lib → ∃ row, (Bytes.chunksExact imageImportDescriptorSize descBytes)[i]? = some row ∧
      RowOf row lib) ∧
    ∃ row, (Bytes.chunksExact imageImportDescriptorSize descBytes)[libs.length]? = some row ∧ firstThunk row = 0 := by
  constructor
  · intro i lib hi
    obtain ⟨horiginal, hname, hfirst⟩ := h.descriptors i lib hi
    have hsome : (Bytes.numberAt descBytes (i * 20 + 16) 4).isSome := by rw [hfirst]; rfl
    have hfits := Bytes.numberAt_isSome.mp hsome
    -- A number of the row is one of the array.
    have hfield : ∀ start n, start + 4 ≤ 20 → Bytes.numberAt descBytes (i * 20 + start) 4 = some n →
        readLe 4 ((((descBytes.drop (i * 20)).take 20).take (start + 4)).drop start) = n := by
      intro start n hstart hn
      apply readLe_take
      rw [Bytes.numberAt_take hstart, Bytes.numberAt_drop, hn]
    exact ⟨_, row_of_chunks (by omega), hfield 0 _ (by omega) horiginal, hfield 12 _ (by omega) hname,
      hfield 16 _ (by omega) hfirst⟩
  · have hlength := congrArg List.length h.terminator
    rw [List.length_take, List.length_drop, List.length_replicate] at hlength
    refine ⟨_, row_of_chunks (by omega), ?_⟩
    rw [h.terminator]
    decide

/-- The windows on the names of a library are in the file, and show the names. The name of a
library without entries is not shown. -/
structure LibraryShown (image : List UInt8) (space : AddressSpace) (imageBase : Nat) (lib : Library) : Prop where
  window : WindowFits image space (imageBase + lib.nameRva)
  dll : lib.thunks ≠ [] → Uncut lib.dll
  names : ∀ rva name, .byName rva name ∈ lib.thunks → WindowFits image space (imageBase + (rva + 2)) ∧ Uncut name

theorem windowName_eq_iff {t : Thunk} : windowName image space imageBase t = t.name ↔
    ∀ rva name, t = .byName rva name → WindowFits image space (imageBase + (rva + 2)) ∧ Uncut name := by
  cases t with
  | byOrdinal entry => simp [windowName, Thunk.name]
  | byName rva name =>
    rw [windowName, Thunk.name, windowText_eq_some]
    simp

theorem slotsOf_eq_iff {dll dll' : List Char} {nameOf nameOf' : Thunk → Option (List Char)} {lib : Library} :
    slotsOf imageBase ptrSize dll nameOf lib = slotsOf imageBase ptrSize dll' nameOf' lib ↔
      (lib.thunks ≠ [] → dll = dll') ∧ ∀ t ∈ lib.thunks, nameOf t = nameOf' t := by
  rw [slotsOf, slotsOf, List.map_inj_left]
  constructor
  · intro h
    have hslot : ∀ t ∈ lib.thunks, dll = dll' ∧ nameOf t = nameOf' t := by
      intro t ht
      obtain ⟨i, hi⟩ := List.mem_iff_getElem?.mp ht
      have heq := h (t, i) (List.mk_mem_zipIdx_iff_getElem?.mpr hi)
      exact ⟨congrArg ImportSlot.dll heq, congrArg ImportSlot.name heq⟩
    refine ⟨fun hne => ?_, fun t ht => (hslot t ht).2⟩
    obtain ⟨t, ht⟩ := List.exists_mem_of_ne_nil lib.thunks hne
    exact (hslot t ht).1
  · rintro ⟨hdll, hname⟩ ⟨t, i⟩ hmem
    have ht : t ∈ lib.thunks := List.mem_of_getElem? (List.mk_mem_zipIdx_iff_getElem?.mp hmem)
    dsimp only
    rw [hdll (List.ne_nil_of_mem ht), hname t ht]

/-- A library is shown if its window fits, and the slots are those that are expected. -/
theorem libraryShown_iff {lib : Library} : LibraryShown image space imageBase lib ↔
    ∃ dll, windowText image space (imageBase + lib.nameRva) lib.dll = some dll ∧
      slotsOf imageBase ptrSize dll (windowName image space imageBase) lib =
        slotsOf imageBase ptrSize (Utf8.fromUtf8Lossy lib.dll) Thunk.name lib := by
  simp only [slotsOf_eq_iff, windowName_eq_iff]
  constructor
  · intro h
    obtain ⟨dll, hdll⟩ := windowText_isSome.mpr h.window
    refine ⟨dll, hdll, fun hne => ?_, fun t ht rva name heq => h.names rva name (by rwa [← heq])⟩
    have hwhole := windowText_eq_some.mpr ⟨h.window, h.dll hne⟩
    rw [hdll] at hwhole
    exact Option.some.inj hwhole
  · rintro ⟨dll, hdll, htext, hnames⟩
    refine ⟨windowText_isSome.mp ⟨dll, hdll⟩, fun hne => ?_, fun rva name hmem => hnames _ hmem rva name rfl⟩
    rw [htext hne] at hdll
    exact (windowText_eq_some.mp hdll).2

theorem length_slotsOf (dll : List Char) (nameOf : Thunk → Option (List Char)) (lib : Library) :
    (slotsOf imageBase ptrSize dll nameOf lib).length = lib.thunks.length := by
  rw [slotsOf, List.length_map, List.length_zipIdx]

theorem windowSlots_eq_iff {libs : List Library} :
    windowSlots image space imageBase ptrSize libs = some (expectedSlots imageBase ptrSize libs) ↔
      ∀ lib ∈ libs, LibraryShown image space imageBase lib := by
  induction libs with
  | nil => simp [windowSlots, expectedSlots]
  | cons lib libs ih =>
    rw [List.forall_mem_cons, ← ih, @libraryShown_iff image space imageBase ptrSize lib, windowSlots, expectedSlots,
      List.flatMap_cons, ← expectedSlots]
    cases windowText image space (imageBase + lib.nameRva) lib.dll with
    | none => simp
    | some dll =>
      cases windowSlots image space imageBase ptrSize libs with
      | none => simp
      | some others =>
        simp only [Option.bind_eq_bind, Option.bind_some, Option.pure_def, Option.some.injEq, exists_eq_left']
        constructor
        · intro h
          exact List.append_inj h (by rw [length_slotsOf, length_slotsOf])
        · rintro ⟨hslots, rfl⟩
          rw [hslots]

end Directory

/-- The parser returns all slots of a well-formed directory if the names are shown. -/
theorem parseImportSlots_of_wellFormed {image : List UInt8} {space : AddressSpace} {imageBase bitness : Nat}
    {libs : List Library} (hsized : Loader.Sized space) (himage : image.length < 2 ^ 64)
    (h : WellFormed image space imageBase bitness libs) :
    parseImportSlots image space imageBase bitness = .some (expectedSlots imageBase (bitness / 8) libs) ↔
      ∀ lib ∈ libs, LibraryShown image space imageBase lib := by
  have hptr : bitness / 8 = 4 ∨ bitness / 8 = 8 := by
    have hwidth := h.width
    omega
  obtain ⟨rva, size, descBytes, hdirectory, hsize, hheld, hdescribes⟩ := h.directory
  have hfound := importDirectoryRva_of_hasDirectory hdirectory
  have hsizene := importDirectoryRva_ne_zero hfound
  have hne : descBytes ≠ [] := by
    rw [← List.length_pos_iff]
    omega
  obtain ⟨hva, hslice⟩ := slice_of_holds hsized himage hheld hne
  obtain ⟨hrows, hend⟩ := rows_of_describes hdescribes
  have hwalk := walkDescriptors_of_held hsized himage hptr hrows hend h.libraries
  rw [← windowSlots_eq_iff, parseImportSlots, hfound, Outcome.some_bind]
  dsimp only
  rw [if_neg hsizene, Outcome.add_eq hva, Outcome.some_bind, ← hsize, hslice, Outcome.some_bind, hwalk,
    Outcome.ofOption_eq_some]

theorem parseImportSlots_iff {image : List UInt8} {space : AddressSpace} {imageBase bitness : Nat}
    (hsized : Loader.Sized space) (himage : image.length < 2 ^ 64) :
    (parseImportSlots image space imageBase bitness ≠ .panic ∧
      ∀ libs, WellFormed image space imageBase bitness libs →
        parseImportSlots image space imageBase bitness = .some (expectedSlots imageBase (bitness / 8) libs)) ↔
      (HeaderFits image ∧ SumsFit image space imageBase bitness) ∧
      ∀ libs, WellFormed image space imageBase bitness libs → ∀ lib ∈ libs, LibraryShown image space imageBase lib := by
  rw [parseImportSlots_ne_panic]
  apply and_congr_right
  intro _
  apply forall_congr'
  intro libs
  apply imp_congr_right
  intro hwell
  exact parseImportSlots_of_wellFormed hsized himage hwell

/-! ## Images with padding -/

section Padding
variable {image : List UInt8} {space : AddressSpace} {imageBase : Nat} (hsized : Loader.Sized space)
  (hpadded : ∀ s ∈ space.sections, s.rawAddr + s.rawSize + 255 ≤ image.length)
include hsized hpadded

theorem windowFits_of_holds {va : Nat} {bytes : List UInt8} (hheld : Holds image space va bytes) (hne : bytes ≠ []) :
    WindowFits image space va := by
  obtain ⟨s, hs, hwithin, -⟩ := hheld
  have hpos := List.length_pos_iff.mpr hne
  have hend := hpadded s (Loader.sectionAtVa_contains hs).1
  exact ⟨_, (Loader.vaToOffset_eq_some hsized).mpr ⟨s, hs, by omega, rfl⟩, by omega⟩

omit hsized hpadded in
theorem uncut_of_holds (hsmall : ∀ s ∈ space.sections, s.rawSize ≤ 257) {rva : Nat} {name : List UInt8}
    (hname : HoldsName image space imageBase rva name) : Uncut name := by
  obtain ⟨-, s, hs, hwithin, -⟩ := hname
  have hsize := hsmall s (Loader.sectionAtVa_contains hs).1
  rw [List.length_append, List.length_singleton] at hwithin
  exact uncut_of_length (by omega)

/-- In small sections, with a window of the file behind each, all names are shown. -/
theorem libraryShown_of_padded (hsmall : ∀ s ∈ space.sections, s.rawSize ≤ 257) {ptrSize : Nat} {lib : Library}
    (hlib : LibraryHeld image space imageBase ptrSize lib) : LibraryShown image space imageBase lib := by
  refine ⟨windowFits_of_holds hsized hpadded hlib.dll.2 (by simp), fun _ => uncut_of_holds hsmall hlib.dll, ?_⟩
  intro rva name hmem
  obtain ⟨-, -, hname⟩ := hlib.thunks _ hmem
  exact ⟨windowFits_of_holds hsized hpadded hname.2 (by simp), uncut_of_holds hsmall hname⟩

end Padding

/-- A PE32 with one import, of `f` from `k`, in a section from `0x1000` on. -/
def importImage (padding : Nat) : List UInt8 :=
  [0x4d, 0x5a] ++ List.replicate 58 0 ++ [0x40, 0, 0, 0] ++ [0x50, 0x45, 0, 0] ++ List.replicate 20 0 ++ [0x0b, 0x01] ++
    List.replicate 90 0 ++ [2, 0, 0, 0] ++ List.replicate 8 0 ++ [0, 0x10, 0, 0] ++ [40, 0, 0, 0] ++
    [0x28, 0x10, 0, 0] ++ List.replicate 8 0 ++ [0x38, 0x10, 0, 0] ++ [0x30, 0x10, 0, 0] ++ List.replicate 20 0 ++
    [0x3a, 0x10, 0, 0] ++ [0, 0, 0, 0] ++ [0x3a, 0x10, 0, 0] ++ [0, 0, 0, 0] ++ [0x6b, 0] ++ [0, 0] ++ [0x66, 0] ++
    List.replicate padding 0

def importSpace : AddressSpace where
  imageBase := 0x400000
  sections := [⟨0x1000, 0x1000, 200, 62, 0⟩]

def importLibrary : Library := ⟨0x1028, 0x1038, 0x1030, [0x6b], [.byName 0x103a [0x66]]⟩

theorem sized_importSpace : Loader.Sized importSpace := ⟨by decide, by decide⟩

theorem parse_padded : parseImportSlots (importImage 256) importSpace 0x400000 32 ≠ .panic ∧
    ∀ libs, WellFormed (importImage 256) importSpace 0x400000 32 libs →
      parseImportSlots (importImage 256) importSpace 0x400000 32 = .some (expectedSlots 0x400000 4 libs) := by
  have hcalm : parseImportSlots (importImage 256) importSpace 0x400000 32 ≠ .panic := by decide +kernel
  exact (parseImportSlots_iff sized_importSpace (by decide +kernel)).mpr ⟨parseImportSlots_ne_panic.mp hcalm,
    fun libs hwell lib hlib => libraryShown_of_padded sized_importSpace (by decide +kernel) (by decide)
      (hwell.libraries lib hlib)⟩

theorem holds_of_bytes {image bytes : List UInt8} {va : Nat} (hlo : 0x401000 ≤ va) (hhi : va + bytes.length ≤ 0x40103e)
    (hne : 0 < bytes.length) (hbytes : (image.drop (va - 0x400f38)).take bytes.length = bytes) :
    Holds image importSpace va bytes := by
  refine ⟨⟨0x1000, 0x1000, 200, 62, 0⟩, ?_, ?_, ?_⟩
  · refine Outcome.find_eq_some.mpr ⟨[], [], rfl, ?_, by simp⟩
    apply Loader.sectionContainsVa_eq_true.mpr
    simp only [importSpace]
    omega
  · simp only [importSpace]
    omega
  · have hoffset : 200 + (va - importSpace.imageBase - 0x1000) = va - 0x400f38 := by
      simp only [importSpace]
      omega
    rw [hoffset, hbytes]

theorem wellFormed_importImage : WellFormed (importImage 0) importSpace 0x400000 32 [importLibrary] := by
  refine ⟨by decide, ⟨0x1000, 40, ((importImage 0).drop 200).take 40, ?_, by decide +kernel, ?_, ?_⟩, fun lib hlib => ?_⟩
  · exact ⟨0x40, 184, 2, by decide +kernel⟩
  · exact holds_of_bytes (by decide) (by decide +kernel) (by decide +kernel) (by decide +kernel)
  · refine ⟨fun i lib hi => ?_, by decide +kernel⟩
    cases i with
    | zero =>
      obtain rfl := Option.some.inj hi
      decide +kernel
    | succ i => cases hi
  · obtain rfl := List.mem_singleton.mp hlib
    refine ⟨by decide, by decide, ⟨by decide, ?_⟩, fun i entry hi => ?_, fun t ht => ?_, by decide +kernel⟩
    · exact holds_of_bytes (by decide) (by decide) (by decide) (by decide +kernel)
    · cases i with
      | zero =>
        obtain rfl := Option.some.inj hi
        exact holds_of_bytes (by decide) (by decide) (by decide) (by decide +kernel)
      | succ i =>
        cases i with
        | zero =>
          obtain rfl := Option.some.inj hi
          exact holds_of_bytes (by decide) (by decide) (by decide) (by decide +kernel)
        | succ i => cases hi
    · obtain rfl := List.mem_singleton.mp ht
      exact ⟨by decide, by decide, by decide, holds_of_bytes (by decide) (by decide) (by decide) (by decide +kernel)⟩

/-- With its names at the end of the file the image has no slots at all, and a header that ends
behind the COFF header panics. -/
theorem parse_not_complete :
    ¬(∀ libs, WellFormed (importImage 0) importSpace 0x400000 32 libs →
      parseImportSlots (importImage 0) importSpace 0x400000 32 = .some (expectedSlots 0x400000 4 libs)) ∧
    parseImportSlots ((importImage 0).take 0x58) importSpace 0x400000 32 = .panic := by
  have hnone : parseImportSlots (importImage 0) importSpace 0x400000 32 = .none := by decide +kernel
  refine ⟨fun h => ?_, by decide +kernel⟩
  have hsome := h _ wellFormed_importImage
  rw [hnone] at hsome
  cases hsome

end Windy.Imports
