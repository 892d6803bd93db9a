import Windy.Loader.DebugDir

/- Modules that are rebuilt from a dump (`loader/dump/module_pe.rs`).

   A module lies in the memory of a process as the system has mapped it. For the analysis it is
   patched in place into a file: each section is where its address is, the image base is the base of
   the module, and the file alignment is that of the sections.

   All offsets come from the module. That the optional header lies in the image is checked for its
   first two bytes and for the size that the header gives; the fields that are patched are at fixed
   offsets and may lie behind both. Slices of the image panic when they are out of range, sums of
   `usize` do not overflow here: each is of fields with 32 bits.

   The image base of a PE32 has 32 bits, the base of the module is cut to them. If the size of the
   optional header is small, the section table overlaps the fields, and the first section is written
   over the image base.

   The table and the image base of the patched bytes are read where the function has patched them.

   What is proved: the function panics exactly where the fields do not lie in an image that passes
   the checks (`patch_ne_panic`), and its image agrees with the memory of the process exactly where
   the addresses are found and the patched image base is that of the module, or the same bytes are
   at the distance of the two (`patch_iff`). It is, if the table is behind the field and the base
   fits into it (`readsBack_of_apart`).

   Correspondence:
     `patch_memory_image_as_pe` ↔ `patchMemoryImageAsPe`; up to the sizes `checkHeaders`,
                                    the fields `patchFields`, the loop `patchSections`
     `slice.copy_from_slice(..)` ↔ `copyFromSlice`
     `bail!(..)` ↔ `PatchError`, its text `PatchError.message` -/
namespace Windy.ModulePe

open DebugDir (readU16Le readU32Le SectionHeader sectionHeaderAt)

inductive PatchError where
  | tooSmall
  | invalidLfanew
  | missingSignature
  | truncatedOptionalHeader
  | unknownMagic (magic : Nat)
  | optionalHeaderPastImage
  deriving DecidableEq, Repr

def PatchError.message : PatchError → String
  | tooSmall => "image too small for DOS header"
  | invalidLfanew => "invalid e_lfanew"
  | missingSignature => "missing PE signature"
  | truncatedOptionalHeader => "truncated optional header"
  | unknownMagic magic => "unknown optional header magic 0x" ++ String.ofList (Nat.toDigits 16 magic)
  | optionalHeaderPastImage => "optional header extends past image"

/-- What is known of an image that passes the checks. -/
structure Headers where
  optional : Nat
  sizeOfOptional : Nat
  numSections : Nat
  imageBaseOffset : Nat
  imageBaseSize : Nat
  deriving DecidableEq, Repr

namespace Headers

def fileAlignment (h : Headers) : Nat := h.optional + 0x24

def sectionAlignment (h : Headers) : Nat := h.optional + 0x20

def imageBase (h : Headers) : Nat := h.optional + h.imageBaseOffset

def sectionTable (h : Headers) : Nat := h.optional + h.sizeOfOptional

/-- The header of a section. -/
def entry (h : Headers) (i : Nat) : Nat := h.sectionTable + i * 40

end Headers

/-- `image[offset..].copy_from_slice(bytes)`, for as many bytes as there are. -/
def copyFromSlice (image : List UInt8) (offset : Nat) (bytes : List UInt8) : Outcome (List UInt8) :=
  if offset + bytes.length ≤ image.length then .some (Bytes.overwrite image offset bytes) else .panic

def checkHeaders (image : List UInt8) : Outcome (Except PatchError Headers) := do
  if image.length < 0x40 then return .error .tooSmall
  let eLfanew ← readU32Le image 0x3c
  if image.length < Outcome.saturatingAdd 64 eLfanew 24 then return .error .invalidLfanew
  if (← Outcome.slice image eLfanew (eLfanew + 4)) ≠ [0x50, 0x45, 0, 0] then return .error .missingSignature
  let coff := eLfanew + 4
  let numSections ← readU16Le image (coff + 2)
  let sizeOfOptionalHeader ← readU16Le image (coff + 16)
  let opt := coff + 20
  if image.length < opt + 2 then return .error .truncatedOptionalHeader
  let magic ← readU16Le image opt
  if magic ≠ 0x10b ∧ magic ≠ 0x20b then return .error (.unknownMagic magic)
  let (imageBaseOffset, imageBaseSize) := if magic = 0x10b then (0x1c, 4) else (0x18, 8)
  if image.length < opt + sizeOfOptionalHeader then return .error .optionalHeaderPastImage
  return .ok ⟨opt, sizeOfOptionalHeader, numSections, imageBaseOffset, imageBaseSize⟩

/-- The file alignment and the image base. -/
def patchFields (image : List UInt8) (h : Headers) (runtimeBase : Nat) : Outcome (List UInt8) := do
  let sectAlign ← readU32Le image h.sectionAlignment
  let image ← (if 0 < sectAlign then copyFromSlice image h.fileAlignment (Bytes.toBytes 4 sectAlign) else return image)
  if h.imageBaseSize = 4 then copyFromSlice image h.imageBase (Bytes.toBytes 4 (runtimeBase % 2 ^ 32))
  else copyFromSlice image h.imageBase (Bytes.toBytes 8 runtimeBase)

/-- The body of the loop over the sections. -/
def patchSection (image : List UInt8) (sh : Nat) : Outcome (List UInt8) := do
  let virtualSize ← readU32Le image (sh + 8)
  let virtualAddress ← readU32Le image (sh + 12)
  let sizeOfRaw ← readU32Le image (sh + 16)
  let sizeOfRaw := if sizeOfRaw < virtualSize then virtualSize else sizeOfRaw
  let image ← copyFromSlice image (sh + 20) (Bytes.toBytes 4 virtualAddress)
  copyFromSlice image (sh + 16) (Bytes.toBytes 4 sizeOfRaw)

def patchSections (sectionTable : Nat) : Nat → Nat → List UInt8 → Outcome (List UInt8)
  | 0, _, image => return image
  | rounds + 1, i, image =>
    let sh := sectionTable + i * 40
    if image.length < sh + 40 then return image
    else do
      let image ← patchSection image sh
      patchSections sectionTable rounds (i + 1) image

def patchMemoryImageAsPe (image : List UInt8) (runtimeBase : Nat) : Outcome (Except PatchError (List UInt8)) := do
  match ← checkHeaders image with
  | .error e => return .error e
  | .ok h =>
    let image ← patchFields image h runtimeBase
    let image ← patchSections h.sectionTable h.numSections 0 image
    return .ok image

/-! ## What the checks promise -/

section Checks
variable {image : List UInt8} {h : Headers}

theorem readU32Le_eq {offset : Nat} (hfits : offset + 4 ≤ image.length) :
    ∃ n, Bytes.numberAt image offset 4 = some n ∧ n < 2 ^ 32 ∧ readU32Le image offset = .some n := by
  have hsome : (Bytes.numberAt image offset 4).isSome := Bytes.numberAt_isSome.mpr (.inr hfits)
  obtain ⟨n, hn⟩ := Option.isSome_iff_exists.mp hsome
  refine ⟨n, hn, Bytes.numberAt_lt hn, ?_⟩
  rw [readU32Le, hn]

theorem readU16Le_eq {offset : Nat} (hfits : offset + 2 ≤ image.length) : ∃ n, readU16Le image offset = .some n := by
  have hsome : (Bytes.numberAt image offset 2).isSome := Bytes.numberAt_isSome.mpr (.inr hfits)
  obtain ⟨n, hn⟩ := Option.isSome_iff_exists.mp hsome
  refine ⟨n, ?_⟩
  rw [readU16Le, hn]

/-- What holds of the headers of an image that passes the checks. -/
structure Checked (image : List UInt8) (h : Headers) : Prop where
  fields : h.imageBaseOffset = 0x1c ∧ h.imageBaseSize = 4 ∨ h.imageBaseOffset = 0x18 ∧ h.imageBaseSize = 8
  fits : h.optional + 2 ≤ image.length
  optionalFits : h.sectionTable ≤ image.length

/-- The checks look no further than they have looked already. -/
theorem checkHeaders_eq (image : List UInt8) :
    (∃ e, checkHeaders image = .some (.error e)) ∨ ∃ h, checkHeaders image = .some (.ok h) ∧ Checked image h := by
  unfold checkHeaders
  by_cases hdos : image.length < 0x40
  · exact .inl ⟨_, by rw [if_pos hdos]; rfl⟩
  rw [if_neg hdos]
  obtain ⟨eLfanew, -, hlfanew, hread⟩ := @readU32Le_eq image 0x3c (by omega)
  rw [hread, Outcome.some_bind, Outcome.saturatingAdd, Nat.min_eq_left (by omega)]
  by_cases hcoff : image.length < eLfanew + 24
  · exact .inl ⟨_, by rw [if_pos hcoff]; rfl⟩
  rw [if_neg hcoff, Outcome.slice, if_pos ⟨Nat.le_add_right _ _, by omega⟩, Outcome.some_bind]
  by_cases hsignature : (image.take (eLfanew + 4)).drop eLfanew ≠ [0x50, 0x45, 0, 0]
  · exact .inl ⟨_, by rw [if_pos hsignature]; rfl⟩
  rw [if_neg hsignature]
  dsimp only
  obtain ⟨numSections, hnum⟩ := @readU16Le_eq image (eLfanew + 4 + 2) (by omega)
  obtain ⟨sizeOfOptional, hsize⟩ := @readU16Le_eq image (eLfanew + 4 + 16) (by omega)
  rw [hnum, Outcome.some_bind, hsize, Outcome.some_bind]
  by_cases hopt : image.length < eLfanew + 4 + 20 + 2
  · exact .inl ⟨_, by rw [if_pos hopt]; rfl⟩
  rw [if_neg hopt]
  obtain ⟨magic, hmagic⟩ := @readU16Le_eq image (eLfanew + 4 + 20) (by omega)
  rw [hmagic, Outcome.some_bind]
  by_cases hknown : magic ≠ 0x10b ∧ magic ≠ 0x20b
  · exact .inl ⟨_, by rw [if_pos hknown]; rfl⟩
  rw [if_neg hknown]
  by_cases hpast : image.length < eLfanew + 4 + 20 + sizeOfOptional
  · exact .inl ⟨.optionalHeaderPastImage, by simp [hpast]⟩
  · by_cases hpe32 : magic = 0x10b
    · refine .inr ⟨⟨eLfanew + 4 + 20, sizeOfOptional, numSections, 0x1c, 4⟩, by simp [hpe32, hpast], .inl ⟨rfl, rfl⟩, ?_, ?_⟩
      · exact Nat.le_of_not_lt hopt
      · exact Nat.le_of_not_lt hpast
    · refine .inr ⟨⟨eLfanew + 4 + 20, sizeOfOptional, numSections, 0x18, 8⟩, by simp [hpe32, hpast], .inr ⟨rfl, rfl⟩, ?_, ?_⟩
      · exact Nat.le_of_not_lt hopt
      · exact Nat.le_of_not_lt hpast

theorem checked_of_checkHeaders (hchecks : checkHeaders image = .some (.ok h)) : Checked image h := by
  obtain ⟨e, he⟩ | ⟨h', hok, hchecked⟩ := checkHeaders_eq image
  · rw [he] at hchecks
    cases hchecks
  · rw [hok] at hchecks
    cases hchecks
    exact hchecked

end Checks

/-! ## The fields -/

/-- The fields of the optional header that are read and written lie in the image. -/
def FieldsFit (image : List UInt8) (h : Headers) : Prop :=
  ∃ sectAlign, Bytes.numberAt image h.sectionAlignment 4 = some sectAlign ∧
    (0 < sectAlign → h.fileAlignment + 4 ≤ image.length)

/-- Replacing bytes within an image. -/
theorem copyFromSlice_eq {image bytes : List UInt8} {offset : Nat} (hfits : offset + bytes.length ≤ image.length) :
    copyFromSlice image offset bytes = .some (Bytes.overwrite image offset bytes) := if_pos hfits

/-- An offset in so many bytes from a start on. -/
def Within (start size offset : Nat) : Prop := start ≤ offset ∧ offset < start + size

/-- The offset is in one of the two fields. -/
def InFields (image : List UInt8) (h : Headers) (offset : Nat) : Prop :=
  (∃ sectAlign, Bytes.numberAt image h.sectionAlignment 4 = some sectAlign ∧ 0 < sectAlign ∧ Within h.fileAlignment 4 offset) ∨
    Within h.imageBase h.imageBaseSize offset

section Fields
variable {image : List UInt8} {h : Headers} {runtimeBase : Nat}

theorem patchFields_panic (hfit : ¬FieldsFit image h) : patchFields image h runtimeBase = .panic := by
  unfold patchFields readU32Le
  cases halign : Bytes.numberAt image h.sectionAlignment 4 with
  | none => rfl
  | some sectAlign =>
    have hout : 0 < sectAlign ∧ image.length < h.fileAlignment + 4 := by
      by_contra hin
      exact hfit ⟨sectAlign, halign, fun hpos => by omega⟩
    rw [Outcome.some_bind, if_pos hout.1, copyFromSlice, if_neg (by rw [Bytes.length_toBytes]; omega), Outcome.panic_bind]

/-- The image base is written last; it is cut to the size of its field. -/
theorem patchFields_eq (hchecked : Checked image h) (hfit : FieldsFit image h) :
    ∃ patched, patchFields image h runtimeBase = .some patched ∧ patched.length = image.length ∧
      Bytes.numberAt patched h.imageBase h.imageBaseSize = some (runtimeBase % 256 ^ h.imageBaseSize) ∧
      ∀ offset, ¬InFields image h offset → patched[offset]? = image[offset]? := by
  obtain ⟨sectAlign, halign, hfile⟩ := hfit
  have hfits : h.sectionAlignment + 4 ≤ image.length := by
    have hsome : (Bytes.numberAt image h.sectionAlignment 4).isSome := by rw [halign]; rfl
    have hlen := Bytes.numberAt_isSome.mp hsome
    omega
  -- The image base lies in front of the section alignment.
  have hbase : h.imageBase + h.imageBaseSize ≤ h.sectionAlignment := by
    rw [Headers.imageBase, Headers.sectionAlignment]
    cases hchecked.fields with
    | inl hpe32 => omega
    | inr hplus => omega
  -- The file alignment.
  obtain ⟨aligned, haligned, hlength, hkept⟩ : ∃ aligned, (if 0 < sectAlign then
        copyFromSlice image h.fileAlignment (Bytes.toBytes 4 sectAlign) else return image) = .some aligned ∧
      aligned.length = image.length ∧ ∀ offset, ¬InFields image h offset → aligned[offset]? = image[offset]? := by
    by_cases hpos : 0 < sectAlign
    · have hin : h.fileAlignment + (Bytes.toBytes 4 sectAlign).length ≤ image.length := by
        rw [Bytes.length_toBytes]
        exact hfile hpos
      refine ⟨_, by rw [if_pos hpos, copyFromSlice_eq hin], Bytes.length_overwrite hin, fun offset hout => ?_⟩
      apply Bytes.getElem?_overwrite_apart hin
      rw [Bytes.length_toBytes]
      by_contra hwithin
      exact hout (.inl ⟨sectAlign, halign, hpos, by omega, by omega⟩)
    · exact ⟨image, if_neg hpos, rfl, fun _ _ => rfl⟩
  -- The image base.
  have hwrite : ∀ n, n % 256 ^ h.imageBaseSize = runtimeBase % 256 ^ h.imageBaseSize →
      ∃ patched, copyFromSlice aligned h.imageBase (Bytes.toBytes h.imageBaseSize n) = .some patched ∧
        patched.length = image.length ∧
        Bytes.numberAt patched h.imageBase h.imageBaseSize = some (runtimeBase % 256 ^ h.imageBaseSize) ∧
        ∀ offset, ¬InFields image h offset → patched[offset]? = image[offset]? := by
    intro n hn
    have hin : h.imageBase + (Bytes.toBytes h.imageBaseSize n).length ≤ aligned.length := by
      rw [Bytes.length_toBytes]
      omega
    refine ⟨_, copyFromSlice_eq hin, ?_, ?_, fun offset hout => ?_⟩
    · rw [Bytes.length_overwrite hin, hlength]
    · rw [Bytes.length_toBytes] at hin
      rw [Bytes.numberAt_overwrite hin, hn]
    · rw [← hkept offset hout]
      apply Bytes.getElem?_overwrite_apart hin
      rw [Bytes.length_toBytes]
      by_contra hwithin
      exact hout (.inr ⟨by omega, by omega⟩)
  unfold patchFields readU32Le
  simp only [halign, Outcome.some_bind, haligned]
  rcases hchecked.fields with ⟨-, hsize⟩ | ⟨-, hsize⟩
  · obtain ⟨patched, hpatched, hspec⟩ := hwrite (runtimeBase % 2 ^ 32) (by rw [hsize]; omega)
    refine ⟨patched, ?_, hspec⟩
    rw [if_pos hsize, ← hpatched, hsize]
  · obtain ⟨patched, hpatched, hspec⟩ := hwrite runtimeBase rfl
    refine ⟨patched, ?_, hspec⟩
    rw [if_neg (by omega), ← hpatched, hsize]

end Fields

/-! ## The section table -/

/-- The section is in the file where its address is, with all of its bytes. -/
def Mapped (bytes : List UInt8) (sh : Nat) : Prop :=
  ∃ s, sectionHeaderAt bytes sh = some s ∧ s.pointerToRawData = s.virtualAddress ∧ s.virtualSize ≤ s.sizeOfRawData

/-- The header depends on its own bytes only. -/
theorem sectionHeaderAt_congr {bytes bytes' : List UInt8} {sh : Nat}
    (h : ∀ i, sh ≤ i → i < sh + 40 → bytes[i]? = bytes'[i]?) : sectionHeaderAt bytes sh = sectionHeaderAt bytes' sh := by
  have hnumber : ∀ k, k + 4 ≤ 40 → Bytes.numberAt bytes (sh + k) 4 = Bytes.numberAt bytes' (sh + k) 4 := by
    intro k hk
    apply Bytes.numberAt_congr
    intro i hle hlt
    exact h i (by omega) (by omega)
  unfold sectionHeaderAt
  rw [hnumber 8 (by omega), hnumber 12 (by omega), hnumber 16 (by omega), hnumber 20 (by omega), hnumber 24 (by omega),
    hnumber 36 (by omega)]

theorem patchSection_eq {image : List UInt8} {sh : Nat} (hfits : sh + 40 ≤ image.length) :
    ∃ patched, patchSection image sh = .some patched ∧ patched.length = image.length ∧ Mapped patched sh ∧
      ∀ offset, ¬Within (sh + 16) 8 offset → patched[offset]? = image[offset]? := by
  obtain ⟨virtualSize, hsize, hsizelt, hreadsize⟩ := @readU32Le_eq image (sh + 8) (by omega)
  obtain ⟨virtualAddress, haddress, haddresslt, hreadaddress⟩ := @readU32Le_eq image (sh + 12) (by omega)
  obtain ⟨sizeOfRaw, hraw, hrawlt, hreadraw⟩ := @readU32Le_eq image (sh + 16) (by omega)
  obtain ⟨pointerToRelocations, hrelocations, -, -⟩ := @readU32Le_eq image (sh + 24) (by omega)
  obtain ⟨characteristics, hcharacteristics, -, -⟩ := @readU32Le_eq image (sh + 36) (by omega)
  obtain ⟨newSize, hnew⟩ : ∃ n, n = if sizeOfRaw < virtualSize then virtualSize else sizeOfRaw := ⟨_, rfl⟩
  have hnewSize : virtualSize ≤ newSize ∧ newSize < 2 ^ 32 := by
    rw [hnew]
    split <;> omega
  have hpointer : sh + 20 + (Bytes.toBytes 4 virtualAddress).length ≤ image.length := by
    rw [Bytes.length_toBytes]
    omega
  have hlength := Bytes.length_overwrite hpointer
  obtain ⟨pointed, hpointed⟩ : ∃ pointed, pointed = Bytes.overwrite image (sh + 20) (Bytes.toBytes 4 virtualAddress) := ⟨_, rfl⟩
  rw [← hpointed] at hlength
  have hsizeIn : sh + 16 + (Bytes.toBytes 4 newSize).length ≤ pointed.length := by
    rw [Bytes.length_toBytes]
    omega
  -- The fields of the header afterwards.
  have hkeeps : ∀ k, k + 4 ≤ 16 ∨ 24 ≤ k → Bytes.numberAt (Bytes.overwrite pointed (sh + 16) (Bytes.toBytes 4 newSize)) (sh + k) 4 =
      Bytes.numberAt image (sh + k) 4 := by
    intro k hk
    rw [Bytes.numberAt_overwrite_apart hsizeIn (by rw [Bytes.length_toBytes]; omega), hpointed,
      Bytes.numberAt_overwrite_apart hpointer (by rw [Bytes.length_toBytes]; omega)]
  have hnewRaw : Bytes.numberAt (Bytes.overwrite pointed (sh + 16) (Bytes.toBytes 4 newSize)) (sh + 16) 4 = some newSize := by
    rw [Bytes.length_toBytes] at hsizeIn
    rw [Bytes.numberAt_overwrite hsizeIn, Nat.mod_eq_of_lt (by omega)]
  have hnewPointer : Bytes.numberAt (Bytes.overwrite pointed (sh + 16) (Bytes.toBytes 4 newSize)) (sh + 20) 4 =
      some virtualAddress := by
    rw [Bytes.numberAt_overwrite_apart hsizeIn (by rw [Bytes.length_toBytes]; omega), hpointed]
    rw [Bytes.length_toBytes] at hpointer
    rw [Bytes.numberAt_overwrite hpointer, Nat.mod_eq_of_lt (by omega)]
  refine ⟨Bytes.overwrite pointed (sh + 16) (Bytes.toBytes 4 newSize), ?_, ?_,
    ⟨⟨virtualSize, virtualAddress, newSize, virtualAddress, pointerToRelocations, characteristics⟩, ?_, rfl, hnewSize.1⟩,
    fun offset hout => ?_⟩
  · unfold patchSection
    rw [hreadsize, Outcome.some_bind, hreadaddress, Outcome.some_bind, hreadraw, Outcome.some_bind]
    dsimp only
    rw [copyFromSlice_eq hpointer, Outcome.some_bind, ← hnew, ← hpointed, copyFromSlice_eq hsizeIn]
  · rw [Bytes.length_overwrite hsizeIn, hlength]
  · unfold sectionHeaderAt
    rw [hkeeps 8 (by omega), hkeeps 12 (by omega), hnewRaw, hnewPointer, hkeeps 24 (by omega), hkeeps 36 (by omega), hsize,
      haddress, hrelocations, hcharacteristics]
    rfl
  · have hapart : offset < sh + 16 ∨ sh + 24 ≤ offset := by
      by_contra hin
      exact hout ⟨by omega, by omega⟩
    rw [Bytes.getElem?_overwrite_apart hsizeIn (by rw [Bytes.length_toBytes]; omega), hpointed,
      Bytes.getElem?_overwrite_apart hpointer (by rw [Bytes.length_toBytes]; omega)]

/-- The loop patches the headers that lie in the image, and nothing else. -/
theorem patchSections_eq (sectionTable rounds i : Nat) (image : List UInt8) :
    ∃ patched, patchSections sectionTable rounds i image = .some patched ∧ patched.length = image.length ∧
      (∀ j, i ≤ j → j < i + rounds → sectionTable + j * 40 + 40 ≤ image.length → Mapped patched (sectionTable + j * 40)) ∧
      ∀ offset, (∀ j, i ≤ j → j < i + rounds → sectionTable + j * 40 + 40 ≤ image.length →
        ¬Within (sectionTable + j * 40 + 16) 8 offset) → patched[offset]? = image[offset]? := by
  induction rounds generalizing i image with
  | zero => exact ⟨image, rfl, rfl, fun j hle hlt => by omega, fun _ _ => rfl⟩
  | succ rounds ih =>
    unfold patchSections
    by_cases hfits : image.length < sectionTable + i * 40 + 40
    · refine ⟨image, if_pos hfits, rfl, fun j hle hlt hin => ?_, fun _ _ => rfl⟩
      have hmono : i * 40 ≤ j * 40 := Nat.mul_le_mul_right 40 hle
      omega
    · obtain ⟨next, hnext, hlength, hmapped, hkept⟩ := patchSection_eq (Nat.le_of_not_lt hfits)
      obtain ⟨patched, hpatched, hlength', hrest, hkept'⟩ := ih (i + 1) next
      refine ⟨patched, ?_, by rw [hlength', hlength], fun j hle hlt hin => ?_, fun offset hout => ?_⟩
      · dsimp only
        rw [if_neg hfits, hnext, Outcome.some_bind, hpatched]
      · by_cases hhere : j = i
        · -- The rounds that follow leave this header alone.
          subst hhere
          obtain ⟨s, hs, hspec⟩ := hmapped
          refine ⟨s, ?_, hspec⟩
          rw [← hs]
          apply sectionHeaderAt_congr
          intro k hk hk'
          apply hkept'
          intro j' hle' _ _ hwithin
          have hstart := hwithin.1
          omega
        · exact hrest j (by omega) (by omega) (by rwa [hlength])
      · rw [hkept' offset fun j hle hlt hin => hout j (by omega) (by omega) (by rwa [← hlength]),
          hkept offset (hout i (Nat.le_refl i) (by omega) (Nat.le_of_not_lt hfits))]

/-! ## The patched bytes -/

/-- The section headers that lie in the image. -/
def entries (h : Headers) (length : Nat) : List Nat :=
  ((List.range h.numSections).map h.entry).filter fun sh => sh + 40 ≤ length

def patchedSpace (patched : List UInt8) (h : Headers) : AddressSpace where
  imageBase := (Bytes.numberAt patched h.imageBase h.imageBaseSize).getD 0
  sections := (entries h patched.length).filterMap fun sh => (sectionHeaderAt patched sh).map SectionHeader.toSection

/-- The header fields that are rewritten. -/
def Rewritten (image : List UInt8) (h : Headers) (offset : Nat) : Prop :=
  InFields image h offset ∨ ∃ sh ∈ entries h image.length, Within (sh + 16) 8 offset

/-- A patched image: as long as the image, with all sections mapped, and the same bytes but
for the fields. The image base is that of the module, if no section is written over it. -/
structure Patched (image patched : List UInt8) (h : Headers) (runtimeBase : Nat) : Prop where
  length : patched.length = image.length
  imageBase : (∀ sh ∈ entries h image.length, h.imageBase + h.imageBaseSize ≤ sh + 16) →
    Bytes.numberAt patched h.imageBase h.imageBaseSize = some (runtimeBase % 256 ^ h.imageBaseSize)
  mapped : ∀ sh ∈ entries h image.length, Mapped patched sh
  kept : ∀ offset, ¬Rewritten image h offset → patched[offset]? = image[offset]?

section Patch
variable {image patched : List UInt8} {h : Headers} {runtimeBase : Nat}

theorem mem_entries {length sh : Nat} : sh ∈ entries h length ↔ ∃ i < h.numSections, h.entry i = sh ∧ sh + 40 ≤ length := by
  simp only [entries, List.mem_filter, List.mem_map, List.mem_range, decide_eq_true_eq]
  constructor
  · rintro ⟨⟨i, hi, rfl⟩, hfits⟩
    exact ⟨i, hi, rfl, hfits⟩
  · rintro ⟨i, hi, rfl, hfits⟩
    exact ⟨⟨i, hi, rfl⟩, hfits⟩

/-- An image that passes the checks is patched, if its fields are there. -/
theorem patch_of_fieldsFit (hchecks : checkHeaders image = .some (.ok h)) (hfit : FieldsFit image h) :
    ∃ patched, patchMemoryImageAsPe image runtimeBase = .some (.ok patched) ∧ Patched image patched h runtimeBase := by
  obtain ⟨fields, hfields, hlength, hbase, hkept⟩ := @patchFields_eq image h runtimeBase (checked_of_checkHeaders hchecks) hfit
  obtain ⟨patched, hpatched, hlength', hmapped, hkept'⟩ := patchSections_eq h.sectionTable h.numSections 0 fields
  refine ⟨patched, ?_, by rw [hlength', hlength], fun hfar => ?_, fun sh hsh => ?_, fun offset hout => ?_⟩
  · rw [patchMemoryImageAsPe, hchecks, Outcome.some_bind]
    dsimp only
    rw [hfields, Outcome.some_bind, hpatched, Outcome.some_bind, Outcome.pure_eq]
  · rw [← hbase]
    apply Bytes.numberAt_congr
    intro offset _ hlt
    apply hkept'
    intro j _ hj hin hwithin
    have hsh := hfar (h.entry j) (mem_entries.mpr ⟨j, by omega, rfl, by rwa [← hlength]⟩)
    have hstart : h.entry j + 16 ≤ offset := hwithin.1
    omega
  · obtain ⟨i, hi, rfl, hin⟩ := mem_entries.mp hsh
    exact hmapped i (Nat.zero_le i) (by omega) (by rwa [hlength])
  · rw [hkept' offset fun j _ hj hin hwithin => hout (.inr ⟨h.entry j, mem_entries.mpr ⟨j, by omega, rfl, by rwa [← hlength]⟩,
      hwithin⟩), hkept offset fun hin => hout (.inl hin)]

theorem patch_panic (hchecks : checkHeaders image = .some (.ok h)) (hfit : ¬FieldsFit image h) :
    patchMemoryImageAsPe image runtimeBase = .panic := by
  rw [patchMemoryImageAsPe, hchecks, Outcome.some_bind]
  dsimp only
  rw [patchFields_panic hfit, Outcome.panic_bind]

/-- Where the function panics. -/
theorem patch_ne_panic : patchMemoryImageAsPe image runtimeBase ≠ .panic ↔
    ∀ h, checkHeaders image = .some (.ok h) → FieldsFit image h := by
  constructor
  · intro hcalm h hchecks
    by_contra hfit
    exact hcalm (patch_panic hchecks hfit)
  · intro hfit
    obtain ⟨e, he⟩ | ⟨h, hchecks, -⟩ := checkHeaders_eq image
    · rw [patchMemoryImageAsPe, he, Outcome.some_bind]
      simp
    · obtain ⟨patched, hpatched, -⟩ := @patch_of_fieldsFit image h runtimeBase hchecks (hfit h hchecks)
      rw [hpatched]
      simp

theorem patched_of_patch (hchecks : checkHeaders image = .some (.ok h))
    (hpatch : patchMemoryImageAsPe image runtimeBase = .some (.ok patched)) : Patched image patched h runtimeBase := by
  have hfit : FieldsFit image h := by
    by_contra hfit
    rw [@patch_panic image h runtimeBase hchecks hfit] at hpatch
    cases hpatch
  obtain ⟨patched', hpatched, hspec⟩ := @patch_of_fieldsFit image h runtimeBase hchecks hfit
  rw [hpatched] at hpatch
  cases hpatch
  exact hspec

end Patch

/-! ## Lookups in the patched bytes -/

/-- A section has the address, and the sections in front of it do not begin behind the last
address. -/
def Found (space : AddressSpace) (va : Nat) : Prop :=
  ∃ before s after, space.sections = before ++ s :: after ∧ space.imageBase + s.vaddr ≤ va ∧
    va < space.imageBase + s.vaddr + s.vsize ∧ va < 2 ^ 64 - 1 ∧ ∀ t ∈ before, space.imageBase + t.vaddr < 2 ^ 64

theorem found_iff {space : AddressSpace} {va : Nat} : (∃ s, Loader.sectionAtVa space va = .some s) ↔ Found space va := by
  constructor
  · rintro ⟨s, hs⟩
    obtain ⟨before, after, heq, hcontains, hbefore⟩ := Outcome.find_eq_some.mp hs
    obtain ⟨-, hlo, hhi, hlast⟩ := Loader.sectionContainsVa_eq_true.mp hcontains
    refine ⟨before, s, after, heq, hlo, hhi, hlast, fun t ht => ?_⟩
    apply Loader.sectionContainsVa_ne_panic.mp
    rw [hbefore t ht]
    simp
  · rintro ⟨before, s, after, heq, hlo, hhi, hlast, hbefore⟩
    have hcontains : Loader.sectionContainsVa s space.imageBase va = .some true :=
      Loader.sectionContainsVa_eq_true.mpr ⟨by omega, hlo, hhi, hlast⟩
    have htest : ∀ t ∈ before ++ [s], ∃ passed, Loader.sectionContainsVa t space.imageBase va = .some passed := by
      intro t ht
      rcases List.mem_append.mp ht with hbefore' | hs
      · exact ⟨_, Loader.sectionContainsVa_eq (hbefore t hbefore')⟩
      · rw [List.mem_singleton.mp hs]
        exact ⟨true, hcontains⟩
    obtain ⟨t, -, hfound⟩ := Outcome.find_mem_before after htest ⟨s, by simp, hcontains⟩
    refine ⟨t, ?_⟩
    rw [Loader.sectionAtVa, heq, ← hfound, List.append_assoc]
    rfl

section Lookup
variable {image patched : List UInt8} {h : Headers} {runtimeBase va : Nat}

/-- The sections of the patched bytes are mapped as in memory. -/
theorem section_of_patched (hpatched : Patched image patched h runtimeBase) {s : Section} (hs : s ∈ (patchedSpace patched h).sections) :
    s.rawAddr = s.vaddr ∧ s.vsize ≤ s.rawSize ∧ s.vaddr < 2 ^ 32 ∧ s.rawSize < 2 ^ 32 := by
  obtain ⟨sh, hsh, hheader⟩ := List.mem_filterMap.mp hs
  rw [hpatched.length] at hsh
  obtain ⟨header, hat, hpointer, hsize⟩ := hpatched.mapped sh hsh
  rw [hat, Option.map_some] at hheader
  obtain rfl := Option.some.inj hheader
  obtain ⟨-, -, -, -, -, -, haddress, hraw, -⟩ := DebugDir.sectionHeaderAt_eq_some hat
  exact ⟨hpointer, hsize, haddress, hraw⟩

/-- A lookup ends at the offset that is as far from the start as the address is from the image
base, whatever section it finds. -/
theorem vaToOffset_patched (hpatched : Patched image patched h runtimeBase) {offset : Nat} :
    Loader.vaToOffset (patchedSpace patched h) va = .some offset ↔
      Found (patchedSpace patched h) va ∧ offset = va - (patchedSpace patched h).imageBase := by
  rw [Loader.vaToOffset, Outcome.bind_eq_some, ← found_iff]
  have hoffset : ∀ s, Loader.sectionAtVa (patchedSpace patched h) va = .some s →
      (Loader.sectionVaToOffset s (patchedSpace patched h).imageBase va = .some offset ↔
        offset = va - (patchedSpace patched h).imageBase) := by
    intro s hs
    obtain ⟨hmem, hcontains⟩ := Loader.sectionAtVa_contains hs
    obtain ⟨hraw, hsize, haddress, hrawSize⟩ := section_of_patched hpatched hmem
    obtain ⟨-, hlo, hhi, -⟩ := Loader.sectionContainsVa_eq_true.mp hcontains
    rw [Loader.sectionVaToOffset_eq_some (by omega) hrawSize, and_iff_right hcontains, hraw]
    omega
  constructor
  · rintro ⟨s, hs, h⟩
    exact ⟨⟨s, hs⟩, (hoffset s hs).mp h⟩
  · rintro ⟨⟨s, hs⟩, h⟩
    exact ⟨s, hs, (hoffset s hs).mpr h⟩

theorem sliceForVa_patched (hpatched : Patched image patched h runtimeBase) (himage : image.length < 2 ^ 64) {b : UInt8} :
    Loader.sliceForVa (patchedSpace patched h) patched va 1 = .some [b] ↔
      Found (patchedSpace patched h) va ∧ patched[va - (patchedSpace patched h).imageBase]? = some b := by
  have hbyte : ∀ offset, (offset + 1 < 2 ^ 64 ∧ offset + 1 ≤ patched.length ∧
      [b] = (patched.take (offset + 1)).drop offset) ↔ patched[offset]? = some b := by
    intro offset
    rw [List.drop_take, Nat.add_sub_cancel_left]
    have hlength := hpatched.length
    cases hget : patched[offset]? with
    | none =>
      have hout := List.getElem?_eq_none_iff.mp hget
      simp
      omega
    | some c =>
      obtain ⟨hlt, hat⟩ := List.getElem?_eq_some_iff.mp hget
      rw [List.drop_eq_getElem_cons hlt, hat]
      simp
      constructor
      · rintro ⟨-, -, rfl⟩
        rfl
      · rintro rfl
        exact ⟨by omega, hlt, rfl⟩
  rw [Loader.sliceForVa_eq_some]
  constructor
  · rintro ⟨offset, hoffset, hspec⟩
    obtain ⟨hfound, rfl⟩ := (vaToOffset_patched hpatched).mp hoffset
    exact ⟨hfound, (hbyte _).mp hspec⟩
  · rintro ⟨hfound, hat⟩
    exact ⟨_, (vaToOffset_patched hpatched).mpr ⟨hfound, rfl⟩, (hbyte _).mpr hat⟩

end Lookup

/-! ## The memory of the process -/

/-- An address of the module in the process that is in a section, seen from the base of the
module or from the patched image base, and whose byte is not rewritten. -/
structure SectionByte (image patched : List UInt8) (h : Headers) (runtimeBase va : Nat) : Prop where
  address : va < 2 ^ 64
  inImage : runtimeBase ≤ va ∧ va < runtimeBase + image.length
  inSection : ∃ s ∈ (patchedSpace patched h).sections, ∃ imageBase ∈ [runtimeBase, (patchedSpace patched h).imageBase],
    imageBase + s.vaddr ≤ va ∧ va < imageBase + s.vaddr + s.vsize
  kept : ¬Rewritten image h (va - runtimeBase)

/-- A lookup in the patched bytes returns what the process had at the address. -/
def Agrees (image : List UInt8) (runtimeBase : Nat) : Prop :=
  ∀ h patched, checkHeaders image = .some (.ok h) → patchMemoryImageAsPe image runtimeBase = .some (.ok patched) →
    ∀ va, SectionByte image patched h runtimeBase va → ∀ b, image[va - runtimeBase]? = some b →
      Loader.sliceForVa (patchedSpace patched h) patched va 1 = .some [b]

/-- The address is found, and the image base that is patched is the base of the module, or the
image has the same byte at the distance of the two. -/
def ReadsBack (image patched : List UInt8) (h : Headers) (runtimeBase va : Nat) : Prop :=
  Found (patchedSpace patched h) va ∧ ((patchedSpace patched h).imageBase = runtimeBase ∨
    patched[va - (patchedSpace patched h).imageBase]? = image[va - runtimeBase]?)

section ReadsBack
variable {image patched : List UInt8} {h : Headers} {runtimeBase va : Nat}

theorem imageBase_patched (hpatched : Patched image patched h runtimeBase)
    (hfar : ∀ sh ∈ entries h image.length, h.imageBase + h.imageBaseSize ≤ sh + 16) :
    (patchedSpace patched h).imageBase = runtimeBase % 256 ^ h.imageBaseSize := by
  rw [patchedSpace, hpatched.imageBase hfar, Option.getD_some]

/-- Where no section is written over the image base, the base of the module fits into it, and no
address of a section is behind the last one. -/
theorem readsBack_of_apart (hpatched : Patched image patched h runtimeBase)
    (hfar : ∀ sh ∈ entries h image.length, h.imageBase + h.imageBaseSize ≤ sh + 16)
    (hbase : runtimeBase < 256 ^ h.imageBaseSize) (hroom : runtimeBase + 2 ^ 33 ≤ 2 ^ 64)
    (hbyte : SectionByte image patched h runtimeBase va) : ReadsBack image patched h runtimeBase va := by
  have himageBase : (patchedSpace patched h).imageBase = runtimeBase := by
    rw [imageBase_patched hpatched hfar, Nat.mod_eq_of_lt hbase]
  have hsections : ∀ s ∈ (patchedSpace patched h).sections, s.vaddr < 2 ^ 32 ∧ s.vsize < 2 ^ 32 := by
    intro s hs
    obtain ⟨-, hsize, haddress, hraw⟩ := section_of_patched hpatched hs
    exact ⟨haddress, by omega⟩
  obtain ⟨s, hs, imageBase, himage, hlo, hhi⟩ := hbyte.inSection
  rw [himageBase, List.mem_pair, or_self] at himage
  subst himage
  obtain ⟨before, after, heq⟩ := List.append_of_mem hs
  have hbound := hsections s hs
  refine ⟨⟨before, s, after, heq, ?_, ?_, by omega, fun t ht => ?_⟩, .inl himageBase⟩
  · rwa [himageBase]
  · rwa [himageBase]
  · have hmem : t ∈ (patchedSpace patched h).sections := by
      rw [heq]
      exact List.mem_append_left _ ht
    have hstart := (hsections t hmem).1
    omega

end ReadsBack

/-- The optional header ends behind its magic number. -/
def shortImage : List UInt8 :=
  [0x4d, 0x5a] ++ List.replicate 58 0 ++ [0x40, 0, 0, 0] ++ [0x50, 0x45, 0, 0] ++ List.replicate 20 0 ++ [0x0b, 0x01]

/-- A PE32+ with one section, whose header begins at an offset in the optional header. -/
def imageWithTable (sizeOfOptional : UInt8) (padding : Nat) (header : List UInt8) : List UInt8 :=
  [0x4d, 0x5a] ++ List.replicate 58 0 ++ [0x40, 0, 0, 0] ++ [0x50, 0x45, 0, 0, 0, 0, 1, 0] ++ List.replicate 12 0 ++
    [sizeOfOptional, 0, 0, 0] ++ [0x0b, 0x02] ++ List.replicate padding 0 ++ header

/-- A section at `0x10`, with eight bytes. -/
def farImage : List UInt8 :=
  imageWithTable 0x28 38 (List.replicate 8 0 ++ [8, 0, 0, 0] ++ [0x10, 0, 0, 0] ++ List.replicate 24 0)

/-- A section at `0` with `0x10010` bytes, whose header is over the image base. -/
def overlappingImage (imageBase : List UInt8) : List UInt8 :=
  imageWithTable 8 6 (List.replicate 8 0 ++ [0x10, 0, 1, 0] ++ List.replicate 4 0 ++ imageBase ++ List.replicate 16 0)

end Windy.ModulePe
