import Mathlib.Data.List.Pairwise
import Windy.Analysis.CodeIndex
import Windy.Lib.Outcome

/- Addresses and file offsets of an image (`loader/address_space.rs`).

   A section has a range of addresses and a range of the file, of different sizes in general. An
   address is in the file if it is in both: within the virtual size, and no further from the start
   than the raw size. Sums of addresses are checked, so a lookup may panic; where no sum overflows
   it is the lookup that the analysis uses (`sectionAtVa_eq`).

   A slice is taken from the file where its first byte lies. Only that byte is compared with the
   section, so a slice may run past the initialized data of its section.

   What is proved: in a space with sections that share neither addresses nor bytes of the file,
   addresses and offsets translate back and forth without an overflow, and a slice shows what is at
   its addresses, exactly when the sections are `Addressable` and the slice lies `Within` its
   section (`translation_iff`).

   Correspondence:
     `Section::contains_va`, `va_to_offset` ↔ `sectionContainsVa`, `sectionVaToOffset`
     `AddressSpace::section_at_va`, `AddressSpace::offset_to_va`, `AddressSpace::is_executable_va`,
     `AddressSpace::slice_for_va` ↔ the same
     `section_at_va(va)?.va_to_offset(base, va)` ↔ `vaToOffset` -/
namespace Windy.Loader

/-- The fields have the width of their types. -/
structure Sized (space : AddressSpace) : Prop where
  imageBase : space.imageBase < 2 ^ 64
  fields : ∀ s ∈ space.sections, s.vaddr < 2 ^ 32 ∧ s.vsize < 2 ^ 32 ∧ s.rawAddr < 2 ^ 32 ∧ s.rawSize < 2 ^ 32

def sectionContainsVa (s : Section) (imageBase va : Nat) : Outcome Bool := do
  let start ← Outcome.add 64 imageBase s.vaddr
  let stop := Outcome.saturatingAdd 64 start s.vsize
  return start ≤ va && va < stop

def sectionVaToOffset (s : Section) (imageBase va : Nat) : Outcome Nat := do
  if !(← sectionContainsVa s imageBase va) then Outcome.none
  else
    let offsetInSection := va - imageBase - s.vaddr
    if s.rawSize ≤ offsetInSection then Outcome.none
    else return Outcome.saturatingAdd 64 s.rawAddr offsetInSection

def sectionHasOffset (offset : Nat) (s : Section) : Bool :=
  s.rawAddr ≤ offset && offset < Outcome.saturatingAdd 32 s.rawAddr s.rawSize

section Space
variable (space : AddressSpace)

def sectionAtVa (va : Nat) : Outcome Section :=
  Outcome.find (fun s => sectionContainsVa s space.imageBase va) space.sections

def vaToOffset (va : Nat) : Outcome Nat := do
  let s ← sectionAtVa space va
  sectionVaToOffset s space.imageBase va

def isExecutableVa (va : Nat) : Outcome Bool :=
  match sectionAtVa space va with
  | .panic => .panic
  | .none => .some false
  | .some s => .some s.isExecutable

/-- The section whose part of the file has the offset. -/
def sectionAtOffset (offset : Nat) : Option Section := space.sections.find? (sectionHasOffset offset)

def offsetToVa (offset : Nat) : Outcome Nat :=
  if 2 ^ 32 ≤ offset then Outcome.none
  else do
    let s ← Outcome.ofOption (sectionAtOffset space offset)
    let start ← Outcome.add 64 space.imageBase s.vaddr
    Outcome.add 64 start (offset - s.rawAddr)

def sliceForVa (image : List UInt8) (va len : Nat) : Outcome (List UInt8) := do
  let s ← sectionAtVa space va
  let fileOffset ← sectionVaToOffset s space.imageBase va
  let stop ← Outcome.ofOption (Outcome.checkedAdd 64 fileOffset len)
  Outcome.ofOption (Outcome.get image fileOffset stop)

end Space

/-! ## Sections -/

section Lookup
variable {s : Section} {imageBase va offset : Nat}

/-- The sum in front of every lookup. -/
theorem sectionContainsVa_eq (h : imageBase + s.vaddr < 2 ^ 64) :
    sectionContainsVa s imageBase va = .some (s.containsVa imageBase va) := by
  rw [sectionContainsVa, Outcome.add_eq h]
  rfl

theorem sectionContainsVa_ne_panic : sectionContainsVa s imageBase va ≠ .panic ↔ imageBase + s.vaddr < 2 ^ 64 := by
  rw [sectionContainsVa, Outcome.bind_ne_panic, Outcome.add_ne_panic]
  simp

theorem sectionContainsVa_eq_true : sectionContainsVa s imageBase va = .some true ↔ imageBase + s.vaddr < 2 ^ 64 ∧
    imageBase + s.vaddr ≤ va ∧ va < imageBase + s.vaddr + s.vsize ∧ va < 2 ^ 64 - 1 := by
  by_cases h : imageBase + s.vaddr < 2 ^ 64
  · rw [sectionContainsVa_eq h]
    simp only [Section.containsVa, h, Outcome.some.injEq, Bool.and_eq_true, decide_eq_true_eq, true_and]
    omega
  · refine iff_of_false (fun htrue => ?_) fun hand => h hand.1
    exact h (sectionContainsVa_ne_panic.mp (by rw [htrue]; simp))

/-- An initialized byte, with the saturating sum of two fields of 32 bits. -/
theorem sectionVaToOffset_eq_some (haddr : s.rawAddr < 2 ^ 32) (hsize : s.rawSize < 2 ^ 32) :
    sectionVaToOffset s imageBase va = .some offset ↔ sectionContainsVa s imageBase va = .some true ∧
      va - imageBase - s.vaddr < s.rawSize ∧ offset = s.rawAddr + (va - imageBase - s.vaddr) := by
  unfold sectionVaToOffset
  rw [Outcome.bind_eq_some]
  constructor
  · rintro ⟨contained, hcontained, hoffset⟩
    cases contained with
    | false => cases hoffset
    | true =>
      simp only [Bool.not_true, Bool.false_eq_true, if_false] at hoffset
      split at hoffset
      · cases hoffset
      · rename_i hlt
        rw [Outcome.pure_eq, Outcome.some.injEq, Outcome.saturatingAdd] at hoffset
        exact ⟨hcontained, by omega, by omega⟩
  · rintro ⟨hcontained, hlt, rfl⟩
    refine ⟨true, hcontained, ?_⟩
    simp only [Bool.not_true, Bool.false_eq_true, if_false]
    rw [if_neg (by omega), Outcome.pure_eq, Outcome.some.injEq, Outcome.saturatingAdd]
    omega

theorem sectionContainsVa_ne_none : sectionContainsVa s imageBase va ≠ .none := by
  unfold sectionContainsVa Outcome.add
  split <;> simp

end Lookup

/-! ## Spaces -/

section Space
variable {space : AddressSpace} {s : Section} {va offset : Nat}

/-- No section starts behind the last address. -/
def Starts (space : AddressSpace) : Prop := ∀ s ∈ space.sections, space.imageBase + s.vaddr < 2 ^ 64

theorem sectionAtVa_eq (hstarts : Starts space) (va : Nat) : sectionAtVa space va = Outcome.ofOption (space.sectionAtVa va) :=
  Outcome.find_eq fun s hs => sectionContainsVa_eq (hstarts s hs)

theorem sectionAtVa_contains (h : sectionAtVa space va = .some s) :
    s ∈ space.sections ∧ sectionContainsVa s space.imageBase va = .some true := by
  obtain ⟨before, after, heq, hcontains, -⟩ := Outcome.find_eq_some.mp h
  refine ⟨?_, hcontains⟩
  rw [heq]
  simp

theorem vaToOffset_eq_some (hsized : Sized space) : vaToOffset space va = .some offset ↔ ∃ s, sectionAtVa space va = .some s ∧
    va - space.imageBase - s.vaddr < s.rawSize ∧ offset = s.rawAddr + (va - space.imageBase - s.vaddr) := by
  rw [vaToOffset, Outcome.bind_eq_some]
  refine exists_congr fun s => and_congr_right fun hs => ?_
  obtain ⟨hmem, hcontains⟩ := sectionAtVa_contains hs
  obtain ⟨-, -, haddr, hsize⟩ := hsized.fields s hmem
  rw [sectionVaToOffset_eq_some haddr hsize, and_iff_right hcontains]

theorem sliceForVa_eq_bind (image : List UInt8) (va len : Nat) : sliceForVa space image va len = (do
    let offset ← vaToOffset space va
    let stop ← Outcome.ofOption (Outcome.checkedAdd 64 offset len)
    Outcome.ofOption (Outcome.get image offset stop)) := by
  rw [sliceForVa, vaToOffset, bind_assoc]

theorem sliceForVa_eq_some {image bytes : List UInt8} {len : Nat} : sliceForVa space image va len = .some bytes ↔
    ∃ offset, vaToOffset space va = .some offset ∧ offset + len < 2 ^ 64 ∧ offset + len ≤ image.length ∧
      bytes = (image.take (offset + len)).drop offset := by
  rw [sliceForVa_eq_bind, Outcome.bind_eq_some]
  refine exists_congr fun offset => and_congr_right fun _ => ?_
  by_cases hfits : offset + len < 2 ^ 64
  · rw [Outcome.checkedAdd, if_pos hfits, Outcome.ofOption_some, Outcome.some_bind, Outcome.ofOption_eq_some, Outcome.get]
    by_cases hfile : offset + len ≤ image.length
    · rw [if_pos ⟨Nat.le_add_right _ _, hfile⟩, Option.some.injEq, and_iff_right hfits, and_iff_right hfile]
      exact eq_comm
    · rw [if_neg fun h => hfile h.2]
      exact iff_of_false (by simp) fun h => hfile h.2.1
  · rw [Outcome.checkedAdd, if_neg hfits]
    exact iff_of_false (by simp) fun h => hfits h.1

theorem sliceForVa_length {image bytes : List UInt8} {len : Nat} (h : sliceForVa space image va len = .some bytes) :
    bytes.length = len := by
  obtain ⟨offset, -, -, hfile, rfl⟩ := sliceForVa_eq_some.mp h
  rw [List.length_drop, List.length_take]
  omega

/-- A slice from the offset of its address on, if the file goes on for so long. -/
theorem sliceForVa_of_offset {image : List UInt8} {len : Nat} (himage : image.length < 2 ^ 64)
    (hva : vaToOffset space va = .some offset) :
    sliceForVa space image va len = if offset + len ≤ image.length then .some ((image.drop offset).take len) else .none := by
  rw [sliceForVa_eq_bind, hva, Outcome.some_bind, Outcome.checkedAdd]
  by_cases hfile : offset + len ≤ image.length
  · rw [if_pos (by omega), Outcome.ofOption_some, Outcome.some_bind, Outcome.get, if_pos ⟨Nat.le_add_right _ _, hfile⟩,
      if_pos hfile, List.drop_take, Nat.add_sub_cancel_left, Outcome.ofOption_some]
  · rw [if_neg hfile]
    split
    · rw [Outcome.ofOption_some, Outcome.some_bind, Outcome.get, if_neg fun h => hfile h.2, Outcome.ofOption_none]
    · rfl

end Space

/-! ## Translation there and back -/

/-- Two ranges share nothing. -/
def Apart (start size start' size' : Nat) : Prop :=
  ∀ x, start ≤ x → x < start + size → start' ≤ x → start' + size' ≤ x

/-- No two sections share an address, or a byte of the file. -/
structure Separate (space : AddressSpace) : Prop where
  virtual : space.sections.Pairwise fun s t => Apart s.vaddr s.vsize t.vaddr t.vsize
  raw : space.sections.Pairwise fun s t => Apart s.rawAddr s.rawSize t.rawAddr t.rawSize

theorem Apart.symm {start size start' size' : Nat} (h : Apart start size start' size') : Apart start' size' start size := by
  intro x hstart' hlt' hstart
  by_contra hin
  have hout := h x hstart (by omega) hstart'
  omega

theorem Separate.virtual_apart {space : AddressSpace} (h : Separate space) {s t : Section} (hs : s ∈ space.sections)
    (ht : t ∈ space.sections) (hne : s ≠ t) : Apart s.vaddr s.vsize t.vaddr t.vsize := by
  have hsymm : Std.Symm fun s t : Section => Apart s.vaddr s.vsize t.vaddr t.vsize := ⟨fun _ _ h => h.symm⟩
  exact h.virtual.forall hs ht hne

theorem Separate.raw_apart {space : AddressSpace} (h : Separate space) {s t : Section} (hs : s ∈ space.sections)
    (ht : t ∈ space.sections) (hne : s ≠ t) : Apart s.rawAddr s.rawSize t.rawAddr t.rawSize := by
  have hsymm : Std.Symm fun s t : Section => Apart s.rawAddr s.rawSize t.rawAddr t.rawSize := ⟨fun _ _ h => h.symm⟩
  exact h.raw.forall hs ht hne

/-- How many of the raw bytes of a section `offset_to_va` knows of. -/
def fileBytes (s : Section) : Nat := Outcome.saturatingAdd 32 s.rawAddr s.rawSize - s.rawAddr

/-- Where the addresses of a section end for `contains_va`. -/
def virtualEnd (space : AddressSpace) (s : Section) : Nat :=
  Outcome.saturatingAdd 64 (space.imageBase + s.vaddr) s.vsize

section Translation
variable (space : AddressSpace)

def RoundTrips : Prop := ∀ va offset, vaToOffset space va = .some offset → offsetToVa space offset = .some va

/-- The offset of a byte whose address its section has leads back to the offset. -/
def RoundTripsBack : Prop :=
  ∀ s offset va, sectionAtOffset space offset = some s → offsetToVa space offset = .some va →
    space.imageBase + s.vaddr ≤ va → va < space.imageBase + s.vaddr + s.vsize → vaToOffset space va = .some offset

def NoOverflow : Prop := ∀ x < 2 ^ 64, vaToOffset space x ≠ .panic ∧ offsetToVa space x ≠ .panic

/-- The bytes of a slice are what the file has at their addresses, all of one section. -/
def SliceExact (image : List UInt8) (va len : Nat) : Prop :=
  ∀ bytes, sliceForVa space image va len = .some bytes → ∀ i < len,
    sectionAtVa space (va + i) = sectionAtVa space va ∧
      ∃ offset, vaToOffset space (va + i) = .some offset ∧ bytes[i]? = image[offset]?

/-- The sums for a section fit their types: those for its addresses, those for the
addresses of its raw bytes, and those for the offsets of its initialized bytes. -/
structure Addressable : Prop where
  starts : Starts space
  raw : ∀ s ∈ space.sections, space.imageBase + s.vaddr + fileBytes s ≤ 2 ^ 64
  top : ∀ s ∈ space.sections, space.imageBase + s.vaddr + min s.vsize (fileBytes s) < 2 ^ 64
  file : ∀ s ∈ space.sections,
    s.rawAddr + min (virtualEnd space s - (space.imageBase + s.vaddr)) s.rawSize < 2 ^ 32

/-- The initialized data of the section goes on for the length of the slice. -/
def Within (image : List UInt8) (va len : Nat) : Prop :=
  ∀ s offset, sectionAtVa space va = .some s → vaToOffset space va = .some offset → offset + len ≤ image.length →
    va + len ≤ min (virtualEnd space s) (space.imageBase + s.vaddr + s.rawSize)

variable {space} {s : Section} {va offset : Nat} (hsized : Sized space) (hseparate : Separate space)
include hseparate

theorem eq_of_virtual {t : Section} (hs : s ∈ space.sections) (ht : t ∈ space.sections)
    (hsva : sectionContainsVa s space.imageBase va = .some true) (htva : sectionContainsVa t space.imageBase va = .some true) :
    s = t := by
  by_contra hne
  rw [sectionContainsVa_eq_true] at hsva htva
  have hapart := hseparate.virtual_apart hs ht hne (va - space.imageBase)
  omega

theorem sectionAtVa_of_mem (hstarts : Starts space) (hs : s ∈ space.sections)
    (hva : sectionContainsVa s space.imageBase va = .some true) : sectionAtVa space va = .some s := by
  have hcontains : s.containsVa space.imageBase va = true := by
    rwa [sectionContainsVa_eq (hstarts s hs), Outcome.some.injEq] at hva
  obtain ⟨t, ht⟩ : ∃ t, space.sectionAtVa va = some t :=
    Option.isSome_iff_exists.mp (List.find?_isSome.mpr ⟨s, hs, hcontains⟩)
  have hfound : sectionAtVa space va = .some t := by rw [sectionAtVa_eq hstarts, ht, Outcome.ofOption_some]
  obtain ⟨htmem, htva⟩ := sectionAtVa_contains hfound
  rw [hfound, eq_of_virtual hseparate hs htmem hva htva]

omit hseparate in
theorem sectionHasOffset_iff : sectionHasOffset offset s = true ↔ s.rawAddr ≤ offset ∧ offset < s.rawAddr + fileBytes s := by
  rw [sectionHasOffset, Bool.and_eq_true, decide_eq_true_eq, decide_eq_true_eq, fileBytes]
  omega

theorem sectionAtOffset_eq_some : sectionAtOffset space offset = some s ↔
    s ∈ space.sections ∧ s.rawAddr ≤ offset ∧ offset < s.rawAddr + fileBytes s := by
  rw [← sectionHasOffset_iff]
  constructor
  · intro h
    exact ⟨List.mem_of_find?_eq_some h, List.find?_some h⟩
  · rintro ⟨hs, hoffset⟩
    obtain ⟨t, ht⟩ : ∃ t, sectionAtOffset space offset = some t :=
      Option.isSome_iff_exists.mp (List.find?_isSome.mpr ⟨s, hs, hoffset⟩)
    have htmem := List.mem_of_find?_eq_some ht
    obtain ⟨hlo, hhi⟩ := sectionHasOffset_iff.mp hoffset
    obtain ⟨htlo, hthi⟩ := sectionHasOffset_iff.mp (List.find?_some ht)
    rw [ht]
    by_contra hne
    have hapart := hseparate.raw_apart hs htmem (fun h => hne (by rw [h])) offset
    rw [fileBytes, Outcome.saturatingAdd] at hhi hthi
    omega

variable (hstarts : Starts space)
include hsized hstarts

omit hseparate hsized in
theorem vaToOffset_ne_panic (va : Nat) : vaToOffset space va ≠ .panic := by
  rw [vaToOffset, Outcome.bind_ne_panic, sectionAtVa_eq hstarts]
  refine ⟨Outcome.ofOption_ne_panic _, fun s hs => ?_⟩
  have hmem : s ∈ space.sections := List.mem_of_find?_eq_some (Outcome.ofOption_eq_some.mp hs)
  rw [sectionVaToOffset, sectionContainsVa_eq (hstarts s hmem), Outcome.some_bind]
  split
  · simp
  · dsimp only
    split <;> simp

/-- The initialized bytes are those of the section within both sizes. -/
theorem vaToOffset_iff : vaToOffset space va = .some offset ↔ ∃ s ∈ space.sections, space.imageBase + s.vaddr ≤ va ∧
    va < virtualEnd space s ∧ va < space.imageBase + s.vaddr + s.rawSize ∧
      offset = s.rawAddr + (va - space.imageBase - s.vaddr) := by
  rw [vaToOffset_eq_some hsized]
  constructor
  · rintro ⟨s, hs, hlt, rfl⟩
    obtain ⟨hmem, hcontains⟩ := sectionAtVa_contains hs
    rw [sectionContainsVa_eq_true] at hcontains
    refine ⟨s, hmem, hcontains.2.1, ?_, by omega, rfl⟩
    rw [virtualEnd, Outcome.saturatingAdd]
    omega
  · rintro ⟨s, hmem, hlo, hhi, hraw, rfl⟩
    rw [virtualEnd, Outcome.saturatingAdd] at hhi
    have hcontains := sectionContainsVa_eq_true.mpr ⟨hstarts s hmem, hlo, by omega, by omega⟩
    exact ⟨s, sectionAtVa_of_mem hseparate hstarts hmem hcontains, by omega, rfl⟩

omit hsized in
/-- Where the sum for the address does not overflow. -/
theorem offsetToVa_iff (hoffset : offset < 2 ^ 32) : offsetToVa space offset = .some va ↔ ∃ s ∈ space.sections,
    s.rawAddr ≤ offset ∧ offset < s.rawAddr + fileBytes s ∧ va < 2 ^ 64 ∧
      va = space.imageBase + s.vaddr + (offset - s.rawAddr) := by
  rw [offsetToVa, if_neg (by omega), Outcome.bind_eq_some]
  refine exists_congr fun s => ?_
  rw [Outcome.ofOption_eq_some, sectionAtOffset_eq_some hseparate, and_assoc, and_assoc]
  refine and_congr_right fun hmem => and_congr_right fun _ => and_congr_right fun _ => ?_
  rw [Outcome.add_eq (hstarts s hmem), Outcome.some_bind, Outcome.add_eq_some]
  constructor
  · rintro ⟨hlt, rfl⟩
    exact ⟨hlt, rfl⟩
  · rintro ⟨hlt, rfl⟩
    exact ⟨hlt, rfl⟩

end Translation

/-! ## When translations are right -/

/-- The file offsets of a section are numbers of 32 bits. -/
theorem fileEnd_le {space : AddressSpace} (hsized : Sized space) {s : Section} (hs : s ∈ space.sections) :
    s.rawAddr + fileBytes s ≤ 2 ^ 32 := by
  obtain ⟨-, -, haddr, -⟩ := hsized.fields s hs
  rw [fileBytes, Outcome.saturatingAdd]
  omega

section Addressable
variable {space : AddressSpace} (hsized : Sized space) (hseparate : Separate space)
include hsized hseparate

theorem Addressable.roundTrips (h : Addressable space) : RoundTrips space := by
  intro va offset hoffset
  obtain ⟨s, hmem, hlo, hhi, hraw, rfl⟩ := (vaToOffset_iff hsized hseparate h.starts).mp hoffset
  have hfile := h.file s hmem
  have hbytes : va - space.imageBase - s.vaddr < fileBytes s := by
    rw [fileBytes, Outcome.saturatingAdd]
    omega
  have hend : virtualEnd space s ≤ 2 ^ 64 - 1 := Nat.min_le_right _ _
  rw [offsetToVa_iff hseparate h.starts (by omega)]
  exact ⟨s, hmem, by omega, by omega, by omega, by omega⟩

theorem Addressable.roundTripsBack (h : Addressable space) : RoundTripsBack space := by
  intro s offset va hs hva hlo hhi
  obtain ⟨hmem, hslo, hshi⟩ := (sectionAtOffset_eq_some hseparate).mp hs
  have hbytes := fileEnd_le hsized hmem
  obtain ⟨t, htmem, htlo, hthi, hlt, rfl⟩ := (offsetToVa_iff hseparate h.starts (by omega)).mp hva
  obtain rfl : t = s := by
    have ht := (sectionAtOffset_eq_some hseparate).mpr ⟨htmem, htlo, hthi⟩
    exact Option.some.inj (ht.symm.trans hs)
  have htop := h.top t hmem
  have hraw : fileBytes t ≤ t.rawSize := by
    rw [fileBytes, Outcome.saturatingAdd]
    omega
  rw [vaToOffset_iff hsized hseparate h.starts]
  refine ⟨t, hmem, by omega, ?_, by omega, by omega⟩
  rw [virtualEnd, Outcome.saturatingAdd]
  omega

omit hsized in
theorem Addressable.noOverflow (h : Addressable space) : NoOverflow space := by
  intro x _
  refine ⟨vaToOffset_ne_panic h.starts x, ?_⟩
  unfold offsetToVa
  split
  · simp
  · rw [Outcome.bind_ne_panic]
    refine ⟨Outcome.ofOption_ne_panic _, fun s hs => ?_⟩
    obtain ⟨hmem, hlo, hhi⟩ := (sectionAtOffset_eq_some hseparate).mp (Outcome.ofOption_eq_some.mp hs)
    have hraw := h.raw s hmem
    rw [Outcome.add_eq (h.starts s hmem), Outcome.some_bind, Outcome.add_ne_panic]
    omega

omit hsized hseparate in
/-- A lookup of the last address comes to every section. -/
theorem starts_of_noOverflow (h : NoOverflow space) : Starts space := by
  have hlookup := (h (2 ^ 64 - 1) (by omega)).1
  rw [vaToOffset, Outcome.bind_ne_panic] at hlookup
  intro s hs
  refine sectionContainsVa_ne_panic.mp (Outcome.find_ne_panic hlookup.1 (fun t _ ht => ?_) (fun t _ => ?_) s hs)
  · rw [sectionContainsVa_eq_true] at ht
    omega
  · exact sectionContainsVa_ne_none

theorem addressable_of_translates (hthere : RoundTrips space) (hback : RoundTripsBack space) (hcalm : NoOverflow space) :
    Addressable space := by
  have hstarts := starts_of_noOverflow hcalm
  have hraw : ∀ s ∈ space.sections, space.imageBase + s.vaddr + fileBytes s ≤ 2 ^ 64 := by
    intro s hs
    by_contra hover
    have hstart := hstarts s hs
    have hbytes := fileEnd_le hsized hs
    -- the last of the raw bytes
    set offset := s.rawAddr + fileBytes s - 1 with hoffset
    have hsection : sectionAtOffset space offset = some s :=
      (sectionAtOffset_eq_some hseparate).mpr ⟨hs, by omega, by omega⟩
    refine (hcalm offset (by omega)).2 ?_
    rw [offsetToVa, if_neg (by omega), hsection, Outcome.ofOption_some, Outcome.some_bind, Outcome.add_eq hstart,
      Outcome.some_bind, Outcome.add, if_neg (by omega)]
  refine ⟨hstarts, hraw, fun s hs => ?_, fun s hs => ?_⟩
  · by_contra htop
    have hstart := hstarts s hs
    have hfits := hraw s hs
    have hbytes := fileEnd_le hsized hs
    -- the byte at the last address, which no section contains
    set offset := s.rawAddr + (2 ^ 64 - 1 - (space.imageBase + s.vaddr)) with hoffset
    have hsection : sectionAtOffset space offset = some s :=
      (sectionAtOffset_eq_some hseparate).mpr ⟨hs, by omega, by omega⟩
    have hva : offsetToVa space offset = .some (2 ^ 64 - 1) := by
      rw [offsetToVa_iff hseparate hstarts (by omega)]
      exact ⟨s, hs, by omega, by omega, by omega, by omega⟩
    have hlost := hback s offset _ hsection hva (by omega) (by omega)
    obtain ⟨t, -, -, hhi, -⟩ := (vaToOffset_iff hsized hseparate hstarts).mp hlost
    rw [virtualEnd, Outcome.saturatingAdd] at hhi
    omega
  · by_contra hfile
    obtain ⟨-, -, haddr, -⟩ := hsized.fields s hs
    -- the byte at the last offset of 32 bits
    set va := space.imageBase + s.vaddr + (2 ^ 32 - 1 - s.rawAddr) with hva
    have hoffset : vaToOffset space va = .some (2 ^ 32 - 1) := by
      rw [vaToOffset_iff hsized hseparate hstarts]
      exact ⟨s, hs, by omega, by omega, by omega, by omega⟩
    have hlost := hthere va _ hoffset
    obtain ⟨t, -, hlo, hhi, -⟩ := (offsetToVa_iff hseparate hstarts (by omega)).mp hlost
    rw [fileBytes, Outcome.saturatingAdd] at hhi
    omega

theorem sliceExact_iff (hstarts : Starts space) {image : List UInt8} (himage : image.length < 2 ^ 64) {va len : Nat} :
    SliceExact space image va len ↔ Within space image va len := by
  constructor
  · intro hexact s offset hs hoffset hfile
    obtain ⟨hmem, hcontains⟩ := sectionAtVa_contains hs
    obtain ⟨t, ht, hlt, rfl⟩ := (vaToOffset_eq_some hsized).mp hoffset
    obtain rfl : s = t := Outcome.some.inj (hs.symm.trans ht)
    rw [sectionContainsVa_eq_true] at hcontains
    rw [virtualEnd, Outcome.saturatingAdd]
    cases len with
    | zero => omega
    | succ n =>
      have hslice := sliceForVa_eq_some.mpr ⟨_, hoffset, by omega, hfile, rfl⟩
      -- the last byte of the slice
      obtain ⟨hsame, offset', hoffset', -⟩ := hexact _ hslice n (by omega)
      rw [hs] at hsame
      obtain ⟨t, ht, hlast, -⟩ := (vaToOffset_eq_some hsized).mp hoffset'
      obtain rfl : s = t := Outcome.some.inj (hsame.symm.trans ht)
      have hcontained := sectionContainsVa_eq_true.mp (sectionAtVa_contains hsame).2
      omega
  · intro hwithin bytes hslice i hi
    obtain ⟨offset, hoffset, -, hfile, rfl⟩ := sliceForVa_eq_some.mp hslice
    obtain ⟨s, hs, hlt, rfl⟩ := (vaToOffset_eq_some hsized).mp hoffset
    obtain ⟨hmem, hcontains⟩ := sectionAtVa_contains hs
    have hend := hwithin s _ hs hoffset hfile
    rw [sectionContainsVa_eq_true] at hcontains
    rw [virtualEnd, Outcome.saturatingAdd] at hend
    have hnext : sectionAtVa space (va + i) = .some s := by
      refine sectionAtVa_of_mem hseparate hstarts hmem (sectionContainsVa_eq_true.mpr ?_)
      exact ⟨hcontains.1, by omega, by omega, by omega⟩
    refine ⟨hnext.trans hs.symm, s.rawAddr + (va - space.imageBase - s.vaddr) + i, ?_, ?_⟩
    · rw [vaToOffset_eq_some hsized]
      exact ⟨s, hnext, by omega, by omega⟩
    · rw [List.getElem?_drop, List.getElem?_take, if_pos (by omega)]

end Addressable

/-- Addresses and offsets translate back and forth without an overflow, and a slice shows
what is at its addresses, exactly when the sections are addressable and the slice lies
within the initialized data of its section. -/
theorem translation_iff {space : AddressSpace} (hsized : Sized space) (hseparate : Separate space) {image : List UInt8}
    (himage : image.length < 2 ^ 64) (va len : Nat) :
    RoundTrips space ∧ RoundTripsBack space ∧ NoOverflow space ∧ SliceExact space image va len ↔
      Addressable space ∧ Within space image va len := by
  constructor
  · rintro ⟨hthere, hback, hcalm, hslice⟩
    have h := addressable_of_translates hsized hseparate hthere hback hcalm
    exact ⟨h, (sliceExact_iff hsized hseparate h.starts himage).mp hslice⟩
  · rintro ⟨h, hwithin⟩
    exact ⟨h.roundTrips hsized hseparate, h.roundTripsBack hsized hseparate, h.noOverflow hseparate,
      (sliceExact_iff hsized hseparate h.starts himage).mpr hwithin⟩

/-! Two sections, next to each other in the file and apart in memory. -/

def twoSections : AddressSpace where
  imageBase := 0x140000000
  sections := [{ vaddr := 0x1000, vsize := 4, rawAddr := 0, rawSize := 4, characteristics := 0x60000020 },
    { vaddr := 0x2000, vsize := 4, rawAddr := 4, rawSize := 4, characteristics := 0x40000040 }]

def eightBytes : List UInt8 := [1, 2, 3, 4, 5, 6, 7, 8]

theorem sized_twoSections : Sized twoSections := ⟨by decide, by decide⟩

theorem separate_twoSections : Separate twoSections := by
  constructor
  · simp only [twoSections, List.pairwise_cons, Apart]
    simp
    omega
  · simp only [twoSections, List.pairwise_cons, Apart]
    simp
    omega

/-- All of the first section. -/
theorem translation_twoSections : RoundTrips twoSections ∧ RoundTripsBack twoSections ∧ NoOverflow twoSections ∧
    SliceExact twoSections eightBytes 0x140001000 4 := by
  have hstarts : Starts twoSections := by
    unfold Starts
    decide
  refine (translation_iff sized_twoSections separate_twoSections (by decide) _ _).mpr ⟨⟨hstarts, ?_, ?_, ?_⟩, ?_⟩
  · decide
  · decide
  · decide
  · intro s offset hs _ _
    have hfirst : sectionAtVa twoSections 0x140001000 = .some twoSections.sections[0] :=
      sectionAtVa_of_mem separate_twoSections hstarts List.mem_cons_self (by decide)
    obtain rfl := Outcome.some.inj (hfirst.symm.trans hs)
    decide

/-- A slice from the middle of the first section ends with bytes of the second one, and
the addresses it runs over are in no section. -/
theorem slice_not_exact : Sized twoSections ∧ Separate twoSections ∧
    sliceForVa twoSections eightBytes 0x140001002 4 = .some [3, 4, 5, 6] ∧
    vaToOffset twoSections (0x140001002 + 2) = .none ∧ ¬ SliceExact twoSections eightBytes 0x140001002 4 := by
  have hslice : sliceForVa twoSections eightBytes 0x140001002 4 = .some [3, 4, 5, 6] := by decide
  have hnone : vaToOffset twoSections (0x140001002 + 2) = .none := by decide
  refine ⟨sized_twoSections, separate_twoSections, hslice, hnone, fun hexact => ?_⟩
  obtain ⟨-, offset, hoffset, -⟩ := hexact _ hslice 2 (by decide)
  rw [hnone] at hoffset
  cases hoffset

end Windy.Loader
