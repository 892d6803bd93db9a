import Mathlib.Data.List.Pairwise
import Mathlib.Data.List.Perm.Basic
import Mathlib.Data.List.Sort
import Windy.Analysis.CodeIndex
import Windy.Lib.Outcome

/- How the index of decoded instructions comes about (`analysis/code_index.rs`).

   The executable sections are sorted by their addresses, and the bytes that each has in the
   file are decoded one after the other into one list. The list is the index: every lookup is
   a binary search in it. It is sorted if the sections are far enough apart, which is a matter
   of their raw sizes; the virtual sizes, which the address map goes by, are not looked at.

   The decoder is not part of the repository. It is assumed to yield instructions of 1 to 15
   bytes, one behind the other within the bytes it is given, with addresses that wrap around
   at 64 bits (`Decodes`). The loop then never meets an instruction of no length, and the
   slices it takes of the section are in range.

   Of the sort it is only used that the addresses ascend, and of the binary search what the
   library promises for a sorted list (`Searches`).

   What is proved: for every decoder, sort and search the list is strictly increasing and the
   lookups are exact, exactly when the bytes of any two executable sections lie at addresses
   of their own and none of them is behind the last address (`lookupExact_iff`).

   Correspondence:
     `decode_section` ↔ `decodeSection` (its loop is `pushInstrs`)
     `CodeIndex::build` ↔ `build`, over a `SortedByVaddr` list
     `CodeIndex::idx_for_va`, `CodeIndex::at_va`, `CodeIndex::window` ↔ the same -/
namespace Windy.CodeBuild

/-- What the decoder says of an instruction. -/
structure Instruction (ι : Type) where
  ip : Nat
  len : Nat
  detail : ι

/-- The instructions that a decoder yields for the bytes at an address, in this bitness. -/
abbrev Decoder (ι : Type) := Nat → List UInt8 → Nat → List (Instruction ι)

structure DecodedInstr (ι : Type) where
  ip : Nat
  len : Nat
  bytes : List UInt8
  instr : Instruction ι

section Build
variable {ι : Type}

def pushInstrs (sectionBytes : List UInt8) (baseIp : Nat) : List (Instruction ι) → List (DecodedInstr ι)
  | [] => []
  | instr :: instrs =>
    if instr.len = 0 then []
    else
      let offset := instr.ip - baseIp
      let bytes := (sectionBytes.drop offset).take (min 16 instr.len)
      ⟨instr.ip, instr.len, bytes, instr⟩ :: pushInstrs sectionBytes baseIp instrs

variable (decoder : Decoder ι) (image : List UInt8)

def baseIp (imageBase : Nat) (s : Section) : Nat := Outcome.saturatingAdd 64 imageBase s.vaddr

def decodeSection (imageBase bitness : Nat) (s : Section) : List (DecodedInstr ι) :=
  let rawStart := s.rawAddr
  let rawEnd := min (Outcome.saturatingAdd 64 rawStart s.rawSize) image.length
  if image.length ≤ rawStart ∨ rawEnd ≤ rawStart then []
  else
    let sectionBytes := (image.take rawEnd).drop rawStart
    pushInstrs sectionBytes (baseIp imageBase s) (decoder bitness sectionBytes (baseIp imageBase s))

/-- The list of the index, for sections that were sorted. -/
def build (imageBase bitness : Nat) (sections : List Section) : List (DecodedInstr ι) :=
  sections.flatMap (decodeSection decoder image imageBase bitness)

/-- A result of `exec_sections().collect()` and `sort_unstable_by_key`. -/
def SortedByVaddr (space : AddressSpace) (sections : List Section) : Prop :=
  sections.Perm (space.sections.filter Section.isExecutable) ∧ sections.Pairwise fun s t => s.vaddr ≤ t.vaddr

end Build

/-! ## Lookups -/

section Lookups
variable {ι : Type} (search : List Nat → Nat → Except Nat Nat) (instrs : List (DecodedInstr ι))

/-- What `binary_search` promises for a sorted list: a position of the key, or the one where
it belongs. -/
def Searches : Prop :=
  ∀ keys va, keys.Pairwise (· ≤ ·) →
    match search keys va with
    | .ok i => keys[i]? = some va
    | .error i => i ≤ keys.length ∧ (∀ key ∈ keys.take i, key < va) ∧ ∀ key ∈ keys.drop i, va < key

def idxForVa (va : Nat) : Option Nat :=
  match search (instrs.map DecodedInstr.ip) va with
  | .ok i => some i
  | .error _ => none

def atVa (va : Nat) : Option (DecodedInstr ι) := (idxForVa search instrs va).bind fun idx => instrs[idx]?

def window (va count : Nat) : List (DecodedInstr ι) :=
  let idx := match search (instrs.map DecodedInstr.ip) va with
    | .ok index => index
    | .error 0 => 0
    | .error index => index - 1
  let stop := min (idx + count) instrs.length
  (instrs.take stop).drop idx

/-- The list is strictly increasing, a lookup finds exactly the starts of instructions, and a
window starts at the greatest of them that is not above the address. -/
structure Exact : Prop where
  increasing : instrs.Pairwise fun a b => a.ip < b.ip
  atVa_iff : ∀ va, (atVa search instrs va).isSome ↔ ∃ d ∈ instrs, d.ip = va
  window_head : ∀ va count, 0 < count → (∃ d ∈ instrs, d.ip ≤ va) → ∃ d ∈ instrs,
    (window search instrs va count).head? = some d ∧ d.ip ≤ va ∧ ∀ other ∈ instrs, other.ip ≤ va → other.ip ≤ d.ip

end Lookups

/-! ## Decoders -/

section Decoders
variable {ι : Type}

/-- The instructions follow each other, from this offset of the bytes on. -/
def Consecutive (base size : Nat) : Nat → List (Instruction ι) → Prop
  | _, [] => True
  | offset, instr :: instrs => instr.ip = (base + offset) % 2 ^ 64 ∧ 1 ≤ instr.len ∧ instr.len ≤ 15 ∧
    offset + instr.len ≤ size ∧ Consecutive base size (offset + instr.len) instrs

def Decodes (decoder : Decoder ι) : Prop :=
  ∀ bitness bytes base, Consecutive base bytes.length 0 (decoder bitness bytes base)

end Decoders

/-- For every decoder, sort and search. -/
def LookupExact (ι : Type) (image : List UInt8) (space : AddressSpace) (bitness : Nat) : Prop :=
  ∀ decoder : Decoder ι, Decodes decoder → ∀ sections, SortedByVaddr space sections →
    ∀ search, Searches search → Exact search (build decoder image space.imageBase bitness sections)

/-- How many bytes of a section are in the file. -/
def fileSize (image : List UInt8) (s : Section) : Nat :=
  min (Outcome.saturatingAdd 64 s.rawAddr s.rawSize) image.length - s.rawAddr

/-- The bytes of the executable sections have addresses of their own. -/
structure Separated (image : List UInt8) (space : AddressSpace) : Prop where
  below : ∀ s ∈ space.sections.filter Section.isExecutable, 0 < fileSize image s →
    baseIp space.imageBase s + fileSize image s ≤ 2 ^ 64
  apart : (space.sections.filter Section.isExecutable).Pairwise fun s t =>
    0 < fileSize image s → 0 < fileSize image t →
      baseIp space.imageBase s + fileSize image s ≤ baseIp space.imageBase t ∨
      baseIp space.imageBase t + fileSize image t ≤ baseIp space.imageBase s

/-! ## Sections -/

section Sections
variable {ι : Type} {decoder : Decoder ι} {image : List UInt8} {imageBase bitness : Nat} {s : Section}

theorem baseIp_lt (imageBase : Nat) (s : Section) : baseIp imageBase s < 2 ^ 64 := by
  rw [baseIp, Outcome.saturatingAdd]
  omega

/-- A section is decoded if it has bytes in the file. -/
theorem decodeSection_of_empty (h : fileSize image s = 0) : decodeSection decoder image imageBase bitness s = [] := by
  rw [fileSize] at h
  rw [decodeSection]
  exact if_pos (by omega)

theorem decodeSection_of_pos (h : 0 < fileSize image s) : ∃ bytes : List UInt8, bytes.length = fileSize image s ∧
    decodeSection decoder image imageBase bitness s =
      pushInstrs bytes (baseIp imageBase s) (decoder bitness bytes (baseIp imageBase s)) := by
  rw [fileSize] at h
  refine ⟨(image.take (min (Outcome.saturatingAdd 64 s.rawAddr s.rawSize) image.length)).drop s.rawAddr, ?_, ?_⟩
  · rw [List.length_drop, List.length_take, fileSize]
    omega
  · rw [decodeSection]
    exact if_neg (by omega)

/-- Without a wrap the starts of consecutive instructions ascend within the bytes. -/
theorem pushInstrs_increasing {bytes : List UInt8} {base size offset : Nat} {instrs : List (Instruction ι)}
    (hfits : base + size ≤ 2 ^ 64) (h : Consecutive base size offset instrs) :
    (pushInstrs bytes base instrs).Pairwise (fun a b => a.ip < b.ip) ∧
      ∀ d ∈ pushInstrs bytes base instrs, base + offset ≤ d.ip ∧ d.ip < base + size := by
  induction instrs generalizing offset with
  | nil => simp [pushInstrs]
  | cons instr instrs ih =>
    obtain ⟨hip, hpos, -, hend, hrest⟩ := h
    obtain ⟨hpairwise, hbounds⟩ := ih hrest
    have hip' : instr.ip = base + offset := by rw [hip, Nat.mod_eq_of_lt (by omega)]
    rw [pushInstrs, if_neg (by omega)]
    refine ⟨List.pairwise_cons.mpr ⟨fun d hd => ?_, hpairwise⟩, fun d hd => ?_⟩
    · have hbound := hbounds d hd
      show instr.ip < d.ip
      omega
    · rcases List.mem_cons.mp hd with rfl | hd
      · show base + offset ≤ instr.ip ∧ instr.ip < base + size
        omega
      · have hbound := hbounds d hd
        omega

theorem pushInstrs_ips {bytes : List UInt8} {base : Nat} {instrs : List (Instruction ι)} (h : ∀ instr ∈ instrs, instr.len ≠ 0) :
    (pushInstrs bytes base instrs).map DecodedInstr.ip = instrs.map Instruction.ip := by
  induction instrs with
  | nil => rfl
  | cons instr instrs ih =>
    rw [pushInstrs, if_neg (h instr List.mem_cons_self), List.map_cons, List.map_cons,
      ih fun i hi => h i (List.mem_cons_of_mem instr hi)]

theorem decodeSection_increasing (hdecodes : Decodes decoder)
    (hbelow : 0 < fileSize image s → baseIp imageBase s + fileSize image s ≤ 2 ^ 64) :
    (decodeSection decoder image imageBase bitness s).Pairwise (fun a b => a.ip < b.ip) ∧
      ∀ d ∈ decodeSection decoder image imageBase bitness s, 0 < fileSize image s ∧ baseIp imageBase s ≤ d.ip ∧
        d.ip < baseIp imageBase s + fileSize image s := by
  by_cases hempty : fileSize image s = 0
  · rw [decodeSection_of_empty hempty]
    simp
  · have hpos : 0 < fileSize image s := Nat.pos_of_ne_zero hempty
    obtain ⟨bytes, hlen, hdecode⟩ := @decodeSection_of_pos ι decoder image imageBase bitness s hpos
    have hconsecutive := hdecodes bitness bytes (baseIp imageBase s)
    rw [hlen] at hconsecutive
    obtain ⟨hpairwise, hbounds⟩ := pushInstrs_increasing (hbelow hpos) hconsecutive
    rw [hdecode]
    exact ⟨hpairwise, fun d hd => ⟨hpos, hbounds d hd⟩⟩

end Sections

/-! ## Exact lookups -/

section Exactness
variable {ι : Type} {search : List Nat → Nat → Except Nat Nat} {instrs : List (DecodedInstr ι)}

theorem keys_sorted (h : instrs.Pairwise fun a b => a.ip < b.ip) : (instrs.map DecodedInstr.ip).Pairwise (· ≤ ·) :=
  List.pairwise_map.mpr (h.imp Nat.le_of_lt)

theorem atVa_isSome_iff (hsearch : Searches search) (h : instrs.Pairwise fun a b => a.ip < b.ip) (va : Nat) :
    (atVa search instrs va).isSome ↔ ∃ d ∈ instrs, d.ip = va := by
  have hfound := hsearch _ va (keys_sorted h)
  unfold atVa idxForVa
  cases hresult : search (instrs.map DecodedInstr.ip) va with
  | ok i =>
    rw [hresult] at hfound
    obtain ⟨d, hd, hip⟩ := Option.map_eq_some_iff.mp ((List.getElem?_map ..).symm.trans hfound)
    simp only [Option.bind_some, hd, Option.isSome_some, true_iff]
    exact ⟨d, List.mem_of_getElem? hd, hip⟩
  | error i =>
    rw [hresult] at hfound
    obtain ⟨-, hbefore, hbehind⟩ := hfound
    refine iff_of_false (by simp) fun ⟨d, hd, hip⟩ => ?_
    have hkey : d.ip ∈ instrs.map DecodedInstr.ip := List.mem_map_of_mem hd
    rw [← List.take_append_drop i (instrs.map DecodedInstr.ip), List.mem_append] at hkey
    rcases hkey with hkey | hkey
    · have hlt := hbefore _ hkey
      omega
    · have hlt := hbehind _ hkey
      omega

theorem window_head_eq {count idx : Nat} (hcount : 0 < count) (hidx : idx < instrs.length) :
    ((instrs.take (min (idx + count) instrs.length)).drop idx).head? = some instrs[idx] := by
  rw [List.head?_drop, List.getElem?_take, if_pos (by omega), List.getElem?_eq_getElem hidx]

theorem window_starts (hsearch : Searches search) (h : instrs.Pairwise fun a b => a.ip < b.ip) {va count : Nat}
    (hcount : 0 < count) (hsome : ∃ d ∈ instrs, d.ip ≤ va) : ∃ d ∈ instrs,
      (window search instrs va count).head? = some d ∧ d.ip ≤ va ∧ ∀ other ∈ instrs, other.ip ≤ va → other.ip ≤ d.ip := by
  have hfound := hsearch _ va (keys_sorted h)
  unfold window
  cases hresult : search (instrs.map DecodedInstr.ip) va with
  | ok i =>
    rw [hresult] at hfound
    obtain ⟨d, hd, hip⟩ := Option.map_eq_some_iff.mp ((List.getElem?_map ..).symm.trans hfound)
    obtain ⟨hlt, rfl⟩ := List.getElem?_eq_some_iff.mp hd
    refine ⟨instrs[i], List.getElem_mem hlt, window_head_eq hcount hlt, Nat.le_of_eq hip, fun other _ hle => ?_⟩
    rwa [hip]
  | error i =>
    rw [hresult] at hfound
    obtain ⟨hlen, hbefore, hbehind⟩ := hfound
    rw [List.length_map] at hlen
    cases i with
    | zero =>
      -- Every start would be above the address.
      obtain ⟨d, hd, hle⟩ := hsome
      have hlt := hbehind d.ip (by simpa using ⟨d, hd, rfl⟩)
      omega
    | succ i =>
      have hi : i < instrs.length := hlen
      have hkey : instrs[i].ip < va := by
        refine hbefore _ (List.mem_take_iff_getElem.mpr ⟨i, by simp; omega, ?_⟩)
        rw [List.getElem_map]
      refine ⟨instrs[i], List.getElem_mem hi, window_head_eq hcount hi, Nat.le_of_lt hkey, fun other hother hle => ?_⟩
      obtain ⟨j, hj, rfl⟩ := List.getElem_of_mem hother
      rcases Nat.lt_trichotomy j i with hlt | rfl | hgt
      · exact Nat.le_of_lt (List.pairwise_iff_getElem.mp h j i hj hi hlt)
      · exact Nat.le_refl _
      · -- Behind the position every start is above the address.
        have hlt : va < instrs[j].ip := by
          refine hbehind _ (List.mem_drop_iff_getElem.mpr ⟨j - (i + 1), by simp; omega, ?_⟩)
          rw [List.getElem_map]
          congr 2
          omega
        omega

theorem exact_of_increasing (hsearch : Searches search) (h : instrs.Pairwise fun a b => a.ip < b.ip) : Exact search instrs :=
  ⟨h, atVa_isSome_iff hsearch h, fun _ _ => window_starts hsearch h⟩

end Exactness

section Iff
variable {ι : Type} [Inhabited ι] {image : List UInt8} {space : AddressSpace}

omit [Inhabited ι] in
theorem build_increasing {decoder : Decoder ι} {bitness : Nat} {sections : List Section} (hdecodes : Decodes decoder)
    (hsorted : SortedByVaddr space sections) (h : Separated image space) :
    (build decoder image space.imageBase bitness sections).Pairwise fun a b => a.ip < b.ip := by
  obtain ⟨hperm, hvaddr⟩ := hsorted
  have hsection : ∀ s ∈ sections, _ := fun s hs =>
    @decodeSection_increasing ι decoder image space.imageBase bitness s hdecodes (h.below s (hperm.mem_iff.mp hs))
  refine List.pairwise_flatMap.mpr ⟨fun s hs => (hsection s hs).1, ?_⟩
  have hapart := (hperm.pairwise_iff fun hst ht hs => (hst hs ht).symm).mpr h.apart
  refine (hvaddr.and hapart).imp_of_mem fun {s t} hs ht hst x hx y hy => ?_
  obtain ⟨hle, hdisjoint⟩ := hst
  obtain ⟨hspos, -, hxlt⟩ := (hsection s hs).2 x hx
  obtain ⟨htpos, hyle, -⟩ := (hsection t ht).2 y hy
  have hbase : baseIp space.imageBase s ≤ baseIp space.imageBase t := by
    rw [baseIp, baseIp, Outcome.saturatingAdd, Outcome.saturatingAdd]
    omega
  have hends := hdisjoint hspos htpos
  omega

/-- One instruction for each byte. -/
def byteDecoder : Decoder ι := fun _ bytes base =>
  (List.range bytes.length).map fun k => ⟨(base + k) % 2 ^ 64, 1, default⟩

theorem consecutive_bytes {base size count offset : Nat} (h : offset + count ≤ size) :
    Consecutive base size offset
      ((List.range' offset count).map fun k => (⟨(base + k) % 2 ^ 64, 1, default⟩ : Instruction ι)) := by
  induction count generalizing offset with
  | zero => trivial
  | succ count ih =>
    rw [List.range'_succ, List.map_cons]
    have hshort : (1 : Nat) ≤ 15 := by decide
    have hend : offset + 1 ≤ size := by omega
    have hrest := @ih (offset + 1) (by omega)
    exact ⟨rfl, Nat.le_refl 1, hshort, hend, hrest⟩

theorem decodes_byteDecoder : Decodes (byteDecoder : Decoder ι) := by
  intro bitness bytes base
  rw [byteDecoder, List.range_eq_range']
  exact consecutive_bytes (by omega)

/-- A search from the front. -/
def scan (keys : List Nat) (va : Nat) : Except Nat Nat :=
  let i := keys.findIdx fun key => va ≤ key
  if keys[i]? = some va then .ok i else .error i

theorem searches_scan : Searches scan := by
  intro keys va hsorted
  unfold scan
  generalize hi : keys.findIdx (fun key => decide (va ≤ key)) = i
  dsimp only
  have hbefore : ∀ key ∈ keys.take i, key < va := by
    intro key hkey
    obtain ⟨j, hj, rfl⟩ := List.mem_take_iff_getElem.mp hkey
    have hnot := List.not_of_lt_findIdx (show j < keys.findIdx (fun key => decide (va ≤ key)) by omega)
    simpa using hnot
  by_cases hfound : keys[i]? = some va
  · rw [if_pos hfound]
    exact hfound
  · rw [if_neg hfound]
    refine ⟨hi ▸ List.findIdx_le_length, hbefore, fun key hkey => ?_⟩
    obtain ⟨j, hj, rfl⟩ := List.mem_drop_iff_getElem.mp hkey
    have hlt : i < keys.length := by omega
    have hfirst : va ≤ keys[i] := by
      subst hi
      simpa using @List.findIdx_getElem _ (fun key => decide (va ≤ key)) keys hlt
    have hne : keys[i] ≠ va := fun heq => hfound (by rw [List.getElem?_eq_getElem hlt, heq])
    have hmono : keys[i] ≤ keys[i + j] := by
      rcases Nat.eq_zero_or_pos j with rfl | hpos
      · exact Nat.le_refl _
      · exact List.pairwise_iff_getElem.mp hsorted i (i + j) hlt (by omega) (by omega)
    omega

/-- The starts of the instructions of one byte. -/
theorem ips_byteDecoder (imageBase bitness : Nat) (s : Section) :
    (decodeSection (byteDecoder : Decoder ι) image imageBase bitness s).map DecodedInstr.ip =
      (List.range (fileSize image s)).map fun k => (baseIp imageBase s + k) % 2 ^ 64 := by
  by_cases hempty : fileSize image s = 0
  · rw [decodeSection_of_empty hempty, hempty]
    rfl
  · obtain ⟨bytes, hlen, hdecode⟩ :=
      @decodeSection_of_pos ι byteDecoder image imageBase bitness s (Nat.pos_of_ne_zero hempty)
    have hlens : ∀ instr ∈ (byteDecoder : Decoder ι) bitness bytes (baseIp imageBase s), instr.len ≠ 0 := by
      intro instr hinstr
      obtain ⟨k, -, rfl⟩ := List.mem_map.mp hinstr
      exact Nat.one_ne_zero
    rw [hdecode, pushInstrs_ips hlens, byteDecoder, hlen, List.map_map]
    rfl

theorem separated_of_increasing {bitness : Nat} {sections : List Section} (hsorted : SortedByVaddr space sections)
    (h : (build (byteDecoder : Decoder ι) image space.imageBase bitness sections).Pairwise fun a b => a.ip < b.ip) :
    Separated image space := by
  obtain ⟨hperm, -⟩ := hsorted
  obtain ⟨hinside, hacross⟩ := List.pairwise_flatMap.mp h
  have hbelow : ∀ s ∈ sections, 0 < fileSize image s → baseIp space.imageBase s + fileSize image s ≤ 2 ^ 64 := by
    intro s hs hpos
    by_contra hwrap
    have hbase := baseIp_lt space.imageBase s
    have hips := List.pairwise_map.mpr (hinside s hs)
    rw [ips_byteDecoder, List.pairwise_map, List.pairwise_iff_getElem] at hips
    -- The instruction behind the last address starts at zero.
    have hzero := hips 0 (2 ^ 64 - baseIp space.imageBase s) (by simp; omega) (by simp; omega) (by omega)
    rw [List.getElem_range, List.getElem_range, Nat.add_sub_cancel' (by omega), Nat.mod_self] at hzero
    omega
  have happart : sections.Pairwise fun s t => 0 < fileSize image s → 0 < fileSize image t →
      baseIp space.imageBase s + fileSize image s ≤ baseIp space.imageBase t := by
    refine hacross.imp_of_mem fun {s t} hs ht hst hspos htpos => ?_
    have hstart : ∀ r : Section, ∀ k < fileSize image r,
        ∃ d ∈ decodeSection (byteDecoder : Decoder ι) image space.imageBase bitness r,
          d.ip = (baseIp space.imageBase r + k) % 2 ^ 64 := by
      intro r k hk
      have hip : (baseIp space.imageBase r + k) % 2 ^ 64 ∈
          (decodeSection (byteDecoder : Decoder ι) image space.imageBase bitness r).map DecodedInstr.ip := by
        rw [ips_byteDecoder]
        exact List.mem_map.mpr ⟨k, List.mem_range.mpr hk, rfl⟩
      obtain ⟨d, hd, hdip⟩ := List.mem_map.mp hip
      exact ⟨d, hd, hdip⟩
    -- The last instruction of one section is in front of the first of the other.
    obtain ⟨x, hx, hxip⟩ := hstart s (fileSize image s - 1) (by omega)
    obtain ⟨y, hy, hyip⟩ := hstart t 0 htpos
    have hlt := hst x hx y hy
    have hsbelow := hbelow s hs hspos
    have htbase := baseIp_lt space.imageBase t
    rw [hxip, hyip, Nat.mod_eq_of_lt (by omega), Nat.mod_eq_of_lt (by omega)] at hlt
    omega
  refine ⟨fun s hs => hbelow s (hperm.mem_iff.mpr hs), ?_⟩
  refine (hperm.pairwise_iff fun hst ht hs => (hst hs ht).symm).mp (happart.imp fun hst hs ht => Or.inl (hst hs ht))

end Iff

theorem lookupExact_iff {ι : Type} [Inhabited ι] (image : List UInt8) (space : AddressSpace) (bitness : Nat) :
    LookupExact ι image space bitness ↔ Separated image space := by
  constructor
  · intro h
    have hsorted : SortedByVaddr space
        ((space.sections.filter Section.isExecutable).insertionSort fun s t => s.vaddr ≤ t.vaddr) := by
      have htotal : Std.Total fun s t : Section => s.vaddr ≤ t.vaddr := ⟨fun _ _ => Nat.le_total _ _⟩
      have htrans : IsTrans Section fun s t => s.vaddr ≤ t.vaddr := ⟨fun _ _ _ => Nat.le_trans⟩
      exact ⟨List.perm_insertionSort _ _, List.pairwise_insertionSort _ _⟩
    exact separated_of_increasing hsorted (h byteDecoder decodes_byteDecoder _ hsorted scan searches_scan).increasing
  · intro h decoder hdecodes sections hsorted search hsearch
    exact exact_of_increasing hsearch (build_increasing hdecodes hsorted h)

/-- Two addresses of code with four bytes in the file, and two more right behind them. -/
def overlong : List Section :=
  [{ vaddr := 0x1000, vsize := 2, rawAddr := 0, rawSize := 4, characteristics := 0x60000020 },
    { vaddr := 0x1002, vsize := 2, rawAddr := 2, rawSize := 2, characteristics := 0x60000020 }]

def overlongSpace : AddressSpace where
  imageBase := 0x10000
  sections := overlong

def fourNops : List UInt8 := [0x90, 0x90, 0x90, 0x90]

/-- The raw bytes of the first section are decoded up into the second one, whose
instructions are in the list twice. -/
theorem lookup_not_exact :
    (build (byteDecoder : Decoder Unit) fourNops 0x10000 64 overlong).map DecodedInstr.ip =
      [0x11000, 0x11001, 0x11002, 0x11003, 0x11002, 0x11003] ∧
    ¬ LookupExact Unit fourNops overlongSpace 64 := by
  have hips : (build (byteDecoder : Decoder Unit) fourNops 0x10000 64 overlong).map DecodedInstr.ip =
      [0x11000, 0x11001, 0x11002, 0x11003, 0x11002, 0x11003] := by decide +kernel
  have hsorted : SortedByVaddr overlongSpace overlong := ⟨List.Perm.refl _, by simp [overlong]⟩
  refine ⟨hips, fun h => ?_⟩
  have hincreasing := (h byteDecoder decodes_byteDecoder overlong hsorted scan searches_scan).increasing
  have hpairwise : ((build (byteDecoder : Decoder Unit) fourNops 0x10000 64 overlong).map DecodedInstr.ip).Pairwise (· < ·) :=
    List.pairwise_map.mpr hincreasing
  rw [hips] at hpairwise
  simp at hpairwise

end Windy.CodeBuild
