import Windy.Lib.Bytes
import Windy.Loader.AddressSpace

/- Jump tables (`analysis/indirect.rs`).

   A table is a run of pointers in the initialized data of a section. It ends at the first slot that
   is zero or does not point to code, at the end of the data, or after 512 entries. `pointerTable`
   says so. The code takes a slice of 8192 bytes from the start of the table and looks for the end
   in there. Where the file does not go on for so long there is no slice, and the table is empty;
   where the data of the section ends before the slice does, the slots behind it are read as if they
   belonged to the table.

   What is proved: the code reads the table exactly when the slice is in the file and the table is
   known to end, or there is no slice and the table is empty (`readPointerTable_iff`).

   Correspondence:
     the loop of `read_pointer_table` ↔ `scanTable`
     `read_u32_le`, `read_u64_le` ↔ `readPointer`
     `read_pointer_table` ↔ the same -/
namespace Windy.Indirect

def maxTableScanBytes : Nat := 8 * 1024

def maxTableEntries : Nat := 512

section Table
variable (addressSpace : AddressSpace) (image : List UInt8)

/-- The pointer in a chunk of its size. -/
def readPointer (chunk : List UInt8) (ptrSize : Nat) : Nat := (Bytes.numberAt chunk 0 ptrSize).getD 0

def scanTable (ptrSize : Nat) : List (List UInt8) → List Nat → Outcome (List Nat)
  | [], targets => return targets
  | chunk :: chunks, targets =>
    if maxTableEntries ≤ targets.length then return targets
    else do
      let ptr := readPointer chunk ptrSize
      if ptr = 0 then return targets
      else if !(← Loader.isExecutableVa addressSpace ptr) then return targets
      else scanTable ptrSize chunks (targets ++ [ptr])

def readPointerTable (tableVa bitness : Nat) : Outcome (List Nat) := do
  let ptrSize := bitness / 8
  let maxBytes := maxTableScanBytes / ptrSize * ptrSize
  match ← Outcome.attempt (Loader.sliceForVa addressSpace image tableVa maxBytes) with
  | none => return []
  | some bytes => scanTable addressSpace ptrSize (Bytes.chunksExact ptrSize bytes) []

/-! ## Tables -/

/-- A pointer to code. -/
def isEntry (ptr : Nat) : Outcome Bool := if ptr = 0 then return false else Loader.isExecutableVa addressSpace ptr

/-- The slot with this number behind an offset of the file. -/
def slotAt (offset ptrSize k : Nat) : Nat := (Bytes.numberAt image (offset + k * ptrSize) ptrSize).getD 0

def slots (offset ptrSize count : Nat) : List Nat := (List.range count).map (slotAt image offset ptrSize)

/-- How many slots there are up to the end of the initialized data of a section. -/
def initializedSlots (s : Section) (offset tableVa ptrSize : Nat) : Nat :=
  min (min (Loader.virtualEnd addressSpace s) (addressSpace.imageBase + s.vaddr + s.rawSize) - tableVa)
    (image.length - offset) / ptrSize

/-- The section of an address, and the offset of the address in the file. -/
def located (va : Nat) : Outcome (Section × Nat) := do
  let s ← Loader.sectionAtVa addressSpace va
  let offset ← Loader.sectionVaToOffset s addressSpace.imageBase va
  return (s, offset)

/-- The longest run of pointers to code in the initialized slots, 512 at most. -/
def pointerTable (tableVa ptrSize : Nat) : Outcome (List Nat) := do
  match ← Outcome.attempt (located addressSpace tableVa) with
  | none => return []
  | some (s, offset) =>
    Outcome.takeWhile (isEntry addressSpace)
      (slots image offset ptrSize (min (initializedSlots addressSpace image s offset tableVa ptrSize) maxTableEntries))

end Table

section Scan
variable {addressSpace : AddressSpace} {image : List UInt8} {ptrSize : Nat}

/-- The loop adds pointers to code up to the limit. -/
theorem scanTable_eq (chunks : List (List UInt8)) {targets : List Nat} (hlen : targets.length ≤ maxTableEntries) :
    scanTable addressSpace ptrSize chunks targets = (do
      let more ← Outcome.takeWhile (isEntry addressSpace)
        ((chunks.map fun chunk => readPointer chunk ptrSize).take (maxTableEntries - targets.length))
      return targets ++ more) := by
  induction chunks generalizing targets with
  | nil => simp [scanTable, Outcome.takeWhile]
  | cons chunk chunks ih =>
    rw [scanTable]
    by_cases hfull : maxTableEntries ≤ targets.length
    · rw [if_pos hfull, Nat.sub_eq_zero_of_le hfull, List.take_zero]
      simp [Outcome.takeWhile]
    · obtain ⟨room, hroom⟩ : ∃ room, maxTableEntries - targets.length = room + 1 :=
        ⟨maxTableEntries - targets.length - 1, by omega⟩
      rw [if_neg hfull, hroom, List.map_cons, List.take_succ_cons, Outcome.takeWhile, isEntry]
      dsimp only
      by_cases hzero : readPointer chunk ptrSize = 0
      · simp [hzero]
      · rw [if_neg hzero, if_neg hzero]
        cases Loader.isExecutableVa addressSpace (readPointer chunk ptrSize) with
        | panic => rfl
        | none => rfl
        | some executable =>
          cases executable with
          | false => simp
          | true =>
            have hnext : (targets ++ [readPointer chunk ptrSize]).length ≤ maxTableEntries := by
              rw [List.length_append, List.length_singleton]
              omega
            have hrest : maxTableEntries - (targets ++ [readPointer chunk ptrSize]).length = room := by
              rw [List.length_append, List.length_singleton]
              omega
            have hih := ih hnext
            rw [hrest] at hih
            simp only [Outcome.some_bind, Bool.not_true, Bool.false_eq_true, if_false, if_true, hih, bind_assoc,
              Outcome.pure_eq, List.append_assoc, List.singleton_append]

/-- The chunks of a slice are the slots of the file. -/
theorem chunksExact_slice {offset len : Nat} (hfits : offset + len ≤ image.length) :
    (Bytes.chunksExact ptrSize ((image.drop offset).take len)).map (fun chunk => readPointer chunk ptrSize) =
      slots image offset ptrSize (len / ptrSize) := by
  have hlen : ((image.drop offset).take len).length = len := by
    rw [List.length_take, List.length_drop]
    omega
  rw [Bytes.chunksExact, hlen, List.map_map, slots]
  apply List.map_congr_left
  intro k hk
  have hslot : (k + 1) * ptrSize ≤ len := by
    calc (k + 1) * ptrSize ≤ len / ptrSize * ptrSize := Nat.mul_le_mul_right _ (List.mem_range.mp hk)
      _ ≤ len := Nat.div_mul_le_self _ _
  have hnumber : Bytes.numberAt ((((image.drop offset).take len).drop (k * ptrSize)).take ptrSize) 0 ptrSize =
      Bytes.numberAt image (offset + k * ptrSize) ptrSize := by
    rw [Nat.succ_mul] at hslot
    rw [Bytes.numberAt_take (by omega), Bytes.numberAt_drop, Nat.add_zero, Bytes.numberAt_take hslot, Bytes.numberAt_drop]
  show (Bytes.numberAt _ 0 ptrSize).getD 0 = _
  rw [hnumber, slotAt]

theorem slots_take (offset n count : Nat) :
    (slots image offset ptrSize count).take n = slots image offset ptrSize (min n count) := by
  rw [slots, ← List.map_take, List.take_range, slots]

theorem slots_head_drop {offset n count : Nat} (h : n < count) :
    ((slots image offset ptrSize count).drop n).head? = some (slotAt image offset ptrSize n) := by
  rw [List.head?_drop, slots, List.getElem?_map, List.getElem?_range h, Option.map_some]

theorem vaToOffset_eq_located (va : Nat) :
    Loader.vaToOffset addressSpace va = (located addressSpace va >>= fun found => Outcome.some found.2) := by
  rw [Loader.vaToOffset, located, bind_assoc]
  congr
  funext s
  cases Loader.sectionVaToOffset s addressSpace.imageBase va <;> rfl

theorem sliceForVa_eq_located (va len : Nat) :
    Loader.sliceForVa addressSpace image va len = (do
      let found ← located addressSpace va
      let stop ← Outcome.ofOption (Outcome.checkedAdd 64 found.2 len)
      Outcome.ofOption (Outcome.get image found.2 stop)) := by
  rw [Loader.sliceForVa_eq_bind, vaToOffset_eq_located, bind_assoc]
  rfl

/-- With a slice, the loop sees the first 512 slots. -/
theorem readPointerTable_of_located {s : Section} {tableVa offset bitness : Nat} (himage : image.length < 2 ^ 64)
    (hbitness : bitness = 32 ∨ bitness = 64) (hlocated : located addressSpace tableVa = .some (s, offset)) :
    readPointerTable addressSpace image tableVa bitness =
      if offset + maxTableScanBytes ≤ image.length then
        Outcome.takeWhile (isEntry addressSpace) (slots image offset (bitness / 8) maxTableEntries)
      else .some [] := by
  have hva : Loader.vaToOffset addressSpace tableVa = .some offset := by
    rw [vaToOffset_eq_located, hlocated, Outcome.some_bind]
  have hbytes : maxTableScanBytes / (bitness / 8) * (bitness / 8) = maxTableScanBytes := by
    obtain rfl | rfl := hbitness <;> decide
  have hmany : min maxTableEntries (maxTableScanBytes / (bitness / 8)) = maxTableEntries := by
    obtain rfl | rfl := hbitness <;> decide
  rw [readPointerTable, hbytes, Loader.sliceForVa_of_offset himage hva]
  by_cases hfits : offset + maxTableScanBytes ≤ image.length
  · rw [if_pos hfits, if_pos hfits]
    show scanTable addressSpace (bitness / 8) _ [] = _
    rw [scanTable_eq _ (Nat.zero_le _), chunksExact_slice hfits, slots_take, List.length_nil, Nat.sub_zero, hmany]
    exact bind_pure _
  · rw [if_neg hfits, if_neg hfits]
    rfl

end Scan

/-- The file has the slice, and the 512th slot of the table or its end is in the data of the
section, or what comes next is no pointer to code. If the file ends before the slice does,
there is no first entry. -/
def Readable (addressSpace : AddressSpace) (image : List UInt8) (tableVa ptrSize : Nat) : Prop :=
  ∀ s offset, located addressSpace tableVa = .some (s, offset) →
    let count := initializedSlots addressSpace image s offset tableVa ptrSize
    if offset + maxTableScanBytes ≤ image.length then
      maxTableEntries ≤ count ∨ (∃ k < count, isEntry addressSpace (slotAt image offset ptrSize k) ≠ .some true) ∨
        isEntry addressSpace (slotAt image offset ptrSize count) = .some false
    else count = 0 ∨ isEntry addressSpace (slotAt image offset ptrSize 0) = .some false

theorem readPointerTable_iff {addressSpace : AddressSpace} {image : List UInt8} {tableVa bitness : Nat}
    (himage : image.length < 2 ^ 64) (hbitness : bitness = 32 ∨ bitness = 64) :
    readPointerTable addressSpace image tableVa bitness = pointerTable addressSpace image tableVa (bitness / 8) ↔
      Readable addressSpace image tableVa (bitness / 8) := by
  unfold Readable pointerTable
  cases hlocated : located addressSpace tableVa with
  | panic => simp [readPointerTable, sliceForVa_eq_located, hlocated, Outcome.attempt]
  | none => simp [readPointerTable, sliceForVa_eq_located, hlocated, Outcome.attempt]
  | some found =>
    obtain ⟨s, offset⟩ := found
    rw [readPointerTable_of_located himage hbitness hlocated]
    have hone : ∀ {P : Section → Nat → Prop},
        (∀ s' offset', Outcome.some (s, offset) = Outcome.some (s', offset') → P s' offset') ↔ P s offset := by
      intro P
      constructor
      · intro h
        exact h s offset rfl
      · rintro h s' offset' hsame
        obtain ⟨rfl, rfl⟩ := Prod.mk.inj (Outcome.some.inj hsame)
        exact h
    rw [hone]
    show _ = Outcome.takeWhile _ _ ↔ _
    dsimp only
    generalize initializedSlots addressSpace image s offset tableVa (bitness / 8) = count
    by_cases hfits : offset + maxTableScanBytes ≤ image.length
    · rw [if_pos hfits, if_pos hfits]
      by_cases hmany : maxTableEntries ≤ count
      · rw [Nat.min_eq_right hmany]
        simp [hmany]
      · -- The slots behind the data are what the slice has and the table does not.
        have hlt : count < maxTableEntries := Nat.lt_of_not_le hmany
        have htake : (slots image offset (bitness / 8) maxTableEntries).take count = slots image offset (bitness / 8) count := by
          rw [slots_take, Nat.min_eq_left (Nat.le_of_lt hlt)]
        have hhead := @slots_head_drop image (bitness / 8) offset count maxTableEntries hlt
        rw [Nat.min_eq_left (Nat.le_of_lt hlt), ← List.take_append_drop count (slots image offset (bitness / 8) maxTableEntries), htake,
          Outcome.takeWhile_append_iff, Outcome.takeWhile_eq_nil, hhead]
        simp [hmany, slots]
    · rw [if_neg hfits, if_neg hfits, eq_comm, Outcome.takeWhile_eq_nil]
      cases count with
      | zero => simp [slots]
      | succ count =>
        have hpos : 0 < min (count + 1) maxTableEntries := Nat.lt_min.mpr ⟨Nat.succ_pos _, by decide⟩
        have hhead := @slots_head_drop image (bitness / 8) offset 0 _ hpos
        rw [List.drop_zero] at hhead
        simp [hhead]

/-- Code without a byte in the file. -/
def codeSection : Section where
  vaddr := 0x1000
  vsize := 16
  rawAddr := 0
  rawSize := 0
  characteristics := 0x60000020

/-- So many bytes of data, all of the file. -/
def dataSection (size : Nat) : Section where
  vaddr := 0x2000
  vsize := size
  rawAddr := 0
  rawSize := size
  characteristics := 0x40000040

def tableSpace (size : Nat) : AddressSpace where
  imageBase := 0x10000
  sections := [codeSection, dataSection size]

/-- A pointer to the first byte of the code. -/
def onePointer : List UInt8 := [0x00, 0x10, 1, 0, 0, 0, 0, 0]

def paddedPointer : List UInt8 := onePointer ++ List.replicate 8184 0

theorem length_paddedPointer : paddedPointer.length = 8192 := by
  rw [paddedPointer, List.length_append, List.length_replicate]
  rfl

theorem readPointerTable_onePointer : readPointerTable (tableSpace 8192) paddedPointer 0x12000 64 =
    pointerTable (tableSpace 8192) paddedPointer 0x12000 8 := by
  have hlen := length_paddedPointer
  refine (readPointerTable_iff (by omega) (Or.inr rfl)).mpr fun s offset hlocated => ?_
  have hsection : Loader.sectionAtVa (tableSpace 8192) 0x12000 = .some (dataSection 8192) :=
    Outcome.find_eq_some.mpr ⟨[codeSection], [], rfl, by decide +kernel, by simpa using by decide +kernel⟩
  have hoffset : Loader.sectionVaToOffset (dataSection 8192) 0x10000 0x12000 = .some 0 := by decide +kernel
  have hfound : located (tableSpace 8192) 0x12000 = .some (dataSection 8192, 0) := by
    rw [located, hsection, Outcome.some_bind]
    show Loader.sectionVaToOffset (dataSection 8192) 0x10000 0x12000 >>= _ = _
    rw [hoffset]
    rfl
  rw [hfound, Outcome.some.injEq, Prod.mk.injEq] at hlocated
  have hs := hlocated.1
  have hstart := hlocated.2
  have hcount : initializedSlots (tableSpace 8192) paddedPointer (dataSection 8192) 0 0x12000 8 = 1024 := by
    rw [initializedSlots, hlen]
    decide +kernel
  simp only [Nat.reduceDiv, ← hs, ← hstart, hcount]
  rw [if_pos (by rw [hlen]; decide)]
  exact Or.inl (by decide)

/-- A table at the end of the file is not read, for want of 8192 bytes. -/
theorem readPointerTable_misses : readPointerTable (tableSpace 8) onePointer 0x12000 64 = .some [] ∧
    pointerTable (tableSpace 8) onePointer 0x12000 8 = .some [0x11000] ∧
    readPointerTable (tableSpace 8) onePointer 0x12000 64 ≠ pointerTable (tableSpace 8) onePointer 0x12000 8 := by
  have hread : readPointerTable (tableSpace 8) onePointer 0x12000 64 = .some [] := by decide +kernel
  have htable : pointerTable (tableSpace 8) onePointer 0x12000 8 = .some [0x11000] := by decide +kernel
  refine ⟨hread, htable, ?_⟩
  rw [hread, htable]
  decide

end Windy.Indirect
