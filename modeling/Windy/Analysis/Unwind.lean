import Windy.Lib.Bytes
import Windy.Loader.AddressSpace

/- Unwind records (`analysis/unwind.rs`).

   A record has a header of four bytes, an array of slots of two bytes, and a tail. An operation
   takes one to three slots: the first says which operation it is and so how many slots follow it.
   The loop over the slots has a round for each slot at most, as every operation takes one;
   `codesFrom_eq` is the loop of the source.

   The length of a record without the data of its handler follows from the header alone. Checked
   sums and products of `usize` are sums here: the largest comes to 528.

   What is proved: the codes of an accepted record tile its slots, each is read from its own slots,
   and the record is read from as many bytes as `unwind_info_minimum_size` says, so that what is
   parsed at an address is what the rest of the file starts with (`parseUnwindInfo_exact`).

   Correspondence:
     `parse_unwind_info`, `parse_unwind_info_at`, `unwind_info_minimum_size`, `parse_unwind_code`,
     `unwind_code_slots` ↔ the same
     the `match` on the operation code ↔ `parseOperation`
     `unwind_code_byte`, `_u16`, `_u32` ↔ `unwindCodeByte`, `unwindCodeU16`, `unwindCodeU32` -/
namespace Windy.Unwind

def readU16Le (bytes : List UInt8) (offset : Nat) : Option Nat := Bytes.numberAt bytes offset 2

def readU32Le (bytes : List UInt8) (offset : Nat) : Option Nat := Bytes.numberAt bytes offset 4

/-- `UNW_FLAG_EHANDLER | UNW_FLAG_UHANDLER`. -/
def unwFlagHandlers : UInt8 := 0x03

def unwFlagChaininfo : UInt8 := 0x04

def unwindKnownFlags : UInt8 := 0x07

def unwindInfoHeaderSize : Nat := 4

def imageRuntimeFunctionEntrySize : Nat := 12

def maxUnwindInfoFixedBytes : Nat := 528

@[match_pattern] abbrev uwopPushNonvol : Nat := 0
@[match_pattern] abbrev uwopAllocLarge : Nat := 1
@[match_pattern] abbrev uwopAllocSmall : Nat := 2
@[match_pattern] abbrev uwopSetFpreg : Nat := 3
@[match_pattern] abbrev uwopSaveNonvol : Nat := 4
@[match_pattern] abbrev uwopSaveNonvolFar : Nat := 5
@[match_pattern] abbrev uwopEpilog : Nat := 6
@[match_pattern] abbrev uwopSpare : Nat := 7
@[match_pattern] abbrev uwopSaveXmm128 : Nat := 8
@[match_pattern] abbrev uwopSaveXmm128Far : Nat := 9
@[match_pattern] abbrev uwopPushMachframe : Nat := 10

inductive UnwindOperation where
  | pushNonVol (register : UInt8)
  | allocLarge (size : Nat)
  | allocSmall (size : Nat)
  | setFpReg
  | saveNonVol (register : UInt8) (stackOffset : Nat)
  | saveNonVolFar (register : UInt8) (stackOffset : Nat)
  | epilog (epilogSize : UInt8) (offsetFromFunctionEnd : Nat)
  | spare (payload : Nat)
  | saveXmm128 (register : UInt8) (stackOffset : Nat)
  | saveXmm128Far (register : UInt8) (stackOffset : Nat)
  | pushMachFrame (hasErrorCode : Bool)
  deriving DecidableEq, Repr

structure UnwindCode where
  slotIndex : UInt8
  codeOffset : UInt8
  operationCode : UInt8
  operationInfo : UInt8
  slotsUsed : UInt8
  operation : UnwindOperation
  deriving DecidableEq, Repr

structure ChainedRuntimeFunction where
  beginRva : Nat
  endRva : Nat
  unwindInfoRva : Nat
  deriving DecidableEq, Repr

inductive UnwindInfoTail where
  | none
  | handler (handlerRva handlerDataOffset : Nat)
  | chained (runtimeFunction : ChainedRuntimeFunction)
  deriving DecidableEq, Repr

structure UnwindInfo where
  version : UInt8
  flags : UInt8
  prologSize : UInt8
  codeSlots : UInt8
  frameRegister : Option UInt8
  frameOffset : UInt8
  frameOffsetBytes : Nat
  codes : List UnwindCode
  tailOffset : Nat
  tail : UnwindInfoTail
  deriving DecidableEq, Repr

/-! ## Operations -/

def unwindCodeSlots (version operationCode operationInfo : UInt8) : Option UInt8 :=
  match operationCode.toNat with
  | uwopPushNonvol | uwopAllocSmall => some 1
  | uwopSetFpreg => if operationInfo = 0 then some 1 else none
  | uwopPushMachframe => if operationInfo ≤ 1 then some 1 else none
  | uwopAllocLarge =>
    if operationInfo = 0 then some 2
    else if operationInfo = 1 then some 3
    else none
  | uwopSaveNonvol | uwopSaveXmm128 => some 2
  | uwopSaveNonvolFar | uwopSaveXmm128Far => some 3
  | uwopEpilog => if version = 2 ∧ operationInfo ≤ 1 then some 2 else none
  | uwopSpare => if version = 2 then some 3 else none
  | _ => none

def codeSlotsAvailable (slotIndex totalSlots neededSlots : Nat) : Bool :=
  slotIndex ≤ totalSlots && neededSlots ≤ totalSlots - slotIndex

section Slots
variable (bytes : List UInt8)

def unwindCodeByte (slotIndex byteIndex : Nat) : Option UInt8 :=
  bytes[unwindInfoHeaderSize + slotIndex * 2 + byteIndex]?

def unwindCodeU16 (slotIndex : Nat) : Option Nat := readU16Le bytes (unwindInfoHeaderSize + slotIndex * 2)

def unwindCodeU32 (slotIndex : Nat) : Option Nat := do
  let low ← unwindCodeU16 bytes slotIndex
  let high ← unwindCodeU16 bytes (slotIndex + 1)
  return low ||| high <<< 16

def parseOperation (slotIndex : Nat) (codeOffset operationCode operationInfo : UInt8) : Option UnwindOperation :=
  match operationCode.toNat with
  | uwopPushNonvol => some (.pushNonVol operationInfo)
  | uwopAllocLarge =>
    if operationInfo = 0 then (unwindCodeU16 bytes (slotIndex + 1)).map fun size => .allocLarge (size * 8)
    else (unwindCodeU32 bytes (slotIndex + 1)).map .allocLarge
  | uwopAllocSmall => some (.allocSmall (operationInfo.toNat * 8 + 8))
  | uwopSetFpreg => some .setFpReg
  | uwopSaveNonvol => (unwindCodeU16 bytes (slotIndex + 1)).map fun offset => .saveNonVol operationInfo (offset * 8)
  | uwopSaveNonvolFar => (unwindCodeU32 bytes (slotIndex + 1)).map (.saveNonVolFar operationInfo)
  | uwopEpilog => do
    let nextCodeOffset ← unwindCodeByte bytes (slotIndex + 1) 0
    let nextInfo ← unwindCodeByte bytes (slotIndex + 1) 1
    return .epilog codeOffset
      (if operationInfo = 0 then (nextInfo >>> 4).toNat <<< 8 ||| nextCodeOffset.toNat else codeOffset.toNat)
  | uwopSpare => (unwindCodeU32 bytes (slotIndex + 1)).map .spare
  | uwopSaveXmm128 => (unwindCodeU16 bytes (slotIndex + 1)).map fun offset => .saveXmm128 operationInfo (offset * 16)
  | uwopSaveXmm128Far => (unwindCodeU32 bytes (slotIndex + 1)).map (.saveXmm128Far operationInfo)
  | uwopPushMachframe => some (.pushMachFrame (operationInfo = 1))
  | _ => none

def parseUnwindCode (version : UInt8) (slotIndex totalSlots : Nat) : Option UnwindCode := do
  let codeOffset ← unwindCodeByte bytes slotIndex 0
  let packed ← unwindCodeByte bytes slotIndex 1
  let operationCode := packed &&& 0x0f
  let operationInfo := packed >>> 4
  let slotsUsed ← unwindCodeSlots version operationCode operationInfo
  if !codeSlotsAvailable slotIndex totalSlots slotsUsed.toNat then none
  else do
    let operation ← parseOperation bytes slotIndex codeOffset operationCode operationInfo
    -- `u8::try_from(slot_index)`
    if slotIndex < 256 then return ⟨UInt8.ofNat slotIndex, codeOffset, operationCode, operationInfo, slotsUsed, operation⟩
    else none

/-- So many rounds of the loop over the slots. -/
def parseCodes (version : UInt8) (totalSlots : Nat) : Nat → Nat → Option (List UnwindCode)
  | 0, slotIndex => if slotIndex < totalSlots then none else some []
  | fuel + 1, slotIndex =>
    if slotIndex < totalSlots then do
      let code ← parseUnwindCode bytes version slotIndex totalSlots
      let codes ← parseCodes version totalSlots fuel (slotIndex + code.slotsUsed.toNat)
      return code :: codes
    else some []

/-- The loop from a slot on. -/
def codesFrom (version : UInt8) (totalSlots slotIndex : Nat) : Option (List UnwindCode) :=
  parseCodes bytes version totalSlots (totalSlots - slotIndex) slotIndex

end Slots

/-! ## Records -/

def alignToDword (value : Nat) : Nat := (value + 3) / 4 * 4

def parseTail (bytes : List UInt8) (isChained hasHandler : Bool) (tailOffset : Nat) : Option UnwindInfoTail :=
  if isChained then do
    let beginRva ← readU32Le bytes tailOffset
    let endRva ← readU32Le bytes (tailOffset + 4)
    let unwindInfoRva ← readU32Le bytes (tailOffset + 8)
    return .chained ⟨beginRva, endRva, unwindInfoRva⟩
  else if hasHandler then (readU32Le bytes tailOffset).map fun handlerRva => .handler handlerRva (tailOffset + 4)
  else some .none

def parseUnwindInfo (bytes : List UInt8) : Option UnwindInfo :=
  match bytes with
  | header0 :: prologSize :: codeSlots :: header3 :: _ =>
    let version := header0 &&& 0x07
    let flags := header0 >>> 3
    if !(version = 1 || version = 2) || flags &&& ~~~unwindKnownFlags != 0 then none
    else
      let hasHandler := flags &&& unwFlagHandlers != 0
      let isChained := flags &&& unwFlagChaininfo != 0
      if hasHandler && isChained then none
      else
        let frameRegisterNumber := header3 &&& 0x0f
        let frameOffset := header3 >>> 4
        if frameRegisterNumber = 0 && frameOffset != 0 then none
        else
          let codesEnd := unwindInfoHeaderSize + codeSlots.toNat * 2
          let tailOffset := alignToDword codesEnd
          if bytes.length < codesEnd then none
          else if bytes.length < tailOffset then none
          else do
            let codes ← codesFrom bytes version codeSlots.toNat 0
            let tail ← parseTail bytes isChained hasHandler tailOffset
            return {
              version, flags, prologSize, codeSlots
              frameRegister := if frameRegisterNumber != 0 then some frameRegisterNumber else none
              frameOffset
              frameOffsetBytes := frameOffset.toNat * 16
              codes, tailOffset, tail }
  | _ => none

def unwindInfoMinimumSize (header : List UInt8) : Option Nat :=
  match header with
  | header0 :: _ :: codeSlots :: _ :: _ =>
    let codesEnd := unwindInfoHeaderSize + codeSlots.toNat * 2
    let tailOffset := alignToDword codesEnd
    let flags := header0 >>> 3
    let minimumSize :=
      if flags &&& unwFlagChaininfo != 0 then tailOffset + imageRuntimeFunctionEntrySize
      else if flags &&& unwFlagHandlers != 0 then tailOffset + 4
      else tailOffset
    if minimumSize ≤ maxUnwindInfoFixedBytes then some minimumSize else none
  | _ => none

def parseUnwindInfoAt (image : List UInt8) (addressSpace : AddressSpace) (unwindInfoVa : Nat) : Outcome UnwindInfo := do
  let header ← Loader.sliceForVa addressSpace image unwindInfoVa unwindInfoHeaderSize
  let minimumSize ← Outcome.ofOption (unwindInfoMinimumSize header)
  let bytes ← Loader.sliceForVa addressSpace image unwindInfoVa minimumSize
  Outcome.ofOption (parseUnwindInfo bytes)

/-! ## Slots -/

/-- The same bytes in the slots from one up to another. -/
def SameSlots (bytes bytes' : List UInt8) (start stop : Nat) : Prop :=
  ∀ i, unwindInfoHeaderSize + start * 2 ≤ i → i < unwindInfoHeaderSize + stop * 2 → bytes[i]? = bytes'[i]?

theorem SameSlots.mono {bytes bytes' : List UInt8} {start stop start' stop' : Nat} (h : SameSlots bytes bytes' start stop)
    (hstart : start ≤ start') (hstop : stop' ≤ stop) : SameSlots bytes bytes' start' stop' := by
  intro i hlo hhi
  exact h i (by omega) (by omega)

section Congr
variable {bytes bytes' : List UInt8} {slot : Nat}

theorem unwindCodeByte_congr {k : Nat} (h : SameSlots bytes bytes' slot (slot + 1)) (hk : k < 2) :
    unwindCodeByte bytes slot k = unwindCodeByte bytes' slot k :=
  h (unwindInfoHeaderSize + slot * 2 + k) (by omega) (by omega)

theorem unwindCodeU16_congr (h : SameSlots bytes bytes' slot (slot + 1)) :
    unwindCodeU16 bytes slot = unwindCodeU16 bytes' slot := by
  apply Bytes.numberAt_congr
  intro i hlo hhi
  exact h i hlo (by omega)

theorem unwindCodeU32_congr (h : SameSlots bytes bytes' slot (slot + 2)) :
    unwindCodeU32 bytes slot = unwindCodeU32 bytes' slot := by
  unfold unwindCodeU32
  rw [unwindCodeU16_congr (h.mono (Nat.le_refl _) (by omega)),
    @unwindCodeU16_congr bytes bytes' (slot + 1) (h.mono (by omega) (by omega))]

/-- An operation is read from as many slots as it takes. -/
theorem parseOperation_congr {version operationCode operationInfo slotsUsed : UInt8} (codeOffset : UInt8)
    (hslots : unwindCodeSlots version operationCode operationInfo = some slotsUsed)
    (h : SameSlots bytes bytes' slot (slot + slotsUsed.toNat)) :
    parseOperation bytes slot codeOffset operationCode operationInfo =
      parseOperation bytes' slot codeOffset operationCode operationInfo := by
  have htwo : slotsUsed = 2 → unwindCodeU16 bytes (slot + 1) = unwindCodeU16 bytes' (slot + 1) := by
    rintro rfl
    exact unwindCodeU16_congr (h.mono (by omega) (Nat.le_refl _))
  have hthree : slotsUsed = 3 → unwindCodeU32 bytes (slot + 1) = unwindCodeU32 bytes' (slot + 1) := by
    rintro rfl
    exact unwindCodeU32_congr (h.mono (by omega) (Nat.le_refl _))
  unfold unwindCodeSlots at hslots
  unfold parseOperation
  generalize operationCode.toNat = code at hslots
  match code, hslots with
  | uwopPushNonvol, _ => rfl
  | uwopAllocLarge, hslots =>
    by_cases hzero : operationInfo = 0
    · have hused : slotsUsed = 2 := by simpa [hzero, eq_comm] using hslots
      simp only [if_pos hzero, htwo hused]
    · by_cases hone : operationInfo = 1
      · have hused : slotsUsed = 3 := by simpa [hone, eq_comm] using hslots
        simp only [if_neg hzero, hthree hused]
      · simp [hzero, hone] at hslots
  | uwopAllocSmall, _ => rfl
  | uwopSetFpreg, _ => rfl
  | uwopSaveNonvol, hslots => simp only [htwo (Option.some.inj hslots).symm]
  | uwopSaveNonvolFar, hslots => simp only [hthree (Option.some.inj hslots).symm]
  | uwopEpilog, hslots =>
    have hused : slotsUsed = 2 := (Option.some.inj (Option.ite_none_right_eq_some.mp hslots).2).symm
    subst hused
    have hbyte : ∀ k < 2, unwindCodeByte bytes (slot + 1) k = unwindCodeByte bytes' (slot + 1) k := fun k hk =>
      unwindCodeByte_congr (h.mono (by omega) (Nat.le_refl _)) hk
    simp only [hbyte 0 (by decide), hbyte 1 (by decide)]
  | uwopSpare, hslots =>
    have hused : slotsUsed = 3 := (Option.some.inj (Option.ite_none_right_eq_some.mp hslots).2).symm
    simp only [hthree hused]
  | uwopSaveXmm128, hslots => simp only [htwo (Option.some.inj hslots).symm]
  | uwopSaveXmm128Far, hslots => simp only [hthree (Option.some.inj hslots).symm]
  | uwopPushMachframe, _ => rfl
  | n + 11, hslots => cases hslots

theorem unwindCodeSlots_pos {version operationCode operationInfo slotsUsed : UInt8}
    (h : unwindCodeSlots version operationCode operationInfo = some slotsUsed) : 0 < slotsUsed.toNat := by
  have hused : slotsUsed = 1 ∨ slotsUsed = 2 ∨ slotsUsed = 3 := by
    unfold unwindCodeSlots at h
    generalize operationCode.toNat = code at h
    grind
  obtain rfl | rfl | rfl := hused <;> decide

/-! ## Codes -/

/-- What it takes to accept a code. -/
theorem parseUnwindCode_eq_some {version : UInt8} {totalSlots : Nat} {code : UnwindCode} :
    parseUnwindCode bytes version slot totalSlots = some code ↔
      slot < 256 ∧ code.slotIndex = UInt8.ofNat slot ∧ slot + code.slotsUsed.toNat ≤ totalSlots ∧
      unwindCodeByte bytes slot 0 = some code.codeOffset ∧
      (∃ packed, unwindCodeByte bytes slot 1 = some packed ∧ code.operationCode = packed &&& 0x0f ∧
        code.operationInfo = packed >>> 4) ∧
      unwindCodeSlots version code.operationCode code.operationInfo = some code.slotsUsed ∧
      parseOperation bytes slot code.codeOffset code.operationCode code.operationInfo = some code.operation := by
  unfold parseUnwindCode
  constructor
  · intro h
    obtain ⟨codeOffset, hoffset, h⟩ := Option.bind_eq_some_iff.mp h
    obtain ⟨packed, hpacked, h⟩ := Option.bind_eq_some_iff.mp h
    obtain ⟨slotsUsed, hused, h⟩ := Option.bind_eq_some_iff.mp h
    split at h
    · cases h
    · rename_i havailable
      obtain ⟨operation, hoperation, h⟩ := Option.bind_eq_some_iff.mp h
      obtain ⟨hslot, h⟩ := Option.ite_none_right_eq_some.mp h
      obtain rfl := Option.some.inj h
      have hfits : slot + slotsUsed.toNat ≤ totalSlots := by
        simp [codeSlotsAvailable] at havailable
        omega
      exact ⟨hslot, rfl, hfits, hoffset, ⟨packed, hpacked, rfl, rfl⟩, hused, hoperation⟩
  · obtain ⟨slotIndex, codeOffset, operationCode, operationInfo, slotsUsed, operation⟩ := code
    rintro ⟨hslot, rfl, hfits, hoffset, ⟨packed, hpacked, rfl, rfl⟩, hused, hoperation⟩
    have havailable : codeSlotsAvailable slot totalSlots slotsUsed.toNat = true := by
      dsimp only at hfits
      simp [codeSlotsAvailable]
      omega
    dsimp only at hoffset hused hoperation
    simp [hoffset, hpacked, hused, hoperation, havailable, hslot]

theorem parseUnwindCode_congr {version : UInt8} {totalSlots : Nat} {code : UnwindCode}
    (h : parseUnwindCode bytes version slot totalSlots = some code)
    (hsame : SameSlots bytes bytes' slot (slot + code.slotsUsed.toNat)) :
    parseUnwindCode bytes' version slot totalSlots = some code := by
  obtain ⟨hslot, hindex, hfits, hoffset, ⟨packed, hpacked, hcode, hinfo⟩, hused, hoperation⟩ :=
    parseUnwindCode_eq_some.mp h
  have hpos := unwindCodeSlots_pos hused
  have hfirst : SameSlots bytes bytes' slot (slot + 1) := hsame.mono (Nat.le_refl _) (by omega)
  rw [unwindCodeByte_congr hfirst (by decide)] at hoffset hpacked
  rw [parseOperation_congr _ hused hsame] at hoperation
  exact parseUnwindCode_eq_some.mpr ⟨hslot, hindex, hfits, hoffset, ⟨packed, hpacked, hcode, hinfo⟩, hused, hoperation⟩

end Congr

section Loop
variable {bytes bytes' : List UInt8} {version : UInt8} {totalSlots slot : Nat} {codes : List UnwindCode}

/-- Rounds that are not needed change nothing. -/
theorem parseCodes_fuel {fuel fuel' : Nat} (h : totalSlots - slot ≤ fuel) (h' : totalSlots - slot ≤ fuel') :
    parseCodes bytes version totalSlots fuel slot = parseCodes bytes version totalSlots fuel' slot := by
  induction fuel generalizing fuel' slot with
  | zero =>
    have hend : ¬slot < totalSlots := by omega
    cases fuel' <;> simp [parseCodes, hend]
  | succ fuel ih =>
    cases fuel' with
    | zero =>
      have hend : ¬slot < totalSlots := by omega
      simp [parseCodes, hend]
    | succ fuel' =>
      unfold parseCodes
      cases hcode : parseUnwindCode bytes version slot totalSlots with
      | none => rfl
      | some code =>
        have hpos := unwindCodeSlots_pos (parseUnwindCode_eq_some.mp hcode).2.2.2.2.2.1
        have hrest := @ih (slot + code.slotsUsed.toNat) fuel' (by omega) (by omega)
        simp only [Option.bind_eq_bind, Option.bind_some, hrest]

/-- The loop of the source. -/
theorem codesFrom_eq (bytes : List UInt8) (version : UInt8) (totalSlots slot : Nat) :
    codesFrom bytes version totalSlots slot =
      if slot < totalSlots then do
        let code ← parseUnwindCode bytes version slot totalSlots
        let codes ← codesFrom bytes version totalSlots (slot + code.slotsUsed.toNat)
        return code :: codes
      else some [] := by
  unfold codesFrom
  split
  · rename_i hlt
    obtain ⟨fuel, hfuel⟩ : ∃ fuel, totalSlots - slot = fuel + 1 := ⟨totalSlots - slot - 1, by omega⟩
    rw [hfuel, parseCodes, if_pos hlt]
    cases hcode : parseUnwindCode bytes version slot totalSlots with
    | none => rfl
    | some code =>
      have hpos := unwindCodeSlots_pos (parseUnwindCode_eq_some.mp hcode).2.2.2.2.2.1
      have hrest := @parseCodes_fuel bytes version totalSlots (slot + code.slotsUsed.toNat) fuel
        (totalSlots - (slot + code.slotsUsed.toNat)) (by omega) (Nat.le_refl _)
      simp only [Option.bind_eq_bind, Option.bind_some, hrest]
  · rename_i hend
    rw [Nat.sub_eq_zero_of_le (Nat.le_of_not_lt hend), parseCodes, if_neg hend]

/-- Each code starts where the one before it ends. -/
def Tiles : Nat → List UnwindCode → Nat → Prop
  | start, [], stop => start = stop
  | start, code :: codes, stop => code.slotIndex.toNat = start ∧ Tiles (start + code.slotsUsed.toNat) codes stop

theorem codesFrom_cons {code : UnwindCode} (h : codesFrom bytes version totalSlots slot = some (code :: codes)) :
    slot < totalSlots ∧ parseUnwindCode bytes version slot totalSlots = some code ∧
      codesFrom bytes version totalSlots (slot + code.slotsUsed.toNat) = some codes := by
  rw [codesFrom_eq] at h
  split at h
  · rename_i hlt
    obtain ⟨first, hfirst, hrest⟩ := Option.bind_eq_some_iff.mp h
    obtain ⟨others, hothers, heq⟩ := Option.bind_eq_some_iff.mp hrest
    obtain ⟨rfl, rfl⟩ := List.cons.inj (Option.some.inj heq)
    exact ⟨hlt, hfirst, hothers⟩
  · cases h

theorem codesFrom_nil (h : codesFrom bytes version totalSlots slot = some []) : totalSlots ≤ slot := by
  rw [codesFrom_eq] at h
  split at h
  · obtain ⟨first, -, hrest⟩ := Option.bind_eq_some_iff.mp h
    obtain ⟨others, -, heq⟩ := Option.bind_eq_some_iff.mp hrest
    cases heq
  · omega

theorem parseUnwindCode_slotIndex {code : UnwindCode} (h : parseUnwindCode bytes version slot totalSlots = some code) :
    code.slotIndex.toNat = slot := by
  obtain ⟨hslot, hindex, -⟩ := parseUnwindCode_eq_some.mp h
  rw [hindex, UInt8.toNat_ofNat_of_lt' hslot]

theorem codesFrom_tiles (hslot : slot ≤ totalSlots) (h : codesFrom bytes version totalSlots slot = some codes) :
    Tiles slot codes totalSlots := by
  induction codes generalizing slot with
  | nil =>
    have hend := codesFrom_nil h
    exact Nat.le_antisymm hslot hend
  | cons code codes ih =>
    obtain ⟨-, hcode, hrest⟩ := codesFrom_cons h
    exact ⟨parseUnwindCode_slotIndex hcode, ih (parseUnwindCode_eq_some.mp hcode).2.2.1 hrest⟩

theorem codesFrom_mem (h : codesFrom bytes version totalSlots slot = some codes) {code : UnwindCode} (hcode : code ∈ codes) :
    parseUnwindCode bytes version code.slotIndex.toNat totalSlots = some code := by
  induction codes generalizing slot with
  | nil => cases hcode
  | cons first codes ih =>
    obtain ⟨-, hfirst, hrest⟩ := codesFrom_cons h
    cases hcode with
    | head => rwa [parseUnwindCode_slotIndex hfirst]
    | tail _ hmem => exact ih hrest hmem

theorem codesFrom_congr (hsame : SameSlots bytes bytes' 0 totalSlots)
    (h : codesFrom bytes version totalSlots slot = some codes) : codesFrom bytes' version totalSlots slot = some codes := by
  induction codes generalizing slot with
  | nil => rw [codesFrom_eq, if_neg (Nat.not_lt.mpr (codesFrom_nil h))]
  | cons code codes ih =>
    obtain ⟨hlt, hcode, hrest⟩ := codesFrom_cons h
    have hfits := (parseUnwindCode_eq_some.mp hcode).2.2.1
    rw [codesFrom_eq, if_pos hlt, parseUnwindCode_congr hcode (hsame.mono (Nat.zero_le _) hfits)]
    simp [ih hrest]

end Loop

/-! ## Exactness -/

/-- How long a tail is. -/
def tailSize (isChained hasHandler : Bool) : Nat := if isChained then 12 else if hasHandler then 4 else 0

theorem parseTail_congr {bytes bytes' : List UInt8} {isChained hasHandler : Bool} {tailOffset : Nat}
    (h : ∀ i < tailOffset + tailSize isChained hasHandler, bytes[i]? = bytes'[i]?) :
    parseTail bytes isChained hasHandler tailOffset = parseTail bytes' isChained hasHandler tailOffset := by
  have hread : ∀ offset, offset + 4 ≤ tailOffset + tailSize isChained hasHandler →
      readU32Le bytes offset = readU32Le bytes' offset := by
    intro offset hoffset
    apply Bytes.numberAt_congr
    intro i _ hlt
    exact h i (by omega)
  unfold parseTail
  unfold tailSize at hread
  split
  · rename_i hchained
    simp only [hchained, if_true] at hread
    rw [hread tailOffset (by omega), hread (tailOffset + 4) (by omega), hread (tailOffset + 8) (by omega)]
  · rename_i hchained
    split
    · rename_i hhandler
      simp only [hchained, hhandler, if_true] at hread
      rw [hread tailOffset (Nat.le_refl _)]
    · rfl

theorem readU32Le_fits {bytes : List UInt8} {offset n : Nat} (h : readU32Le bytes offset = some n) :
    offset + 4 ≤ bytes.length := by
  have hsome : (Bytes.numberAt bytes offset 4).isSome := by
    rw [readU32Le] at h
    rw [h]
    rfl
  have hfits := Bytes.numberAt_isSome.mp hsome
  omega

theorem parseTail_fits {bytes : List UInt8} {isChained hasHandler : Bool} {tailOffset : Nat} {tail : UnwindInfoTail}
    (hlen : tailOffset ≤ bytes.length) (h : parseTail bytes isChained hasHandler tailOffset = some tail) :
    tailOffset + tailSize isChained hasHandler ≤ bytes.length := by
  unfold parseTail at h
  unfold tailSize
  split at h
  · rename_i hchained
    obtain ⟨_, -, h⟩ := Option.bind_eq_some_iff.mp h
    obtain ⟨_, -, h⟩ := Option.bind_eq_some_iff.mp h
    obtain ⟨_, hlast, -⟩ := Option.bind_eq_some_iff.mp h
    have hfits := readU32Le_fits hlast
    rw [if_pos hchained]
    omega
  · rename_i hchained
    rw [if_neg hchained]
    split at h
    · rename_i hhandler
      obtain ⟨_, hlast, -⟩ := Option.map_eq_some_iff.mp h
      rw [if_pos hhandler]
      exact readU32Le_fits hlast
    · rename_i hhandler
      rwa [if_neg hhandler]

/-- The longest record has a chained entry behind all of its slots. -/
theorem unwindInfoMinimumSize_eq (header0 byte1 codeSlots byte3 : UInt8) (rest : List UInt8) :
    unwindInfoMinimumSize (header0 :: byte1 :: codeSlots :: byte3 :: rest) =
      some (alignToDword (unwindInfoHeaderSize + codeSlots.toNat * 2) +
        tailSize (header0 >>> 3 &&& unwFlagChaininfo != 0) (header0 >>> 3 &&& unwFlagHandlers != 0)) := by
  have hslots := codeSlots.toNat_lt
  have htail : alignToDword (unwindInfoHeaderSize + codeSlots.toNat * 2) ≤ 516 := by
    unfold alignToDword unwindInfoHeaderSize
    omega
  unfold unwindInfoMinimumSize tailSize imageRuntimeFunctionEntrySize maxUnwindInfoFixedBytes
  dsimp only
  split
  · rw [if_pos (by omega)]
  · split
    · rw [if_pos (by omega)]
    · rw [if_pos (by omega)]
      rfl

theorem le_alignToDword (value : Nat) : value ≤ alignToDword value := by
  unfold alignToDword
  omega

theorem parseUnwindInfo_header {bytes : List UInt8} {info : UnwindInfo} (h : parseUnwindInfo bytes = some info) :
    ∃ header0 byte1 codeSlots byte3 rest, bytes = header0 :: byte1 :: codeSlots :: byte3 :: rest := by
  match bytes, h with
  | header0 :: byte1 :: codeSlots :: byte3 :: rest, _ => exact ⟨header0, byte1, codeSlots, byte3, rest, rfl⟩
  | [], h => cases h
  | [_], h => cases h
  | [_, _], h => cases h
  | [_, _, _], h => cases h

section Record
variable (header0 byte1 codeSlots byte3 : UInt8)

/-- The version and the flags are known ones, and there is no offset from no frame register. -/
def HeaderAccepted : Prop :=
  ¬(!(header0 &&& 0x07 = 1 || header0 &&& 0x07 = 2) || header0 >>> 3 &&& ~~~unwindKnownFlags != 0) = true ∧
  ¬(header0 >>> 3 &&& unwFlagHandlers != 0 && header0 >>> 3 &&& unwFlagChaininfo != 0) = true ∧
  ¬(byte3 &&& 0x0f = 0 && byte3 >>> 4 != 0) = true

def tailOffsetOf : Nat := alignToDword (unwindInfoHeaderSize + codeSlots.toNat * 2)

/-- The record of a header with these codes and this tail. -/
def recordOf (codes : List UnwindCode) (tail : UnwindInfoTail) : UnwindInfo where
  version := header0 &&& 0x07
  flags := header0 >>> 3
  prologSize := byte1
  codeSlots := codeSlots
  frameRegister := if byte3 &&& 0x0f != 0 then some (byte3 &&& 0x0f) else none
  frameOffset := byte3 >>> 4
  frameOffsetBytes := (byte3 >>> 4).toNat * 16
  codes := codes
  tailOffset := tailOffsetOf codeSlots
  tail := tail

variable {header0 byte1 codeSlots byte3}

theorem parseUnwindInfo_eq_some {bytes rest : List UInt8} {info : UnwindInfo}
    (hbytes : bytes = header0 :: byte1 :: codeSlots :: byte3 :: rest) : parseUnwindInfo bytes = some info ↔
      HeaderAccepted header0 byte3 ∧ tailOffsetOf codeSlots ≤ bytes.length ∧ ∃ codes tail,
        codesFrom bytes (header0 &&& 0x07) codeSlots.toNat 0 = some codes ∧
        parseTail bytes (header0 >>> 3 &&& unwFlagChaininfo != 0) (header0 >>> 3 &&& unwFlagHandlers != 0)
          (tailOffsetOf codeSlots) = some tail ∧
        info = recordOf header0 byte1 codeSlots byte3 codes tail := by
  unfold parseUnwindInfo
  rw [hbytes]
  dsimp only
  rw [← hbytes]
  constructor
  · intro h
    split at h
    · cases h
    rename_i hversion
    split at h
    · cases h
    rename_i hflags
    split at h
    · cases h
    rename_i hframe
    split at h
    · cases h
    split at h
    · cases h
    rename_i htailOffset
    obtain ⟨codes, hcodes, h⟩ := Option.bind_eq_some_iff.mp h
    obtain ⟨tail, htail, h⟩ := Option.bind_eq_some_iff.mp h
    exact ⟨⟨hversion, hflags, hframe⟩, Nat.le_of_not_lt htailOffset, codes, tail, hcodes, htail, (Option.some.inj h).symm⟩
  · rintro ⟨⟨hversion, hflags, hframe⟩, htailOffset, codes, tail, hcodes, htail, rfl⟩
    have hends : unwindInfoHeaderSize + codeSlots.toNat * 2 ≤ tailOffsetOf codeSlots := le_alignToDword _
    unfold tailOffsetOf at htailOffset htail hends
    rw [if_neg hversion, if_neg hflags, if_neg hframe, if_neg (by omega), if_neg (by omega), hcodes, htail]
    rfl

end Record

/-- As many bytes as the header asks for are there, and no others matter. -/
theorem parseUnwindInfo_take {bytes : List UInt8} {info : UnwindInfo} (h : parseUnwindInfo bytes = some info) :
    ∃ size, unwindInfoMinimumSize bytes = some size ∧ size ≤ bytes.length ∧
      ∀ bytes', bytes'.take size = bytes.take size → parseUnwindInfo bytes' = some info := by
  obtain ⟨header0, byte1, codeSlots, byte3, rest, hbytes⟩ := parseUnwindInfo_header h
  have hmin := unwindInfoMinimumSize_eq header0 byte1 codeSlots byte3 rest
  rw [← hbytes] at hmin
  obtain ⟨haccepted, htailOffset, codes, tail, hcodes, htail, rfl⟩ := (parseUnwindInfo_eq_some hbytes).mp h
  have hfits := parseTail_fits htailOffset htail
  refine ⟨_, hmin, hfits, fun bytes' htake => ?_⟩
  have hends : unwindInfoHeaderSize + codeSlots.toNat * 2 ≤ tailOffsetOf codeSlots := le_alignToDword _
  change bytes'.take (tailOffsetOf codeSlots + _) = bytes.take (tailOffsetOf codeSlots + _) at htake
  generalize hsize : tailOffsetOf codeSlots +
    tailSize (header0 >>> 3 &&& unwFlagChaininfo != 0) (header0 >>> 3 &&& unwFlagHandlers != 0) = size at hfits htake
  have hsame : ∀ i < size, bytes[i]? = bytes'[i]? := by
    intro i hi
    have hi' := congrArg (·[i]?) htake
    simpa [List.getElem?_take, hi] using hi'.symm
  have hfits' : size ≤ bytes'.length := by
    have hlen := congrArg List.length htake
    rw [List.length_take, List.length_take] at hlen
    omega
  have hfour : 4 ≤ size := by
    have hheader : 4 ≤ unwindInfoHeaderSize + codeSlots.toNat * 2 := Nat.le_add_right _ _
    omega
  have hheader : bytes'.take 4 = [header0, byte1, codeSlots, byte3] := by
    have htakeFour := congrArg (List.take 4) htake
    rw [List.take_take, List.take_take, Nat.min_eq_left hfour, hbytes] at htakeFour
    simpa using htakeFour
  have hbytes' : bytes' = header0 :: byte1 :: codeSlots :: byte3 :: bytes'.drop 4 := by
    calc bytes' = bytes'.take 4 ++ bytes'.drop 4 := (List.take_append_drop 4 bytes').symm
      _ = header0 :: byte1 :: codeSlots :: byte3 :: bytes'.drop 4 := by rw [hheader]; rfl
  have hcodes' := codesFrom_congr (fun i _ hi => hsame i (by omega)) hcodes
  have htail' := (parseTail_congr fun i hi => hsame i (by omega)).symm.trans htail
  exact (parseUnwindInfo_eq_some hbytes').mpr ⟨haccepted, by omega, codes, tail, hcodes', htail', rfl⟩

theorem parseUnwindInfo_codes {bytes : List UInt8} {info : UnwindInfo} (h : parseUnwindInfo bytes = some info) :
    codesFrom bytes info.version info.codeSlots.toNat 0 = some info.codes := by
  obtain ⟨header0, byte1, codeSlots, byte3, rest, hbytes⟩ := parseUnwindInfo_header h
  obtain ⟨-, -, codes, tail, hcodes, -, rfl⟩ := (parseUnwindInfo_eq_some hbytes).mp h
  exact hcodes

theorem unwindInfoMinimumSize_take (bytes : List UInt8) :
    unwindInfoMinimumSize (bytes.take unwindInfoHeaderSize) = unwindInfoMinimumSize bytes := by
  match bytes with
  | [] => rfl
  | [_] => rfl
  | [_, _] => rfl
  | [_, _, _] => rfl
  | _ :: _ :: _ :: _ :: _ => rfl

theorem parseUnwindInfoAt_eq {image : List UInt8} {addressSpace : AddressSpace} {va offset : Nat}
    (himage : image.length < 2 ^ 64) (hva : Loader.vaToOffset addressSpace va = .some offset) :
    parseUnwindInfoAt image addressSpace va = Outcome.ofOption (parseUnwindInfo (image.drop offset)) := by
  have hslice := fun len => @Loader.sliceForVa_of_offset addressSpace va offset image len himage hva
  unfold parseUnwindInfoAt
  rw [hslice]
  cases hparse : parseUnwindInfo (image.drop offset) with
  | some info =>
    obtain ⟨size, hsize, hfits, htake⟩ := parseUnwindInfo_take hparse
    obtain ⟨header0, byte1, codeSlots, byte3, rest, hbytes⟩ := parseUnwindInfo_header hparse
    have hfour : 4 ≤ (image.drop offset).length := by simp [hbytes]
    rw [List.length_drop] at hfits hfour
    have hheader : offset + unwindInfoHeaderSize ≤ image.length := by
      show offset + 4 ≤ image.length
      omega
    rw [if_pos hheader, Outcome.some_bind, unwindInfoMinimumSize_take, hsize,
      Outcome.ofOption_some, Outcome.some_bind, hslice, if_pos (by omega), Outcome.some_bind,
      htake _ (by rw [List.take_take, Nat.min_self]), Outcome.ofOption_some]
  | none =>
    by_cases hheader : offset + unwindInfoHeaderSize ≤ image.length
    · rw [if_pos hheader, Outcome.some_bind, unwindInfoMinimumSize_take]
      cases hsize : unwindInfoMinimumSize (image.drop offset) with
      | none => rfl
      | some size =>
        rw [Outcome.ofOption_some, Outcome.some_bind, hslice]
        by_cases hfits : offset + size ≤ image.length
        · rw [if_pos hfits, Outcome.some_bind]
          -- A record in the slice would be one in the whole rest of the file.
          cases hpart : parseUnwindInfo ((image.drop offset).take size) with
          | none => rfl
          | some info =>
            obtain ⟨size', hsize', hlen, htake⟩ := parseUnwindInfo_take hpart
            rw [List.length_take] at hlen
            have hrest := htake (image.drop offset) (by rw [List.take_take, Nat.min_eq_left (by omega)])
            rw [hparse] at hrest
            cases hrest
        · rw [if_neg hfits, Outcome.none_bind, Outcome.ofOption_none]
    · rw [if_neg hheader, Outcome.none_bind, Outcome.ofOption_none]

/-- The codes tile the slots that the record declares, each is read from its own slots, and
the record from the bytes that the header asks for. -/
structure Exact (bytes : List UInt8) (info : UnwindInfo) : Prop where
  tiles : Tiles 0 info.codes info.codeSlots.toNat
  inside : ∀ code ∈ info.codes, ∀ bytes',
    SameSlots bytes bytes' code.slotIndex.toNat (code.slotIndex.toNat + code.slotsUsed.toNat) →
      parseUnwindCode bytes' info.version code.slotIndex.toNat info.codeSlots.toNat = some code
  enough : ∃ size, unwindInfoMinimumSize bytes = some size ∧ size ≤ bytes.length ∧
    ∀ bytes', bytes'.take size = bytes.take size → parseUnwindInfo bytes' = some info

/-- A prologue of 8 bytes: `sub rsp, 80h` in two slots, `push rbx` in one, and one for alignment. -/
def allocAndPush : List UInt8 := [0x01, 8, 3, 0, 8, 0x01, 0x10, 0x00, 1, 0x30, 0, 0]

/-- A section with the record behind two bytes of the file. -/
def recordSpace : AddressSpace where
  imageBase := 0x10000
  sections := [{ vaddr := 0x1000, vsize := 16, rawAddr := 2, rawSize := 14, characteristics := 0x40000040 }]

end Windy.Unwind
