import Windy.Analysis.CodeBuild
import Windy.Analysis.SketchRanges

/- The deep index (`analysis/compact_index.rs`).

   Every instruction of the executable sections becomes a record of eight bytes. The records
   go through a buffer to a writer and to a digest, and a list of partitions says which part of
   them belongs to which section.

   The decoder and the hash are not part of the repository. The decoder is assumed to yield
   instructions one behind the other (`CodeBuild.Decodes`). An image has less than 2^16
   sections, their number is a field of 16 bits.

   What is proved: the partitions tile the records, and every record lies in its section exactly
   when no address of an instruction wraps around, but in a section at the image base
   (`wellFormed_build_iff`).

   Correspondence:
     `opcode_class` ↔ the same
     the loop over the instructions ↔ `writeInstrs` (`recordOf`, `Sink.push`)
     the loop over the sections ↔ `indexSection`
     `build_to_writer` ↔ the same -/
namespace Windy.DeepIndex
open CodeBuild (Instruction Decoder Decodes Consecutive baseIp fileSize)
open Sketch (OperandKind LoadedPe)

/-! ## Records -/

inductive Mnemonic where
  | add
  | sub
  | mul
  | imul
  | div
  | idiv
  | and
  | or
  | xor
  | not
  | shl
  | shr
  | cmp
  | test
  | mov
  | lea
  | push
  | pop
  | other
  deriving DecidableEq

/-- What the records tell of an instruction. -/
structure Detail where
  flowControl : FlowControl
  mnemonic : Mnemonic
  opKinds : List OperandKind

instance instInhabitedDetail : Inhabited Detail := ⟨⟨.next, .other, []⟩⟩

structure InstrMeta where
  rva : Nat
  flags : Nat
  len : Nat
  opcodeClass : Nat
  deriving DecidableEq

/-- The fields in little endian, one behind the other. -/
def InstrMeta.toBytes (r : InstrMeta) : List UInt8 :=
  Bytes.toBytes 4 r.rva ++ (Bytes.toBytes 2 r.flags ++ [UInt8.ofNat r.len, UInt8.ofNat r.opcodeClass])

/-- `size_of::<InstrMeta>()` -/
def recordSize : Nat := 8

def flagMemory : Nat := 1 <<< 0

def flagConditional : Nat := 1 <<< 1

def flagIndirect : Nat := 1 <<< 2

def flagTerminator : Nat := 1 <<< 3

def opcodeClass (mnemonic : Mnemonic) : FlowControl → Nat
  | .call | .indirectCall => 2
  | .ret => 3
  | .conditionalBranch | .unconditionalBranch | .indirectBranch => 1
  | _ =>
    match mnemonic with
    | .add | .sub | .mul | .imul | .div | .idiv => 4
    | .and | .or | .xor | .not | .shl | .shr => 5
    | .cmp | .test => 6
    | .mov | .lea | .push | .pop => 7
    | .other => 0

/-- `if cond { flags |= flag }` -/
def setFlag (flags flag : Nat) (cond : Bool) : Nat := if cond then flags ||| flag else flags

def flagsOf (d : Detail) : Nat :=
  let flags := setFlag 0 flagMemory (d.opKinds.contains .memory)
  let flags := setFlag flags flagConditional (d.flowControl = .conditionalBranch)
  let flags := setFlag flags flagIndirect (d.flowControl = .indirectBranch || d.flowControl = .indirectCall)
  setFlag flags flagTerminator (d.flowControl = .ret || d.flowControl = .unconditionalBranch ||
    d.flowControl = .indirectBranch || d.flowControl = .exception)

/-- The record, unless the distance from the image base has more than 32 bits. -/
def recordOf (imageBase : Nat) (i : Instruction Detail) : Option InstrMeta :=
  let rva := i.ip - imageBase
  if rva < 2 ^ 32 then some ⟨rva, flagsOf i.detail, i.len, opcodeClass i.detail.mnemonic i.detail.flowControl⟩ else none

/-! ## The builder -/

structure SectionIndex where
  rva : Nat
  instructions : Nat
  fileOffset : Nat
  bytes : Nat
  deriving DecidableEq

structure CompactIndex where
  sections : List SectionIndex
  instructions : Nat
  diskBytes : Nat
  payloadSha256 : String
  elapsedMs : Nat
  cacheHit : Bool
  storagePath : Option String
  deriving DecidableEq

def writeBufferBytes : Nat := 1024 * 1024

/-- The writer and the digest with what they were given, and the buffer. -/
structure Sink where
  written : List UInt8
  digested : List UInt8
  diskBytes : Nat
  buffer : List UInt8

def Sink.empty : Sink := ⟨[], [], 0, []⟩

section Build
variable (accepts : List UInt8 → List UInt8 → Bool)

/-- The buffer goes to the writer, which may fail on it, and to the digest. -/
def Sink.flush (sink : Sink) : Option Sink :=
  if accepts sink.written sink.buffer then some
    { written := sink.written ++ sink.buffer
      digested := sink.digested ++ sink.buffer
      diskBytes := Outcome.saturatingAdd 64 sink.diskBytes sink.buffer.length
      buffer := [] }
  else none

def Sink.push (sink : Sink) (r : InstrMeta) : Option Sink :=
  let pushed := { sink with buffer := sink.buffer ++ r.toBytes }
  if writeBufferBytes ≤ pushed.buffer.length then pushed.flush accepts else some pushed

/-- What is left in the buffer behind the last section. -/
def Sink.finish (sink : Sink) : Option Sink := if sink.buffer = [] then some sink else sink.flush accepts

/-- The loop over the instructions of a section, with the number of its records. -/
def writeInstrs (imageBase : Nat) : List (Instruction Detail) → Sink × Nat → Option (Sink × Nat)
  | [], state => some state
  | i :: is, (sink, sectionInstructions) =>
    if i.len = 0 then some (sink, sectionInstructions)
    else
      match recordOf imageBase i with
      | none => writeInstrs imageBase is (sink, sectionInstructions)
      | some r =>
        match sink.push accepts r with
        | none => none
        | some pushed => writeInstrs imageBase is (pushed, sectionInstructions + 1)

structure Builder where
  sink : Sink
  instructions : Nat
  partitions : List SectionIndex

def Builder.start : Builder := ⟨.empty, 0, []⟩

def saturatingMul (a b : Nat) : Nat := min (a * b) (2 ^ 64 - 1)

variable (decoder : Decoder Detail) (pe : LoadedPe)

def sectionInstrs (s : Section) : List (Instruction Detail) :=
  let start := s.rawAddr
  let stop := min (Outcome.saturatingAdd 64 start s.rawSize) pe.image.length
  decoder pe.bitness ((pe.image.take stop).drop start) (baseIp pe.space.imageBase s)

def indexSection (b : Builder) (s : Section) : Option Builder :=
  let start := s.rawAddr
  let stop := min (Outcome.saturatingAdd 64 start s.rawSize) pe.image.length
  if stop ≤ start then some b
  else do
    let sectionOffset := saturatingMul b.instructions recordSize
    let (sink, sectionInstructions) ← writeInstrs accepts pe.space.imageBase (sectionInstrs decoder pe s) (b.sink, 0)
    return { sink := sink
             instructions := b.instructions + sectionInstructions
             partitions := b.partitions ++
               [⟨s.vaddr, sectionInstructions, sectionOffset, saturatingMul sectionInstructions recordSize⟩] }

variable (sha : List UInt8 → String)

/-- The index with what the writer has of it. `flushes`: the last flush of the writer works. -/
def buildToWriter (flushes : Bool) (elapsedMs : Nat) (storagePath : Option String) : Option (CompactIndex × List UInt8) := do
  let b ← (pe.sections.filter Section.isExecutable).foldlM (indexSection accepts decoder pe) Builder.start
  let sink ← b.sink.finish accepts
  if flushes then
    return ({ sections := b.partitions
              instructions := b.instructions
              diskBytes := sink.diskBytes
              payloadSha256 := sha sink.digested
              elapsedMs := elapsedMs
              cacheHit := false
              storagePath := storagePath }, sink.written)
  else none

end Build

/-! ## What should hold -/

/-- The sections with bytes in the file. -/
def indexedSections (pe : LoadedPe) : List Section :=
  (pe.sections.filter Section.isExecutable).filter fun s => 0 < fileSize pe.image s

/-- Each partition begins where the one before ends, with eight bytes for an instruction. -/
def Tiles : Nat → List SectionIndex → Nat → Prop
  | offset, [], stop => offset = stop
  | offset, p :: ps, stop => p.fileOffset = offset ∧ p.bytes = 8 * p.instructions ∧ Tiles (offset + p.bytes) ps stop

/-- The `rva` of every record of the partition lies in the section. -/
structure RecordsInside (payload : List UInt8) (s : Section) (p : SectionIndex) : Prop where
  rva : p.rva = s.vaddr
  inside : ∀ k < p.instructions, ∃ rva, Bytes.numberAt payload (p.fileOffset + 8 * k) 4 = some rva ∧
    s.vaddr ≤ rva ∧ rva < s.vaddr + s.rawSize

structure WellFormed (pe : LoadedPe) (index : CompactIndex) (payload : List UInt8) : Prop where
  size : index.diskBytes = payload.length
  tiles : Tiles 0 index.sections index.diskBytes
  inside : List.Forall₂ (RecordsInside payload) (indexedSections pe) index.sections

/-! ## The buffer -/

section Buffer
variable {accepts : List UInt8 → List UInt8 → Bool} {sink sink' : Sink}

/-- All that was pushed. -/
def Sink.all (sink : Sink) : List UInt8 := sink.written ++ sink.buffer

/-- The digest has what the writer has, and its bytes are counted. -/
structure Sink.Sound (sink : Sink) : Prop where
  digested : sink.digested = sink.written
  diskBytes : sink.diskBytes = min sink.written.length (2 ^ 64 - 1)

theorem Sink.sound_empty : Sink.empty.Sound := ⟨rfl, rfl⟩

theorem length_toBytes (r : InstrMeta) : r.toBytes.length = 8 := by
  simp only [InstrMeta.toBytes, List.length_append, Bytes.length_toBytes, List.length_cons, List.length_nil]

theorem length_flatMap_toBytes (rs : List InstrMeta) : (rs.flatMap InstrMeta.toBytes).length = 8 * rs.length := by
  induction rs with
  | nil => rfl
  | cons r rs ih =>
    rw [List.flatMap_cons, List.length_append, length_toBytes, ih, List.length_cons]
    omega

theorem Sink.flush_eq (h : sink.flush accepts = some sink') (hsound : sink.Sound) :
    sink'.all = sink.all ∧ sink'.buffer = [] ∧ sink'.Sound := by
  rw [Sink.flush] at h
  split at h
  · cases h
    refine ⟨List.append_nil _, rfl, ?_, ?_⟩
    · show sink.digested ++ sink.buffer = sink.written ++ sink.buffer
      rw [hsound.digested]
    · show Outcome.saturatingAdd 64 sink.diskBytes sink.buffer.length = min (sink.written ++ sink.buffer).length (2 ^ 64 - 1)
      rw [hsound.diskBytes, Outcome.saturatingAdd, List.length_append]
      omega
  · cases h

theorem Sink.finish_eq (h : sink.finish accepts = some sink') (hsound : sink.Sound) :
    sink'.all = sink.all ∧ sink'.buffer = [] ∧ sink'.Sound := by
  rw [Sink.finish] at h
  split at h
  · next hempty =>
    cases h
    exact ⟨rfl, hempty, hsound⟩
  · exact Sink.flush_eq h hsound

theorem Sink.push_eq {r : InstrMeta} (h : sink.push accepts r = some sink') (hsound : sink.Sound) :
    sink'.all = sink.all ++ r.toBytes ∧ sink'.Sound := by
  have hpushed : ({ sink with buffer := sink.buffer ++ r.toBytes } : Sink).all = sink.all ++ r.toBytes :=
    (List.append_assoc _ _ _).symm
  rw [Sink.push] at h
  split at h
  · obtain ⟨hall, -, hflushed⟩ := Sink.flush_eq h ⟨hsound.digested, hsound.diskBytes⟩
    exact ⟨hall.trans hpushed, hflushed⟩
  · cases h
    exact ⟨hpushed, hsound.digested, hsound.diskBytes⟩

/-- The records of a section are pushed one behind the other. -/
theorem writeInstrs_eq {imageBase : Nat} {is : List (Instruction Detail)} {n n' : Nat}
    (h : writeInstrs accepts imageBase is (sink, n) = some (sink', n')) (hsound : sink.Sound) (hlen : ∀ i ∈ is, i.len ≠ 0) :
    sink'.all = sink.all ++ (is.filterMap (recordOf imageBase)).flatMap InstrMeta.toBytes ∧
      n' = n + (is.filterMap (recordOf imageBase)).length ∧ sink'.Sound := by
  induction is generalizing sink n with
  | nil =>
    cases h
    exact ⟨(List.append_nil _).symm, rfl, hsound⟩
  | cons i is ih =>
    have hrest : ∀ i ∈ is, i.len ≠ 0 := fun j hj => hlen j (List.mem_cons_of_mem i hj)
    rw [writeInstrs, if_neg (hlen i List.mem_cons_self)] at h
    cases hrecord : recordOf imageBase i with
    | none =>
      rw [hrecord] at h
      rw [List.filterMap_cons_none hrecord]
      exact ih h hsound hrest
    | some r =>
      rw [hrecord] at h
      dsimp only at h
      rw [List.filterMap_cons_some hrecord]
      cases hpush : sink.push accepts r with
      | none =>
        rw [hpush] at h
        cases h
      | some pushed =>
        rw [hpush] at h
        obtain ⟨hall, hpushed⟩ := Sink.push_eq hpush hsound
        obtain ⟨hall', hcount, hsound'⟩ := ih h hpushed hrest
        refine ⟨?_, ?_, hsound'⟩
        · rw [hall', hall, List.flatMap_cons, List.append_assoc]
        · rw [hcount, List.length_cons]
          omega

end Buffer

/-! ## The sections -/

section Sections
variable {accepts : List UInt8 → List UInt8 → Bool} {decoder : Decoder Detail} {pe : LoadedPe}

/-- Where the instructions of the bytes lie, and that they are not longer than these. -/
theorem mem_consecutive {base size offset : Nat} {is : List (Instruction Detail)} (h : Consecutive base size offset is)
    {i : Instruction Detail} (hi : i ∈ is) : ∃ o, i.ip = (base + o) % 2 ^ 64 ∧ 1 ≤ i.len ∧ o + i.len ≤ size := by
  induction is generalizing offset with
  | nil => exact absurd hi List.not_mem_nil
  | cons j is ih =>
    obtain ⟨hip, hpos, -, hend, hrest⟩ := h
    rcases List.mem_cons.mp hi with rfl | hi
    · exact ⟨offset, hip, hpos, hend⟩
    · exact ih hrest hi

theorem length_consecutive {base size offset : Nat} {is : List (Instruction Detail)} (h : Consecutive base size offset is)
    (hoffset : offset ≤ size) : offset + is.length ≤ size := by
  induction is generalizing offset with
  | nil => exact hoffset
  | cons i is ih =>
    obtain ⟨-, hpos, -, hend, hrest⟩ := h
    have hlen := ih hrest hend
    rw [List.length_cons]
    omega

theorem sectionInstrs_consecutive (hdecodes : Decodes decoder) (s : Section) :
    Consecutive (baseIp pe.space.imageBase s) (fileSize pe.image s) 0 (sectionInstrs decoder pe s) := by
  have hsize : ((pe.image.take (min (Outcome.saturatingAdd 64 s.rawAddr s.rawSize) pe.image.length)).drop s.rawAddr).length =
      fileSize pe.image s := by
    rw [List.length_drop, List.length_take, fileSize]
    omega
  have h := hdecodes pe.bitness ((pe.image.take (min (Outcome.saturatingAdd 64 s.rawAddr s.rawSize) pe.image.length)).drop
    s.rawAddr) (baseIp pe.space.imageBase s)
  rw [hsize] at h
  exact h

variable (decoder pe) in
def sectionRecords (s : Section) : List InstrMeta := (sectionInstrs decoder pe s).filterMap (recordOf pe.space.imageBase)

variable (decoder pe) in
def sectionPayload (s : Section) : List UInt8 := (sectionRecords decoder pe s).flatMap InstrMeta.toBytes

variable (decoder pe) in
/-- The partitions of these sections, with so many records before them. -/
def partitionsFrom : Nat → List Section → List SectionIndex
  | _, [] => []
  | count, s :: ss =>
    ⟨s.vaddr, (sectionRecords decoder pe s).length, saturatingMul count recordSize,
      saturatingMul (sectionRecords decoder pe s).length recordSize⟩ ::
    partitionsFrom (count + (sectionRecords decoder pe s).length) ss

theorem indexSection_of_empty {s : Section} (h : ¬ 0 < fileSize pe.image s) (b : Builder) :
    indexSection accepts decoder pe b s = some b := by
  rw [fileSize] at h
  exact if_pos (by omega)

theorem indexSection_eq {b b' : Builder} {s : Section} (h : indexSection accepts decoder pe b s = some b')
    (hsize : 0 < fileSize pe.image s) (hdecodes : Decodes decoder) (hsound : b.sink.Sound) :
    b'.sink.all = b.sink.all ++ sectionPayload decoder pe s ∧
      b'.instructions = b.instructions + (sectionRecords decoder pe s).length ∧
      b'.partitions = b.partitions ++ partitionsFrom decoder pe b.instructions [s] ∧ b'.sink.Sound := by
  rw [fileSize] at hsize
  rw [indexSection] at h
  dsimp only at h
  rw [if_neg (by omega)] at h
  obtain ⟨⟨sink, n⟩, hwrite, hb'⟩ := Option.bind_eq_some_iff.mp h
  cases Option.some.inj hb'
  have hlen : ∀ i ∈ sectionInstrs decoder pe s, i.len ≠ 0 := by
    intro i hi
    obtain ⟨-, -, hpos, -⟩ := mem_consecutive (sectionInstrs_consecutive hdecodes s) hi
    omega
  obtain ⟨hall, hn, hsound'⟩ := writeInstrs_eq hwrite hsound hlen
  rw [Nat.zero_add] at hn
  refine ⟨hall, ?_, ?_, hsound'⟩
  · show b.instructions + n = _
    rw [hn]
    rfl
  · show b.partitions ++ [⟨s.vaddr, n, saturatingMul b.instructions recordSize, saturatingMul n recordSize⟩] = _
    rw [hn]
    rfl

/-- What the loop over the sections leaves. -/
theorem indexSections_eq {ss : List Section} {b b' : Builder} (h : ss.foldlM (indexSection accepts decoder pe) b = some b')
    (hdecodes : Decodes decoder) (hsound : b.sink.Sound) :
    b'.sink.all = b.sink.all ++ (ss.filter fun s => 0 < fileSize pe.image s).flatMap (sectionPayload decoder pe) ∧
      b'.partitions = b.partitions ++ partitionsFrom decoder pe b.instructions (ss.filter fun s => 0 < fileSize pe.image s) ∧
      b'.sink.Sound := by
  induction ss generalizing b with
  | nil =>
    cases h
    exact ⟨(List.append_nil _).symm, (List.append_nil _).symm, hsound⟩
  | cons s ss ih =>
    rw [List.foldlM_cons] at h
    obtain ⟨mid, hmid, hrest⟩ := Option.bind_eq_some_iff.mp h
    by_cases hsize : 0 < fileSize pe.image s
    · obtain ⟨hall, hcount, hparts, hsound'⟩ := indexSection_eq hmid hsize hdecodes hsound
      obtain ⟨hall', hparts', hsound''⟩ := ih hrest hsound'
      have hkept : (s :: ss).filter (fun s => 0 < fileSize pe.image s) =
          s :: ss.filter fun s => 0 < fileSize pe.image s := List.filter_cons_of_pos (decide_eq_true hsize)
      rw [hkept]
      refine ⟨?_, ?_, hsound''⟩
      · rw [hall', hall, List.flatMap_cons, List.append_assoc]
      · rw [hparts', hparts, hcount, List.append_assoc]
        rfl
    · rw [indexSection_of_empty hsize] at hmid
      cases hmid
      have hleft : (s :: ss).filter (fun s => 0 < fileSize pe.image s) = ss.filter fun s => 0 < fileSize pe.image s :=
        List.filter_cons_of_neg (by rw [decide_eq_true_eq]; exact hsize)
      rw [hleft]
      exact ih hrest hsound

/-- The index that is built, and what the writer has then. -/
theorem buildToWriter_eq {sha : List UInt8 → String} {flushes : Bool} {elapsedMs : Nat} {storagePath : Option String}
    {index : CompactIndex} {payload : List UInt8}
    (h : buildToWriter accepts decoder pe sha flushes elapsedMs storagePath = some (index, payload))
    (hdecodes : Decodes decoder) :
    payload = (indexedSections pe).flatMap (sectionPayload decoder pe) ∧
      index.sections = partitionsFrom decoder pe 0 (indexedSections pe) ∧
      index.diskBytes = min payload.length (2 ^ 64 - 1) ∧ index.payloadSha256 = sha payload ∧ index.cacheHit = false := by
  obtain ⟨b, hb, hrest⟩ := Option.bind_eq_some_iff.mp h
  obtain ⟨sink, hsink, hindex⟩ := Option.bind_eq_some_iff.mp hrest
  obtain ⟨hall, hparts, hsound⟩ := indexSections_eq hb hdecodes Sink.sound_empty
  obtain ⟨hsinkAll, hempty, hsinkSound⟩ := Sink.finish_eq hsink hsound
  have hwritten : sink.written = (indexedSections pe).flatMap (sectionPayload decoder pe) := by
    rw [← List.append_nil sink.written, ← hempty]
    exact hsinkAll.trans hall
  cases flushes with
  | false => cases hindex
  | true =>
    cases Option.some.inj hindex
    exact ⟨hwritten, hparts, hsinkSound.diskBytes, congrArg sha hsinkSound.digested, rfl⟩

end Sections

/-! ## Tiles -/

section Tiles
variable {decoder : Decoder Detail} {pe : LoadedPe}

/-- The number of the records of these sections. -/
theorem length_sectionPayload (s : Section) :
    (sectionPayload decoder pe s).length = 8 * (sectionRecords decoder pe s).length := length_flatMap_toBytes _

theorem length_sectionRecords (hdecodes : Decodes decoder) {s : Section} (hs : s ∈ indexedSections pe) :
    (sectionRecords decoder pe s).length < 2 ^ 32 := by
  have hlen := length_consecutive (@sectionInstrs_consecutive decoder pe hdecodes s) (Nat.zero_le _)
  have hfilter := List.length_filterMap_le (recordOf pe.space.imageBase) (sectionInstrs decoder pe s)
  have hsize : s.rawSize < 2 ^ 32 := (pe.sized.fields s (List.mem_of_mem_filter (List.mem_of_mem_filter hs))).2.2.2
  rw [fileSize, Outcome.saturatingAdd] at hlen
  rw [sectionRecords]
  omega

/-- Less than 2^16 sections have less than 2^51 bytes of records. -/
theorem length_payload (hdecodes : Decodes decoder) (ss : List Section) (hss : ∀ s ∈ ss, s ∈ indexedSections pe) :
    (ss.flatMap (sectionPayload decoder pe)).length ≤ ss.length * 2 ^ 35 := by
  induction ss with
  | nil => exact Nat.zero_le _
  | cons s ss ih =>
    have hfirst := length_sectionRecords hdecodes (hss s List.mem_cons_self)
    have hrest := ih fun t ht => hss t (List.mem_cons_of_mem s ht)
    rw [List.flatMap_cons, List.length_append, length_sectionPayload, List.length_cons]
    omega

theorem saturatingMul_recordSize {n : Nat} (h : 8 * n < 2 ^ 64) : saturatingMul n recordSize = 8 * n := by
  rw [saturatingMul, recordSize]
  omega

theorem tiles_partitionsFrom {count : Nat} {ss : List Section}
    (hfits : 8 * count + (ss.flatMap (sectionPayload decoder pe)).length < 2 ^ 64) :
    Tiles (8 * count) (partitionsFrom decoder pe count ss) (8 * count + (ss.flatMap (sectionPayload decoder pe)).length) := by
  induction ss generalizing count with
  | nil => exact rfl
  | cons s ss ih =>
    rw [List.flatMap_cons, List.length_append, length_sectionPayload] at hfits ⊢
    have hbytes : saturatingMul (sectionRecords decoder pe s).length recordSize = 8 * (sectionRecords decoder pe s).length :=
      saturatingMul_recordSize (by omega)
    refine ⟨saturatingMul_recordSize (by omega), hbytes, ?_⟩
    have hrest := @ih (count + (sectionRecords decoder pe s).length) (by omega)
    rw [Nat.mul_add, Nat.add_assoc] at hrest
    dsimp only
    rw [hbytes]
    exact hrest

/-! ## Records in their sections -/

theorem recordOf_eq_some {imageBase : Nat} {i : Instruction Detail} {r : InstrMeta} (h : recordOf imageBase i = some r) :
    r.rva = i.ip - imageBase ∧ r.rva < 2 ^ 32 := by
  rw [recordOf] at h
  by_cases hlt : i.ip - imageBase < 2 ^ 32
  · cases (if_pos hlt).symm.trans h
    exact ⟨rfl, hlt⟩
  · cases (if_neg hlt).symm.trans h

/-- The number at the place of a record is its `rva`. -/
theorem numberAt_record {rs : List InstrMeta} {k : Nat} (hk : k < rs.length) (before after : List UInt8) :
    Bytes.numberAt (before ++ (rs.flatMap InstrMeta.toBytes ++ after)) (before.length + 8 * k) 4 =
      some (rs[k].rva % 2 ^ 32) := by
  have hsplit : rs.flatMap InstrMeta.toBytes ++ after = (rs.take k).flatMap InstrMeta.toBytes ++
      (rs[k].toBytes ++ ((rs.drop (k + 1)).flatMap InstrMeta.toBytes ++ after)) := by
    conv_lhs => rw [← List.take_append_drop k rs, List.drop_eq_getElem_cons hk]
    rw [List.flatMap_append, List.flatMap_cons, List.append_assoc, List.append_assoc]
  have hlen : ((rs.take k).flatMap InstrMeta.toBytes).length = 8 * k := by
    rw [length_flatMap_toBytes, List.length_take, Nat.min_eq_left (Nat.le_of_lt hk)]
  rw [hsplit, ← List.append_assoc before]
  have hplace : before.length + 8 * k = (before ++ (rs.take k).flatMap InstrMeta.toBytes).length + 0 := by
    rw [List.length_append, hlen, Nat.add_zero]
  rw [hplace, ← Bytes.numberAt_drop, List.drop_left, InstrMeta.toBytes, List.append_assoc, Bytes.numberAt_toBytes]
  rfl

/-- The partitions have their records in the sections exactly when these are. -/
theorem inside_iff {count : Nat} {ss : List Section} (before after : List UInt8) (hbefore : before.length = 8 * count)
    (hfits : 8 * count + (ss.flatMap (sectionPayload decoder pe)).length < 2 ^ 64) :
    List.Forall₂ (RecordsInside (before ++ (ss.flatMap (sectionPayload decoder pe) ++ after))) ss
      (partitionsFrom decoder pe count ss) ↔
    ∀ s ∈ ss, ∀ r ∈ sectionRecords decoder pe s, s.vaddr ≤ r.rva ∧ r.rva < s.vaddr + s.rawSize := by
  induction ss generalizing count before with
  | nil => exact iff_of_true .nil fun s hs => absurd hs List.not_mem_nil
  | cons s ss ih =>
    rw [List.flatMap_cons, List.length_append, length_sectionPayload] at hfits
    rw [List.flatMap_cons, partitionsFrom, List.forall₂_cons, List.forall_mem_cons]
    have hrest := @ih (count + (sectionRecords decoder pe s).length) (before ++ sectionPayload decoder pe s)
      (by rw [List.length_append, length_sectionPayload, hbefore, Nat.mul_add]) (by omega)
    rw [List.append_assoc] at hrest ⊢
    rw [hrest]
    refine and_congr_left fun _ => ?_
    have hoffset : saturatingMul count recordSize = before.length := by
      rw [hbefore]
      exact saturatingMul_recordSize (by omega)
    have hnumber : ∀ k (hk : k < (sectionRecords decoder pe s).length),
        Bytes.numberAt (before ++ (sectionPayload decoder pe s ++ (ss.flatMap (sectionPayload decoder pe) ++ after)))
          (saturatingMul count recordSize + 8 * k) 4 = some (sectionRecords decoder pe s)[k].rva := by
      intro k hk
      obtain ⟨i, -, hrecord⟩ := List.mem_filterMap.mp (List.getElem_mem hk)
      rw [hoffset, sectionPayload, numberAt_record hk, Nat.mod_eq_of_lt (recordOf_eq_some hrecord).2]
    constructor
    · intro h r hr
      obtain ⟨k, hk, rfl⟩ := List.mem_iff_getElem.mp hr
      obtain ⟨rva, hrva, hinside⟩ := h.inside k hk
      rw [hnumber k hk] at hrva
      rw [Option.some.inj hrva]
      exact hinside
    · intro h
      refine ⟨rfl, fun k hk => ⟨_, hnumber k hk, h _ (List.getElem_mem hk)⟩⟩

/-- An instruction has its record in the section unless its address wraps around, or all the same if this is at the base. -/
theorem recordInside_iff {imageBase : Nat} {s : Section} {i : Instruction Detail} {offset : Nat} (hbase : imageBase < 2 ^ 64)
    (hvaddr : s.vaddr < 2 ^ 32) (hraw : s.rawSize < 2 ^ 32) (hip : i.ip = (baseIp imageBase s + offset) % 2 ^ 64)
    (hoffset : offset < s.rawSize) :
    (∀ r, recordOf imageBase i = some r → s.vaddr ≤ r.rva ∧ r.rva < s.vaddr + s.rawSize) ↔
      s.vaddr = 0 ∨ imageBase + s.vaddr ≤ i.ip := by
  rw [baseIp, Outcome.saturatingAdd] at hip
  have hsmall : ∀ r, recordOf imageBase i = some r → r.rva = i.ip - imageBase := fun r hr => (recordOf_eq_some hr).1
  constructor
  · intro h
    by_contra hwrap
    have hfits : i.ip - imageBase < 2 ^ 32 := by omega
    have hrecord := h _ (if_pos hfits)
    have hge : s.vaddr ≤ i.ip - imageBase := hrecord.1
    omega
  · intro h r hr
    rw [hsmall r hr]
    omega

theorem records_inside_iff (hdecodes : Decodes decoder) {s : Section} (hs : s ∈ indexedSections pe) :
    (∀ r ∈ sectionRecords decoder pe s, s.vaddr ≤ r.rva ∧ r.rva < s.vaddr + s.rawSize) ↔
      ∀ i ∈ sectionInstrs decoder pe s, s.vaddr = 0 ∨ pe.space.imageBase + s.vaddr ≤ i.ip := by
  obtain ⟨hvaddr, -, haddr, hraw⟩ := pe.sized.fields s (List.mem_of_mem_filter (List.mem_of_mem_filter hs))
  have hinstr : ∀ i ∈ sectionInstrs decoder pe s,
      (∀ r, recordOf pe.space.imageBase i = some r → s.vaddr ≤ r.rva ∧ r.rva < s.vaddr + s.rawSize) ↔
        s.vaddr = 0 ∨ pe.space.imageBase + s.vaddr ≤ i.ip := by
    intro i hi
    obtain ⟨offset, hip, hpos, hend⟩ := mem_consecutive (sectionInstrs_consecutive hdecodes s) hi
    rw [fileSize, Outcome.saturatingAdd] at hend
    exact recordInside_iff pe.sized.imageBase hvaddr hraw hip (by omega)
  constructor
  · intro h i hi
    exact (hinstr i hi).mp fun r hr => h r (List.mem_filterMap.mpr ⟨i, hi, hr⟩)
  · intro h r hr
    obtain ⟨i, hi, hrecord⟩ := List.mem_filterMap.mp hr
    exact (hinstr i hi).mpr (h i hi) r hrecord

end Tiles

/-- The index is well formed exactly when no address wraps around, but in sections at the image base. -/
theorem wellFormed_build_iff {accepts : List UInt8 → List UInt8 → Bool} {decoder : Decoder Detail} {pe : LoadedPe}
    {sha : List UInt8 → String} {flushes : Bool} {elapsedMs : Nat} {storagePath : Option String} {index : CompactIndex}
    {payload : List UInt8} (hdecodes : Decodes decoder) (hcount : pe.sections.length < 2 ^ 16)
    (hbuild : buildToWriter accepts decoder pe sha flushes elapsedMs storagePath = some (index, payload)) :
    WellFormed pe index payload ↔ ∀ s ∈ indexedSections pe, ∀ i ∈ sectionInstrs decoder pe s,
      s.vaddr = 0 ∨ pe.space.imageBase + s.vaddr ≤ i.ip := by
  obtain ⟨hpayload, hsections, hdisk, -, -⟩ := buildToWriter_eq hbuild hdecodes
  have hfew : (indexedSections pe).length < 2 ^ 16 :=
    Nat.lt_of_le_of_lt (Nat.le_trans (List.length_filter_le _ _) (List.length_filter_le _ _)) hcount
  have hlen := length_payload hdecodes (indexedSections pe) fun _ hs => hs
  have hfits : payload.length < 2 ^ 64 := by
    rw [hpayload]
    omega
  have hsize : index.diskBytes = payload.length := by
    rw [hdisk]
    omega
  have htiles : Tiles 0 index.sections index.diskBytes := by
    have h := @tiles_partitionsFrom decoder pe 0 (indexedSections pe) (by rw [← hpayload]; omega)
    rw [← hpayload, Nat.mul_zero, Nat.zero_add] at h
    rw [hsize, hsections]
    exact h
  have hinside := @inside_iff decoder pe 0 (indexedSections pe) [] [] rfl (by rw [← hpayload]; omega)
  rw [List.nil_append, List.append_nil, ← hpayload, ← hsections] at hinside
  constructor
  · intro h s hs
    exact (records_inside_iff hdecodes hs).mp (hinside.mp h.inside s hs)
  · intro h
    exact ⟨hsize, htiles, hinside.mpr fun s hs => (records_inside_iff hdecodes hs).mpr (h s hs)⟩

/-! ## One byte -/

/-- An executable section of one byte, with this image base. -/
def oneByte (imageBase : Nat) (hbase : imageBase < 2 ^ 64) : LoadedPe where
  image := [0x90]
  optionalHeader := some ⟨imageBase, 0x1000, "PE32+"⟩
  sections := [⟨0x1000, 1, 0, 1, 0x20000000⟩]
  sized := by
    refine ⟨hbase, fun s hs => ?_⟩
    rw [List.mem_singleton.mp hs]
    decide

/-- A hash without collisions. -/
def hashText (bytes : List UInt8) : String := String.ofList (bytes.map Char.ofUInt8)

theorem hashText_injective : Function.Injective hashText := by
  intro a b h
  refine List.map_injective_iff.mpr ?_ (String.ofList_injective h)
  intro x y hxy
  have hvalue : x.toUInt32 = y.toUInt32 := congrArg Char.val hxy
  exact UInt8.toNat_inj.mp (congrArg UInt32.toNat hvalue)

/-- The index of the byte at this distance from the base. -/
def oneIndex (rva : Nat) : CompactIndex where
  sections := [⟨0x1000, 1, 0, 8⟩]
  instructions := 1
  diskBytes := 8
  payloadSha256 := hashText (InstrMeta.toBytes ⟨rva, 0, 1, 0⟩)
  elapsedMs := 0
  cacheHit := false
  storagePath := none

/-- At the usual base, and where the section would begin behind the last address. -/
def usualPe : LoadedPe := oneByte 0x140000000 (by decide)

def lastPe : LoadedPe := oneByte 0xfffffffffffff000 (by decide)

theorem build_usualPe : buildToWriter (fun _ _ => true) CodeBuild.byteDecoder usualPe hashText true 0 none =
    some (oneIndex 0x1000, InstrMeta.toBytes ⟨0x1000, 0, 1, 0⟩) := by
  decide +kernel

theorem build_lastPe : buildToWriter (fun _ _ => true) CodeBuild.byteDecoder lastPe hashText true 0 none =
    some (oneIndex 0xfff, InstrMeta.toBytes ⟨0xfff, 0, 1, 0⟩) := by
  decide +kernel

end Windy.DeepIndex
