import Windy.Analysis.Sketch
import Windy.Loader.AddressSpace

/- The facts of a function sketch (`analysis/sketch.rs`).

   Both builders of sketches go over decoded instructions with the same counters
   (`Facts.count`). They differ in what a loop is and in which calls are kept, and in where
   the instructions come from: `sketch_range` decodes the bytes of a range. A set of
   addresses or constants is a `Finset`, listed in ascending order.

   The decoder is not part of the repository: it is a function that says what the first
   instruction of some bytes at an address is, in a bitness (`decode`).

   Correspondence:
     `writes_operand_zero`, `is_zero_test`, `is_immediate` ↔ the same
     the counters of both loops ↔ `Facts`, `Facts.count`
     `while decoder.can_decode()` ↔ `decodeAll`
     the motifs, the record ↔ `motifs`, `Facts.toSketch`
     `sketch_range` ↔ `sketchRange` (`rangeStep`) -/
namespace Windy.Sketch

/-! ## Instructions -/

inductive Mnemonic where
  | add
  | inc
  | sub
  | dec
  | imul
  | mul
  | xor
  | and
  | or
  | mov
  | cmp
  | test
  | other
  deriving DecidableEq

inductive OperandKind where
  | register
  | memory
  | immediate8
  | immediate8Second
  | immediate16
  | immediate32
  | immediate64
  | immediate8to16
  | immediate8to32
  | immediate8to64
  | immediate32to64
  | other
  deriving DecidableEq

/-- `op_kind(i)`, `immediate(i)` and the number of `op_register(i)`. -/
structure Operand where
  kind : OperandKind
  immediate : Nat
  register : Nat

/-- What the sketches read of an instruction. -/
structure Insn where
  len : Nat
  flowControl : FlowControl
  nearBranchTarget : Nat
  mnemonic : Mnemonic
  operands : List Operand
  memorySize : Nat
  memoryBase : Register

def writesOperandZero : Mnemonic → Bool
  | .mov | .add | .sub | .xor | .and | .or | .inc | .dec => true
  | _ => false

def isImmediate : OperandKind → Bool
  | .immediate8 | .immediate8Second | .immediate16 | .immediate32 | .immediate64 | .immediate8to16 | .immediate8to32
  | .immediate8to64 | .immediate32to64 => true
  | _ => false

/-- The first two operands are one register. -/
def sameRegister : List Operand → Bool
  | o :: o' :: _ => o.kind = .register && o'.kind = .register && o.register = o'.register
  | _ => false

def isZeroTest (i : Insn) : Bool :=
  (i.operands.any fun o => isImmediate o.kind && o.immediate = 0) || (i.mnemonic = .test && sameRegister i.operands)

def hasMemory (i : Insn) : Bool := i.operands.any fun o => o.kind = .memory

def writesGlobal (i : Insn) : Bool :=
  i.operands.head?.any (fun o => o.kind = .memory) && (i.memoryBase = .rip || i.memoryBase = .eip) &&
    writesOperandZero i.mnemonic

/-! ## Facts -/

structure Facts where
  instructions : Nat
  conditionalBranches : Nat
  loops : Nat
  calls : Finset Nat
  returns : Nat
  memoryOps : Nat
  byteMemoryOps : Nat
  globalWrites : Nat
  adds : Nat
  subtracts : Nat
  multiplies : Nat
  xors : Nat
  zeroTests : Nat
  constants : Finset Nat

def Facts.zero : Facts := ⟨0, 0, 0, ∅, 0, 0, 0, 0, 0, 0, 0, 0, 0, ∅⟩

/-- `n += 1` if the condition holds. -/
def bump (n : Nat) (cond : Bool) : Nat := if cond then n + 1 else n

/-- What both loops note of an instruction. -/
def Facts.count (f : Facts) (i : Insn) : Facts :=
  { f with
    instructions := f.instructions + 1
    conditionalBranches := bump f.conditionalBranches (i.flowControl = .conditionalBranch)
    returns := bump f.returns (i.flowControl = .ret)
    adds := bump f.adds (i.mnemonic = .add || i.mnemonic = .inc)
    subtracts := bump f.subtracts (i.mnemonic = .sub || i.mnemonic = .dec)
    multiplies := bump f.multiplies (i.mnemonic = .imul || i.mnemonic = .mul)
    xors := bump f.xors (i.mnemonic = .xor)
    zeroTests := bump f.zeroTests ((i.mnemonic = .cmp || i.mnemonic = .test) && isZeroTest i)
    memoryOps := bump f.memoryOps (hasMemory i)
    byteMemoryOps := bump f.byteMemoryOps (hasMemory i && i.memorySize = 1)
    globalWrites := bump f.globalWrites (hasMemory i && writesGlobal i)
    constants := f.constants ∪ ((i.operands.filter fun o => isImmediate o.kind).map Operand.immediate).toFinset }

/-! ## Sketches -/

/-- A sketch with the two fields that the ranking does not read. -/
structure WholeSketch extends FunctionSketch where
  conditionalBranches : Nat
  constants : List Nat

/-- `if cond { motifs.push(name) }` -/
def motifIf (cond : Bool) (name : String) : List String := if cond then [name] else []

/-- The motifs, by whether there are at most 16 and at most 24 blocks. -/
def motifs (f : Facts) (few16 few24 : Bool) : List String :=
  let compactLeaf := f.calls.card = 0 && few16
  motifIf (compactLeaf && 0 < f.loops && 0 < f.byteMemoryOps && 0 < f.zeroTests && 0 < f.adds) "nul_terminated_byte_loop" ++
  motifIf (compactLeaf && f.loops = 0 && 1 ≤ f.conditionalBranches && 1 ≤ f.returns && f.byteMemoryOps = 0)
    "bounded_select" ++
  motifIf (compactLeaf && 0 < f.loops && 0 < f.byteMemoryOps && 0 < f.xors && 0 < f.multiplies) "xor_multiply_hash" ++
  motifIf (compactLeaf && 0 < f.adds && 0 < f.subtracts && 0 < f.multiplies && 2 ≤ f.conditionalBranches)
    "arithmetic_dispatch" ++
  motifIf (2 ≤ f.calls.card && f.calls.card ≤ 6 && 0 < f.conditionalBranches && few24) "conditional_call_pipeline" ++
  motifIf (compactLeaf && 0 < f.loops && 2 ≤ f.memoryOps && 0 < f.adds && f.byteMemoryOps = 0)
    "linked_list_accumulator" ++
  motifIf (compactLeaf && f.loops = 0 && 4 ≤ f.memoryOps && 2 ≤ f.multiplies && 0 < f.adds) "pair_dot_product"

def Facts.toSketch (f : Facts) (va size blocks : Nat) : WholeSketch where
  va := va
  size := size
  blocks := blocks
  instructions := f.instructions
  loops := f.loops
  conditionalBranches := f.conditionalBranches
  directCalls := f.calls.sort (· ≤ ·)
  returns := f.returns
  memoryOps := f.memoryOps
  byteMemoryOps := f.byteMemoryOps
  globalWrites := f.globalWrites
  adds := f.adds
  subtracts := f.subtracts
  multiplies := f.multiplies
  xors := f.xors
  zeroTests := f.zeroTests
  constants := (f.constants.sort (· ≤ ·)).take 16
  motifs := motifs f (blocks ≤ 16) (blocks ≤ 24)

/-! ## Ranges -/

section Range
variable (decode : Nat → List UInt8 → Nat → Insn) (bitness : Nat)

/-- The instructions of bytes at an address, with their addresses, at most so many. -/
def decodeRounds : Nat → List UInt8 → Nat → List (Nat × Insn)
  | 0, _, _ => []
  | rounds + 1, bytes, ip =>
    if bytes = [] then []
    else
      let i := decode bitness bytes ip
      if i.len = 0 then [] else (ip, i) :: decodeRounds rounds (bytes.drop i.len) ((ip + i.len) % 2 ^ 64)

/-- All of them: each has a byte of its own. -/
def decodeAll (bytes : List UInt8) (ip : Nat) : List (Nat × Insn) := decodeRounds decode bitness bytes.length bytes ip

/-- One round of the loop of `sketch_range`. -/
def rangeStep (f : Facts) (d : Nat × Insn) : Facts :=
  let counted := f.count d.2
  { counted with
    loops := bump f.loops ((d.2.flowControl = .conditionalBranch || d.2.flowControl = .unconditionalBranch) &&
      d.2.nearBranchTarget ≤ d.1)
    calls := if d.2.flowControl = .call ∧ d.2.nearBranchTarget ≠ 0 then insert d.2.nearBranchTarget f.calls else f.calls }

def rangeFacts (instrs : List (Nat × Insn)) : Facts := instrs.foldl rangeStep Facts.zero

variable (image : List UInt8) (space : AddressSpace)

/-- The bytes that the file has for the range. -/
def rangeBytes (start stop : Nat) : Outcome (List UInt8) := do
  let s ← Loader.sectionAtVa space start
  let fileOffset ← Loader.sectionVaToOffset s space.imageBase start
  let available := min (Outcome.saturatingAdd 64 s.rawAddr s.rawSize) image.length - fileOffset
  Outcome.ofOption (Outcome.get image fileOffset (Outcome.saturatingAdd 64 fileOffset (min (stop - start) available)))

def sketchRange (start stop : Nat) : Outcome WholeSketch :=
  if stop ≤ start then Outcome.none
  else do
    let bytes ← rangeBytes image space start stop
    let f := rangeFacts ((decodeAll decode bitness bytes start).takeWhile fun d => d.1 < stop)
    if f.instructions = 0 then Outcome.none
    else return f.toSketch start (stop - start) (1 + f.conditionalBranches + f.loops)

end Range

section Rounds
variable {decode : Nat → List UInt8 → Nat → Insn} {bitness : Nat}

/-- One more round than there are bytes. -/
theorem decodeRounds_succ {rounds : Nat} {bytes : List UInt8} (h : bytes.length ≤ rounds) (ip : Nat) :
    decodeRounds decode bitness (rounds + 1) bytes ip = decodeRounds decode bitness rounds bytes ip := by
  induction rounds generalizing bytes ip with
  | zero =>
    obtain rfl := List.length_eq_zero_iff.mp (Nat.le_zero.mp h)
    rfl
  | succ rounds ih =>
    rw [decodeRounds, decodeRounds]
    by_cases hbytes : bytes = []
    · rw [if_pos hbytes, if_pos hbytes]
    · rw [if_neg hbytes, if_neg hbytes]
      by_cases hlen : (decode bitness bytes ip).len = 0
      · rw [if_pos hlen, if_pos hlen]
      · have hdrop : (bytes.drop (decode bitness bytes ip).len).length ≤ rounds := by
          rw [List.length_drop]
          omega
        rw [if_neg hlen, if_neg hlen, ih hdrop]

/-- There are no more rounds than bytes. -/
theorem decodeRounds_eq {rounds : Nat} {bytes : List UInt8} (h : bytes.length ≤ rounds) (ip : Nat) :
    decodeRounds decode bitness rounds bytes ip = decodeAll decode bitness bytes ip := by
  induction rounds, h using Nat.le_induction with
  | base => rfl
  | succ rounds h ih => rw [decodeRounds_succ h, ih]

/-- An instruction and those behind it. -/
theorem decodeAll_of_pos {bytes : List UInt8} {ip : Nat} (hbytes : bytes ≠ []) (hlen : (decode bitness bytes ip).len ≠ 0) :
    decodeAll decode bitness bytes ip = (ip, decode bitness bytes ip) ::
      decodeAll decode bitness (bytes.drop (decode bitness bytes ip).len) ((ip + (decode bitness bytes ip).len) % 2 ^ 64) := by
  obtain ⟨n, hn⟩ := Nat.exists_eq_succ_of_ne_zero fun h => hbytes (List.length_eq_zero_iff.mp h)
  have hdrop : (bytes.drop (decode bitness bytes ip).len).length ≤ n := by
    rw [List.length_drop]
    omega
  rw [← decodeRounds_eq hdrop, decodeAll, hn, decodeRounds, if_neg hbytes, if_neg hlen]

end Rounds

section Facts
variable {decode : Nat → List UInt8 → Nat → Insn} {bitness : Nat}

theorem rangeStep_instructions (f : Facts) (d : Nat × Insn) : (rangeStep f d).instructions = f.instructions + 1 := rfl

/-- Every instruction is counted. -/
theorem rangeFacts_instructions (instrs : List (Nat × Insn)) : (rangeFacts instrs).instructions = instrs.length := by
  have hfold (f : Facts) : (instrs.foldl rangeStep f).instructions = f.instructions + instrs.length := by
    induction instrs generalizing f with
    | nil => rfl
    | cons d instrs ih =>
      rw [List.foldl_cons, ih, rangeStep_instructions, List.length_cons]
      omega
  exact (hfold Facts.zero).trans (Nat.zero_add _)

end Facts

section Lookup
variable {decode : Nat → List UInt8 → Nat → Insn} {bitness : Nat} {image : List UInt8} {space : AddressSpace}
  {start stop : Nat}

/-- The byte at the address is in the file. -/
def InFile (image : List UInt8) (space : AddressSpace) (va : Nat) : Prop :=
  ∃ offset, Loader.vaToOffset space va = .some offset ∧ offset < image.length

/-- What the file has of a range: as much of the section as the range and the file have. -/
theorem rangeBytes_eq_some (hsized : Loader.Sized space) {bytes : List UInt8} :
    rangeBytes image space start stop = .some bytes ↔ ∃ s offset, Loader.sectionAtVa space start = .some s ∧
      Loader.sectionVaToOffset s space.imageBase start = .some offset ∧ offset ≤ image.length ∧
      bytes = (image.drop offset).take (min (stop - start) (min (s.rawAddr + s.rawSize) image.length - offset)) := by
  rw [rangeBytes, Outcome.bind_eq_some]
  refine exists_congr fun s => ?_
  rw [Outcome.bind_eq_some, ← exists_and_left]
  refine exists_congr fun offset => and_congr_right fun hs => and_congr_right fun hoffset => ?_
  obtain ⟨-, -, haddr, hsize⟩ := hsized.fields s (Loader.sectionAtVa_contains hs).1
  obtain ⟨-, hwithin, hoffset⟩ := (Loader.sectionVaToOffset_eq_some haddr hsize).mp hoffset
  have hend : Outcome.saturatingAdd 64 s.rawAddr s.rawSize = s.rawAddr + s.rawSize := by
    rw [Outcome.saturatingAdd]
    omega
  rw [hend, Outcome.ofOption_eq_some, Outcome.get]
  generalize hn : min (stop - start) (min (s.rawAddr + s.rawSize) image.length - offset) = n
  have hstop : Outcome.saturatingAdd 64 offset n = offset + n := by
    rw [Outcome.saturatingAdd]
    omega
  rw [hstop, Option.ite_none_right_eq_some, List.drop_take, Nat.add_sub_cancel_left, Option.some.injEq]
  have hfits : offset ≤ offset + n ∧ offset + n ≤ image.length ↔ offset ≤ image.length := by omega
  rw [hfits]
  exact and_congr_right fun _ => eq_comm

/-- The bytes of a range are not empty if the file has the first of them. -/
theorem inFile_iff (hsized : Loader.Sized space) (hlt : start < stop) : InFile image space start ↔
    ∃ bytes, rangeBytes image space start stop = .some bytes ∧ bytes ≠ [] := by
  constructor
  · rintro ⟨offset, hoffset, hfile⟩
    obtain ⟨s, hs, hoffset⟩ := Outcome.bind_eq_some.mp hoffset
    obtain ⟨-, -, haddr, hsize⟩ := hsized.fields s (Loader.sectionAtVa_contains hs).1
    obtain ⟨-, hwithin, hvalue⟩ := (Loader.sectionVaToOffset_eq_some haddr hsize).mp hoffset
    refine ⟨_, (rangeBytes_eq_some hsized).mpr ⟨s, offset, hs, hoffset, Nat.le_of_lt hfile, rfl⟩, ?_⟩
    rw [← List.length_pos_iff, List.length_take, List.length_drop]
    omega
  · rintro ⟨bytes, hbytes, hsome⟩
    obtain ⟨s, offset, hs, hoffset, -, rfl⟩ := (rangeBytes_eq_some hsized).mp hbytes
    refine ⟨offset, Outcome.bind_eq_some.mpr ⟨s, hs, hoffset⟩, ?_⟩
    rw [← List.length_pos_iff, List.length_take, List.length_drop] at hsome
    omega

theorem sketchRange_eq_some {sketch : WholeSketch} (h : sketchRange decode bitness image space start stop = .some sketch) :
    start < stop ∧ sketch.va = start ∧ sketch.size = stop - start ∧
      ∃ bytes, rangeBytes image space start stop = .some bytes ∧ bytes ≠ [] := by
  rw [sketchRange] at h
  split at h
  · cases h
  · rename_i hlt
    obtain ⟨bytes, hbytes, h⟩ := Outcome.bind_eq_some.mp h
    dsimp only at h
    split at h
    · cases h
    · rename_i hsome
      cases h
      refine ⟨by omega, rfl, rfl, bytes, hbytes, fun hempty => hsome ?_⟩
      rw [hempty]
      rfl

/-- The decoder says of any bytes what the first instruction is, and that it has one of them at least. -/
def Decodes (decode : Nat → List UInt8 → Nat → Insn) : Prop :=
  ∀ bitness bytes ip, bytes ≠ [] → 0 < (decode bitness bytes ip).len

theorem exists_sketchRange (hdecodes : Decodes decode) {bytes : List UInt8} (hlt : start < stop)
    (hbytes : rangeBytes image space start stop = .some bytes) (hsome : bytes ≠ []) :
    ∃ sketch, sketchRange decode bitness image space start stop = .some sketch := by
  have hlen := Nat.ne_of_gt (hdecodes bitness bytes start hsome)
  have hinstrs : (rangeFacts ((decodeAll decode bitness bytes start).takeWhile fun d => d.1 < stop)).instructions ≠ 0 := by
    rw [rangeFacts_instructions, decodeAll_of_pos hsome hlen, List.takeWhile_cons_of_pos (by simpa using hlt)]
    exact Nat.succ_ne_zero _
  rw [sketchRange, if_neg (Nat.not_le.mpr hlt), hbytes, Outcome.some_bind]
  dsimp only
  rw [if_neg hinstrs]
  exact ⟨_, rfl⟩

end Lookup

end Windy.Sketch
