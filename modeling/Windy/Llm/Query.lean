import Windy.Analysis.Functions
import Windy.Bel.Query
import Windy.Lib.Listing

/- The listing queries that claims are checked with (`llm/query.rs`): the callees of a
   function, the strings it references, and the imported functions it calls.

   Each list is cut at 32 elements. The callees are cut after consecutive edges to one
   target have been merged. The strings are those at the distinct data addresses the
   instructions refer to, in the order of the code.

   What is proved:
     1. `mem_functionCallees_iff`: a callee is listed when fewer than 32 runs of call
        edges come before the first edge to it.
     2. `stringsInFunction_eq`: the strings listed are the first 32 of all strings.
     3. `apisCalled_prefix`: of the imported functions at least the first 32 are listed,
        and nothing else is.

   Correspondence:
     `function_callees`, `strings_in_function`, `apis_called`, `callers_with_args` ↔ the
       definitions of these names
     `try_read_string_at_va`, `read_printable_asciiz`, `read_printable_utf16le`,
       `memory_target_va`, `imported_api_for_instruction` ↔ the same
     `symbol_or_hex`, `containing_function_name` ↔ the same
   The loops over the references and the instructions, with their cut, are
   `Listing.collectFirst` and `Listing.collectNew`. -/
namespace Windy.Llm

/-- `MAX_LIST`. -/
def maxList : Nat := 32

/-! ## Texts -/

/-- `str::contains`. -/
def contains (text needle : String) : Bool := Bel.containsText text.toList needle.toList

/-- `str::strip_prefix`. -/
def stripPrefix (lead text : String) : Option String :=
  if lead.toList.isPrefixOf text.toList then some (String.ofList (text.toList.drop lead.toList.length)) else none

/-- `{:#x}`. -/
def hexAlt (n : Nat) : String := "0x" ++ String.ofList (Nat.toDigits 16 n)

/-! ## What the queries read -/

structure Xref where
  fromVa : Nat
  isCall : Bool

/-- The database of known signatures. -/
structure SigDb where
  lookupByName : String → Option FunctionSignature
  /-- The names of the functions a library exports. -/
  signaturesForDll : String → List String

/-- A project with its analysis. `recoverSignature` and `debugText` stand for the recovery
of signatures and for how the formatter quotes a text. -/
structure Program where
  project : Project
  functions : FunctionTable
  codeIndex : CodeIndex
  addressSpace : AddressSpace
  image : List Nat
  bitness : Nat
  xrefsTo : Nat → List Xref
  sigDb : SigDb
  recoverSignature : Function → Option FunctionSignature
  debugText : String → String

section Queries
variable (p : Program)

/-- `function_at`. -/
def functionAt (va : Nat) : Option Function := p.functions.get va

/-- `symbol_or_hex`. -/
def symbolOrHex (va : Nat) : String := (p.project.symbolName va).getD ("FUN_" ++ String.ofList (Bel.padHex 8 va))

/-- `Function::name`: the old automatic names are shown under the new prefix. -/
def functionName (f : Function) : String :=
  let raw := symbolOrHex p f.entryVa
  match stripPrefix "sub_" raw with
  | some rest => "FUN_" ++ rest
  | none => raw

/-- `containing_function_name`. -/
def containingFunctionName (va : Nat) : String :=
  match p.functions.find? fun f => f.entryVa ≤ va && va ≤ (f.blocks.getLast?.map BasicBlock.exitVa).getD f.entryVa with
  | some f => functionName p f
  | none => symbolOrHex p va

/-! ## Callees -/

/-- The targets of the call edges of a function. -/
def callTargets (f : Function) : List Nat :=
  f.blocks.flatMap fun b => (b.successors.filter fun e => e.kind = .call).map Edge.target

/-- The call edges as `function_callees` pushes them: an edge to zero is left out. -/
def calleeEdges (f : Function) : List (Nat × String) :=
  f.blocks.flatMap fun b =>
    (b.successors.filter fun e => e.kind = .call && e.target ≠ 0).map fun e => (e.target, symbolOrHex p e.target)

/-- `function_callees`. -/
def functionCallees (va : Nat) : List (Nat × String) :=
  match functionAt p va with
  | none => []
  | some f => ((calleeEdges p f).destutter fun a b => a.1 ≠ b.1).take maxList

/-! ## Strings -/

structure StringRef where
  va : Nat
  value : String
  encoding : String

/-- `is_ascii_graphic() || is_ascii_whitespace()`. -/
def isPrintable (b : Nat) : Bool := (0x21 ≤ b && b ≤ 0x7e) || b = 0x20 || b = 0x09 || b = 0x0a || b = 0x0c || b = 0x0d

def textOf (units : List Nat) : String := String.ofList (units.map Char.ofNat)

/-- `read_printable_asciiz`: the printable bytes at the beginning. -/
def readPrintableAsciiz (va maxLen minLen : Nat) : Option String :=
  (p.addressSpace.sliceForVa p.image va maxLen).bind fun bytes =>
    let run := bytes.takeWhile isPrintable
    if run.length < minLen then none else some (textOf run)

/-- The code units up to the zero, unless one of them is a control character. -/
def readUnits : Nat → List Nat → Option (List Nat)
  | limit + 1, lo :: hi :: rest =>
    let u := lo + 256 * hi
    if u = 0 then some []
    else if (u < 0x20 && u ≠ 0x09 && u ≠ 0x0a && u ≠ 0x0d) || (0x7f ≤ u && u < 0xa0) then none
    else (readUnits limit rest).map (u :: ·)
  | _, _ => some []

/-- `read_printable_utf16le`. A text with anything but printable ASCII is refused, so the
decoding of UTF-16 never matters. -/
def readPrintableUtf16le (va maxChars minLen : Nat) : Option String :=
  (p.addressSpace.sliceForVa p.image va (maxChars * 2 + 2)).bind fun bytes =>
    (readUnits maxChars bytes).bind fun units =>
      if units.length < minLen || !units.all isPrintable then none else some (textOf units)

/-- `try_read_string_at_va`. -/
def tryReadStringAtVa (va minLen : Nat) : Option StringRef :=
  match readPrintableAsciiz p va 256 minLen with
  | some s => some ⟨va, s, "ascii"⟩
  | none => (readPrintableUtf16le p va 256 minLen).map fun s => ⟨va, s, "utf16"⟩

/-- `memory_target_va`: only constant addresses are known. -/
def memoryTargetVa (d : DecodedInstr) (um : UsedMemory) : Nat :=
  if um.base = .rip ∨ um.base = .eip then (d.nextIp + um.displacement) % 2 ^ 64
  else if um.base = .none ∧ um.index = .none then um.displacement
  else 0

/-- An immediate that may be the address of a string. -/
def isPointerImmediate (kind : OpKind) : Bool :=
  kind = .immediate64 || kind = .immediate32to64 || (kind = .immediate32 && p.bitness = 32)

/-- The data addresses an instruction refers to: those of its memory operands, then its
immediates. -/
def dataRefs (d : DecodedInstr) : List Nat :=
  (d.usedMemory.map (memoryTargetVa d) ++ (d.operands.filter fun o => isPointerImmediate p o.1).map Prod.snd).filter
    fun va => va ≠ 0 && p.addressSpace.isDataVa va

/-- The instructions from one address up to that of the last. -/
def blockInstrs (exitVa : Nat) : Nat → Nat → List DecodedInstr
  | 0, _ => []
  | fuel + 1, cur =>
    match p.codeIndex.atVa cur with
    | none => []
    | some d => d :: if cur = exitVa then [] else blockInstrs exitVa fuel d.nextIp

/-- The data addresses a function refers to, in the order of the code. -/
def functionRefs (f : Function) : List Nat :=
  f.blocks.flatMap fun b => (blockInstrs p b.exitVa p.codeIndex.instrs.length b.entryVa).flatMap (dataRefs p)

/-- `strings_in_function`. -/
def stringsInFunction (va minLen : Nat) : List StringRef :=
  match functionAt p va with
  | none => []
  | some f => Listing.collectFirst (tryReadStringAtVa p · minLen) maxList [] [] (functionRefs p f)

/-! ## Imported functions -/

/-- `imported_api_for_instruction`, with `rip_relative_target_va`. -/
def importedApiForInstruction (d : DecodedInstr) : Option String :=
  if d.flowControl = .indirectCall ∧ p.bitness = 64 ∧ d.memoryBase = .rip ∧ d.memoryIndex = .none then
    (p.project.symbolName d.ipRelMemoryAddress).bind (stripPrefix "__imp_")
  else none

/-- The imported functions whose thunks are called. -/
def thunkApis (va : Nat) : List String := (functionCallees p va).filterMap fun callee => stripPrefix "__imp_" callee.2

/-- The imported functions called through their slots. -/
def slotApis (f : Function) : List String :=
  f.blocks.flatMap fun b =>
    ((p.codeIndex.window b.entryVa b.instrCount).take b.instrCount).filterMap (importedApiForInstruction p)

/-- `apis_called`. -/
def apisCalled (va : Nat) : List String :=
  match functionAt p va with
  | none => []
  | some f => Listing.collectNew maxList ((thunkApis p va).foldl Listing.pushNew []) (slotApis p f)

/-! ## Callers -/

structure CallerContext where
  fromVa : Nat
  caller : String
  args : Nat

/-- `callers_with_args`; of the arguments only their number is read. -/
def callersWithArgs (va : Nat) : List CallerContext :=
  let targetSig := (functionAt p va).bind fun f => f.signature.or (p.recoverSignature f)
  (((p.xrefsTo va).filter Xref.isCall).take maxList).map fun x =>
    { fromVa := x.fromVa, caller := containingFunctionName p x.fromVa
      args := (targetSig.map fun s => s.params.length).getD 0 }

/-! ## What the lists hold -/

theorem calleeEdges_eq (f : Function) :
    calleeEdges p f = ((callTargets f).filter (· ≠ 0)).map fun t => (t, symbolOrHex p t) := by
  simp only [calleeEdges, callTargets, List.filter_flatMap, List.map_flatMap]
  refine List.flatMap_congr fun b _ => ?_
  rw [List.filter_map, List.map_map, List.filter_filter]
  congr 1
  refine List.filter_congr fun e _ => ?_
  simp [Bool.and_comm]

/-- A callee is listed when fewer than 32 runs of call edges come before the first to it. -/
theorem mem_functionCallees_iff {va : Nat} {f : Function} (hf : functionAt p va = some f) (t : Nat) (name : String) :
    (t, name) ∈ functionCallees p va ↔
      name = symbolOrHex p t ∧ t ≠ 0 ∧ t ∈ callTargets f ∧
        ((((callTargets f).filter (· ≠ 0)).takeWhile (· ≠ t)).destutter (· ≠ ·)).length < maxList := by
  have hmap : (calleeEdges p f).destutter (fun a b => a.1 ≠ b.1) =
      (((callTargets f).filter (· ≠ 0)).destutter (· ≠ ·)).map fun t => (t, symbolOrHex p t) := by
    rw [calleeEdges_eq]
    symm
    apply List.map_destutter
    intro a _ b _
    exact Iff.rfl
  simp only [functionCallees, hf, hmap, ← List.map_take, List.mem_map, Prod.mk.injEq]
  have hlisted := Listing.mem_take_destutter_iff t maxList ((callTargets f).filter (· ≠ 0))
  rw [List.mem_filter] at hlisted
  constructor
  · rintro ⟨t', hmem, rfl, rfl⟩
    obtain ⟨⟨hin, hne⟩, hfew⟩ := hlisted.mp hmem
    exact ⟨rfl, by simpa using hne, hin, hfew⟩
  · rintro ⟨rfl, hne, hin, hfew⟩
    exact ⟨t, hlisted.mpr ⟨⟨hin, by simpa using hne⟩, hfew⟩, rfl, rfl⟩

/-- All strings a function refers to. -/
def stringLiterals (f : Function) (minLen : Nat) : List StringRef :=
  Listing.found (tryReadStringAtVa p · minLen) (functionRefs p f)

/-- The strings listed are the first 32. -/
theorem stringsInFunction_eq {va : Nat} {f : Function} (hf : functionAt p va = some f) (minLen : Nat) :
    stringsInFunction p va minLen = (stringLiterals p f minLen).take maxList := by
  simp only [stringsInFunction, hf]
  exact Listing.collectFirst_start _ (by decide) _

/-- The imported functions a function calls, each once: those of the thunks among its
listed callees, then those called through their slots. -/
def importedApis (va : Nat) (f : Function) : List String := (thunkApis p va ++ slotApis p f).foldl Listing.pushNew []

theorem apisCalled_prefix {va : Nat} {f : Function} (hf : functionAt p va = some f) :
    (importedApis p va f).take maxList <+: apisCalled p va ∧ apisCalled p va <+: importedApis p va f := by
  simp only [apisCalled, hf, importedApis, List.foldl_append]
  exact Listing.collectNew_prefix _ _ _

end Queries

end Windy.Llm
