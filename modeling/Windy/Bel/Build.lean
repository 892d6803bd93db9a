import Windy.Bel.Overlay
import Windy.Bel.Query

/- The construction of the index (`IndexBuilder` and `BelIndex::build` in `analysis/bel/mod.rs`).

   The builder pushes the functions, the symbols, the strings, the instructions, the annotations and
   the motifs of a project, in this order; then it relates them to the functions they belong to,
   labels functions with the classes their evidence falls in, and computes the tables a query reads.

   A builder carries what the finished index carries: entity `i` has the number `i`, a function's
   number belongs to one address, a slot holds a number that was given out.

   What the decoder, the formatter and the other analyses found is a parameter (`Image`). A build
   that is cancelled gives no index; the checkpoints are left out.

   Correspondence:
     `IndexBuilder::add_functions` ... `add_motifs` ↔ `addFunctions` ... `addMotifs`
     `build_relationships`, `add_ontology`, `build_syncmers` ↔ `buildRelationships`,
       `addOntology`, `buildSyncmers`
     `build_signatures`, `build_hot_table`, `build_name_fst` ↔ `buildSignatures`,
       `buildHotTable`, `buildNameFst`
     `IndexBuilder::finish`, `BelIndex::build` ↔ the same -/
namespace Windy.Bel

/-! ## What is indexed -/

structure Decoded where
  ip : Nat
  immediates : List Nat
  isIndirect : Bool

/-- The image and its analysis. The text of an instruction names the symbols it refers
to. -/
structure Image where
  analysis : Analysis
  strings : List (Nat × Text)
  offsetToVa : Nat → Option Nat
  codeIndex : List Decoded
  format : Map Symbol → Decoded → Text
  xrefsTo : Nat → List Nat
  outgoing : Nat → List Nat
  successors : SsaCache.Function → SsaCache.Block → List Nat
  instrCount : SsaCache.Function → SsaCache.Block → Nat
  imageSha256 : Text

/-- `CodeIndex::window`. -/
def Image.window (image : Image) (va count : Nat) : List Decoded :=
  let before := (image.codeIndex.takeWhile fun d => d.ip < va).length
  let found := (image.codeIndex[before]?).any fun d => d.ip = va
  ((image.codeIndex).drop (if found then before else before - 1)).take count

/-- Lexicographic orders of the sorted tables. -/
def pairLe (left right : Nat × Nat) : Bool := left.1 < right.1 || (left.1 = right.1 && left.2 ≤ right.2)

def rangeLe (left right : Nat × Nat × Nat) : Bool :=
  left.1 < right.1 || (left.1 = right.1 && pairLe left.2 right.2)

def stringLe (left right : Nat × Text) : Bool := left.1 < right.1 || (left.1 = right.1 && left.2 ≤ right.2)

/-! ## The builder -/

structure IndexBuilder where
  entities : List Entity
  normalized : List Text
  functionByVa : Std.ExtTreeMap Nat Nat
  functionRanges : List (Nat × Nat × Nat)
  slots : SlotKey → Option Nat
  tokenPostings : Std.ExtTreeMap Text Ids
  syncmerPostings : Std.ExtTreeMap Nat Ids
  syncmerComplete : Bool
  numeric : List (Nat × Nat)
  propagation : Propagation
  motifs : MotifIndex
  ontology : EvidenceOntology
  id_eq : ∀ i (e : Entity), entities[i]? = some e → e.id = i
  normalized_length : normalized.length = entities.length
  function_lt : ∀ (va id : Nat), functionByVa[va]? = some id → id < entities.length
  function_inj : ∀ (va va' : Nat) (id : Nat), functionByVa[va]? = some id → functionByVa[va']? = some id → va = va'
  slot_lt : ∀ key id, slots key = some id → id < entities.length

namespace IndexBuilder

theorem new_length : ([] : List Text).length = ([] : List Entity).length := rfl

def new : IndexBuilder where
  entities := []
  normalized := []
  functionByVa := ∅
  functionRanges := []
  slots := fun _ => none
  tokenPostings := ∅
  syncmerPostings := ∅
  syncmerComplete := true
  numeric := []
  propagation := { surfaceToFuncs := ∅, hotTable := ∅, functionNeighbors := ∅ }
  motifs := { tokens := ∅, entities := ∅ }
  ontology := { classes := ∅, funcLabels := ∅ }
  id_eq := by simp
  normalized_length := new_length
  function_lt := by simp
  function_inj := by simp
  slot_lt := by simp

def newEntity (b : IndexBuilder) (kind : EntityKind) (display : Text) (va fileOffset funcEntry : Option Nat) : Entity :=
  { id := b.entities.length, kind := kind, display := display, va := va, fileOffset := fileOffset,
    funcEntry := funcEntry }

/-- `IndexBuilder::push_entity`; the entity's number is the number of entities before. -/
def pushEntity (b : IndexBuilder) (kind : EntityKind) (display : Text) (va fileOffset funcEntry : Option Nat) :
    IndexBuilder :=
  { b with
    entities := b.entities ++ [b.newEntity kind display va fileOffset funcEntry]
    normalized := b.normalized ++ [normalizeAscii display]
    numeric := b.numeric ++ (va.map fun value => (value, b.entities.length)).toList ++
      (fileOffset.map fun value => (value, b.entities.length)).toList
    id_eq := by
      intro i e h
      rw [List.getElem?_append] at h
      split at h
      · exact b.id_eq i e h
      · rw [List.getElem?_singleton] at h
        split at h
        · obtain rfl := Option.some.inj h
          show b.entities.length = i
          omega
        · cases h
    normalized_length := by simp [b.normalized_length]
    function_lt := by
      intro va id h
      have hlt := b.function_lt va id h
      simp only [List.length_append, List.length_singleton]
      omega
    slot_lt := by
      intro key id h
      have hlt := b.slot_lt key id h
      simp only [List.length_append, List.length_singleton]
      omega }

/-- Pushes the entity of a function and enters its address and its range. -/
def pushFunction (b : IndexBuilder) (display : Text) (va last : Nat) : IndexBuilder :=
  { b.pushEntity .function display (some va) none (some va) with
    functionByVa := b.functionByVa.insert va b.entities.length
    functionRanges := b.functionRanges ++ [(va, last, b.entities.length)]
    function_lt := by
      intro key id h
      rw [Std.ExtTreeMap.getElem?_insert] at h
      show id < (b.entities ++ [_]).length
      simp only [List.length_append, List.length_singleton]
      split at h
      · obtain rfl := Option.some.inj h
        omega
      · have hlt := b.function_lt key id h
        omega
    function_inj := by
      intro key key' id h h'
      rw [Std.ExtTreeMap.getElem?_insert] at h h'
      split at h <;> split at h'
      · simp_all
      · obtain rfl := Option.some.inj h
        exact absurd (b.function_lt key' _ h') (lt_irrefl _)
      · obtain rfl := Option.some.inj h'
        exact absurd (b.function_lt key _ h) (lt_irrefl _)
      · exact b.function_inj key key' id h h' }

/-- Pushes the entity of an annotation and enters its slot. -/
def pushSlot (b : IndexBuilder) (slot : SlotKey) (kind : EntityKind) (display : Text) (va funcEntry : Option Nat) :
    IndexBuilder :=
  { b.pushEntity kind display va none funcEntry with
    slots := fun key => if key = slot then some b.entities.length else b.slots key
    slot_lt := by
      intro key id h
      show id < (b.entities ++ [_]).length
      simp only [List.length_append, List.length_singleton]
      split at h
      · obtain rfl := Option.some.inj h
        omega
      · have hlt := b.slot_lt key id h
        omega }

/-! ## Entities -/

/-- The last address of a function. -/
def functionEnd (function : SsaCache.Function) : Nat :=
  ((function.blocks.map SsaCache.Block.exitVa).max?).getD function.entryVa

def addFunctions (image : Image) (p : Project) (b : IndexBuilder) : IndexBuilder :=
  let b := image.analysis.functions.foldl
    (fun b function => b.pushFunction (function.name p).toList function.entryVa (functionEnd function)) b
  { b with functionRanges := b.functionRanges.insertionSort fun left right => rangeLe left right }

/-- `owner_function_va`: the last function that starts at or before the address, if it
reaches that far. -/
def ownerFunctionVa (b : IndexBuilder) (va : Nat) : Option Nat :=
  match (b.functionRanges.takeWhile fun range => range.1 ≤ va).getLast? with
  | some (_, last, id) => if va ≤ last then (b.entities[id]?).bind Entity.va else none
  | none => none

def addSymbols (p : Project) (b : IndexBuilder) : IndexBuilder :=
  (entriesOf p.symbols).foldl
    (fun b entry => b.pushSlot { kind := .symbol, va := entry.1 } (symbolEntityKind entry.2.kind) entry.2.name.toList
      (some entry.1) (b.ownerFunctionVa entry.1)) b

def addStrings (image : Image) (b : IndexBuilder) : IndexBuilder :=
  (image.strings.insertionSort fun left right => stringLe left right).foldl
    (fun b string => b.pushEntity .string string.2 (image.offsetToVa string.1) (some string.1) none) b

/-- `insert_instruction_tokens`. -/
def insertInstructionTokens (postings : Std.ExtTreeMap Text Ids) (text : Text) (id : Nat) (function : Option Nat) :
    Std.ExtTreeMap Text Ids :=
  (((tokensOf text).filter (· ≠ [])).map normalizeAscii).foldl
    (fun postings token => (id :: function.toList).foldl (fun postings id => post postings token id) postings) postings

/-- The cursor over the functions only moves forward, as the instructions are in order. -/
def advanceRange (ranges : List (Nat × Nat × Nat)) (cursor ip : Nat) : Nat :=
  cursor + ((ranges.drop (cursor + 1)).takeWhile fun range => range.1 ≤ ip).length

def addInstruction (image : Image) (p : Project) (state : Nat × IndexBuilder) (decoded : Decoded) :
    Nat × IndexBuilder :=
  let b := state.2
  let cursor := advanceRange b.functionRanges state.1 decoded.ip
  let function := ((b.functionRanges[cursor]?).filter fun range =>
    range.1 ≤ decoded.ip && decoded.ip ≤ range.2.1).map fun range => range.2.2
  let functionVa := (function.bind fun id => b.entities[id]?).bind Entity.va
  let display := image.format p.symbols decoded
  let id := b.entities.length
  let b := b.pushEntity .instruction display (some decoded.ip) none functionVa
  (cursor, { b with
    tokenPostings := insertInstructionTokens b.tokenPostings display id function
    numeric := b.numeric ++ decoded.immediates.map fun value => (value, id) })

def addInstructions (image : Image) (p : Project) (b : IndexBuilder) : IndexBuilder :=
  (image.codeIndex.foldl (addInstruction image p) (0, b)).2

/-- The symbols are in the index already. -/
def addAnnotations (image : Image) (p : Project) (b : IndexBuilder) : IndexBuilder :=
  ((sortedSlots image.analysis p).filter fun slot => slot.slot.kind ≠ .symbol).foldl
    (fun b slot => b.pushSlot slot.slot slot.kind slot.display slot.va slot.functionVa) b

/-! ## Motifs -/

/-- The motifs in the order of their names, and when a function shows one. -/
def motifRules (image : Image) : List (String × (SsaCache.Function → Bool)) :=
  [("conditional_control", fun function => function.blocks.any fun block => 1 < (image.successors function block).length),
   ("dispatcher", fun function => 5 ≤ (image.outgoing function.entryVa).length),
   ("indirect_dispatch", fun function => function.blocks.any fun block =>
      (image.window block.entryVa (image.instrCount function block)).any Decoded.isIndirect),
   ("leaf_function", fun function => (image.outgoing function.entryVa).isEmpty),
   ("loop_backedge", fun function => function.blocks.any fun block =>
      (image.successors function block).any fun target => target ≠ 0 && target ≤ block.entryVa)]

/-- The functions that show a motif. -/
def motifFunctions (image : Image) (b : IndexBuilder) (shows : SsaCache.Function → Bool) : Ids :=
  Std.ExtTreeSet.ofList
    ((image.analysis.functions.filter shows).filterMap fun function => b.functionByVa[function.entryVa]?) compare

def pushMotif (b : IndexBuilder) (name : Text) (functions : Ids) : IndexBuilder :=
  { b.pushEntity .motif name none none none with
    motifs :=
      { tokens := b.motifs.tokens.insert name functions
        entities := b.motifs.entities.insert name b.entities.length }
    propagation := { b.propagation with
      surfaceToFuncs := b.propagation.surfaceToFuncs.insert b.entities.length functions } }

def addMotif (image : Image) (b : IndexBuilder) (rule : String × (SsaCache.Function → Bool)) : IndexBuilder :=
  if (motifFunctions image b rule.2).isEmpty then b
  else b.pushMotif rule.1.toList (motifFunctions image b rule.2)

def addMotifs (image : Image) (b : IndexBuilder) : IndexBuilder :=
  (motifRules image).foldl (addMotif image) b

/-! ## Relationships -/

/-- The functions an entity belongs to: its own, and those that refer to its address. -/
def functionsOf (image : Image) (b : IndexBuilder) (e : Entity) : List Nat :=
  if e.kind = .instruction ∨ e.kind = .function then []
  else (e.funcEntry.bind fun va => b.functionByVa[va]?).toList ++
    ((e.va.map image.xrefsTo).getD []).filterMap fun source =>
      (b.ownerFunctionVa source).bind fun owner => b.functionByVa[owner]?

/-- The calls between functions, both ways. -/
def neighborsOf (image : Image) (b : IndexBuilder) : List (Nat × Nat) :=
  image.analysis.functions.flatMap fun function =>
    (image.outgoing function.entryVa).flatMap fun target =>
      match b.functionByVa[function.entryVa]?, b.functionByVa[target]? with
      | some source, some target => [(source, target), (target, source)]
      | _, _ => []

def buildRelationships (image : Image) (b : IndexBuilder) : IndexBuilder :=
  { b with propagation := { b.propagation with
      surfaceToFuncs := b.entities.foldl (fun surface e =>
        (functionsOf image b e).foldl (fun surface function => post surface e.id function) surface)
        b.propagation.surfaceToFuncs
      functionNeighbors := (neighborsOf image b).foldl (fun neighbors edge => post neighbors edge.1 edge.2)
        b.propagation.functionNeighbors } }

/-! ## The ontology -/

def ontologyClasses : List (String × List String) :=
  [("network", ["socket", "connect", "recv", "send", "winhttp", "internet"]),
   ("crypto", ["bcrypt", "crypt", "aes", "sha", "md5", "chacha", "encrypt", "decrypt"]),
   ("filesystem", ["createfile", "readfile", "writefile", "deletefile", "path"]),
   ("process", ["createprocess", "openprocess", "thread", "process"]),
   ("memory", ["virtualalloc", "virtualfree", "heapalloc", "memcpy", "memmove"]),
   ("registry", ["regopen", "regquery", "regset", "registry"]),
   ("user_interface", ["createwindow", "messagebox", "dispatchmessage", "dialog"])]

def union (left right : Ids) : Ids := right.toList.foldl (fun ids id => ids.insert id) left

/-- The functions with evidence that contains one of the words. -/
def classMembers (b : IndexBuilder) (needles : List String) : Ids :=
  (b.entities.zip b.normalized).foldl (fun functions entry =>
    if entry.1.kind ≠ .ontologyClass ∧ needles.any fun needle => containsText entry.2 needle.toList then
      union functions (b.propagation.surfaceToFuncs[entry.1.id]?.getD ∅)
    else functions) ∅

/-- Pushes a class with its functions, and labels them with it. -/
def pushClass (b : IndexBuilder) (name : Text) (functions : Ids) : IndexBuilder :=
  let id := b.entities.length
  let b := b.pushEntity .ontologyClass name none none none
  { b with
    ontology :=
      { classes := b.ontology.classes.insert name id
        funcLabels := functions.toList.foldl (fun labels function => post labels function id) b.ontology.funcLabels }
    propagation := { b.propagation with
      surfaceToFuncs := b.propagation.surfaceToFuncs.insert id functions } }

/-- The classes that two base classes share functions in. -/
def commonClasses : List (String × Ids) → List (Text × Ids)
  | [] => []
  | (left, functions) :: rest =>
    (rest.filterMap fun (right, others) =>
      let common := functions.filter (· ∈ others)
      if common.isEmpty then none else some (left.toList ++ '+' :: right.toList, common)) ++ commonClasses rest

/-- The root class comes first. -/
def pushRoot (b : IndexBuilder) : IndexBuilder :=
  { b.pushEntity .ontologyClass "evidence".toList none none none with
    ontology := { b.ontology with classes := b.ontology.classes.insert "evidence".toList b.entities.length } }

/-- Enters the functions of a class. -/
def setFunctions (b : IndexBuilder) (id : Nat) (functions : Ids) : IndexBuilder :=
  { b with propagation := { b.propagation with
      surfaceToFuncs := b.propagation.surfaceToFuncs.insert id functions } }

/-- The base classes, the functions of the root, and the classes two base classes share. -/
def addOntology (b : IndexBuilder) : IndexBuilder :=
  let classes := ontologyClasses.map fun (name, needles) => (name, classMembers b.pushRoot needles)
  let based := classes.foldl (fun b entry => b.pushClass entry.1.toList entry.2) b.pushRoot
  let rooted := based.setFunctions b.entities.length (classes.foldl (fun functions entry => union functions entry.2) ∅)
  (commonClasses classes).foldl (fun b entry => b.pushClass entry.1 entry.2) rooted

/-! ## Tables -/

/-- The postings collected so far and their number; none once the budget was exceeded. -/
abbrev Syncmers := Option (Std.ExtTreeMap Nat Ids × Nat)

/-- One text of `build_syncmers`. The number of distinct hashes only grows along a text,
so it is compared with the budget once. -/
def addSyncmers (config : BelConfig) (budget : Nat) (state : Syncmers) (entry : Text × Nat) : Syncmers :=
  state.bind fun (postings, occurrences) =>
    let unique := closedSyncmerHashes (asBytes entry.1) config.syncmerK config.syncmerS
    if budget < occurrences + unique.length then none
    else some (unique.foldl (fun postings hash => post postings hash entry.2) postings, occurrences + unique.length)

/-- A quarter of the memory budget, in ids of four bytes. -/
def occurrenceBudget (config : BelConfig) : Nat := min (config.memoryBudgetMb * 1048576) (2 ^ 64 - 1) / 4 / 4

def buildSyncmers (config : BelConfig) (b : IndexBuilder) : IndexBuilder :=
  match b.normalized.zipIdx.foldl (addSyncmers config (occurrenceBudget config)) (some (∅, 0)) with
  | some (postings, _) => { b with syncmerPostings := postings }
  | none => { b with syncmerPostings := ∅, syncmerComplete := false }

/-- The texts in order, each with the ids that have it. -/
def groupNames (sorted : List (Text × Nat)) : List (Text × Ids) :=
  sorted.foldl (fun grouped entry =>
    match grouped.getLast? with
    | some (last, postings) =>
      if last = entry.1 then grouped.dropLast ++ [(last, postings.insert entry.2)]
      else grouped ++ [(entry.1, (∅ : Ids).insert entry.2)]
    | none => [(entry.1, (∅ : Ids).insert entry.2)]) []

/-- The texts with their positions, by text and then by position. -/
def sortedTexts (normalized : List Text) : List (Text × Nat) :=
  normalized.zipIdx.insertionSort fun left right => left.1 < right.1 ∨ (left.1 = right.1 ∧ left.2 ≤ right.2)

def buildNameFst (normalized : List Text) : NameFst :=
  let grouped := groupNames (sortedTexts normalized)
  { map := (grouped.zipIdx).foldl (fun map entry => map.insert entry.1.1 entry.2) ∅
    postings := grouped.map Prod.snd
    sortedIds := (sortedTexts normalized).map Prod.snd }

/-- The evidence that few functions share, the rarest first. -/
def rareVocab (config : BelConfig) (b : IndexBuilder) : List Nat :=
  (((b.propagation.surfaceToFuncs.toList.filter fun entry =>
    0 < entry.2.size && entry.2.size ≤ config.rarityThreshold &&
      ((b.entities[entry.1]?).all fun e => e.kind ≠ .instruction && e.kind ≠ .function)).map fun entry =>
        (entry.2.size, entry.1)).insertionSort fun left right => pairLe left right).map Prod.snd

def buildSignatures (config : BelConfig) (b : IndexBuilder) : SignatureStore :=
  let rare := rareVocab config b
  { signatures := (List.range b.functionByVa.size).map fun function =>
      rare.foldl (fun signature evidence =>
        if function ∈ b.propagation.surfaceToFuncs[evidence]?.getD ∅ then
          Signature.insert signature evidence config.signatureWidthBits
        else signature) ∅
    rareVocab := rare
    rareLookup := Std.ExtTreeSet.ofList rare compare
    widthBits := config.signatureWidthBits }

/-- The evidence with the most functions. -/
def buildHotTable (config : BelConfig) (b : IndexBuilder) : Std.ExtTreeMap Nat Ids :=
  (((b.propagation.surfaceToFuncs.toList).insertionSort fun left right =>
    pairLe (right.2.size, right.1) (left.2.size, left.1)).take config.hotTableSize).foldl
      (fun table entry => table.insert entry.1 entry.2) b.propagation.hotTable

/-- What an index is known by: the image and the configuration it was built with. -/
def generationOf (image : Image) (config : BelConfig) : Nat :=
  stableU64Hash (asBytes (image.imageSha256 ++ ':' :: (toString config.syncmerK).toList ++
    ':' :: (toString config.syncmerS).toList ++ ':' :: (toString config.signatureWidthBits).toList))

/-- Sorted, without repetitions. -/
def sortDedup (numeric : List (Nat × Nat)) : List (Nat × Nat) := (sortNumeric numeric).dedup

/-- The index of a builder that holds everything. -/
def freeze (image : Image) (config : BelConfig) (b : IndexBuilder) : BelIndex :=
  { entities := b.entities
    normalized := b.normalized
    nameFst := buildNameFst b.normalized
    kindPostings := fun kind => Std.ExtTreeSet.ofList ((b.entities.filter (·.kind = kind)).map Entity.id) compare
    tokenPostings := b.tokenPostings
    syncmerPostings :=
      { map := b.syncmerPostings, k := config.syncmerK, s := config.syncmerS, complete := b.syncmerComplete }
    numeric := sortDedup b.numeric
    signatures := b.buildSignatures config
    propagation := { b.propagation with hotTable := b.buildHotTable config }
    ontology := b.ontology
    motifs := b.motifs
    functionByVa := b.functionByVa
    slots := b.slots
    config := config
    generation := generationOf image config
    id_eq := b.id_eq
    normalized_length := b.normalized_length
    function_inj := b.function_inj
    slot_lt := b.slot_lt }

def finish (image : Image) (config : BelConfig) (b : IndexBuilder) : BelIndex :=
  ((b.buildRelationships image).addOntology.buildSyncmers config).freeze image config

end IndexBuilder

/-! ## The build -/

inductive BelBuildError where
  | tooManyEntities
  | invalidConfig (reason : String)
  deriving DecidableEq, Repr

def BelConfig.validate (config : BelConfig) : Except BelBuildError Unit :=
  if config.syncmerK = 0 ∨ config.syncmerS = 0 ∨ config.syncmerK ≤ config.syncmerS then
    .error (.invalidConfig "syncmer parameters require 0 < s < k")
  else if config.signatureWidthBits = 0 ∨ config.signatureWidthBits % 64 ≠ 0 then
    .error (.invalidConfig "signature_width_bits must be a non-zero multiple of 64")
  else if config.deadlineCheckInterval = 0 then
    .error (.invalidConfig "deadline_check_interval must be non-zero")
  else if config.enableFmIndex then
    .error (.invalidConfig ("FM-index is optional and not enabled in this build; " ++
      "use complete syncmer/linear substring search"))
  else .ok ()

/-- The entities in the order of `BelIndex::build`. -/
def IndexBuilder.gathered (image : Image) (p : Project) : IndexBuilder :=
  (((((IndexBuilder.new.addFunctions image p).addSymbols p).addStrings image).addInstructions image p).addAnnotations
    image p).addMotifs image

/-- The numbers of entities have 32 bits. -/
def BelIndex.build (image : Image) (p : Project) (config : BelConfig) : Except BelBuildError BelIndex := do
  config.validate
  let index := (IndexBuilder.gathered image p).finish image config
  if 2 ^ 32 < index.entities.length then .error .tooManyEntities else .ok index

end Windy.Bel
