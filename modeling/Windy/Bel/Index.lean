import Mathlib.Data.Finmap
import Mathlib.Data.Finset.Card
import Windy.Analysis.Sketch
import Windy.Lib.Utf8

/- The evidence index and its overlay (`analysis/bel/mod.rs`).

   The index is built once from the image and the annotations of one revision. An overlay records
   what differs at a later revision: entities of its own, numbered behind those of the index,
   tombstones for base entities that were replaced, and overrides for functions that were renamed. A
   lookup looks through both.

   `IndexData` holds the tables of an index, whatever is in them: a file of the disk cache may hold
   anything. A `BelIndex` is one whose tables fit together: it carries that entity `i` has the
   number `i`. An overlay carries that its entities are numbered from the length of its base on.

   Texts are lists of characters; their order is that of the encoded bytes. Numbers are natural: no
   operation here comes near the end of `u32` or `u64`. Every map of the source is an extensional
   tree map and every bitmap an extensional tree set:
   where the source iterates a hash map it sorts what it gets. A signature is the set of its bits,
   and all signatures of an index have one width.

   Correspondence:
     `Entity`, `Overlay` ↔ the same
     `BelIndex` ↔ `IndexData`; `BelIndex` for an index that was built
     `BelIndex::entity`, `normalized`, `display` ↔ `IndexData.entity`, `normalizedAt`, `displayAt`
     `Overlay::entity`, `normalized`, `display` ↔ `Overlay.entity`, `normalizedAt`, `displayAt`
     `Overlay::empty`, `push_entity`, `normalize_ascii`, `stable_u64_hash` ↔ the same
   Statistics and the cached snapshot are left out. -/
namespace Windy.Bel

abbrev Text := List Char

abbrev Ids := Std.ExtTreeSet Nat

/-! ## Texts and hashes -/

/-- `normalize_ascii`. -/
def normalizeAscii (text : Text) : Text := text.map Char.toLower

/-- `str::contains`. -/
def containsText (text needle : Text) : Bool := text.tails.any fun tail => needle.isPrefixOf tail

/-- `str::trim`. -/
def trim (text : Text) : Text :=
  ((text.dropWhile Sketch.isWhitespace).reverse.dropWhile Sketch.isWhitespace).reverse

/-- Hexadecimal with leading zeros (`{:016x}`, `{:08x}`). -/
def padHex (width n : Nat) : Text :=
  let digits := Nat.toDigits 16 n
  List.replicate (width - digits.length) '0' ++ digits

/-- The UTF-8 encoding. -/
def encodeChar (c : Char) : List Nat :=
  let n := c.toNat
  if n < 0x80 then [n]
  else if n < 0x800 then [0xc0 + n / 64, 0x80 + n % 64]
  else if n < 0x10000 then [0xe0 + n / 4096, 0x80 + n / 64 % 64, 0x80 + n % 64]
  else [0xf0 + n / 262144, 0x80 + n / 4096 % 64, 0x80 + n / 64 % 64, 0x80 + n % 64]

def asBytes (text : Text) : List Nat := text.flatMap encodeChar

/-- `stable_u64_hash`. -/
def stableU64Hash (bytes : List Nat) : Nat :=
  bytes.foldl (fun hash byte => (hash ^^^ byte) * 0x100000001b3 % 2 ^ 64) 0xcbf29ce484222325

/-- `u32::to_le_bytes`. -/
def toLeBytes (n : Nat) : List Nat := [n % 256, n / 256 % 256, n / 65536 % 256, n / 16777216 % 256]

/-! ## The index -/

inductive EntityKind where
  | symbol
  | string
  | instruction
  | function
  | import
  | export
  | comment
  | memoryCard
  | type
  | motif
  | ontologyClass
  deriving DecidableEq, Repr

structure Entity where
  id : Nat
  kind : EntityKind
  display : Text
  va : Option Nat
  fileOffset : Option Nat
  funcEntry : Option Nat
  deriving DecidableEq, Repr

/-- The dictionary of normalized names: a key's value addresses its postings. -/
structure NameFst where
  map : Std.ExtTreeMap Text Nat
  postings : List Ids
  sortedIds : List Nat

structure SyncmerPostings where
  map : Std.ExtTreeMap Nat Ids
  k : Nat
  s : Nat
  complete : Bool

/-- `SparseFunctionSignature`: the bits that are set. -/
abbrev Signature := Finset Nat

/-- `SparseFunctionSignature::insert`. -/
def Signature.insert (signature : Signature) (evidence : Nat) (widthBits : Nat) : Signature :=
  if widthBits = 0 then signature
  else Insert.insert (stableU64Hash (toLeBytes evidence) % widthBits) signature

/-- `SparseFunctionSignature::overlap`. -/
def Signature.overlap (left right : Signature) : Nat := (left ∩ right).card

structure SignatureStore where
  signatures : List Signature
  rareVocab : List Nat
  rareLookup : Ids
  widthBits : Nat

structure Propagation where
  surfaceToFuncs : Std.ExtTreeMap Nat Ids
  hotTable : Std.ExtTreeMap Nat Ids
  functionNeighbors : Std.ExtTreeMap Nat Ids

structure EvidenceOntology where
  classes : Std.ExtTreeMap Text Nat
  funcLabels : Std.ExtTreeMap Nat Ids

structure MotifIndex where
  tokens : Std.ExtTreeMap Text Ids
  entities : Std.ExtTreeMap Text Nat

inductive SlotKind where
  | symbol
  | addressComment
  | functionComment
  | memoryCard
  | globalType
  | functionType
  deriving DecidableEq, Repr

structure SlotKey where
  kind : SlotKind
  va : Nat
  deriving DecidableEq, Repr

structure BelConfig where
  syncmerK : Nat
  syncmerS : Nat
  signatureWidthBits : Nat
  rarityThreshold : Nat
  hotTableSize : Nat
  quorum : Nat
  safetyCardinality : Nat
  maxLatticeDepth : Nat
  relationshipDepth : Nat
  enableFmIndex : Bool
  memoryBudgetMb : Nat
  deadlineCheckInterval : Nat
  deriving DecidableEq, Repr

/-- `BelConfig::default()`. -/
def BelConfig.default : BelConfig :=
  { syncmerK := 5, syncmerS := 3, signatureWidthBits := 1024, rarityThreshold := 8, hotTableSize := 256,
    quorum := 2, safetyCardinality := 100000, maxLatticeDepth := 2, relationshipDepth := 1,
    enableFmIndex := false, memoryBudgetMb := 768, deadlineCheckInterval := 4096 }

/-- The tables of an index. -/
structure IndexData where
  entities : List Entity
  normalized : List Text
  nameFst : NameFst
  kindPostings : EntityKind → Ids
  tokenPostings : Std.ExtTreeMap Text Ids
  syncmerPostings : SyncmerPostings
  numeric : List (Nat × Nat)
  signatures : SignatureStore
  propagation : Propagation
  ontology : EvidenceOntology
  motifs : MotifIndex
  functionByVa : Std.ExtTreeMap Nat Nat
  slots : SlotKey → Option Nat
  config : BelConfig
  generation : Nat

/-- The index of one image. A function's number belongs to one address, and a slot
holds a number of the index. -/
structure BelIndex extends IndexData where
  id_eq : ∀ i (e : Entity), entities[i]? = some e → e.id = i
  normalized_length : normalized.length = entities.length
  function_inj : ∀ (va va' : Nat) (id : Nat), functionByVa[va]? = some id → functionByVa[va']? = some id → va = va'
  slot_lt : ∀ key id, slots key = some id → id < entities.length

instance : Coe BelIndex IndexData := ⟨BelIndex.toIndexData⟩

/-! ## The overlay -/

structure Overlay (index : IndexData) where
  entities : List Entity
  normalized : List Text
  names : Std.ExtTreeMap Text Ids
  tombstones : Ids
  surfaceTombstones : Ids
  displayOverrides : Std.ExtTreeMap Nat Text
  normalizedOverrides : Std.ExtTreeMap Nat Text
  signatureDeltas : Std.ExtTreeMap Nat Signature
  surfaceToFuncs : Std.ExtTreeMap Nat Ids
  numeric : List (Nat × Nat)
  generation : Nat
  baseEntityCount : Nat
  base_eq : baseEntityCount = index.entities.length
  id_eq : ∀ i (e : Entity), entities[i]? = some e → e.id = baseEntityCount + i
  normalized_length : normalized.length = entities.length

/-- Adds an id to the postings of a key (`entry(key).or_default().insert(id)`). -/
def post {κ : Type} [Ord κ] [Std.TransOrd κ] (postings : Std.ExtTreeMap κ Ids) (key : κ) (id : Nat) :
    Std.ExtTreeMap κ Ids :=
  postings.insert key ((postings[key]?.getD ∅).insert id)

namespace Overlay

variable {index : IndexData}

/-- `Overlay::empty`. -/
def empty (index : IndexData) (generation : Nat) : Overlay index where
  entities := []
  normalized := []
  names := ∅
  tombstones := ∅
  surfaceTombstones := ∅
  displayOverrides := ∅
  normalizedOverrides := ∅
  signatureDeltas := ∅
  surfaceToFuncs := ∅
  numeric := []
  generation := generation
  baseEntityCount := index.entities.length
  base_eq := rfl
  id_eq := by simp
  normalized_length := rfl

/-- The function an entity of the overlay belongs to. -/
def functionOf (index : IndexData) (functionVa : Option Nat) : Option Nat :=
  functionVa.bind fun va => index.functionByVa[va]?

/-- `signature_deltas.entry(function).or_insert_with(new).insert(id, width)`. -/
def addDelta (index : IndexData) (deltas : Std.ExtTreeMap Nat Signature) (function id : Nat) :
    Std.ExtTreeMap Nat Signature :=
  deltas.insert function ((deltas[function]?.getD ∅).insert id index.config.signatureWidthBits)

/-- The next entity of an overlay. -/
def newEntity (overlay : Overlay index) (kind : EntityKind) (display : Text) (va functionVa : Option Nat) : Entity :=
  { id := overlay.baseEntityCount + overlay.entities.length, kind := kind, display := display, va := va,
    fileOffset := none, funcEntry := functionVa }

theorem pushEntity_id (overlay : Overlay index) (kind : EntityKind) (display : Text) (va functionVa : Option Nat)
    (i : Nat) (e : Entity) (h : (overlay.entities ++ [overlay.newEntity kind display va functionVa])[i]? = some e) :
    e.id = overlay.baseEntityCount + i := by
  rw [List.getElem?_append] at h
  split at h
  · exact overlay.id_eq i e h
  · rw [List.getElem?_singleton] at h
    split at h
    · obtain rfl := Option.some.inj h
      show overlay.baseEntityCount + overlay.entities.length = overlay.baseEntityCount + i
      omega
    · cases h

theorem pushEntity_length (overlay : Overlay index) (kind : EntityKind) (display normalized : Text)
    (va functionVa : Option Nat) : (overlay.normalized ++ [normalized]).length =
      (overlay.entities ++ [overlay.newEntity kind display va functionVa]).length := by
  simp [overlay.normalized_length]

/-- `Overlay::push_entity`. -/
def pushEntity (overlay : Overlay index) (kind : EntityKind) (display normalized : Text)
    (va functionVa : Option Nat) : Overlay index :=
  let id := overlay.baseEntityCount + overlay.entities.length
  { overlay with
    entities := overlay.entities ++ [overlay.newEntity kind display va functionVa]
    normalized := overlay.normalized ++ [normalized]
    names := post overlay.names normalized id
    numeric := overlay.numeric ++ (va.map fun value => (value, id)).toList
    surfaceToFuncs := match functionOf index functionVa with
      | some function => post overlay.surfaceToFuncs id function
      | none => overlay.surfaceToFuncs
    signatureDeltas := match functionOf index functionVa with
      | some function => addDelta index overlay.signatureDeltas function id
      | none => overlay.signatureDeltas
    id_eq := overlay.pushEntity_id kind display va functionVa
    normalized_length := overlay.pushEntity_length kind display normalized va functionVa }

def entity (overlay : Overlay index) (id : Nat) : Option Entity :=
  if id < overlay.baseEntityCount then none else overlay.entities[id - overlay.baseEntityCount]?

def normalizedAt (overlay : Overlay index) (id : Nat) : Option Text :=
  overlay.normalizedOverrides[id]?.or
    (if id < overlay.baseEntityCount then none else overlay.normalized[id - overlay.baseEntityCount]?)

def displayAt (overlay : Overlay index) (id : Nat) : Option Text := overlay.displayOverrides[id]?

end Overlay

/-! ## Lookups -/

namespace IndexData

variable (index : IndexData) (overlay : Overlay index) (id : Nat)

def entity : Option Entity :=
  if id ∈ overlay.tombstones then none
  else index.entities[id]?.or (overlay.entity id)

def normalizedAt : Option Text :=
  overlay.normalizedOverrides[id]?.or
    (if id < overlay.baseEntityCount then
      if id ∈ overlay.tombstones then none else index.normalized[id]?
    else overlay.normalizedAt id)

def displayAt : Option Text :=
  (overlay.displayAt id).or ((index.entity overlay id).map Entity.display)

variable {index overlay id}

theorem mem_of_entity {e : Entity} (h : index.entity overlay id = some e) :
    e ∈ index.entities ∨ e ∈ overlay.entities := by
  unfold entity at h
  split at h
  · cases h
  · rcases Option.or_eq_some_iff.mp h with hbase | ⟨-, hoverlay⟩
    · exact .inl (List.mem_of_getElem? hbase)
    · unfold Overlay.entity at hoverlay
      split at hoverlay
      · cases hoverlay
      · exact .inr (List.mem_of_getElem? hoverlay)

end IndexData

/-- The entity found under a number has that number. -/
theorem BelIndex.entity_id {index : BelIndex} {overlay : Overlay index} {id : Nat} {e : Entity}
    (h : index.entity overlay id = some e) : e.id = id := by
  unfold IndexData.entity at h
  split at h
  · cases h
  · rcases Option.or_eq_some_iff.mp h with hbase | ⟨-, hoverlay⟩
    · exact index.id_eq id e hbase
    · unfold Overlay.entity at hoverlay
      split at hoverlay
      · cases hoverlay
      · have hid := overlay.id_eq _ e hoverlay
        omega

end Windy.Bel
