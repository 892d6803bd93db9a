import Windy.Bel.Maps
import Windy.Bel.Reflect

/- The disk cache of an index (`BelDiskIndex`, `BelIndex::save_to`, `BelIndex::load_from` in
   `analysis/bel/mod.rs`).

   An index is saved as a flat record: its maps become lists of pairs, its dictionary the bytes of a
   finite-state transducer. Loading decodes the record, checks the version, the configuration and
   two lengths, and builds the maps again. What the tables hold is not looked at.

   The serializer and the transducer are libraries. They are parameters that carry what is known of
   them: what was written is read back. The form of their output is a parameter too. A hash map is
   listed in an order of its own, so the record of an index is any that `Lists` it.

   Statistics that are only reported, the edges of the ontology and the sequence number of the
   journal are left out, as no search reads them.

   What is proved:
     what was saved is loaded again, table by table (`loadFrom_of_saved`)
     every index that was built has a record (`exists_lists`)

   Correspondence:
     `BelDiskIndex`, `WirePropagation`, `WireOntology`, `WireMotifs` ↔ the same
     `BelDiskIndex::validate` ↔ the same
     `BelIndex::save_to` ↔ `saveTo` (none where the cache is skipped)
     `BelIndex::load_from` ↔ `loadFrom` (`BelDiskIndex.open` behind the decoder) -/
namespace Windy.Bel

/-! ## The record -/

/-- The statistics that saving and loading read. -/
structure BelStats where
  entities : Nat
  estimatedTotalBytes : Nat

structure WirePropagation where
  surfaceToFuncs : List (Nat × Ids)
  hotTable : List (Nat × Ids)
  functionNeighbors : List (Nat × Ids)

structure WireOntology where
  classes : List (Text × Nat)
  funcLabels : List (Nat × Ids)

structure WireMotifs where
  tokens : List (Text × Ids)
  entities : List (Text × Nat)

/-- The record of an index, with the dictionary in its raw form. A `WireEntity` has the
fields of an `Entity`. -/
structure BelDiskIndex (Raw : Type) where
  formatVersion : Nat
  config : BelConfig
  generation : Nat
  entities : List Entity
  normalized : List Text
  nameFstBytes : Raw
  namePostings : List Ids
  sortedIds : List Nat
  kindPostings : List (EntityKind × Ids)
  tokenMap : List (Text × Ids)
  syncmerMap : List (Nat × Ids)
  syncmerK : Nat
  syncmerS : Nat
  syncmerComplete : Bool
  numericSorted : List (Nat × Nat)
  signatures : List Signature
  rareVocab : List Nat
  rareLookup : Ids
  signatureWidthBits : Nat
  propagation : WirePropagation
  ontology : WireOntology
  motifs : WireMotifs
  functionByVa : List (Nat × Nat)
  slots : List (SlotKey × Nat)
  stats : BelStats

/-- The dictionary's library (`fst::Map`). -/
structure FstLibrary (Raw : Type) where
  asBytes : Std.ExtTreeMap Text Nat → Raw
  new : Raw → Except String (Std.ExtTreeMap Text Nat)
  new_asBytes : ∀ map, new (asBytes map) = .ok map

/-- The serializer (`postcard`), which reads back what it wrote. -/
structure Postcard (Raw File : Type) where
  toAllocvec : BelDiskIndex Raw → Except String File
  fromBytes : File → Except String (BelDiskIndex Raw)
  length : File → Nat
  fromBytes_toAllocvec : ∀ wire file, toAllocvec wire = .ok file → fromBytes file = .ok wire

/-- `BEL_DISK_CACHE_MAX_BYTES`. -/
def belDiskCacheMaxBytes : Nat := 512 * 1024 * 1024

/-- `BEL_DISK_FORMAT_VERSION`. -/
def belDiskFormatVersion : Nat := 1

/-! ## Saving -/

/-- The postings of a kind, if an entity has it. -/
def IndexData.kindPosting (index : IndexData) (kind : EntityKind) : Option Ids :=
  if (index.kindPostings kind).isEmpty then none else some (index.kindPostings kind)

section Disk
variable {Raw File : Type} (fst : FstLibrary Raw) (postcard : Postcard Raw File)

/-- The record is one of the index: the tables as they are, and the pairs of the maps. -/
structure Lists (index : IndexData) (wire : BelDiskIndex Raw) : Prop where
  formatVersion : wire.formatVersion = belDiskFormatVersion
  config : wire.config = index.config
  generation : wire.generation = index.generation
  entities : wire.entities = index.entities
  normalized : wire.normalized = index.normalized
  nameFstBytes : wire.nameFstBytes = fst.asBytes index.nameFst.map
  namePostings : wire.namePostings = index.nameFst.postings
  sortedIds : wire.sortedIds = index.nameFst.sortedIds
  kindPostings : Enumerates wire.kindPostings index.kindPosting
  tokenMap : Enumerates wire.tokenMap fun key => index.tokenPostings[key]?
  syncmerMap : Enumerates wire.syncmerMap fun key => index.syncmerPostings.map[key]?
  syncmerK : wire.syncmerK = index.syncmerPostings.k
  syncmerS : wire.syncmerS = index.syncmerPostings.s
  syncmerComplete : wire.syncmerComplete = index.syncmerPostings.complete
  numericSorted : wire.numericSorted = index.numeric
  signatures : wire.signatures = index.signatures.signatures
  rareVocab : wire.rareVocab = index.signatures.rareVocab
  rareLookup : wire.rareLookup = index.signatures.rareLookup
  signatureWidthBits : wire.signatureWidthBits = index.signatures.widthBits
  surfaceToFuncs : Enumerates wire.propagation.surfaceToFuncs fun key => index.propagation.surfaceToFuncs[key]?
  hotTable : Enumerates wire.propagation.hotTable fun key => index.propagation.hotTable[key]?
  functionNeighbors : Enumerates wire.propagation.functionNeighbors fun key => index.propagation.functionNeighbors[key]?
  classes : Enumerates wire.ontology.classes fun key => index.ontology.classes[key]?
  funcLabels : Enumerates wire.ontology.funcLabels fun key => index.ontology.funcLabels[key]?
  motifTokens : Enumerates wire.motifs.tokens fun key => index.motifs.tokens[key]?
  motifEntities : Enumerates wire.motifs.entities fun key => index.motifs.entities[key]?
  functionByVa : Enumerates wire.functionByVa fun key => index.functionByVa[key]?
  slots : Enumerates wire.slots index.slots

/-- `BelIndex::save_to` with the record of the index: none where it is too large. -/
def saveTo (wire : BelDiskIndex Raw) : Except String (Option File) :=
  if belDiskCacheMaxBytes < wire.stats.estimatedTotalBytes then .ok none
  else match postcard.toAllocvec wire with
    | .error error => .error error
    | .ok file => if belDiskCacheMaxBytes < postcard.length file then .ok none else .ok (some file)

/-- The file is one that saving the index writes. The statistics of an index that was
built count its entities. -/
def Saved (index : IndexData) (file : File) : Prop :=
  ∃ wire, Lists fst index wire ∧ wire.stats.entities = index.entities.length ∧
    saveTo postcard wire = .ok (some file)

/-! ## Loading -/

/-- The texts of `BelBuildError`. -/
def BelBuildError.message : BelBuildError → String
  | .tooManyEntities => "BEL entity count exceeds u32 capacity"
  | .invalidConfig reason => "invalid BEL configuration: " ++ reason

def BelDiskIndex.validate (wire : BelDiskIndex Raw) (requestedConfig : BelConfig) : Except String Unit :=
  if wire.formatVersion ≠ belDiskFormatVersion then
    .error ("BEL cache format v" ++ toString wire.formatVersion ++ " is not supported (expected v" ++
      toString belDiskFormatVersion ++ ")")
  else if wire.config ≠ requestedConfig then .error "BEL cache config mismatch; rebuild required"
  else match wire.config.validate with
    | .error error => .error error.message
    | .ok () =>
      if wire.entities.length ≠ wire.normalized.length then .error "BEL cache entity/normalized alignment broken"
      else if wire.entities.length ≠ wire.stats.entities then .error "BEL cache stats/entity count mismatch"
      else .ok ()

/-- The index of a record with the given dictionary. -/
def BelDiskIndex.index (wire : BelDiskIndex Raw) (map : Std.ExtTreeMap Text Nat) : IndexData :=
  { entities := wire.entities
    normalized := wire.normalized
    nameFst := { map := map, postings := wire.namePostings, sortedIds := wire.sortedIds }
    kindPostings := fun kind => (collect wire.kindPostings kind).getD ∅
    tokenPostings := .ofList wire.tokenMap compare
    syncmerPostings :=
      { map := .ofList wire.syncmerMap compare, k := wire.syncmerK, s := wire.syncmerS,
        complete := wire.syncmerComplete }
    numeric := wire.numericSorted
    signatures :=
      { signatures := wire.signatures, rareVocab := wire.rareVocab, rareLookup := wire.rareLookup,
        widthBits := wire.signatureWidthBits }
    propagation :=
      { surfaceToFuncs := .ofList wire.propagation.surfaceToFuncs compare
        hotTable := .ofList wire.propagation.hotTable compare
        functionNeighbors := .ofList wire.propagation.functionNeighbors compare }
    ontology :=
      { classes := .ofList wire.ontology.classes compare, funcLabels := .ofList wire.ontology.funcLabels compare }
    motifs := { tokens := .ofList wire.motifs.tokens compare, entities := .ofList wire.motifs.entities compare }
    functionByVa := .ofList wire.functionByVa compare
    slots := collect wire.slots
    config := wire.config
    generation := wire.generation }

/-- What `load_from` does with a decoded record. -/
def BelDiskIndex.open (wire : BelDiskIndex Raw) (requestedConfig : BelConfig) : Except String IndexData := do
  wire.validate requestedConfig
  match fst.new wire.nameFstBytes with
  | .error error => .error ("BEL cache FST decode failed: " ++ error)
  | .ok map => .ok (wire.index map)

def loadFrom (file : File) (requestedConfig : BelConfig) : Except String IndexData :=
  match postcard.fromBytes file with
  | .error error => .error ("BEL cache decode failed: " ++ error)
  | .ok wire => wire.open fst requestedConfig

/-! ## What was saved is loaded -/

variable {fst postcard} {wire : BelDiskIndex Raw} {index : IndexData}

/-- The maps of a record are those it lists. -/
theorem index_of_lists (h : Lists fst index wire) : wire.index index.nameFst.map = index := by
  have hkinds : (fun kind => (collect wire.kindPostings kind).getD ∅) = index.kindPostings := by
    funext kind
    rw [collect_eq h.kindPostings, IndexData.kindPosting]
    split
    · next hempty => exact (Std.ExtTreeSet.isEmpty_iff.mp hempty).symm
    · rfl
  simp only [BelDiskIndex.index, hkinds, h.config, h.generation, h.entities, h.normalized, h.namePostings,
    h.sortedIds, ofList_eq h.tokenMap, ofList_eq h.syncmerMap, h.syncmerK, h.syncmerS, h.syncmerComplete,
    h.numericSorted, h.signatures, h.rareVocab, h.rareLookup, h.signatureWidthBits, ofList_eq h.surfaceToFuncs,
    ofList_eq h.hotTable, ofList_eq h.functionNeighbors, ofList_eq h.classes, ofList_eq h.funcLabels,
    ofList_eq h.motifTokens, ofList_eq h.motifEntities, ofList_eq h.functionByVa, collect_eq h.slots]

theorem validate_of_lists (h : Lists fst index wire) (hvalid : index.config.validate = .ok ())
    (hlength : index.normalized.length = index.entities.length)
    (hstats : wire.stats.entities = index.entities.length) : wire.validate index.config = .ok () := by
  rw [BelDiskIndex.validate, if_neg (not_not.mpr h.formatVersion), if_neg (not_not.mpr h.config), h.config, hvalid]
  simp only [h.entities, h.normalized, hlength, hstats, ne_eq, not_true_eq_false, if_false]

theorem fromBytes_of_save {file : File} (h : saveTo postcard wire = .ok (some file)) :
    postcard.fromBytes file = .ok wire := by
  unfold saveTo at h
  split at h
  · cases h
  · split at h
    · cases h
    · next written hwritten =>
      split at h
      · cases h
      · obtain rfl := Option.some.inj (Except.ok.inj h)
        exact postcard.fromBytes_toAllocvec wire _ hwritten

/-- The configuration of an index that was built passed its check. -/
theorem config_of_build {image : Image} {p : Project} {config : BelConfig} {index : BelIndex}
    (h : BelIndex.build image p config = .ok index) : index.config = config ∧ config.validate = .ok () := by
  constructor
  · rw [build_eq h]
    rfl
  · unfold BelIndex.build at h
    cases hvalid : config.validate with
    | error e =>
      rw [hvalid] at h
      cases h
    | ok _ => rfl

theorem loadFrom_of_saved {image : Image} {p : Project} {config : BelConfig} {index : BelIndex} {file : File}
    (hbuild : BelIndex.build image p config = .ok index) (hsaved : Saved fst postcard index file) :
    loadFrom fst postcard file config = .ok index := by
  obtain ⟨wire, hlists, hstats, hsave⟩ := hsaved
  obtain ⟨hconfig, hvalid⟩ := config_of_build hbuild
  rw [← hconfig] at hvalid ⊢
  have hvalidate := validate_of_lists hlists hvalid index.normalized_length hstats
  simp only [loadFrom, fromBytes_of_save hsave, BelDiskIndex.open, hvalidate, hlists.nameFstBytes,
    fst.new_asBytes, index_of_lists hlists, bind, Except.bind]

/-- Every index that was built can be listed. -/
theorem exists_lists (fst : FstLibrary Raw) (stats : BelStats) {image : Image} {p : Project} {config : BelConfig}
    {index : BelIndex} (hbuild : BelIndex.build image p config = .ok index) :
    ∃ wire : BelDiskIndex Raw, Lists fst index wire ∧ wire.stats = stats := by
  obtain ⟨kinds, hkinds⟩ := exists_enumerates index.kindPosting
    [.symbol, .string, .instruction, .function, .import, .export, .comment, .memoryCard, .type, .motif,
      .ontologyClass]
    (fun kind _ _ => by cases kind <;> simp)
  obtain ⟨slots, hslots⟩ := exists_enumerates _ _ (built_of_build hbuild).keys
  refine ⟨⟨belDiskFormatVersion, index.config, index.generation, index.entities, index.normalized,
    fst.asBytes index.nameFst.map, index.nameFst.postings, index.nameFst.sortedIds, kinds,
    index.tokenPostings.toList, index.syncmerPostings.map.toList, index.syncmerPostings.k, index.syncmerPostings.s,
    index.syncmerPostings.complete, index.numeric, index.signatures.signatures, index.signatures.rareVocab,
    index.signatures.rareLookup, index.signatures.widthBits,
    ⟨index.propagation.surfaceToFuncs.toList, index.propagation.hotTable.toList,
      index.propagation.functionNeighbors.toList⟩,
    ⟨index.ontology.classes.toList, index.ontology.funcLabels.toList⟩,
    ⟨index.motifs.tokens.toList, index.motifs.entities.toList⟩, index.functionByVa.toList, slots, stats⟩, ?_, rfl⟩
  constructor <;> first | rfl | exact enumerates_toList _ | assumption

end Disk

end Windy.Bel
