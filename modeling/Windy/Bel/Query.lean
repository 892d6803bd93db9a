import Mathlib.Data.List.Sort
import Windy.Bel.Index
import Windy.Lib.Budget
import Windy.Lib.TopK
import Windy.Project.State

/- Queries against the index and its overlay (`analysis/bel/query.rs`).

   A query is classified, its candidates are collected in the way of its mode, and the visible ones
   are scored and ranked. One page of the ranking is kept in a bounded heap; a cursor names the last
   hit of a page, and the next search keeps what ranks behind it. Every loop asks the budget, and a
   spent budget turns the answer into a lower bound.

   The regular expression engine and the length term of the score, which is a floating-point
   logarithm, are parameters. A hit carries its score in micros; elapsed time is left out.

   Correspondence:
     `search` ↔ `search` (`gather` for the match over the modes, `scoreHit`
                           and `offer` for the body of the ranking loop)
     `classify_query` ↔ the same
     `collect_exact` ... `collect_ontology` ↔ `collectExact` ... `collectOntology`
     `CursorKey::encode`, `decode` ↔ the same
     `query_fingerprint` ↔ `queryFingerprint` (`fingerprintText` is what it hashes)
     `for x in xs { if !budget.tick() { .. } .. }` ↔ `each`
     `xs.partition_point(p)` ↔ `takeWhile` and `dropWhile` -/
namespace Windy.Bel

open Budget Budget.Timed

/-! ## Queries and answers -/

inductive SearchMode where
  | auto
  | exact
  | namePrefix
  | substring
  | numeric
  | regex
  | token
  | relationship
  | motif
  | ontology
  | multiEvidence
  deriving DecidableEq, Repr

def SearchMode.debug : SearchMode → String
  | .auto => "Auto"
  | .exact => "Exact"
  | .namePrefix => "Prefix"
  | .substring => "Substring"
  | .numeric => "Numeric"
  | .regex => "Regex"
  | .token => "Token"
  | .relationship => "Relationship"
  | .motif => "Motif"
  | .ontology => "Ontology"
  | .multiEvidence => "MultiEvidence"

def EntityKind.debug : EntityKind → String
  | .symbol => "Symbol"
  | .string => "String"
  | .instruction => "Instruction"
  | .function => "Function"
  | .import => "Import"
  | .export => "Export"
  | .comment => "Comment"
  | .memoryCard => "MemoryCard"
  | .type => "Type"
  | .motif => "Motif"
  | .ontologyClass => "OntologyClass"

structure Query where
  text : Text
  mode : SearchMode
  evidence : List Text
  quorum : Option Nat
  relationshipDepth : Nat
  kinds : List EntityKind

inductive BelQueryError where
  | empty
  | invalidRegex (message : String)
  | invalidNumber (text : Text)
  | invalidCursor
  | tooLarge (what : String)
  deriving DecidableEq, Repr

inductive MatchKind where
  | relationship
  | ontology
  | regex
  | substring
  | token
  | namePrefix
  | numeric
  | exact
  deriving DecidableEq, Repr

def MatchKind.weight : MatchKind → Int
  | .exact => 1000
  | .numeric => 950
  | .namePrefix => 850
  | .token => 800
  | .substring => 700
  | .regex => 650
  | .ontology => 500
  | .relationship => 400

def MatchKind.exactness : MatchKind → Int
  | .exact | .numeric => 100
  | .namePrefix | .token => 85
  | .substring | .regex => 70
  | .ontology => 60
  | .relationship => 50

def MatchKind.debug : MatchKind → String
  | .relationship => "Relationship"
  | .ontology => "Ontology"
  | .regex => "Regex"
  | .substring => "Substring"
  | .token => "Token"
  | .namePrefix => "Prefix"
  | .numeric => "Numeric"
  | .exact => "Exact"

structure CandidateSet where
  ids : Ids
  complete : Bool
  timedOut : Bool
  estimated : Option Nat
  strategy : String
  matchKind : MatchKind

/-- `CandidateSet::empty`. -/
def CandidateSet.empty (strategy : String) (matchKind : MatchKind) : CandidateSet :=
  { ids := ∅, complete := true, timedOut := false, estimated := some 0, strategy := strategy,
    matchKind := matchKind }

inductive ProvenanceLayer where
  | surface
  | token
  | numeric
  | signature
  | oneHop
  | motif
  | ontology
  | overlay
  deriving DecidableEq, Repr

structure Provenance where
  layer : ProvenanceLayer
  seed : Option Text
  sourceEntity : Option Nat
  detail : String
  deriving DecidableEq, Repr

structure CandidateEvidence where
  matchKind : MatchKind
  provenance : List Provenance
  seedEntities : Ids
  evidenceKinds : Finset ProvenanceLayer
  affinityMicros : Int
  signatureOverlap : Nat
  ontologyBoost : Nat
  strategy : String

/-- `CandidateEvidence::new`. -/
def CandidateEvidence.new (matchKind : MatchKind) (strategy : String) : CandidateEvidence :=
  { matchKind := matchKind, provenance := [], seedEntities := ∅, evidenceKinds := ∅, affinityMicros := 0,
    signatureOverlap := 0, ontologyBoost := 0, strategy := strategy }

/-- `CandidateEvidence::add_provenance`. -/
def CandidateEvidence.addProvenance (candidate : CandidateEvidence) (p : Provenance) :
    CandidateEvidence :=
  { candidate with
    evidenceKinds := insert p.layer candidate.evidenceKinds
    seedEntities := match p.sourceEntity with
      | some seed => candidate.seedEntities.insert seed
      | none => candidate.seedEntities
    provenance := if p ∈ candidate.provenance then candidate.provenance else candidate.provenance ++ [p] }

/-- What is known of each candidate; iterated in the order of the ids. -/
abbrev EvidenceMap := Std.ExtTreeMap Nat CandidateEvidence

structure ScoredHit where
  entityId : Nat
  va : Nat
  scoreMicros : Int
  candidate : CandidateEvidence

structure Hit where
  entityId : Nat
  kind : EntityKind
  display : Text
  va : Option Nat
  fileOffset : Option Nat
  functionVa : Option Nat
  provenance : List Provenance
  scoreMicros : Int
  reason : String
  strategy : String

inductive TotalKind where
  | exact
  | lowerBound
  deriving DecidableEq, Repr

structure SearchResult where
  hits : List Hit
  total : Nat
  totalKind : TotalKind
  nextCursor : Option Text
  truncated : Bool
  timeoutOrPartial : Bool
  refinementSuggestion : Option String
  estimatedCandidates : Option Nat
  strategy : String
  indexGeneration : Nat
  overlayGeneration : Nat

/-- The regular expression engine, case-insensitive and without Unicode classes, and
the length term of the score. -/
structure Engine where
  compile : Text → Except String (Text → Bool)
  lengthSpecificity : Nat → Int

/-! ## Numbers in texts -/

/-- `char::to_digit`. -/
def toDigit (radix : Nat) (c : Char) : Option Nat :=
  let d := if c.isDigit then c.toNat - 48
    else if 'a' ≤ c ∧ c ≤ 'z' then c.toNat - 87
    else if 'A' ≤ c ∧ c ≤ 'Z' then c.toNat - 55
    else radix
  if d < radix then some d else none

/-- A number may have a plus sign. -/
def stripPlus : Text → Text
  | '+' :: digits => digits
  | text => text

/-- `from_str_radix` of an unsigned type with `bits` bits. -/
def fromStrRadix (radix bits : Nat) (text : Text) : Option Nat :=
  if stripPlus text = [] then none
  else ((stripPlus text).foldlM (fun n c => (toDigit radix c).map fun d => radix * n + d) 0).filter (· < 2 ^ bits)

def parseNumber (value : Text) : Option Nat :=
  match value with
  | '0' :: 'x' :: hex => fromStrRadix 16 64 hex
  | '0' :: 'X' :: hex => fromStrRadix 16 64 hex
  | _ => fromStrRadix 10 64 value

/-! ## Cursors -/

structure CursorKey where
  indexGeneration : Nat
  overlayGeneration : Nat
  queryHash : Nat
  scoreMicros : Int
  entityId : Nat
  va : Nat
  deriving DecidableEq, Repr

/-- `i64 as u64`. -/
def asU64 (n : Int) : Nat := (n % 2 ^ 64).toNat

/-- `u64 as i64`. -/
def asI64 (n : Nat) : Int := Int.bmod n (2 ^ 64)

def CursorKey.encode (key : CursorKey) : Text :=
  ['.'].intercalate ["bel1".toList, padHex 16 key.indexGeneration, padHex 16 key.overlayGeneration,
    padHex 16 key.queryHash, padHex 16 (asU64 key.scoreMicros), padHex 8 key.entityId, padHex 16 key.va]

def CursorKey.decode (value : Text) : Option CursorKey :=
  match value.splitOn '.' with
  | [tag, indexGeneration, overlayGeneration, queryHash, scoreMicros, entityId, va] =>
    if tag = "bel1".toList then do
      let indexGeneration ← fromStrRadix 16 64 indexGeneration
      let overlayGeneration ← fromStrRadix 16 64 overlayGeneration
      let queryHash ← fromStrRadix 16 64 queryHash
      let scoreMicros ← fromStrRadix 16 64 scoreMicros
      let entityId ← fromStrRadix 16 32 entityId
      let va ← fromStrRadix 16 64 va
      return { indexGeneration := indexGeneration, overlayGeneration := overlayGeneration,
               queryHash := queryHash, scoreMicros := asI64 scoreMicros, entityId := entityId, va := va }
    else none
  | _ => none

def compareHits (left right : ScoredHit) : Ordering :=
  (compare right.scoreMicros left.scoreMicros).then
    ((compare left.entityId right.entityId).then (compare left.va right.va))

def isAfterCursor (hit : ScoredHit) (cursor : CursorKey) : Bool :=
  hit.scoreMicros < cursor.scoreMicros ||
    (hit.scoreMicros = cursor.scoreMicros &&
      (cursor.entityId < hit.entityId || (hit.entityId = cursor.entityId && cursor.va < hit.va)))

/-! ## Classification and fingerprint -/

/-- `str::strip_prefix`. -/
def stripTag (tag : String) (text : Text) : Option Text :=
  if tag.toList.isPrefixOf text then some (text.drop tag.length) else none

def modeTags : List (String × SearchMode) :=
  [("exact:", .exact), ("prefix:", .namePrefix), ("substring:", .substring), ("number:", .numeric),
    ("numeric:", .numeric), ("regex:", .regex), ("token:", .token), ("related:", .relationship),
    ("motif:", .motif), ("ontology:", .ontology)]

def classifyQuery (query : Query) : SearchMode × Text :=
  let text := trim query.text
  if query.mode ≠ .auto then (query.mode, text)
  else match modeTags.findSome? fun (tag, mode) => (stripTag tag text).map fun rest => (mode, trim rest) with
    | some classified => classified
    | none =>
      if query.evidence ≠ [] then (.multiEvidence, text)
      else match stripTag "/" text with
        | some regex => (.regex, regex)
        | none => if (parseNumber text).isSome then (.numeric, text) else (.substring, text)

/-- The text `query_fingerprint` hashes. -/
def fingerprintText (query : Query) (mode : SearchMode) (normalized : Text) : Text :=
  mode.debug.toList ++ '|' :: normalized ++ '|' :: (toString (query.quorum.getD 0)).toList ++
    '|' :: (toString query.relationshipDepth).toList ++
    '|' :: '[' :: (", ".toList.intercalate (query.kinds.map fun kind => kind.debug.toList) ++ "]".toList) ++
    query.evidence.flatMap fun clause => '|' :: normalizeAscii clause

def queryFingerprint (query : Query) (mode : SearchMode) (normalized : Text) : Nat :=
  stableU64Hash (asBytes (fingerprintText query mode normalized))

/-! ## Candidates from texts -/

section Collect
variable (index : IndexData) (overlay : Overlay index)

def safetyLimit (normalized : Text) : Nat :=
  if normalized.length < 3 then min index.config.safetyCardinality 10000
  else index.config.safetyCardinality

/-- The base text of an entity does not count. -/
def hidden (id : Nat) : Bool := id ∈ overlay.tombstones || id ∈ overlay.surfaceTombstones

/-- The part of a sorted table with the given number. -/
def numericRange (value : Nat) (sorted : List (Nat × Nat)) : List (Nat × Nat) :=
  (sorted.takeWhile fun entry => entry.1 ≤ value).dropWhile fun entry => entry.1 < value

/-- Puts every element of a list into a bitmap. -/
def insertAll (ids : List Nat) (into : Ids) : Timed (Ids × Bool) :=
  each (fun id ids => pure (.yield (ids.insert id))) ids into

/-- Puts the elements that pass a test into a bitmap. -/
def insertIf {α : Type} (test : α → Bool) (idOf : α → Nat) (xs : List α) (into : Ids) :
    Timed (Ids × Bool) :=
  each (fun x ids => pure (.yield (if test x then ids.insert (idOf x) else ids))) xs into

def allBaseIds : Timed (Ids × Bool) := insertAll index.nameFst.sortedIds ∅

def baseKindIds (kinds : List EntityKind) : Timed (Ids × Bool) :=
  insertAll (kinds.flatMap fun kind => (index.kindPostings kind).toList) ∅

def kindAllowed (id : Nat) (kinds : List EntityKind) : Bool :=
  kinds = [] || (index.entity overlay id).any fun entity => entity.kind ∈ kinds

def restrictCandidateKinds (ids : Ids) (kinds : List EntityKind) : Timed (Ids × Bool) :=
  if kinds = [] then pure (ids, true)
  else insertIf (fun id => (index.entity overlay id).any fun entity => entity.kind ∈ kinds) id ids.toList ∅

def collectExact (normalized : Text) : Timed CandidateSet := do
  let (ids, lasted) ← insertAll (overlay.names[normalized]?.getD ∅).toList ∅
  if lasted then
    let postings := (index.nameFst.map[normalized]?.bind fun i => index.nameFst.postings[i]?).getD ∅
    let (ids, complete) ← insertIf (fun id => !hidden index overlay id) id postings.toList ids
    return { estimated := some ids.size, ids := ids, complete := complete, timedOut := ← timedOut,
             strategy := "fst_exact", matchKind := .exact }
  else
    return { estimated := some ids.size, ids := ids, complete := false, timedOut := true,
             strategy := "fst_exact", matchKind := .exact }

/-- The overlay's names in a prefix search. A broken inner loop does not leave the
outer one, the safety limit does. -/
def prefixOverlay (normalized : Text) (safety : Nat) : Timed (Ids × Bool) := do
  let ((ids, complete), lasted) ← each (fun (text, postings) (ids, complete) => do
      if normalized.isPrefixOf text then
        let (ids, lasted) ← insertAll postings.toList ids
        if safety ≤ ids.size then return .done (ids, false) else return .yield (ids, complete && lasted)
      else return .yield (ids, complete)) overlay.names.toList (∅, true)
  return (ids, complete && lasted)

/-- The base names in a prefix search, from the first that is not below the prefix. -/
def prefixBase (normalized : Text) (safety : Nat) (ids : Ids) : Timed (Ids × Bool) := do
  let rest := index.nameFst.sortedIds.dropWhile fun id => index.normalized.getD id [] < normalized
  let ((ids, complete), lasted) ← each (fun id (ids, complete) =>
      if normalized.isPrefixOf (index.normalized.getD id []) then
        let ids := if hidden index overlay id then ids else ids.insert id
        if safety ≤ ids.size then pure (.done (ids, false)) else pure (.yield (ids, complete))
      else pure (.done (ids, complete))) rest (ids, true)
  return (ids, complete && lasted)

def collectPrefix (normalized : Text) : Timed CandidateSet := do
  let safety := safetyLimit index normalized
  let (ids, overlayComplete) ← prefixOverlay index overlay normalized safety
  let (ids, complete) ← if overlayComplete then prefixBase index overlay normalized safety ids
    else pure (ids, false)
  return { estimated := some ids.size, ids := ids, complete := complete, timedOut := ← timedOut,
           strategy := "fst_prefix", matchKind := .namePrefix }

/-- The overlay's own texts, with the number each belongs to. -/
def overlayTexts : List (Text × Nat) :=
  overlay.normalized.zipIdx.map fun (text, position) => (text, overlay.baseEntityCount + position)

def collectOverlaySubstring (normalized : Text) : Timed (Ids × Bool) := do
  let (ids, lasted) ← insertIf (fun entry => containsText entry.2 normalized) Prod.fst
    overlay.normalizedOverrides.toList ∅
  if lasted then
    insertIf (fun entry => containsText entry.1 normalized) Prod.snd (overlayTexts index overlay) ids
  else return (ids, false)

/-- The windows of `k` bytes that are closed syncmers. -/
def windows (k : Nat) (bytes : List Nat) : List (List Nat) :=
  (List.range (bytes.length + 1 - k)).map fun i => (bytes.drop i).take k

def isClosedSyncmer (window : List Nat) (s : Nat) : Bool :=
  let minimum := ((windows s window).drop 1).foldl
    (fun minimum candidate => if candidate < minimum then candidate else minimum) (window.take s)
  window.take s = minimum || window.drop (window.length - s) = minimum

/-- `closed_syncmer_hashes`: sorted, without repetitions. -/
def closedSyncmerHashes (text : List Nat) (k s : Nat) : List Nat :=
  if k = 0 ∨ s = 0 ∨ k ≤ s ∨ text.length < k then []
  else (Std.ExtTreeSet.ofList
    (((windows k text).filter fun window => isClosedSyncmer window s).map stableU64Hash) compare).toList

/-- The ids all postings share, found from the shortest. -/
def intersectPostings (postings : List Ids) : Timed (Ids × Bool) :=
  match postings.insertionSort (fun left right => left.size ≤ right.size) with
  | [] => pure (∅, true)
  | shortest :: rest =>
    insertIf (fun id => rest.all fun posting => decide (id ∈ posting)) id shortest.toList ∅

/-- Where a substring search looks among the base texts. -/
structure SubstringSource where
  ids : Ids
  strategy : String
  estimate : Option Nat
  complete : Bool

def substringLinear (kinds : List EntityKind) : Timed SubstringSource := do
  let (all, kindComplete) ← if kinds = [] then allBaseIds index else baseKindIds index kinds
  return { ids := all, complete := kindComplete,
           strategy := if index.syncmerPostings.complete then "short_query_linear_verify"
             else "budget_safe_linear_verify",
           estimate := some (if kindComplete then index.entities.length else 0) }

/-- The base texts that contain the needle, as long as the safety limit allows. -/
def verifySubstring (normalized : Text) (safety : Nat) (source : Ids) (ids : Ids) : Timed (Ids × Bool) := do
  if safety ≤ ids.size then return (ids, source.isEmpty)
  let ((ids, complete), lasted) ← each (fun id (ids, complete) =>
      if !hidden index overlay id &&
          (index.normalizedAt overlay id).any fun candidate => containsText candidate normalized then
        if safety ≤ (ids.insert id).size then pure (.done (ids.insert id, false))
        else pure (.yield (ids.insert id, complete))
      else pure (.yield (ids, complete))) source.toList (ids, true)
  return (ids, complete && lasted)

def collectSubstring (normalized : Text) (kinds : List EntityKind) : Timed CandidateSet := do
  let hashes := closedSyncmerHashes (asBytes normalized) index.syncmerPostings.k index.syncmerPostings.s
  let postings := hashes.filterMap fun hash => index.syncmerPostings.map[hash]?
  if index.syncmerPostings.complete ∧ hashes ≠ [] ∧ postings.length ≠ hashes.length then
    -- A syncmer of the needle is in no base text.
    let (ids, complete) ← collectOverlaySubstring index overlay normalized
    return { ids := ids, complete := complete, timedOut := ← timedOut, estimated := some 0,
             strategy := "syncmer_empty_verify", matchKind := .substring }
  else
    let source ← if index.syncmerPostings.complete ∧ hashes ≠ [] then do
        let (ids, complete) ← intersectPostings postings
        pure { ids := ids, strategy := "closed_syncmer_verify", estimate := some ids.size, complete := complete }
      else substringLinear index kinds
    let (ids, overlayComplete) ← collectOverlaySubstring index overlay normalized
    let (ids, complete) ← if source.complete && overlayComplete then
        verifySubstring index overlay normalized (safetyLimit index normalized) source.ids ids
      else pure (ids, false)
    return { ids := ids, complete := complete, timedOut := ← timedOut, estimated := source.estimate,
             strategy := source.strategy, matchKind := .substring }

def collectNumeric (normalized : Text) : Timed (Except BelQueryError CandidateSet) :=
  match parseNumber normalized with
  | none => pure (.error (.invalidNumber normalized))
  | some value => do
    let (ids, lasted) ← insertAll ((numericRange value overlay.numeric).map Prod.snd) ∅
    let (ids, complete) ← if lasted then
        insertIf (fun id => decide (id ∉ overlay.tombstones)) id
          ((numericRange value index.numeric).map Prod.snd) ids
      else pure (ids, false)
    return .ok { estimated := some ids.size, ids := ids, complete := complete, timedOut := ← timedOut,
                 strategy := "sorted_numeric", matchKind := .numeric }

/-- The pieces of a text between characters that no token holds. -/
def tokensOf (text : Text) : List Text :=
  text.splitOnP fun c => !c.isAlphanum && c ≠ '_'

def collectToken (normalized : Text) : Timed CandidateSet := do
  let (ids, lasted) ← insertIf (fun entry => decide (normalized ∈ tokensOf entry.2)) Prod.fst
    overlay.normalizedOverrides.toList ∅
  let (ids, lasted) ← if lasted then
      insertIf (fun entry => decide (normalized ∈ tokensOf entry.1)) Prod.snd (overlayTexts index overlay) ids
    else pure (ids, false)
  let (ids, complete) ← if lasted then
      insertIf (fun id => !hidden index overlay id) id (index.tokenPostings[normalized]?.getD ∅).toList ids
    else pure (ids, false)
  return { estimated := some ids.size, ids := ids, complete := complete, timedOut := ← timedOut,
           strategy := "token_primary", matchKind := .token }

/-! ## Regular expressions -/

/-- Ends a run of literal characters. -/
def flush (current : Text) (runs : List Text) : List Text :=
  if current = [] then runs else runs ++ [current]

/-- The runs of characters a pattern cannot match without; none for a pattern with an
escape that is not a literal. -/
def literalRuns : Text → Bool → Text → List Text → Option (List Text)
  | [], _, current, runs => some (flush current runs)
  | c :: rest, true, current, runs => literalRuns rest (decide (c ≠ ']')) [] (flush current runs)
  | c :: rest, false, current, runs =>
    if c = '\\' then
      match rest with
      | escaped :: rest =>
        if escaped ∈ ".+()[]\x7b\x7d^$|*?\\".toList then literalRuns rest false (current ++ [escaped]) runs
        else none
      | [] => none
    else if c = '[' then literalRuns rest true [] (flush current runs)
    else if c ∈ ".+()^$".toList then literalRuns rest false [] (flush current runs)
    else literalRuns rest false (current ++ [c]) runs

/-- `max_by_key(String::len)`: the last of the longest. -/
def longest (runs : List Text) : Option Text :=
  runs.foldl (fun best run => match best with
    | some other => if other.length ≤ run.length then some run else some other
    | none => some run) none

def requiredRegexLiteral (pattern : Text) : Option Text :=
  if pattern.any fun c => decide (128 ≤ c.toNat) then none
  else if pattern.any fun c => decide (c ∈ "|*?\x7b".toList) then none
  else ((literalRuns pattern false [] []).bind longest).filter fun run => 3 ≤ run.length

/-- The base candidates of a regular expression whose display matches. -/
def verifyRegex (isMatch : Text → Bool) (safety : Nat) (seeds : Ids) (ids : Ids) : Timed (Ids × Bool) := do
  let ((ids, complete), lasted) ← each (fun id (ids, complete) =>
      if (index.displayAt overlay id).any isMatch then
        if safety ≤ (ids.insert id).size then pure (.done (ids.insert id, false))
        else pure (.yield (ids.insert id, complete))
      else pure (.yield (ids, complete))) seeds.toList (ids, true)
  return (ids, complete && lasted)

def collectRegex (engine : Engine) (pattern : Text) (kinds : List EntityKind) :
    Timed (Except BelQueryError CandidateSet) :=
  match engine.compile pattern with
  | .error message => pure (.error (.invalidRegex message))
  | .ok isMatch => do
    let required := (requiredRegexLiteral pattern).map normalizeAscii
    let seed ← match required with
      | none => do
        let (ids, complete) ← allBaseIds index
        pure { ids := ids, complete := complete, timedOut := ← timedOut,
               estimated := some index.entities.length, strategy := "regex_linear_verify", matchKind := .regex }
      | some literal => collectSubstring index overlay literal kinds
    let safety := safetyLimit index (required.getD [])
    -- The three loops run one after the other whatever became of the one before.
    let (ids, overridesLasted) ← insertIf (fun entry => isMatch entry.2) Prod.fst
      overlay.displayOverrides.toList ∅
    let (ids, entitiesLasted) ← insertIf (fun entity => isMatch entity.display) Entity.id overlay.entities ids
    let (ids, seedsComplete) ← verifyRegex index overlay isMatch safety seed.ids ids
    return .ok { ids := ids, complete := seed.complete && overridesLasted && entitiesLasted && seedsComplete,
                 timedOut := ← timedOut, estimated := seed.estimated,
                 strategy := if required.isSome then "required_literal_then_regex" else "regex_linear_verify",
                 matchKind := .regex }

def collectSurface (engine : Engine) (mode : SearchMode) (normalized : Text) (kinds : List EntityKind) :
    Timed (Except BelQueryError CandidateSet) := do
  let collected ← match mode with
    | .exact => Except.ok <$> collectExact index overlay normalized
    | .namePrefix => Except.ok <$> collectPrefix index overlay normalized
    | .substring | .auto => Except.ok <$> collectSubstring index overlay normalized kinds
    | .numeric => collectNumeric index overlay normalized
    | .regex => collectRegex index overlay engine normalized kinds
    | .token => Except.ok <$> collectToken index overlay normalized
    | _ => pure (.ok (CandidateSet.empty "unsupported_surface" .substring))
  match collected with
  | .error e => return .error e
  | .ok result => do
    let (ids, allowed) ← restrictCandidateKinds index overlay result.ids kinds
    let out ← timedOut
    return .ok { result with ids := ids, complete := result.complete && allowed, timedOut := result.timedOut || out }

/-! ## Evidence -/

/-- The functions an entity is evidence for. -/
def relationshipPostings (entity : Nat) : Option Ids :=
  let stored := ((overlay.surfaceToFuncs[entity]?.or index.propagation.hotTable[entity]?).or
    index.propagation.surfaceToFuncs[entity]?).getD ∅
  let functions := match index.entity overlay entity with
    | none => stored
    | some item =>
      if item.kind = .function then stored.insert item.id
      else match item.funcEntry.bind fun va => index.functionByVa[va]? with
        | some function => stored.insert function
        | none => stored
  if functions.isEmpty then none else some functions

/-- The instruction each candidate function shares a token with. -/
def tokenFunctionSources (candidates : Ids) : Timed (Std.ExtTreeMap Nat Nat × Bool) :=
  each (fun instructionId sources => pure (.yield (
      match index.entity overlay instructionId with
      | none => sources
      | some instruction =>
        if instruction.kind ≠ .instruction then sources
        else match instruction.funcEntry.bind fun va => index.functionByVa[va]? with
          | some function => if function ∈ candidates then sources.insertIfNew function instructionId else sources
          | none => sources))) candidates.toList ∅

/-- `evidence.entry(id).or_insert_with(fresh)` changed by `f`. -/
def upsertEvidence (evidence : EvidenceMap) (id : Nat) (fresh : CandidateEvidence)
    (f : CandidateEvidence → CandidateEvidence) : EvidenceMap :=
  evidence.insert id (f (evidence[id]?.getD fresh))

/-- `1_000_000 / df as i64`. -/
def affinityOf (df : Nat) : Int := (1000000 / max df 1 : Nat)

/-- The functions the seeds are evidence for, in one hop. -/
def seedRelationships (seeds : Ids) (seedText : Text) : Timed ((EvidenceMap × Ids) × Bool) := do
  let ((evidence, frontier, going), lasted) ← each (fun seed (evidence, frontier, _) => do
      match relationshipPostings index overlay seed with
      | none => return .yield (evidence, frontier, true)
      | some functions =>
        let ((evidence, frontier), lasted) ← each (fun function (evidence, frontier) => pure (.yield (
            upsertEvidence evidence function (.new .relationship "one_hop") (fun candidate =>
              { candidate with
                affinityMicros := candidate.affinityMicros + affinityOf functions.size }.addProvenance
                { layer := .oneHop, seed := some seedText, sourceEntity := some seed,
                  detail := "exact surface-to-function edge" }),
            frontier.insert function))) functions.toList (evidence, frontier)
        if lasted then return .yield (evidence, frontier, true) else return .done (evidence, frontier, false))
    seeds.toList (∅, ∅, true)
  return ((evidence, frontier), going && lasted)

/-- The neighbors of the frontier that were not visited yet. -/
def nextFrontier (frontier visited : Ids) : Timed (Ids × Bool) := do
  let ((next, going), lasted) ← each (fun function (next, _) => do
      let neighbors := index.propagation.functionNeighbors[function]?.getD ∅
      let (next, lasted) ← insertIf (fun neighbor => decide (neighbor ∉ visited)) id neighbors.toList next
      if lasted then return .yield (next, true) else return .done (next, false)) frontier.toList (∅, true)
  return (next, going && lasted)

/-- The further hops of a relationship search over the call graph. -/
def extendHops (seedText : Text) : List Nat → Ids → Ids → EvidenceMap → Timed EvidenceMap
  | [], _, _, evidence => pure evidence
  | hop :: hops, frontier, visited, evidence => do
    let (next, lasted) ← nextFrontier index frontier visited
    if lasted then
      let ((evidence, visited), lasted) ← each (fun function (evidence, visited) => pure (.yield (
          upsertEvidence evidence function (.new .relationship "bounded_relationship") (·.addProvenance
            { layer := .oneHop, seed := some seedText, sourceEntity := none,
              detail := "exact call-graph hop " ++ toString (hop + 1) }),
          visited.insert function))) next.toList (evidence, visited)
      if lasted then extendHops seedText hops next visited evidence else return evidence
    else return evidence

def extendRelationships (seeds : Ids) (requestedDepth : Nat) (seedText : Text) : Timed EvidenceMap := do
  let depth := min (max (if requestedDepth = 0 then index.config.relationshipDepth else requestedDepth) 1)
    index.config.maxLatticeDepth
  let ((evidence, frontier), lasted) ← seedRelationships index overlay seeds seedText
  if lasted then extendHops index seedText (List.range' 1 (depth - 1)) frontier frontier evidence
  else return evidence

/-- Which clause and seed a function was reached from, and how many functions that
seed is evidence for. -/
abbrev Sources := Std.ExtTreeMap Nat (List (Text × Nat × Nat))

/-- Notes the functions a seed is evidence for. -/
def reachFunctions (clause : Text) (seed : Nat) (functions : Ids) (reached : Ids × Sources) :
    Timed ((Ids × Sources) × Bool) :=
  each (fun function (found, sources) => pure (.yield (
      found.insert function,
      sources.insert function (sources[function]?.getD [] ++ [(clause, seed, max functions.size 1)]))))
    functions.toList reached

/-- One seed of a clause. A budget spent inside does not leave the loop over the seeds. -/
def clauseSeed (clause : Text) (seed : Nat) (state : (Ids × Sources) × Bool) :
    Timed (ForInStep ((Ids × Sources) × Bool)) :=
  match relationshipPostings index overlay seed with
  | none => pure (.yield state)
  | some functions => do
    let (reached, lasted) ← reachFunctions clause seed functions state.1
    return .yield (reached, state.2 && lasted)

/-- The functions of one clause. -/
def clauseFunctions (clause : Text) (seeds : Ids) (sources : Sources) : Timed ((Ids × Sources) × Bool) := do
  let ((reached, complete), lasted) ← each (clauseSeed index overlay clause) seeds.toList ((∅, sources), true)
  return (reached, complete && lasted)

structure Quorum where
  counts : Std.ExtTreeMap Nat Nat
  sources : Sources
  complete : Bool
  estimated : Nat

def countFunctions (found : Ids) (counts : Std.ExtTreeMap Nat Nat) : Timed (Std.ExtTreeMap Nat Nat × Bool) :=
  each (fun function counts => pure (.yield (counts.insert function (counts[function]?.getD 0 + 1))))
    found.toList counts

def countClause (clause : Text) (q : Quorum) : Timed (ForInStep Quorum) := do
  let seeds ← collectSubstring index overlay (normalizeAscii (trim clause)) []
  let ((found, sources), reached) ← clauseFunctions index overlay clause seeds.ids q.sources
  let (counts, counted) ← countFunctions found q.counts
  return .yield { counts := counts, sources := sources,
                  complete := q.complete && seeds.complete && reached && counted,
                  estimated := saturatingAdd q.estimated (seeds.estimated.getD seeds.ids.size) }

/-- How many clauses reach each function. -/
def countClauses (clauses : List Text) : Timed Quorum := do
  let (q, lasted) ← each (countClause index overlay) clauses
    { counts := ∅, sources := ∅, complete := true, estimated := 0 }
  return { q with complete := q.complete && lasted }

/-- The evidence of a function that enough clauses reach. -/
def quorumEvidence (sources : List (Text × Nat × Nat)) : Timed (CandidateEvidence × Bool) :=
  each (fun (clause, seed, df) candidate => pure (.yield (
      { candidate with affinityMicros := candidate.affinityMicros + affinityOf df }.addProvenance
        { layer := .oneHop, seed := some clause, sourceEntity := some seed,
          detail := "independent verified evidence seed" })))
    sources (.new .relationship "quorum_signature_cascade")

/-- The clauses of a query: its text, if there is one, before its evidence. -/
def clausesOf (query : Query) : List Text :=
  if trim query.text = [] then query.evidence else trim query.text :: query.evidence

def quorumOf (query : Query) : Nat :=
  min (max (query.quorum.getD index.config.quorum) 1) ((clausesOf query).length % 256)

/-- What the collection of one mode hands to the ranking. -/
structure Gathered where
  evidence : EvidenceMap
  complete : Bool
  estimated : Option Nat
  strategy : String

/-- One function of a quorum search. -/
def quorumStep (query : Query) (sources : Sources) (counted : Nat × Nat) (state : EvidenceMap × Bool) :
    Timed (ForInStep (EvidenceMap × Bool)) :=
  if counted.2 < quorumOf index query then pure (.yield state)
  else do
    let (candidate, lasted) ← quorumEvidence (sources[counted.1]?.getD [])
    return .yield (state.1.insert counted.1 candidate, state.2 && lasted)

def collectMultiEvidence (query : Query) : Timed (Except BelQueryError Gathered) :=
  if clausesOf query = [] then pure (.error .empty)
  else do
    let q ← countClauses index overlay (clausesOf query)
    let ((evidence, complete), lasted) ← each (quorumStep index query q.sources) q.counts.toList (∅, q.complete)
    return .ok { evidence := evidence, complete := complete && lasted, estimated := some q.estimated,
                 strategy := "quorum_signature_cascade" }

/-- The functions listed under the names that contain the text. -/
def collectNamed (normalized : Text) (named : List (Text × Ids)) (fresh : CandidateEvidence)
    (add : Text → Ids → CandidateEvidence → CandidateEvidence) : Timed (EvidenceMap × Bool) := do
  let ((evidence, going), lasted) ← each (fun (name, functions) (evidence, _) => do
      if containsText name normalized then
        let (evidence, lasted) ← each (fun function evidence => pure (.yield (
            upsertEvidence evidence function fresh (add name functions)))) functions.toList evidence
        if lasted then return .yield (evidence, true) else return .done (evidence, false)
      else return .yield (evidence, true)) named ((∅ : EvidenceMap), true)
  return (evidence, going && lasted)

def collectMotif (normalized : Text) : Timed (EvidenceMap × Bool) :=
  collectNamed normalized index.motifs.tokens.toList (.new .exact "motif_postings") fun name functions candidate =>
    { candidate with affinityMicros := candidate.affinityMicros + affinityOf functions.size }.addProvenance
      { layer := .motif, seed := some normalized, sourceEntity := index.motifs.entities[name]?,
        detail := "structural motif " ++ String.ofList name }

/-- A class without postings has no functions. -/
def collectOntology (normalized : Text) : Timed (EvidenceMap × Bool) :=
  collectNamed normalized
    (index.ontology.classes.toList.map fun (name, classId) =>
      (name, index.propagation.surfaceToFuncs[classId]?.getD ∅))
    (.new .ontology "ontology_postings") fun name _ candidate =>
      { candidate with ontologyBoost := candidate.ontologyBoost + 1 }.addProvenance
        { layer := .ontology, seed := some normalized, sourceEntity := index.ontology.classes[name]?,
          detail := "ontology class " ++ String.ofList name }

/-- The evidence of one surface candidate. -/
def surfaceEvidence (mode : SearchMode) (queryText : Text) (candidates : CandidateSet)
    (sources : Std.ExtTreeMap Nat Nat) (id : Nat) : CandidateEvidence :=
  let layer := match mode with
    | .numeric => .numeric
    | .token => .token
    | _ => if overlay.baseEntityCount ≤ id then .overlay else .surface
  let source := sources[id]?.getD id
  { CandidateEvidence.new candidates.matchKind candidates.strategy with
    affinityMicros := affinityOf ((relationshipPostings index overlay id).elim 1 (·.size)) }.addProvenance
    { layer := layer, seed := some queryText, sourceEntity := some source,
      detail := if source = id then "verified " ++ mode.debug ++ " match"
        else "verified token aggregate via instruction entity " ++ toString source }

/-- Only a token search traces its functions back to instructions. -/
def tokenSources (mode : SearchMode) (candidates : Ids) : Timed (Std.ExtTreeMap Nat Nat × Bool) :=
  if mode = .token then tokenFunctionSources index overlay candidates else pure (∅, true)

/-- The evidence of all surface candidates of an allowed kind. -/
def surfaceCandidates (query : Query) (mode : SearchMode) (queryText : Text) (candidates : CandidateSet)
    (sources : Std.ExtTreeMap Nat Nat) : Timed (EvidenceMap × Bool) :=
  each (fun id evidence => pure (.yield (
      if kindAllowed index overlay id query.kinds then
        evidence.insert id (surfaceEvidence index overlay mode queryText candidates sources id)
      else evidence))) candidates.ids.toList ∅

def collectSurfaceEvidence (engine : Engine) (query : Query) (mode : SearchMode) (queryText normalized : Text) :
    Timed (Except BelQueryError Gathered) := do
  match ← collectSurface index overlay engine mode (if mode = .regex then queryText else normalized) query.kinds with
  | .error e => return .error e
  | .ok candidates => do
    let (sources, sourced) ← tokenSources index overlay mode candidates.ids
    let (evidence, lasted) ← surfaceCandidates index overlay query mode queryText candidates sources
    return .ok { evidence := evidence,
                 complete := candidates.complete && sourced && lasted && !candidates.timedOut,
                 estimated := candidates.estimated, strategy := candidates.strategy }

/-- The match over the modes. -/
def gather (engine : Engine) (query : Query) (mode : SearchMode) (queryText normalized : Text) :
    Timed (Except BelQueryError Gathered) :=
  match mode with
  | .relationship => do
    match ← collectSurface index overlay engine .substring normalized [] with
    | .error e => return .error e
    | .ok seeds => do
      let evidence ← extendRelationships index overlay seeds.ids query.relationshipDepth normalized
      return .ok { evidence := evidence, complete := seeds.complete, estimated := seeds.estimated,
                   strategy := "seed_one_hop" }
  | .multiEvidence => collectMultiEvidence index overlay query
  | .motif => do
    let (evidence, complete) ← collectMotif index normalized
    return .ok { evidence := evidence, complete := complete, estimated := some evidence.size,
                 strategy := "motif_postings" }
  | .ontology => do
    let (evidence, complete) ← collectOntology index normalized
    return .ok { evidence := evidence, complete := complete, estimated := some evidence.size,
                 strategy := "ontology_postings" }
  | _ => collectSurfaceEvidence index overlay engine query mode queryText normalized

/-! ## Ranking -/

def querySignature (evidence : EvidenceMap) : Timed (Signature × Bool) := do
  let ((signature, going), lasted) ← each (fun (_, candidate) (signature, _) => do
      let (signature, lasted) ← each (fun seed signature => pure (.yield (
          if seed ∈ index.signatures.rareLookup ∨ index.entities.length ≤ seed then
            Signature.insert signature seed index.signatures.widthBits
          else signature))) candidate.seedEntities.toList signature
      if lasted then return .yield (signature, true) else return .done (signature, false))
    evidence.toList ((∅ : Signature), true)
  return (signature, going && lasted)

/-- A function's signature with what the overlay adds to it. -/
def visibleSignature (functionId : Nat) (signature : Signature) : Signature :=
  signature ∪ overlay.signatureDeltas[functionId]?.getD ∅

/-- The order of `(layer, source_entity, detail)`. -/
def provenanceLe (left right : Provenance) : Bool :=
  ((compare left.layer.ctorIdx right.layer.ctorIdx).then
    ((compare left.sourceEntity right.sourceEntity).then (compare left.detail right.detail))).isLE

/-- What the signature and the labels of its function add to a candidate. -/
def enrich (signature : Signature) (functionId : Nat) (candidate : CandidateEvidence) : CandidateEvidence :=
  let candidate := match index.signatures.signatures[functionId]? with
    | some own =>
      if signature = ∅ then candidate
      else
        let overlap := Signature.overlap (visibleSignature index overlay functionId own) signature
        let candidate := { candidate with signatureOverlap := overlap }
        if overlap = 0 then candidate
        else candidate.addProvenance
          { layer := .signature, seed := none, sourceEntity := none,
            detail := toString overlap ++ " fixed-width evidence bit(s) overlap" }
    | none => candidate
  { candidate with ontologyBoost := (index.ontology.funcLabels[functionId]?.elim 0 (·.size)) }

/-- The score in micros. The sum and the product under the division are those of `i64`. -/
def scoreOf (engine : Engine) (candidate : CandidateEvidence) (display : Text) : Int :=
  Int.bmod (candidate.matchKind.weight * 1000000 +
    (Int.bmod (candidate.affinityMicros * candidate.matchKind.exactness) (2 ^ 64)).tdiv 100 +
    (candidate.evidenceKinds.card : Int) * 100000 + (candidate.signatureOverlap : Int) * 10000 +
    (candidate.ontologyBoost : Int) * 25000 + engine.lengthSpecificity (Utf8.size display)) (2 ^ 64)

/-- One candidate as a hit, if its entity is visible. -/
def scoreHit (engine : Engine) (signature : Signature) (id : Nat) (candidate : CandidateEvidence) :
    Option ScoredHit :=
  (index.entity overlay id).map fun entity =>
    let display := (index.displayAt overlay id).getD entity.display
    let functionId := (entity.funcEntry.bind fun va => index.functionByVa[va]?).or
      (if entity.kind = .function then some id else none)
    let candidate := match functionId with
      | some functionId => enrich index overlay signature functionId candidate
      | none => candidate
    { entityId := entity.id, va := entity.va.getD (2 ^ 64 - 1), scoreMicros := scoreOf engine candidate display,
      candidate := { candidate with
        provenance := candidate.provenance.insertionSort (fun left right => provenanceLe left right) } }

/-- The running totals of the ranking, with the hits that are kept. -/
structure Ranking where
  total : Nat
  afterCursor : Nat
  scored : List ScoredHit

/-- `a` ranks strictly before `b`. -/
def ranksBefore (a b : ScoredHit) : Bool := compareHits a b = .lt

def Ranking.add (cursor : Option CursorKey) (heapLimit : Nat) (r : Ranking) (hit : ScoredHit) : Ranking :=
  if cursor.any fun key => !isAfterCursor hit key then { r with total := r.total + 1 }
  else { total := r.total + 1, afterCursor := r.afterCursor + 1,
         scored := TopK.offer ranksBefore heapLimit r.scored hit }

def rankHits (engine : Engine) (signature : Signature) (cursor : Option CursorKey) (heapLimit : Nat)
    (evidence : EvidenceMap) : Timed (Ranking × Bool) :=
  each (fun (id, candidate) r => pure (.yield (
      match scoreHit index overlay engine signature id candidate with
      | some hit => r.add cursor heapLimit hit
      | none => r))) evidence.toList { total := 0, afterCursor := 0, scored := [] }

def cursorFor (hit : ScoredHit) (queryHash : Nat) : CursorKey :=
  { indexGeneration := index.generation, overlayGeneration := overlay.generation, queryHash := queryHash,
    scoreMicros := hit.scoreMicros, entityId := hit.entityId, va := hit.va }

/-- The answer's form of a ranked hit. -/
def hitOf (ranked : ScoredHit) : Option Hit :=
  (index.entity overlay ranked.entityId).map fun entity =>
    { entityId := entity.id, kind := entity.kind,
      display := (index.displayAt overlay ranked.entityId).getD entity.display,
      va := entity.va, fileOffset := entity.fileOffset, functionVa := entity.funcEntry,
      provenance := ranked.candidate.provenance, scoreMicros := ranked.scoreMicros,
      reason := ranked.candidate.matchKind.debug ++ " match; " ++
        toString ranked.candidate.evidenceKinds.card ++ " independent evidence kind(s); " ++
        toString ranked.candidate.seedEntities.size ++ " seed(s)",
      strategy := ranked.candidate.strategy }

def refinementSuggestion (mode : SearchMode) (normalized : Text) (complete : Bool) (total : Nat) :
    Option String :=
  if !complete then
    some ("Result is a deterministic lower bound. Refine the query, use exact/prefix/token mode, " ++
      "or increase the deadline.")
  else if mode = .substring ∧ normalized.length < 3 ∧ 1000 < total then
    some ("Short query matched broadly. Prefer at least three characters or select an entity kind.")
  else none

/-! ## The search -/

structure Plan where
  mode : SearchMode
  queryText : Text
  normalized : Text
  queryHash : Nat

/-- The checks before any work, and the query as it was understood. -/
def planQuery (query : Query) : Except BelQueryError Plan :=
  if 16 * 1024 < Utf8.size query.text ∨ (query.evidence.any fun clause => 16 * 1024 < Utf8.size clause) = true then
    .error (.tooLarge "query text and each evidence clause are capped at 16 KiB")
  else if 64 < query.evidence.length then
    .error (.tooLarge "multi-evidence queries are capped at 64 clauses")
  else
    let (mode, queryText) := classifyQuery query
    let normalized := normalizeAscii queryText
    if normalized = [] ∧ mode ≠ .multiEvidence then .error .empty
    else .ok { mode := mode, queryText := queryText, normalized := normalized,
               queryHash := queryFingerprint query mode normalized }

/-- The cursor of a request, if it belongs to this query at this revision. -/
def openCursor (plan : Plan) (cursor : Option Text) : Except BelQueryError (Option CursorKey) :=
  match cursor with
  | none => .ok none
  | some value =>
    match CursorKey.decode value with
    | none => .error .invalidCursor
    | some key =>
      if key.indexGeneration ≠ index.generation ∨ key.overlayGeneration ≠ overlay.generation ∨
          key.queryHash ≠ plan.queryHash then .error .invalidCursor
      else .ok (some key)

/-- The page a ranking ends in. -/
def answer (plan : Plan) (limit : Nat) (gathered : Gathered) (r : Ranking) (complete : Bool) : SearchResult :=
  let pageLimit := max 1 (min limit 512)
  let page := (r.scored.insertionSort (fun a b => (compareHits a b).isLE)).take pageLimit
  let hasMoreRanked := decide (pageLimit < r.afterCursor)
  { hits := page.filterMap (hitOf index overlay)
    total := r.total
    totalKind := if complete then .exact else .lowerBound
    nextCursor := if hasMoreRanked || !complete then
        page.getLast?.map fun hit => (cursorFor index overlay hit plan.queryHash).encode
      else none
    truncated := hasMoreRanked || !complete
    timeoutOrPartial := !complete
    refinementSuggestion := refinementSuggestion plan.mode plan.normalized complete r.total
    estimatedCandidates := gathered.estimated
    strategy := gathered.strategy
    indexGeneration := index.generation
    overlayGeneration := overlay.generation }

def search (engine : Engine) (query : Query) (limit : Nat) (cursor : Option Text) :
    Timed (Except BelQueryError SearchResult) :=
  match planQuery query with
  | .error e => pure (.error e)
  | .ok plan =>
    match openCursor index overlay plan cursor with
    | .error e => pure (.error e)
    | .ok key => do
      match ← gather index overlay engine query plan.mode plan.queryText plan.normalized with
      | .error e => return .error e
      | .ok gathered => do
        let spent ← timedOut
        let (signature, signatureComplete) ← querySignature index gathered.evidence
        let (r, ranked) ← rankHits index overlay engine signature key (max 1 (min limit 512) + 1)
          gathered.evidence
        return .ok (answer index overlay plan limit gathered r
          (gathered.complete && !spent && signatureComplete && ranked))

end Collect

end Windy.Bel
