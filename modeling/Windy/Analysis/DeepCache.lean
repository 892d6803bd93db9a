import Windy.Analysis.DeepIndex

/- The cache of the deep index (`load_or_build_cached` in `analysis/compact_index.rs`, `load`
   and `store` in `analysis/structural_cache.rs`).

   The index with the digest of its records is stored in one file of the cache, the records in
   another one. A later call reads the first file, with a checksum of its own, and looks at the
   length of the second. The calls of several processes may meet in the two files, and each may
   end between any two of its steps.

   The hash and the format of the first file (`Codec`) are not part of the repository.

   What is proved:
     1. A hit has records with the hash of the index exactly when the second file does not have
        other records of the same length (`deepIndex_iff`, with the shape of the index).
     2. If nothing but such calls for one image touches the two files, in whatever order their
        steps are taken and wherever they end, every hit has the right records
        (`paired_of_reaches`; `reaches_of_call` says that a call takes such steps).

   Correspondence:
     `structural_cache::load`, `store` ↔ the same
     `load_or_build_cached` ↔ `loadOrBuildCached` (`rebuild`, `install` on a miss) -/
namespace Windy.DeepIndex
open CodeBuild (Decoder Decodes)
open Sketch (LoadedPe)

/-! ## The two files -/

structure Envelope where
  abi : String
  imageSha256 : String
  payloadSha256 : String
  payload : List UInt8

/-- `postcard`, for the two types of the first file. -/
structure Codec where
  encodeEnvelope : Envelope → List UInt8
  decodeEnvelope : List UInt8 → Option Envelope
  encodeIndex : CompactIndex → List UInt8
  decodeIndex : List UInt8 → Option CompactIndex

/-- The two files of one key: the index and its records. -/
structure Files where
  cache : Option (List UInt8)
  data : Option (List UInt8)

/-- Which operations on the files work, the clock, and what the pruning of the cache leaves. -/
structure Host where
  readsCache : Bool
  createsTemporary : Bool
  accepts : List UInt8 → List UInt8 → Bool
  flushes : Bool
  syncs : Bool
  removesData : Bool
  installsData : Bool
  createsEnvelope : Bool
  quarantines : Bool
  installsCache : Bool
  restoresCache : Bool
  buildMs : Nat
  hitMs : Nat
  prune : Files → Files

/-- What a call works on: the image, if it opens, and the key of its files. -/
structure Request where
  pe : Option LoadedPe
  imageSha256 : String
  bitness : Nat
  dataPath : String

def Request.abi (r : Request) : String := "v3-deep-2-" ++ toString r.bitness ++ "-disk"

section Cache
variable (codec : Codec) (sha : List UInt8 → String) (decoder : Decoder Detail)

/-- The index that the first file has for the key. -/
def load (r : Request) (file : Option (List UInt8)) : Option CompactIndex := do
  let bytes ← file
  let envelope ← codec.decodeEnvelope bytes
  if envelope.abi ≠ r.abi ∨ envelope.imageSha256 ≠ r.imageSha256 then none
  else if sha envelope.payload ≠ envelope.payloadSha256 then none
  else codec.decodeIndex envelope.payload

/-- The first file that `store` writes for an index. -/
def storedBytes (r : Request) (index : CompactIndex) : List UInt8 :=
  let payload := codec.encodeIndex index
  codec.encodeEnvelope ⟨r.abi, r.imageSha256, sha payload, payload⟩

/-- An old file is moved away first, and moved back if the new one does not get its name. -/
def store (host : Host) (r : Request) (index : CompactIndex) (files : Files) : Bool × Files :=
  if !host.createsEnvelope then (false, files)
  else if files.cache.isSome && !host.quarantines then (false, files)
  else if host.installsCache then (true, { files with cache := some (storedBytes codec sha r index) })
  else if host.restoresCache then (false, files)
  else (false, { files with cache := none })

/-- The second file becomes the new one, and the index is stored. -/
def install (host : Host) (r : Request) (built : CompactIndex) (payload : List UInt8) (files : Files) :
    Option CompactIndex × Files :=
  if !host.syncs then (none, files)
  else if files.data.isSome && !host.removesData then (none, files)
  else if !host.installsData then (none, { files with data := none })
  else
    let stored := store codec sha host r built { files with data := some payload }
    if stored.1 then (some { built with cacheHit := false }, host.prune stored.2) else (none, stored.2)

/-- The index is built anew, into a temporary file. -/
def rebuild (host : Host) (r : Request) (files : Files) : Option CompactIndex × Files :=
  if !host.createsTemporary then (none, files)
  else
    match r.pe.bind fun pe =>
      buildToWriter host.accepts decoder pe sha host.flushes host.buildMs (some r.dataPath) with
    | none => (none, files)
    | some (built, payload) => install codec sha host r built payload files

def loadOrBuildCached (host : Host) (r : Request) (files : Files) : Option CompactIndex × Files :=
  if files.cache.isSome && !host.readsCache then (none, files)
  else
    match load codec sha r files.cache, files.data with
    | some cached, some data =>
      if data.length = cached.diskBytes then
        (some { cached with elapsedMs := host.hitMs, cacheHit := true, storagePath := some r.dataPath }, files)
      else rebuild codec sha decoder host r files
    | _, _ => rebuild codec sha decoder host r files

end Cache

/-! ## What should hold -/

/-- Whenever the cache hits, the second file has the hash of the index. -/
def Trustworthy (codec : Codec) (sha : List UInt8 → String) (decoder : Decoder Detail) (r : Request) (files : Files) : Prop :=
  ∀ host index files', loadOrBuildCached codec sha decoder host r files = (some index, files') → index.cacheHit = true →
    ∃ data, files'.data = some data ∧ sha data = index.payloadSha256

/-! ## Hits -/

section Hits
variable {codec : Codec} {sha : List UInt8 → String} {decoder : Decoder Detail} {r : Request} {files files' : Files}

theorem install_not_hit {host : Host} {built index : CompactIndex} {payload : List UInt8}
    (h : install codec sha host r built payload files = (some index, files')) : index.cacheHit = false := by
  unfold install at h
  split at h
  · cases h
  split at h
  · cases h
  split at h
  · cases h
  dsimp only at h
  split at h
  · cases h
    rfl
  · cases h

theorem rebuild_not_hit {host : Host} {index : CompactIndex}
    (h : rebuild codec sha decoder host r files = (some index, files')) : index.cacheHit = false := by
  unfold rebuild at h
  split at h
  · cases h
  split at h
  · cases h
  · exact install_not_hit h

theorem isSome_of_load {file : Option (List UInt8)} {cached : CompactIndex} (h : load codec sha r file = some cached) :
    file.isSome = true := by
  obtain ⟨bytes, hfile, -⟩ := Option.bind_eq_some_iff.mp h
  rw [hfile]
  rfl

/-- A call hits exactly when the first file can be read and has an index of the key, and the second one has its length. -/
theorem hit_iff {host : Host} {index : CompactIndex} :
    (loadOrBuildCached codec sha decoder host r files = (some index, files') ∧ index.cacheHit = true) ↔
      host.readsCache = true ∧ ∃ cached data, load codec sha r files.cache = some cached ∧ files.data = some data ∧
        data.length = cached.diskBytes ∧ files' = files ∧
        index = { cached with elapsedMs := host.hitMs, cacheHit := true, storagePath := some r.dataPath } := by
  constructor
  · rintro ⟨h, hhit⟩
    rw [loadOrBuildCached] at h
    split at h
    · cases h
    next hreads =>
    split at h
    · next cached data hload hdata =>
      split at h
      · next hlen =>
        cases h
        rw [isSome_of_load hload, Bool.true_and, Bool.not_eq_true, Bool.not_eq_false'] at hreads
        exact ⟨hreads, cached, data, hload, hdata, hlen, rfl, rfl⟩
      · rw [rebuild_not_hit h] at hhit
        cases hhit
    · rw [rebuild_not_hit h] at hhit
      cases hhit
  · rintro ⟨hreads, cached, data, hload, hdata, hlen, rfl, rfl⟩
    refine ⟨?_, rfl⟩
    rw [loadOrBuildCached, hreads, Bool.not_true, Bool.and_false, if_neg Bool.false_ne_true, hload, hdata]
    exact if_pos hlen

/-- The second file does not have other records of the length that the index says. -/
def Paired (codec : Codec) (sha : List UInt8 → String) (r : Request) (files : Files) : Prop :=
  ∀ cached data, load codec sha r files.cache = some cached → files.data = some data →
    data.length = cached.diskBytes → sha data = cached.payloadSha256

/-- A host on which everything works. -/
def Host.working : Host :=
  ⟨true, true, fun _ _ => true, true, true, true, true, true, true, true, true, 0, 0, fun files => files⟩

theorem trustworthy_iff : Trustworthy codec sha decoder r files ↔ Paired codec sha r files := by
  constructor
  · intro h cached data hload hdata hlen
    obtain ⟨hcall, hhit⟩ := (@hit_iff codec sha decoder r files files Host.working _).mpr
      ⟨rfl, cached, data, hload, hdata, hlen, rfl, rfl⟩
    obtain ⟨found, hfound, hsha⟩ := h Host.working _ files hcall hhit
    rw [hdata] at hfound
    cases hfound
    exact hsha
  · intro h host index files' hcall hhit
    obtain ⟨-, cached, data, hload, hdata, hlen, rfl, rfl⟩ := hit_iff.mp ⟨hcall, hhit⟩
    exact ⟨data, hdata, h cached data hload hdata hlen⟩

end Hits

/-- The request for the usual image, and a format that has its index. -/
def usualRequest : Request := ⟨some usualPe, "image", 64, "image-v3-deep-2-64-disk.bin"⟩

def usualCodec : Codec where
  encodeEnvelope _ := [0]
  decodeEnvelope _ := some ⟨usualRequest.abi, "image", hashText [1], [1]⟩
  encodeIndex _ := [1]
  decodeIndex _ := some (oneIndex 0x1000)

theorem load_usual : load usualCodec hashText usualRequest (some [0]) = some (oneIndex 0x1000) := by
  rw [load]
  rfl

section Runs
variable (codec : Codec) (sha : List UInt8 → String) (decoder : Decoder Detail) (opened : List UInt8 → Option LoadedPe)
  (r : Request)

/-- The index and its records come from an image with the hash of the key. -/
def Makes (index : CompactIndex) (payload : List UInt8) : Prop :=
  ∃ image pe accepts flushes elapsedMs storagePath, sha image = r.imageSha256 ∧ opened image = some pe ∧
    buildToWriter accepts decoder pe sha flushes elapsedMs storagePath = some (index, payload)

/-- The two files, and the files of the first kind that calls have moved away. -/
structure Shared where
  files : Files
  quarantined : List (List UInt8)

/-- What one step of some call does to the files. A call that ends early takes no further step. -/
inductive Step : Shared → Shared → Prop
  | removeData (s : Shared) : Step s { s with files := { s.files with data := none } }
  | installData (s : Shared) {index : CompactIndex} {payload : List UInt8}
      (hmakes : Makes sha decoder opened r index payload) : Step s { s with files := { s.files with data := some payload } }
  | removeCache (s : Shared) : Step s { s with files := { s.files with cache := none } }
  | quarantine (s : Shared) {old : List UInt8} (hold : s.files.cache = some old) :
      Step s ⟨{ s.files with cache := none }, old :: s.quarantined⟩
  | restore (s : Shared) {old : List UInt8} (hold : old ∈ s.quarantined) :
      Step s { s with files := { s.files with cache := some old } }
  | installCache (s : Shared) {index : CompactIndex} {payload : List UInt8}
      (hmakes : Makes sha decoder opened r index payload) :
      Step s { s with files := { s.files with cache := some (storedBytes codec sha r index) } }

/-- What is read back from the first file is what was written, less the path. -/
structure RoundTrips : Prop where
  envelope : ∀ e, codec.decodeEnvelope (codec.encodeEnvelope e) = some e
  index : ∀ i, codec.decodeIndex (codec.encodeIndex i) = some { i with storagePath := none }

/-- Every file is one that a call for the image has written. -/
structure Written (s : Shared) : Prop where
  data : ∀ data, s.files.data = some data → ∃ index, Makes sha decoder opened r index data
  cache : ∀ bytes, s.files.cache = some bytes →
    ∃ index payload, Makes sha decoder opened r index payload ∧ bytes = storedBytes codec sha r index
  quarantined : ∀ bytes ∈ s.quarantined,
    ∃ index payload, Makes sha decoder opened r index payload ∧ bytes = storedBytes codec sha r index

variable {codec sha decoder opened r}

theorem written_start : Written codec sha decoder opened r ⟨⟨none, none⟩, []⟩ where
  data _ h := by cases h
  cache _ h := by cases h
  quarantined _ h := absurd h List.not_mem_nil

theorem Written.step {s s' : Shared} (h : Written codec sha decoder opened r s) (hstep : Step codec sha decoder opened r s s') :
    Written codec sha decoder opened r s' := by
  cases hstep with
  | removeData =>
    refine ⟨fun data hdata => ?_, h.cache, h.quarantined⟩
    cases hdata
  | installData hmakes =>
    refine ⟨fun data hdata => ?_, h.cache, h.quarantined⟩
    cases hdata
    exact ⟨_, hmakes⟩
  | removeCache =>
    refine ⟨h.data, fun bytes hcache => ?_, h.quarantined⟩
    cases hcache
  | quarantine hold =>
    refine ⟨h.data, fun bytes hcache => ?_, fun bytes hbytes => ?_⟩
    · cases hcache
    · rcases List.mem_cons.mp hbytes with rfl | hbytes
      · exact h.cache bytes hold
      · exact h.quarantined bytes hbytes
  | restore hold =>
    refine ⟨h.data, fun bytes hcache => ?_, h.quarantined⟩
    cases hcache
    exact h.quarantined _ hold
  | installCache hmakes =>
    refine ⟨h.data, fun bytes hcache => ?_, h.quarantined⟩
    cases hcache
    exact ⟨_, _, hmakes, rfl⟩

/-- An image has one payload. -/
theorem Makes.payload_eq (hdecodes : Decodes decoder) (hinjective : Function.Injective sha) {index index' : CompactIndex}
    {payload payload' : List UInt8} (h : Makes sha decoder opened r index payload)
    (h' : Makes sha decoder opened r index' payload') : payload = payload' := by
  obtain ⟨image, pe, _, _, _, _, hsha, hopened, hbuild⟩ := h
  obtain ⟨image', pe', _, _, _, _, hsha', hopened', hbuild'⟩ := h'
  obtain rfl : image = image' := hinjective (hsha.trans hsha'.symm)
  obtain rfl : pe = pe' := Option.some.inj (hopened.symm.trans hopened')
  exact (buildToWriter_eq hbuild hdecodes).1.trans (buildToWriter_eq hbuild' hdecodes).1.symm

theorem load_storedBytes (htrips : RoundTrips codec) (index : CompactIndex) :
    load codec sha r (some (storedBytes codec sha r index)) = some { index with storagePath := none } := by
  rw [load, Option.bind_eq_bind, Option.bind_some, storedBytes, htrips.envelope, Option.bind_eq_bind, Option.bind_some,
    if_neg (by simp), if_neg (by simp)]
  exact htrips.index index

theorem Written.paired {s : Shared} (h : Written codec sha decoder opened r s) (hdecodes : Decodes decoder)
    (hinjective : Function.Injective sha) (htrips : RoundTrips codec) : Paired codec sha r s.files := by
  intro cached data hload hdata _
  obtain ⟨bytes, hcache, -⟩ := Option.bind_eq_some_iff.mp hload
  obtain ⟨index, payload, hmakes, rfl⟩ := h.cache bytes hcache
  obtain ⟨index', hmakes'⟩ := h.data data hdata
  rw [hcache, load_storedBytes htrips] at hload
  cases hload
  rw [Makes.payload_eq hdecodes hinjective hmakes' hmakes]
  obtain ⟨image, pe, _, _, _, _, -, -, hbuild⟩ := hmakes
  exact (buildToWriter_eq hbuild hdecodes).2.2.2.1.symm

/-- Whatever steps calls for one image take, in whatever order, the two files belong together. -/
theorem paired_of_reaches {s : Shared} (hdecodes : Decodes decoder) (hinjective : Function.Injective sha)
    (htrips : RoundTrips codec) (h : Relation.ReflTransGen (Step codec sha decoder opened r) ⟨⟨none, none⟩, []⟩ s) :
    Paired codec sha r s.files := by
  have hwritten : Written codec sha decoder opened r s := by
    induction h with
    | refl => exact written_start
    | tail _ hstep ih => exact ih.step hstep
  exact hwritten.paired hdecodes hinjective htrips

/-! ## A call takes these steps -/

/-- An old first file is moved away before there is a new one. -/
theorem reaches_quarantine (files : Files) (q : List (List UInt8)) : ∃ q', (∀ old, files.cache = some old → old ∈ q') ∧
    Relation.ReflTransGen (Step codec sha decoder opened r) ⟨files, q⟩ ⟨{ files with cache := none }, q'⟩ := by
  obtain ⟨cache, data⟩ := files
  cases cache with
  | none =>
    refine ⟨q, fun old hold => ?_, .refl⟩
    cases hold
  | some bytes =>
    refine ⟨bytes :: q, fun old hold => ?_, .single (.quarantine ⟨⟨some bytes, data⟩, q⟩ rfl)⟩
    cases hold
    exact List.mem_cons_self

theorem reaches_store {host : Host} {index : CompactIndex} {payload : List UInt8}
    (hmakes : Makes sha decoder opened r index payload) (files : Files) (q : List (List UInt8)) :
    ∃ q', Relation.ReflTransGen (Step codec sha decoder opened r) ⟨files, q⟩ ⟨(store codec sha host r index files).2, q'⟩ := by
  obtain ⟨q', hold, hmoved⟩ := @reaches_quarantine codec sha decoder opened r files q
  unfold store
  split
  · exact ⟨q, .refl⟩
  split
  · exact ⟨q, .refl⟩
  split
  · exact ⟨q', hmoved.tail (.installCache ⟨{ files with cache := none }, q'⟩ hmakes)⟩
  split
  · obtain ⟨cache, data⟩ := files
    cases cache with
    | none => exact ⟨q', hmoved⟩
    | some bytes => exact ⟨q', hmoved.tail (.restore ⟨⟨none, data⟩, q'⟩ (hold bytes rfl))⟩
  · exact ⟨q', hmoved⟩

theorem reaches_install {host : Host} {built : CompactIndex} {payload : List UInt8}
    (hmakes : Makes sha decoder opened r built payload)
    (hprune : ∀ files q, Relation.ReflTransGen (Step codec sha decoder opened r) ⟨files, q⟩ ⟨host.prune files, q⟩)
    (files : Files) (q : List (List UInt8)) : ∃ q', Relation.ReflTransGen (Step codec sha decoder opened r) ⟨files, q⟩
      ⟨(install codec sha host r built payload files).2, q'⟩ := by
  have hremoved : Relation.ReflTransGen (Step codec sha decoder opened r) ⟨files, q⟩ ⟨{ files with data := none }, q⟩ :=
    .single (.removeData ⟨files, q⟩)
  have hinstalled : Relation.ReflTransGen (Step codec sha decoder opened r) ⟨files, q⟩ ⟨{ files with data := some payload }, q⟩ :=
    hremoved.tail (.installData ⟨{ files with data := none }, q⟩ hmakes)
  obtain ⟨q', hstored⟩ := @reaches_store codec sha decoder opened r host _ _ hmakes { files with data := some payload } q
  unfold install
  split
  · exact ⟨q, .refl⟩
  split
  · exact ⟨q, .refl⟩
  split
  · exact ⟨q, hremoved⟩
  dsimp only
  split
  · exact ⟨q', (hinstalled.trans hstored).trans (hprune _ q')⟩
  · exact ⟨q', hinstalled.trans hstored⟩

/-- A call for an image with the hash of the key takes steps of a run, if the pruning does. -/
theorem reaches_of_call {host : Host}
    (himage : ∀ pe, r.pe = some pe → ∃ image, sha image = r.imageSha256 ∧ opened image = some pe)
    (hprune : ∀ files q, Relation.ReflTransGen (Step codec sha decoder opened r) ⟨files, q⟩ ⟨host.prune files, q⟩)
    (files : Files) (q : List (List UInt8)) : ∃ q', Relation.ReflTransGen (Step codec sha decoder opened r) ⟨files, q⟩
      ⟨(loadOrBuildCached codec sha decoder host r files).2, q'⟩ := by
  have hrebuild : ∃ q', Relation.ReflTransGen (Step codec sha decoder opened r) ⟨files, q⟩
      ⟨(rebuild codec sha decoder host r files).2, q'⟩ := by
    unfold rebuild
    split
    · exact ⟨q, .refl⟩
    split
    · exact ⟨q, .refl⟩
    · next built payload hbuilt =>
      obtain ⟨pe, hpe, hbuild⟩ := Option.bind_eq_some_iff.mp hbuilt
      obtain ⟨image, hsha, hopened⟩ := himage pe hpe
      exact reaches_install ⟨image, pe, _, _, _, _, hsha, hopened, hbuild⟩ hprune files q
  unfold loadOrBuildCached
  split
  · exact ⟨q, .refl⟩
  split
  · split
    · exact ⟨q, .refl⟩
    · exact hrebuild
  · exact hrebuild

/-- Pruning removes files. -/
theorem reaches_prune {prune : Files → Files} (hcache : ∀ files, (prune files).cache = files.cache ∨ (prune files).cache = none)
    (hdata : ∀ files, (prune files).data = files.data ∨ (prune files).data = none) (files : Files) (q : List (List UInt8)) :
    Relation.ReflTransGen (Step codec sha decoder opened r) ⟨files, q⟩ ⟨prune files, q⟩ := by
  have hfirst : Relation.ReflTransGen (Step codec sha decoder opened r) ⟨files, q⟩ ⟨⟨(prune files).cache, files.data⟩, q⟩ := by
    rcases hcache files with hsame | hnone
    · rw [hsame]
    · rw [hnone]
      exact .single (.removeCache ⟨files, q⟩)
  refine hfirst.trans ?_
  rcases hdata files with hsame | hnone
  · rw [← hsame]
  · have hpruned : prune files = ⟨(prune files).cache, none⟩ := by rw [← hnone]
    rw [hpruned]
    exact .single (.removeData ⟨⟨(prune files).cache, files.data⟩, q⟩)

end Runs

end Windy.DeepIndex
