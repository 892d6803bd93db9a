import Windy.Bel.Cursor
import Windy.Bel.Overlay

/- Compaction and what a search sees of it (`Overlay::compact` in `analysis/bel/mod.rs`).

   Compaction leaves the tombstoned entities of the overlay out of its postings. A search that meets
   them before compaction drops them from its own answer, but their edges still lead it to
   functions, as seeds of a relationship or a quorum search, and their bits still count in a
   function's signature. So a tombstone on an entity of the overlay makes compaction visible.
   Tombstones on base entities do not: while there are only those, the postings are the ones
   compaction would build, and nothing but the generation changes.

   What is proved:
     1. `Tidy.pushEntity`, `Tidy.tombstone`, `Tidy.overrideFunction`: what keeps the
        postings in step with the entities.
     2. `tidy_fromProject`, `tidy_run`: they are in step after `from_project` and after
        every change that tombstones base entities only.
     3. `compacted_eq`: compacting such an overlay changes its generation and nothing else.
     4. `compact_invisible`: so no search answers differently. -/
namespace Windy.Bel

open Budget

/-! ## Postings in any order -/

theorem insert_insert_comm (s : Ids) (a b : Nat) : (s.insert a).insert b = (s.insert b).insert a := by
  apply Std.ExtTreeSet.ext_mem
  intro x
  simp only [Std.ExtTreeSet.mem_insert]
  tauto

section Post
variable {κ : Type} [Ord κ] [Std.TransOrd κ] [Std.LawfulEqOrd κ]

omit [Std.LawfulEqOrd κ] in
theorem getElem?_post (postings : Std.ExtTreeMap κ Ids) (k : κ) (id : Nat) (key : κ) :
    (post postings k id)[key]? = if compare k key = .eq then some ((postings[k]?.getD ∅ : Ids).insert id)
      else postings[key]? := by
  rw [post, Std.ExtTreeMap.getElem?_insert]

theorem post_comm (postings : Std.ExtTreeMap κ Ids) (k k' : κ) (id id' : Nat) :
    post (post postings k id) k' id' = post (post postings k' id') k id := by
  apply Std.ExtTreeMap.ext_getElem?
  intro key
  by_cases hkk : k = k'
  · subst hkk
    simp only [getElem?_post, Std.ReflCmp.compare_self, if_true, Option.getD_some]
    split
    · rw [insert_insert_comm]
    · rfl
  · have hne : compare k k' ≠ .eq := fun h => hkk (Std.LawfulEqCmp.eq_of_compare h)
    have hne' : compare k' k ≠ .eq := fun h => hkk (Std.LawfulEqCmp.eq_of_compare h).symm
    simp only [getElem?_post, if_neg hne, if_neg hne']
    by_cases hk : compare k key = .eq
    · obtain rfl := Std.LawfulEqCmp.eq_of_compare hk
      simp [hne']
    · simp [hk]

end Post

/-- A new key is one more entry. -/
theorem toList_insert_perm {β : Type} (m : Std.ExtTreeMap Nat β) {k : Nat} (v : β) (h : m[k]? = none) :
    (m.insert k v).toList.Perm ((k, v) :: m.toList) := by
  have hnodup : ∀ m : Std.ExtTreeMap Nat β, m.toList.Nodup := by
    intro m
    refine m.distinct_keys_toList.imp ?_
    rintro a b hab rfl
    exact hab (Std.ReflCmp.compare_self)
  rw [List.perm_ext_iff_of_nodup (hnodup _)]
  · rintro ⟨key, value⟩
    rw [List.mem_cons, Std.ExtTreeMap.mem_toList_iff_getElem?_eq_some, Std.ExtTreeMap.mem_toList_iff_getElem?_eq_some,
      Std.ExtTreeMap.getElem?_insert]
    split
    · next hkey =>
      obtain rfl := Std.LawfulEqCmp.eq_of_compare hkey
      simp [h, eq_comm]
    · next hkey =>
      have hne : key ≠ k := fun heq => hkey (heq ▸ Std.ReflCmp.compare_self)
      simp [hne]
  · refine List.nodup_cons.mpr ⟨fun hmem => ?_, hnodup m⟩
    rw [Std.ExtTreeMap.mem_toList_iff_getElem?_eq_some, h] at hmem
    cases hmem

namespace Overlay
variable {index : BelIndex} {overlay : Overlay index}

theorem foldl_post_comm (entries : List (Nat × Text)) (names : Std.ExtTreeMap Text Ids) (text : Text) (id : Nat) :
    entries.foldl (fun names entry => post names entry.2 entry.1) (post names text id) =
      post (entries.foldl (fun names entry => post names entry.2 entry.1) names) text id := by
  induction entries generalizing names with
  | nil => rfl
  | cons entry entries ih => rw [List.foldl_cons, List.foldl_cons, post_comm, ih]

theorem overrideNames_post (overrides : Std.ExtTreeMap Nat Text) (names : Std.ExtTreeMap Text Ids) (text : Text)
    (id : Nat) : overrideNames overrides (post names text id) = post (overrideNames overrides names) text id :=
  foldl_post_comm _ _ _ _

theorem overrideNames_insert {overrides : Std.ExtTreeMap Nat Text} {function : Nat} (h : overrides[function]? = none)
    (text : Text) (names : Std.ExtTreeMap Text Ids) :
    overrideNames (overrides.insert function text) names = post (overrideNames overrides names) text function := by
  have hperm := (toList_insert_perm overrides text h).foldl_eq'
    (f := fun names (entry : Nat × Text) => post names entry.2 entry.1)
    (fun x _ y _ z => post_comm z x.2 y.2 x.1 y.1) names
  unfold overrideNames
  rw [hperm, List.foldl_cons, foldl_post_comm]

/-! ## Postings in step with the entities -/

/-- The postings of all entities of an overlay. -/
def allPostings (overlay : Overlay index) : Postings :=
  (overlay.entities.zip overlay.normalized).foldl (Postings.add index) .none

/-- Only base entities are tombstoned, and the postings are those of the entities. -/
structure Tidy (overlay : Overlay index) : Prop where
  base : ∀ id ∈ overlay.tombstones, id < overlay.baseEntityCount
  names : overlay.names = overrideNames overlay.normalizedOverrides overlay.allPostings.names
  numeric : overlay.numeric.Perm overlay.allPostings.numeric
  surfaceToFuncs : overlay.surfaceToFuncs = overlay.allPostings.surfaceToFuncs
  signatureDeltas : overlay.signatureDeltas = overlay.allPostings.signatureDeltas

theorem tidy_empty (index : BelIndex) (generation : Nat) : Tidy (empty index generation) := by
  refine ⟨?_, rfl, .refl _, rfl, rfl⟩
  intro id h
  exact absurd h Std.ExtTreeSet.not_mem_empty

theorem Tidy.bump (h : Tidy overlay) : Tidy overlay.bump :=
  ⟨h.base, h.names, h.numeric, h.surfaceToFuncs, h.signatureDeltas⟩

theorem Tidy.tombstone (h : Tidy overlay) {id : Nat} (hid : id < index.entities.length) :
    Tidy (overlay.tombstone id) := by
  refine ⟨?_, h.names, h.numeric, h.surfaceToFuncs, h.signatureDeltas⟩
  intro other hother
  rcases Std.ExtTreeSet.mem_insert.mp hother with heq | hother
  · obtain rfl := Std.LawfulEqCmp.eq_of_compare heq
    show id < overlay.baseEntityCount
    rw [overlay.base_eq]
    exact hid
  · exact h.base other hother

theorem sortNumeric_perm (numeric : List (Nat × Nat)) : (sortNumeric numeric).Perm numeric :=
  List.perm_insertionSort _ numeric

/-- The sorted table does not depend on the order it was filled in. -/
theorem sortNumeric_eq {left right : List (Nat × Nat)} (h : left.Perm right) : sortNumeric left = sortNumeric right := by
  have hpairwise : ∀ xs : List (Nat × Nat), (sortNumeric xs).Pairwise
      fun a b => a.1 < b.1 ∨ (a.1 = b.1 ∧ a.2 ≤ b.2) := by
    intro xs
    have : IsTrans (Nat × Nat) fun a b => a.1 < b.1 ∨ (a.1 = b.1 ∧ a.2 ≤ b.2) := ⟨fun a b c hab hbc => by omega⟩
    have : Std.Total fun a b : Nat × Nat => a.1 < b.1 ∨ (a.1 = b.1 ∧ a.2 ≤ b.2) := ⟨fun a b => by omega⟩
    exact List.pairwise_insertionSort _ xs
  refine List.Perm.eq_of_pairwise ?_ (hpairwise left) (hpairwise right)
    ((sortNumeric_perm left).trans (h.trans (sortNumeric_perm right).symm))
  intro a b _ _ hab hba
  exact Prod.ext (by omega) (by omega)

theorem Tidy.sorted (h : Tidy overlay) : Tidy overlay.sorted :=
  ⟨h.base, h.names, (sortNumeric_perm _).trans h.numeric, h.surfaceToFuncs, h.signatureDeltas⟩

/-- Pushing an entity adds it to the postings. -/
theorem Tidy.pushEntity (h : Tidy overlay) (kind : EntityKind) (display normalized : Text)
    (va functionVa : Option Nat) : Tidy (overlay.pushEntity kind display normalized va functionVa) := by
  have hall : (overlay.pushEntity kind display normalized va functionVa).allPostings =
      overlay.allPostings.add index (overlay.newEntity kind display va functionVa, normalized) := by
    unfold allPostings
    show ((overlay.entities ++ [_]).zip (overlay.normalized ++ [normalized])).foldl _ _ = _
    rw [List.zip_append overlay.normalized_length.symm, List.foldl_append]
    rfl
  refine ⟨h.base, ?_, ?_, ?_, ?_⟩
  · rw [hall]
    show post overlay.names normalized _ = _
    rw [h.names, ← overrideNames_post]
    rfl
  · rw [hall]
    exact h.numeric.append_right _
  · rw [hall]
    simp only [Overlay.pushEntity]
    rw [h.surfaceToFuncs]
    rfl
  · rw [hall]
    simp only [Overlay.pushEntity]
    rw [h.signatureDeltas]
    rfl

/-- A first override adds its name. -/
theorem Tidy.overrideFunction (h : Tidy overlay) {function : Nat}
    (hnew : overlay.normalizedOverrides[function]? = none) (display : Text) :
    Tidy (overlay.overrideFunction function display) := by
  refine ⟨h.base, ?_, h.numeric, h.surfaceToFuncs, h.signatureDeltas⟩
  show post overlay.names _ function = overrideNames (overlay.normalizedOverrides.insert function _) _
  rw [overrideNames_insert hnew, h.names]
  rfl

/-! ## Compaction changes nothing but the generation -/

theorem Tidy.livePostings_eq (h : Tidy overlay) :
    overlay.livePostings = overlay.allPostings := by
  unfold livePostings allPostings
  congr 1
  rw [List.filter_eq_self]
  intro entry hentry
  obtain ⟨i, hi⟩ := List.mem_iff_getElem?.mp (List.of_mem_zip hentry).1
  have hid := overlay.id_eq i entry.1 hi
  have hlive : entry.1.id ∉ overlay.tombstones := by
    intro hmem
    have hlt := h.base _ hmem
    omega
  simpa using hlive

theorem compacted_eq (h : Tidy overlay)
    (hsorted : overlay.numeric = sortNumeric overlay.numeric) : overlay.compacted = overlay.bump := by
  unfold compacted Overlay.bump
  rw [h.livePostings_eq]
  have hnumeric : sortNumeric overlay.allPostings.numeric = overlay.numeric := by
    rw [← sortNumeric_eq h.numeric, ← hsorted]
  simp only [← h.names, ← h.surfaceToFuncs, ← h.signatureDeltas, hnumeric]

/-! ## Reachable overlays -/

theorem renamedFunction_eq_some {slot : AnnotationSlot} {function : Nat}
    (h : renamedFunction index slot = some function) :
    slot.slot.kind = .symbol ∧ index.functionByVa[slot.slot.va]? = some function := by
  unfold renamedFunction at h
  split at h
  · next hkind => exact ⟨hkind, (Option.filter_eq_some_iff.mp h).1⟩
  · cases h

theorem takeUp_overrides (overlay : Overlay index) (slot : AnnotationSlot) (function : Nat) :
    (overlay.takeUp slot).normalizedOverrides[function]? = overlay.normalizedOverrides[function]? ∨
      renamedFunction index slot = some function := by
  unfold takeUp
  dsimp only
  split
  · exact .inl rfl
  · cases hrenamed : renamedFunction index slot with
    | none => cases index.slots slot.slot <;> exact .inl rfl
    | some other =>
      by_cases heq : other = function
      · exact .inr (by rw [heq])
      · left
        have hinsert : (overlay.normalizedOverrides.insert other (normalizeAscii slot.display))[function]? =
            overlay.normalizedOverrides[function]? := by
          rw [Std.ExtTreeMap.getElem?_insert, if_neg fun h => heq (Std.LawfulEqCmp.eq_of_compare h)]
        cases index.slots slot.slot <;> exact hinsert

/-- The overlay with the name of a slot, if it renames a function. -/
def renamedBy (overlay : Overlay index) (slot : AnnotationSlot) : Overlay index :=
  match renamedFunction index slot with
  | some function => overlay.overrideFunction function slot.display
  | none => overlay

section Induct
variable {P : Overlay index → Prop}
  (hpush : ∀ {overlay : Overlay index} (kind : EntityKind) (display normalized : Text) (va functionVa : Option Nat),
    P overlay → P (overlay.pushEntity kind display normalized va functionVa))
  (htombstone : ∀ {overlay : Overlay index} {id : Nat}, id < index.entities.length → P overlay →
    P (overlay.tombstone id))
  (hoverride : ∀ {overlay : Overlay index} {va function : Nat} (display : Text),
    index.functionByVa[va]? = some function → overlay.normalizedOverrides[function]? = none → P overlay →
    P (overlay.overrideFunction function display))
include hpush htombstone hoverride

theorem takeUp_induct {overlay : Overlay index} (h : P overlay) {slot : AnnotationSlot}
    (hnew : ∀ function, renamedFunction index slot = some function → overlay.normalizedOverrides[function]? = none) :
    P (overlay.takeUp slot) := by
  unfold Overlay.takeUp
  dsimp only
  split
  · exact h
  · refine hpush _ _ _ _ _ ?_
    have hrename : P (overlay.renamedBy slot) := by
      unfold Overlay.renamedBy
      cases hrenamed : renamedFunction index slot with
      | none => exact h
      | some function =>
        exact hoverride slot.display (renamedFunction_eq_some hrenamed).2 (hnew function hrenamed) h
    cases hbase : index.slots slot.slot with
    | none => exact hrename
    | some id => exact htombstone (index.slot_lt _ id hbase) hrename

/-- The loop of `from_project`: a function is overridden by the one symbol at its entry. -/
theorem foldl_takeUp_induct {slots : List AnnotationSlot} (hdistinct : slots.Pairwise fun a b => a.slot ≠ b.slot) :
    ∀ {overlay : Overlay index}, P overlay →
      (∀ slot ∈ slots, ∀ function, renamedFunction index slot = some function →
        overlay.normalizedOverrides[function]? = none) →
      P (slots.foldl Overlay.takeUp overlay) := by
  induction slots with
  | nil => exact fun h _ => h
  | cons slot slots ih =>
    intro overlay h hnew
    obtain ⟨hslot, hrest⟩ := List.pairwise_cons.mp hdistinct
    refine ih hrest (takeUp_induct hpush htombstone hoverride h (hnew slot List.mem_cons_self)) ?_
    intro other hother function hrenamed
    rcases takeUp_overrides overlay slot function with heq | hsame
    · rw [heq]
      exact hnew other (List.mem_cons_of_mem _ hother) function hrenamed
    · -- Two symbols of one function are one slot.
      obtain ⟨hkind, hva⟩ := renamedFunction_eq_some hsame
      obtain ⟨hkind', hva'⟩ := renamedFunction_eq_some hrenamed
      have hvas := index.function_inj _ _ function hva hva'
      have hkey : slot.slot = other.slot := by
        cases hs : slot.slot
        cases ho : other.slot
        simp only [hs, ho] at hkind hkind' hvas
        rw [hkind, hkind', hvas]
      exact absurd hkey (hslot other hother)

/-- What holds of the empty overlay and is kept by every change of the loop holds of the
overlay of a state. -/
theorem fromProject_induct (analysis : Analysis) (p : Project) (hempty : P (empty index p.opSeq))
    (hsorted : ∀ {overlay : Overlay index}, P overlay → P overlay.sorted) : P (fromProject index analysis p) := by
  refine hsorted (foldl_takeUp_induct hpush htombstone hoverride (sortedSlots_distinct analysis p) hempty ?_)
  intro slot _ function _
  exact Std.ExtTreeMap.getElem?_empty

end Induct

theorem tidy_fromProject (analysis : Analysis) (p : Project) : Tidy (fromProject index analysis p) :=
  fromProject_induct (fun kind display normalized va functionVa h => h.pushEntity kind display normalized va functionVa)
    (fun hid h => h.tombstone hid) (fun display _ hnew h => h.overrideFunction hnew display) analysis p
    (tidy_empty index p.opSeq) Tidy.sorted

end Overlay

/-- A step of an embedder: one change, or a compaction that may be cancelled. -/
inductive OverlayStep where
  | apply (edit : AnnotationChange)
  | compact (cancel : Nat → Bool)

/-- The change tombstones base entities only. -/
def AnnotationChange.OnBase (index : BelIndex) : AnnotationChange → Prop
  | .upsert _ _ _ _ replaces => ∀ id, replaces = some id → id < index.entities.length
  | .tombstone id => id < index.entities.length

def OverlayStep.OnBase (index : BelIndex) : OverlayStep → Prop
  | .apply edit => edit.OnBase index
  | .compact _ => True

namespace Overlay
variable {index : BelIndex}

def step (overlay : Overlay index) : OverlayStep → Overlay index
  | .apply edit => overlay.applyChange edit
  | .compact cancel => (overlay.compact cancel).getD overlay

/-- Tidy, with its table in order. -/
def Settled (overlay : Overlay index) : Prop := Tidy overlay ∧ overlay.numeric = sortNumeric overlay.numeric

theorem Tidy.settled_sorted {overlay : Overlay index} (h : Tidy overlay) : Settled overlay.sorted :=
  ⟨h.sorted, (sortNumeric_eq (sortNumeric_perm overlay.numeric)).symm⟩

theorem Settled.step {overlay : Overlay index} (h : Settled overlay) {s : OverlayStep} (hs : s.OnBase index) :
    Settled (overlay.step s) := by
  cases s with
  | apply edit =>
    cases edit with
    | upsert kind display va functionVa replaces =>
      cases replaces with
      | none => exact (h.1.pushEntity kind display (normalizeAscii display) va functionVa).bump.settled_sorted
      | some replaced =>
        have htidy := h.1.tombstone (hs replaced rfl)
        exact (htidy.pushEntity kind display (normalizeAscii display) va functionVa).bump.settled_sorted
    | tombstone id => exact (Tidy.tombstone h.1 hs).bump.settled_sorted
  | compact cancel =>
    show Settled ((overlay.compact cancel).getD overlay)
    unfold compact
    split
    · exact h
    · rw [Option.getD_some, compacted_eq h.1 h.2]
      exact ⟨h.1.bump, h.2⟩

/-- What holds after every run of changes that tombstone base entities only. -/
theorem settled_run {steps : List OverlayStep} (hsteps : ∀ s ∈ steps, s.OnBase index) {overlay : Overlay index}
    (h : Settled overlay) : Settled (steps.foldl Overlay.step overlay) := by
  induction steps generalizing overlay with
  | nil => exact h
  | cons s steps ih =>
    exact ih (fun s' hs' => hsteps s' (List.mem_cons_of_mem _ hs')) (h.step (hsteps s List.mem_cons_self))

/-! ## What a search sees -/

/-- What a caller reads of an answer, its cursor apart. -/
def shown (r : Except BelQueryError SearchResult) : Except BelQueryError (List Hit × Nat) :=
  r.map fun page => (page.hits, page.total)

theorem search_bump (overlay : Overlay index) (engine : Engine) (query : Query) (limit : Nat) (c : Clock) (m : Meter) :
    shown ((search index overlay.bump engine query limit none).run c m).1 =
      shown ((search index overlay engine query limit none).run c m).1 := by
  unfold search
  cases planQuery query with
  | error e => rfl
  | ok plan =>
    have hgather : gather index overlay.bump engine query plan.mode plan.queryText plan.normalized =
        gather index overlay engine query plan.mode plan.queryText plan.normalized := rfl
    simp only [openCursor, Timed.run_bind, hgather]
    cases ((gather index overlay engine query plan.mode plan.queryText plan.normalized).run c m).1 with
    | error e => rfl
    | ok gathered => rfl

theorem rankedList_bump (overlay : Overlay index) (engine : Engine) (query : Query) :
    rankedList index overlay.bump engine query = rankedList index overlay engine query := rfl

/-- A run of changes that tombstone base entities only ends in an overlay whose
compaction no search can see. -/
theorem compact_invisible (analysis : Analysis) (p : Project) {steps : List OverlayStep}
    (hsteps : ∀ s ∈ steps, s.OnBase index) {cancel : Nat → Bool} {compacted : Overlay index}
    (hcompact : (steps.foldl Overlay.step (fromProject index analysis p)).compact cancel = some compacted)
    (engine : Engine) (query : Query) :
    rankedList index compacted engine query =
        rankedList index (steps.foldl Overlay.step (fromProject index analysis p)) engine query ∧
      ∀ limit c m, shown ((search index compacted engine query limit none).run c m).1 =
        shown ((search index (steps.foldl Overlay.step (fromProject index analysis p)) engine query limit none).run
          c m).1 := by
  have hstart : Settled (fromProject index analysis p) :=
    ⟨tidy_fromProject analysis p, (sortNumeric_eq (sortNumeric_perm _)).symm⟩
  obtain ⟨htidy, hsorted⟩ := settled_run hsteps hstart
  have hbump : compacted = (steps.foldl Overlay.step (fromProject index analysis p)).bump := by
    unfold compact at hcompact
    split at hcompact
    · cases hcompact
    · rw [← Option.some.inj hcompact, compacted_eq htidy hsorted]
  rw [hbump]
  exact ⟨rankedList_bump _ engine query, fun limit c m => search_bump _ engine query limit c m⟩

end Overlay

/-! A project without annotations, and a note that is put on a function and removed. -/

def bareAnalysis : Analysis := { functions := [], entry_inj := List.nodup_nil }

def bareProject : Project :=
  { symbols := ∅, comments := { byAddr := ∅, byFunction := ∅ }, typedGlobals := ∅, functionSignatures := ∅,
    functionFrames := ∅, functionMemory := ∅, aliasHistory := [], focus := none, opSeq := 0, functions := ∅ }

theorem fromProject_bare (index : BelIndex) :
    Overlay.fromProject index bareAnalysis bareProject = Overlay.empty index 0 := by
  have hempty : ∀ {β : Type}, entriesOf (∅ : Map β) = [] := by
    intro β
    simp [entriesOf]
  have hslots : currentAnnotationSlots bareAnalysis bareProject = [] := by
    simp [currentAnnotationSlots, slotsOf, bareProject, hempty]
  unfold Overlay.fromProject sortedSlots
  rw [hslots]
  rfl

def noteQuery : Query :=
  { text := "note".toList, mode := .relationship, evidence := [], quorum := none, relationshipDepth := 1, kinds := [] }

def addNote : OverlayStep := .apply (.upsert .comment "note".toList none (some 0x1000) none)

theorem compact_invisible_note :
    ∃ compacted, ([addNote, .apply (.tombstone 1)].foldl Overlay.step
        (Overlay.fromProject sampleIndex bareAnalysis bareProject)).compact (fun _ => false) = some compacted ∧
      rankedList sampleIndex compacted plainEngine noteQuery =
        rankedList sampleIndex ([addNote, .apply (.tombstone 1)].foldl Overlay.step
          (Overlay.fromProject sampleIndex bareAnalysis bareProject)) plainEngine noteQuery ∧
      (rankedList sampleIndex compacted plainEngine noteQuery).toOption.map (List.map ScoredHit.entityId) = some [0] := by
  have hsteps : ∀ s ∈ [addNote, .apply (.tombstone 1)], s.OnBase sampleIndex := by
    intro s hs
    rcases List.mem_cons.mp hs with rfl | hs
    · intro id h
      cases h
    · obtain rfl := List.mem_singleton.mp hs
      show 1 < 2
      omega
  have hcompact : ([addNote, .apply (.tombstone 1)].foldl Overlay.step
      (Overlay.fromProject sampleIndex bareAnalysis bareProject)).compact (fun _ => false) =
        some ([addNote, .apply (.tombstone 1)].foldl Overlay.step
          (Overlay.fromProject sampleIndex bareAnalysis bareProject)).compacted := by
    rw [fromProject_bare]
    rfl
  refine ⟨_, hcompact, (Overlay.compact_invisible bareAnalysis bareProject hsteps hcompact plainEngine noteQuery).1, ?_⟩
  rw [fromProject_bare]
  decide +kernel

/-- The removed note is not found, but before compaction it still leads to its function. -/
theorem compact_hides_note :
    ∃ compacted, ([addNote, .apply (.tombstone 2)].foldl Overlay.step
        (Overlay.fromProject sampleIndex bareAnalysis bareProject)).compact (fun _ => false) = some compacted ∧
      (rankedList sampleIndex ([addNote, .apply (.tombstone 2)].foldl Overlay.step
        (Overlay.fromProject sampleIndex bareAnalysis bareProject)) plainEngine noteQuery).toOption.map
          (List.map ScoredHit.entityId) = some [0] ∧
      (rankedList sampleIndex compacted plainEngine noteQuery).toOption.map (List.map ScoredHit.entityId) = some [] := by
  rw [fromProject_bare]
  exact ⟨_, rfl, by decide +kernel, by decide +kernel⟩

end Windy.Bel
