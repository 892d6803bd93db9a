import Windy.Bel.Relations
import Windy.Bel.TokenSearch
import Windy.Lib.Layers

/- What a search by relationship and a search by several clues return (`extend_relationships`,
   `collect_multi_evidence` and `relationship_postings` in `analysis/bel/query.rs`).

   Both begin with the entities that contain a text and take the functions these are attached to.
   The one goes on from there along the calls, one layer of neighbors after the other; the other
   counts for each function the clauses that lead to it.

   What is proved, of an index that was built under the overlay of any state:
     `mem_relationshipPostings`: the postings of an entity are the functions it is attached
       to in any of the tables, or owns;
     `mem_extendRelationships`: the evidence are the functions within so many calls;
     `mem_collectMultiEvidence`: the evidence are the functions that enough clauses reach;
     `related_answers`: so an exact answer counts these functions, and exact answers that
       follow one another list them. -/
namespace Windy.Bel

open Budget Budget.Timed

section Attached
variable (index : BelIndex) (overlay : Overlay index)

/-! ## Functions an entity is attached to -/

/-- The function an entity is or belongs to. -/
def Owned (e f : Nat) : Prop :=
  ∃ item, index.entity overlay e = some item ∧
    if item.kind = .function then f = item.id else item.funcEntry.bind (fun va => index.functionByVa[va]?) = some f

/-- An entity is attached to a function by a row of one of the tables, or belongs to it. -/
def Attached (e f : Nat) : Prop :=
  Listed overlay.surfaceToFuncs e f ∨ Listed index.propagation.hotTable e f ∨
    Listed index.propagation.surfaceToFuncs e f ∨ Owned index overlay e f

/-- A visible entity with the text is attached to the function. -/
def Reached (normalized : Text) (f : Nat) : Prop :=
  ∃ seed, Visible index overlay seed ∧ Matching index overlay .substring normalized seed ∧ Attached index overlay seed f

variable {index overlay}

theorem surface_fromProject {index : BelIndex} (analysis : Analysis) (p : Project) (e : Nat) (functions : Ids)
    (h : (Overlay.fromProject index analysis p).surfaceToFuncs[e]? = some functions) :
    index.entities.length ≤ e ∧ ∀ f ∈ functions, IsFunction index.functionByVa f := by
  refine Overlay.fromProject_induct (P := fun o : Overlay index => ∀ (e : Nat) (functions : Ids),
    o.surfaceToFuncs[e]? = some functions → index.entities.length ≤ e ∧ ∀ f ∈ functions, IsFunction index.functionByVa f)
    ?_ ?_ ?_ analysis p ?_ ?_ e functions h
  · intro overlay kind display normalized va functionVa h e functions hget
    simp only [Overlay.pushEntity] at hget
    cases hof : Overlay.functionOf index functionVa with
    | none =>
      rw [hof] at hget
      exact h e functions hget
    | some function =>
      rw [hof] at hget
      simp only [getElem?_post] at hget
      split at hget
      · rename_i heq
        obtain rfl := Std.LawfulEqCmp.eq_of_compare heq
        obtain rfl := Option.some.inj hget
        obtain ⟨owner, -, howner⟩ := Option.bind_eq_some_iff.mp hof
        refine ⟨by rw [overlay.base_eq]; omega, fun f hf => ?_⟩
        rcases mem_insertId.mp hf with rfl | hf
        · exact ⟨owner, howner⟩
        · obtain ⟨row, hrow, hf⟩ := listed_iff.mpr hf
          exact (h _ row hrow).2 f hf
      · exact h e functions hget
  · exact fun _ h => h
  · exact fun _ _ _ h => h
  · intro e functions hget
    simp [Overlay.empty] at hget
  · exact fun h => h

/-- The row a search finds for an entity. -/
def storedRow (index : BelIndex) (overlay : Overlay index) (e : Nat) : Ids :=
  ((overlay.surfaceToFuncs[e]?.or index.propagation.hotTable[e]?).or index.propagation.surfaceToFuncs[e]?).getD ∅

/-- The rows of the overlay are those of its own entities, and the hot table repeats
rows: the first row found is all there is. -/
theorem mem_storedRow {image : Image} (hlinks : Links image index)
    (hown : ∀ (e : Nat) (functions : Ids), overlay.surfaceToFuncs[e]? = some functions → index.entities.length ≤ e) {e f : Nat} :
    f ∈ storedRow index overlay e ↔ Listed overlay.surfaceToFuncs e f ∨ Listed index.propagation.hotTable e f ∨
      Listed index.propagation.surfaceToFuncs e f := by
  unfold storedRow
  rw [listed_iff, listed_iff, listed_iff]
  cases hoverlay : overlay.surfaceToFuncs[e]? with
  | some row =>
    -- an entity of the overlay has no row in the index
    have hnone : ¬ Listed index.propagation.surfaceToFuncs e f := fun hlisted =>
      absurd (hlinks.surface e f hlisted).1 (Nat.not_lt.mpr (hown e row hoverlay))
    have hcold : ¬ Listed index.propagation.hotTable e f := fun ⟨functions, hget, hf⟩ =>
      hnone ⟨functions, hlinks.hot e functions hget, hf⟩
    rw [listed_iff] at hnone hcold
    simp [hnone, hcold]
  | none =>
    cases hhot : index.propagation.hotTable[e]? with
    | some row =>
      have hrow := hlinks.hot e row hhot
      simp [hrow]
    | none => simp

theorem mem_relationshipPostings {image : Image} (hlinks : Links image index)
    (hown : ∀ (e : Nat) (functions : Ids), overlay.surfaceToFuncs[e]? = some functions → index.entities.length ≤ e) {e f : Nat} :
    (∃ functions, relationshipPostings index overlay e = some functions ∧ f ∈ functions) ↔ Attached index overlay e f := by
  have hstored := @mem_storedRow index overlay image hlinks hown e f
  have hif : ∀ functions : Ids, (∃ found, (if functions.isEmpty then none else some functions) = some found ∧ f ∈ found) ↔
      f ∈ functions := by
    intro functions
    cases hempty : functions.isEmpty with
    | true =>
      rw [Std.ExtTreeSet.isEmpty_iff.mp hempty]
      simp
    | false => simp
  have hattached : Attached index overlay e f ↔ f ∈ storedRow index overlay e ∨ Owned index overlay e f := by
    rw [hstored, Attached]
    simp only [or_assoc]
  rw [hattached]
  unfold relationshipPostings
  rw [hif]
  unfold Owned
  rw [← storedRow]
  cases hentity : index.entity overlay e with
  | none => simp
  | some item =>
    by_cases hkind : item.kind = .function
    · simp only [if_pos hkind, mem_insertId, Option.some.injEq, exists_eq_left', or_comm]
    · cases hfunction : item.funcEntry.bind fun va => index.functionByVa[va]? with
      | none => simp [hkind, hfunction]
      | some function =>
        simp only [if_neg hkind, hfunction, mem_insertId, Option.some.injEq, exists_eq_left', @eq_comm _ function, or_comm]

/-! ## What the loops collect -/

section Loops
variable {index : BelIndex} {overlay : Overlay index}

theorem mem_upsertEvidence {evidence : EvidenceMap} {id key : Nat} {fresh : CandidateEvidence}
    {f : CandidateEvidence → CandidateEvidence} : id ∈ upsertEvidence evidence key fresh f ↔ id ∈ evidence ∨ id = key := by
  rw [upsertEvidence, Std.ExtTreeMap.mem_insert, compare_eq_iff_eq, eq_comm, or_comm]

/-- A loop that adds evidence for functions and collects them. -/
theorem mem_scan_upsert {round : Nat → EvidenceMap × Ids → ForInStep (EvidenceMap × Ids)} (hround : ∀ x s, ∃ fresh change,
    round x s = .yield (upsertEvidence s.1 x fresh change, s.2.insert x)) (xs : List Nat) (s : EvidenceMap × Ids) (f : Nat) :
    (f ∈ (scan round xs s).1 ↔ f ∈ s.1 ∨ f ∈ xs) ∧ (f ∈ (scan round xs s).2 ↔ f ∈ s.2 ∨ f ∈ xs) := by
  have hself : (∃ x ∈ xs, f = x) ↔ f ∈ xs := by simp
  rw [← hself]
  refine ⟨scan_collects (fun (s : EvidenceMap × Ids) f => f ∈ s.1) (fun x f => f = x) (fun x s => ?_) xs s f,
    scan_collects (fun (s : EvidenceMap × Ids) f => f ∈ s.2) (fun x f => f = x) (fun x s => ?_) xs s f⟩
  · obtain ⟨fresh, change, heq⟩ := hround x s
    exact ⟨_, heq, fun f => mem_upsertEvidence⟩
  · obtain ⟨fresh, change, heq⟩ := hround x s
    exact ⟨_, heq, fun f => by rw [mem_insertId, or_comm]⟩

/-- Rounds that add the same functions to the evidence and to the frontier. -/
theorem value_each_gathers {α : Type} (A : α → Nat → Prop) {body : α → EvidenceMap × Ids × Bool →
    Timed (ForInStep (EvidenceMap × Ids × Bool))} (hround : ∀ x s, ∃ s', (body x s).value = .yield s' ∧ s'.2.2 = true ∧
      ∀ f, (f ∈ s'.1 ↔ f ∈ s.1 ∨ A x f) ∧ (f ∈ s'.2.1 ↔ f ∈ s.2.1 ∨ A x f)) (xs : List α) :
    ((each body xs (∅, ∅, true)).value.1.2.2 && (each body xs (∅, ∅, true)).value.2) = true ∧
      ∀ f, (f ∈ (each body xs (∅, ∅, true)).value.1.1 ↔ ∃ x ∈ xs, A x f) ∧
        (f ∈ (each body xs (∅, ∅, true)).value.1.2.1 ↔ ∃ x ∈ xs, A x f) := by
  have hgoing : (each body xs (∅, ∅, true)).value.1.2.2 = true := by
    refine value_each_inv (P := fun s : EvidenceMap × Ids × Bool => s.2.2 = true) (fun x s _ => ?_) xs rfl
    obtain ⟨s', hvalue, hgoing, -⟩ := hround x s
    rw [hvalue]
    exact hgoing
  refine ⟨by rw [hgoing, value_each_snd]; rfl, fun f => ⟨?_, ?_⟩⟩
  · rw [value_each_collects (fun (s : EvidenceMap × Ids × Bool) f => f ∈ s.1) A]
    · simp
    · intro x s
      obtain ⟨s', hvalue, -, hadd⟩ := hround x s
      exact ⟨s', hvalue, fun f => (hadd f).1⟩
  · rw [value_each_collects (fun (s : EvidenceMap × Ids × Bool) f => f ∈ s.2.1) A]
    · simp
    · intro x s
      obtain ⟨s', hvalue, -, hadd⟩ := hround x s
      exact ⟨s', hvalue, fun f => (hadd f).2⟩

/-- Functions that are neighbors in the tables of the index. -/
def Neighbors (index : BelIndex) (a b : Nat) : Prop := Listed index.propagation.functionNeighbors a b

/-- The turn of one function. -/
def frontierTurn (index : IndexData) (visited : Ids) (function : Nat) : Ids × Bool → Timed (ForInStep (Ids × Bool))
  | (next, _) => do
    let neighbors := index.propagation.functionNeighbors[function]?.getD ∅
    let (next, lasted) ← insertIf (fun neighbor => decide (neighbor ∉ visited)) id neighbors.toList next
    if lasted then return .yield (next, true) else return .done (next, false)

theorem value_nextFrontier (frontier visited : Ids) : (nextFrontier index frontier visited).value =
    ((each (frontierTurn index visited) frontier.toList (∅, true)).value.1.1,
      (each (frontierTurn index visited) frontier.toList (∅, true)).value.1.2 &&
        (each (frontierTurn index visited) frontier.toList (∅, true)).value.2) := by
  rfl

theorem mem_nextFrontier (frontier visited : Ids) :
    (nextFrontier index frontier visited).value.2 = true ∧
      ∀ f, f ∈ (nextFrontier index frontier visited).value.1 ↔ f ∉ visited ∧ ∃ a ∈ frontier, Neighbors index a f := by
  rw [value_nextFrontier]
  set body := frontierTurn index visited with hbody
  have hround : ∀ a s, ∃ s', (body a s).value = .yield s' ∧ s'.2 = true ∧
      ∀ f, f ∈ s'.1 ↔ f ∈ s.1 ∨ (f ∉ visited ∧ Neighbors index a f) := by
    rintro a ⟨next, going⟩
    simp only [hbody, frontierTurn, value_bind, insertIf, value_each, if_true, value_pure]
    refine ⟨_, rfl, rfl, fun f => ?_⟩
    rw [scan_collects (fun (s : Ids) f => f ∈ s) (fun neighbor f => f = neighbor ∧ f ∉ visited)]
    · rw [Neighbors, listed_iff]
      simp [and_comm]
    · intro neighbor s
      refine ⟨_, rfl, fun f => ?_⟩
      by_cases hvisited : neighbor ∈ visited
      · have hnot : ¬ (f = neighbor ∧ f ∉ visited) := by
          rintro ⟨rfl, hf⟩
          exact hf hvisited
        simp [hvisited, hnot]
      · simp only [hvisited, not_false_eq_true, decide_true, if_true, mem_insertId, id]
        rw [or_comm]
        refine or_congr_right (and_iff_left_of_imp ?_).symm
        rintro rfl
        exact hvisited
  refine ⟨?_, fun f => ?_⟩
  · have hgoing : (each body frontier.toList (∅, true)).value.1.2 = true := by
      refine value_each_inv (P := fun s : Ids × Bool => s.2 = true) (fun a s _ => ?_) _ rfl
      obtain ⟨s', hvalue, hgoing, -⟩ := hround a s
      rw [hvalue]
      exact hgoing
    rw [hgoing, value_each_snd]
    rfl
  · rw [value_each_collects (fun (s : Ids × Bool) f => f ∈ s.1) (fun a f => f ∉ visited ∧ Neighbors index a f)]
    · simp only [Std.ExtTreeSet.mem_toList, Std.ExtTreeSet.not_mem_empty, false_or]
      constructor
      · rintro ⟨a, ha, hnew, hnext⟩
        exact ⟨hnew, a, ha, hnext⟩
      · rintro ⟨hnew, a, ha, hnext⟩
        exact ⟨a, ha, hnew, hnext⟩
    · intro a s
      obtain ⟨s', hvalue, -, hadd⟩ := hround a s
      exact ⟨s', hvalue, hadd⟩

/-- Each hop adds the neighbors of the last layer to the evidence. -/
theorem mem_extendHops (text : Text) (hops : List Nat) {frontier visited : Ids} {evidence : EvidenceMap}
    (hlayer : Layers.Layer (Neighbors index) { a | a ∈ visited } { a | a ∈ frontier })
    (hevidence : ∀ f, f ∈ evidence ↔ f ∈ visited) (f : Nat) :
    f ∈ (extendHops index text hops frontier visited evidence).value ↔
      f ∈ (Layers.grow (Neighbors index))^[hops.length] { a | a ∈ visited } := by
  induction hops generalizing frontier visited evidence with
  | nil => exact hevidence f
  | cons hop hops ih =>
    obtain ⟨hlasted, hnext⟩ := @mem_nextFrontier index frontier visited
    have hnextSet : ∀ b, b ∈ { b | b ∈ (nextFrontier index frontier visited).value.1 } ↔
        b ∉ { a | a ∈ visited } ∧ ∃ a ∈ { a | a ∈ frontier }, Neighbors index a b := hnext
    obtain ⟨hstep, hgrow⟩ := hlayer.step hnextSet
    rw [List.length_cons, Function.iterate_succ_apply, ← hgrow]
    simp only [extendHops, value_bind, hlasted, if_true, value_each]
    generalize hround : scan _ _ (evidence, visited) = s
    have hadd : ∀ f, (f ∈ s.1 ↔ f ∈ evidence ∨ f ∈ (nextFrontier index frontier visited).value.1) ∧
        (f ∈ s.2 ↔ f ∈ visited ∨ f ∈ (nextFrontier index frontier visited).value.1) := by
      intro f
      rw [← hround, ← Std.ExtTreeSet.mem_toList]
      exact mem_scan_upsert (fun function s => ⟨_, _, rfl⟩) _ (evidence, visited) f
    have hvisited : { a | a ∈ s.2 } = { a | a ∈ visited } ∪ { b | b ∈ (nextFrontier index frontier visited).value.1 } :=
      Set.ext fun a => (hadd a).2
    rw [← hvisited] at hstep ⊢
    refine ih hstep fun a => ?_
    rw [(hadd a).1, (hadd a).2, hevidence]

theorem mem_reachFunctions (clause : Text) (seed : Nat) (functions : Ids) (reached : Ids × Sources) (f : Nat) :
    f ∈ (reachFunctions clause seed functions reached).value.1.1 ↔ f ∈ reached.1 ∨ f ∈ functions := by
  unfold reachFunctions
  rw [value_each_collects (fun (s : Ids × Sources) f => f ∈ s.1) (fun x f => f = x)]
  · simp
  · exact fun x s => ⟨_, rfl, fun f => by rw [mem_insertId, or_comm]⟩

/-- Every function that was found counts once more. -/
theorem getD_countFunctions (found : Ids) (counts : Std.ExtTreeMap Nat Nat) (f : Nat) :
    ((countFunctions found counts).value.1[f]?).getD 0 = (counts[f]?).getD 0 + if f ∈ found then 1 else 0 := by
  have hfold : ∀ (xs : List Nat) (counts : Std.ExtTreeMap Nat Nat),
      ((xs.foldl (fun counts x => counts.insert x (counts[x]?.getD 0 + 1)) counts)[f]?).getD 0 =
        (counts[f]?).getD 0 + xs.count f := by
    intro xs
    induction xs with
    | nil => exact fun counts => rfl
    | cons x xs ih =>
      intro counts
      rw [List.foldl_cons, ih, List.count_cons, Std.ExtTreeMap.getElem?_insert]
      by_cases hx : x = f
      · subst hx
        simp
        omega
      · simp [hx]
  have hnodup : found.toList.Nodup := by
    refine Std.ExtTreeSet.distinct_toList.imp ?_
    intro a b hne heq
    exact hne (compare_eq_iff_eq.mpr heq)
  rw [countFunctions, value_each]
  calc ((scan (fun x counts => .yield (counts.insert x (counts[x]?.getD 0 + 1))) found.toList counts)[f]?).getD 0
    _ = ((found.toList.foldl (fun counts x => counts.insert x (counts[x]?.getD 0 + 1)) counts)[f]?).getD 0 := by
      rw [scan_yield]
    _ = (counts[f]?).getD 0 + found.toList.count f := hfold _ _
    _ = (counts[f]?).getD 0 + if f ∈ found then 1 else 0 := by
      rw [hnodup.count]
      simp

/-- A function that was counted often enough is evidence. -/
theorem quorumStep_value (query : Query) (sources : Sources) (counted : Nat × Nat) (s : EvidenceMap × Bool) :
    ∃ s', (quorumStep index query sources counted s).value = .yield s' ∧ s'.2 = s.2 ∧
      ∀ f, f ∈ s'.1 ↔ f ∈ s.1 ∨ (quorumOf index query ≤ counted.2 ∧ f = counted.1) := by
  unfold quorumStep
  split
  · rename_i hlow
    exact ⟨s, rfl, rfl, fun f => by simp [Nat.not_le.mpr hlow]⟩
  · rename_i hhigh
    refine ⟨_, rfl, ?_, fun f => ?_⟩
    · show (s.2 && (quorumEvidence _).value.2) = s.2
      rw [quorumEvidence, value_each_snd, Bool.and_true]
    · rw [Std.ExtTreeMap.mem_insert, compare_eq_iff_eq, or_comm, and_iff_right (Nat.le_of_not_lt hhigh), eq_comm]

/-- The number of the clauses fits a byte. -/
theorem quorumOf_eq {query : Query} (hfew : query.evidence.length ≤ 64) : quorumOf index query =
    min (max (query.quorum.getD index.config.quorum) 1) (clausesOf query).length := by
  have hlength : (clausesOf query).length ≤ 65 := by
    unfold clausesOf
    split
    · omega
    · rw [List.length_cons]
      omega
  rw [quorumOf, Nat.mod_eq_of_lt (by omega)]

/-- The hit of a ranked entity is that entity. -/
theorem entityId_of_hitOf {ranked : ScoredHit} {hit : Hit} (hof : hitOf index overlay ranked = some hit) :
    hit.entityId = ranked.entityId := by
  obtain ⟨entity, hentity, rfl⟩ := Option.map_eq_some_iff.mp hof
  exact BelIndex.entity_id hentity

end Loops

/-! ## An index under the overlay of a state -/

/-- A function that is visible. -/
def VisibleFunction (index : BelIndex) (overlay : Overlay index) (id : Nat) : Prop :=
  ∃ item, index.entity overlay id = some item ∧ item.kind = .function

end Attached

/-- An edited index with its relationship tables. -/
structure Joined (image : Image) (p0 p1 : Project) (index : BelIndex) (overlay : Overlay index) : Prop
    extends Edited image p0 p1 index overlay where
  tables : Tables index
  links : Links image index
  own : ∀ (e : Nat) (functions : Ids), overlay.surfaceToFuncs[e]? = some functions →
    index.entities.length ≤ e ∧ ∀ f ∈ functions, IsFunction index.functionByVa f

theorem joined_fromProject {image : Image} {p0 : Project} {config : BelConfig} {index : BelIndex}
    (hbuild : BelIndex.build image p0 config = .ok index) (p1 : Project) :
    Joined image p0 p1 index (Overlay.fromProject index image.analysis p1) := by
  refine ⟨edited_fromProject hbuild p1, ?_, links_build hbuild, surface_fromProject image.analysis p1⟩
  rw [build_eq hbuild]
  exact tables_finish image config _

section Joined
variable {image : Image} {p0 p1 : Project} {index : BelIndex} {overlay : Overlay index}
  (h : Joined image p0 p1 index overlay)
include h

theorem visibleFunction_of_isFunction {f : Nat} (hf : IsFunction index.functionByVa f) : VisibleFunction index overlay f := by
  obtain ⟨va, hva⟩ := hf
  obtain ⟨-, e, he, hkind⟩ := h.built.entry va f hva
  obtain ⟨item, hitem⟩ := Option.isSome_iff_exists.mp (function_live h.toEdited hva).1
  refine ⟨item, hitem, ?_⟩
  have hlive := not_tombstone_of_visible (function_live h.toEdited hva).1
  rw [IndexData.entity, if_neg hlive, he, Option.some_or] at hitem
  rw [← Option.some.inj hitem, hkind]

theorem visibleFunction_of_attached {e f : Nat} (hattached : Attached index overlay e f) : VisibleFunction index overlay f := by
  rcases hattached with ⟨row, hrow, hf⟩ | ⟨row, hrow, hf⟩ | hlisted | ⟨item, hitem, howned⟩
  · exact visibleFunction_of_isFunction h ((h.own e row hrow).2 f hf)
  · exact visibleFunction_of_isFunction h (h.links.surface e f ⟨row, h.links.hot e row hrow, hf⟩).2
  · exact visibleFunction_of_isFunction h (h.links.surface e f hlisted).2
  · split at howned
    · rename_i hkind
      rw [howned, BelIndex.entity_id hitem]
      exact ⟨item, hitem, hkind⟩
    · obtain ⟨va, -, hva⟩ := Option.bind_eq_some_iff.mp howned
      exact visibleFunction_of_isFunction h ⟨va, hva⟩

/-- What contains a text is visible. -/
theorem visible_of_matching {mode : SearchMode} {normalized : Text} {id : Nat}
    (hmatching : Matching index overlay mode normalized id) : Visible index overlay id := by
  obtain ⟨text, htext, -⟩ := hmatching
  rw [IndexData.normalizedAt, Option.or_eq_some_iff] at htext
  rcases htext with hoverride | ⟨-, htext⟩
  · exact visible_of_override h.toEdited hoverride
  · split at htext
    · split at htext
      · cases htext
      · rename_i hlive
        have hlt : id < index.entities.length := by
          rw [← index.normalized_length]
          exact (List.getElem?_eq_some_iff.mp htext).1
        unfold Visible IndexData.entity
        rw [if_neg hlive, List.getElem?_eq_getElem hlt]
        rfl
    · rename_i hown
      rw [Overlay.normalizedAt, if_neg hown, Option.or_eq_some_iff] at htext
      rcases htext with hoverride | ⟨-, htext⟩
      · exact visible_of_override h.toEdited hoverride
      · have hvisible := visible_of_own h.toEdited htext
        rwa [Nat.add_sub_cancel' (Nat.le_of_not_lt hown)] at hvisible

theorem attached_postings {e f : Nat} : (∃ functions, relationshipPostings index overlay e = some functions ∧ f ∈ functions) ↔
    Attached index overlay e f :=
  mem_relationshipPostings h.links fun e functions hget => (h.own e functions hget).1

theorem attached_none {e : Nat} (hnone : relationshipPostings index overlay e = none) (f : Nat) :
    ¬ Attached index overlay e f := by
  rw [← attached_postings h, hnone]
  simp

theorem attached_some {e : Nat} {functions : Ids} (hsome : relationshipPostings index overlay e = some functions) (f : Nat) :
    Attached index overlay e f ↔ f ∈ functions := by
  rw [← attached_postings h, hsome]
  simp

/-! ## Hops -/

/-- The evidence of the first hop, and the functions the search goes on from. -/
theorem mem_seedRelationships (seeds : Ids) (text : Text) :
    (seedRelationships index overlay seeds text).value.2 = true ∧
      ∀ f, (f ∈ (seedRelationships index overlay seeds text).value.1.1 ↔ ∃ seed ∈ seeds, Attached index overlay seed f) ∧
        (f ∈ (seedRelationships index overlay seeds text).value.1.2 ↔ ∃ seed ∈ seeds, Attached index overlay seed f) := by
  unfold seedRelationships
  simp only [value_bind, value_pure]
  refine (value_each_gathers (Attached index overlay) ?_ seeds.toList).imp_right fun hmem f => ?_
  · rintro seed ⟨evidence, frontier, going⟩
    cases hpostings : relationshipPostings index overlay seed with
    | none =>
      exact ⟨(evidence, frontier, true), rfl, rfl, fun f => by simp [attached_none h hpostings f]⟩
    | some functions =>
      simp only [value_bind, value_each, if_true, value_pure]
      refine ⟨_, rfl, rfl, fun f => ?_⟩
      rw [attached_some h hpostings, ← Std.ExtTreeSet.mem_toList]
      exact mem_scan_upsert (fun function s => ⟨_, _, rfl⟩) functions.toList (evidence, frontier) f
  · simpa only [Std.ExtTreeSet.mem_toList] using hmem f

/-- How far a search goes along the calls. Where the configuration allows no depth at all,
the functions the text leads to are found as at depth one. -/
def effectiveDepth (index : BelIndex) (requestedDepth : Nat) : Nat :=
  min (max (if requestedDepth = 0 then index.config.relationshipDepth else requestedDepth) 1) index.config.maxLatticeDepth

/-- Functions joined by a call, in either direction. -/
def callGraph (image : Image) (index : BelIndex) : SimpleGraph Nat := SimpleGraph.fromRel (Calls image index.functionByVa)

theorem mem_iterate_neighbors (n : Nat) (s : Set Nat) (f : Nat) :
    f ∈ (Layers.grow (Neighbors index))^[n] s ↔ ∃ a ∈ s, (callGraph image index).edist a f ≤ n := by
  have hadj : (callGraph image index).Adj = fun a b => a ≠ b ∧ Neighbors index a b := by
    funext a b
    rw [callGraph, SimpleGraph.fromRel_adj, Neighbors, h.links.neighbors]
  have hgrow : Layers.grow (fun a b => a ≠ b ∧ Neighbors index a b) = Layers.grow (Neighbors index) := by
    funext s
    exact Layers.grow_ne s
  rw [← Layers.mem_iterate_grow_iff, hadj, hgrow]

theorem mem_extendRelationships (seeds : Ids) (requestedDepth : Nat) (text : Text) (f : Nat) :
    f ∈ (extendRelationships index overlay seeds requestedDepth text).value ↔
      ∃ a, (∃ seed ∈ seeds, Attached index overlay seed a) ∧
        (callGraph image index).edist a f ≤ (effectiveDepth index requestedDepth - 1 : Nat) := by
  obtain ⟨hlasted, hseeded⟩ := mem_seedRelationships h seeds text
  have hlayer : Layers.Layer (Neighbors index) { a | a ∈ (seedRelationships index overlay seeds text).value.1.2 }
      { a | a ∈ (seedRelationships index overlay seeds text).value.1.2 } := Layers.Layer.start _
  have hmem := mem_extendHops text (List.range' 1 (effectiveDepth index requestedDepth - 1)) hlayer
    (fun f => (hseeded f).1.trans (hseeded f).2.symm) f
  rw [List.length_range', mem_iterate_neighbors h] at hmem
  simp only [extendRelationships, value_bind, hlasted, if_true]
  refine hmem.trans (exists_congr fun a => and_congr_left fun _ => (hseeded a).2)

/-- Evidence is of visible functions. -/
theorem visibleFunction_of_near {a f : Nat} {n : Nat} (ha : VisibleFunction index overlay a)
    (hnear : (callGraph image index).edist a f ≤ n) : VisibleFunction index overlay f := by
  have hmem := (mem_iterate_neighbors h n { a } f).mpr ⟨a, Set.mem_singleton a, hnear⟩
  clear hnear
  induction n generalizing f with
  | zero => exact (Set.mem_singleton_iff.mp hmem) ▸ ha
  | succ n ih =>
    rw [Function.iterate_succ_apply', Layers.mem_grow] at hmem
    rcases hmem with hmem | ⟨c, -, hneighbor⟩
    · exact ih hmem
    · -- both ends of a call are functions
      rcases (h.links.neighbors c f).mp hneighbor with ⟨g, -, target, -, hc, hf⟩ | ⟨g, -, target, -, hf, hc⟩
      · exact visibleFunction_of_isFunction h ⟨target, hf⟩
      · exact visibleFunction_of_isFunction h ⟨g.entryVa, hf⟩

/-- The text leads to functions that are visible. -/
theorem visibleFunction_of_reached {normalized : Text} {f : Nat} (hreached : Reached index overlay normalized f) :
    VisibleFunction index overlay f := by
  obtain ⟨seed, -, -, hattached⟩ := hreached
  exact visibleFunction_of_attached h hattached

/-- The seeds of a search lead to the functions that the text leads to. -/
theorem reached_iff {normalized : Text} {candidates : CandidateSet} (hmatched : Matched index overlay normalized candidates)
    (hcomplete : candidates.complete = true) (f : Nat) :
    (∃ seed ∈ candidates.ids, Attached index overlay seed f) ↔ Reached index overlay normalized f := by
  constructor
  · rintro ⟨seed, hseed, hattached⟩
    have hmatching := hmatched.matching seed hseed
    exact ⟨seed, visible_of_matching h hmatching, hmatching, hattached⟩
  · rintro ⟨seed, hvisible, hmatching, hattached⟩
    exact ⟨seed, hmatched.all hcomplete seed hvisible hmatching, hattached⟩

/-! ## Clauses -/

/-- The functions of a clause are those its seeds are attached to. -/
theorem mem_clauseFunctions (clause : Text) (seeds : Ids) (sources : Sources) :
    (clauseFunctions index overlay clause seeds sources).value.2 = true ∧
      ∀ f, f ∈ (clauseFunctions index overlay clause seeds sources).value.1.1 ↔
        ∃ seed ∈ seeds, Attached index overlay seed f := by
  have hround : ∀ seed s, ∃ s', (clauseSeed index overlay clause seed s).value = .yield s' ∧ s'.2 = s.2 ∧
      ∀ f, f ∈ s'.1.1 ↔ f ∈ s.1.1 ∨ Attached index overlay seed f := by
    intro seed s
    unfold clauseSeed
    cases hpostings : relationshipPostings index overlay seed with
    | none => exact ⟨s, rfl, rfl, fun f => by simp [attached_none h hpostings f]⟩
    | some functions =>
      refine ⟨_, rfl, ?_, fun f => ?_⟩
      · show (s.2 && (reachFunctions clause seed functions s.1).value.2) = s.2
        rw [reachFunctions, value_each_snd, Bool.and_true]
      · rw [attached_some h hpostings]
        exact mem_reachFunctions clause seed functions s.1 f
  unfold clauseFunctions
  simp only [value_bind, value_pure]
  refine ⟨?_, fun f => ?_⟩
  · rw [value_each_snd, Bool.and_true]
    refine value_each_inv (P := fun s : (Ids × Sources) × Bool => s.2 = true) (fun seed s hs => ?_) _ rfl
    obtain ⟨s', hvalue, hsame, -⟩ := hround seed s
    rw [hvalue]
    exact hsame.trans hs
  · rw [value_each_collects (fun (s : (Ids × Sources) × Bool) f => f ∈ s.1.1) (Attached index overlay)]
    · simp
    · intro seed s
      obtain ⟨s', hvalue, -, hadd⟩ := hround seed s
      exact ⟨s', hvalue, hadd⟩

open Classical in
/-- How many of the clauses lead to a function. -/
noncomputable def clauseCount (index : BelIndex) (overlay : Overlay index) (clauses : List Text) (f : Nat) : Nat :=
  clauses.countP fun clause => decide (Reached index overlay (normalizeAscii (trim clause)) f)

/-- One clause counts for the functions it leads to. -/
theorem countClause_value (clause : Text) (q : Quorum) : ∃ q', (countClause index overlay clause q).value = .yield q' ∧
    (q'.complete = true → q.complete = true ∧
      ∀ f, (q'.counts[f]?).getD 0 = (q.counts[f]?).getD 0 + clauseCount index overlay [clause] f) := by
  classical
  set seeds := (collectSubstring index overlay (normalizeAscii (trim clause)) []).value with hseeds
  set reached := (clauseFunctions index overlay clause seeds.ids q.sources).value with hreached
  set counted := (countFunctions reached.1.1 q.counts).value with hcounted
  refine ⟨{ counts := counted.1, sources := reached.1.2, complete := q.complete && seeds.complete && reached.2 && counted.2,
            estimated := saturatingAdd q.estimated (seeds.estimated.getD seeds.ids.size) }, rfl, ?_⟩
  show (q.complete && seeds.complete && reached.2 && counted.2) = true → _
  intro hcomplete
  simp only [Bool.and_eq_true] at hcomplete
  obtain ⟨⟨⟨hdone, hseeded⟩, -⟩, -⟩ := hcomplete
  have hmatched : Matched index overlay (normalizeAscii (trim clause)) seeds :=
    (collectSubstring_matched h.tables h.named _).value
  have hmem : ∀ f, f ∈ reached.1.1 ↔ Reached index overlay (normalizeAscii (trim clause)) f := by
    intro f
    rw [hreached, (mem_clauseFunctions h clause seeds.ids q.sources).2, reached_iff h hmatched hseeded]
  refine ⟨hdone, fun f => ?_⟩
  show (counted.1[f]?).getD 0 = _
  rw [hcounted, getD_countFunctions, clauseCount, List.countP_singleton]
  by_cases hf : Reached index overlay (normalizeAscii (trim clause)) f
  · rw [if_pos ((hmem f).mpr hf), if_pos (decide_eq_true hf)]
  · rw [if_neg (mt (hmem f).mp hf), if_neg (by simpa using hf)]

theorem getD_countClauses (clauses : List Text) (hcomplete : (countClauses index overlay clauses).value.complete = true)
    (f : Nat) : ((countClauses index overlay clauses).value.counts[f]?).getD 0 = clauseCount index overlay clauses f := by
  have hscan : ∀ (clauses : List Text) (q : Quorum),
      (scan (fun clause q => (countClause index overlay clause q).value) clauses q).complete = true →
        q.complete = true ∧ ∀ f, ((scan (fun clause q => (countClause index overlay clause q).value) clauses q).counts[f]?).getD 0 =
          (q.counts[f]?).getD 0 + clauseCount index overlay clauses f := by
    intro clauses
    induction clauses with
    | nil => exact fun q hq => ⟨hq, fun f => rfl⟩
    | cons clause clauses ih =>
      intro q hq
      obtain ⟨q', hvalue, hround⟩ := countClause_value h clause q
      simp only [scan, hvalue] at hq ⊢
      obtain ⟨hq', hrest⟩ := ih q' hq
      obtain ⟨hdone, hadd⟩ := hround hq'
      refine ⟨hdone, fun f => ?_⟩
      rw [hrest, hadd, Nat.add_assoc, clauseCount, clauseCount, ← List.countP_append, clauseCount]
      rfl
  unfold countClauses at hcomplete ⊢
  simp only [value_bind, value_pure, value_each, Bool.and_true] at hcomplete ⊢
  rw [(hscan clauses _ hcomplete).2]
  simp

/-- Enough clauses lead to a function that the search has evidence for. -/
theorem mem_collectMultiEvidence {query : Query} (hfew : query.evidence.length ≤ 64) {gathered : Gathered}
    (hgather : (collectMultiEvidence index overlay query).value = .ok gathered) (hcomplete : gathered.complete = true)
    (f : Nat) : f ∈ gathered.evidence ↔
      min (max (query.quorum.getD index.config.quorum) 1) (clausesOf query).length ≤
        clauseCount index overlay (clausesOf query) f := by
  unfold collectMultiEvidence at hgather
  split at hgather
  · cases hgather
  · rename_i hclauses
    simp only [value_bind, value_pure] at hgather
    set q := (countClauses index overlay (clausesOf query)).value with hq
    obtain rfl := Except.ok.inj hgather
    have hcounted : q.complete = true := by
      by_contra hopen
      have hkept : (each (quorumStep index query q.sources) q.counts.toList (∅, q.complete)).value.1.2 = false := by
        refine value_each_inv (P := fun s : EvidenceMap × Bool => s.2 = false) (fun entry s hs => ?_) _
          (Bool.eq_false_iff.mpr hopen)
        obtain ⟨s', hvalue, hsame, -⟩ := quorumStep_value query q.sources entry s
        rw [hvalue]
        exact hsame.trans hs
      rw [hkept] at hcomplete
      cases hcomplete
    have hpositive : 1 ≤ quorumOf index query := by
      have hlength := List.length_pos_iff.mpr hclauses
      rw [quorumOf_eq hfew]
      omega
    rw [← quorumOf_eq hfew, ← getD_countClauses h _ hcounted, ← hq]
    show f ∈ (each (quorumStep index query q.sources) q.counts.toList (∅, q.complete)).value.1.1 ↔ _
    rw [value_each_collects (fun (s : EvidenceMap × Bool) f => f ∈ s.1) fun counted f =>
      quorumOf index query ≤ counted.2 ∧ f = counted.1]
    · simp only [Std.ExtTreeMap.not_mem_empty, false_or]
      constructor
      · rintro ⟨⟨f, n⟩, hentry, hn, rfl⟩
        rw [Std.ExtTreeMap.mem_toList_iff_getElem?_eq_some.mp hentry]
        exact hn
      · intro hn
        cases hget : q.counts[f]? with
        | none =>
          rw [hget] at hn
          exact absurd (hpositive.trans hn) (by simp)
        | some n =>
          rw [hget] at hn
          exact ⟨(f, n), Std.ExtTreeMap.mem_toList_iff_getElem?_eq_some.mpr hget, hn, rfl⟩
    · intro counted s
      obtain ⟨s', hvalue, -, hadd⟩ := quorumStep_value query q.sources counted s
      exact ⟨s', hvalue, hadd⟩

/-- A function that a clause leads to is visible. -/
theorem visibleFunction_of_clauseCount {clauses : List Text} {f : Nat} (hcount : 1 ≤ clauseCount index overlay clauses f) :
    VisibleFunction index overlay f := by
  classical
  obtain ⟨clause, -, hreached⟩ := List.countP_pos_iff.mp hcount
  rw [decide_eq_true_eq] at hreached
  exact visibleFunction_of_reached h hreached

end Joined

/-! ## Answers -/

/-- An exact answer counts what is wanted and shows nothing else, and exact answers that
follow one another list it. -/
def Answers (index : BelIndex) (overlay : Overlay index) (engine : Engine) (query : Query) (wanted : Nat → Prop) : Prop :=
  ∃ ids : List Nat, ids.Nodup ∧ (∀ id, id ∈ ids ↔ wanted id) ∧
    (∀ limit cursor clock page, ((search index overlay engine query limit cursor).run clock
        { iterations := 0, timedOut := false }).1 = .ok page → page.totalKind = .exact →
      page.total = ids.length ∧ ∀ hit ∈ page.hits, hit.entityId ∈ ids) ∧
    (Ranged index overlay → PagesList index overlay engine query ids)

theorem answers_of_gather {index : BelIndex} {overlay : Overlay index} {engine : Engine} {query : Query} {plan : Plan}
    (hplan : planQuery query = .ok plan) {wanted : Nat → Prop} (hvisible : ∀ id, wanted id → Visible index overlay id)
    (hgather : ∀ gathered, (gather index overlay engine query plan.mode plan.queryText plan.normalized).value = .ok gathered →
      gathered.complete = true → ∀ id, id ∈ gathered.evidence ↔ wanted id) :
    Answers index overlay engine query wanted := by
  classical
  set ids := (List.range (overlay.baseEntityCount + overlay.entities.length)).filter fun id => wanted id with hids
  have hnodup : ids.Nodup := List.nodup_range.filter _
  have hmem : ∀ id, id ∈ ids ↔ wanted id := by
    intro id
    rw [hids, List.mem_filter, List.mem_range, decide_eq_true_eq]
    exact and_iff_right_of_imp fun hwanted => lt_of_visible (hvisible id hwanted)
  have hperm : ∀ gathered, (gather index overlay engine query plan.mode plan.queryText plan.normalized).value = .ok gathered →
      gathered.complete = true → ((TopK.sort hitKey (scoredHits index overlay engine
        (querySignature index gathered.evidence).value.1 gathered.evidence)).map ScoredHit.entityId).Perm ids := by
    intro gathered hvalue hcomplete
    have hiff := hgather gathered hvalue hcomplete
    have hevidenced : Evidenced index overlay wanted gathered :=
      ⟨fun id hid _ => (hiff id).mp hid, fun _ id _ hwanted => (hiff id).mpr hwanted⟩
    refine ((TopK.sort_perm _).map _).trans (scoredHits_perm hevidenced hcomplete _ hnodup fun id => ?_)
    rw [hmem, iff_and_self]
    exact hvisible id
  refine ⟨ids, hnodup, hmem, fun limit cursor clock page hrun hexact => ?_, fun hrange limits clocks fuel hfuel hexact => ?_⟩
  · obtain ⟨hmet, gathered, hvalue, hcomplete⟩ := search_exact hplan hrun hexact
    rw [run_fst hmet] at hrun
    cases hopen : openCursor index overlay plan cursor with
    | error e =>
      unfold search at hrun
      simp only [hplan, hopen] at hrun
      cases hrun
    | ok key =>
      obtain ⟨page', hpage', hpage⟩ := search_page hplan hvalue rfl hopen limit
      obtain rfl : page' = page := Except.ok.inj (hpage'.symm.trans hrun)
      refine ⟨by rw [hpage.total, ← (hperm gathered hvalue hcomplete).length_eq, List.length_map], fun hit hhit => ?_⟩
      rw [hpage.hits] at hhit
      obtain ⟨ranked, hranked, hof⟩ := List.mem_filterMap.mp hhit
      rw [entityId_of_hitOf hof, ← (hperm gathered hvalue hcomplete).mem_iff]
      exact List.mem_map_of_mem (List.mem_of_mem_filter (List.mem_of_mem_take hranked))
  · obtain ⟨n, rfl⟩ := Nat.exists_eq_add_of_lt hfuel
    obtain ⟨first, hfirst, hfirstExact⟩ := hexact _ (by rw [follow]; exact List.mem_cons_self)
    obtain ⟨-, gathered, hvalue, hcomplete⟩ := search_exact hplan hfirst hfirstExact
    have hlisted := hperm gathered hvalue hcomplete
    have hlength := hlisted.length_eq
    rw [List.length_map] at hlength
    obtain ⟨pages, hpages, hsame, -, -⟩ := follow_exact hrange hplan hvalue rfl (by rwa [hlength]) hexact
    exact ⟨pages, hpages, hsame ▸ hlisted⟩

/-! ## The two searches -/

theorem evidence_length_le {query : Query} {plan : Plan} (hplan : planQuery query = .ok plan) : query.evidence.length ≤ 64 := by
  unfold planQuery at hplan
  split at hplan
  · cases hplan
  · split at hplan
    · cases hplan
    · omega

section Joined
variable {image : Image} {p0 p1 : Project} {index : BelIndex} {overlay : Overlay index}
  (h : Joined image p0 p1 index overlay) {engine : Engine} {query : Query} {plan : Plan}
include h

theorem relationship_answers (hplan : planQuery query = .ok plan) (hmode : plan.mode = .relationship) :
    Answers index overlay engine query fun id => VisibleFunction index overlay id ∧
      ∃ a, Reached index overlay plan.normalized a ∧
        (callGraph image index).edist a id ≤ (effectiveDepth index query.relationshipDepth - 1 : Nat) := by
  refine answers_of_gather hplan ?_ ?_
  · rintro id ⟨⟨item, hitem, -⟩, -⟩
    unfold Visible
    rw [hitem]
    rfl
  · intro gathered hvalue hcomplete id
    rw [hmode] at hvalue
    have hmatched : Matched index overlay plan.normalized (collectSubstring index overlay plan.normalized []).value :=
      (collectSubstring_matched h.tables h.named _).value
    obtain rfl : { evidence := (extendRelationships index overlay (collectSubstring index overlay plan.normalized []).value.ids
                     query.relationshipDepth plan.normalized).value
                   complete := (collectSubstring index overlay plan.normalized []).value.complete && true
                   estimated := (collectSubstring index overlay plan.normalized []).value.estimated
                   strategy := "seed_one_hop" : Gathered } = gathered := Except.ok.inj hvalue
    rw [Bool.and_true] at hcomplete
    rw [mem_extendRelationships h]
    simp only [reached_iff h hmatched hcomplete]
    refine (and_iff_right_of_imp ?_).symm
    rintro ⟨a, hreached, hnear⟩
    exact visibleFunction_of_near h (visibleFunction_of_reached h hreached) hnear

theorem multiEvidence_answers (hplan : planQuery query = .ok plan) (hmode : plan.mode = .multiEvidence) :
    Answers index overlay engine query fun id => VisibleFunction index overlay id ∧
      min (max (query.quorum.getD index.config.quorum) 1) (clausesOf query).length ≤
        clauseCount index overlay (clausesOf query) id := by
  refine answers_of_gather hplan ?_ ?_
  · rintro id ⟨⟨item, hitem, -⟩, -⟩
    unfold Visible
    rw [hitem]
    rfl
  · intro gathered hvalue hcomplete id
    rw [hmode] at hvalue
    have hvalue : (collectMultiEvidence index overlay query).value = .ok gathered := hvalue
    rw [mem_collectMultiEvidence h (evidence_length_le hplan) hvalue hcomplete]
    have hclauses : 1 ≤ (clausesOf query).length := by
      refine List.length_pos_iff.mpr fun hnil => ?_
      rw [collectMultiEvidence, if_pos hnil] at hvalue
      cases hvalue
    refine (and_iff_right_of_imp fun hcount => visibleFunction_of_clauseCount h (le_trans ?_ hcount)).symm
    omega

end Joined

/-- The function that contains the instruction, by relationship and by one clue. -/
def relatedQuery : Query := { nopQuery with mode := .relationship }

def clueQuery : Query := { nopQuery with mode := .multiEvidence }

end Windy.Bel
