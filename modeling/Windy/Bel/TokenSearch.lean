import Windy.Bel.Oracle
import Windy.Bel.Tokens

/- The search of tokens against the linear oracle, after edits (`collect_token` and
   `linear_oracle_ids` in `analysis/bel/query.rs`).

   A token search drops what the index lists under the token if the base text of the entity does not
   count any more. The oracle asks that of the instructions only: a function that contains one is
   listed whatever it is called. So a function that was renamed is listed by the oracle and not
   found by the search, unless its new name has the token too.

   What is proved:
     `collectToken_collected`: whatever the clock says, the candidates are the texts of the
       overlay with the token and what is listed under it and not hidden, and all of them
       when the collection says that it is complete;
     `oracleTokens_spec`: the oracle lists the same and the hidden functions;
     `tokenSearch_lists_iff`: exact pages list what the oracle lists exactly when every
       renamed function that contains an instruction with the token has it in its new name. -/
namespace Windy.Bel

open Budget Budget.Timed

section Search
variable (index : BelIndex) (overlay : Overlay index)

/-! ## What a token search collects -/

/-- A text of the overlay has the token: the override of an entity, or that of an entity
of its own. -/
def OverlayToken (token : Text) (id : Nat) : Prop :=
  (∃ text, overlay.normalizedOverrides[id]? = some text ∧ token ∈ tokensOf text) ∨
    ∃ i text, id = overlay.baseEntityCount + i ∧ overlay.normalized[i]? = some text ∧ token ∈ tokensOf text

/-- What a token search looks for. -/
def TokenWanted (token : Text) (id : Nat) : Prop :=
  OverlayToken index overlay token id ∨ (hidden index overlay id = false ∧ Listed index.tokenPostings token id)

variable {index overlay} {engine : Engine} {mode : SearchMode} {token : Text} {id : Nat} {query : Query}

theorem mem_overrideTokens : (∃ entry ∈ overlay.normalizedOverrides.toList,
    decide (token ∈ tokensOf entry.2) = true ∧ entry.1 = id) ↔
      ∃ text, overlay.normalizedOverrides[id]? = some text ∧ token ∈ tokensOf text := by
  constructor
  · rintro ⟨entry, hentry, htoken, rfl⟩
    exact ⟨entry.2, Std.ExtTreeMap.mem_toList_iff_getElem?_eq_some.mp hentry, of_decide_eq_true htoken⟩
  · rintro ⟨text, htext, htoken⟩
    exact ⟨(id, text), Std.ExtTreeMap.mem_toList_iff_getElem?_eq_some.mpr htext, decide_eq_true htoken, rfl⟩

theorem mem_textTokens : (∃ entry ∈ overlayTexts index overlay, decide (token ∈ tokensOf entry.1) = true ∧ entry.2 = id) ↔
    ∃ i text, id = overlay.baseEntityCount + i ∧ overlay.normalized[i]? = some text ∧ token ∈ tokensOf text := by
  constructor
  · rintro ⟨entry, hentry, htoken, rfl⟩
    obtain ⟨i, hi, htext⟩ := mem_overlayTexts.mp hentry
    exact ⟨i, entry.1, hi, htext, of_decide_eq_true htoken⟩
  · rintro ⟨i, text, rfl, htext, htoken⟩
    exact ⟨(text, overlay.baseEntityCount + i), mem_overlayTexts.mpr ⟨i, rfl, htext⟩, decide_eq_true htoken, rfl⟩

/-- The last of the three loops: what is listed under the token and not hidden. -/
theorem listedToken_always {ids : Ids} {lasted : Bool} (hsound : ∀ id ∈ ids, TokenWanted index overlay token id)
    (hall : lasted = true → ∀ id, OverlayToken index overlay token id → id ∈ ids) :
    Always (do
        let (ids, complete) ← if lasted then
            insertIf (fun x => !hidden index overlay x) (fun x => x) (index.tokenPostings[token]?.getD ∅).toList ids
          else pure (ids, false)
        return { estimated := some ids.size, ids := ids, complete := complete, timedOut := ← timedOut,
                 strategy := "token_primary", matchKind := .token })
      (Collected index overlay (TokenWanted index overlay token)) := by
  refine always_ite (fun hlasted => always_bind ((insertIf_always _ _ _ _).mono ?_)) fun _ =>
    always_bind (always_pure (always_bind fun c m => always_pure ⟨fun id hid _ => hsound id hid, by simp⟩))
  rintro ⟨ids', complete⟩ hlisted
  refine always_bind fun c m => always_pure ⟨fun id hid _ => ?_, fun hcomplete id _ hwanted => ?_⟩
  · rcases hlisted.sound id hid with hid | ⟨x, hx, hshown, rfl⟩
    · exact hsound id hid
    · exact .inr ⟨by simpa using hshown, listed_iff.mpr (Std.ExtTreeSet.mem_toList.mp hx)⟩
  · rcases hwanted with hoverlay | ⟨hshown, hposting⟩
    · exact hlisted.kept id (hall hlasted id hoverlay)
    · exact hlisted.all hcomplete id (Std.ExtTreeSet.mem_toList.mpr (listed_iff.mp hposting)) (by simpa using hshown)

theorem collectToken_collected (token : Text) :
    Always (collectToken index overlay token) (Collected index overlay (TokenWanted index overlay token)) := by
  unfold collectToken
  refine always_bind ((insertIf_always _ _ _ _).mono ?_)
  rintro ⟨ids, lasted⟩ hoverrides
  have hsound : ∀ id ∈ ids, TokenWanted index overlay token id := by
    intro id hid
    rcases hoverrides.sound id hid with hempty | hfound
    · exact absurd hempty Std.ExtTreeSet.not_mem_empty
    · exact .inl (.inl (mem_overrideTokens.mp hfound))
  dsimp only
  refine always_ite (fun hlasted => always_bind ((insertIf_always _ _ _ _).mono ?_)) fun _ =>
    always_bind (always_pure (listedToken_always hsound fun h => absurd h Bool.false_ne_true))
  rintro ⟨ids', lasted'⟩ howns
  refine listedToken_always (fun id hid => ?_) fun hlasted' id hid => ?_
  · rcases howns.sound id hid with hid | hfound
    · exact hsound id hid
    · exact .inl (.inr (mem_textTokens.mp hfound))
  · rcases hid with hoverride | hown
    · obtain ⟨entry, hentry, htoken, rfl⟩ := mem_overrideTokens.mpr hoverride
      exact howns.kept _ (hoverrides.all hlasted entry hentry htoken)
    · obtain ⟨entry, hentry, htoken, rfl⟩ := mem_textTokens.mpr hown
      exact howns.all hlasted' entry hentry htoken

theorem gatherToken_evidenced (hkinds : query.kinds = []) (text token : Text) :
    Always (gather index overlay engine query .token text token) fun r =>
      ∃ gathered, r = .ok gathered ∧ Evidenced index overlay (TokenWanted index overlay token) gathered := by
  refine collectSurfaceEvidence_evidenced hkinds text token ?_
  rw [if_neg SearchMode.noConfusion]
  exact always_bind (always_map ((collectToken_collected token).mono fun candidates => restricted_collected))

/-- Without a deadline the collection is complete: no limit cuts it. -/
theorem collectToken_complete (token : Text) : (collectToken index overlay token).value.complete = true ∧
    (collectToken index overlay token).value.timedOut = false := by
  have hinsert : ∀ {α : Type} (test : α → Bool) (idOf : α → Nat) (xs : List α) (into : Ids),
      (insertIf test idOf xs into).value.2 = true := by
    intro α test idOf xs into
    rw [insertIf, value_each]
  simp [collectToken, hinsert]

theorem collectSurfaceEvidence_complete (hkinds : query.kinds = []) {text normalized : Text}
    {candidates : CandidateSet} (h : (collectSurface index overlay engine mode
      (if mode = .regex then text else normalized) []).value = .ok candidates)
    (hcomplete : candidates.complete = true) (hunspent : candidates.timedOut = false) :
    ∃ gathered, (collectSurfaceEvidence index overlay engine query mode text normalized).value = .ok gathered ∧
      gathered.complete = true := by
  have hsources : (tokenSources index overlay mode candidates.ids).value.2 = true := by
    unfold tokenSources
    split
    · rw [tokenFunctionSources, value_each]
    · rfl
  have hsurface : ∀ sources, (surfaceCandidates index overlay query mode text candidates sources).value.2 = true := by
    intro sources
    rw [surfaceCandidates, value_each]
  unfold collectSurfaceEvidence
  rw [hkinds, value_bind, h]
  refine ⟨_, rfl, ?_⟩
  simp only [hcomplete, hunspent, Bool.true_and, Bool.and_eq_true]
  exact ⟨⟨hsources, hsurface _⟩, rfl⟩

theorem gatherToken_complete (hkinds : query.kinds = []) (text token : Text) :
    ∃ gathered, (gather index overlay engine query .token text token).value = .ok gathered ∧ gathered.complete = true := by
  obtain ⟨hcomplete, hunspent⟩ := @collectToken_complete index overlay token
  have hsurface : (collectSurface index overlay engine .token token []).value =
      .ok { (collectToken index overlay token).value with
        complete := (collectToken index overlay token).value.complete && true
        timedOut := (collectToken index overlay token).value.timedOut || false } := rfl
  refine collectSurfaceEvidence_complete hkinds hsurface ?_ ?_
  · rw [hcomplete]
    rfl
  · rw [hunspent]
    rfl

/-- So is the signature. -/
theorem querySignature_complete (evidence : EvidenceMap) : (querySignature index evidence).value.2 = true := by
  simp only [querySignature, value_bind, value_pure, Bool.and_eq_true]
  refine ⟨value_each_inv (P := fun s : Signature × Bool => s.2 = true) ?_ _ rfl, by rw [value_each]⟩
  rintro ⟨id, candidate⟩ ⟨signature, going⟩ -
  simp only [value_bind, value_each, if_true]
  rfl

/-- An answer within the deadline is exact. -/
theorem search_exact_of_patient {plan : Plan} {gathered : Gathered} (hplan : planQuery query = .ok plan)
    (hgather : (gather index overlay engine query plan.mode plan.queryText plan.normalized).value = .ok gathered)
    (hcomplete : gathered.complete = true) {limit : Nat} {cursor : Option Text} {c : Clock} (hc : c.Patient)
    {page : SearchResult}
    (hrun : ((search index overlay engine query limit cursor).run c { iterations := 0, timedOut := false }).1 = .ok page) :
    page.totalKind = .exact := by
  rw [run_fst ((search index overlay engine query limit cursor).quiet c _ hc rfl)] at hrun
  cases hopen : openCursor index overlay plan cursor with
  | error e =>
    simp only [search, hplan, hopen, value_pure] at hrun
    cases hrun
  | ok key =>
    simp only [search, hplan, hopen, value_bind, hgather, rankHits_value, value_timedOut, value_pure] at hrun
    obtain rfl := Except.ok.inj hrun
    simp [answer, hcomplete, querySignature_complete]

variable (index overlay engine)

/-- Exact answers that follow one another, whatever the limits of the pages, list the ids. -/
def PagesList (query : Query) (ids : List Nat) : Prop :=
  ∀ limits clocks fuel, ids.length < fuel →
    (∀ x ∈ follow index overlay engine query limits clocks fuel 0 none,
      ∃ page, x.1 = .ok page ∧ page.totalKind = .exact) →
    ∃ pages : List SearchResult,
      (follow index overlay engine query limits clocks fuel 0 none).map Prod.fst = pages.map Except.ok ∧
      ((pages.flatMap SearchResult.hits).map Hit.entityId).Perm ids

variable {index overlay engine}

/-- The pages list what is visible and wanted. -/
theorem lists_iff (hrange : Ranged index overlay) {plan : Plan} {gathered : Gathered}
    (hplan : planQuery query = .ok plan)
    (hgather : (gather index overlay engine query plan.mode plan.queryText plan.normalized).value = .ok gathered)
    {wanted : Nat → Prop} (hevidenced : Evidenced index overlay wanted gathered) (hcomplete : gathered.complete = true)
    {ids : List Nat} (hnodup : ids.Nodup) (hids : ∀ id, Visible index overlay id → wanted id → id ∈ ids)
    (hvisible : ∀ id ∈ ids, Visible index overlay id) :
    PagesList index overlay engine query ids ↔ ∀ id ∈ ids, wanted id := by
  classical
  set signature := (querySignature index gathered.evidence).value.1 with hsignature
  set ranked := TopK.sort hitKey (scoredHits index overlay engine signature gathered.evidence) with hranked
  have hperm : (ranked.map ScoredHit.entityId).Perm (ids.filter fun id => wanted id) := by
    refine ((TopK.sort_perm _).map _).trans (scoredHits_perm hevidenced hcomplete _ (hnodup.filter _) fun id => ?_)
    rw [List.mem_filter, decide_eq_true_eq]
    exact ⟨fun ⟨hin, hwanted⟩ => ⟨hvisible id hin, hwanted⟩, fun ⟨hshown, hwanted⟩ => ⟨hids id hshown hwanted, hwanted⟩⟩
  have hlength : ranked.length ≤ ids.length := by
    rw [← List.length_map (f := ScoredHit.entityId), hperm.length_eq]
    exact List.length_filter_le _ _
  constructor
  · intro hlists
    -- clocks that are never late: every answer is exact
    let clocks : Nat → Clock := fun _ => { late := fun _ => false, interval := 1 }
    have hmet : ∀ x ∈ follow index overlay engine query (fun _ => 1) clocks (ids.length + 1) 0 none, x.2.timedOut = false :=
      follow_patient (fun _ _ => rfl) _ _ _
    have hrest := follow_rest hrange hplan hgather hranked (fun _ => 1) clocks (ids.length + 1) 0 none none rfl
    rw [Option.map_none, TopK.behind_none] at hrest
    obtain ⟨pages, -, hpages, -⟩ := hrest (by omega) hmet
    have hexact : ∀ x ∈ follow index overlay engine query (fun _ => 1) clocks (ids.length + 1) 0 none,
        ∃ page, x.1 = .ok page ∧ page.totalKind = .exact := by
      intro x hx
      have hfst := List.mem_map_of_mem (f := Prod.fst) hx
      rw [hpages] at hfst
      obtain ⟨page, -, hpage⟩ := List.mem_map.mp hfst
      obtain ⟨i, cursor, rfl⟩ := mem_follow hx
      exact ⟨page, hpage.symm, search_exact_of_patient hplan hgather hcomplete (fun _ => rfl) hpage.symm⟩
    obtain ⟨pages, hpages, hids⟩ := hlists (fun _ => 1) clocks (ids.length + 1) (by omega) hexact
    obtain ⟨pages', hpages', hlisted, -, -⟩ := follow_exact hrange hplan hgather hranked (by omega) hexact
    have hsame : pages = pages' := List.map_injective_iff.mpr (fun _ _ h => Except.ok.inj h) (hpages.symm.trans hpages')
    rw [hsame, hlisted] at hids
    intro id hid
    exact of_decide_eq_true (List.mem_filter.mp ((hids.symm.trans hperm).mem_iff.mp hid)).2
  · intro hall limits clocks fuel hfuel hexact
    obtain ⟨pages, hpages, hlisted, -, -⟩ := follow_exact hrange hplan hgather hranked (by omega) hexact
    refine ⟨pages, hpages, ?_⟩
    rw [hlisted]
    refine hperm.trans (List.Perm.of_eq (List.filter_eq_self.mpr fun id hid => decide_eq_true (hall id hid)))

/-! ## What the oracle lists -/

theorem mem_oracleTokens : id ∈ oracleTokens index overlay token ↔
    (∃ e ∈ index.entities, e.kind = .instruction ∧ hidden index overlay e.id = false ∧
      token ∈ tokensOf (index.normalized.getD e.id []) ∧
        (id = e.id ∨ e.funcEntry.bind (fun va => index.functionByVa[va]?) = some id)) ∨
      OverlayToken index overlay token id := by
  unfold oracleTokens
  rw [List.mem_append, List.mem_append, or_assoc]
  refine or_congr ?_ (or_congr ?_ ?_)
  · rw [List.mem_flatMap]
    refine exists_congr fun e => and_congr_right fun _ => ?_
    split
    · rename_i h
      obtain ⟨hkind, hshown, htoken⟩ := h
      rw [Bool.not_eq_true'] at hshown
      rw [List.mem_cons, Option.mem_toList]
      exact ⟨fun hid => ⟨hkind, hshown, htoken, hid⟩, fun ⟨_, _, _, hid⟩ => hid⟩
    · rename_i h
      refine iff_of_false List.not_mem_nil fun ⟨hkind, hshown, htoken, _⟩ => h ⟨hkind, by simp [hshown], htoken⟩
  · simp only [List.mem_map, List.mem_filter, and_assoc, ← mem_overrideTokens]
  · simp only [List.mem_map, List.mem_filter, and_assoc, ← mem_textTokens]

/-! ## What a state's overlay hides -/

theorem mem_entities {e : Entity} : e ∈ index.entities ↔ index.entities[e.id]? = some e := by
  constructor
  · intro he
    obtain ⟨i, hi⟩ := List.mem_iff_getElem?.mp he
    rwa [index.id_eq i e hi]
  · exact List.mem_of_getElem?

theorem normalized_fromProject (analysis : Analysis) (p : Project) (id : Nat) :
    (Overlay.fromProject index analysis p).normalizedOverrides[id]? =
      ((Overlay.fromProject index analysis p).displayOverrides[id]?).map normalizeAscii := by
  refine Overlay.fromProject_induct (P := fun o : Overlay index =>
    ∀ id : Nat, o.normalizedOverrides[id]? = (o.displayOverrides[id]?).map normalizeAscii) ?_ ?_ ?_ analysis p ?_ ?_ id
  · exact fun kind display normalized va functionVa h => h
  · exact fun _ h => h
  · intro overlay va function display _ _ h id
    show (overlay.normalizedOverrides.insert function (normalizeAscii display))[id]? =
      ((overlay.displayOverrides.insert function display)[id]?).map normalizeAscii
    rw [Std.ExtTreeMap.getElem?_insert, Std.ExtTreeMap.getElem?_insert]
    split
    · rfl
    · exact h id
  · intro id
    simp [Overlay.empty]
  · exact fun h => h

end Search

/-- An index of one state under the overlay of another. -/
structure Edited (image : Image) (p0 p1 : Project) (index : BelIndex) (overlay : Overlay index) : Prop where
  built : Built image.analysis p0 index
  tokens : TokenTables index
  taken : Taken (sortedSlots image.analysis p1) overlay
  named : overlay.Named
  overrides : ∀ id : Nat, overlay.normalizedOverrides[id]? = (overlay.displayOverrides[id]?).map normalizeAscii

theorem edited_fromProject {image : Image} {p0 : Project} {config : BelConfig} {index : BelIndex}
    (hbuild : BelIndex.build image p0 config = .ok index) (p1 : Project) :
    Edited image p0 p1 index (Overlay.fromProject index image.analysis p1) := by
  have htables : Tables index := by
    rw [build_eq hbuild]
    exact tables_finish image config _
  exact ⟨built_of_build hbuild, tokened_build hbuild, taken_fromProject index image.analysis p1,
    Overlay.named_fromProject htables image.analysis p1, normalized_fromProject image.analysis p1⟩

/-- The function contains an instruction with the token. -/
def Contains (index : BelIndex) (token : Text) (f : SsaCache.Function) : Prop :=
  ∃ e ∈ index.entities, e.kind = .instruction ∧ token ∈ tokensOf (normalizeAscii e.display) ∧ e.funcEntry = some f.entryVa

/-- The function has a symbol in the second state that gives it a new name. -/
def RenamedTo (p0 p1 : Project) (f : SsaCache.Function) (name : String) : Prop :=
  p1.symbolName f.entryVa = some name ∧ p0.symbolName f.entryVa ≠ some name ∧ f.name p0 ≠ name

section State
variable {image : Image} {p0 p1 : Project} {index : BelIndex} {overlay : Overlay index}
  (h : Edited image p0 p1 index overlay)
include h

/-- Only slots are tombstoned. -/
theorem live_of_kind {e : Entity} (he : e ∈ index.entities) (hkind : e.kind = .instruction ∨ e.kind = .function) :
    e.id ∉ overlay.tombstones := by
  intro hmem
  obtain ⟨t, -, -, hslot⟩ := (h.taken.tombstones e.id).mp hmem
  obtain ⟨s, hs, -, e', hevidence, -, he'⟩ := h.built.entity_slot hslot
  obtain rfl := Option.some.inj ((mem_entities.mp he).symm.trans he')
  have hfits := (IndexBuilder.slotShape_of_built hs).2
  have hsame : e.kind = s.kind := congrArg (fun ev : Evidence => ev.1) hevidence
  rw [← hsame] at hfits
  rcases hkind with hkind | hkind
  · rw [hkind, kindFits_ne_instruction] at hfits
    cases hfits
  · exact kindFits_ne_function hfits hkind

/-- What is overridden is a function. -/
theorem function_of_surface {id : Nat} (hid : id ∈ overlay.surfaceTombstones) :
    ∃ va : Nat, index.functionByVa[va]? = some id := by
  obtain ⟨text, htext⟩ := (h.named.surface id).mp hid
  rw [h.overrides] at htext
  obtain ⟨display, hdisplay, -⟩ := Option.map_eq_some_iff.mp htext
  exact h.taken.override_function hdisplay

/-- No instruction is hidden. -/
theorem instruction_shown {e : Entity} (he : e ∈ index.entities) (hkind : e.kind = .instruction) :
    hidden index overlay e.id = false := by
  unfold hidden
  rw [Bool.or_eq_false_iff, decide_eq_false_iff_not, decide_eq_false_iff_not]
  refine ⟨live_of_kind h he (.inl hkind), fun hmem => ?_⟩
  obtain ⟨va, hva⟩ := function_of_surface h hmem
  obtain ⟨-, e', he', hfunction⟩ := h.built.entry va e.id hva
  obtain rfl := Option.some.inj ((mem_entities.mp he).symm.trans he')
  rw [hkind] at hfunction
  cases hfunction

/-- A function is visible, and hidden only if it was renamed. -/
theorem function_live {va id : Nat} (hva : index.functionByVa[va]? = some id) :
    Visible index overlay id ∧ (hidden index overlay id = true ↔ ∃ text, overlay.normalizedOverrides[id]? = some text) := by
  obtain ⟨-, e, he, hkind⟩ := h.built.entry va id hva
  obtain rfl := index.id_eq id e he
  have hlive := live_of_kind h (List.mem_of_getElem? he) (.inr hkind)
  refine ⟨?_, ?_⟩
  · unfold Visible IndexData.entity
    rw [if_neg hlive, he]
    rfl
  · rw [← h.named.surface, hidden, Bool.or_eq_true, decide_eq_true_eq, decide_eq_true_eq, or_iff_right hlive]

theorem visible_of_hasToken {token : Text} {id : Nat} (hid : HasToken index token id) : Visible index overlay id := by
  obtain ⟨e, he, hkind, -, rfl | hfunction⟩ := hid
  · unfold Visible IndexData.entity
    rw [if_neg (live_of_kind h he (.inl hkind)), mem_entities.mp he]
    rfl
  · obtain ⟨va, -, hva⟩ := Option.bind_eq_some_iff.mp hfunction
    exact (function_live h hva).1

theorem visible_of_override {id : Nat} {text : Text} (htext : overlay.normalizedOverrides[id]? = some text) :
    Visible index overlay id := by
  obtain ⟨va, hva⟩ := function_of_surface h ((h.named.surface id).mpr ⟨text, htext⟩)
  exact (function_live h hva).1

theorem visible_of_own {i : Nat} {text : Text} (htext : overlay.normalized[i]? = some text) :
    Visible index overlay (overlay.baseEntityCount + i) := by
  -- a tombstone is a number of the base
  have hlive : overlay.baseEntityCount + i ∉ overlay.tombstones := by
    intro hmem
    obtain ⟨t, -, -, hslot⟩ := (h.taken.tombstones _).mp hmem
    have hlt := index.slot_lt _ _ hslot
    rw [← overlay.base_eq] at hlt
    omega
  have hlt : i < overlay.entities.length := by
    rw [← overlay.normalized_length]
    exact (List.getElem?_eq_some_iff.mp htext).1
  have hbase : index.entities[overlay.baseEntityCount + i]? = none := by
    rw [List.getElem?_eq_none_iff, overlay.base_eq]
    omega
  unfold Visible IndexData.entity Overlay.entity
  rw [if_neg hlive, hbase, if_neg (by omega), Nat.add_sub_cancel_left, List.getElem?_eq_getElem hlt]
  rfl

theorem visible_of_overlayToken {token : Text} {id : Nat} (hid : OverlayToken index overlay token id) :
    Visible index overlay id := by
  rcases hid with ⟨text, htext, -⟩ | ⟨i, text, rfl, htext, -⟩
  · exact visible_of_override h htext
  · exact visible_of_own h htext

/-- The oracle lists the instructions with the token and all functions that contain one. -/
theorem oracleTokens_spec {token : Text} {id : Nat} :
    id ∈ oracleTokens index overlay token ↔ HasToken index token id ∨ OverlayToken index overlay token id := by
  rw [mem_oracleTokens]
  refine or_congr_left (exists_congr fun e => and_congr_right fun he => and_congr_right fun hkind => ?_)
  have htext : index.normalized.getD e.id [] = normalizeAscii e.display := by
    rw [h.tokens.texts, List.getD_eq_getElem?_getD, List.getElem?_map, mem_entities.mp he]
    rfl
  rw [htext]
  exact and_iff_right (instruction_shown h he hkind)

/-- The search finds what the oracle lists if every function that is hidden has the token
in its new name. -/
theorem wanted_iff {token : Text} (htoken : token ≠ []) :
    (∀ id ∈ oracleTokens index overlay token, TokenWanted index overlay token id) ↔
      ∀ id, HasToken index token id → hidden index overlay id = true → OverlayToken index overlay token id := by
  simp only [oracleTokens_spec h, TokenWanted, h.tokens.listed]
  constructor
  · intro hall id hid hhidden
    refine (hall id (.inl hid)).resolve_right ?_
    rintro ⟨hshown, -⟩
    rw [hhidden] at hshown
    cases hshown
  · rintro hall id (hid | hid)
    · cases hhidden : hidden index overlay id with
      | true => exact .inl (hall id hid hhidden)
      | false => exact .inr ⟨rfl, htoken, hid⟩
    · exact .inl hid

/-- The functions that are hidden are those that were renamed. -/
theorem hidden_iff_renamed (token : Text) :
    (∀ id, HasToken index token id → hidden index overlay id = true → OverlayToken index overlay token id) ↔
      ∀ f ∈ image.analysis.functions, Contains index token f →
        ∀ name, RenamedTo p0 p1 f name → token ∈ tokensOf (normalizeAscii name.toList) := by
  -- what overrides a function is its new name
  have hoverride : ∀ {f : SsaCache.Function} {id : Nat}, f ∈ image.analysis.functions →
      index.functionByVa[f.entryVa]? = some id → ∀ text : Text, overlay.normalizedOverrides[id]? = some text ↔
        ∃ name, RenamedTo p0 p1 f name ∧ normalizeAscii name.toList = text := by
    intro f id hf hid text
    obtain ⟨id', e, hid', he, hname⟩ := h.built.entered f hf
    obtain rfl := Option.some.inj (hid'.symm.trans hid)
    have hbase : Overlay.baseDisplay index id' = some (f.name p0).toList := by
      rw [Overlay.baseDisplay, he, Option.map_some, hname]
    have hdisplay := h.built.override_iff h.taken hid hbase
    rw [h.overrides, Option.map_eq_some_iff]
    constructor
    · rintro ⟨display, hover, rfl⟩
      obtain ⟨hnew, hold, hne⟩ := (hdisplay display).mp hover
      obtain ⟨name, hsymbol, rfl⟩ := Option.map_eq_some_iff.mp hnew
      refine ⟨name, ⟨hsymbol, fun hsame => hold (by rw [hsame]; rfl), fun hsame => hne (by rw [hsame])⟩, rfl⟩
    · rintro ⟨name, ⟨hsymbol, hold, hne⟩, rfl⟩
      refine ⟨name.toList, (hdisplay _).mpr ⟨by rw [hsymbol]; rfl, fun hsame => hold ?_, fun hsame => hne (String.toList_inj.mp hsame)⟩, rfl⟩
      obtain ⟨name', hsymbol', hsame⟩ := Option.map_eq_some_iff.mp hsame
      rw [hsymbol', String.toList_inj.mp hsame]
  constructor
  · rintro hall f hf ⟨e, he, hkind, htoken, hentry⟩ name hrenamed
    obtain ⟨id, -, hid, -, -⟩ := h.built.entered f hf
    have htext := (hoverride hf hid _).mpr ⟨name, hrenamed, rfl⟩
    have hhidden := (function_live h hid).2.mpr ⟨_, htext⟩
    have hfound := hall id ⟨e, he, hkind, htoken, .inr (by rw [hentry]; exact hid)⟩ hhidden
    rcases hfound with ⟨text, htext', htoken'⟩ | ⟨i, text, rfl, -, -⟩
    · rwa [Option.some.inj (htext'.symm.trans htext)] at htoken'
    · have hlt := h.named.base _ _ htext
      omega
  · rintro hall id ⟨e, he, hkind, htoken, hid⟩ hhidden
    rcases hid with rfl | hid
    · rw [instruction_shown h he hkind] at hhidden
      cases hhidden
    · obtain ⟨va, hva, hid⟩ := Option.bind_eq_some_iff.mp hid
      obtain ⟨hmem, -⟩ := h.built.entry va id hid
      obtain ⟨f, hf, rfl⟩ := List.mem_map.mp hmem
      obtain ⟨text, htext⟩ := (function_live h hid).2.mp hhidden
      obtain ⟨name, hrenamed, rfl⟩ := (hoverride hf hid text).mp htext
      exact .inl ⟨_, htext, hall f hf ⟨e, he, hkind, htoken, hva⟩ name hrenamed⟩

end State

/-! ## The search against the oracle -/

theorem normalized_ne_nil {query : Query} {plan : Plan} (h : planQuery query = .ok plan) (hmode : plan.mode = .token) :
    plan.normalized ≠ [] := by
  unfold planQuery at h
  split at h
  · cases h
  · split at h
    · cases h
    · dsimp only at h
      split at h
      · cases h
      · rename_i hfull
        obtain rfl := Except.ok.inj h
        intro hempty
        refine hfull ⟨hempty, ?_⟩
        rw [show (classifyQuery query).1 = .token from hmode]
        exact SearchMode.noConfusion

/-- The pages of a token search list what the oracle lists if all of it is wanted. -/
theorem tokenSearch_lists {image : Image} {p0 p1 : Project} {index : BelIndex} {overlay : Overlay index}
    (h : Edited image p0 p1 index overlay) (engine : Engine) {query : Query} {plan : Plan}
    (hplan : planQuery query = .ok plan) (hmode : plan.mode = .token) (hkinds : query.kinds = [])
    (hrange : Ranged index overlay) :
    ∃ ids, linearOracleIds index overlay engine .token plan.queryText = .ok ids ∧
      (PagesList index overlay engine query ids ↔
        ∀ id ∈ oracleTokens index overlay plan.normalized, TokenWanted index overlay plan.normalized id) := by
  obtain ⟨-, htext, hnormalized⟩ := planQuery_eq hplan
  rw [← htext] at hnormalized
  obtain ⟨gathered, hgather, hcomplete⟩ :=
    @gatherToken_complete index overlay engine query hkinds plan.queryText plan.normalized
  have hevidenced : Evidenced index overlay (TokenWanted index overlay plan.normalized) gathered := by
    have hall := (@gatherToken_evidenced index overlay engine query hkinds plan.queryText plan.normalized).value
    rw [hgather] at hall
    obtain ⟨_, hsame, hevidenced⟩ := hall
    rwa [Except.ok.inj hsame]
  rw [← hmode] at hgather
  refine ⟨_, rfl, ?_⟩
  set ids := (Std.ExtTreeSet.ofList (oracleTokens index overlay (normalizeAscii plan.queryText)) compare).toList with hids
  have hmem : ∀ id, id ∈ ids ↔ id ∈ oracleTokens index overlay plan.normalized := by
    intro id
    rw [hids, Std.ExtTreeSet.mem_toList, Std.ExtTreeSet.mem_ofList, List.contains_iff_mem, hnormalized]
  have hnodup : ids.Nodup := by
    refine Std.ExtTreeSet.distinct_toList.imp ?_
    intro a b hne heq
    exact hne (compare_eq_iff_eq.mpr heq)
  rw [lists_iff hrange hplan hgather hevidenced hcomplete hnodup]
  · simp only [hmem]
  · rintro id - (hid | ⟨-, hid⟩)
    · exact (hmem id).mpr ((oracleTokens_spec h).mpr (.inr hid))
    · exact (hmem id).mpr ((oracleTokens_spec h).mpr (.inl ((h.tokens.listed _ _).mp hid).2))
  · intro id hid
    rcases (oracleTokens_spec h).mp ((hmem id).mp hid) with hid | hid
    · exact visible_of_hasToken h hid
    · exact visible_of_overlayToken h hid

/-- Exact pages of a token search list what the oracle lists exactly when every function
that contains an instruction with the token, and was renamed, has it in its new name. -/
theorem tokenSearch_lists_iff {image : Image} {p0 : Project} {config : BelConfig} {index : BelIndex}
    (hbuild : BelIndex.build image p0 config = .ok index) (p1 : Project) (engine : Engine) {query : Query} {plan : Plan}
    (hplan : planQuery query = .ok plan) (hmode : plan.mode = .token) (hkinds : query.kinds = [])
    (hrange : Ranged index (Overlay.fromProject index image.analysis p1)) :
    ∃ ids, linearOracleIds index (Overlay.fromProject index image.analysis p1) engine .token plan.queryText = .ok ids ∧
      (PagesList index (Overlay.fromProject index image.analysis p1) engine query ids ↔
        ∀ f ∈ image.analysis.functions, Contains index plan.normalized f →
          ∀ name, RenamedTo p0 p1 f name → plan.normalized ∈ tokensOf (normalizeAscii name.toList)) := by
  have h := edited_fromProject hbuild p1
  obtain ⟨ids, hids, hlists⟩ := tokenSearch_lists h engine hplan hmode hkinds hrange
  refine ⟨ids, hids, ?_⟩
  rw [hlists, wanted_iff h (normalized_ne_nil hplan hmode), hidden_iff_renamed h]

/-! A function with one instruction, which gets a name. -/

def nopImage : Image :=
  { smallImage [mainFunction] (by decide) with
    codeIndex := [{ ip := 0x1000, immediates := [], isIndirect := false }]
    format := fun _ _ => "nop".toList }

def nopIndex : BelIndex := (IndexBuilder.gathered nopImage bareProject).finish nopImage .default

def nopQuery : Query :=
  { text := "nop".toList, mode := .token, evidence := [], quorum := none, relationshipDepth := 1, kinds := [] }

def mainProject : Project := (Op.renameSymbol 0x1000 "main" .user none none).applyTo bareProject

theorem gathered_nop : IndexBuilder.gathered nopImage bareProject =
    ((((IndexBuilder.new.addFunctions nopImage bareProject).addStrings nopImage).addInstructions nopImage
      bareProject).addMotifs nopImage) := by
  simp only [IndexBuilder.gathered, IndexBuilder.addSymbols, IndexBuilder.addAnnotations]
  rw [show sortedSlots nopImage.analysis bareProject = [] from sortedSlots_bare _]
  rw [show entriesOf bareProject.symbols = [] from entriesOf_empty]
  rfl

theorem build_nop : BelIndex.build nopImage bareProject .default = .ok nopIndex := by
  refine build_of_small ?_
  rw [gathered_nop]
  decide +kernel

theorem mainProject_eq : mainProject =
    { bareProject with symbols := (∅ : Map Symbol).insert 0x1000 { name := "main", kind := .user } } := by
  simp [mainProject, Op.applyTo, Op.captureAndApply, Project.renameSymbol, Project.symbolName, bareProject]

def mainSlot : AnnotationSlot :=
  { sortKey := "00:0000000000001000".toList, slot := { kind := .symbol, va := 0x1000 }, kind := .symbol,
    display := "main".toList, va := some 0x1000, functionVa := some 0x1000 }

theorem sortedSlots_main : sortedSlots nopImage.analysis mainProject = [mainSlot] := by
  simp only [sortedSlots, currentAnnotationSlots, slotsOf, mainProject_eq, bareProject, entriesOf_empty,
    entriesOf_singleton, List.map_nil, List.map_cons, List.append_nil]
  rfl

/-- What is read off the index and the overlay of the named function. -/
theorem nopIndex_main :
    ([mainSlot].foldl Overlay.takeUp (Overlay.empty nopIndex mainProject.opSeq)).generation < 2 ^ 64 ∧
      (∀ e ∈ nopIndex.entities ++ ([mainSlot].foldl Overlay.takeUp (Overlay.empty nopIndex mainProject.opSeq)).entities,
        e.id < 2 ^ 32 ∧ (e.va.all fun va => decide (va < 2 ^ 64)) = true) ∧
      linearOracleIds nopIndex ([mainSlot].foldl Overlay.takeUp (Overlay.empty nopIndex mainProject.opSeq)).sorted
        plainEngine .token nopQuery.text = .ok [0, 1] ∧
      Contains nopIndex nopQuery.text mainFunction := by
  rw [Contains, mainProject_eq, nopIndex, gathered_nop]
  decide +kernel

/-- The numbers of a small index and its overlay are small. -/
theorem ranged_nop {p : Project} {slots : List AnnotationSlot} (hslots : sortedSlots nopImage.analysis p = slots)
    (hseq : (slots.foldl Overlay.takeUp (Overlay.empty nopIndex p.opSeq)).generation < 2 ^ 64)
    (hown : ∀ e ∈ nopIndex.entities ++ (slots.foldl Overlay.takeUp (Overlay.empty nopIndex p.opSeq)).entities,
      e.id < 2 ^ 32 ∧ (e.va.all fun va => decide (va < 2 ^ 64)) = true) :
    Ranged nopIndex (Overlay.fromProject nopIndex nopImage.analysis p) := by
  have hoverlay : Overlay.fromProject nopIndex nopImage.analysis p =
      (slots.foldl Overlay.takeUp (Overlay.empty nopIndex p.opSeq)).sorted := by
    rw [Overlay.fromProject, hslots]
  rw [hoverlay]
  refine ⟨?_, hseq, fun id e h => ?_⟩
  · show IndexBuilder.generationOf nopImage .default < 2 ^ 64
    decide
  · obtain ⟨hid, hva⟩ := hown e (List.mem_append.mpr (IndexData.mem_of_entity h))
    refine ⟨hid, fun va hcase => ?_⟩
    rw [hcase] at hva
    exact of_decide_eq_true hva

/-- Before the function has a name, the search lists what the oracle lists. -/
theorem tokenSearch_lists_nop : BelIndex.build nopImage bareProject .default = .ok nopIndex ∧
    ∃ ids, linearOracleIds nopIndex (Overlay.fromProject nopIndex nopImage.analysis bareProject) plainEngine .token
        nopQuery.text = .ok ids ∧
      PagesList nopIndex (Overlay.fromProject nopIndex nopImage.analysis bareProject) plainEngine nopQuery ids := by
  have hplan : ∃ plan, planQuery nopQuery = .ok plan ∧ plan.mode = .token ∧ plan.queryText = nopQuery.text :=
    ⟨_, rfl, rfl, by decide⟩
  obtain ⟨plan, hplan, hmode, htext⟩ := hplan
  obtain ⟨ids, hids, hlists⟩ := tokenSearch_lists_iff build_nop bareProject plainEngine hplan hmode rfl
    (ranged_nop (sortedSlots_bare _) (by decide)
      fun e he => nopIndex_main.2.1 e (List.mem_append_left _ ((List.append_nil nopIndex.entities) ▸ he)))
  refine ⟨build_nop, ids, htext ▸ hids, hlists.mpr ?_⟩
  rintro f - - name ⟨hsymbol, -, -⟩
  simp [bareProject, Project.symbolName] at hsymbol

/-- Once it has one, it is listed by the oracle and not found by the search. -/
theorem mainProject_not_lists : BelIndex.build nopImage bareProject .default = .ok nopIndex ∧
    linearOracleIds nopIndex (Overlay.fromProject nopIndex nopImage.analysis mainProject) plainEngine .token
        nopQuery.text = .ok [0, 1] ∧
      ¬ PagesList nopIndex (Overlay.fromProject nopIndex nopImage.analysis mainProject) plainEngine nopQuery [0, 1] := by
  have hplan : ∃ plan, planQuery nopQuery = .ok plan ∧ plan.mode = .token ∧ plan.queryText = nopQuery.text ∧
      plan.normalized = nopQuery.text := ⟨_, rfl, rfl, by decide, by decide⟩
  obtain ⟨plan, hplan, hmode, htext, hnormalized⟩ := hplan
  have h := edited_fromProject build_nop mainProject
  have horacle : linearOracleIds nopIndex (Overlay.fromProject nopIndex nopImage.analysis mainProject) plainEngine .token
      nopQuery.text = .ok [0, 1] := by
    rw [Overlay.fromProject, sortedSlots_main]
    exact nopIndex_main.2.2.1
  obtain ⟨ids, hids, hlists⟩ := tokenSearch_lists h plainEngine hplan hmode rfl
    (ranged_nop sortedSlots_main nopIndex_main.1 nopIndex_main.2.1)
  rw [htext, horacle] at hids
  obtain rfl : [0, 1] = ids := Except.ok.inj hids
  rw [hlists, wanted_iff h (normalized_ne_nil hplan hmode), hidden_iff_renamed h, hnormalized]
  refine ⟨build_nop, horacle, fun hall => ?_⟩
  have hrenamed : RenamedTo bareProject mainProject mainFunction "main" := by
    refine ⟨?_, ?_, by decide⟩
    · simp [mainProject_eq, Project.symbolName, mainFunction]
    · simp [bareProject, Project.symbolName]
  have htoken := hall mainFunction (List.mem_singleton.mpr rfl) nopIndex_main.2.2.2 "main" hrenamed
  revert htoken
  decide +kernel

end Windy.Bel
