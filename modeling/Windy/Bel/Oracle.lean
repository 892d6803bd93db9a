import Windy.Bel.Fingerprint
import Windy.Bel.Lookup

/- The search of texts and numbers against the linear oracle (`linear_oracle_ids` in
   `analysis/bel/query.rs`).

   The oracle looks at every visible entity and uses no table. A search in one of the
   modes exact, prefix, substring and numeric collects candidates from the tables of an
   index that was built (`Tables`) and from an overlay that was kept (`Overlay.Named`).

   What is proved:
     - whatever the clock says, the visible candidates are among the oracle's, and they
       are all of them when the collection says that it is complete (`Collected`);
     - an answer that says it is exact met the deadline (`search_exact`);
     - so a search shows only what the oracle lists, an exact answer counts all of it,
       and exact answers that follow one another list it (`search_eq_linearOracle`).

   Correspondence:
     `linear_oracle_ids` ↔ `linearOracleIds` (`textMatches` for the match over the modes,
                           `oracleTokens` and `numbered` for the branches before it) -/
namespace Windy.Bel

open Budget Budget.Timed

section Oracle
variable (index : BelIndex) (overlay : Overlay index)

/-! ## The oracle -/

def Visible (id : Nat) : Prop := (index.entity overlay id).isSome

instance (id : Nat) : Decidable (Visible index overlay id) := inferInstanceAs (Decidable (_ = true))

/-- What the oracle asks of a normalized text. -/
def textMatches (mode : SearchMode) (normalized candidate : Text) : Bool :=
  match mode with
  | .exact => candidate = normalized
  | .namePrefix => normalized.isPrefixOf candidate
  | .substring => containsText candidate normalized
  | _ => false

/-- The instructions with the token and the functions they belong to, then the texts of
the overlay. -/
def oracleTokens (normalized : Text) : List Nat :=
  (index.entities.flatMap fun e =>
    if e.kind = .instruction ∧ !hidden index overlay e.id ∧ normalized ∈ tokensOf (index.normalized.getD e.id []) then
      e.id :: (e.funcEntry.bind fun va => index.functionByVa[va]?).toList
    else []) ++
  (overlay.normalizedOverrides.toList.filter fun entry => normalized ∈ tokensOf entry.2).map Prod.fst ++
  ((overlayTexts index overlay).filter fun entry => normalized ∈ tokensOf entry.1).map Prod.snd

/-- The entities with a number, in the tables of the index and of the overlay. -/
def numbered (number : Nat) : List Nat :=
  (numericRange number index.numeric).map Prod.snd ++ (numericRange number overlay.numeric).map Prod.snd

def linearOracleIds (engine : Engine) (mode : SearchMode) (text : Text) : Except BelQueryError (List Nat) :=
  let all := List.range (overlay.baseEntityCount + overlay.entities.length)
  match mode with
  | .numeric =>
    match parseNumber text with
    | none => .error (.invalidNumber text)
    | some number =>
      .ok (Std.ExtTreeSet.ofList ((numbered index overlay number).filter fun id => Visible index overlay id) compare).toList
  | .token => .ok (Std.ExtTreeSet.ofList (oracleTokens index overlay (normalizeAscii text)) compare).toList
  | .regex =>
    match engine.compile text with
    | .error message => .error (.invalidRegex message)
    | .ok isMatch =>
      .ok (all.filter fun id => Visible index overlay id && (index.displayAt overlay id).any isMatch)
  | mode =>
    .ok (all.filter fun id => Visible index overlay id &&
      textMatches mode (normalizeAscii text) ((index.normalizedAt overlay id).getD []))

/-! ## The text of an entity -/

variable {index overlay} {id : Nat} {text : Text}

theorem normalizedAt_override (h : overlay.normalizedOverrides[id]? = some text) :
    index.normalizedAt overlay id = some text := by
  unfold IndexData.normalizedAt
  rw [h]
  rfl

theorem normalizedAt_own (hnamed : overlay.Named) {i : Nat} (h : overlay.normalized[i]? = some text) :
    index.normalizedAt overlay (overlay.baseEntityCount + i) = some text := by
  have hnone : overlay.normalizedOverrides[overlay.baseEntityCount + i]? = none := by
    cases hoverride : overlay.normalizedOverrides[overlay.baseEntityCount + i]? with
    | none => rfl
    | some other =>
      have hlt := hnamed.base _ other hoverride
      omega
  have hbase : ¬ overlay.baseEntityCount + i < overlay.baseEntityCount := by omega
  unfold IndexData.normalizedAt Overlay.normalizedAt
  rw [hnone, if_neg hbase, if_neg hbase, Nat.add_sub_cancel_left, h]
  rfl

theorem normalizedAt_base (hnamed : overlay.Named) (hshown : hidden index overlay id = false)
    (h : index.normalized[id]? = some text) : index.normalizedAt overlay id = some text := by
  unfold hidden at hshown
  rw [Bool.or_eq_false_iff, decide_eq_false_iff_not, decide_eq_false_iff_not] at hshown
  have hnone : overlay.normalizedOverrides[id]? = none := by
    cases hoverride : overlay.normalizedOverrides[id]? with
    | none => rfl
    | some other => exact absurd ((hnamed.surface id).mpr ⟨other, hoverride⟩) hshown.2
  have hlt : id < overlay.baseEntityCount := by
    rw [overlay.base_eq, ← index.normalized_length]
    exact (List.getElem?_eq_some_iff.mp h).1
  unfold IndexData.normalizedAt
  rw [hnone, if_pos hlt, if_neg hshown.1, h]
  rfl

/-- A visible entity has its text from an override, from the overlay or from the base. -/
theorem text_of_visible (hnamed : overlay.Named) (hvisible : Visible index overlay id) :
    ∃ text, index.normalizedAt overlay id = some text ∧
      (overlay.normalizedOverrides[id]? = some text ∨
        (∃ i, id = overlay.baseEntityCount + i ∧ overlay.normalized[i]? = some text ∧ id ∉ overlay.tombstones) ∨
        (hidden index overlay id = false ∧ index.normalized[id]? = some text)) := by
  obtain ⟨e, he⟩ := Option.isSome_iff_exists.mp hvisible
  have hlive : id ∉ overlay.tombstones := by
    intro hmem
    rw [IndexData.entity, if_pos hmem] at he
    cases he
  rw [IndexData.entity, if_neg hlive] at he
  cases hoverride : overlay.normalizedOverrides[id]? with
  | some text => exact ⟨text, normalizedAt_override hoverride, .inl rfl⟩
  | none =>
    rcases Option.or_eq_some_iff.mp he with hbase | ⟨-, hown⟩
    · have hlt : id < index.normalized.length := by
        rw [index.normalized_length]
        exact (List.getElem?_eq_some_iff.mp hbase).1
      have htext := List.getElem?_eq_getElem hlt
      have hshown : hidden index overlay id = false := by
        unfold hidden
        rw [Bool.or_eq_false_iff, decide_eq_false_iff_not, decide_eq_false_iff_not, hnamed.surface]
        refine ⟨hlive, ?_⟩
        rintro ⟨text, htext⟩
        rw [hoverride] at htext
        cases htext
      exact ⟨_, normalizedAt_base hnamed hshown htext, .inr (.inr ⟨hshown, htext⟩)⟩
    · unfold Overlay.entity at hown
      split at hown
      · cases hown
      · rename_i hle
        obtain ⟨i, rfl⟩ := Nat.exists_eq_add_of_le (Nat.le_of_not_lt hle)
        rw [Nat.add_sub_cancel_left] at hown
        have hlt : i < overlay.normalized.length := by
          rw [overlay.normalized_length]
          exact (List.getElem?_eq_some_iff.mp hown).1
        have htext := List.getElem?_eq_getElem hlt
        exact ⟨_, normalizedAt_own hnamed htext, .inr (.inl ⟨i, rfl, htext, hlive⟩)⟩

/-! ## Loops that collect -/

/-- A loop inserts what passes the test, and all of it if it was not stopped. -/
structure Inserted {α : Type} (test : α → Bool) (idOf : α → Nat) (xs : List α) (into : Ids) (r : Ids × Bool) : Prop where
  sound : ∀ id ∈ r.1, id ∈ into ∨ ∃ x ∈ xs, test x = true ∧ idOf x = id
  kept : ∀ id ∈ into, id ∈ r.1
  all : r.2 = true → ∀ x ∈ xs, test x = true → idOf x ∈ r.1

theorem insertIf_always {α : Type} (test : α → Bool) (idOf : α → Nat) (xs : List α) (into : Ids) :
    Always (insertIf test idOf xs into) (Inserted test idOf xs into) := by
  -- what was inserted so far, and what is still to come
  let I : List α → Ids → Prop := fun rest s =>
    (∀ id ∈ s, id ∈ into ∨ ∃ x ∈ xs, test x = true ∧ idOf x = id) ∧ (∀ id ∈ into, id ∈ s) ∧ rest ⊆ xs ∧
      ∀ x ∈ xs, test x = true → idOf x ∈ s ∨ x ∈ rest
  refine always_each (I := I) ?_ ?_ ?_ ⟨fun id h => .inl h, fun id h => h, fun x h => h, fun x h _ => .inr h⟩
  · intro x rest s ⟨hsound, hkept, hrest, hall⟩
    refine always_pure ?_
    have hx : x ∈ xs := hrest List.mem_cons_self
    have hrest' : rest ⊆ xs := fun y hy => hrest (List.mem_cons_of_mem _ hy)
    show I rest (if test x then s.insert (idOf x) else s)
    split
    · rename_i htest
      refine ⟨?_, ?_, hrest', ?_⟩
      · intro id hid
        rcases mem_insertId.mp hid with rfl | hid
        · exact .inr ⟨x, hx, htest, rfl⟩
        · exact hsound id hid
      · intro id hid
        exact mem_insertId.mpr (.inr (hkept id hid))
      · intro y hy hty
        rcases hall y hy hty with hin | hmem
        · exact .inl (mem_insertId.mpr (.inr hin))
        · rcases List.mem_cons.mp hmem with rfl | hmem
          · exact .inl (mem_insertId.mpr (.inl rfl))
          · exact .inr hmem
    · rename_i htest
      refine ⟨hsound, hkept, hrest', ?_⟩
      intro y hy hty
      rcases hall y hy hty with hin | hmem
      · exact .inl hin
      · rcases List.mem_cons.mp hmem with rfl | hmem
        · exact absurd hty htest
        · exact .inr hmem
  · intro rest s ⟨hsound, hkept, _, _⟩
    exact ⟨hsound, hkept, by simp⟩
  · intro s ⟨hsound, hkept, _, hall⟩
    refine ⟨hsound, hkept, fun _ x hx htest => ?_⟩
    exact (hall x hx htest).resolve_right (by simp)

theorem insertAll_always (ids : List Nat) (into : Ids) :
    Always (insertAll ids into) (Inserted (fun _ => true) (fun id => id) ids into) :=
  insertIf_always (fun _ => true) (fun id => id) ids into

variable (index overlay)

/-- The candidates are wanted if they are visible, and all the wanted ones if the set is
complete. -/
structure Collected (wanted : Nat → Prop) (candidates : CandidateSet) : Prop where
  sound : ∀ id ∈ candidates.ids, Visible index overlay id → wanted id
  all : candidates.complete = true → ∀ id, Visible index overlay id → wanted id → id ∈ candidates.ids

/-- Entities with a text that matches. -/
def Matching (mode : SearchMode) (normalized : Text) (id : Nat) : Prop :=
  ∃ text, index.normalizedAt overlay id = some text ∧ textMatches mode normalized text = true

variable {index overlay}

/-! ## Exact -/

theorem collectExact_collected (htables : Tables index) (hnamed : overlay.Named) (normalized : Text) :
    Always (collectExact index overlay normalized)
      (Collected index overlay (Matching index overlay .exact normalized)) := by
  have hpostings : (index.nameFst.map[normalized]?.bind fun i => index.nameFst.postings[i]?).getD ∅ =
      (IndexBuilder.buildNameFst index.normalized).postingsOf normalized := by
    rw [← htables.names]
    rfl
  unfold collectExact
  refine always_bind ((insertAll_always _ _).mono ?_)
  rintro ⟨ids, lasted⟩ hnames
  have hsound : ∀ id ∈ ids, Matching index overlay .exact normalized id := by
    intro id hid
    rcases hnames.sound id hid with hempty | ⟨x, hx, -, rfl⟩
    · exact absurd hempty Std.ExtTreeSet.not_mem_empty
    · have hlisted : Listed overlay.names normalized x := listed_iff.mpr (Std.ExtTreeSet.mem_toList.mp hx)
      rcases hnamed.sound normalized x hlisted with hoverride | ⟨i, rfl, hown⟩
      · exact ⟨normalized, normalizedAt_override hoverride, by simp [textMatches]⟩
      · exact ⟨normalized, normalizedAt_own hnamed hown, by simp [textMatches]⟩
  dsimp only
  refine always_ite (fun hlasted => ?_) fun _ => always_pure ⟨fun id hid _ => hsound id hid, by simp⟩
  refine always_bind ((insertIf_always _ _ _ _).mono ?_)
  rintro ⟨ids', complete⟩ hbase
  refine always_bind fun c m => always_pure ⟨?_, ?_⟩
  · intro id hid _
    rcases hbase.sound id hid with hid | ⟨x, hx, hshown, rfl⟩
    · exact hsound id hid
    · rw [hpostings, Std.ExtTreeSet.mem_toList, mem_postingsOf] at hx
      exact ⟨normalized, normalizedAt_base hnamed (by simpa using hshown) hx, by simp [textMatches]⟩
  · intro hcomplete id hvisible ⟨text, htext, hmatch⟩
    obtain rfl : text = normalized := by simpa [textMatches] using hmatch
    obtain ⟨text', htext', hsource⟩ := text_of_visible hnamed hvisible
    obtain rfl : text' = text := Option.some.inj (htext'.symm.trans htext)
    have hlist : Listed overlay.names text' id → id ∈ ids' := fun hlisted =>
      hbase.kept id (hnames.all hlasted id (Std.ExtTreeSet.mem_toList.mpr (listed_iff.mp hlisted)) rfl)
    rcases hsource with hoverride | ⟨i, rfl, hown, hlive⟩ | ⟨hshown, hbaseText⟩
    · exact hlist (hnamed.override id text' hoverride)
    · exact hlist (hnamed.own i text' hown hlive)
    · refine hbase.all hcomplete id ?_ (by simpa using hshown)
      rw [hpostings, Std.ExtTreeSet.mem_toList, mem_postingsOf]
      exact hbaseText

/-! ## Prefix -/

/-- The overlay's names that start with the text. -/
theorem prefixOverlay_always (normalized : Text) (safety : Nat) :
    Always (prefixOverlay index overlay normalized safety) fun r =>
      (∀ id ∈ r.1, ∃ text, Listed overlay.names text id ∧ normalized.isPrefixOf text = true) ∧
        (r.2 = true → ∀ text id, Listed overlay.names text id → normalized.isPrefixOf text = true → id ∈ r.1) := by
  let Sound : Ids → Prop := fun ids => ∀ id ∈ ids, ∃ text, Listed overlay.names text id ∧ normalized.isPrefixOf text = true
  -- while nothing was cut, the names that are not to come are in
  let I : List (Text × Ids) → Ids × Bool → Prop := fun rest s =>
    rest ⊆ overlay.names.toList ∧ Sound s.1 ∧ (s.2 = true → ∀ entry ∈ overlay.names.toList,
      normalized.isPrefixOf entry.1 = true → (∀ id ∈ entry.2, id ∈ s.1) ∨ entry ∈ rest)
  unfold prefixOverlay
  refine always_bind ?_
  refine (always_each (I := I) (Q := fun r => Sound r.1.1 ∧ (r.1.2 = true → r.2 = true → ∀ entry ∈ overlay.names.toList,
      normalized.isPrefixOf entry.1 = true → ∀ id ∈ entry.2, id ∈ r.1.1)) ?_ ?_ ?_ ?_).mono ?_
  · rintro ⟨text, postings⟩ rest ⟨ids, complete⟩ ⟨hrest, hsound, hall⟩
    have hentry : (text, postings) ∈ overlay.names.toList := hrest List.mem_cons_self
    have hrest' : rest ⊆ overlay.names.toList := fun y hy => hrest (List.mem_cons_of_mem _ hy)
    dsimp only
    refine always_ite (fun hprefix => ?_) fun hprefix => always_pure ⟨hrest', hsound, ?_⟩
    · refine always_bind ((insertAll_always _ _).mono ?_)
      rintro ⟨ids', lasted⟩ hinserted
      have hsound' : Sound ids' := by
        intro id hid
        rcases hinserted.sound id hid with hid | ⟨x, hx, -, rfl⟩
        · exact hsound id hid
        · have hget := Std.ExtTreeMap.mem_toList_iff_getElem?_eq_some.mp hentry
          exact ⟨text, ⟨postings, hget, Std.ExtTreeSet.mem_toList.mp hx⟩, hprefix⟩
      dsimp only
      refine always_ite (fun _ => always_pure ⟨hsound', by simp⟩) fun _ => always_pure ⟨hrest', hsound', ?_⟩
      intro hboth entry hmem hpre
      obtain ⟨hcomplete, hlasted⟩ := Bool.and_eq_true_iff.mp hboth
      rcases hall hcomplete entry hmem hpre with hin | hcome
      · exact .inl fun id hid => hinserted.kept id (hin id hid)
      · rcases List.mem_cons.mp hcome with rfl | hcome
        · exact .inl fun id hid => hinserted.all hlasted id (Std.ExtTreeSet.mem_toList.mpr hid) rfl
        · exact .inr hcome
    · intro hcomplete entry hmem hpre
      rcases hall hcomplete entry hmem hpre with hin | hcome
      · exact .inl hin
      · rcases List.mem_cons.mp hcome with rfl | hcome
        · exact absurd hpre hprefix
        · exact .inr hcome
  · rintro rest ⟨ids, complete⟩ ⟨-, hsound, -⟩
    exact ⟨hsound, by simp⟩
  · rintro ⟨ids, complete⟩ ⟨-, hsound, hall⟩
    refine ⟨hsound, fun hcomplete _ entry hmem hpre => ?_⟩
    exact (hall hcomplete entry hmem hpre).resolve_right (by simp)
  · refine ⟨fun x hx => hx, ?_, fun _ entry hmem _ => .inr hmem⟩
    intro id hid
    exact absurd hid Std.ExtTreeSet.not_mem_empty
  · rintro ⟨⟨ids, complete⟩, lasted⟩ ⟨hsound, hall⟩
    refine always_pure ⟨hsound, ?_⟩
    rintro hboth text id ⟨postings, hget, hid⟩ hpre
    obtain ⟨hcomplete, hlasted⟩ := Bool.and_eq_true_iff.mp hboth
    exact hall hcomplete hlasted (text, postings) (Std.ExtTreeMap.mem_toList_iff_getElem?_eq_some.mpr hget) hpre id hid

variable (index overlay)

/-- An entity of the base whose text counts and passes the test. -/
def BaseText (test : Text → Bool) (id : Nat) : Prop :=
  hidden index overlay id = false ∧ ∃ text, index.normalized[id]? = some text ∧ test text = true

variable {index overlay}

/-- The base texts that start with the text lie next to each other, so the loop may end at
the first that does not. -/
theorem prefixBase_always (htables : Tables index) (normalized : Text) (safety : Nat) (into : Ids) :
    Always (prefixBase index overlay normalized safety into) fun r =>
      (∀ id ∈ r.1, id ∈ into ∨ BaseText index overlay normalized.isPrefixOf id) ∧ (∀ id ∈ into, id ∈ r.1) ∧
        (r.2 = true → ∀ id, BaseText index overlay normalized.isPrefixOf id → id ∈ r.1) := by
  have hgetD : ∀ {id : Nat} {text : Text}, index.normalized[id]? = some text → index.normalized.getD id [] = text := by
    intro id text h
    rw [List.getD_eq_getElem?_getD, h]
    rfl
  have hsorted : index.nameFst.sortedIds.Pairwise
      fun a b => ¬ index.normalized.getD b [] < index.normalized.getD a [] := by
    rw [htables.names]
    exact sortedIds_sorted index.normalized
  unfold prefixBase
  set start := index.nameFst.sortedIds.dropWhile fun id => index.normalized.getD id [] < normalized with hstart
  have hlow : ∀ id ∈ start, ¬ index.normalized.getD id [] < normalized := not_lt_of_mem_dropWhile hsorted
  have hfirst : ∀ id, BaseText index overlay normalized.isPrefixOf id → id ∈ start := by
    intro id hid
    obtain ⟨-, text, htext, hpre⟩ := hid
    have hmem : id ∈ index.nameFst.sortedIds := by
      rw [htables.names, mem_sortedIds]
      exact (List.getElem?_eq_some_iff.mp htext).1
    rw [← List.takeWhile_append_dropWhile (p := fun id => index.normalized.getD id [] < normalized)
      (l := index.nameFst.sortedIds), List.mem_append] at hmem
    refine hmem.resolve_left fun hbefore => ?_
    have hlt := List.all_eq_true.mp List.all_takeWhile id hbefore
    rw [decide_eq_true_eq, hgetD htext] at hlt
    exact not_lt_of_prefix (List.isPrefixOf_iff_prefix.mp hpre) hlt
  -- so far, everything that starts with the text is in or still to come
  let I : List Nat → Ids × Bool → Prop := fun rest s =>
    rest <:+ start ∧ s.2 = true ∧ (∀ id ∈ s.1, id ∈ into ∨ BaseText index overlay normalized.isPrefixOf id) ∧
      (∀ id ∈ into, id ∈ s.1) ∧ ∀ id, BaseText index overlay normalized.isPrefixOf id → id ∈ s.1 ∨ id ∈ rest
  refine always_bind ?_
  refine (always_each (I := I) (Q := fun r =>
      (∀ id ∈ r.1.1, id ∈ into ∨ BaseText index overlay normalized.isPrefixOf id) ∧ (∀ id ∈ into, id ∈ r.1.1) ∧
        (r.1.2 = true → r.2 = true → ∀ id, BaseText index overlay normalized.isPrefixOf id → id ∈ r.1.1)) ?_ ?_ ?_ ?_).mono ?_
  · rintro id rest ⟨ids, complete⟩ ⟨hsuffix, hcomplete, hsound, hkept, hall⟩
    have hid : id ∈ start := hsuffix.subset List.mem_cons_self
    have hrest : rest <:+ start := (List.suffix_cons id rest).trans hsuffix
    dsimp only
    refine always_ite (fun hpre => ?_) fun hpre => always_pure ⟨hsound, hkept, fun _ _ other hother => ?_⟩
    · have htext : ∃ text, index.normalized[id]? = some text ∧ normalized.isPrefixOf text = true := by
        have hmem := (List.dropWhile_sublist _).subset hid
        rw [htables.names, mem_sortedIds] at hmem
        have hget := List.getElem?_eq_getElem hmem
        exact ⟨_, hget, by rw [hgetD hget] at hpre; exact hpre⟩
      set ids' := if hidden index overlay id then ids else ids.insert id with hids'
      have hkept' : ∀ other ∈ ids, other ∈ ids' := by
        intro other hother
        rw [hids']
        split
        · exact hother
        · exact mem_insertId.mpr (.inr hother)
      have hsound' : ∀ other ∈ ids', other ∈ into ∨ BaseText index overlay normalized.isPrefixOf other := by
        intro other hother
        rw [hids'] at hother
        split at hother
        · exact hsound other hother
        · rename_i hshown
          rcases mem_insertId.mp hother with rfl | hother
          · exact .inr ⟨by simpa using hshown, htext⟩
          · exact hsound other hother
      refine always_ite (fun _ => always_pure ⟨hsound', fun x hx => hkept' x (hkept x hx), by simp⟩) fun _ =>
        always_pure ⟨hrest, hcomplete, hsound', fun x hx => hkept' x (hkept x hx), ?_⟩
      intro other hother
      rcases hall other hother with hin | hcome
      · exact .inl (hkept' other hin)
      · rcases List.mem_cons.mp hcome with rfl | hcome
        · refine .inl ?_
          rw [hids', if_neg (by simp [hother.1])]
          exact mem_insertId.mpr (.inl rfl)
        · exact .inr hcome
    · -- nothing behind the first other text starts with the text
      rcases hall other hother with hin | hcome
      · exact hin
      · obtain ⟨hshown, text, htext, hother⟩ := hother
        have hpair := List.pairwise_cons.mp ((hsorted.sublist (List.dropWhile_sublist _)).sublist hsuffix.sublist)
        have hbetween : normalized <+: index.normalized.getD id [] := by
          rcases List.mem_cons.mp hcome with rfl | hcome
          · rw [hgetD htext]
            exact List.isPrefixOf_iff_prefix.mp hother
          · have hhigh := hpair.1 other hcome
            rw [hgetD htext] at hhigh
            exact prefix_of_between (hlow id hid) hhigh (List.isPrefixOf_iff_prefix.mp hother)
        exact absurd (List.isPrefixOf_iff_prefix.mpr hbetween) hpre
  · rintro rest ⟨ids, complete⟩ ⟨-, -, hsound, hkept, -⟩
    exact ⟨hsound, hkept, by simp⟩
  · rintro ⟨ids, complete⟩ ⟨-, -, hsound, hkept, hall⟩
    exact ⟨hsound, hkept, fun _ _ id hid => (hall id hid).resolve_right (by simp)⟩
  · exact ⟨List.suffix_refl _, rfl, fun id hid => .inl hid, fun id hid => hid, fun id hid => .inr (hfirst id hid)⟩
  · rintro ⟨⟨ids, complete⟩, lasted⟩ ⟨hsound, hkept, hall⟩
    refine always_pure ⟨hsound, hkept, fun hboth => ?_⟩
    obtain ⟨hcomplete, hlasted⟩ := Bool.and_eq_true_iff.mp hboth
    exact hall hcomplete hlasted

theorem BaseText.matching (hnamed : overlay.Named) {mode : SearchMode} {normalized : Text}
    (h : BaseText index overlay (textMatches mode normalized) id) : Matching index overlay mode normalized id := by
  obtain ⟨hshown, text, htext, hmatch⟩ := h
  exact ⟨text, normalizedAt_base hnamed hshown htext, hmatch⟩

/-- Where a visible entity that matches is found. -/
theorem matching_cases (hnamed : overlay.Named) {mode : SearchMode} {normalized : Text}
    (hvisible : Visible index overlay id) (h : Matching index overlay mode normalized id) :
    (∃ text, overlay.normalizedOverrides[id]? = some text ∧ textMatches mode normalized text = true) ∨
      (∃ i text, id = overlay.baseEntityCount + i ∧ overlay.normalized[i]? = some text ∧ id ∉ overlay.tombstones ∧
        textMatches mode normalized text = true) ∨
      BaseText index overlay (textMatches mode normalized) id := by
  obtain ⟨text, htext, hmatch⟩ := h
  obtain ⟨text', htext', hsource⟩ := text_of_visible hnamed hvisible
  obtain rfl : text' = text := Option.some.inj (htext'.symm.trans htext)
  rcases hsource with hoverride | ⟨i, hi, hown, hlive⟩ | ⟨hshown, hbase⟩
  · exact .inl ⟨text', hoverride, hmatch⟩
  · exact .inr (.inl ⟨i, text', hi, hown, hlive, hmatch⟩)
  · exact .inr (.inr ⟨hshown, text', hbase, hmatch⟩)

theorem collectPrefix_collected (htables : Tables index) (hnamed : overlay.Named) (normalized : Text) :
    Always (collectPrefix index overlay normalized)
      (Collected index overlay (Matching index overlay .namePrefix normalized)) := by
  unfold collectPrefix
  refine always_bind ((prefixOverlay_always _ _).mono ?_)
  rintro ⟨ids, overlayComplete⟩ ⟨hnames, hnamesAll⟩
  have hsound : ∀ id ∈ ids, Matching index overlay .namePrefix normalized id := by
    intro id hid
    obtain ⟨text, hlisted, hpre⟩ := hnames id hid
    rcases hnamed.sound text id hlisted with hoverride | ⟨i, rfl, hown⟩
    · exact ⟨text, normalizedAt_override hoverride, hpre⟩
    · exact ⟨text, normalizedAt_own hnamed hown, hpre⟩
  dsimp only
  refine always_ite (fun hlasted => always_bind ((prefixBase_always htables normalized _ ids).mono ?_)) fun _ =>
    always_bind (always_pure ?_)
  · rintro ⟨ids', complete⟩ ⟨hbase, hkept, hbaseAll⟩
    refine always_bind fun c m => always_pure ⟨?_, ?_⟩
    · intro id hid _
      rcases hbase id hid with hid | hbaseText
      · exact hsound id hid
      · exact BaseText.matching hnamed hbaseText
    · intro hcomplete id hvisible hmatching
      rcases matching_cases hnamed hvisible hmatching with
        ⟨text, hoverride, hmatch⟩ | ⟨i, text, rfl, hown, hlive, hmatch⟩ | hbaseText
      · exact hkept id (hnamesAll hlasted text id (hnamed.override id text hoverride) hmatch)
      · exact hkept _ (hnamesAll hlasted text _ (hnamed.own i text hown hlive) hmatch)
      · exact hbaseAll hcomplete id hbaseText
  · exact always_bind fun c m => always_pure ⟨fun id hid _ => hsound id hid, by simp⟩

/-! ## Substring -/

theorem mem_overlayTexts {entry : Text × Nat} : entry ∈ overlayTexts index overlay ↔
    ∃ i, entry.2 = overlay.baseEntityCount + i ∧ overlay.normalized[i]? = some entry.1 := by
  unfold overlayTexts
  rw [List.mem_map]
  constructor
  · rintro ⟨⟨text, i⟩, hmem, rfl⟩
    exact ⟨i, rfl, List.mk_mem_zipIdx_iff_getElem?.mp hmem⟩
  · rintro ⟨i, hid, htext⟩
    exact ⟨(entry.1, i), List.mk_mem_zipIdx_iff_getElem?.mpr htext, Prod.ext rfl hid.symm⟩

theorem collectOverlaySubstring_always (hnamed : overlay.Named) (normalized : Text) :
    Always (collectOverlaySubstring index overlay normalized) fun r =>
      (∀ id ∈ r.1, Matching index overlay .substring normalized id) ∧
        (r.2 = true → (∀ (id : Nat) (text : Text), overlay.normalizedOverrides[id]? = some text →
            containsText text normalized = true → id ∈ r.1) ∧
          ∀ (i : Nat) (text : Text), overlay.normalized[i]? = some text → containsText text normalized = true →
            overlay.baseEntityCount + i ∈ r.1) := by
  unfold collectOverlaySubstring
  refine always_bind ((insertIf_always _ _ _ _).mono ?_)
  rintro ⟨ids, lasted⟩ hoverrides
  have hsound : ∀ id ∈ ids, Matching index overlay .substring normalized id := by
    intro id hid
    rcases hoverrides.sound id hid with hempty | ⟨entry, hentry, hmatch, rfl⟩
    · exact absurd hempty Std.ExtTreeSet.not_mem_empty
    · exact ⟨entry.2, normalizedAt_override (Std.ExtTreeMap.mem_toList_iff_getElem?_eq_some.mp hentry), hmatch⟩
  dsimp only
  refine always_ite (fun hlasted => (insertIf_always _ _ _ _).mono ?_) fun _ => always_pure ⟨hsound, by simp⟩
  intro r howns
  refine ⟨?_, fun hall => ⟨?_, ?_⟩⟩
  · intro id hid
    rcases howns.sound id hid with hid | ⟨entry, hentry, hmatch, rfl⟩
    · exact hsound id hid
    · obtain ⟨i, hi, htext⟩ := mem_overlayTexts.mp hentry
      rw [hi]
      exact ⟨entry.1, normalizedAt_own hnamed htext, hmatch⟩
  · intro id text hoverride hmatch
    exact howns.kept id (hoverrides.all hlasted (id, text)
      (Std.ExtTreeMap.mem_toList_iff_getElem?_eq_some.mpr hoverride) hmatch)
  · intro i text htext hmatch
    exact howns.all hall (text, overlay.baseEntityCount + i) (mem_overlayTexts.mpr ⟨i, rfl, htext⟩) hmatch

theorem intersectPostings_always {postings : List Ids} (hne : postings ≠ []) :
    Always (intersectPostings postings) fun r =>
      r.2 = true → ∀ id, (∀ posting ∈ postings, id ∈ posting) → id ∈ r.1 := by
  have hperm := List.perm_insertionSort (fun left right : Ids => left.size ≤ right.size) postings
  unfold intersectPostings
  split
  · rename_i hnil
    rw [hnil] at hperm
    exact absurd hperm.nil_eq.symm hne
  · rename_i shortest rest hsorted
    rw [hsorted] at hperm
    refine (insertIf_always _ _ _ _).mono ?_
    intro r hinserted hall id hid
    refine hinserted.all hall id (Std.ExtTreeSet.mem_toList.mpr ?_) ?_
    · exact hid shortest (hperm.subset List.mem_cons_self)
    · rw [List.all_eq_true]
      intro posting hposting
      exact decide_eq_true (hid posting (hperm.subset (List.mem_cons_of_mem _ hposting)))

theorem verifySubstring_always (hnamed : overlay.Named) (normalized : Text) (safety : Nat) (source into : Ids) :
    Always (verifySubstring index overlay normalized safety source into) fun r =>
      (∀ id ∈ r.1, id ∈ into ∨ Matching index overlay .substring normalized id) ∧ (∀ id ∈ into, id ∈ r.1) ∧
        (r.2 = true → ∀ id ∈ source, BaseText index overlay (textMatches .substring normalized) id → id ∈ r.1) := by
  let test : Nat → Bool := fun id => !hidden index overlay id &&
    (index.normalizedAt overlay id).any fun candidate => containsText candidate normalized
  have htest : ∀ id, BaseText index overlay (textMatches .substring normalized) id → test id = true := by
    intro id h
    obtain ⟨text, htext, hmatch⟩ := BaseText.matching hnamed h
    have hcontains : containsText text normalized = true := hmatch
    simp [test, h.1, htext, hcontains]
  have hmatching : ∀ id, test id = true → Matching index overlay .substring normalized id := by
    intro id h
    obtain ⟨text, htext, hmatch⟩ := (Option.any_eq_true _ _).mp (Bool.and_eq_true_iff.mp h).2
    exact ⟨text, htext, hmatch⟩
  let I : List Nat → Ids × Bool → Prop := fun rest s =>
    (∀ id ∈ s.1, id ∈ into ∨ Matching index overlay .substring normalized id) ∧ (∀ id ∈ into, id ∈ s.1) ∧
      ∀ id ∈ source, test id = true → id ∈ s.1 ∨ id ∈ rest
  unfold verifySubstring
  refine always_ite (fun _ => always_pure ⟨fun id hid => .inl hid, fun id hid => hid, ?_⟩) fun _ => always_bind ?_
  · intro hempty id hid
    rw [Std.ExtTreeSet.isEmpty_iff.mp hempty] at hid
    exact absurd hid Std.ExtTreeSet.not_mem_empty
  refine (always_each (I := I) (Q := fun r =>
      (∀ id ∈ r.1.1, id ∈ into ∨ Matching index overlay .substring normalized id) ∧ (∀ id ∈ into, id ∈ r.1.1) ∧
        (r.1.2 = true → r.2 = true → ∀ id ∈ source, test id = true → id ∈ r.1.1)) ?_ ?_ ?_ ?_).mono ?_
  · rintro id rest ⟨ids, complete⟩ ⟨hsound, hkept, hall⟩
    dsimp only
    refine always_ite (fun hpass => ?_) fun hpass => always_pure ⟨hsound, hkept, ?_⟩
    · have hsound' : ∀ other ∈ ids.insert id, other ∈ into ∨ Matching index overlay .substring normalized other := by
        intro other hother
        rcases mem_insertId.mp hother with rfl | hother
        · exact .inr (hmatching other hpass)
        · exact hsound other hother
      have hkept' : ∀ other ∈ into, other ∈ ids.insert id := fun other hother => mem_insertId.mpr (.inr (hkept other hother))
      refine always_ite (fun _ => always_pure ⟨hsound', hkept', by simp⟩) fun _ => always_pure ⟨hsound', hkept', ?_⟩
      intro other hother hpasses
      rcases hall other hother hpasses with hin | hcome
      · exact .inl (mem_insertId.mpr (.inr hin))
      · rcases List.mem_cons.mp hcome with rfl | hcome
        · exact .inl (mem_insertId.mpr (.inl rfl))
        · exact .inr hcome
    · intro other hother hpasses
      rcases hall other hother hpasses with hin | hcome
      · exact .inl hin
      · rcases List.mem_cons.mp hcome with rfl | hcome
        · exact absurd hpasses hpass
        · exact .inr hcome
  · rintro rest ⟨ids, complete⟩ ⟨hsound, hkept, -⟩
    exact ⟨hsound, hkept, by simp⟩
  · rintro ⟨ids, complete⟩ ⟨hsound, hkept, hall⟩
    exact ⟨hsound, hkept, fun _ _ id hid hpass => (hall id hid hpass).resolve_right (by simp)⟩
  · exact ⟨fun id hid => .inl hid, fun id hid => hid, fun id hid _ => .inr (Std.ExtTreeSet.mem_toList.mpr hid)⟩
  · rintro ⟨⟨ids, complete⟩, lasted⟩ ⟨hsound, hkept, hall⟩
    refine always_pure ⟨hsound, hkept, fun hboth id hid hbase => ?_⟩
    obtain ⟨hcomplete, hlasted⟩ := Bool.and_eq_true_iff.mp hboth
    exact hall hcomplete hlasted id hid (htest id hbase)

/-- A base text that contains the needle is listed under each of its syncmers. -/
theorem listed_of_contains (htables : Tables index) (hcomplete : index.syncmerPostings.complete) {normalized : Text}
    (h : BaseText index overlay (textMatches .substring normalized) id) :
    ∀ hash ∈ closedSyncmerHashes (asBytes normalized) index.syncmerPostings.k index.syncmerPostings.s,
      Listed index.syncmerPostings.map hash id := by
  obtain ⟨-, text, htext, hmatch⟩ := h
  intro hash hhash
  exact htables.syncmers hcomplete id text htext hash (closedSyncmerHashes_of_contains hmatch hhash)

theorem substringLinear_always (htables : Tables index) (test : Text → Bool) :
    Always (substringLinear index []) fun source =>
      source.complete = true → ∀ id, BaseText index overlay test id → id ∈ source.ids := by
  unfold substringLinear
  rw [if_pos rfl]
  refine always_bind ((insertAll_always _ _).mono ?_)
  rintro ⟨ids, complete⟩ hinserted
  refine always_pure fun hcomplete id hbase => ?_
  obtain ⟨-, text, htext, -⟩ := hbase
  refine hinserted.all hcomplete id ?_ rfl
  rw [htables.names, mem_sortedIds]
  exact (List.getElem?_eq_some_iff.mp htext).1

variable (index overlay) in
/-- Every candidate contains the needle, visible or not. -/
structure Matched (normalized : Text) (candidates : CandidateSet) : Prop
    extends Collected index overlay (Matching index overlay .substring normalized) candidates where
  matching : ∀ id ∈ candidates.ids, Matching index overlay .substring normalized id

/-- What the overlay's loops and the loop over the source find together. -/
theorem substring_matched (hnamed : overlay.Named) {normalized : Text} (ids : Ids) {candidates : CandidateSet}
    (hsound : ∀ id ∈ candidates.ids, id ∈ ids ∨ Matching index overlay .substring normalized id)
    (hids : ∀ id ∈ ids, Matching index overlay .substring normalized id)
    (hall : candidates.complete = true → (∀ id ∈ ids, id ∈ candidates.ids) ∧
      ((∀ (id : Nat) (text : Text), overlay.normalizedOverrides[id]? = some text →
          containsText text normalized = true → id ∈ ids) ∧
        ∀ (i : Nat) (text : Text), overlay.normalized[i]? = some text → containsText text normalized = true →
          overlay.baseEntityCount + i ∈ ids) ∧
      ∀ id, BaseText index overlay (textMatches .substring normalized) id → id ∈ candidates.ids) :
    Matched index overlay normalized candidates := by
  have hmatching : ∀ id ∈ candidates.ids, Matching index overlay .substring normalized id :=
    fun id hid => (hsound id hid).elim (hids id) fun h => h
  refine ⟨⟨fun id hid _ => hmatching id hid, fun hcomplete id hvisible hmatching => ?_⟩, hmatching⟩
  obtain ⟨hkept, ⟨hoverrides, howns⟩, hbase⟩ := hall hcomplete
  rcases matching_cases hnamed hvisible hmatching with
    ⟨text, hoverride, hmatch⟩ | ⟨i, text, rfl, hown, -, hmatch⟩ | hbaseText
  · exact hkept id (hoverrides id text hoverride hmatch)
  · exact hkept _ (howns i text hown hmatch)
  · exact hbase id hbaseText

theorem intersected_always (htables : Tables index) (hcomplete : index.syncmerPostings.complete) {normalized : Text}
    {postings : List Ids} (hne : postings ≠ []) (hpostings : postings =
      (closedSyncmerHashes (asBytes normalized) index.syncmerPostings.k index.syncmerPostings.s).filterMap
        fun hash => index.syncmerPostings.map[hash]?) :
    Always (intersectPostings postings) fun r => r.2 = true →
      ∀ id, BaseText index overlay (textMatches .substring normalized) id → id ∈ r.1 := by
  refine (intersectPostings_always hne).mono fun r hshared hlasted id hbase => hshared hlasted id ?_
  intro posting hposting
  rw [hpostings] at hposting
  obtain ⟨hash, hhash, hget⟩ := List.mem_filterMap.mp hposting
  obtain ⟨listed, hget', hid⟩ := listed_of_contains htables hcomplete hbase hash hhash
  obtain rfl : listed = posting := Option.some.inj (hget'.symm.trans hget)
  exact hid

/-- A source that holds every base text that matches leads to all that matches. -/
theorem verified_matched (hnamed : overlay.Named) {normalized : Text} {source : SubstringSource}
    (hsource : source.complete = true →
      ∀ id, BaseText index overlay (textMatches .substring normalized) id → id ∈ source.ids) :
    Always (do
        let (ids, overlayComplete) ← collectOverlaySubstring index overlay normalized
        let (ids, complete) ← if source.complete && overlayComplete then
            verifySubstring index overlay normalized (safetyLimit index normalized) source.ids ids
          else pure (ids, false)
        return { ids := ids, complete := complete, timedOut := ← timedOut, estimated := source.estimate,
                 strategy := source.strategy, matchKind := .substring })
      (Matched index overlay normalized) := by
  refine always_bind ((collectOverlaySubstring_always hnamed normalized).mono ?_)
  rintro ⟨ids, overlayComplete⟩ ⟨hids, hall⟩
  dsimp only
  refine always_ite (fun hboth => always_bind ((verifySubstring_always hnamed normalized _ _ _).mono ?_)) fun _ =>
    always_bind (always_pure (always_bind fun c m => always_pure ?_))
  · rintro ⟨ids', complete⟩ ⟨hsound, hkept, hverified⟩
    refine always_bind fun c m => always_pure (substring_matched hnamed ids hsound hids fun hlasted => ?_)
    obtain ⟨hsourced, hoverlaid⟩ := Bool.and_eq_true_iff.mp hboth
    exact ⟨hkept, hall hoverlaid, fun id hbase => hverified hlasted id (hsource hsourced id hbase) hbase⟩
  · exact substring_matched hnamed ids (fun id hid => .inl hid) hids (by simp)

theorem collectSubstring_matched (htables : Tables index) (hnamed : overlay.Named) (normalized : Text) :
    Always (collectSubstring index overlay normalized [])
      (Matched index overlay normalized) := by
  unfold collectSubstring
  set hashes := closedSyncmerHashes (asBytes normalized) index.syncmerPostings.k index.syncmerPostings.s with hhashes
  set postings := hashes.filterMap fun hash => index.syncmerPostings.map[hash]? with hpostings
  refine always_ite (fun ⟨hcomplete, _, hmissing⟩ => ?_) fun hfound => ?_
  · -- a text with the needle would be listed under every hash
    have hnone : ∀ id, ¬ BaseText index overlay (textMatches .substring normalized) id := by
      intro id hbase
      refine hmissing (List.filterMap_length_eq_length.mpr fun hash hhash => ?_)
      obtain ⟨posting, hget, -⟩ := listed_of_contains htables hcomplete hbase hash hhash
      rw [hget]
      rfl
    refine always_bind ((collectOverlaySubstring_always hnamed normalized).mono ?_)
    rintro ⟨ids, complete⟩ ⟨hids, hall⟩
    refine always_bind fun c m => always_pure ?_
    refine substring_matched hnamed ids (fun id hid => .inl hid) hids fun hlasted => ?_
    exact ⟨fun id hid => hid, hall hlasted, fun id hbase => absurd hbase (hnone id)⟩
  · refine always_ite (fun ⟨hcomplete, hhashed⟩ => ?_) fun _ => ?_
    · have hlength : postings.length = hashes.length := by
        by_contra hmissing
        exact hfound ⟨hcomplete, hhashed, hmissing⟩
      have hne : postings ≠ [] := by
        rw [← List.length_pos_iff, hlength]
        exact List.length_pos_iff.mpr hhashed
      refine always_bind ((@intersected_always _ overlay htables hcomplete _ _ hne hpostings).mono ?_)
      rintro ⟨ids, complete⟩ hsource
      exact always_bind (always_pure (verified_matched hnamed hsource))
    · exact always_bind ((substringLinear_always htables _).mono fun source hsource => verified_matched hnamed hsource)

/-! ## Numeric -/

theorem not_tombstone_of_visible (h : Visible index overlay id) : id ∉ overlay.tombstones := by
  intro hmem
  unfold Visible IndexData.entity at h
  rw [if_pos hmem] at h
  cases h

theorem collectNumeric_collected {normalized : Text} {number : Nat} (h : parseNumber normalized = some number) :
    Always (collectNumeric index overlay normalized) fun r =>
      ∃ candidates, r = .ok candidates ∧ Collected index overlay (· ∈ numbered index overlay number) candidates := by
  have hfrom : ∀ id, id ∈ numbered index overlay number ↔ id ∈ (numericRange number index.numeric).map Prod.snd ∨
      id ∈ (numericRange number overlay.numeric).map Prod.snd := fun id => List.mem_append
  unfold collectNumeric
  simp only [h]
  refine always_bind ((insertAll_always _ _).mono ?_)
  rintro ⟨ids, lasted⟩ hown
  have hids : ∀ id ∈ ids, id ∈ numbered index overlay number := by
    intro id hid
    rcases hown.sound id hid with hempty | ⟨x, hx, -, rfl⟩
    · exact absurd hempty Std.ExtTreeSet.not_mem_empty
    · exact (hfrom x).mpr (.inr hx)
  dsimp only
  refine always_ite (fun hlasted => always_bind ((insertIf_always _ _ _ _).mono ?_)) fun _ =>
    always_bind (always_pure (always_bind fun c m => always_pure ?_))
  · rintro ⟨ids', complete⟩ hbase
    refine always_bind fun c m => always_pure ⟨_, rfl, ?_, ?_⟩
    · intro id hid _
      rcases hbase.sound id hid with hid | ⟨x, hx, -, rfl⟩
      · exact hids id hid
      · exact (hfrom x).mpr (.inl hx)
    · intro hcomplete id hvisible hnumbered
      rcases (hfrom id).mp hnumbered with hin | hin
      · exact hbase.all hcomplete id hin (decide_eq_true (not_tombstone_of_visible hvisible))
      · exact hbase.kept id (hown.all hlasted id hin rfl)
  · exact ⟨_, rfl, fun id hid _ => hids id hid, by simp⟩

/-! A number reads the same in lower case. -/

theorem toDigit_eq (radix : Nat) (c : Char) : toDigit radix c =
    Option.filter (· < radix) (some (if 48 ≤ c.toNat ∧ c.toNat ≤ 57 then c.toNat - 48
      else if 97 ≤ c.toNat ∧ c.toNat ≤ 122 then c.toNat - 87
      else if 65 ≤ c.toNat ∧ c.toNat ≤ 90 then c.toNat - 55
      else radix)) := by
  have hdigit : c.isDigit = true ↔ 48 ≤ c.toNat ∧ c.toNat ≤ 57 := by
    simp [Char.isDigit, UInt32.le_iff_toNat_le]
  have hlower : 'a' ≤ c ∧ c ≤ 'z' ↔ 97 ≤ c.toNat ∧ c.toNat ≤ 122 := Iff.rfl
  have hupper : 'A' ≤ c ∧ c ≤ 'Z' ↔ 65 ≤ c.toNat ∧ c.toNat ≤ 90 := Iff.rfl
  simp only [toDigit, hdigit, hlower, hupper, Option.filter_some, decide_eq_true_eq]

theorem toDigit_toLower (radix : Nat) (c : Char) : toDigit radix c.toLower = toDigit radix c := by
  rw [toDigit_eq, toDigit_eq, toNat_toLower]
  congr 2
  split_ifs <;> omega

theorem stripPlus_lower (text : Text) : stripPlus (normalizeAscii text) = normalizeAscii (stripPlus text) := by
  cases text with
  | nil => rfl
  | cons c rest =>
    have hplus : c.toLower = '+' ↔ c = '+' := toLower_eq_iff (by decide)
    by_cases hc : c = '+'
    · rw [hc]
      rfl
    · have hlower : c.toLower ≠ '+' := fun h => hc (hplus.mp h)
      rw [stripPlus.eq_2 (c :: rest) (by rintro digits ⟨⟩; exact hc rfl)]
      exact stripPlus.eq_2 _ (by intro digits h; exact hlower (List.cons.inj h).1)

theorem fromStrRadix_lower (radix bits : Nat) (text : Text) :
    fromStrRadix radix bits (normalizeAscii text) = fromStrRadix radix bits text := by
  simp only [fromStrRadix, stripPlus_lower]
  simp only [normalizeAscii, List.map_eq_nil_iff, List.foldlM_map, toDigit_toLower]

theorem parseNumber_cons (zero x : Char) (rest : Text) : parseNumber (zero :: x :: rest) =
    if zero = '0' ∧ (x = 'x' ∨ x = 'X') then fromStrRadix 16 64 rest else fromStrRadix 10 64 (zero :: x :: rest) := by
  unfold parseNumber
  split <;> simp_all

theorem parseNumber_lower (value : Text) : parseNumber (normalizeAscii value) = parseNumber value := by
  match value with
  | [] => rfl
  | [c] =>
    have hone : ∀ d : Char, parseNumber [d] = fromStrRadix 10 64 [d] := by
      intro d
      unfold parseNumber
      split <;> simp_all
    rw [hone c, ← fromStrRadix_lower]
    exact hone c.toLower
  | zero :: x :: rest =>
    have hzero : zero.toLower = '0' ↔ zero = '0' := toLower_eq_iff (by decide)
    have hx : x.toLower = 'x' ∨ x.toLower = 'X' ↔ x = 'x' ∨ x = 'X' := by
      have hlow : 'x'.toNat = 120 := rfl
      have hupp : 'X'.toNat = 88 := rfl
      rw [← Char.toNat_inj, ← Char.toNat_inj, ← Char.toNat_inj, ← Char.toNat_inj, toNat_toLower, hlow, hupp]
      split <;> omega
    have hlower := parseNumber_cons zero.toLower x.toLower (normalizeAscii rest)
    rw [parseNumber_cons, ← if_congr (and_congr hzero hx) (fromStrRadix_lower _ 64 rest)
      (fromStrRadix_lower _ 64 (zero :: x :: rest))]
    exact hlower

/-! ## The candidates of a search -/

/-- The modes that look at texts and numbers. -/
def surfaceModes : List SearchMode := [.exact, .namePrefix, .substring, .numeric]

variable (index overlay)

/-- What the oracle wants of an entity. -/
def Wanted (mode : SearchMode) (text : Text) (id : Nat) : Prop :=
  match mode with
  | .numeric => ∃ number, parseNumber text = some number ∧ id ∈ numbered index overlay number
  | mode => Matching index overlay mode (normalizeAscii text) id

/-- The evidence is of wanted entities, as far as they are visible, and of all of them if
it is complete. -/
structure Evidenced (wanted : Nat → Prop) (gathered : Gathered) : Prop where
  sound : ∀ id ∈ gathered.evidence, Visible index overlay id → wanted id
  all : gathered.complete = true → ∀ id, Visible index overlay id → wanted id → id ∈ gathered.evidence

variable {index overlay} {engine : Engine} {mode : SearchMode}

/-- Without kinds nothing is taken away. -/
theorem restricted_collected {wanted : Nat → Prop} {candidates : CandidateSet}
    (h : Collected index overlay wanted candidates) :
    Always (do
      let (ids, allowed) ← restrictCandidateKinds index overlay candidates.ids []
      let out ← timedOut
      return Except.ok { candidates with
        ids := ids, complete := candidates.complete && allowed, timedOut := candidates.timedOut || out })
      fun r : Except BelQueryError CandidateSet => ∃ candidates, r = .ok candidates ∧ Collected index overlay wanted candidates := by
  rw [restrictCandidateKinds, if_pos rfl]
  refine always_bind (always_pure (always_bind fun c m => always_pure ⟨_, rfl, h.sound, ?_⟩))
  rw [Bool.and_true]
  exact h.all

theorem collectSurface_collected (htables : Tables index) (hnamed : overlay.Named) (hmode : mode ∈ surfaceModes)
    (text : Text) (hnumber : mode = .numeric → (parseNumber text).isSome) :
    Always (collectSurface index overlay engine mode (normalizeAscii text) []) fun r =>
      ∃ candidates, r = .ok candidates ∧ Collected index overlay (Wanted index overlay mode text) candidates := by
  unfold collectSurface
  rcases List.mem_cons.mp hmode with rfl | hmode
  · exact always_bind (always_map ((collectExact_collected htables hnamed _).mono fun candidates => restricted_collected))
  rcases List.mem_cons.mp hmode with rfl | hmode
  · exact always_bind (always_map ((collectPrefix_collected htables hnamed _).mono fun candidates => restricted_collected))
  rcases List.mem_cons.mp hmode with rfl | hmode
  · exact always_bind (always_map ((collectSubstring_matched htables hnamed _).mono fun candidates h => restricted_collected h.toCollected))
  obtain rfl := List.mem_singleton.mp hmode
  obtain ⟨number, hparse⟩ := Option.isSome_iff_exists.mp (hnumber rfl)
  have hnormalized : parseNumber (normalizeAscii text) = some number := by rw [parseNumber_lower, hparse]
  refine always_bind ((collectNumeric_collected hnormalized).mono ?_)
  rintro _ ⟨candidates, rfl, hcollected⟩
  refine restricted_collected ⟨fun id hid hvisible => ⟨number, hparse, hcollected.sound id hid hvisible⟩, ?_⟩
  rintro hcomplete id hvisible ⟨other, hother, hin⟩
  obtain rfl : number = other := Option.some.inj (hparse.symm.trans hother)
  exact hcollected.all hcomplete id hvisible hin

theorem surfaceCandidates_always {query : Query} (hkinds : query.kinds = []) (text : Text) (candidates : CandidateSet)
    (sources : Std.ExtTreeMap Nat Nat) :
    Always (surfaceCandidates index overlay query mode text candidates sources) fun r =>
      (∀ id ∈ r.1, id ∈ candidates.ids) ∧ (r.2 = true → ∀ id ∈ candidates.ids, id ∈ r.1) := by
  let I : List Nat → EvidenceMap → Prop := fun rest evidence =>
    rest ⊆ candidates.ids.toList ∧ (∀ id ∈ evidence, id ∈ candidates.ids) ∧
      ∀ id ∈ candidates.ids, id ∈ evidence ∨ id ∈ rest
  unfold surfaceCandidates
  refine always_each (I := I) ?_ ?_ ?_ ?_
  · intro id rest evidence ⟨hrest, hsound, hall⟩
    have hallowed : kindAllowed index overlay id query.kinds = true := by simp [kindAllowed, hkinds]
    rw [if_pos hallowed]
    refine always_pure ⟨fun x hx => hrest (List.mem_cons_of_mem _ hx), ?_, ?_⟩
    · intro other hother
      rcases Std.ExtTreeMap.mem_insert.mp hother with heq | hother
      · rw [← compare_eq_iff_eq.mp heq]
        exact Std.ExtTreeSet.mem_toList.mp (hrest List.mem_cons_self)
      · exact hsound other hother
    · intro other hother
      rw [Std.ExtTreeMap.mem_insert]
      rcases hall other hother with hin | hcome
      · exact .inl (.inr hin)
      · rcases List.mem_cons.mp hcome with rfl | hcome
        · exact .inl (.inl Std.ReflCmp.compare_self)
        · exact .inr hcome
  · exact fun rest evidence ⟨_, hsound, _⟩ => ⟨hsound, by simp⟩
  · exact fun evidence ⟨_, hsound, hall⟩ => ⟨hsound, fun _ id hid => (hall id hid).resolve_right (by simp)⟩
  · exact ⟨fun x hx => hx, fun id hid => absurd hid Std.ExtTreeMap.not_mem_empty,
      fun id hid => .inr (Std.ExtTreeSet.mem_toList.mpr hid)⟩

/-- The evidence is of what was collected. -/
theorem collectSurfaceEvidence_evidenced {wanted : Nat → Prop} {query : Query} (hkinds : query.kinds = []) (text normalized : Text)
    (h : Always (collectSurface index overlay engine mode (if mode = .regex then text else normalized) []) fun r =>
      ∃ candidates, r = .ok candidates ∧ Collected index overlay wanted candidates) :
    Always (collectSurfaceEvidence index overlay engine query mode text normalized) fun r =>
      ∃ gathered, r = .ok gathered ∧ Evidenced index overlay wanted gathered := by
  unfold collectSurfaceEvidence
  rw [hkinds]
  refine always_bind (h.mono ?_)
  rintro _ ⟨candidates, rfl, hcollected⟩
  refine always_bind fun c m => ?_
  refine always_bind ((surfaceCandidates_always hkinds text candidates _).mono ?_)
  rintro ⟨evidence, lasted⟩ ⟨hsound, hall⟩
  refine always_pure ⟨_, rfl, fun id hid hvisible => hcollected.sound id (hsound id hid) hvisible, ?_⟩
  intro hcomplete id hvisible hwanted
  simp only [Bool.and_eq_true] at hcomplete
  exact hall hcomplete.1.2 id (hcollected.all hcomplete.1.1.1 id hvisible hwanted)

theorem gather_evidenced (htables : Tables index) (hnamed : overlay.Named) (hmode : mode ∈ surfaceModes) {query : Query}
    (hkinds : query.kinds = []) (text : Text) (hnumber : mode = .numeric → (parseNumber text).isSome) :
    Always (gather index overlay engine query mode text (normalizeAscii text)) fun r =>
      ∃ gathered, r = .ok gathered ∧ Evidenced index overlay (Wanted index overlay mode text) gathered := by
  have hgather : gather index overlay engine query mode text (normalizeAscii text) =
      collectSurfaceEvidence index overlay engine query mode text (normalizeAscii text) := by
    unfold gather
    split <;> first | rfl | (simp [surfaceModes] at hmode)
  have hregex : ¬ mode = .regex := by
    rintro rfl
    simp [surfaceModes] at hmode
  rw [hgather]
  refine collectSurfaceEvidence_evidenced hkinds text _ ?_
  rw [if_neg hregex]
  exact collectSurface_collected htables hnamed hmode text hnumber

/-! ## What the oracle lists -/

theorem lt_of_visible (h : Visible index overlay id) : id < overlay.baseEntityCount + overlay.entities.length := by
  have hlive := not_tombstone_of_visible h
  obtain ⟨e, he⟩ := Option.isSome_iff_exists.mp h
  rw [IndexData.entity, if_neg hlive] at he
  rcases Option.or_eq_some_iff.mp he with hbase | ⟨-, hown⟩
  · have hlt := (List.getElem?_eq_some_iff.mp hbase).1
    rw [← overlay.base_eq] at hlt
    omega
  · unfold Overlay.entity at hown
    split at hown
    · cases hown
    · have hlt := (List.getElem?_eq_some_iff.mp hown).1
      omega

theorem matching_iff (hnamed : overlay.Named) {normalized : Text} (hvisible : Visible index overlay id) :
    Matching index overlay mode normalized id ↔
      textMatches mode normalized ((index.normalizedAt overlay id).getD []) = true := by
  obtain ⟨text, htext, -⟩ := text_of_visible hnamed hvisible
  unfold Matching
  simp [htext]

theorem linearOracleIds_spec (hnamed : overlay.Named) (engine : Engine) (hmode : mode ∈ surfaceModes) {text : Text}
    (hnumber : mode = .numeric → (parseNumber text).isSome) :
    ∃ ids, linearOracleIds index overlay engine mode text = .ok ids ∧ ids.Nodup ∧
      ∀ id, id ∈ ids ↔ Visible index overlay id ∧ Wanted index overlay mode text id := by
  have htexts : ∀ m : SearchMode, ∀ id, id ∈ (List.range (overlay.baseEntityCount + overlay.entities.length)).filter
      (fun id => Visible index overlay id &&
        textMatches m (normalizeAscii text) ((index.normalizedAt overlay id).getD [])) ↔
      Visible index overlay id ∧ Matching index overlay m (normalizeAscii text) id := by
    intro m id
    rw [List.mem_filter, List.mem_range, Bool.and_eq_true, decide_eq_true_eq]
    constructor
    · intro ⟨_, hvisible, hmatch⟩
      exact ⟨hvisible, (matching_iff hnamed hvisible).mpr hmatch⟩
    · intro ⟨hvisible, hmatching⟩
      exact ⟨lt_of_visible hvisible, hvisible, (matching_iff hnamed hvisible).mp hmatching⟩
  rcases List.mem_cons.mp hmode with rfl | hmode
  · exact ⟨_, rfl, List.nodup_range.filter _, htexts _⟩
  rcases List.mem_cons.mp hmode with rfl | hmode
  · exact ⟨_, rfl, List.nodup_range.filter _, htexts _⟩
  rcases List.mem_cons.mp hmode with rfl | hmode
  · exact ⟨_, rfl, List.nodup_range.filter _, htexts _⟩
  obtain rfl := List.mem_singleton.mp hmode
  obtain ⟨number, hparse⟩ := Option.isSome_iff_exists.mp (hnumber rfl)
  have hids : linearOracleIds index overlay engine .numeric text = .ok (Std.ExtTreeSet.ofList
      ((numbered index overlay number).filter fun id => Visible index overlay id) compare).toList := by
    simp only [linearOracleIds, hparse]
  refine ⟨_, hids, ?_, ?_⟩
  · refine (Std.ExtTreeSet.distinct_toList).imp ?_
    intro a b hne heq
    exact hne (compare_eq_iff_eq.mpr heq)
  · intro id
    rw [Std.ExtTreeSet.mem_toList, Std.ExtTreeSet.mem_ofList, List.contains_iff_mem, List.mem_filter, decide_eq_true_eq]
    constructor
    · exact fun ⟨hin, hvisible⟩ => ⟨hvisible, number, hparse, hin⟩
    · rintro ⟨hvisible, other, hother, hin⟩
      obtain rfl : number = other := Option.some.inj (hparse.symm.trans hother)
      exact ⟨hin, hvisible⟩

/-! ## What a page shows -/

theorem mem_of_mem_offer {limit : Nat} {heap : List ScoredHit} {x hit : ScoredHit}
    (h : hit ∈ TopK.offer ranksBefore limit heap x) : hit = x ∨ hit ∈ heap := by
  unfold TopK.offer at h
  split at h
  · exact List.mem_cons.mp ((TopK.push_perm x heap).mem_iff.mp h)
  · split at h
    · split at h
      · rcases List.mem_cons.mp ((TopK.push_perm x _).mem_iff.mp h) with hx | hrest
        · exact .inl hx
        · exact .inr (List.mem_cons_of_mem _ hrest)
      · exact .inr h
    · exact .inr h

theorem rankHits_always (signature : Signature) (cursor : Option CursorKey) (heapLimit : Nat) (evidence : EvidenceMap) :
    Always (rankHits index overlay engine signature cursor heapLimit evidence) fun r =>
      ∀ hit ∈ r.1.scored, hit.entityId ∈ evidence ∧ Visible index overlay hit.entityId := by
  let Shown : Ranking → Prop := fun r => ∀ hit ∈ r.scored, hit.entityId ∈ evidence ∧ Visible index overlay hit.entityId
  unfold rankHits
  refine always_each (I := fun rest r => rest ⊆ evidence.toList ∧ Shown r) ?_ ?_ ?_ ?_
  · rintro ⟨id, candidate⟩ rest r ⟨hrest, hshown⟩
    have hmem := hrest List.mem_cons_self
    refine always_pure ⟨fun x hx => hrest (List.mem_cons_of_mem _ hx), ?_⟩
    split
    · rename_i scored hscore
      have hscored : scored.entityId ∈ evidence ∧ Visible index overlay scored.entityId := by
        obtain ⟨entity, hentity, rfl⟩ := Option.map_eq_some_iff.mp hscore
        have hid := BelIndex.entity_id hentity
        refine ⟨?_, ?_⟩
        · show entity.id ∈ evidence
          rw [hid]
          exact Std.ExtTreeMap.mem_iff_isSome_getElem?.mpr
            (Option.isSome_iff_exists.mpr ⟨_, Std.ExtTreeMap.mem_toList_iff_getElem?_eq_some.mp hmem⟩)
        · show (index.entity overlay entity.id).isSome
          rw [hid, hentity]
          rfl
      intro hit hhit
      unfold Ranking.add at hhit
      split at hhit
      · exact hshown hit hhit
      · rcases mem_of_mem_offer hhit with rfl | hhit
        · exact hscored
        · exact hshown hit hhit
    · exact hshown
  · exact fun rest r ⟨_, hshown⟩ => hshown
  · exact fun r ⟨_, hshown⟩ => hshown
  · exact ⟨fun x hx => hx, fun hit hhit => absurd hhit (by simp)⟩

/-- Every hit of a page is one the oracle lists, whatever the clock says. -/
theorem search_sound (htables : Tables index) (hnamed : overlay.Named) {query : Query} {plan : Plan}
    (hplan : planQuery query = .ok plan) (hmode : plan.mode ∈ surfaceModes) (hkinds : query.kinds = [])
    (hnormalized : plan.normalized = normalizeAscii plan.queryText)
    (hnumber : plan.mode = .numeric → (parseNumber plan.queryText).isSome) (limit : Nat) (cursor : Option Text) :
    Always (search index overlay engine query limit cursor) fun r => ∀ page, r = .ok page → ∀ hit ∈ page.hits,
      Visible index overlay hit.entityId ∧ Wanted index overlay plan.mode plan.queryText hit.entityId := by
  unfold search
  simp only [hplan]
  cases openCursor index overlay plan cursor with
  | error e => exact always_pure (by rintro page ⟨⟩)
  | ok key =>
    dsimp only
    rw [hnormalized]
    refine always_bind ((gather_evidenced htables hnamed hmode hkinds plan.queryText hnumber).mono ?_)
    rintro _ ⟨gathered, rfl, hevidenced⟩
    refine always_bind fun c m => always_bind fun c' m' => always_bind ((rankHits_always _ _ _ _).mono ?_)
    intro r hshown
    refine always_pure ?_
    rintro page hpage hit hhit
    obtain rfl := Except.ok.inj hpage
    obtain ⟨ranked, hranked, hof⟩ := List.mem_filterMap.mp hhit
    obtain ⟨entity, hentity, rfl⟩ := Option.map_eq_some_iff.mp hof
    have hmem := (List.perm_insertionSort _ _).mem_iff.mp (List.mem_of_mem_take hranked)
    obtain ⟨hin, hvisible⟩ := hshown ranked hmem
    show Visible index overlay entity.id ∧ Wanted index overlay plan.mode plan.queryText entity.id
    rw [BelIndex.entity_id hentity]
    exact ⟨hvisible, hevidenced.sound _ hin hvisible⟩

/-! ## Exact answers -/

theorem querySignature_met {evidence : EvidenceMap} {c : Clock} {m : Meter} (hm : m.timedOut = false)
    (h : ((querySignature index evidence).run c m).1.2 = true) :
    ((querySignature index evidence).run c m).2.timedOut = false := by
  unfold querySignature at h ⊢
  simp only [run_bind, run_pure] at h ⊢
  rw [Bool.and_eq_true] at h
  refine each_met (P := fun s => s.2 = true) ?_ hm h.2 h.1
  rintro ⟨id, candidate⟩ ⟨signature, going⟩ m hm hspent
  have hinner := @each_met Nat Signature
    (fun seed signature => pure (.yield (if seed ∈ index.signatures.rareLookup ∨ index.entities.length ≤ seed then
      Signature.insert signature seed index.signatures.widthBits else signature))) (fun _ => True) c
    (fun x s m hm hbad => by rw [run_pure, hm] at hbad; cases hbad) candidate.seedEntities.toList signature m hm
  simp only [run_bind] at hspent ⊢
  revert hinner hspent
  generalize (each _ candidate.seedEntities.toList signature).run c m = inner
  obtain ⟨⟨signature', lasted⟩, m'⟩ := inner
  intro hspent hinner
  cases lasted with
  | true =>
    have hunspent : m'.timedOut = false := hinner rfl trivial
    have hstill : m'.timedOut = true := hspent
    rw [hunspent] at hstill
    cases hstill
  | false => exact ⟨(signature', false), rfl, by simp⟩

theorem rankHits_met {signature : Signature} {cursor : Option CursorKey} {heapLimit : Nat} {evidence : EvidenceMap}
    {c : Clock} {m : Meter} (hm : m.timedOut = false)
    (h : ((rankHits index overlay engine signature cursor heapLimit evidence).run c m).1.2 = true) :
    ((rankHits index overlay engine signature cursor heapLimit evidence).run c m).2.timedOut = false := by
  unfold rankHits at h ⊢
  refine each_met (P := fun _ => True) ?_ hm h trivial
  intro x s m hm hbad
  rw [run_pure, hm] at hbad
  cases hbad

theorem complete_of_exact {plan : Plan} {limit : Nat} {gathered : Gathered} {r : Ranking} {complete : Bool}
    (h : (answer index overlay plan limit gathered r complete).totalKind = .exact) : complete = true := by
  cases complete with
  | true => rfl
  | false => cases h

/-- An exact answer met the deadline, and its candidates were complete. -/
theorem search_exact {query : Query} {plan : Plan} (hplan : planQuery query = .ok plan) {limit : Nat}
    {cursor : Option Text} {c : Clock} {m : Meter} {page : SearchResult}
    (hrun : ((search index overlay engine query limit cursor).run c m).1 = .ok page) (hexact : page.totalKind = .exact) :
    ((search index overlay engine query limit cursor).run c m).2.timedOut = false ∧
      ∃ gathered, (gather index overlay engine query plan.mode plan.queryText plan.normalized).value = .ok gathered ∧
        gathered.complete = true := by
  unfold search at hrun ⊢
  simp only [hplan] at hrun ⊢
  cases hopen : openCursor index overlay plan cursor with
  | error e =>
    rw [hopen] at hrun
    cases hrun
  | ok key =>
    rw [hopen] at hrun
    simp only [run_bind] at hrun ⊢
    have hgather := (gather index overlay engine query plan.mode plan.queryText plan.normalized).calm c m
    revert hrun hgather
    generalize (gather index overlay engine query plan.mode plan.queryText plan.normalized).run c m = g
    obtain ⟨result, m₁⟩ := g
    intro hrun hgather
    cases result with
    | error e => cases hrun
    | ok gathered =>
      obtain rfl := Except.ok.inj hrun
      have hcomplete := complete_of_exact hexact
      simp only [Bool.and_eq_true, Bool.not_eq_true'] at hcomplete
      obtain ⟨⟨⟨hgathered, hunspent⟩, hsigned⟩, hranked⟩ := hcomplete
      have hmet₁ : m₁.timedOut = false := hunspent
      have hmet₂ := querySignature_met hmet₁ hsigned
      exact ⟨rankHits_met hmet₂ hranked, gathered, (hgather hmet₁).symm, hgathered⟩

/-! ## The search against the oracle -/

/-- The ranking of complete evidence lists what the oracle lists. -/
theorem scoredHits_perm {wanted : Nat → Prop} {gathered : Gathered} (h : Evidenced index overlay wanted gathered)
    (hcomplete : gathered.complete = true) (signature : Signature) {ids : List Nat} (hnodup : ids.Nodup)
    (hids : ∀ id, id ∈ ids ↔ Visible index overlay id ∧ wanted id) :
    ((scoredHits index overlay engine signature gathered.evidence).map ScoredHit.entityId).Perm ids := by
  have hdistinct : ((scoredHits index overlay engine signature gathered.evidence).map ScoredHit.entityId).Nodup := by
    rw [List.Nodup, List.pairwise_map, scoredHits, List.pairwise_filterMap]
    refine gathered.evidence.distinct_keys_toList.imp ?_
    intro x y hxy a ha b hb heq
    rw [scoreHit_entityId ha, scoreHit_entityId hb] at heq
    exact hxy (compare_eq_iff_eq.mpr heq)
  rw [List.perm_ext_iff_of_nodup hdistinct hnodup]
  intro id
  rw [hids, List.mem_map]
  constructor
  · rintro ⟨hit, hhit, rfl⟩
    obtain ⟨e, hentity, -⟩ := mem_scoredHits hhit
    obtain ⟨⟨id, candidate⟩, hmem, hscore⟩ := List.mem_filterMap.mp hhit
    have hvisible : Visible index overlay hit.entityId := by
      unfold Visible
      rw [hentity]
      rfl
    have hin : hit.entityId ∈ gathered.evidence := by
      rw [scoreHit_entityId hscore]
      exact Std.ExtTreeMap.mem_iff_isSome_getElem?.mpr
        (Option.isSome_iff_exists.mpr ⟨_, Std.ExtTreeMap.mem_toList_iff_getElem?_eq_some.mp hmem⟩)
    exact ⟨hvisible, h.sound _ hin hvisible⟩
  · rintro ⟨hvisible, hwanted⟩
    obtain ⟨candidate, hget⟩ := Option.isSome_iff_exists.mp
      (Std.ExtTreeMap.mem_iff_isSome_getElem?.mp (h.all hcomplete id hvisible hwanted))
    obtain ⟨entity, hentity⟩ := Option.isSome_iff_exists.mp hvisible
    have hscore : ∃ hit, scoreHit index overlay engine signature id candidate = some hit := by
      unfold scoreHit
      rw [hentity]
      exact ⟨_, rfl⟩
    obtain ⟨hit, hscore⟩ := hscore
    refine ⟨hit, List.mem_filterMap.mpr ⟨(id, candidate), ?_, hscore⟩, scoreHit_entityId hscore⟩
    exact Std.ExtTreeMap.mem_toList_iff_getElem?_eq_some.mpr hget

/-- The hits of pages that show a ranking are its entities. -/
theorem entityId_of_shown {hits : List Hit} {ranked : List ScoredHit}
    (h : hits.map some = ranked.map (hitOf index overlay)) : hits.map Hit.entityId = ranked.map ScoredHit.entityId := by
  have hone : ∀ {r : ScoredHit} {hit : Hit}, hitOf index overlay r = some hit → hit.entityId = r.entityId := by
    intro r hit hof
    obtain ⟨entity, hentity, rfl⟩ := Option.map_eq_some_iff.mp hof
    exact BelIndex.entity_id hentity
  induction hits generalizing ranked with
  | nil =>
    rw [List.map_nil, eq_comm, List.map_eq_nil_iff] at h
    rw [h]
    rfl
  | cons hit hits ih =>
    cases ranked with
    | nil => cases h
    | cons r ranked =>
      rw [List.map_cons, List.map_cons] at h
      obtain ⟨hhead, htail⟩ := List.cons.inj h
      rw [List.map_cons, List.map_cons, hone hhead.symm, ih htail]

/-- What is answered on the way is the answer of a search. -/
theorem mem_follow {query : Query} {limits : Nat → Nat} {clocks : Nat → Clock} {fuel n : Nat} {cursor : Option Text}
    {x : Except BelQueryError SearchResult × Meter} (h : x ∈ follow index overlay engine query limits clocks fuel n cursor) :
    ∃ i cursor, x = (search index overlay engine query (limits i) cursor).run (clocks i) { iterations := 0, timedOut := false } := by
  induction fuel generalizing n cursor with
  | zero => cases h
  | succ fuel ih =>
    rw [follow] at h
    rcases List.mem_cons.mp h with rfl | h
    · exact ⟨_, _, rfl⟩
    · split at h
      · split at h
        · exact ih h
        · cases h
      · cases h

/-- Exact answers that follow one another list the ranking. -/
theorem follow_exact (hrange : Ranged index overlay) {query : Query} {plan : Plan} {gathered : Gathered}
    {ranked : List ScoredHit} (hplan : planQuery query = .ok plan)
    (hgather : (gather index overlay engine query plan.mode plan.queryText plan.normalized).value = .ok gathered)
    (hranked : ranked = TopK.sort hitKey
      (scoredHits index overlay engine (querySignature index gathered.evidence).value.1 gathered.evidence))
    {limits : Nat → Nat} {clocks : Nat → Clock} {fuel : Nat} (hfuel : ranked.length < fuel)
    (hexact : ∀ x ∈ follow index overlay engine query limits clocks fuel 0 none,
      ∃ page, x.1 = .ok page ∧ page.totalKind = .exact) :
    ∃ pages : List SearchResult,
      (follow index overlay engine query limits clocks fuel 0 none).map Prod.fst = pages.map Except.ok ∧
      (pages.flatMap SearchResult.hits).map Hit.entityId = ranked.map ScoredHit.entityId ∧
      (∀ page ∈ pages, page.total = ranked.length) ∧
      ∀ i page, pages[i]? = some page → (page.nextCursor = none ↔ i + 1 = pages.length) := by
  have hmet : ∀ x ∈ follow index overlay engine query limits clocks fuel 0 none, x.2.timedOut = false := by
    intro x hx
    obtain ⟨page, hpage, hpageExact⟩ := hexact x hx
    obtain ⟨i, cursor, rfl⟩ := mem_follow hx
    exact (search_exact hplan hpage hpageExact).1
  have hrest := follow_rest hrange hplan hgather hranked limits clocks fuel 0 none none rfl
  rw [Option.map_none, TopK.behind_none] at hrest
  obtain ⟨pages, -, hpages, hpart⟩ := hrest hfuel hmet
  exact ⟨pages, hpages, entityId_of_shown hpart.hits, hpart.total, hpart.last⟩

end Oracle

/-- The search of texts and numbers is the search of the oracle. Whatever the clock says,
it shows only what the oracle lists; an exact answer counts all of it, and exact answers
that follow one another list all of it. -/
theorem search_eq_linearOracle (b : IndexBuilder) (image : Image) (config : BelConfig) (analysis : Analysis)
    (p : Project) (steps : List OverlayStep) (engine : Engine) (query : Query) (hmode : query.mode ∈ surfaceModes)
    (htrim : trim query.text = query.text) (hkinds : query.kinds = [])
    (hnumber : query.mode = .numeric → (parseNumber query.text).isSome) :
    let index := b.finish image config
    let overlay := steps.foldl Overlay.step (Overlay.fromProject index analysis p)
    ∃ ids, linearOracleIds index overlay engine query.mode query.text = .ok ids ∧ ids.Nodup ∧
      (∀ limit cursor clock page, ((search index overlay engine query limit cursor).run clock
          { iterations := 0, timedOut := false }).1 = .ok page →
        (∀ hit ∈ page.hits, hit.entityId ∈ ids) ∧ (page.totalKind = .exact → page.total = ids.length)) ∧
      (Ranged index overlay → ∀ limits clocks fuel, ids.length < fuel →
        (∀ x ∈ follow index overlay engine query limits clocks fuel 0 none,
          ∃ page, x.1 = .ok page ∧ page.totalKind = .exact) →
        ∃ pages : List SearchResult,
          (follow index overlay engine query limits clocks fuel 0 none).map Prod.fst = pages.map Except.ok ∧
          ((pages.flatMap SearchResult.hits).map Hit.entityId).Perm ids ∧
          (∀ page ∈ pages, page.total = ids.length) ∧
          ∀ i page, pages[i]? = some page → (page.nextCursor = none ↔ i + 1 = pages.length)) := by
  intro index overlay
  have htables : Tables index := tables_finish image config b
  have hnamed : overlay.Named := Overlay.named_run (Overlay.named_fromProject htables analysis p) steps
  obtain ⟨ids, horacle, hnodup, hids⟩ := linearOracleIds_spec hnamed engine hmode hnumber
  -- a page means that the query was understood as it was put
  have hplanned : ∀ {limit cursor c m page}, ((search index overlay engine query limit cursor).run c m).1 = .ok page →
      ∃ plan, planQuery query = .ok plan ∧ plan.mode = query.mode ∧ plan.queryText = query.text ∧
        plan.normalized = normalizeAscii query.text := by
    intro limit cursor c m page hrun
    have hclassify : classifyQuery query = (query.mode, query.text) := by
      have hauto : query.mode ≠ .auto := fun h => by simp [h, surfaceModes] at hmode
      simp only [classifyQuery, if_pos hauto, htrim]
    cases hplan : planQuery query with
    | error e =>
      unfold search at hrun
      rw [hplan] at hrun
      cases hrun
    | ok plan =>
      obtain ⟨hmode', htext', hnormalized⟩ := planQuery_eq hplan
      rw [hclassify] at hmode' htext' hnormalized
      exact ⟨plan, rfl, hmode', htext', hnormalized⟩
  -- the ranking of an exact search lists what the oracle lists
  have hranking : ∀ {limit cursor c m page}, ((search index overlay engine query limit cursor).run c m).1 = .ok page →
      page.totalKind = .exact → ∃ plan gathered, planQuery query = .ok plan ∧
        (gather index overlay engine query plan.mode plan.queryText plan.normalized).value = .ok gathered ∧
        ((TopK.sort hitKey (scoredHits index overlay engine (querySignature index gathered.evidence).value.1
          gathered.evidence)).map ScoredHit.entityId).Perm ids := by
    intro limit cursor c m page hrun hexact
    obtain ⟨plan, hplan, hpmode, hptext, hnormalized⟩ := hplanned hrun
    obtain ⟨-, gathered, hgather, hcomplete⟩ := search_exact hplan hrun hexact
    rw [hpmode, hptext, hnormalized] at hgather
    obtain ⟨gathered', hgather', hevidenced⟩ : ∃ gathered',
        (gather index overlay engine query query.mode query.text (normalizeAscii query.text)).value = .ok gathered' ∧
          Evidenced index overlay (Wanted index overlay query.mode query.text) gathered' :=
      (gather_evidenced htables hnamed hmode hkinds query.text hnumber).value
    obtain rfl : gathered' = gathered := Except.ok.inj (hgather'.symm.trans hgather)
    refine ⟨plan, gathered', hplan, by rw [hpmode, hptext, hnormalized, hgather], ?_⟩
    exact ((TopK.sort_perm _).map _).trans (scoredHits_perm hevidenced hcomplete _ hnodup hids)
  refine ⟨ids, horacle, hnodup, ?_, ?_⟩
  · intro limit cursor clock page hrun
    obtain ⟨plan, hplan, hpmode, hptext, hnormalized⟩ := hplanned hrun
    refine ⟨fun hit hhit => ?_, fun hexact => ?_⟩
    · rw [hids, ← hpmode, ← hptext]
      exact search_sound htables hnamed hplan (by rw [hpmode]; exact hmode) hkinds (by rw [hnormalized, hptext])
        (by rw [hpmode, hptext]; exact hnumber) limit cursor clock _ page hrun hit hhit
    · obtain ⟨plan, gathered, hplan, hgather, hperm⟩ := hranking hrun hexact
      obtain ⟨hmet, -⟩ := search_exact hplan hrun hexact
      rw [run_fst hmet] at hrun
      cases hopen : openCursor index overlay plan cursor with
      | error e =>
        unfold search at hrun
        simp only [hplan, hopen] at hrun
        cases hrun
      | ok key =>
        obtain ⟨page', hvalue, hpage⟩ := search_page hplan hgather rfl hopen limit
        obtain rfl : page' = page := Except.ok.inj (hvalue.symm.trans hrun)
        rw [hpage.total, ← hperm.length_eq, List.length_map]
  · intro hrange limits clocks fuel hfuel hexact
    obtain ⟨n, rfl⟩ := Nat.exists_eq_add_of_lt hfuel
    obtain ⟨first, hfirst, hfirstExact⟩ := hexact _ (by rw [follow]; exact List.mem_cons_self)
    obtain ⟨plan, gathered, hplan, hgather, hperm⟩ := hranking hfirst hfirstExact
    have hlength := hperm.length_eq
    rw [List.length_map] at hlength
    obtain ⟨pages, hpages, hlisted, htotal, hlast⟩ := follow_exact hrange hplan hgather rfl (by rwa [hlength]) hexact
    refine ⟨pages, hpages, ?_, fun page hpage => ?_, hlast⟩
    · rw [hlisted]
      exact hperm
    · rw [htotal page hpage, hlength]

/-! A function and a symbol, built without code, and a note in the overlay. -/

def emptyImage : Image where
  analysis := bareAnalysis
  strings := []
  offsetToVa _ := none
  codeIndex := []
  format _ _ := []
  xrefsTo _ := []
  outgoing _ := []
  successors _ _ := []
  instrCount _ _ := 0
  imageSha256 := []

def mainBuilder : IndexBuilder :=
  (IndexBuilder.new.pushFunction "main".toList 0x1000 0x10ff).pushEntity .symbol "Main_loop".toList (some 0x2000) none none

def mainIndex : BelIndex := mainBuilder.finish emptyImage .default

def notedOverlay : Overlay mainIndex := [addNote].foldl Overlay.step (Overlay.fromProject mainIndex bareAnalysis bareProject)

/-- What is read off the index and the overlay. -/
theorem mainIndex_noted :
    (∀ e ∈ mainIndex.entities ++ notedOverlay.entities,
      e.id < 2 ^ 32 ∧ (e.va.all fun va => decide (va < 2 ^ 64)) = true) ∧
    linearOracleIds mainIndex notedOverlay plainEngine .substring "MAIN".toList = .ok [0, 1] ∧
    ((follow mainIndex notedOverlay plainEngine mainQuery (fun _ => 1)
      (fun _ => { late := fun _ => false, interval := 1 }) 3 0 none).all fun x =>
        match x.1 with
        | .ok page => decide (page.totalKind = .exact)
        | .error _ => false) = true := by
  decide +kernel

theorem ranged_noted : Ranged mainIndex notedOverlay where
  indexGeneration := by decide +kernel
  overlayGeneration := by decide +kernel
  entity := by
    intro id e h
    obtain ⟨hid, hva⟩ := mainIndex_noted.1 e (List.mem_append.mpr (IndexData.mem_of_entity h))
    refine ⟨hid, fun va hcase => ?_⟩
    rw [hcase] at hva
    exact of_decide_eq_true hva

/-- Pages of one hit list what the oracle lists. -/
theorem search_eq_linearOracle_main :
    linearOracleIds mainIndex notedOverlay plainEngine .substring "MAIN".toList = .ok [0, 1] ∧
      ∃ pages : List SearchResult, (follow mainIndex notedOverlay plainEngine mainQuery (fun _ => 1)
          (fun _ => { late := fun _ => false, interval := 1 }) 3 0 none).map Prod.fst = pages.map Except.ok ∧
        ((pages.flatMap SearchResult.hits).map Hit.entityId).Perm [0, 1] ∧ ∀ page ∈ pages, page.total = 2 := by
  obtain ⟨-, horacle, hexact⟩ := mainIndex_noted
  obtain ⟨ids, hids, -, -, hfollow⟩ := search_eq_linearOracle mainBuilder emptyImage .default bareAnalysis bareProject
    [addNote] plainEngine mainQuery (by decide) (by decide +kernel) rfl (by decide)
  obtain rfl : ids = [0, 1] := Except.ok.inj (hids.symm.trans horacle)
  obtain ⟨pages, hpages, hperm, htotal, -⟩ := hfollow ranged_noted (fun _ => 1)
    (fun _ => { late := fun _ => false, interval := 1 }) 3 (by decide) (by
      intro x hx
      have hone := List.all_eq_true.mp hexact x hx
      split at hone
      · next page hpage => exact ⟨page, hpage, of_decide_eq_true hone⟩
      · cases hone)
  exact ⟨horacle, pages, hpages, hperm, htotal⟩

end Windy.Bel
