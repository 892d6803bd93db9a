import Mathlib.Data.Char
import Mathlib.Data.List.Lex
import Windy.Bel.Build
import Windy.Bel.Compact

/- What the tables of an index and the names of an overlay hold.

   A search reads the dictionary of names, the sorted texts and the postings of syncmers of the
   index, and the names and the overrides of the overlay. The tables are those of any finished
   builder; the overlay is that of a project state after any changes and compactions.

   What is proved:
     `prefix_of_between`: in the order of the texts, those with a common beginning are
       next to each other;
     `mem_postingsOf`: the dictionary lists the positions of each text;
     `closedSyncmerHashes_of_contains`: the syncmers of a text are syncmers of every text
       that contains it;
     `tables_finish`: what a search relies on in the index of a builder;
     `named_fromProject`, `named_run`: what it relies on in an overlay. -/
namespace Windy.Bel

/-! ## Texts in order -/

/-- Between a text and one that starts with it, every text starts with it. -/
theorem prefix_of_between {needle text other : Text} (hlow : ¬ text < needle) (hhigh : ¬ other < text)
    (hother : needle <+: other) : needle <+: text := by
  induction needle generalizing text other with
  | nil => exact List.nil_prefix
  | cons c needle ih =>
    obtain ⟨rest, rfl⟩ := hother
    cases text with
    | nil => exact absurd (List.nil_lt_cons c needle) hlow
    | cons d text =>
      rw [List.cons_lt_cons_iff] at hlow
      rw [List.cons_append, List.cons_lt_cons_iff] at hhigh
      push Not at hlow hhigh
      obtain rfl : c = d := le_antisymm hlow.1 hhigh.1
      exact List.cons_prefix_cons.mpr ⟨rfl, ih (not_lt.mpr (hlow.2 rfl)) (not_lt.mpr (hhigh.2 rfl)) (List.prefix_append _ _)⟩

theorem not_lt_of_prefix {needle text : Text} (h : needle <+: text) : ¬ text < needle := by
  obtain ⟨rest, rfl⟩ := h
  exact List.not_lt.mpr (List.le_append_left)

theorem sortedTexts_sorted (normalized : List Text) :
    (IndexBuilder.sortedTexts normalized).Pairwise fun a b => ¬ b.1 < a.1 := by
  have htrans : IsTrans (Text × Nat) fun a b => a.1 < b.1 ∨ (a.1 = b.1 ∧ a.2 ≤ b.2) := by
    refine ⟨fun a b c hab hbc => ?_⟩
    rcases hab with hab | ⟨hab, hab'⟩
    · rcases hbc with hbc | ⟨hbc, -⟩
      · exact .inl (lt_trans hab hbc)
      · exact .inl (hbc ▸ hab)
    · rcases hbc with hbc | ⟨hbc, hbc'⟩
      · exact .inl (hab ▸ hbc)
      · exact .inr ⟨hab.trans hbc, hab'.trans hbc'⟩
  have htotal : Std.Total fun a b : Text × Nat => a.1 < b.1 ∨ (a.1 = b.1 ∧ a.2 ≤ b.2) := by
    refine ⟨fun a b => ?_⟩
    rcases lt_trichotomy a.1 b.1 with h | h | h
    · exact .inl (.inl h)
    · rcases Nat.le_total a.2 b.2 with h' | h'
      · exact .inl (.inr ⟨h, h'⟩)
      · exact .inr (.inr ⟨h.symm, h'⟩)
    · exact .inr (.inl h)
  refine (List.pairwise_insertionSort _ normalized.zipIdx).imp ?_
  intro a b hab hlt
  rcases hab with hab | ⟨hab, -⟩
  · exact lt_asymm hab hlt
  · rw [hab] at hlt
    exact lt_irrefl _ hlt

theorem mem_sortedTexts {normalized : List Text} {text : Text} {id : Nat} :
    (text, id) ∈ IndexBuilder.sortedTexts normalized ↔ normalized[id]? = some text := by
  rw [IndexBuilder.sortedTexts, List.mem_insertionSort, List.mk_mem_zipIdx_iff_getElem?]

/-- The numbers in the order of their texts. -/
theorem sortedIds_sorted (normalized : List Text) : (IndexBuilder.buildNameFst normalized).sortedIds.Pairwise
    fun a b => ¬ normalized.getD b [] < normalized.getD a [] := by
  show ((IndexBuilder.sortedTexts normalized).map Prod.snd).Pairwise _
  rw [List.pairwise_map]
  refine (sortedTexts_sorted normalized).imp_of_mem ?_
  intro a b ha hb hab
  have hget : ∀ entry ∈ IndexBuilder.sortedTexts normalized, normalized.getD entry.2 [] = entry.1 := by
    intro entry hentry
    rw [List.getD_eq_getElem?_getD, mem_sortedTexts.mp hentry]
    rfl
  rw [hget a ha, hget b hb]
  exact hab

theorem mem_sortedIds {normalized : List Text} {id : Nat} :
    id ∈ (IndexBuilder.buildNameFst normalized).sortedIds ↔ id < normalized.length := by
  show id ∈ (IndexBuilder.sortedTexts normalized).map Prod.snd ↔ _
  rw [List.mem_map]
  constructor
  · rintro ⟨⟨text, i⟩, hentry, rfl⟩
    exact (List.getElem?_eq_some_iff.mp (mem_sortedTexts.mp hentry)).1
  · intro hlt
    exact ⟨(normalized[id], id), mem_sortedTexts.mpr (List.getElem?_eq_getElem hlt), rfl⟩

/-- In order, behind those below the text there is none below it. -/
theorem not_lt_of_mem_dropWhile {α : Type} {textOf : α → Text} {needle : Text} {xs : List α}
    (hsorted : xs.Pairwise fun a b => ¬ textOf b < textOf a) :
    ∀ x ∈ xs.dropWhile fun x => textOf x < needle, ¬ textOf x < needle := by
  induction xs with
  | nil => simp
  | cons x rest ih =>
    obtain ⟨hx, hrest⟩ := List.pairwise_cons.mp hsorted
    rw [List.dropWhile_cons]
    split
    · exact ih hrest
    · rename_i hlow
      intro y hy hlt
      rcases List.mem_cons.mp hy with rfl | hy
      · exact hlow (by simpa using hlt)
      · exact hlow (by simpa using lt_of_le_of_lt (not_lt.mp (hx y hy)) hlt)

/-! ## The dictionary of names -/

theorem mem_insertId {ids : Ids} {id other : Nat} : other ∈ ids.insert id ↔ other = id ∨ other ∈ ids := by
  rw [Std.ExtTreeSet.mem_insert, compare_eq_iff_eq, eq_comm]

/-- The groups of a sorted list: one for each text, with the numbers listed under it; the
last group is that of the last text. -/
structure Groups (sorted : List (Text × Nat)) (grouped : List (Text × Ids)) : Prop where
  mem : ∀ text ids, (text, ids) ∈ grouped → ∀ id, id ∈ ids ↔ (text, id) ∈ sorted
  listed : ∀ text, text ∈ grouped.map Prod.fst ↔ text ∈ sorted.map Prod.fst
  distinct : (grouped.map Prod.fst).Nodup
  last : grouped.getLast?.map Prod.fst = sorted.getLast?.map Prod.fst

theorem groupNames_append (sorted : List (Text × Nat)) (text : Text) (id : Nat) :
    IndexBuilder.groupNames (sorted ++ [(text, id)]) =
      match (IndexBuilder.groupNames sorted).getLast? with
      | some (last, postings) =>
        if last = text then (IndexBuilder.groupNames sorted).dropLast ++ [(last, postings.insert id)]
        else IndexBuilder.groupNames sorted ++ [(text, (∅ : Ids).insert id)]
      | none => [(text, (∅ : Ids).insert id)] := by
  rw [IndexBuilder.groupNames, List.foldl_append]
  rfl

/-- A text that is not the last one opens a group of its own. -/
theorem Groups.open {sorted : List (Text × Nat)} {grouped : List (Text × Ids)} (h : Groups sorted grouped)
    {text : Text} (id : Nat) (hnew : text ∉ sorted.map Prod.fst) :
    Groups (sorted ++ [(text, id)]) (grouped ++ [(text, (∅ : Ids).insert id)]) := by
  have hfresh : ∀ other, (text, other) ∉ sorted := fun other hmem => hnew (List.mem_map_of_mem hmem)
  refine ⟨?_, ?_, ?_, by simp⟩
  · intro t ids hmem other
    rw [List.mem_append, List.mem_singleton] at hmem ⊢
    rcases hmem with hmem | heq
    · rw [h.mem t ids hmem other]
      have hne : t ≠ text := by
        rintro rfl
        exact hnew ((h.listed t).mp (List.mem_map_of_mem hmem))
      simp [hne]
    · obtain ⟨rfl, rfl⟩ := Prod.mk.inj heq
      rw [mem_insertId]
      simp [hfresh]
  · intro t
    simp only [List.map_append, List.mem_append, h.listed t, List.map_cons, List.map_nil]
  · rw [List.map_append, List.nodup_append]
    refine ⟨h.distinct, by simp, ?_⟩
    intro t ht t' ht' heq
    obtain rfl : t' = text := by simpa using ht'
    exact hnew ((h.listed t').mp (heq ▸ ht))

/-- The last text again joins its group. -/
theorem Groups.join {sorted : List (Text × Nat)} {init : List (Text × Ids)} {text : Text} {postings : Ids}
    (h : Groups sorted (init ++ [(text, postings)])) (id : Nat) :
    Groups (sorted ++ [(text, id)]) (init ++ [(text, postings.insert id)]) := by
  have hsame : ∀ ids : Ids, (init ++ [(text, ids)]).map Prod.fst = init.map Prod.fst ++ [text] := by simp
  have hdistinct := h.distinct
  rw [hsame, List.nodup_append] at hdistinct
  refine ⟨?_, ?_, ?_, by simp⟩
  · intro t ids hmem other
    rw [List.mem_append, List.mem_singleton] at hmem
    rcases hmem with hmem | heq
    · rw [h.mem t ids (List.mem_append_left _ hmem) other, List.mem_append, List.mem_singleton]
      have hne : t ≠ text := hdistinct.2.2 t (List.mem_map_of_mem hmem) text (List.mem_singleton.mpr rfl)
      simp [hne]
    · obtain ⟨rfl, rfl⟩ := Prod.mk.inj heq
      have hmem := h.mem t postings (by simp) other
      rw [mem_insertId, hmem, List.mem_append, List.mem_singleton, Prod.mk.injEq]
      simp [or_comm]
  · intro t
    have hlisted := h.listed t
    rw [hsame] at hlisted ⊢
    have htext := (h.listed text).mp (by simp)
    rw [hlisted, List.map_append, List.mem_append, List.map_singleton, List.mem_singleton]
    constructor
    · exact .inl
    · rintro (hmem | rfl)
      · exact hmem
      · exact htext
  · rw [hsame, List.nodup_append]
    exact hdistinct

theorem groups_groupNames {sorted : List (Text × Nat)} (h : sorted.Pairwise fun a b => ¬ b.1 < a.1) :
    Groups sorted (IndexBuilder.groupNames sorted) := by
  induction sorted using List.reverseRecOn with
  | nil => exact ⟨by simp [IndexBuilder.groupNames], by simp [IndexBuilder.groupNames], by simp [IndexBuilder.groupNames], rfl⟩
  | append_singleton sorted entry ih =>
    obtain ⟨hsorted, -, hentry⟩ := List.pairwise_append.mp h
    have hgroups := ih hsorted
    obtain ⟨text, id⟩ := entry
    rw [groupNames_append]
    cases hlast : (IndexBuilder.groupNames sorted).getLast? with
    | none =>
      rw [List.getLast?_eq_none_iff.mp hlast] at hgroups
      refine hgroups.open id ?_
      intro hmem
      exact absurd ((hgroups.listed text).mpr hmem) (by simp)
    | some group =>
      obtain ⟨last, postings⟩ := group
      obtain ⟨init, hinit⟩ := List.getLast?_eq_some_iff.mp hlast
      dsimp only
      split
      · rename_i heq
        subst heq
        rw [hinit] at hgroups ⊢
        rw [List.dropLast_concat]
        exact hgroups.join id
      · rename_i hne
        refine hgroups.open id ?_
        -- a text listed before is not above the last one, and the new text is not below it
        intro hmem
        have hlastText := hgroups.last
        rw [hlast] at hlastText
        obtain ⟨tail, htail, hfst⟩ := Option.map_eq_some_iff.mp hlastText.symm
        obtain ⟨front, hfront⟩ := List.getLast?_eq_some_iff.mp htail
        obtain ⟨listed, hlisted, rfl⟩ := List.mem_map.mp hmem
        have hhigh : ¬ tail.1 < listed.1 := by
          rw [hfront] at hlisted hsorted
          rcases List.mem_append.mp hlisted with hlisted | hlisted
          · exact (List.pairwise_append.mp hsorted).2.2 listed hlisted tail (List.mem_singleton.mpr rfl)
          · rw [List.mem_singleton.mp hlisted]
            exact lt_irrefl _
        have hlow : ¬ listed.1 < tail.1 := hentry tail (by rw [hfront]; simp) (listed.1, id) (List.mem_singleton.mpr rfl)
        exact hne (hfst.symm.trans (le_antisymm (not_lt.mp hlow) (not_lt.mp hhigh)))

/-- Numbers a list of groups by their positions. -/
theorem getElem?_numbered (grouped : List (Text × Ids)) (hdistinct : (grouped.map Prod.fst).Nodup) (text : Text) (i : Nat) :
    ((grouped.zipIdx).foldl (fun map entry => map.insert entry.1.1 entry.2) (∅ : Std.ExtTreeMap Text Nat))[text]? = some i ↔
      ∃ ids, grouped[i]? = some (text, ids) := by
  induction grouped using List.reverseRecOn with
  | nil => simp
  | append_singleton grouped group ih =>
    rw [List.map_append, List.nodup_append] at hdistinct
    have hih := ih hdistinct.1
    rw [List.zipIdx_append, List.foldl_append]
    simp only [List.zipIdx_cons, List.zipIdx_nil, List.foldl_cons, List.foldl_nil, Nat.zero_add]
    rw [Std.ExtTreeMap.getElem?_insert]
    split
    · rename_i heq
      obtain rfl := Std.LawfulEqCmp.eq_of_compare heq
      constructor
      · intro hi
        obtain rfl := Option.some.inj hi
        exact ⟨group.2, by simp⟩
      · rintro ⟨ids, hi⟩
        rw [List.getElem?_append] at hi
        split at hi
        · -- the text of the last group is in no other
          have hmem := List.mem_map_of_mem (f := Prod.fst) (List.mem_of_getElem? hi)
          exact absurd rfl (hdistinct.2.2 _ hmem _ (by simp))
        · have hlt := (List.getElem?_eq_some_iff.mp hi).1
          simp only [List.length_singleton] at hlt
          congr 1
          omega
    · rename_i hne
      rw [hih]
      constructor
      · rintro ⟨ids, hi⟩
        exact ⟨ids, by rw [List.getElem?_append_left (List.getElem?_eq_some_iff.mp hi).1]; exact hi⟩
      · rintro ⟨ids, hi⟩
        rw [List.getElem?_append] at hi
        split at hi
        · exact ⟨ids, hi⟩
        · rw [List.getElem?_singleton] at hi
          split at hi
          · obtain rfl := Option.some.inj hi
            exact absurd Std.ReflCmp.compare_self hne
          · cases hi

/-- The postings the dictionary has for a text. -/
def NameFst.postingsOf (names : NameFst) (text : Text) : Ids :=
  (names.map[text]?.bind fun i => names.postings[i]?).getD ∅

/-- The dictionary lists the positions of each text. -/
theorem mem_postingsOf {normalized : List Text} {text : Text} {id : Nat} :
    id ∈ (IndexBuilder.buildNameFst normalized).postingsOf text ↔ normalized[id]? = some text := by
  have hgroups := groups_groupNames (sortedTexts_sorted normalized)
  rw [← mem_sortedTexts]
  unfold NameFst.postingsOf
  constructor
  · intro hmem
    cases hfound : (IndexBuilder.buildNameFst normalized).map[text]? with
    | none =>
      rw [hfound] at hmem
      exact absurd hmem Std.ExtTreeSet.not_mem_empty
    | some i =>
      obtain ⟨ids, hids⟩ := (getElem?_numbered _ hgroups.distinct text i).mp hfound
      have hpostings : (IndexBuilder.buildNameFst normalized).postings[i]? = some ids := by
        show (List.map Prod.snd _)[i]? = _
        rw [List.getElem?_map, hids]
        rfl
      rw [hfound, Option.bind_some, hpostings] at hmem
      exact (hgroups.mem text ids (List.mem_of_getElem? hids) id).mp hmem
  · intro hmem
    obtain ⟨⟨text', ids⟩, hgroup, rfl⟩ := List.mem_map.mp ((hgroups.listed text).mpr (List.mem_map_of_mem hmem))
    obtain ⟨i, hi⟩ := List.mem_iff_getElem?.mp hgroup
    have hfound : (IndexBuilder.buildNameFst normalized).map[text']? = some i :=
      (getElem?_numbered _ hgroups.distinct text' i).mpr ⟨ids, hi⟩
    have hpostings : (IndexBuilder.buildNameFst normalized).postings[i]? = some ids := by
      show (List.map Prod.snd _)[i]? = _
      rw [List.getElem?_map, hi]
      rfl
    rw [hfound, Option.bind_some, hpostings]
    exact (hgroups.mem text' ids hgroup id).mpr hmem

/-! ## Syncmers -/

theorem containsText_iff {text needle : Text} : containsText text needle ↔ ∃ before after, text = before ++ needle ++ after := by
  unfold containsText
  rw [List.any_eq_true]
  constructor
  · rintro ⟨tail, htail, hneedle⟩
    obtain ⟨after, rfl⟩ := List.isPrefixOf_iff_prefix.mp hneedle
    obtain ⟨before, rfl⟩ := (List.mem_tails _ _).mp htail
    exact ⟨before, after, by simp⟩
  · rintro ⟨before, after, rfl⟩
    refine ⟨needle ++ after, (List.mem_tails _ _).mpr ⟨before, by simp⟩, ?_⟩
    exact List.isPrefixOf_iff_prefix.mpr (List.prefix_append _ _)

/-- The windows of a part are windows of the whole. -/
theorem windows_part {k : Nat} {before part after window : List Nat} (h : window ∈ windows k part) :
    window ∈ windows k (before ++ part ++ after) := by
  unfold windows at h ⊢
  obtain ⟨i, hi, rfl⟩ := List.mem_map.mp h
  rw [List.mem_range] at hi
  refine List.mem_map.mpr ⟨before.length + i, ?_, ?_⟩
  · rw [List.mem_range]
    simp only [List.length_append]
    omega
  · have hdrop : (before ++ part ++ after).drop (before.length + i) = part.drop i ++ after := by
      rw [List.append_assoc, ← List.drop_drop, List.drop_left, List.drop_append_of_le_length (by omega)]
    rw [hdrop]
    by_cases hk : k = 0
    · simp [hk]
    · exact List.take_append_of_le_length (by rw [List.length_drop]; omega)

theorem mem_closedSyncmerHashes {bytes : List Nat} {k s hash : Nat} : hash ∈ closedSyncmerHashes bytes k s ↔
    ¬ (k = 0 ∨ s = 0 ∨ k ≤ s ∨ bytes.length < k) ∧
      ∃ window ∈ windows k bytes, isClosedSyncmer window s ∧ stableU64Hash window = hash := by
  unfold closedSyncmerHashes
  split
  · rename_i hguard
    simp [hguard]
  · rename_i hguard
    rw [Std.ExtTreeSet.mem_toList, Std.ExtTreeSet.mem_ofList, List.contains_iff_mem, List.mem_map]
    simp only [hguard, not_false_eq_true, true_and, List.mem_filter, and_assoc]

/-- Every syncmer of a text is one of the texts that contain it. -/
theorem closedSyncmerHashes_part {before part after : List Nat} {k s hash : Nat}
    (h : hash ∈ closedSyncmerHashes part k s) : hash ∈ closedSyncmerHashes (before ++ part ++ after) k s := by
  rw [mem_closedSyncmerHashes] at h ⊢
  obtain ⟨hguard, window, hwindow, hclosed⟩ := h
  refine ⟨?_, window, windows_part hwindow, hclosed⟩
  simp only [List.length_append]
  omega

theorem closedSyncmerHashes_of_contains {text needle : Text} (h : containsText text needle) {k s hash : Nat}
    (hhash : hash ∈ closedSyncmerHashes (asBytes needle) k s) : hash ∈ closedSyncmerHashes (asBytes text) k s := by
  obtain ⟨before, after, rfl⟩ := containsText_iff.mp h
  simp only [asBytes, List.flatMap_append]
  exact closedSyncmerHashes_part hhash

/-! ## Postings -/

/-- The number is listed under the key. -/
def Listed {κ : Type} [Ord κ] [Std.TransOrd κ] (postings : Std.ExtTreeMap κ Ids) (key : κ) (id : Nat) : Prop :=
  ∃ ids, postings[key]? = some ids ∧ id ∈ ids

section Listed
variable {κ : Type} [Ord κ] [Std.TransOrd κ] {postings : Std.ExtTreeMap κ Ids} {key : κ} {id : Nat}

theorem listed_iff : Listed postings key id ↔ id ∈ (postings[key]?.getD ∅ : Ids) := by
  unfold Listed
  cases postings[key]? with
  | none => simp
  | some ids => simp

variable [Std.LawfulEqOrd κ]

theorem listed_post {key' : κ} {id' : Nat} :
    Listed (post postings key id) key' id' ↔ (key' = key ∧ id' = id) ∨ Listed postings key' id' := by
  rw [listed_iff, listed_iff, getElem?_post]
  split
  · rename_i heq
    obtain rfl := Std.LawfulEqCmp.eq_of_compare heq
    rw [Option.getD_some, mem_insertId]
    simp
  · rename_i hne
    have hkey : key' ≠ key := by
      rintro rfl
      exact hne Std.ReflCmp.compare_self
    simp [hkey]

theorem listed_foldl {α : Type} (keyOf : α → κ) (idOf : α → Nat) (entries : List α) :
    Listed (entries.foldl (fun postings entry => post postings (keyOf entry) (idOf entry)) postings) key id ↔
      (∃ entry ∈ entries, keyOf entry = key ∧ idOf entry = id) ∨ Listed postings key id := by
  induction entries generalizing postings with
  | nil => simp
  | cons entry entries ih =>
    rw [List.foldl_cons, ih, listed_post]
    rw [List.exists_mem_cons_iff, @eq_comm _ key, @eq_comm _ id, or_left_comm, or_assoc]

end Listed

/-- A text that was taken up is listed under each of its syncmers. -/
theorem foldl_addSyncmers {config : BelConfig} {budget : Nat} {entries : List (Text × Nat)}
    {start : Std.ExtTreeMap Nat Ids × Nat} {done : Std.ExtTreeMap Nat Ids × Nat}
    (h : entries.foldl (IndexBuilder.addSyncmers config budget) (some start) = some done) :
    (∀ hash id, Listed start.1 hash id → Listed done.1 hash id) ∧
      ∀ entry ∈ entries, ∀ hash ∈ closedSyncmerHashes (asBytes entry.1) config.syncmerK config.syncmerS,
        Listed done.1 hash entry.2 := by
  have hnone : ∀ entries : List (Text × Nat), entries.foldl (IndexBuilder.addSyncmers config budget) none = none := by
    intro entries
    induction entries with
    | nil => rfl
    | cons entry entries ih => exact ih
  induction entries generalizing start with
  | nil =>
    obtain rfl := Option.some.inj h
    exact ⟨fun _ _ h => h, by simp⟩
  | cons entry entries ih =>
    rw [List.foldl_cons] at h
    cases hstep : IndexBuilder.addSyncmers config budget (some start) entry with
    | none =>
      rw [hstep, hnone] at h
      cases h
    | some next =>
      rw [hstep] at h
      obtain ⟨hkeep, hrest⟩ := ih h
      simp only [IndexBuilder.addSyncmers, Option.bind_some] at hstep
      split at hstep
      · cases hstep
      · obtain rfl := Option.some.inj hstep
        refine ⟨fun hash id hlisted => hkeep hash id ((listed_foldl _ _ _).mpr (.inr hlisted)), ?_⟩
        intro e he hash hhash
        rcases List.mem_cons.mp he with rfl | he
        · exact hkeep hash _ ((listed_foldl _ _ _).mpr (.inl ⟨hash, hhash, rfl, rfl⟩))
        · exact hrest e he hash hhash

/-! ## The index -/

/-- What a search relies on in an index. -/
structure Tables (index : BelIndex) : Prop where
  names : index.nameFst = IndexBuilder.buildNameFst index.normalized
  syncmers : index.syncmerPostings.complete → ∀ (id : Nat) (text : Text), index.normalized[id]? = some text →
    ∀ hash ∈ closedSyncmerHashes (asBytes text) index.syncmerPostings.k index.syncmerPostings.s,
      Listed index.syncmerPostings.map hash id
  functions : ∀ (va id : Nat), index.functionByVa[va]? = some id → id < index.entities.length

theorem buildSyncmers_listed (config : BelConfig) (b : IndexBuilder) (h : (b.buildSyncmers config).syncmerComplete)
    {id : Nat} {text : Text} (htext : (b.buildSyncmers config).normalized[id]? = some text) {hash : Nat}
    (hhash : hash ∈ closedSyncmerHashes (asBytes text) config.syncmerK config.syncmerS) :
    Listed (b.buildSyncmers config).syncmerPostings hash id := by
  unfold IndexBuilder.buildSyncmers at h htext ⊢
  split at h
  · rename_i postings occurrences hfold
    rw [hfold] at htext
    exact (foldl_addSyncmers hfold).2 (text, id) (List.mk_mem_zipIdx_iff_getElem?.mpr htext) hash hhash
  · cases h

theorem tables_finish (image : Image) (config : BelConfig) (b : IndexBuilder) : Tables (b.finish image config) := by
  refine ⟨rfl, ?_, ((b.buildRelationships image).addOntology.buildSyncmers config).function_lt⟩
  intro hcomplete id text htext hash hhash
  exact buildSyncmers_listed config (b.buildRelationships image).addOntology hcomplete htext hhash

/-! ## The overlay -/

namespace Overlay
variable {index : BelIndex}

/-- What a search relies on in an overlay: the overridden entities are those of the base
whose old texts do not count, and its names are the overrides and the texts of its own
entities. -/
structure Named (overlay : Overlay index) : Prop where
  base : ∀ (id : Nat) (text : Text), overlay.normalizedOverrides[id]? = some text → id < overlay.baseEntityCount
  surface : ∀ id, id ∈ overlay.surfaceTombstones ↔ ∃ text, overlay.normalizedOverrides[id]? = some text
  sound : ∀ text id, Listed overlay.names text id →
    overlay.normalizedOverrides[id]? = some text ∨
      ∃ i, id = overlay.baseEntityCount + i ∧ overlay.normalized[i]? = some text
  override : ∀ (id : Nat) (text : Text), overlay.normalizedOverrides[id]? = some text → Listed overlay.names text id
  own : ∀ (i : Nat) (text : Text), overlay.normalized[i]? = some text →
    overlay.baseEntityCount + i ∉ overlay.tombstones → Listed overlay.names text (overlay.baseEntityCount + i)

theorem named_empty (index : BelIndex) (generation : Nat) : Named (empty index generation) := by
  refine ⟨?_, ?_, ?_, ?_, ?_⟩
  · intro id text h
    simp [empty] at h
  · intro id
    simp [empty]
  · rintro text id ⟨ids, h, -⟩
    simp [empty] at h
  · intro id text h
    simp [empty] at h
  · intro i text h
    simp [empty] at h

variable {overlay : Overlay index}

theorem Named.bump (h : Named overlay) : Named overlay.bump := ⟨h.base, h.surface, h.sound, h.override, h.own⟩

theorem Named.sorted (h : Named overlay) : Named overlay.sorted := ⟨h.base, h.surface, h.sound, h.override, h.own⟩

theorem Named.tombstone (h : Named overlay) (id : Nat) : Named (overlay.tombstone id) := by
  refine ⟨h.base, h.surface, h.sound, h.override, ?_⟩
  intro i text htext hlive
  exact h.own i text htext fun hmem => hlive (mem_insertId.mpr (.inr hmem))

theorem Named.pushEntity (h : Named overlay) (kind : EntityKind) (display normalized : Text)
    (va functionVa : Option Nat) : Named (overlay.pushEntity kind display normalized va functionVa) := by
  refine ⟨h.base, h.surface, ?_, ?_, ?_⟩
  · intro text id hlisted
    rcases listed_post.mp hlisted with ⟨rfl, rfl⟩ | hlisted
    · refine .inr ⟨overlay.entities.length, rfl, ?_⟩
      show (overlay.normalized ++ [text])[overlay.entities.length]? = some text
      rw [← overlay.normalized_length]
      simp
    · rcases h.sound text id hlisted with hoverride | ⟨i, rfl, hi⟩
      · exact .inl hoverride
      · refine .inr ⟨i, rfl, ?_⟩
        show (overlay.normalized ++ [normalized])[i]? = some text
        rw [List.getElem?_append_left (List.getElem?_eq_some_iff.mp hi).1]
        exact hi
  · intro id text hoverride
    exact listed_post.mpr (.inr (h.override id text hoverride))
  · intro i text htext hlive
    change (overlay.normalized ++ [normalized])[i]? = some text at htext
    refine listed_post.mpr ?_
    rw [List.getElem?_append] at htext
    split at htext
    · exact .inr (h.own i text htext hlive)
    · rename_i hlast
      rw [List.getElem?_singleton] at htext
      split at htext
      · obtain rfl := Option.some.inj htext
        refine .inl ⟨rfl, ?_⟩
        show overlay.baseEntityCount + i = overlay.baseEntityCount + overlay.entities.length
        rw [← overlay.normalized_length]
        omega
      · cases htext

theorem Named.overrideFunction (h : Named overlay) {function : Nat} (hbase : function < overlay.baseEntityCount)
    (hnew : overlay.normalizedOverrides[function]? = none) (display : Text) :
    Named (overlay.overrideFunction function display) := by
  have hget : ∀ id : Nat, (overlay.normalizedOverrides.insert function (normalizeAscii display))[id]? =
      if function = id then some (normalizeAscii display) else overlay.normalizedOverrides[id]? := by
    intro id
    rw [Std.ExtTreeMap.getElem?_insert]
    simp only [compare_eq_iff_eq]
  refine ⟨?_, ?_, ?_, ?_, ?_⟩
  · intro id text hid
    change (overlay.normalizedOverrides.insert function (normalizeAscii display))[id]? = some text at hid
    rw [hget] at hid
    split at hid
    · rename_i heq
      exact heq ▸ hbase
    · exact h.base id text hid
  · intro id
    show id ∈ overlay.surfaceTombstones.insert function ↔
      ∃ text, (overlay.normalizedOverrides.insert function (normalizeAscii display))[id]? = some text
    rw [mem_insertId, hget, h.surface]
    split
    · rename_i heq
      simp [heq]
    · rename_i hne
      simp [Ne.symm hne]
  · intro text id hlisted
    show (overlay.normalizedOverrides.insert function (normalizeAscii display))[id]? = some text ∨ _
    rw [hget]
    rcases listed_post.mp hlisted with ⟨rfl, rfl⟩ | hlisted
    · exact .inl (if_pos rfl)
    · rcases h.sound text id hlisted with hoverride | hown
      · refine .inl ?_
        rw [if_neg]
        · exact hoverride
        · rintro rfl
          rw [hnew] at hoverride
          cases hoverride
      · exact .inr hown
  · intro id text hid
    change (overlay.normalizedOverrides.insert function (normalizeAscii display))[id]? = some text at hid
    rw [hget] at hid
    refine listed_post.mpr ?_
    split at hid
    · rename_i heq
      exact .inl ⟨(Option.some.inj hid).symm, heq.symm⟩
    · exact .inr (h.override id text hid)
  · intro i text htext hlive
    exact listed_post.mpr (.inr (h.own i text htext hlive))

theorem named_fromProject (htables : Tables index) (analysis : Analysis) (p : Project) :
    Named (fromProject index analysis p) := by
  refine fromProject_induct (fun kind display normalized va functionVa h => h.pushEntity kind display normalized va functionVa)
    (fun _ h => h.tombstone _) ?_ analysis p (named_empty index p.opSeq) Named.sorted
  intro overlay va function display hfunction hnew h
  refine h.overrideFunction ?_ hnew display
  rw [overlay.base_eq]
  exact htables.functions va function hfunction

theorem foldl_add_names (entries : List (Entity × Text)) (p : Postings) :
    (entries.foldl (Postings.add index) p).names =
      entries.foldl (fun names entry => post names entry.2 entry.1.id) p.names := by
  induction entries generalizing p with
  | nil => rfl
  | cons entry entries ih =>
    rw [List.foldl_cons, List.foldl_cons, ih]
    rfl

/-- The postings of a compaction list the entities that are left. -/
theorem listed_livePostings {text : Text} {id : Nat} : Listed overlay.livePostings.names text id ↔
    ∃ i, id = overlay.baseEntityCount + i ∧ overlay.normalized[i]? = some text ∧ id ∉ overlay.tombstones := by
  have hnone : ¬ Listed Postings.none.names text id := by
    rintro ⟨ids, hids, -⟩
    simp [Postings.none] at hids
  rw [livePostings, foldl_add_names, listed_foldl]
  constructor
  · rintro (⟨⟨e, t⟩, hentry, rfl, rfl⟩ | hnil)
    · obtain ⟨hzip, hlive⟩ := List.mem_filter.mp hentry
      obtain ⟨i, hi⟩ := List.mem_iff_getElem?.mp hzip
      obtain ⟨he, ht⟩ := List.getElem?_zip_eq_some.mp hi
      exact ⟨i, overlay.id_eq i e he, ht, by simpa using hlive⟩
    · exact absurd hnil hnone
  · rintro ⟨i, rfl, htext, hlive⟩
    have hlt : i < overlay.entities.length := by
      rw [← overlay.normalized_length]
      exact (List.getElem?_eq_some_iff.mp htext).1
    have he := List.getElem?_eq_getElem hlt
    have hid := overlay.id_eq i _ he
    refine .inl ⟨(overlay.entities[i], text), List.mem_filter.mpr ⟨?_, ?_⟩, rfl, hid⟩
    · exact List.mem_of_getElem? (List.getElem?_zip_eq_some.mpr ⟨he, htext⟩)
    · simpa [hid] using hlive

theorem listed_compacted {text : Text} {id : Nat} : Listed overlay.compacted.names text id ↔
    overlay.normalizedOverrides[id]? = some text ∨ Listed overlay.livePostings.names text id := by
  show Listed (overrideNames overlay.normalizedOverrides overlay.livePostings.names) text id ↔ _
  rw [overrideNames, listed_foldl, ← Std.ExtTreeMap.mem_toList_iff_getElem?_eq_some]
  simp

theorem Named.compacted (h : Named overlay) : Named overlay.compacted := by
  refine ⟨h.base, h.surface, ?_, ?_, ?_⟩
  · intro text id hlisted
    rcases listed_compacted.mp hlisted with hoverride | hlive
    · exact .inl hoverride
    · obtain ⟨i, hid, htext, -⟩ := listed_livePostings.mp hlive
      exact .inr ⟨i, hid, htext⟩
  · intro id text hoverride
    exact listed_compacted.mpr (.inl hoverride)
  · intro i text htext hlive
    exact listed_compacted.mpr (.inr (listed_livePostings.mpr ⟨i, rfl, htext, hlive⟩))

theorem Named.step (h : Named overlay) (s : OverlayStep) : Named (overlay.step s) := by
  cases s with
  | apply edit =>
    cases edit with
    | upsert kind display va functionVa replaces =>
      cases replaces with
      | none => exact (h.pushEntity kind display (normalizeAscii display) va functionVa).bump.sorted
      | some id => exact ((h.tombstone id).pushEntity kind display (normalizeAscii display) va functionVa).bump.sorted
    | tombstone id => exact (h.tombstone id).bump.sorted
  | compact cancel =>
    show Named ((overlay.compact cancel).getD overlay)
    unfold compact
    split
    · exact h
    · exact h.compacted

theorem named_run (h : Named overlay) (steps : List OverlayStep) : Named (steps.foldl Overlay.step overlay) := by
  induction steps generalizing overlay with
  | nil => exact h
  | cons s steps ih => exact ih (h.step s)

end Overlay

end Windy.Bel
