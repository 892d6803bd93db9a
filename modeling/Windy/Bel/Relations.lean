import Windy.Bel.Lookup
import Windy.Bel.Reflect

/- The relationship tables of an index that was built (`build_relationships`,
   `build_hot_table` and the motifs and classes in `analysis/bel/mod.rs`).

   The builder attaches entities to functions: a motif or a class to those that show it,
   and any entity but an instruction or a function to the function it belongs to and to
   those that refer to it. Calls between functions make them neighbors, both ways. The
   hot table repeats the rows with the most functions.

   What is proved (`links_build`):
     - a row belongs to an entity of the index and lists functions;
     - the hot table has no row of its own;
     - two functions are neighbors exactly when one of them calls the other. -/
namespace Windy.Bel

/-- The number belongs to a function. -/
def IsFunction (functionByVa : Std.ExtTreeMap Nat Nat) (id : Nat) : Prop := ∃ va : Nat, functionByVa[va]? = some id

/-- A function calls another one. -/
def Calls (image : Image) (functionByVa : Std.ExtTreeMap Nat Nat) (a b : Nat) : Prop :=
  ∃ f ∈ image.analysis.functions, ∃ target ∈ image.outgoing f.entryVa,
    functionByVa[f.entryVa]? = some a ∧ functionByVa[target]? = some b

theorem listed_insert {κ : Type} [Ord κ] [Std.TransOrd κ] [Std.LawfulEqOrd κ] {postings : Std.ExtTreeMap κ Ids}
    {key key' : κ} {ids : Ids} {id : Nat} (h : Listed (postings.insert key ids) key' id) :
    (key' = key ∧ id ∈ ids) ∨ Listed postings key' id := by
  obtain ⟨listed, hget, hid⟩ := h
  rw [Std.ExtTreeMap.getElem?_insert] at hget
  split at hget
  · rename_i heq
    obtain rfl := Std.LawfulEqCmp.eq_of_compare heq
    obtain rfl := Option.some.inj hget
    exact .inl ⟨rfl, hid⟩
  · exact .inr ⟨listed, hget, hid⟩

theorem mem_union {left right : Ids} {id : Nat} : id ∈ IndexBuilder.union left right ↔ id ∈ left ∨ id ∈ right := by
  have hfold : ∀ (ids : List Nat) (into : Ids), id ∈ ids.foldl (fun ids id => ids.insert id) into ↔ id ∈ into ∨ id ∈ ids := by
    intro ids
    induction ids with
    | nil => simp
    | cons x ids ih =>
      intro into
      rw [List.foldl_cons, ih, mem_insertId, List.mem_cons, or_comm (a := id = x), or_assoc]
  rw [IndexBuilder.union, hfold, Std.ExtTreeSet.mem_toList]

namespace IndexBuilder

/-- What the relationship tables of a builder hold, before the hot table. -/
structure Linked (edges : List (Nat × Nat)) (b : IndexBuilder) : Prop where
  surface : ∀ e f, Listed b.propagation.surfaceToFuncs e f → e < b.entities.length ∧ IsFunction b.functionByVa f
  hot : b.propagation.hotTable = ∅
  neighbors : ∀ e f, Listed b.propagation.functionNeighbors e f ↔ (e, f) ∈ edges

/-! ## Before the motifs -/

theorem foldl_propagation {α : Type} {f : IndexBuilder → α → IndexBuilder}
    (hf : ∀ b x, (f b x).propagation = b.propagation) (xs : List α) (b : IndexBuilder) :
    (xs.foldl f b).propagation = b.propagation := by
  induction xs generalizing b with
  | nil => rfl
  | cons x xs ih => exact (ih (f b x)).trans (hf b x)

theorem addInstructions_propagation (image : Image) (p : Project) (b : IndexBuilder) :
    (b.addInstructions image p).propagation = b.propagation := by
  unfold addInstructions
  generalize 0 = cursor
  induction image.codeIndex generalizing cursor b with
  | nil => rfl
  | cons decoded rest ih => exact ih (IndexBuilder.addInstruction image p (cursor, b) decoded).2 _

theorem linked_contents (image : Image) (p : Project) : Linked [] (((((IndexBuilder.new.addFunctions image p).addSymbols
    p).addStrings image).addInstructions image p).addAnnotations image p) := by
  have hnone : (((((IndexBuilder.new.addFunctions image p).addSymbols p).addStrings image).addInstructions image
      p).addAnnotations image p).propagation = IndexBuilder.new.propagation := by
    calc (((((IndexBuilder.new.addFunctions image p).addSymbols p).addStrings image).addInstructions image
          p).addAnnotations image p).propagation
      _ = ((((IndexBuilder.new.addFunctions image p).addSymbols p).addStrings image).addInstructions image
          p).propagation := by
        unfold addAnnotations
        exact foldl_propagation (by intros; rfl) _ _
      _ = (((IndexBuilder.new.addFunctions image p).addSymbols p).addStrings image).propagation :=
        addInstructions_propagation image p _
      _ = ((IndexBuilder.new.addFunctions image p).addSymbols p).propagation := by
        unfold addStrings
        exact foldl_propagation (by intros; rfl) _ _
      _ = (IndexBuilder.new.addFunctions image p).propagation := by
        unfold addSymbols
        exact foldl_propagation (by intros; rfl) _ _
      _ = IndexBuilder.new.propagation := by
        refine Eq.trans ?_ (foldl_propagation (f := fun b function =>
          b.pushFunction (SsaCache.Function.name function p).toList function.entryVa (functionEnd function))
          (by intros; rfl) image.analysis.functions _)
        rfl
  refine ⟨?_, ?_, ?_⟩
  · rw [hnone]
    rintro e f ⟨ids, hget, -⟩
    simp [IndexBuilder.new] at hget
  · rw [hnone]
    rfl
  · intro e f
    rw [hnone]
    simp [Listed, IndexBuilder.new]

/-! ## Rows -/

namespace Linked

variable {edges : List (Nat × Nat)} {b b' : IndexBuilder}

theorem extend (h : Linked edges b) (hgrows : Grows b b') (hsame : b'.propagation = b.propagation) : Linked edges b' := by
  obtain ⟨more, hmore⟩ := hgrows.entities
  refine ⟨fun e f hlisted => ?_, by rw [hsame, h.hot], fun e f => by rw [hsame, h.neighbors]⟩
  rw [hsame] at hlisted
  obtain ⟨hlt, hfunction⟩ := h.surface e f hlisted
  rw [hgrows.functionByVa, hmore, List.length_append]
  exact ⟨by omega, hfunction⟩

/-- A row of functions is entered for an entity. -/
theorem insert (h : Linked edges b) (hgrows : Grows b b') {id : Nat} {functions : Ids} (hlt : id < b'.entities.length)
    (hfunctions : ∀ f ∈ functions, IsFunction b.functionByVa f)
    (hpropagation : b'.propagation = { b.propagation with
      surfaceToFuncs := b.propagation.surfaceToFuncs.insert id functions }) : Linked edges b' := by
  obtain ⟨more, hmore⟩ := hgrows.entities
  refine ⟨fun e f hlisted => ?_, by rw [hpropagation]; exact h.hot, fun e f => by rw [hpropagation]; exact h.neighbors e f⟩
  rw [hpropagation] at hlisted
  rw [hgrows.functionByVa]
  rcases listed_insert hlisted with ⟨rfl, hf⟩ | hlisted
  · exact ⟨hlt, hfunctions f hf⟩
  · obtain ⟨hold, hfunction⟩ := h.surface e f hlisted
    rw [hmore, List.length_append]
    exact ⟨by omega, hfunction⟩

theorem addMotifs (image : Image) (h : Linked edges b) : Linked edges (b.addMotifs image) := by
  unfold IndexBuilder.addMotifs
  induction motifRules image generalizing b with
  | nil => exact h
  | cons rule rules ih =>
    refine ih ?_
    unfold addMotif
    split
    · exact h
    · have hgrows : Grows b (b.pushMotif rule.1.toList (motifFunctions image b rule.2)) := ⟨⟨_, rfl⟩, rfl⟩
      refine h.insert hgrows ?_ ?_ rfl
      · show b.entities.length < (b.entities ++ [_]).length
        simp
      · intro f hf
        rw [motifFunctions, Std.ExtTreeSet.mem_ofList, List.contains_iff_mem, List.mem_filterMap] at hf
        obtain ⟨g, -, hg⟩ := hf
        exact ⟨_, hg⟩

theorem pushClass (h : Linked edges b) (name : Text) {functions : Ids}
    (hfunctions : ∀ f ∈ functions, IsFunction b.functionByVa f) : Linked edges (b.pushClass name functions) := by
  refine h.insert (Extends.pushClass b name functions).toGrows ?_ hfunctions rfl
  show b.entities.length < (b.entities ++ [_]).length
  simp

theorem foldl_pushClass {α : Type} (nameOf : α → Text) (functionsOf : α → Ids) {entries : List α}
    (h : Linked edges b) (hentries : ∀ entry ∈ entries, ∀ f ∈ functionsOf entry, IsFunction b.functionByVa f) :
    Linked edges (entries.foldl (fun b entry => b.pushClass (nameOf entry) (functionsOf entry)) b) := by
  induction entries generalizing b with
  | nil => exact h
  | cons entry entries ih =>
    exact ih (h.pushClass (nameOf entry) (hentries entry List.mem_cons_self))
      fun other hother => hentries other (List.mem_cons_of_mem _ hother)

end Linked

/-! ## Classes -/

/-- The members of a class are functions. -/
theorem mem_classMembers {edges : List (Nat × Nat)} {b : IndexBuilder} (h : Linked edges b) {needles : List String} {f : Nat}
    (hf : f ∈ classMembers b needles) : IsFunction b.functionByVa f := by
  unfold classMembers at hf
  have hfold : ∀ (entries : List (Entity × Text)) (into : Ids), (∀ f ∈ into, IsFunction b.functionByVa f) →
      ∀ f ∈ entries.foldl (fun functions entry =>
        if entry.1.kind ≠ .ontologyClass ∧ needles.any fun needle => containsText entry.2 needle.toList then
          union functions (b.propagation.surfaceToFuncs[entry.1.id]?.getD ∅)
        else functions) into, IsFunction b.functionByVa f := by
    intro entries
    induction entries with
    | nil => exact fun into hinto => hinto
    | cons entry entries ih =>
      intro into hinto
      refine ih _ fun f hf => ?_
      dsimp only at hf
      split at hf
      · rcases mem_union.mp hf with hf | hf
        · exact hinto f hf
        · exact (h.surface _ f (listed_iff.mpr hf)).2
      · exact hinto f hf
  exact hfold _ ∅ (fun f hf => absurd hf Std.ExtTreeSet.not_mem_empty) f hf

/-- What two classes share is in the first one. -/
theorem mem_commonClasses {classes : List (String × Ids)} {entry : Text × Ids} (h : entry ∈ commonClasses classes) :
    ∃ c ∈ classes, ∀ f ∈ entry.2, f ∈ c.2 := by
  induction classes with
  | nil => cases h
  | cons first rest ih =>
    rw [commonClasses] at h
    rcases List.mem_append.mp h with h | h
    · obtain ⟨other, -, hother⟩ := List.mem_filterMap.mp h
      dsimp only at hother
      split at hother
      · cases hother
      · obtain rfl := Option.some.inj hother
        refine ⟨first, List.mem_cons_self, fun f hf => ?_⟩
        exact (Std.ExtTreeSet.mem_filter.mp hf).1
    · obtain ⟨c, hc, hsub⟩ := ih h
      exact ⟨c, List.mem_cons_of_mem _ hc, hsub⟩

theorem mem_foldl_union {α : Type} (functionsOf : α → Ids) {f : Nat} (entries : List α) {into : Ids}
    (h : f ∈ entries.foldl (fun functions entry => union functions (functionsOf entry)) into) :
    f ∈ into ∨ ∃ entry ∈ entries, f ∈ functionsOf entry := by
  induction entries generalizing into with
  | nil => exact .inl h
  | cons entry entries ih =>
    rcases ih h with hf | ⟨other, hother, hf⟩
    · rcases mem_union.mp hf with hf | hf
      · exact .inl hf
      · exact .inr ⟨entry, List.mem_cons_self, hf⟩
    · exact .inr ⟨other, List.mem_cons_of_mem _ hother, hf⟩

namespace Linked

variable {edges : List (Nat × Nat)} {b : IndexBuilder}

/-- The base classes, the root's functions and the shared classes. -/
theorem classes {classes : List (String × Ids)} (h : Linked edges b)
    (hmembers : ∀ entry ∈ classes, ∀ f ∈ entry.2, IsFunction b.functionByVa f) :
    Linked edges ((commonClasses classes).foldl (fun b entry => b.pushClass entry.1 entry.2)
      ((classes.foldl (fun b entry => b.pushClass entry.1.toList entry.2) b.pushRoot).setFunctions b.entities.length
        (classes.foldl (fun functions entry => union functions entry.2) ∅))) := by
  have hroot : Grows b b.pushRoot := ⟨⟨_, rfl⟩, rfl⟩
  have hgrown : Grows b.pushRoot (classes.foldl (fun b entry => b.pushClass entry.1.toList entry.2) b.pushRoot) :=
    Grows.foldl (fun b (entry : String × Ids) => (Extends.pushClass b entry.1.toList entry.2).toGrows) _ _
  have hlinked := foldl_pushClass (fun entry : String × Ids => entry.1.toList) Prod.snd (h.extend hroot rfl) hmembers
  revert hgrown hlinked
  generalize classes.foldl (fun b entry => b.pushClass entry.1.toList entry.2) b.pushRoot = based
  intro hgrown hlinked
  have hfunctions : based.functionByVa = b.functionByVa := hgrown.functionByVa
  refine foldl_pushClass Prod.fst Prod.snd (hlinked.insert ⟨⟨[], by simp [setFunctions]⟩, rfl⟩ ?_ (fun f hf => ?_) rfl)
    fun entry hentry f hf => ?_
  · -- the root is the first of the classes
    obtain ⟨more, hmore⟩ := hgrown.entities
    show b.entities.length < based.entities.length
    rw [hmore]
    show b.entities.length < ((b.entities ++ [_]) ++ more).length
    simp
  · rw [hfunctions]
    rcases mem_foldl_union Prod.snd classes hf with hf | ⟨entry, hentry, hf⟩
    · exact absurd hf Std.ExtTreeSet.not_mem_empty
    · exact hmembers entry hentry f hf
  · obtain ⟨c, hc, hsub⟩ := mem_commonClasses hentry
    show IsFunction based.functionByVa f
    rw [hfunctions]
    exact hmembers c hc f (hsub f hf)

theorem addOntology (h : Linked edges b) : Linked edges b.addOntology := by
  have hrooted : Linked edges b.pushRoot := h.extend ⟨⟨_, rfl⟩, rfl⟩ rfl
  refine h.classes fun entry hentry f hf => ?_
  obtain ⟨base, -, rfl⟩ := List.mem_map.mp hentry
  exact mem_classMembers hrooted hf

/-- The entities are attached to the functions they belong to, and the calls are entered
both ways. -/
theorem buildRelationships (image : Image) (h : Linked [] b) : Linked (neighborsOf image b) (b.buildRelationships image) := by
  have hrows : ∀ e f, Listed (b.buildRelationships image).propagation.surfaceToFuncs e f →
      (∃ entity ∈ b.entities, e = entity.id ∧ f ∈ functionsOf image b entity) ∨
        Listed b.propagation.surfaceToFuncs e f := by
    intro e f
    show Listed (b.entities.foldl _ b.propagation.surfaceToFuncs) e f → _
    generalize b.propagation.surfaceToFuncs = surface
    generalize b.entities = entities
    induction entities generalizing surface with
    | nil => exact .inr
    | cons entity entities ih =>
      intro hlisted
      rcases ih _ hlisted with ⟨other, hother, hf⟩ | hlisted
      · exact .inl ⟨other, List.mem_cons_of_mem _ hother, hf⟩
      · rcases (listed_foldl (fun _ => entity.id) (fun f => f) _).mp hlisted with ⟨g, hg, rfl, rfl⟩ | hlisted
        · exact .inl ⟨entity, List.mem_cons_self, rfl, hg⟩
        · exact .inr hlisted
  refine ⟨fun e f hlisted => ?_, h.hot, fun e f => ?_⟩
  · rcases hrows e f hlisted with ⟨entity, hentity, rfl, hf⟩ | hlisted
    · obtain ⟨i, hi⟩ := List.mem_iff_getElem?.mp hentity
      refine ⟨?_, ?_⟩
      · rw [b.id_eq i entity hi]
        exact (List.getElem?_eq_some_iff.mp hi).1
      · unfold functionsOf at hf
        split at hf
        · cases hf
        · rcases List.mem_append.mp hf with hf | hf
          · obtain ⟨va, -, hva⟩ := Option.bind_eq_some_iff.mp (Option.mem_toList.mp hf)
            exact ⟨va, hva⟩
          · obtain ⟨source, -, hsource⟩ := List.mem_filterMap.mp hf
            obtain ⟨owner, -, howner⟩ := Option.bind_eq_some_iff.mp hsource
            exact ⟨owner, howner⟩
    · exact h.surface e f hlisted
  · show Listed ((neighborsOf image b).foldl _ b.propagation.functionNeighbors) e f ↔ _
    rw [listed_foldl Prod.fst Prod.snd, h.neighbors]
    constructor
    · rintro (⟨edge, hedge, rfl, rfl⟩ | hnone)
      · exact hedge
      · cases hnone
    · exact fun hedge => .inl ⟨(e, f), hedge, rfl, rfl⟩

end Linked

theorem mem_neighborsOf {image : Image} {b : IndexBuilder} {x y : Nat} : (x, y) ∈ neighborsOf image b ↔
    Calls image b.functionByVa x y ∨ Calls image b.functionByVa y x := by
  unfold neighborsOf Calls
  rw [List.mem_flatMap]
  constructor
  · rintro ⟨f, hf, hpair⟩
    obtain ⟨target, htarget, hpair⟩ := List.mem_flatMap.mp hpair
    split at hpair
    · rename_i source callee hsource hcallee
      rcases List.mem_cons.mp hpair with heq | hpair
      · obtain ⟨rfl, rfl⟩ := Prod.mk.inj heq
        exact .inl ⟨f, hf, target, htarget, hsource, hcallee⟩
      · obtain ⟨rfl, rfl⟩ := Prod.mk.inj (List.mem_singleton.mp hpair)
        exact .inr ⟨f, hf, target, htarget, hsource, hcallee⟩
    · cases hpair
  · rintro (⟨f, hf, target, htarget, hsource, hcallee⟩ | ⟨f, hf, target, htarget, hsource, hcallee⟩)
    · refine ⟨f, hf, List.mem_flatMap.mpr ⟨target, htarget, ?_⟩⟩
      rw [hsource, hcallee]
      exact List.mem_cons_self
    · refine ⟨f, hf, List.mem_flatMap.mpr ⟨target, htarget, ?_⟩⟩
      rw [hsource, hcallee]
      exact List.mem_cons_of_mem _ List.mem_cons_self

/-- The hot table repeats rows. -/
theorem getElem?_buildHotTable {config : BelConfig} {b : IndexBuilder} (hnone : b.propagation.hotTable = ∅) {e : Nat}
    {functions : Ids} (h : (b.buildHotTable config)[e]? = some functions) :
    b.propagation.surfaceToFuncs[e]? = some functions := by
  unfold buildHotTable at h
  rw [hnone] at h
  have hfold : ∀ (rows : List (Nat × Ids)) (table : Std.ExtTreeMap Nat Ids), (rows.foldl
      (fun table row => table.insert row.1 row.2) table)[e]? = some functions →
        (e, functions) ∈ rows ∨ table[e]? = some functions := by
    intro rows
    induction rows with
    | nil => exact fun table h => .inr h
    | cons row rows ih =>
      intro table hget
      rcases ih _ hget with hmem | hrow
      · exact .inl (List.mem_cons_of_mem _ hmem)
      · rw [Std.ExtTreeMap.getElem?_insert] at hrow
        split at hrow
        · rename_i heq
          obtain rfl := Std.LawfulEqCmp.eq_of_compare heq
          obtain rfl := Option.some.inj hrow
          exact .inl List.mem_cons_self
        · exact .inr hrow
  rcases hfold _ ∅ h with hmem | hget
  · have hmem := (List.perm_insertionSort _ _).mem_iff.mp (List.mem_of_mem_take hmem)
    exact Std.ExtTreeMap.mem_toList_iff_getElem?_eq_some.mp hmem
  · rw [Std.ExtTreeMap.getElem?_empty] at hget
    cases hget

end IndexBuilder

/-- The relationship tables of an index of an image. -/
structure Links (image : Image) (index : BelIndex) : Prop where
  surface : ∀ e f, Listed index.propagation.surfaceToFuncs e f → e < index.entities.length ∧ IsFunction index.functionByVa f
  hot : ∀ (e : Nat) (functions : Ids), index.propagation.hotTable[e]? = some functions →
    index.propagation.surfaceToFuncs[e]? = some functions
  neighbors : ∀ x y, Listed index.propagation.functionNeighbors x y ↔
    Calls image index.functionByVa x y ∨ Calls image index.functionByVa y x

theorem links_freeze {image : Image} {config : BelConfig} {edges : List (Nat × Nat)} {b : IndexBuilder}
    (h : IndexBuilder.Linked edges b) (hedges : ∀ x y, (x, y) ∈ edges ↔
      Calls image b.functionByVa x y ∨ Calls image b.functionByVa y x) : Links image (b.freeze image config) :=
  ⟨h.surface, fun _ _ hget => IndexBuilder.getElem?_buildHotTable h.hot hget,
    fun x y => (h.neighbors x y).trans (hedges x y)⟩

theorem links_build {image : Image} {p : Project} {config : BelConfig} {index : BelIndex}
    (h : BelIndex.build image p config = .ok index) : Links image index := by
  set b := IndexBuilder.gathered image p with hb
  have hlinked : IndexBuilder.Linked (IndexBuilder.neighborsOf image b) (b.buildRelationships image).addOntology :=
    (((IndexBuilder.linked_contents image p).addMotifs image).buildRelationships image).addOntology
  have hontology := IndexBuilder.Extends.addOntology (b.buildRelationships image)
  have hsyncmers := IndexBuilder.Extends.buildSyncmers config (b.buildRelationships image).addOntology
  rw [build_eq h]
  refine links_freeze (hlinked.extend hsyncmers.toGrows ?_) fun x y => ?_
  · unfold IndexBuilder.buildSyncmers
    split <;> rfl
  · rw [hsyncmers.functionByVa, hontology.functionByVa]
    exact IndexBuilder.mem_neighborsOf

end Windy.Bel
