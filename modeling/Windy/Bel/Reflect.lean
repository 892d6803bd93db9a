import Windy.Bel.Build
import Windy.Bel.Compact
import Windy.Lib.Differential

/- What an index built at one state of a project shows of a later state, through the overlay of that
   state (`Overlay::from_project` over `BelIndex::build`).

   The index holds one entity for each annotation slot of the state it was built at. The overlay
   takes up what differs. What is then visible is the difference of `Lib/Differential` between the
   two lists of slots, with the display as what is compared.

   What is proved:
     `slotted_build`, `named_build`: the slots and the functions of a built index are
       those of the state it was built at;
     `taken_fromProject`: the overlay of a state;
     `visibleEvidence_eq`: what is visible is the view of the difference;
     `fromProject_reflects_iff`: it is the current annotations, and every function has its
       current name, exactly when no slot is gone, no symbol kept its name but changed its
       kind, and no function was given a name that is shown under another form. -/
namespace Windy.Bel

/-- What a search shows of an annotation. -/
abbrev Evidence := EntityKind × Option Nat × Text

def Entity.evidence (e : Entity) : Evidence := (e.kind, e.va, e.display)

def AnnotationSlot.evidence (s : AnnotationSlot) : Evidence := (s.kind, s.va, s.display)

def slotKinds : List SlotKind :=
  [.symbol, .addressComment, .functionComment, .memoryCard, .globalType, .functionType]

theorem mem_slotKinds (kind : SlotKind) : kind ∈ slotKinds := by
  cases kind <;> decide

/-- Whether an entity stands for a slot. -/
def holdsSlot (slots : SlotKey → Option Nat) (e : Entity) : Bool :=
  e.va.any fun va => slotKinds.any fun kind => slots { kind := kind, va := va } = some e.id

theorem holdsSlot_iff {slots : SlotKey → Option Nat} {e : Entity} : holdsSlot slots e ↔
    ∃ key : SlotKey, e.va = some key.va ∧ slots key = some e.id := by
  simp only [holdsSlot, Option.any_eq_true, List.any_eq_true, decide_eq_true_eq]
  constructor
  · rintro ⟨va, hva, kind, -, hslot⟩
    exact ⟨{ kind := kind, va := va }, hva, hslot⟩
  · rintro ⟨key, hva, hslot⟩
    exact ⟨key.va, hva, key.kind, mem_slotKinds key.kind, hslot⟩

/-- What a lookup shows of an entity; nothing if it is tombstoned. -/
def shownEvidence (index : BelIndex) (overlay : Overlay index) (id : Nat) : Option Evidence :=
  (index.entity overlay id).bind fun e => (index.displayAt overlay id).map fun display => (e.kind, e.va, display)

/-- The evidence of the slot entities that are not tombstoned. -/
def visibleEvidence (index : BelIndex) (overlay : Overlay index) : List Evidence :=
  (index.entities.filter (holdsSlot index.slots) ++ overlay.entities).filterMap fun e =>
    shownEvidence index overlay e.id

theorem shownEvidence_eq {index : BelIndex} {overlay : Overlay index} {e : Entity}
    (hentity : index.entity overlay e.id = some e) (hover : overlay.displayOverrides[e.id]? = none) :
    shownEvidence index overlay e.id = some e.evidence := by
  rw [shownEvidence, hentity, Option.bind_some, IndexData.displayAt, Overlay.displayAt, hover, hentity]
  rfl

/-- The visible evidence is the current annotations, and a function's visible name its
current one. -/
def Reflects (index : BelIndex) (overlay : Overlay index) (analysis : Analysis) (p : Project) : Prop :=
  (visibleEvidence index overlay).Perm ((currentAnnotationSlots analysis p).map AnnotationSlot.evidence) ∧
    ∀ function ∈ analysis.functions, ∃ id, index.functionByVa[function.entryVa]? = some id ∧
      index.displayAt overlay id = some (function.name p).toList

/-! ## The shape of a slot -/

/-- The kinds of entities a slot can hold. -/
def kindFits : SlotKind → EntityKind → Bool
  | .symbol, kind => kind = .symbol || kind = .import || kind = .export
  | .addressComment, kind => kind = .comment
  | .functionComment, kind => kind = .comment
  | .memoryCard, kind => kind = .memoryCard
  | .globalType, kind => kind = .type
  | .functionType, kind => kind = .type

def SlotShape (s : AnnotationSlot) : Prop := s.va = some s.slot.va ∧ kindFits s.slot.kind s.kind

theorem slotShape_of_mem {analysis : Analysis} {p : Project} {s : AnnotationSlot}
    (h : s ∈ currentAnnotationSlots analysis p) : SlotShape s := by
  have hof : ∀ {β : Type} {store : Map β} {code : String} {slotKind : SlotKind} {kind : β → EntityKind}
      {display : β → Text} {functionVa : Nat → Option Nat}, (∀ value, kindFits slotKind (kind value)) →
      s ∈ slotsOf store code slotKind kind display functionVa → SlotShape s := by
    intro β store code slotKind kind display functionVa hfits hs
    obtain ⟨va, value, -, rfl⟩ := mem_slotsOf.mp hs
    exact ⟨rfl, hfits value⟩
  simp only [currentAnnotationSlots, List.mem_append] at h
  rcases h with ((((h | h) | h) | h) | h) | h
  · refine hof (fun value => ?_) h
    cases value.kind <;> rfl
  all_goals exact hof (fun _ => rfl) h

theorem kindFits_ne_function {slotKind : SlotKind} {kind : EntityKind} (h : kindFits slotKind kind) :
    kind ≠ .function := by
  rintro rfl
  cases slotKind <;> cases h

/-- Only the kind of a symbol is not settled by its slot. -/
theorem kind_eq_of_fits {slotKind : SlotKind} {kind kind' : EntityKind} (hne : slotKind ≠ .symbol)
    (h : kindFits slotKind kind) (h' : kindFits slotKind kind') : kind = kind' := by
  cases slotKind with
  | symbol => exact absurd rfl hne
  | _ => exact (of_decide_eq_true h).trans (of_decide_eq_true h').symm

theorem slotKind_symbol_of_fits {slotKind : SlotKind} {kind : EntityKind} (h : kindFits .symbol kind)
    (h' : kindFits slotKind kind) : slotKind = .symbol := by
  cases slotKind with
  | symbol => rfl
  | _ =>
    rw [of_decide_eq_true h'] at h
    cases h

/-! ## What the stages of a build keep -/

namespace IndexBuilder

/-- Entities are only added, and the functions stay. -/
structure Grows (b b' : IndexBuilder) : Prop where
  entities : ∃ more, b'.entities = b.entities ++ more
  functionByVa : b'.functionByVa = b.functionByVa

/-- The slots stay too. -/
structure Extends (b b' : IndexBuilder) : Prop extends Grows b b' where
  slots : b'.slots = b.slots

theorem Grows.getElem? {b b' : IndexBuilder} (h : Grows b b') {i : Nat} {e : Entity}
    (he : b.entities[i]? = some e) : b'.entities[i]? = some e := by
  obtain ⟨more, hmore⟩ := h.entities
  rw [hmore, List.getElem?_append_left (List.getElem?_eq_some_iff.mp he).1]
  exact he

theorem Grows.trans {b b' b'' : IndexBuilder} (h : Grows b b') (h' : Grows b' b'') : Grows b b'' := by
  obtain ⟨more, hmore⟩ := h.entities
  obtain ⟨more', hmore'⟩ := h'.entities
  exact ⟨⟨more ++ more', by rw [hmore', hmore, List.append_assoc]⟩, h'.functionByVa.trans h.functionByVa⟩

theorem Grows.foldl {α : Type} {f : IndexBuilder → α → IndexBuilder} (hf : ∀ b x, Grows b (f b x)) (xs : List α)
    (b : IndexBuilder) : Grows b (xs.foldl f b) := by
  induction xs generalizing b with
  | nil => exact ⟨⟨[], by simp⟩, rfl⟩
  | cons x xs ih => exact (hf b x).trans (ih (f b x))

theorem Grows.pushSlot (b : IndexBuilder) (slot : SlotKey) (kind : EntityKind) (display : Text)
    (va funcEntry : Option Nat) : Grows b (b.pushSlot slot kind display va funcEntry) :=
  ⟨⟨_, rfl⟩, rfl⟩

theorem Grows.addSymbols (p : Project) (b : IndexBuilder) : Grows b (b.addSymbols p) :=
  foldl (fun b _ => pushSlot b _ _ _ _ _) _ b

theorem Grows.addAnnotations (image : Image) (p : Project) (b : IndexBuilder) : Grows b (b.addAnnotations image p) :=
  foldl (fun b _ => pushSlot b _ _ _ _ _) _ b

namespace Extends

theorem refl (b : IndexBuilder) : Extends b b := ⟨⟨⟨[], by simp⟩, rfl⟩, rfl⟩

theorem trans {b b' b'' : IndexBuilder} (h : Extends b b') (h' : Extends b' b'') : Extends b b'' :=
  ⟨h.toGrows.trans h'.toGrows, h'.slots.trans h.slots⟩

theorem foldl {α : Type} {f : IndexBuilder → α → IndexBuilder} (hf : ∀ b x, Extends b (f b x)) (xs : List α)
    (b : IndexBuilder) : Extends b (xs.foldl f b) := by
  induction xs generalizing b with
  | nil => exact refl b
  | cons x xs ih => exact (hf b x).trans (ih (f b x))

theorem pushEntity (b : IndexBuilder) (kind : EntityKind) (display : Text) (va fileOffset funcEntry : Option Nat) :
    Extends b (b.pushEntity kind display va fileOffset funcEntry) :=
  ⟨⟨⟨_, rfl⟩, rfl⟩, rfl⟩

theorem addStrings (image : Image) (b : IndexBuilder) : Extends b (b.addStrings image) :=
  foldl (fun b _ => pushEntity b _ _ _ _ _) _ b

theorem addInstructions (image : Image) (p : Project) (b : IndexBuilder) : Extends b (b.addInstructions image p) := by
  unfold IndexBuilder.addInstructions
  generalize 0 = cursor
  induction image.codeIndex generalizing cursor b with
  | nil => exact refl b
  | cons decoded rest ih =>
    have hstep : Extends b (addInstruction image p (cursor, b) decoded).2 := ⟨⟨⟨_, rfl⟩, rfl⟩, rfl⟩
    exact hstep.trans (ih _ _)

theorem addMotifs (image : Image) (b : IndexBuilder) : Extends b (b.addMotifs image) := by
  refine foldl (fun b rule => ?_) _ b
  unfold addMotif
  split
  · exact refl b
  · exact ⟨⟨⟨_, rfl⟩, rfl⟩, rfl⟩

theorem buildRelationships (image : Image) (b : IndexBuilder) : Extends b (b.buildRelationships image) :=
  ⟨⟨⟨[], by simp [IndexBuilder.buildRelationships]⟩, rfl⟩, rfl⟩

theorem pushClass (b : IndexBuilder) (name : Text) (functions : Ids) : Extends b (b.pushClass name functions) :=
  ⟨⟨⟨_, rfl⟩, rfl⟩, rfl⟩

theorem addOntology (b : IndexBuilder) : Extends b b.addOntology := by
  have hroot : Extends b b.pushRoot := ⟨⟨⟨_, rfl⟩, rfl⟩, rfl⟩
  have hset : ∀ (b : IndexBuilder) id functions, Extends b (b.setFunctions id functions) :=
    fun b id functions => ⟨⟨⟨[], by simp [setFunctions]⟩, rfl⟩, rfl⟩
  refine trans (trans hroot (trans ?_ (hset _ _ _))) (foldl (fun b entry => ?_) _ _)
  · exact foldl (fun b (entry : String × Ids) => pushClass b entry.1.toList entry.2) _ _
  · exact pushClass b entry.1 entry.2

theorem buildSyncmers (config : BelConfig) (b : IndexBuilder) : Extends b (b.buildSyncmers config) := by
  unfold IndexBuilder.buildSyncmers
  split <;> exact ⟨⟨⟨[], by simp⟩, rfl⟩, rfl⟩

end Extends

/-! ## The slots of a build -/

/-- An entity stands for a slot. -/
def StandsFor (b : IndexBuilder) (e : Entity) (s : AnnotationSlot) : Prop :=
  e.evidence = s.evidence ∧ b.slots s.slot = some e.id ∧ b.entities[e.id]? = some e

/-- The slot entities of a builder are those of a list of slots, in order. -/
structure Slotted (ss : List AnnotationSlot) (b : IndexBuilder) : Prop where
  listed : List.Forall₂ (StandsFor b) (b.entities.filter (holdsSlot b.slots)) ss
  keys : ∀ key id, b.slots key = some id → key ∈ ss.map AnnotationSlot.slot
  inj : ∀ key key' id, b.slots key = some id → b.slots key' = some id → key = key'

namespace Slotted

theorem new : Slotted [] IndexBuilder.new := by
  refine ⟨.nil, ?_, ?_⟩
  · intro key id h
    cases h
  · intro key key' id h
    cases h

/-- An entity that comes later stands for no slot of before. -/
theorem holdsSlot_eq_false {b b' : IndexBuilder} {more : List Entity} (hentities : b'.entities = b.entities ++ more)
    {e : Entity} (he : e ∈ more) : holdsSlot b.slots e = false := by
  by_contra h
  obtain ⟨key, -, hslot⟩ := holdsSlot_iff.mp (Bool.not_eq_false _ ▸ h)
  obtain ⟨i, hi⟩ := List.getElem?_of_mem he
  have hid : e.id = b.entities.length + i := by
    apply b'.id_eq
    rw [hentities, List.getElem?_append_right (by omega), Nat.add_sub_cancel_left]
    exact hi
  have hlt := b.slot_lt key e.id hslot
  omega

theorem extend {ss : List AnnotationSlot} {b b' : IndexBuilder} (h : Slotted ss b) (hext : Extends b b') :
    Slotted ss b' := by
  obtain ⟨more, hmore⟩ := hext.entities
  have hfilter : b'.entities.filter (holdsSlot b'.slots) = b.entities.filter (holdsSlot b.slots) := by
    have hnone : more.filter (holdsSlot b.slots) = [] :=
      List.filter_eq_nil_iff.mpr fun e he => by simp [holdsSlot_eq_false hmore he]
    rw [hext.slots, hmore, List.filter_append, hnone, List.append_nil]
  refine ⟨?_, ?_, ?_⟩
  · rw [hfilter]
    refine h.listed.imp fun e s hes => ?_
    exact ⟨hes.1, hext.slots ▸ hes.2.1, hext.toGrows.getElem? hes.2.2⟩
  · rw [hext.slots]
    exact h.keys
  · rw [hext.slots]
    exact h.inj

theorem pushSlot {ss : List AnnotationSlot} {b : IndexBuilder} (h : Slotted ss b) {s : AnnotationSlot}
    (hva : s.va = some s.slot.va) (hnew : s.slot ∉ ss.map AnnotationSlot.slot) (funcEntry : Option Nat) :
    Slotted (ss ++ [s]) (b.pushSlot s.slot s.kind s.display s.va funcEntry) := by
  have hfree : b.slots s.slot = none := by
    cases hslot : b.slots s.slot with
    | none => rfl
    | some id => exact absurd (h.keys _ _ hslot) hnew
  have hother : ∀ key id, id < b.entities.length →
      ((b.pushSlot s.slot s.kind s.display s.va funcEntry).slots key = some id ↔ b.slots key = some id) := by
    intro key id hlt
    show (if key = s.slot then some b.entities.length else b.slots key) = some id ↔ _
    split
    · rename_i hkey
      rw [hkey, hfree]
      constructor
      · intro heq
        have := Option.some.inj heq
        omega
      · intro heq
        cases heq
    · exact Iff.rfl
  have hself : (b.pushSlot s.slot s.kind s.display s.va funcEntry).slots s.slot = some b.entities.length :=
    if_pos rfl
  have hold : b.entities.filter (holdsSlot (b.pushSlot s.slot s.kind s.display s.va funcEntry).slots) =
      b.entities.filter (holdsSlot b.slots) := by
    refine List.filter_congr fun e he => ?_
    obtain ⟨i, hi⟩ := List.getElem?_of_mem he
    have hid := b.id_eq i e hi
    have hlt := (List.getElem?_eq_some_iff.mp hi).1
    rw [Bool.eq_iff_iff, holdsSlot_iff, holdsSlot_iff]
    exact exists_congr fun key => and_congr_right fun _ => hother key e.id (hid ▸ hlt)
  have hgrows := Grows.pushSlot b s.slot s.kind s.display s.va funcEntry
  refine ⟨?_, ?_, ?_⟩
  · show List.Forall₂ _ ((b.entities ++ [_]).filter _) _
    rw [List.filter_append, hold]
    refine List.rel_append (h.listed.imp fun e s' hes => ?_) ?_
    · have hlt := (List.getElem?_eq_some_iff.mp hes.2.2).1
      exact ⟨hes.1, (hother _ _ hlt).mpr hes.2.1, hgrows.getElem? hes.2.2⟩
    · have hholds : holdsSlot (b.pushSlot s.slot s.kind s.display s.va funcEntry).slots
          (b.newEntity s.kind s.display s.va none funcEntry) := holdsSlot_iff.mpr ⟨s.slot, hva, hself⟩
      rw [List.filter_singleton, hholds]
      refine .cons ⟨rfl, hself, ?_⟩ .nil
      show (b.entities ++ [_])[b.entities.length]? = _
      simp
  · intro key id hslot
    rw [List.map_append, List.mem_append]
    by_cases hkey : key = s.slot
    · exact .inr (by simp [hkey])
    · exact .inl (h.keys key id ((if_neg hkey).symm.trans hslot))
  · intro key key' id hslot hslot'
    have hcases : ∀ k, (b.pushSlot s.slot s.kind s.display s.va funcEntry).slots k = some id →
        (k = s.slot ∧ id = b.entities.length) ∨ (b.slots k = some id ∧ id < b.entities.length) := by
      intro k hk
      by_cases hkey : k = s.slot
      · subst hkey
        exact .inl ⟨rfl, (Option.some.inj (hself.symm.trans hk)).symm⟩
      · have hk' := (if_neg hkey).symm.trans hk
        exact .inr ⟨hk', b.slot_lt k id hk'⟩
    rcases hcases key hslot with ⟨hk, hid⟩ | ⟨hk, hid⟩ <;> rcases hcases key' hslot' with ⟨hk', hid'⟩ | ⟨hk', hid'⟩
    · exact hk.trans hk'.symm
    · omega
    · omega
    · exact h.inj key key' id hk hk'

/-- Pushing a list of slots with new, distinct keys. -/
theorem foldl_pushSlot {α : Type} (slotOf : α → AnnotationSlot) (funcEntry : IndexBuilder → α → Option Nat)
    (xs : List α) (hva : ∀ x ∈ xs, (slotOf x).va = some (slotOf x).slot.va) {ss : List AnnotationSlot} {b : IndexBuilder}
    (h : Slotted ss b) (hkeys : ((ss ++ xs.map slotOf).map AnnotationSlot.slot).Nodup) :
    Slotted (ss ++ xs.map slotOf) (xs.foldl (fun b x => b.pushSlot (slotOf x).slot (slotOf x).kind
      (slotOf x).display (slotOf x).va (funcEntry b x)) b) := by
  induction xs generalizing ss b with
  | nil => simpa using h
  | cons x xs ih =>
    have happend : ss ++ (x :: xs).map slotOf = (ss ++ [slotOf x]) ++ xs.map slotOf := by simp
    rw [happend] at hkeys ⊢
    have hnew : (slotOf x).slot ∉ ss.map AnnotationSlot.slot := by
      rw [List.map_append, List.map_append] at hkeys
      have hleft := (List.nodup_append.mp hkeys).1
      intro hmem
      exact (List.nodup_append.mp hleft).2.2 _ hmem _ (by simp) rfl
    exact ih (fun y hy => hva y (List.mem_cons_of_mem x hy))
      (h.pushSlot (hva x List.mem_cons_self) hnew (funcEntry b x)) hkeys

end Slotted

/-! ## The functions of a build -/

/-- The functions of a builder are those of a list, under the names they have in a state. -/
structure Named (p : Project) (fs : List SsaCache.Function) (b : IndexBuilder) : Prop where
  entered : ∀ f ∈ fs, ∃ id e, b.functionByVa[f.entryVa]? = some id ∧ b.entities[id]? = some e ∧
    e.display = (f.name p).toList
  entry : ∀ va id, b.functionByVa[va]? = some id → va ∈ fs.map SsaCache.Function.entryVa ∧
    ∃ e, b.entities[id]? = some e ∧ e.kind = .function

namespace Named

variable {fs : List SsaCache.Function}

theorem grow {p : Project} {b b' : IndexBuilder} (h : Named p fs b)
    (hgrows : Grows b b') : Named p fs b' := by
  refine ⟨?_, ?_⟩
  · intro f hf
    obtain ⟨id, e, hid, he, hname⟩ := h.entered f hf
    exact ⟨id, e, hgrows.functionByVa ▸ hid, hgrows.getElem? he, hname⟩
  · intro va id hid
    obtain ⟨hmem, e, he, hkind⟩ := h.entry va id (hgrows.functionByVa ▸ hid)
    exact ⟨hmem, e, hgrows.getElem? he, hkind⟩

theorem pushFunction {p : Project} {b : IndexBuilder} (h : Named p fs b)
    {f : SsaCache.Function} (hnew : f.entryVa ∉ fs.map SsaCache.Function.entryVa) (last : Nat) :
    Named p (fs ++ [f]) (b.pushFunction (f.name p).toList f.entryVa last) := by
  have hold : ∀ {i : Nat} {e : Entity}, b.entities[i]? = some e →
      (b.pushFunction (f.name p).toList f.entryVa last).entities[i]? = some e := by
    intro i e he
    show (b.entities ++ [_])[i]? = some e
    rw [List.getElem?_append_left (List.getElem?_eq_some_iff.mp he).1]
    exact he
  have hlast : (b.pushFunction (f.name p).toList f.entryVa last).entities[b.entities.length]? =
      some (b.newEntity .function (f.name p).toList (some f.entryVa) none (some f.entryVa)) := by
    show (b.entities ++ [_])[b.entities.length]? = _
    simp
  have hlookup : ∀ va : Nat, (b.pushFunction (f.name p).toList f.entryVa last).functionByVa[va]? =
      if f.entryVa = va then some b.entities.length else b.functionByVa[va]? := by
    intro va
    show (b.functionByVa.insert _ _)[va]? = _
    rw [Std.ExtTreeMap.getElem?_insert]
    simp only [Std.LawfulEqOrd.compare_eq_iff_eq]
  refine ⟨?_, ?_⟩
  · intro g hg
    rcases List.mem_append.mp hg with hg | hg
    · obtain ⟨id, e, hid, he, hname⟩ := h.entered g hg
      have hne : f.entryVa ≠ g.entryVa := fun heq => hnew (heq ▸ List.mem_map_of_mem hg)
      exact ⟨id, e, by rw [hlookup, if_neg hne, hid], hold he, hname⟩
    · obtain rfl := List.mem_singleton.mp hg
      exact ⟨_, _, by rw [hlookup, if_pos rfl], hlast, rfl⟩
  · intro va id hid
    rw [hlookup] at hid
    rw [List.map_append, List.mem_append]
    split at hid
    · rename_i heq
      obtain rfl := Option.some.inj hid
      exact ⟨.inr (by simp [heq]), _, hlast, rfl⟩
    · obtain ⟨hmem, e, he, hkind⟩ := h.entry va id hid
      exact ⟨.inl hmem, e, hold he, hkind⟩

theorem foldl_pushFunction {p : Project} (gs : List SsaCache.Function)
    {b : IndexBuilder} (h : Named p fs b) (hentries : ((fs ++ gs).map SsaCache.Function.entryVa).Nodup) :
    Named p (fs ++ gs) (gs.foldl (fun b f => b.pushFunction (f.name p).toList f.entryVa (functionEnd f)) b) := by
  induction gs generalizing fs b with
  | nil => simpa using h
  | cons f gs ih =>
    have happend : fs ++ f :: gs = (fs ++ [f]) ++ gs := by simp
    rw [happend] at hentries ⊢
    have hnew : f.entryVa ∉ fs.map SsaCache.Function.entryVa := by
      rw [List.map_append, List.map_append] at hentries
      have hleft := (List.nodup_append.mp hentries).1
      intro hmem
      exact (List.nodup_append.mp hleft).2.2 _ hmem _ (by simp) rfl
    exact ih (h.pushFunction hnew (functionEnd f)) hentries

theorem addFunctions (image : Image) (p : Project) :
    Named p image.analysis.functions (IndexBuilder.new.addFunctions image p) := by
  have hnew : Named p [] IndexBuilder.new := by
    refine ⟨by simp, ?_⟩
    intro va id h
    simp [IndexBuilder.new] at h
  have h := foldl_pushFunction image.analysis.functions hnew image.analysis.entry_inj
  exact h.grow ⟨⟨[], by simp [IndexBuilder.addFunctions]⟩, rfl⟩

end Named

/-! ## A built index -/

/-- The slots of a project in the order they are built in: the symbols come first. -/
def builtSlots (analysis : Analysis) (p : Project) : List AnnotationSlot :=
  slotsOf p.symbols "00" .symbol (fun symbol => symbolEntityKind symbol.kind) (fun symbol => symbol.name.toList)
      analysis.functionEntry ++
    (sortedSlots analysis p).filter fun slot => slot.slot.kind ≠ .symbol

theorem filter_symbol (analysis : Analysis) (p : Project) :
    (currentAnnotationSlots analysis p).filter (fun slot => decide (slot.slot.kind = .symbol)) =
      slotsOf p.symbols "00" .symbol (fun symbol => symbolEntityKind symbol.kind)
        (fun symbol => symbol.name.toList) analysis.functionEntry := by
  have hall : ∀ {l : List AnnotationSlot}, (∀ s ∈ l, s.slot.kind = .symbol) →
      l.filter (fun slot => decide (slot.slot.kind = .symbol)) = l := fun h =>
    List.filter_eq_self.mpr fun s hs => decide_eq_true (h s hs)
  have hnone : ∀ {β : Type} (store : Map β) code slotKind kind display functionVa, slotKind ≠ .symbol →
      (slotsOf store code slotKind kind display functionVa).filter
        (fun slot => decide (slot.slot.kind = .symbol)) = [] := by
    intro β store code slotKind kind display functionVa hne
    refine List.filter_eq_nil_iff.mpr fun s hs => ?_
    rw [slotsOf_kind s hs, decide_eq_true_eq]
    exact hne
  simp (disch := decide) only [currentAnnotationSlots, List.filter_append, hall slotsOf_kind, hnone, List.append_nil]

theorem builtSlots_perm (analysis : Analysis) (p : Project) :
    (builtSlots analysis p).Perm (currentAnnotationSlots analysis p) := by
  have hsplit := List.filter_append_perm (fun slot : AnnotationSlot => decide (slot.slot.kind = .symbol))
    (currentAnnotationSlots analysis p)
  rw [filter_symbol] at hsplit
  refine .trans (List.Perm.append_left _ ?_) hsplit
  simpa using (sortedSlots_perm analysis p).filter fun slot => decide (slot.slot.kind ≠ .symbol)

theorem builtSlots_nodup (analysis : Analysis) (p : Project) :
    ((builtSlots analysis p).map AnnotationSlot.slot).Nodup := by
  rw [((builtSlots_perm analysis p).map _).nodup_iff, List.Nodup, List.pairwise_map]
  exact currentAnnotationSlots_distinct analysis p

theorem slotShape_of_built {analysis : Analysis} {p : Project} {s : AnnotationSlot} (h : s ∈ builtSlots analysis p) :
    SlotShape s :=
  slotShape_of_mem ((builtSlots_perm analysis p).mem_iff.mp h)

/-- The symbols' slots. -/
theorem Slotted.addSymbols (analysis : Analysis) (p : Project) {b : IndexBuilder} (h : Slotted [] b) :
    Slotted (slotsOf p.symbols "00" .symbol (fun symbol => symbolEntityKind symbol.kind)
      (fun symbol => symbol.name.toList) analysis.functionEntry) (b.addSymbols p) := by
  refine foldl_pushSlot _ _ (entriesOf p.symbols) (fun _ _ => rfl) h ?_
  have hnodup := builtSlots_nodup analysis p
  rw [builtSlots, List.map_append] at hnodup
  exact (List.nodup_append.mp hnodup).1

/-- The slots of the other annotations. -/
theorem Slotted.addAnnotations {image : Image} {p : Project} {b : IndexBuilder}
    (h : Slotted (slotsOf p.symbols "00" .symbol (fun symbol => symbolEntityKind symbol.kind)
      (fun symbol => symbol.name.toList) image.analysis.functionEntry) b) :
    Slotted (builtSlots image.analysis p) (b.addAnnotations image p) := by
  have hva : ∀ s ∈ (sortedSlots image.analysis p).filter fun slot => slot.slot.kind ≠ .symbol,
      s.va = some s.slot.va := fun s hs =>
    (slotShape_of_built (List.mem_append_right _ hs)).1
  have hslots := foldl_pushSlot id (fun _ slot => slot.functionVa)
    ((sortedSlots image.analysis p).filter fun slot => slot.slot.kind ≠ .symbol) hva h
    (by rw [List.map_id]; exact builtSlots_nodup image.analysis p)
  rw [List.map_id] at hslots
  exact hslots

theorem addFunctions_slots (image : Image) (p : Project) (b : IndexBuilder) : (b.addFunctions image p).slots = b.slots := by
  have hfold : ∀ (gs : List SsaCache.Function) (b : IndexBuilder), (gs.foldl (fun b f =>
      b.pushFunction (f.name p).toList f.entryVa (functionEnd f)) b).slots = b.slots := by
    intro gs
    induction gs with
    | nil => exact fun b => rfl
    | cons g gs ih => exact fun b => ih _
  exact hfold _ _

theorem Slotted.addFunctions (image : Image) (p : Project) : Slotted [] (IndexBuilder.new.addFunctions image p) := by
  have hslots : (IndexBuilder.new.addFunctions image p).slots = fun _ => none :=
    addFunctions_slots image p IndexBuilder.new
  refine ⟨?_, ?_, ?_⟩
  · have hnone : (IndexBuilder.new.addFunctions image p).entities.filter
        (holdsSlot (IndexBuilder.new.addFunctions image p).slots) = [] :=
      List.filter_eq_nil_iff.mpr fun e _ => by simp [hslots, holdsSlot_iff]
    rw [hnone]
    exact .nil
  · simp [hslots]
  · simp [hslots]

/-- What comes after the annotations pushes no slot. -/
theorem Extends.rest (image : Image) (config : BelConfig) (b : IndexBuilder) :
    Extends b (((b.addMotifs image).buildRelationships image).addOntology.buildSyncmers config) :=
  (Extends.addMotifs image b).trans ((Extends.buildRelationships image _).trans
    ((Extends.addOntology _).trans (Extends.buildSyncmers config _)))

/-- The strings and the instructions push no slot. -/
theorem Extends.contents (image : Image) (p : Project) (b : IndexBuilder) :
    Extends b ((b.addStrings image).addInstructions image p) :=
  (Extends.addStrings image b).trans (Extends.addInstructions image p _)

theorem slotted_finish (image : Image) (p : Project) (config : BelConfig) :
    Slotted (builtSlots image.analysis p)
      (((gathered image p).buildRelationships image).addOntology.buildSyncmers config) := by
  unfold gathered
  have hsymbols := (Slotted.addFunctions image p).addSymbols image.analysis p
  have hslots := (hsymbols.extend (Extends.contents image p _)).addAnnotations
  exact hslots.extend (Extends.rest image config _)

theorem named_finish (image : Image) (p : Project) (config : BelConfig) :
    Named p image.analysis.functions
      (((gathered image p).buildRelationships image).addOntology.buildSyncmers config) := by
  unfold gathered
  have hinstructions := (Named.addFunctions image p).grow
    ((Grows.addSymbols p _).trans (Extends.contents image p _).toGrows)
  exact hinstructions.grow ((Grows.addAnnotations image p _).trans (Extends.rest image config _).toGrows)

end IndexBuilder

/-- An index holds the slots and the functions of a state. -/
structure Built (analysis : Analysis) (p : Project) (index : BelIndex) : Prop where
  listed : List.Forall₂ (fun e s => e.evidence = s.evidence ∧ index.slots s.slot = some e.id ∧
    index.entities[e.id]? = some e) (index.entities.filter (holdsSlot index.slots))
      (IndexBuilder.builtSlots analysis p)
  keys : ∀ key id, index.slots key = some id → key ∈ (IndexBuilder.builtSlots analysis p).map AnnotationSlot.slot
  inj : ∀ key key' id, index.slots key = some id → index.slots key' = some id → key = key'
  entered : ∀ f ∈ analysis.functions, ∃ id e, index.functionByVa[f.entryVa]? = some id ∧
    index.entities[id]? = some e ∧ e.display = (f.name p).toList
  entry : ∀ va id, index.functionByVa[va]? = some id → va ∈ analysis.functions.map SsaCache.Function.entryVa ∧
    ∃ e, index.entities[id]? = some e ∧ e.kind = .function

theorem build_eq {image : Image} {p : Project} {config : BelConfig} {index : BelIndex}
    (h : BelIndex.build image p config = .ok index) : index = (IndexBuilder.gathered image p).finish image config := by
  unfold BelIndex.build at h
  cases hvalid : config.validate with
  | error e =>
    rw [hvalid] at h
    cases h
  | ok _ =>
    rw [hvalid] at h
    simp only [bind, Except.bind] at h
    split at h
    · cases h
    · exact (Except.ok.inj h).symm

theorem built_freeze {image : Image} {p : Project} {config : BelConfig} {b : IndexBuilder}
    (hslotted : IndexBuilder.Slotted (IndexBuilder.builtSlots image.analysis p) b)
    (hnamed : IndexBuilder.Named p image.analysis.functions b) : Built image.analysis p (b.freeze image config) :=
  ⟨hslotted.listed, hslotted.keys, hslotted.inj, hnamed.entered, hnamed.entry⟩

theorem built_of_build {image : Image} {p : Project} {config : BelConfig} {index : BelIndex}
    (h : BelIndex.build image p config = .ok index) : Built image.analysis p index := by
  rw [build_eq h]
  exact built_freeze (IndexBuilder.slotted_finish image p config) (IndexBuilder.named_finish image p config)

/-! ## The overlay of a state -/

/-- Whether a slot shows something else than the index does. -/
def changed (index : BelIndex) (s : AnnotationSlot) : Bool :=
  !(index.slots s.slot).any fun id => decide (Overlay.baseDisplay index id = some s.display)

/-- What an overlay holds when a list of slots was taken up. -/
structure Taken {index : BelIndex} (done : List AnnotationSlot) (overlay : Overlay index) : Prop where
  entities : overlay.entities.map Entity.evidence = (done.filter (changed index)).map AnnotationSlot.evidence
  tombstones : ∀ id, id ∈ overlay.tombstones ↔ ∃ s ∈ done, changed index s ∧ index.slots s.slot = some id
  overrides : ∀ (id : Nat) (display : Text), overlay.displayOverrides[id]? = some display ↔
    ∃ s ∈ done, changed index s ∧ Overlay.renamedFunction index s = some id ∧ s.display = display

namespace Taken
variable {index : BelIndex} {overlay : Overlay index}

theorem renamedFunction_slot {s s' : AnnotationSlot} {id : Nat} (h : Overlay.renamedFunction index s = some id)
    (h' : Overlay.renamedFunction index s' = some id) : s.slot = s'.slot := by
  have hof : ∀ {s : AnnotationSlot}, Overlay.renamedFunction index s = some id →
      s.slot.kind = .symbol ∧ index.functionByVa[s.slot.va]? = some id := by
    intro s h
    unfold Overlay.renamedFunction at h
    split at h
    · rename_i hkind
      exact ⟨hkind, (Option.filter_eq_some_iff.mp h).1⟩
    · cases h
  obtain ⟨hkind, hva⟩ := hof h
  obtain ⟨hkind', hva'⟩ := hof h'
  cases hs : s.slot
  cases hs' : s'.slot
  simp only [hs, hs'] at hkind hva hkind' hva'
  rw [hkind, hkind', index.function_inj _ _ _ hva hva']

theorem takeUp_unchanged {s : AnnotationSlot} (h : changed index s = false) :
    overlay.takeUp s = overlay := by
  unfold changed at h
  unfold Overlay.takeUp
  rw [if_pos (by simpa using h)]

/-- A slot that differs. -/
theorem takeUp_changed {s : AnnotationSlot} (h : changed index s) :
    (overlay.takeUp s).entities.map Entity.evidence = overlay.entities.map Entity.evidence ++ [s.evidence] ∧
      (∀ id, id ∈ (overlay.takeUp s).tombstones ↔ id ∈ overlay.tombstones ∨ index.slots s.slot = some id) ∧
      ∀ id : Nat, (overlay.takeUp s).displayOverrides[id]? =
        if Overlay.renamedFunction index s = some id then some s.display else overlay.displayOverrides[id]? := by
  unfold changed at h
  unfold Overlay.takeUp
  rw [if_neg (by simpa using h)]
  have hpush : ∀ (o : Overlay index), (o.pushEntity s.kind s.display (normalizeAscii s.display) s.va
      s.functionVa).entities.map Entity.evidence = o.entities.map Entity.evidence ++ [s.evidence] := by
    intro o
    simp [Overlay.pushEntity, Overlay.newEntity, Entity.evidence, AnnotationSlot.evidence]
  have htombstone : ∀ (o : Overlay index) id x, x ∈ (o.tombstone id).tombstones ↔ x ∈ o.tombstones ∨ some id = some x := by
    intro o id x
    show x ∈ o.tombstones.insert id ↔ _
    rw [Std.ExtTreeSet.mem_insert, Std.LawfulEqOrd.compare_eq_iff_eq, Option.some_inj, or_comm]
  have hoverride : ∀ (o : Overlay index) (function x : Nat),
      (o.overrideFunction function s.display).displayOverrides[x]? =
        if some function = some x then some s.display else o.displayOverrides[x]? := by
    intro o function x
    show (o.displayOverrides.insert function s.display)[x]? = _
    rw [Std.ExtTreeMap.getElem?_insert]
    simp only [Std.LawfulEqOrd.compare_eq_iff_eq, Option.some_inj]
  refine ⟨?_, ?_, ?_⟩
  · rw [hpush]
    cases Overlay.renamedFunction index s <;> cases index.slots s.slot <;> rfl
  · intro id
    cases hslot : index.slots s.slot with
    | none =>
      cases Overlay.renamedFunction index s <;> simp [Overlay.pushEntity, Overlay.overrideFunction]
    | some base =>
      cases Overlay.renamedFunction index s with
      | none => exact htombstone overlay base id
      | some function => exact htombstone (overlay.overrideFunction function s.display) base id
  · intro id
    cases hfunction : Overlay.renamedFunction index s with
    | none => cases index.slots s.slot <;> simp [Overlay.pushEntity, Overlay.tombstone]
    | some function =>
      cases index.slots s.slot with
      | none => exact hoverride overlay function id
      | some base => exact hoverride overlay function id

theorem takeUp {done : List AnnotationSlot} (h : Taken done overlay) {s : AnnotationSlot}
    (hnew : ∀ d ∈ done, d.slot ≠ s.slot) : Taken (done ++ [s]) (overlay.takeUp s) := by
  cases hchanged : changed index s with
  | false =>
    rw [takeUp_unchanged hchanged]
    refine ⟨?_, ?_, ?_⟩
    · simp [h.entities, hchanged]
    · intro id
      simp [h.tombstones id, hchanged, or_and_right, exists_or]
    · intro id display
      simp [h.overrides id display, hchanged, or_and_right, exists_or]
  | true =>
    obtain ⟨hentities, htombstones, hoverrides⟩ := @takeUp_changed index overlay s hchanged
    refine ⟨?_, ?_, ?_⟩
    · rw [hentities, h.entities]
      simp [hchanged]
    · intro id
      rw [htombstones, h.tombstones id]
      simp [hchanged, or_and_right, exists_or]
    · intro id display
      rw [hoverrides]
      split
      · rename_i hfunction
        constructor
        · intro heq
          exact ⟨s, by simp, hchanged, hfunction, Option.some.inj heq⟩
        · rintro ⟨d, hd, -, hrenamed, rfl⟩
          rcases List.mem_append.mp hd with hd | hd
          · exact absurd (renamedFunction_slot hrenamed hfunction) (hnew d hd)
          · rw [List.mem_singleton.mp hd]
      · rename_i hfunction
        simp [h.overrides id display, hfunction, or_and_right, exists_or]

theorem foldl_takeUp (slots : List AnnotationSlot) {done : List AnnotationSlot}
    (h : Taken done overlay) (hdistinct : (done ++ slots).Pairwise fun a b => a.slot ≠ b.slot) :
    Taken (done ++ slots) (slots.foldl Overlay.takeUp overlay) := by
  induction slots generalizing done overlay with
  | nil => simpa using h
  | cons s slots ih =>
    have happend : done ++ s :: slots = (done ++ [s]) ++ slots := by simp
    rw [happend] at hdistinct ⊢
    refine ih (h.takeUp fun d hd => ?_) hdistinct
    exact (List.pairwise_append.mp (List.pairwise_append.mp hdistinct).1).2.2 d hd s (by simp)

theorem override_function {slots : List AnnotationSlot} (h : Taken slots overlay) {id : Nat}
    {display : Text} (hover : overlay.displayOverrides[id]? = some display) :
    ∃ va : Nat, index.functionByVa[va]? = some id := by
  obtain ⟨t, -, -, hrenamed, -⟩ := (h.overrides id display).mp hover
  unfold Overlay.renamedFunction at hrenamed
  split at hrenamed
  · exact ⟨_, (Option.filter_eq_some_iff.mp hrenamed).1⟩
  · cases hrenamed

theorem sorted {slots : List AnnotationSlot} (h : Taken slots overlay) :
    Taken slots overlay.sorted :=
  ⟨h.entities, h.tombstones, h.overrides⟩

end Taken

theorem taken_fromProject (index : BelIndex) (analysis : Analysis) (p : Project) :
    Taken (sortedSlots analysis p) (Overlay.fromProject index analysis p) := by
  have hempty : Taken [] (Overlay.empty index p.opSeq) := by
    refine ⟨rfl, ?_, ?_⟩
    · intro id
      simp [Overlay.empty]
    · intro id display
      simp [Overlay.empty]
  exact (Taken.foldl_takeUp (sortedSlots analysis p) hempty (sortedSlots_distinct analysis p)).sorted

/-! ## What is visible -/

/-- Slots are compared by what they show. -/
def sameDisplay (s t : AnnotationSlot) : Bool := s.display = t.display

namespace Built
variable {analysis : Analysis} {p0 : Project} {index : BelIndex} (h : Built analysis p0 index)
include h

/-- The entity of a slot of the state the index was built at. -/
theorem slot_entity {s : AnnotationSlot} (hs : s ∈ IndexBuilder.builtSlots analysis p0) :
    ∃ e : Entity, e.evidence = s.evidence ∧ index.slots s.slot = some e.id ∧ index.entities[e.id]? = some e := by
  have hall := h.listed
  generalize index.entities.filter (holdsSlot index.slots) = entities at hall
  generalize IndexBuilder.builtSlots analysis p0 = slots at hall hs
  induction hall with
  | nil => cases hs
  | cons hes _ ih =>
    rcases List.mem_cons.mp hs with rfl | hs
    · exact ⟨_, hes⟩
    · exact ih hs

theorem entity_slot {key : SlotKey} {id : Nat} (hslot : index.slots key = some id) :
    ∃ s ∈ IndexBuilder.builtSlots analysis p0, s.slot = key ∧
      ∃ e : Entity, e.evidence = s.evidence ∧ e.id = id ∧ index.entities[id]? = some e := by
  obtain ⟨s, hs, rfl⟩ := List.mem_map.mp (h.keys key id hslot)
  obtain ⟨e, hevidence, hid, he⟩ := h.slot_entity hs
  obtain rfl := Option.some.inj (hid.symm.trans hslot)
  exact ⟨s, hs, rfl, e, hevidence, rfl, he⟩

theorem changed_iff {t : AnnotationSlot} : changed index t ↔
    ∀ s ∈ IndexBuilder.builtSlots analysis p0, s.slot = t.slot → s.display ≠ t.display := by
  unfold changed
  constructor
  · intro hchanged s hs hslot hdisplay
    obtain ⟨e, hevidence, hid, he⟩ := h.slot_entity hs
    have hshown : e.display = s.display := congrArg (fun ev : Evidence => ev.2.2) hevidence
    rw [← hslot, hid] at hchanged
    simp [Overlay.baseDisplay, he, hshown, hdisplay] at hchanged
  · intro hall
    cases hslot : index.slots t.slot with
    | none => rfl
    | some id =>
      obtain ⟨s, hs, hkey, e, hevidence, rfl, he⟩ := h.entity_slot hslot
      have hshown : e.display = s.display := congrArg (fun ev : Evidence => ev.2.2) hevidence
      have hne := hall s hs hkey
      simpa [Overlay.baseDisplay, he, hshown] using hne

/-- A slot's entity is not a function. -/
theorem slot_ne_function {key : SlotKey} {va id : Nat} (hslot : index.slots key = some id)
    (hfunction : index.functionByVa[va]? = some id) : False := by
  obtain ⟨s, hs, -, e, hevidence, -, he⟩ := h.entity_slot hslot
  obtain ⟨-, e', he', hkind⟩ := h.entry va id hfunction
  obtain rfl := Option.some.inj (he.symm.trans he')
  have hkind' : e.kind = s.kind := congrArg (fun ev : Evidence => ev.1) hevidence
  exact kindFits_ne_function (IndexBuilder.slotShape_of_built hs).2 (hkind'.symm.trans hkind)

variable {p1 : Project} {overlay : Overlay index} (htaken : Taken (sortedSlots analysis p1) overlay)
include htaken

/-- A slot of before is visible unless the overlay shows another text under its key. -/
theorem visible_slot {e : Entity} {s : AnnotationSlot} (hs : s ∈ IndexBuilder.builtSlots analysis p0)
    (hevidence : e.evidence = s.evidence) (hslot : index.slots s.slot = some e.id)
    (he : index.entities[e.id]? = some e) :
    shownEvidence index overlay e.id =
      if (sortedSlots analysis p1).all (fun t => t.slot ≠ s.slot || sameDisplay s t) then some s.evidence else none := by
  have hshown : e.display = s.display := congrArg (fun ev : Evidence => ev.2.2) hevidence
  have htombstone : e.id ∈ overlay.tombstones ↔
      ¬ (sortedSlots analysis p1).all (fun t => t.slot ≠ s.slot || sameDisplay s t) := by
    rw [htaken.tombstones, List.all_eq_true]
    push Not
    refine exists_congr fun t => and_congr_right fun _ => ?_
    constructor
    · rintro ⟨hchanged, hid⟩
      have hkey := h.inj _ _ _ hid hslot
      have hne := (h.changed_iff.mp hchanged) s hs hkey.symm
      simp [hkey, sameDisplay, hne]
    · intro hnot
      simp only [sameDisplay, ne_eq, Bool.or_eq_true, decide_eq_true_eq, not_or, not_not] at hnot
      refine ⟨h.changed_iff.mpr fun s' hs' hkey' => ?_, hnot.1 ▸ hslot⟩
      have heq := List.inj_on_of_nodup_map (IndexBuilder.builtSlots_nodup analysis p0) hs' hs (hkey'.trans hnot.1)
      rw [heq]
      exact hnot.2
  have hover : overlay.displayOverrides[e.id]? = none := by
    cases hover : overlay.displayOverrides[e.id]? with
    | none => rfl
    | some display =>
      obtain ⟨va, hva⟩ := htaken.override_function hover
      exact (h.slot_ne_function hslot hva).elim
  by_cases hkept : (sortedSlots analysis p1).all (fun t => t.slot ≠ s.slot || sameDisplay s t)
  · have hnot : e.id ∉ overlay.tombstones := fun hmem => htombstone.mp hmem hkept
    have hentity : index.entity overlay e.id = some e := by
      rw [IndexData.entity, if_neg hnot, he]
      rfl
    rw [if_pos hkept, shownEvidence_eq hentity hover, hevidence]
  · have hmem : e.id ∈ overlay.tombstones := htombstone.mpr hkept
    rw [if_neg hkept, shownEvidence, IndexData.entity, if_pos hmem]
    rfl

/-- The overlay's own entities are all visible. -/
theorem visible_own {e : Entity} (he : e ∈ overlay.entities) :
    shownEvidence index overlay e.id = some e.evidence := by
  obtain ⟨i, hi⟩ := List.getElem?_of_mem he
  have hid := overlay.id_eq i e hi
  have hbase := overlay.base_eq
  have hnot : e.id ∉ overlay.tombstones := by
    intro hmem
    obtain ⟨t, -, -, hslot⟩ := (htaken.tombstones e.id).mp hmem
    have hlt := index.slot_lt _ _ hslot
    omega
  have hover : overlay.displayOverrides[e.id]? = none := by
    cases hover : overlay.displayOverrides[e.id]? with
    | none => rfl
    | some display =>
      obtain ⟨va, hva⟩ := htaken.override_function hover
      obtain ⟨-, e', he', -⟩ := h.entry va e.id hva
      have hlt := (List.getElem?_eq_some_iff.mp he').1
      omega
  have hentity : index.entity overlay e.id = some e := by
    have hnone : index.entities[e.id]? = none := List.getElem?_eq_none (by omega)
    rw [IndexData.entity, if_neg hnot, hnone, Option.none_or, Overlay.entity, if_neg (by omega), hid,
      Nat.add_sub_cancel_left]
    exact hi
  exact shownEvidence_eq hentity hover

/-- What is visible is the view of the difference between the two states. -/
theorem visibleEvidence_eq : visibleEvidence index overlay =
    (Differential.view AnnotationSlot.slot sameDisplay (IndexBuilder.builtSlots analysis p0)
      (sortedSlots analysis p1)).map AnnotationSlot.evidence := by
  have hbase : ∀ {entities : List Entity} {slots : List AnnotationSlot},
      List.Forall₂ (fun (e : Entity) (s : AnnotationSlot) => e.evidence = s.evidence ∧
        index.slots s.slot = some e.id ∧ index.entities[e.id]? = some e) entities slots →
      slots ⊆ IndexBuilder.builtSlots analysis p0 →
      (entities.filterMap fun e => shownEvidence index overlay e.id) =
        (slots.filter fun s => (sortedSlots analysis p1).all fun t => t.slot ≠ s.slot || sameDisplay s t).map
          AnnotationSlot.evidence := by
    intro entities slots hall hsubset
    induction hall with
    | nil => rfl
    | @cons e s _ _ hes _ ih =>
      have hs := hsubset List.mem_cons_self
      have ih' := ih fun x hx => hsubset (List.mem_cons_of_mem _ hx)
      rw [List.filterMap_cons, h.visible_slot htaken hs hes.1 hes.2.1 hes.2.2, List.filter_cons]
      by_cases hkept : (sortedSlots analysis p1).all fun t => t.slot ≠ s.slot || sameDisplay s t
      · rw [if_pos hkept, if_pos hkept, List.map_cons, ih']
      · rw [if_neg hkept, if_neg hkept, ih']
  have hown : (overlay.entities.filterMap fun e => shownEvidence index overlay e.id) =
        (Differential.fresh AnnotationSlot.slot sameDisplay (IndexBuilder.builtSlots analysis p0)
          (sortedSlots analysis p1)).map AnnotationSlot.evidence := by
    rw [List.filterMap_congr fun e he => h.visible_own htaken he]
    show overlay.entities.filterMap (some ∘ Entity.evidence) = _
    rw [List.filterMap_eq_map, htaken.entities]
    refine congrArg _ (List.filter_congr fun t _ => ?_)
    rw [Bool.eq_iff_iff, h.changed_iff, List.all_eq_true]
    refine forall₂_congr fun s _ => ?_
    simp [sameDisplay, imp_iff_not_or]
  rw [visibleEvidence, List.filterMap_append, hbase h.listed fun _ hx => hx, hown, ← List.map_append]
  rfl

end Built

/-! ## The symbol at an address -/

/-- The symbols are the slots of their kind. -/
theorem mem_symbol_slots {analysis : Analysis} {p : Project} {t : AnnotationSlot} :
    (t ∈ currentAnnotationSlots analysis p ∧ t.slot.kind = .symbol) ↔ ∃ va symbol, p.symbols.lookup va = some symbol ∧
      t = { sortKey := "00".toList ++ ':' :: padHex 16 va, slot := { kind := .symbol, va := va },
            kind := symbolEntityKind symbol.kind, display := symbol.name.toList, va := some va,
            functionVa := analysis.functionEntry va } := by
  have hfilter := congrArg (fun l => t ∈ l) (IndexBuilder.filter_symbol analysis p)
  simp only [List.mem_filter, decide_eq_true_eq, mem_slotsOf] at hfilter
  exact hfilter.to_iff

/-- What the slot of a symbol shows. -/
theorem symbol_slot {analysis : Analysis} {p : Project} {va : Nat} {display : Text} :
    (∃ t ∈ currentAnnotationSlots analysis p, t.slot = { kind := .symbol, va := va } ∧ t.display = display) ↔
      (p.symbolName va).map String.toList = some display := by
  constructor
  · rintro ⟨t, ht, hslot, rfl⟩
    obtain ⟨va', symbol, hlookup, rfl⟩ := mem_symbol_slots.mp ⟨ht, by rw [hslot]⟩
    obtain rfl : va' = va := congrArg SlotKey.va hslot
    simp [Project.symbolName, hlookup]
  · intro h
    obtain ⟨name, hname, rfl⟩ := Option.map_eq_some_iff.mp h
    obtain ⟨symbol, hlookup, rfl⟩ := Option.map_eq_some_iff.mp hname
    have hmem := (@mem_symbol_slots analysis p _).mpr ⟨va, symbol, hlookup, rfl⟩
    exact ⟨_, hmem.1, rfl, rfl⟩

namespace Built
variable {analysis : Analysis} {p0 p1 : Project} {index : BelIndex} (h : Built analysis p0 index)
  {overlay : Overlay index} (htaken : Taken (sortedSlots analysis p1) overlay)
include h htaken

/-- A function's override is the name of its symbol, if the index has neither that symbol
nor that name for the function. -/
theorem override_iff {f : SsaCache.Function} {id : Nat} (hid : index.functionByVa[f.entryVa]? = some id)
    (hbase : Overlay.baseDisplay index id = some (f.name p0).toList) (display : Text) :
    overlay.displayOverrides[id]? = some display ↔ (p1.symbolName f.entryVa).map String.toList = some display ∧
      ¬ (p0.symbolName f.entryVa).map String.toList = some display ∧ (f.name p0).toList ≠ display := by
  rw [htaken.overrides, ← @symbol_slot analysis p1, ← @symbol_slot analysis p0]
  constructor
  · rintro ⟨t, ht, hchanged, hrenamed, rfl⟩
    unfold Overlay.renamedFunction at hrenamed
    split at hrenamed
    · rename_i hkind
      obtain ⟨hva, hne⟩ := Option.filter_eq_some_iff.mp hrenamed
      have hslot : t.slot = { kind := .symbol, va := f.entryVa } := by
        cases hs : t.slot
        simp only [hs] at hkind hva
        rw [hkind, index.function_inj _ _ _ hva hid]
      refine ⟨⟨t, (sortedSlots_perm analysis p1).mem_iff.mp ht, hslot, rfl⟩, ?_, ?_⟩
      · rintro ⟨s, hs, hkey, hsame⟩
        exact h.changed_iff.mp hchanged s ((IndexBuilder.builtSlots_perm analysis p0).mem_iff.mpr hs)
          (hkey.trans hslot.symm) hsame
      · intro heq
        simp [hbase, heq] at hne
    · cases hrenamed
  · rintro ⟨⟨t, ht, hslot, rfl⟩, hold, hne⟩
    refine ⟨t, (sortedSlots_perm analysis p1).mem_iff.mpr ht, h.changed_iff.mpr ?_, ?_, rfl⟩
    · intro s hs hkey hsame
      exact hold ⟨s, (IndexBuilder.builtSlots_perm analysis p0).mem_iff.mp hs, hkey.trans hslot, hsame⟩
    · rw [Overlay.renamedFunction, hslot, if_pos rfl, hid, Option.filter_some, if_pos]
      simpa [hbase] using hne

/-- A function shows the name of its symbol if that is new, and else its name in the
index. -/
theorem displayAt_function {f : SsaCache.Function} (hf : f ∈ analysis.functions) :
    ∃ id, index.functionByVa[f.entryVa]? = some id ∧ index.displayAt overlay id = some (
      match p1.symbolName f.entryVa with
      | some name => if p0.symbolName f.entryVa = some name then (f.name p0).toList else name.toList
      | none => (f.name p0).toList) := by
  obtain ⟨id, e, hid, he, hname⟩ := h.entered f hf
  refine ⟨id, hid, ?_⟩
  have hbase : Overlay.baseDisplay index id = some (f.name p0).toList := by
    rw [Overlay.baseDisplay, he, Option.map_some, hname]
  -- the entity of a function is not tombstoned
  have hentity : index.entity overlay id = some e := by
    have hnot : id ∉ overlay.tombstones := by
      intro hmem
      obtain ⟨t, -, -, hslot⟩ := (htaken.tombstones id).mp hmem
      exact h.slot_ne_function hslot hid
    rw [IndexData.entity, if_neg hnot, he]
    rfl
  have hdisplay : index.displayAt overlay id = (overlay.displayOverrides[id]?).or (some (f.name p0).toList) := by
    rw [IndexData.displayAt, Overlay.displayAt, hentity, Option.map_some, hname]
  have hover := h.override_iff htaken hid hbase
  rw [hdisplay]
  cases hsymbol : p1.symbolName f.entryVa with
  | none =>
    have hnone : overlay.displayOverrides[id]? = none := by
      rw [Option.eq_none_iff_forall_ne_some]
      intro display hsome
      have := ((hover display).mp hsome).1
      rw [hsymbol] at this
      cases this
    rw [hnone]
    rfl
  | some name =>
    simp only [hsymbol, Option.map_some, Option.some_inj] at hover
    by_cases hold : p0.symbolName f.entryVa = some name
    · have hnone : overlay.displayOverrides[id]? = none := by
        rw [Option.eq_none_iff_forall_ne_some]
        intro display hsome
        obtain ⟨rfl, hne, -⟩ := (hover display).mp hsome
        exact hne (by rw [hold]; rfl)
      simp [hnone, hold]
    · have hne : (p0.symbolName f.entryVa).map String.toList ≠ some name.toList := by
        intro heq
        obtain ⟨name', hname', htoList⟩ := Option.map_eq_some_iff.mp heq
        exact hold (hname'.trans (congrArg some (String.toList_inj.mp htoList)))
      by_cases hsame : (f.name p0).toList = name.toList
      · have hnone : overlay.displayOverrides[id]? = none := by
          rw [Option.eq_none_iff_forall_ne_some]
          intro display hsome
          obtain ⟨rfl, -, hdiff⟩ := (hover display).mp hsome
          exact hdiff hsame
        simp [hnone, hold, hsame]
      · have hsome := (hover name.toList).mpr ⟨rfl, hne, hsame⟩
        simp [hsome, hold]

end Built

/-! ## When the annotations are current -/

/-- What may have changed since the index was built. -/
structure Followed (analysis : Analysis) (p0 p1 : Project) : Prop where
  /-- No annotation is gone. -/
  slots : ∀ s ∈ currentAnnotationSlots analysis p0, ∃ t ∈ currentAnnotationSlots analysis p1, t.slot = s.slot
  /-- A symbol that kept its name is shown as the same kind. -/
  kinds : ∀ va s t, p0.symbols.lookup va = some s → p1.symbols.lookup va = some t → s.name = t.name →
    symbolEntityKind s.kind = symbolEntityKind t.kind
  /-- No function got a name of the legacy form. -/
  names : ∀ f ∈ analysis.functions, ∀ name, p1.symbolName f.entryVa = some name →
    "sub_".toList.isPrefixOf name.toList → p0.symbolName f.entryVa = some name

theorem function_name_congr {f : SsaCache.Function} {p q : Project} (h : p.symbolName f.entryVa = q.symbolName f.entryVa) :
    f.name p = f.name q := by
  simp only [SsaCache.Function.name, h]

/-- A name is current as it stands unless it has the legacy form. -/
theorem function_name_eq_iff {f : SsaCache.Function} {p : Project} {name : String}
    (h : p.symbolName f.entryVa = some name) : name.toList = (f.name p).toList ↔ ¬ "sub_".toList.isPrefixOf name.toList := by
  simp only [SsaCache.Function.name, h, Option.getD_some]
  split
  · rename_i hlegacy
    refine iff_of_false (fun heq => ?_) (fun hnot => hnot hlegacy)
    have hhead := congrArg List.head? heq
    obtain ⟨rest, hrest⟩ := List.isPrefixOf_iff_prefix.mp hlegacy
    rw [← hrest, String.toList_append] at hhead
    simp at hhead
  · rename_i hlegacy
    exact iff_of_true rfl hlegacy

theorem Built.names_iff {analysis : Analysis} {p0 p1 : Project} {index : BelIndex} (h : Built analysis p0 index)
    {overlay : Overlay index} (htaken : Taken (sortedSlots analysis p1) overlay)
    (hslots : ∀ s ∈ currentAnnotationSlots analysis p0, ∃ t ∈ currentAnnotationSlots analysis p1, t.slot = s.slot) :
    (∀ f ∈ analysis.functions, ∃ id, index.functionByVa[f.entryVa]? = some id ∧
        index.displayAt overlay id = some (f.name p1).toList) ↔
      ∀ f ∈ analysis.functions, ∀ name, p1.symbolName f.entryVa = some name →
        "sub_".toList.isPrefixOf name.toList → p0.symbolName f.entryVa = some name := by
  refine forall₂_congr fun f hf => ?_
  obtain ⟨id, hid, hdisplay⟩ := h.displayAt_function htaken hf
  have hexists : (∃ id, index.functionByVa[f.entryVa]? = some id ∧
      index.displayAt overlay id = some (f.name p1).toList) ↔ index.displayAt overlay id = some (f.name p1).toList := by
    constructor
    · rintro ⟨id', hid', hname⟩
      rwa [Option.some.inj (hid'.symm.trans hid)] at hname
    · exact fun hname => ⟨id, hid, hname⟩
  rw [hexists, hdisplay, Option.some_inj]
  cases hsymbol : p1.symbolName f.entryVa with
  | none =>
    -- the symbol was not there before either: its slot would be gone
    have hnone : p0.symbolName f.entryVa = none := by
      by_contra hne
      obtain ⟨name, hname⟩ := Option.ne_none_iff_exists'.mp hne
      obtain ⟨s, hs, hslot, -⟩ := (@symbol_slot analysis p0 f.entryVa name.toList).mpr (by rw [hname]; rfl)
      obtain ⟨t, ht, hkey⟩ := hslots s hs
      have := (@symbol_slot analysis p1 f.entryVa t.display).mp ⟨t, ht, hkey.trans hslot, rfl⟩
      rw [hsymbol] at this
      cases this
    exact iff_of_true (by rw [function_name_congr (hnone.trans hsymbol.symm)]) (fun _ h => by cases h)
  | some name =>
    by_cases hold : p0.symbolName f.entryVa = some name
    · refine iff_of_true ?_ ?_
      · simp only [hold, if_true]
        rw [function_name_congr (hold.trans hsymbol.symm)]
      · rintro name' hname' -
        rw [hold, hname']
    · simp only [hold, if_false]
      rw [function_name_eq_iff hsymbol]
      constructor
      · intro hlegacy name' hname' hlegacy'
        obtain rfl := Option.some.inj hname'
        exact absurd hlegacy' hlegacy
      · intro hall hlegacy
        exact hold (hall name rfl hlegacy)

/-- The kinds of the symbols' slots are those of the symbols. -/
theorem kinds_iff {analysis : Analysis} {p0 p1 : Project} :
    (∀ va s t, p0.symbols.lookup va = some s → p1.symbols.lookup va = some t → s.name = t.name →
      symbolEntityKind s.kind = symbolEntityKind t.kind) ↔
    ∀ s ∈ currentAnnotationSlots analysis p0, ∀ t ∈ currentAnnotationSlots analysis p1, t.slot = s.slot →
      s.display = t.display → s.evidence = t.evidence := by
  constructor
  · intro hkinds s hs t ht hslot hdisplay
    have hshape := slotShape_of_mem hs
    have hshape' := slotShape_of_mem ht
    have hva : s.va = t.va := by rw [hshape.1, hshape'.1, hslot]
    have hkind : s.kind = t.kind := by
      by_cases hsymbol : s.slot.kind = .symbol
      · obtain ⟨va, symbol, hlookup, rfl⟩ := mem_symbol_slots.mp ⟨hs, hsymbol⟩
        obtain ⟨va', symbol', hlookup', rfl⟩ := mem_symbol_slots.mp ⟨ht, hslot ▸ hsymbol⟩
        obtain rfl : va' = va := congrArg SlotKey.va hslot
        exact hkinds va' symbol symbol' hlookup hlookup' (String.toList_inj.mp hdisplay)
      · exact kind_eq_of_fits hsymbol hshape.2 (hslot ▸ hshape'.2)
    simp only [AnnotationSlot.evidence, hva, hkind, hdisplay]
  · intro hslots va s t hs ht hname
    have hs' := (@mem_symbol_slots analysis p0 _).mpr ⟨va, s, hs, rfl⟩
    have ht' := (@mem_symbol_slots analysis p1 _).mpr ⟨va, t, ht, rfl⟩
    have hevidence := hslots _ hs'.1 _ ht'.1 rfl (congrArg String.toList hname)
    exact congrArg (fun ev : Evidence => ev.1) hevidence

theorem sortedSlots_nodup (analysis : Analysis) (p : Project) :
    ((sortedSlots analysis p).map AnnotationSlot.slot).Nodup := by
  rw [List.Nodup, List.pairwise_map]
  exact sortedSlots_distinct analysis p

/-- The evidence is current exactly when no slot is gone and no symbol changed its kind
under its name. -/
theorem Built.evidence_iff {analysis : Analysis} {p0 p1 : Project} {index : BelIndex} (h : Built analysis p0 index)
    {overlay : Overlay index} (htaken : Taken (sortedSlots analysis p1) overlay) :
    (visibleEvidence index overlay).Perm ((currentAnnotationSlots analysis p1).map AnnotationSlot.evidence) ↔
      (∀ s ∈ currentAnnotationSlots analysis p0, ∃ t ∈ currentAnnotationSlots analysis p1, t.slot = s.slot) ∧
      ∀ s ∈ currentAnnotationSlots analysis p0, ∀ t ∈ currentAnnotationSlots analysis p1, t.slot = s.slot →
        s.display = t.display → s.evidence = t.evidence := by
  have hbase := fun s : AnnotationSlot => (IndexBuilder.builtSlots_perm analysis p0).mem_iff (a := s)
  have hcurrent := fun s : AnnotationSlot => (sortedSlots_perm analysis p1).mem_iff (a := s)
  have hsorted := (sortedSlots_perm analysis p1).map AnnotationSlot.evidence
  rw [h.visibleEvidence_eq htaken, ← hsorted.congr_right]
  simp only [← hbase, ← hcurrent]
  constructor
  · intro hperm
    have hlength := hperm.length_eq
    rw [List.length_map, List.length_map] at hlength
    have hslots := Differential.key_of_view_length (sortedSlots_nodup analysis p1) hlength
    refine ⟨hslots, fun s hs t ht hkey hdisplay => ?_⟩
    -- the old slot is visible, so its evidence is that of a current slot
    have hkept : s ∈ Differential.kept AnnotationSlot.slot sameDisplay (IndexBuilder.builtSlots analysis p0)
        (sortedSlots analysis p1) :=
      Differential.mem_kept_of_same (sortedSlots_nodup analysis p1) hs ht hkey (decide_eq_true hdisplay)
    obtain ⟨t', ht', hevidence⟩ := List.mem_map.mp (hperm.subset
      (List.mem_map_of_mem (List.mem_append_left _ hkept)))
    have hshape := IndexBuilder.slotShape_of_built hs
    have hshape' := slotShape_of_mem ((hcurrent t').mp ht')
    have hkind : t'.kind = s.kind := congrArg (fun ev : Evidence => ev.1) hevidence
    have hva : t'.va = s.va := congrArg (fun ev : Evidence => ev.2.1) hevidence
    by_cases hsymbol : s.slot.kind = .symbol
    · have hsymbol' : t'.slot.kind = .symbol :=
        slotKind_symbol_of_fits (hsymbol ▸ hshape.2) (hkind ▸ hshape'.2)
      have hslot : t'.slot = t.slot := by
        rw [hshape'.1, hshape.1] at hva
        have hva' := Option.some.inj hva
        rw [hkey]
        cases hs' : s.slot
        cases ht'' : t'.slot
        simp_all
      obtain rfl := List.inj_on_of_nodup_map (sortedSlots_nodup analysis p1) ht' ht hslot
      exact hevidence.symm
    · have hshapet := slotShape_of_mem ((hcurrent t).mp ht)
      have hkind' := kind_eq_of_fits hsymbol hshape.2 (hkey ▸ hshapet.2)
      have hva' : s.va = t.va := by rw [hshape.1, hshapet.1, hkey]
      simp only [AnnotationSlot.evidence, hva', hkind', hdisplay]
  · rintro ⟨hslots, hlike⟩
    exact Differential.view_perm (IndexBuilder.builtSlots_nodup analysis p0) (sortedSlots_nodup analysis p1) hslots
      fun s hs t ht hkey hsame => hlike s hs t ht hkey (of_decide_eq_true hsame)

/-- The overlay of a state reflects its annotations over an index of another state exactly
when nothing changed between them that the overlay cannot show. -/
theorem fromProject_reflects_iff {image : Image} {p0 : Project} {config : BelConfig} {index : BelIndex}
    (hbuild : BelIndex.build image p0 config = .ok index) (p1 : Project) :
    Reflects index (Overlay.fromProject index image.analysis p1) image.analysis p1 ↔
      Followed image.analysis p0 p1 := by
  have hbuilt := built_of_build hbuild
  have htaken := taken_fromProject index image.analysis p1
  rw [Reflects, hbuilt.evidence_iff htaken]
  constructor
  · rintro ⟨⟨hslots, hlike⟩, hnames⟩
    exact ⟨hslots, kinds_iff.mpr hlike, (hbuilt.names_iff htaken hslots).mp hnames⟩
  · intro hfollowed
    exact ⟨⟨hfollowed.slots, kinds_iff.mp hfollowed.kinds⟩,
      (hbuilt.names_iff htaken hfollowed.slots).mpr hfollowed.names⟩

/-! ## Small indexes -/

namespace IndexBuilder

theorem length_foldl_pushClass {α : Type} (nameOf : α → Text) (functionsOf : α → Ids) (entries : List α)
    (b : IndexBuilder) : (entries.foldl (fun b entry => b.pushClass (nameOf entry) (functionsOf entry)) b).entities.length =
      b.entities.length + entries.length := by
  induction entries generalizing b with
  | nil => rfl
  | cons entry entries ih =>
    have hpush : (b.pushClass (nameOf entry) (functionsOf entry)).entities.length = b.entities.length + 1 :=
      List.length_append
    rw [List.foldl_cons, ih, hpush, List.length_cons]
    omega

theorem length_commonClasses_le (classes : List (String × Ids)) :
    (commonClasses classes).length ≤ classes.length * classes.length := by
  induction classes with
  | nil => exact Nat.le_refl 0
  | cons first rest ih =>
    have hsquare : (rest.length + 1) * (rest.length + 1) = rest.length * rest.length + rest.length + (rest.length + 1) := by
      rw [Nat.succ_mul, Nat.mul_succ]
    rw [commonClasses, List.length_append, List.length_cons, hsquare]
    refine (Nat.add_le_add (List.length_filterMap_le _ rest) ih).trans ?_
    omega

/-- Beyond what was gathered there are the classes. -/
theorem length_finish_le (image : Image) (config : BelConfig) (b : IndexBuilder) :
    (b.finish image config).entities.length ≤ b.entities.length + 57 := by
  have hsyncmers : ∀ b : IndexBuilder, (b.buildSyncmers config).entities = b.entities := by
    intro b
    unfold buildSyncmers
    split <;> rfl
  have hroot : (b.buildRelationships image).pushRoot.entities.length = b.entities.length + 1 := List.length_append
  show (((b.buildRelationships image).addOntology).buildSyncmers config).entities.length ≤ _
  rw [hsyncmers, addOntology, length_foldl_pushClass, setFunctions, length_foldl_pushClass, hroot]
  refine (Nat.add_le_add_left (length_commonClasses_le _) _).trans ?_
  rw [List.length_map, show ontologyClasses.length = 7 from rfl]

end IndexBuilder

/-! An image with one function, which is renamed; and one with a card, which is cleared. -/

theorem build_ok {image : Image} {p : Project} {config : BelConfig} (hvalid : config.validate = .ok ())
    (hlength : ((IndexBuilder.gathered image p).finish image config).entities.length ≤ 2 ^ 32) :
    BelIndex.build image p config = .ok ((IndexBuilder.gathered image p).finish image config) := by
  simp only [BelIndex.build, hvalid, bind, Except.bind]
  rw [if_neg (by omega)]

theorem build_of_small {image : Image} {p : Project} (hsmall : (IndexBuilder.gathered image p).entities.length ≤ 1024) :
    BelIndex.build image p .default = .ok ((IndexBuilder.gathered image p).finish image .default) := by
  have hfinish := IndexBuilder.length_finish_le image .default (IndexBuilder.gathered image p)
  exact build_ok rfl (by omega)

def mainFunction : SsaCache.Function := { entryVa := 0x1000, blocks := [], signature := none }

def smallImage (functions : List SsaCache.Function)
    (hentries : (functions.map SsaCache.Function.entryVa).Nodup) : Image :=
  { analysis := { functions := functions, entry_inj := hentries }, strings := [], offsetToVa := fun _ => none,
    codeIndex := [], format := fun _ _ => [], xrefsTo := fun _ => [], outgoing := fun _ => [],
    successors := fun _ _ => [], instrCount := fun _ _ => 0, imageSha256 := [] }

theorem entriesOf_empty {β : Type} : entriesOf (∅ : Map β) = [] := by
  simp [entriesOf]

theorem entriesOf_singleton {β : Type} (va : Nat) (value : β) :
    entriesOf ((∅ : Map β).insert va value) = [(va, value)] := by
  have hkeys : ((∅ : Map β).insert va value).keys = {va} := by
    ext key
    simp [Finmap.mem_keys, Finmap.mem_insert, Finmap.notMem_empty]
  rw [entriesOf, hkeys, Finset.sort_singleton]
  simp [Finmap.lookup_insert]

def parserCard : FunctionMemoryCard := { FunctionMemoryCard.default with va := 0x1000, purpose := some "parses" }

def cardProject : Project :=
  { bareProject with functionMemory := (∅ : Map FunctionMemoryCard).insert 0x1000 parserCard }

theorem sortedSlots_bare (analysis : Analysis) : sortedSlots analysis bareProject = [] := by
  simp [sortedSlots, currentAnnotationSlots, slotsOf, bareProject, entriesOf_empty]

theorem sortedSlots_card (analysis : Analysis) : sortedSlots analysis cardProject =
    [{ sortKey := "20:0000000000001000".toList, slot := { kind := .memoryCard, va := 0x1000 }, kind := .memoryCard,
       display := "parses".toList, va := some 0x1000, functionVa := some 0x1000 }] := by
  simp only [sortedSlots, currentAnnotationSlots, slotsOf, cardProject, bareProject, entriesOf_empty,
    entriesOf_singleton, List.map_nil, List.map_cons, List.nil_append, List.append_nil]
  rfl

/-- A function that got a name is shown under it. -/
theorem fromProject_reflects_rename :
    ∃ index, BelIndex.build (smallImage [mainFunction] (by decide)) bareProject BelConfig.default = .ok index ∧
      Reflects index (Overlay.fromProject index (smallImage [mainFunction] (by decide)).analysis
          ((Op.renameSymbol 0x1000 "main" .user none none).applyTo bareProject))
        (smallImage [mainFunction] (by decide)).analysis
        ((Op.renameSymbol 0x1000 "main" .user none none).applyTo bareProject) := by
  have hsmall : (IndexBuilder.gathered (smallImage [mainFunction] (by decide)) bareProject).entities.length ≤ 1024 := by
    simp only [IndexBuilder.gathered, IndexBuilder.addSymbols, IndexBuilder.addAnnotations, sortedSlots_bare]
    rw [show entriesOf bareProject.symbols = [] from entriesOf_empty]
    decide +kernel
  have hbuild := build_of_small hsmall
  refine ⟨_, hbuild, (fromProject_reflects_iff hbuild _).mpr ⟨?_, ?_, ?_⟩⟩
  · intro s hs
    rw [← (sortedSlots_perm _ _).mem_iff, sortedSlots_bare] at hs
    cases hs
  · intro va s t hs
    simp [bareProject] at hs
  · intro f hf name hname hlegacy
    obtain rfl := List.mem_singleton.mp hf
    obtain rfl : "main" = name := by
      simpa [Op.applyTo, Op.captureAndApply, Project.renameSymbol, Project.symbolName, mainFunction] using hname
    cases hlegacy

/-- A card that was cleared is still shown. -/
theorem fromProject_shows_cleared_card :
    ∃ index, BelIndex.build (smallImage [] List.nodup_nil) cardProject BelConfig.default = .ok index ∧
      ¬ Reflects index (Overlay.fromProject index (smallImage [] List.nodup_nil).analysis
          ((Op.setFunctionMemory 0x1000 (clearCard 0x1000) none).applyTo cardProject))
        (smallImage [] List.nodup_nil).analysis
        ((Op.setFunctionMemory 0x1000 (clearCard 0x1000) none).applyTo cardProject) := by
  have hsmall : (IndexBuilder.gathered (smallImage [] List.nodup_nil) cardProject).entities.length ≤ 1024 := by
    simp only [IndexBuilder.gathered, IndexBuilder.addSymbols, IndexBuilder.addAnnotations, sortedSlots_card]
    rw [show entriesOf cardProject.symbols = [] from entriesOf_empty]
    decide +kernel
  have hbuild := build_of_small hsmall
  refine ⟨_, hbuild, fun hreflects => ?_⟩
  have hslots := (((built_of_build hbuild).evidence_iff (taken_fromProject _ _ _)).mp hreflects.1).1
  have hcleared : (Op.setFunctionMemory 0x1000 (clearCard 0x1000) none).applyTo cardProject = bareProject := by
    have herase : ((∅ : Map FunctionMemoryCard).insert 0x1000 parserCard).erase 0x1000 = ∅ := by
      refine Finmap.ext_lookup fun va => ?_
      by_cases hva : va = 0x1000
      · rw [hva, Finmap.lookup_erase, Finmap.lookup_empty]
      · rw [Finmap.lookup_erase_ne hva, Finmap.lookup_insert_of_ne _ hva]
    have hset : (Op.setFunctionMemory 0x1000 (clearCard 0x1000) none).applyTo cardProject =
        cardProject.setFunctionMemory 0x1000 (clearCard 0x1000) := by
      simp [Op.applyTo, Op.captureAndApply]
    rw [hset, Project.setFunctionMemory_eq, if_pos (by decide)]
    rw [show cardProject.functionMemory = (∅ : Map FunctionMemoryCard).insert 0x1000 parserCard from rfl, herase]
    rfl
  obtain ⟨t, ht, -⟩ := hslots _ ((sortedSlots_perm _ _).mem_iff.mp (by rw [sortedSlots_card]; exact List.mem_cons_self))
  rw [hcleared, ← (sortedSlots_perm _ _).mem_iff, sortedSlots_bare] at ht
  cases ht

end Windy.Bel
