import Mathlib.Data.Finset.Sort
import Windy.Bel.Index
import Windy.Project.SsaCache

/- The overlay of a project state, its changes and its compaction (`current_annotation_slots`,
   `Overlay::from_project`, `apply_change`, `compact` in `analysis/bel/mod.rs`).

   Every annotation of a project is a slot: a symbol, a comment, a memory card or a type at an
   address. The overlay of a state takes up each slot whose text differs from that of the index, and
   tombstones the entity it replaces; a renamed function keeps its entity and gets an override.
   Embedders change an overlay one annotation at a time, and compaction builds its postings anew
   from the entities that are left.

   The stores of a project are listed by address. Sorting by the slots' keys makes the order of the
   source independent of its hash maps, as it does here.

   Correspondence:
     `current_annotation_slots`, `DataTypeManager::render` ↔ the same
     `Overlay::from_project` ↔ `Overlay.fromProject` (`Overlay.takeUp` for one slot)
     `Overlay::apply_change` ↔ the same
     `Overlay::compact` ↔ `Overlay.compact` (`Overlay.compacted` if not cancelled)
   `cancel.load()` answers anew at each position it is asked at. -/
namespace Windy.Bel

/-! ## The annotations of a project -/

mutual

/-- `DataTypeManager::render`. -/
def render : DataType → Text
  | .void => "void".toList
  | .bool => "bool".toList
  | .int bits => "int".toList ++ (toString bits).toList
  | .uint bits => "uint".toList ++ (toString bits).toList
  | .float => "float".toList
  | .double => "double".toList
  | .ptr pointee => render pointee ++ "*".toList
  | .array elem count => render elem ++ "[".toList ++ (toString count).toList ++ "]".toList
  | .funcPtr params returnType =>
    render returnType ++ "(*)(".toList ++ [','].intercalate (renderAll params) ++ ")".toList
  | .named name => name.toList
  | .unknown bytes => "unknown".toList ++ (toString bytes).toList

def renderAll : List DataType → List Text
  | [] => []
  | ty :: rest => render ty :: renderAll rest

end

structure AnnotationSlot where
  sortKey : Text
  slot : SlotKey
  kind : EntityKind
  display : Text
  va : Option Nat
  functionVa : Option Nat

/-- What the analysis found; no operation changes it. -/
structure Analysis where
  functions : List SsaCache.Function
  entry_inj : (functions.map SsaCache.Function.entryVa).Nodup

/-- `project.function_at(va).map(|function| function.entry_va)`. -/
def Analysis.functionEntry (analysis : Analysis) (va : Nat) : Option Nat :=
  if va ∈ analysis.functions.map SsaCache.Function.entryVa then some va else none

/-- `owner_function_entry`. -/
def Analysis.ownerFunctionEntry (analysis : Analysis) (va : Nat) : Option Nat :=
  analysis.functions.findSome? fun function =>
    if function.blocks.any fun block => block.entryVa ≤ va && va ≤ block.exitVa then some function.entryVa
    else none

/-- A symbol's kind as an entity's. -/
def symbolEntityKind : SymbolKind → EntityKind
  | .import => .import
  | .export => .export
  | .function | .data | .user => .symbol

/-- What a memory card shows: its parts that are not empty. -/
def cardDisplay (card : FunctionMemoryCard) : Text :=
  " | ".toList.intercalate (([(card.purpose.getD "").toList, [' '].intercalate (card.tags.map String.toList),
    [' '].intercalate (card.keyApis.map String.toList), [' '].intercalate (card.keyStrings.map String.toList),
    (card.purity.getD "").toList]).filter (· ≠ []))

def signatureDisplay (signature : FunctionSignature) : Text :=
  signature.name.toList ++ "(".toList ++
    ", ".toList.intercalate (signature.params.map fun param => param.1.toList ++ ": ".toList ++ render param.2) ++
    ") -> ".toList ++ render signature.ret

/-- The addresses of a store in order, with their values. -/
def entriesOf {β : Type} (store : Map β) : List (Nat × β) :=
  (store.keys.sort (· ≤ ·)).filterMap fun va => (store.lookup va).map fun value => (va, value)

/-- The slots of one store. -/
def slotsOf {β : Type} (store : Map β) (code : String) (slotKind : SlotKind) (kind : β → EntityKind)
    (display : β → Text) (functionVa : Nat → Option Nat) : List AnnotationSlot :=
  (entriesOf store).map fun (va, value) =>
    { sortKey := code.toList ++ ':' :: padHex 16 va, slot := { kind := slotKind, va := va },
      kind := kind value, display := display value, va := some va, functionVa := functionVa va }

def currentAnnotationSlots (analysis : Analysis) (p : Project) : List AnnotationSlot :=
  slotsOf p.symbols "00" .symbol (fun symbol => symbolEntityKind symbol.kind) (fun symbol => symbol.name.toList)
      analysis.functionEntry ++
    slotsOf p.comments.byAddr "10" .addressComment (fun _ => .comment) String.toList analysis.ownerFunctionEntry ++
    slotsOf p.comments.byFunction "11" .functionComment (fun _ => .comment) String.toList some ++
    slotsOf p.functionMemory "20" .memoryCard (fun _ => .memoryCard) cardDisplay some ++
    slotsOf p.typedGlobals "30" .globalType (fun _ => .type) render analysis.ownerFunctionEntry ++
    slotsOf p.functionSignatures "31" .functionType (fun _ => .type) signatureDisplay some

theorem mem_entriesOf {β : Type} {store : Map β} {va : Nat} {value : β} :
    (va, value) ∈ entriesOf store ↔ store.lookup va = some value := by
  rw [entriesOf, List.mem_filterMap]
  constructor
  · rintro ⟨key, -, hkey⟩
    obtain ⟨v, hv, heq⟩ := Option.map_eq_some_iff.mp hkey
    obtain ⟨rfl, rfl⟩ := Prod.mk.inj heq
    exact hv
  · intro h
    refine ⟨va, ?_, by rw [h]; rfl⟩
    rw [Finset.mem_sort, Finmap.mem_keys]
    exact Finmap.mem_of_lookup_eq_some h

theorem entriesOf_distinct {β : Type} (store : Map β) : (entriesOf store).Pairwise fun a b => a.1 ≠ b.1 := by
  rw [entriesOf, List.pairwise_filterMap]
  refine (Finset.sort_nodup store.keys _).imp ?_
  intro a b hab x hx y hy
  obtain ⟨v, -, rfl⟩ := Option.map_eq_some_iff.mp hx
  obtain ⟨w, -, rfl⟩ := Option.map_eq_some_iff.mp hy
  exact hab

section Slots
variable {β : Type} {store : Map β} {code : String} {slotKind : SlotKind} {kind : β → EntityKind}
  {display : β → Text} {functionVa : Nat → Option Nat}

theorem mem_slotsOf {s : AnnotationSlot} : s ∈ slotsOf store code slotKind kind display functionVa ↔
    ∃ va value, store.lookup va = some value ∧
      s = { sortKey := code.toList ++ ':' :: padHex 16 va, slot := { kind := slotKind, va := va },
            kind := kind value, display := display value, va := some va, functionVa := functionVa va } := by
  rw [slotsOf, List.mem_map]
  constructor
  · rintro ⟨⟨va, value⟩, hmem, rfl⟩
    exact ⟨va, value, mem_entriesOf.mp hmem, rfl⟩
  · rintro ⟨va, value, hlookup, rfl⟩
    exact ⟨(va, value), mem_entriesOf.mpr hlookup, rfl⟩

theorem slotsOf_kind : ∀ s ∈ slotsOf store code slotKind kind display functionVa, s.slot.kind = slotKind := by
  intro s hs
  obtain ⟨va, value, -, rfl⟩ := mem_slotsOf.mp hs
  rfl

theorem slotsOf_distinct :
    (slotsOf store code slotKind kind display functionVa).Pairwise fun a b => a.slot ≠ b.slot := by
  rw [slotsOf, List.pairwise_map]
  refine (entriesOf_distinct store).imp ?_
  intro a b hab heq
  exact hab (congrArg SlotKey.va heq)

end Slots

/-- Slots with distinct keys, of the given kinds. -/
def DistinctSlots (kinds : List SlotKind) (slots : List AnnotationSlot) : Prop :=
  (slots.Pairwise fun a b => a.slot ≠ b.slot) ∧ ∀ s ∈ slots, s.slot.kind ∈ kinds

theorem DistinctSlots.append {kinds : List SlotKind} {left right : List AnnotationSlot} {kind : SlotKind}
    (hleft : DistinctSlots kinds left) (hright : DistinctSlots [kind] right) (hnew : kind ∉ kinds) :
    DistinctSlots (kind :: kinds) (left ++ right) := by
  refine ⟨List.pairwise_append.mpr ⟨hleft.1, hright.1, ?_⟩, ?_⟩
  · intro a ha b hb heq
    have hkind := List.mem_singleton.mp (hright.2 b hb)
    rw [← heq] at hkind
    exact hnew (hkind ▸ hleft.2 a ha)
  · intro s hs
    rcases List.mem_append.mp hs with hs | hs
    · exact List.mem_cons_of_mem _ (hleft.2 s hs)
    · rw [List.mem_singleton.mp (hright.2 s hs)]
      exact List.mem_cons_self

theorem distinctSlots_slotsOf {β : Type} {store : Map β} {code : String} {slotKind : SlotKind}
    {kind : β → EntityKind} {display : β → Text} {functionVa : Nat → Option Nat} :
    DistinctSlots [slotKind] (slotsOf store code slotKind kind display functionVa) :=
  ⟨slotsOf_distinct, fun s hs => List.mem_singleton.mpr (slotsOf_kind s hs)⟩

/-- No two slots have one key. -/
theorem currentAnnotationSlots_distinct (analysis : Analysis) (p : Project) :
    (currentAnnotationSlots analysis p).Pairwise fun a b => a.slot ≠ b.slot := by
  have hslots : DistinctSlots
      [.functionType, .globalType, .memoryCard, .functionComment, .addressComment, .symbol]
      (currentAnnotationSlots analysis p) := by
    unfold currentAnnotationSlots
    refine DistinctSlots.append ?_ distinctSlots_slotsOf (by decide)
    refine DistinctSlots.append ?_ distinctSlots_slotsOf (by decide)
    refine DistinctSlots.append ?_ distinctSlots_slotsOf (by decide)
    refine DistinctSlots.append ?_ distinctSlots_slotsOf (by decide)
    exact DistinctSlots.append distinctSlots_slotsOf distinctSlots_slotsOf (by decide)
  exact hslots.1

/-- The slots in the order of their keys. -/
def sortedSlots (analysis : Analysis) (p : Project) : List AnnotationSlot :=
  (currentAnnotationSlots analysis p).insertionSort fun left right => left.sortKey ≤ right.sortKey

theorem sortedSlots_perm (analysis : Analysis) (p : Project) :
    (sortedSlots analysis p).Perm (currentAnnotationSlots analysis p) :=
  List.perm_insertionSort _ _

theorem sortedSlots_distinct (analysis : Analysis) (p : Project) :
    (sortedSlots analysis p).Pairwise fun a b => a.slot ≠ b.slot :=
  ((sortedSlots_perm analysis p).pairwise_iff fun h => h.symm).mpr (currentAnnotationSlots_distinct analysis p)

/-! ## The overlay of a state -/

/-- The order of the numeric tables. -/
def sortNumeric (numeric : List (Nat × Nat)) : List (Nat × Nat) :=
  numeric.insertionSort fun left right => left.1 < right.1 ∨ (left.1 = right.1 ∧ left.2 ≤ right.2)

namespace Overlay
variable {index : IndexData}

/-- The text of the index under a slot. -/
def baseDisplay (index : IndexData) (id : Nat) : Option Text := (index.entities[id]?).map Entity.display

/-- The function a renamed symbol stands for, if its entity shows another name. -/
def renamedFunction (index : IndexData) (slot : AnnotationSlot) : Option Nat :=
  if slot.slot.kind = .symbol then
    (index.functionByVa[slot.slot.va]?).filter fun function => baseDisplay index function ≠ some slot.display
  else none

/-- The function's old name is not searched any more; the new one is. -/
def overrideFunction (overlay : Overlay index) (function : Nat) (display : Text) : Overlay index :=
  { overlay with
    surfaceTombstones := overlay.surfaceTombstones.insert function
    displayOverrides := overlay.displayOverrides.insert function display
    normalizedOverrides := overlay.normalizedOverrides.insert function (normalizeAscii display)
    names := post overlay.names (normalizeAscii display) function }

def tombstone (overlay : Overlay index) (id : Nat) : Overlay index :=
  { overlay with tombstones := overlay.tombstones.insert id }

/-- One slot of the loop in `from_project`. -/
def takeUp (overlay : Overlay index) (slot : AnnotationSlot) : Overlay index :=
  let baseId := index.slots slot.slot
  if baseId.any fun id => decide (baseDisplay index id = some slot.display) then overlay
  else
    let overlay := match renamedFunction index slot with
      | some function => overlay.overrideFunction function slot.display
      | none => overlay
    let overlay := match baseId with
      | some id => overlay.tombstone id
      | none => overlay
    overlay.pushEntity slot.kind slot.display (normalizeAscii slot.display) slot.va slot.functionVa

/-- The numeric table in order. -/
def sorted (overlay : Overlay index) : Overlay index := { overlay with numeric := sortNumeric overlay.numeric }

def fromProject (index : IndexData) (analysis : Analysis) (p : Project) : Overlay index :=
  ((sortedSlots analysis p).foldl takeUp (empty index p.opSeq)).sorted

/-! ## Changes -/

end Overlay

inductive AnnotationChange where
  | upsert (kind : EntityKind) (display : Text) (va functionVa : Option Nat) (replaces : Option Nat)
  | tombstone (entityId : Nat)

namespace Overlay
variable {index : IndexData}

def bump (overlay : Overlay index) : Overlay index :=
  { overlay with generation := saturatingAdd overlay.generation 1 }

def applyChange (overlay : Overlay index) : AnnotationChange → Overlay index
  | .upsert kind display va functionVa replaces =>
    let overlay := match replaces with
      | some replaced => overlay.tombstone replaced
      | none => overlay
    ((overlay.pushEntity kind display (normalizeAscii display) va functionVa).bump).sorted
  | .tombstone entityId => ((overlay.tombstone entityId).bump).sorted

/-! ## Compaction -/

/-- The postings of an overlay's own entities. -/
structure Postings where
  names : Std.ExtTreeMap Text Ids
  numeric : List (Nat × Nat)
  surfaceToFuncs : Std.ExtTreeMap Nat Ids
  signatureDeltas : Std.ExtTreeMap Nat Signature

def Postings.none : Postings := { names := ∅, numeric := [], surfaceToFuncs := ∅, signatureDeltas := ∅ }

/-- Adds one entity, under its normalized text. -/
def Postings.add (index : IndexData) (p : Postings) (entry : Entity × Text) : Postings :=
  { names := post p.names entry.2 entry.1.id
    numeric := p.numeric ++ (entry.1.va.map fun value => (value, entry.1.id)).toList
    surfaceToFuncs := match functionOf index entry.1.funcEntry with
      | some function => post p.surfaceToFuncs entry.1.id function
      | .none => p.surfaceToFuncs
    signatureDeltas := match functionOf index entry.1.funcEntry with
      | some function => addDelta index p.signatureDeltas function entry.1.id
      | .none => p.signatureDeltas }

/-- The postings of the entities that are not tombstoned. -/
def livePostings (overlay : Overlay index) : Postings :=
  ((overlay.entities.zip overlay.normalized).filter fun entry => entry.1.id ∉ overlay.tombstones).foldl
    (Postings.add index) .none

/-- The overrides are names too. -/
def overrideNames (overrides : Std.ExtTreeMap Nat Text) (names : Std.ExtTreeMap Text Ids) :
    Std.ExtTreeMap Text Ids :=
  overrides.toList.foldl (fun names entry => post names entry.2 entry.1) names

def compacted (overlay : Overlay index) : Overlay index :=
  let live := overlay.livePostings
  { overlay with
    names := overrideNames overlay.normalizedOverrides live.names
    numeric := sortNumeric live.numeric
    surfaceToFuncs := live.surfaceToFuncs
    signatureDeltas := live.signatureDeltas
    generation := saturatingAdd overlay.generation 1 }

/-- `Overlay::compact`: none when it was cancelled, which leaves the overlay as it is. -/
def compact (overlay : Overlay index) (cancel : Nat → Bool) : Option (Overlay index) :=
  if (List.range overlay.entities.length).any fun position =>
      position % index.config.deadlineCheckInterval = 0 && cancel position then none
  else some overlay.compacted

end Overlay

end Windy.Bel
