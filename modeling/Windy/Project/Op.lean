import Windy.Project.State

/- Serializable, undo-friendly project operations (`project/op.rs`).

   An `Op` is applied by `captureAndApply`, which returns the operation with the previous values
   filled in beside the edited project; `inverse` builds the compensating operation from what was
   captured. A batch applies its children in order and is inverted in reverse order.

   A batch is a tree, but what it does is what its leaves do one after the other: `leaves` lists
   them, and `captureAll_leaves` and `inverse_leaves` turn a statement about operations into one
   about lists of leaves.

   Correspondence:
     `Op::apply_to` / `Op::capture_and_apply` ↔ `Op.captureAndApply`
     the loop over a batch's children ↔ `Op.captureAll`
     `Op::inverse` ↔ the same
   `invalidate_ssa_cache` touches no field of the model. -/
namespace Windy

/-- A single reversible project mutation; the `old` fields hold what the
operation overwrote, once captured. -/
inductive Op where
  | renameSymbol (va : Nat) (name : String) (kind : SymbolKind)
      (oldName : Option String) (oldKind : Option SymbolKind)
  | setComment (va : Nat) (scope : CommentScope) (text : String) (oldText : Option String)
  | setFocus (va : Nat) (oldFocus : Option Nat)
  | setGlobalType (va : Nat) (ty : DataType) (oldTy : Option DataType)
  | setFunctionSignature (va : Nat) (signature : FunctionSignature)
      (oldSignature : Option FunctionSignature)
  | setStackLocalType (functionVa : Nat) (offset : Int) (ty : DataType) (oldTy : Option DataType)
  | setStackLocalName (functionVa : Nat) (offset : Int) (name : String)
      (oldName : Option (Option String))
  | setParamName (functionVa : Nat) (index : Nat) (name : String) (oldName : Option String)
  | setFunctionMemory (va : Nat) (card : FunctionMemoryCard)
      (old : Option (Option FunctionMemoryCard))
  | batch (ops : List Op)

/-! ## The edits -/

namespace Project

/-- `RenameSymbol` with its old name captured: an alias event when there was a
name to replace, then the insertion. -/
def renameSymbol (p : Project) (va : Nat) (name : String) (kind : SymbolKind)
    (oldName : Option String) : Project :=
  { p with
    aliasHistory := p.aliasHistory ++ oldName.toList.map (fun prev =>
      { va := va, oldName := prev, newName := name, source := "user",
        seq := saturatingAdd p.opSeq 1 })
    symbols := p.symbols.insert va { name := name, kind := kind } }

/-- `SetFocus`: only a discovered function can take the focus. -/
def setFocus (p : Project) (va : Nat) : Project :=
  if p.hasFunction va then { p with focus := some va } else p

/-- `function_frames.entry(va).or_default()`. -/
def frameOrDefault (p : Project) (va : Nat) : StackFrame :=
  (p.functionFrames.lookup va).getD StackFrame.default

/-- The frame of `va`, created when missing, with one variable upserted. -/
def upsertFrameVar (p : Project) (va : Nat) (offset : Int)
    (mutate : StackVariable → StackVariable) : Project :=
  { p with functionFrames :=
      p.functionFrames.insert va (upsertStackVar (p.frameOrDefault va) offset mutate) }

/-- The signature of `va`, created when missing, with the parameter list long
enough to hold `index`. -/
def signatureFor (p : Project) (va index : Nat) : FunctionSignature :=
  let sig := (p.functionSignatures.lookup va).getD (p.defaultSignature va)
  { sig with params := extendParams sig.params index }

/-- `SetParamName`. -/
def setParamName (p : Project) (va index : Nat) (name : String) : Project :=
  let sig := p.signatureFor va index
  { p with functionSignatures :=
      p.functionSignatures.insert va { sig with params := Windy.setParamName sig.params index name } }

/-- `SetFunctionMemory`: the clear card removes the entry, any other card is
stored under its key with a fresh stamp. -/
def setFunctionMemory (p : Project) (va : Nat) (card : FunctionMemoryCard) : Project :=
  if card.isClear then { p with functionMemory := p.functionMemory.erase va }
  else { p with functionMemory :=
    p.functionMemory.insert va { card with va := va, updatedSeq := saturatingAdd p.opSeq 1 } }

end Project

theorem Project.setFocus_eq (p : Project) (va : Nat) :
    p.setFocus va = { p with focus := if p.hasFunction va then some va else p.focus } := by
  unfold setFocus; split <;> rfl

theorem Project.setFunctionMemory_eq (p : Project) (va : Nat) (card : FunctionMemoryCard) :
    p.setFunctionMemory va card = { p with
      functionMemory := if card.isClear then p.functionMemory.erase va
        else p.functionMemory.insert va
          { card with va := va, updatedSeq := saturatingAdd p.opSeq 1 } } := by
  unfold setFunctionMemory; split <;> rfl

/-- The name a `SetStackLocalName` stores: an empty name clears it. -/
def localNameOf (name : String) : Option String := if name = "" then none else some name

mutual

/-- `Op::capture_and_apply`: the operation with its old values filled in where
they were missing, and the edited project. -/
def Op.captureAndApply : Op → Project → Op × Project
  | .renameSymbol va name kind oldName oldKind, p =>
    let oldName' := if oldName.isNone then p.symbolName va else oldName
    let oldKind' := if oldName.isNone then (p.symbols.lookup va).map Symbol.kind else oldKind
    (.renameSymbol va name kind oldName' oldKind', p.renameSymbol va name kind oldName')
  | .setComment va scope text oldText, p =>
    let oldText' := if oldText.isNone then p.comments.get va scope else oldText
    (.setComment va scope text oldText', { p with comments := p.comments.set va scope text })
  | .setFocus va oldFocus, p =>
    let oldFocus' := if oldFocus.isNone then p.focus else oldFocus
    (.setFocus va oldFocus', p.setFocus va)
  | .setGlobalType va ty oldTy, p =>
    let oldTy' := if oldTy.isNone then p.typedGlobals.lookup va else oldTy
    (.setGlobalType va ty oldTy', { p with typedGlobals := p.typedGlobals.insert va ty })
  | .setFunctionSignature va signature oldSignature, p =>
    let oldSignature' :=
      if oldSignature.isNone then p.functionSignatures.lookup va else oldSignature
    (.setFunctionSignature va signature oldSignature',
      { p with functionSignatures := p.functionSignatures.insert va signature })
  | .setStackLocalType va offset ty oldTy, p =>
    let oldTy' := if oldTy.isNone then ((p.frameOrDefault va).findVar offset).map StackVariable.ty
      else oldTy
    (.setStackLocalType va offset ty oldTy',
      p.upsertFrameVar va offset (fun v => { v with ty := ty }))
  | .setStackLocalName va offset name oldName, p =>
    let oldName' := if oldName.isNone then
        some (((p.frameOrDefault va).findVar offset).bind StackVariable.name)
      else oldName
    (.setStackLocalName va offset name oldName',
      p.upsertFrameVar va offset (fun v => { v with name := localNameOf name }))
  | .setParamName va index name oldName, p =>
    let oldName' := if oldName.isNone then
        (p.signatureFor va index).params[index]?.map Prod.fst
      else oldName
    (.setParamName va index name oldName', p.setParamName va index name)
  | .setFunctionMemory va card old, p =>
    let old' := if old.isNone then some (p.functionMemory.lookup va) else old
    (.setFunctionMemory va card old', p.setFunctionMemory va card)
  | .batch ops, p =>
    let r := Op.captureAll ops p
    (.batch r.1, r.2)

/-- The children of a batch, applied in order. -/
def Op.captureAll : List Op → Project → List Op × Project
  | [], p => ([], p)
  | op :: rest, p =>
    let r := Op.captureAndApply op p
    let rs := Op.captureAll rest r.2
    (r.1 :: rs.1, rs.2)

end

/-- `Op::apply_to`, the edited project. -/
def Op.applyTo (op : Op) (p : Project) : Project := (op.captureAndApply p).2

/-- `Op::apply_to`, the operation it returns. -/
def Op.applied (op : Op) (p : Project) : Op := (op.captureAndApply p).1

/-- The card whose application removes the entry of `va`. -/
def clearCard (va : Nat) : FunctionMemoryCard :=
  { FunctionMemoryCard.default with va := va, purpose := none, tags := ["__clear__"] }

/-- The signature `inverse` falls back to when none was captured. -/
def emptySignature : FunctionSignature :=
  { name := "", params := [], ret := .void, callingConv := none }

mutual

/-- `Op::inverse`: the compensating operation. -/
def Op.inverse : Op → Option Op
  | .renameSymbol va name kind oldName oldKind =>
    some (.renameSymbol va (oldName.getD "") (oldKind.getD kind) (some name) (some kind))
  | .setComment va scope text oldText =>
    some (.setComment va scope (oldText.getD "") (some text))
  | .setFocus va oldFocus => some (.setFocus (oldFocus.getD va) (some va))
  | .setGlobalType va ty oldTy => some (.setGlobalType va (oldTy.getD (.unknown 0)) (some ty))
  | .setFunctionSignature va signature oldSignature =>
    some (.setFunctionSignature va (oldSignature.getD emptySignature) (some signature))
  | .setStackLocalType va offset ty oldTy =>
    some (.setStackLocalType va offset (oldTy.getD (.unknown 0)) (some ty))
  | .setStackLocalName va offset name oldName =>
    some (.setStackLocalName va offset ((oldName.getD none).getD "") (some (some name)))
  | .setParamName va index name oldName =>
    some (.setParamName va index (oldName.getD "") (some name))
  | .setFunctionMemory va card old =>
    some (match old.getD none with
      | some prev => .setFunctionMemory va prev (some (some card))
      | none => .setFunctionMemory va (clearCard va) (some (some card)))
  | .batch ops =>
    let inverseOps := Op.inverseAll ops
    if inverseOps.isEmpty then none else some (.batch inverseOps)

/-- `ops.iter().rev().filter_map(Op::inverse)`. -/
def Op.inverseAll : List Op → List Op
  | [] => []
  | op :: rest => Op.inverseAll rest ++ (Op.inverse op).toList

end

/-! ## Leaves -/

/-- Whether the operation is a single edit. -/
def Op.isLeaf : Op → Bool
  | .batch _ => false
  | _ => true

mutual

/-- The single edits of an operation, in the order a batch applies them. -/
def Op.leaves : Op → List Op
  | .renameSymbol va name kind oldName oldKind => [.renameSymbol va name kind oldName oldKind]
  | .setComment va scope text oldText => [.setComment va scope text oldText]
  | .setFocus va oldFocus => [.setFocus va oldFocus]
  | .setGlobalType va ty oldTy => [.setGlobalType va ty oldTy]
  | .setFunctionSignature va sig oldSig => [.setFunctionSignature va sig oldSig]
  | .setStackLocalType va offset ty oldTy => [.setStackLocalType va offset ty oldTy]
  | .setStackLocalName va offset name oldName => [.setStackLocalName va offset name oldName]
  | .setParamName va index name oldName => [.setParamName va index name oldName]
  | .setFunctionMemory va card old => [.setFunctionMemory va card old]
  | .batch ops => Op.leavesAll ops

/-- The leaves of a batch's children. -/
def Op.leavesAll : List Op → List Op
  | [] => []
  | op :: rest => Op.leaves op ++ Op.leavesAll rest

end

namespace Op

theorem captureAll_append (xs ys : List Op) (p : Project) :
    captureAll (xs ++ ys) p =
      ((captureAll xs p).1 ++ (captureAll ys (captureAll xs p).2).1,
        (captureAll ys (captureAll xs p).2).2) := by
  induction xs generalizing p with
  | nil => simp [captureAll]
  | cons x xs ih => simp [captureAll, ih]

theorem leavesAll_append (xs ys : List Op) :
    leavesAll (xs ++ ys) = leavesAll xs ++ leavesAll ys := by
  induction xs with
  | nil => simp [leavesAll]
  | cons x xs ih => simp [leavesAll, ih]

theorem inverseAll_append (xs ys : List Op) :
    inverseAll (xs ++ ys) = inverseAll ys ++ inverseAll xs := by
  induction xs with
  | nil => simp [inverseAll]
  | cons x xs ih => simp [inverseAll, ih]

mutual

/-- An operation does what its leaves do in order, and captures what they
capture. -/
theorem captureAll_leaves : ∀ (op : Op) (p : Project),
    captureAll op.leaves p = ((op.captureAndApply p).1.leaves, (op.captureAndApply p).2)
  | .renameSymbol .., _ => by simp [leaves, captureAll, captureAndApply]
  | .setComment .., _ => by simp [leaves, captureAll, captureAndApply]
  | .setFocus .., _ => by simp [leaves, captureAll, captureAndApply]
  | .setGlobalType .., _ => by simp [leaves, captureAll, captureAndApply]
  | .setFunctionSignature .., _ => by simp [leaves, captureAll, captureAndApply]
  | .setStackLocalType .., _ => by simp [leaves, captureAll, captureAndApply]
  | .setStackLocalName .., _ => by simp [leaves, captureAll, captureAndApply]
  | .setParamName .., _ => by simp [leaves, captureAll, captureAndApply]
  | .setFunctionMemory .., _ => by simp [leaves, captureAll, captureAndApply]
  | .batch ops, p => by simp [leaves, captureAndApply, captureAll_leavesAll ops p]

theorem captureAll_leavesAll : ∀ (ops : List Op) (p : Project),
    captureAll (leavesAll ops) p = (leavesAll (captureAll ops p).1, (captureAll ops p).2)
  | [], _ => by simp [leavesAll, captureAll]
  | op :: rest, p => by
    simp [leavesAll, captureAll, captureAll_append, captureAll_leaves op p,
      captureAll_leavesAll rest]

end

mutual

/-- The leaves of the inverse are the inverses of the leaves, last first. -/
theorem leavesAll_inverse : ∀ (op : Op), leavesAll op.inverse.toList = inverseAll op.leaves
  | .renameSymbol .. => by simp [leaves, leavesAll, inverse, inverseAll]
  | .setComment .. => by simp [leaves, leavesAll, inverse, inverseAll]
  | .setFocus .. => by simp [leaves, leavesAll, inverse, inverseAll]
  | .setGlobalType .. => by simp [leaves, leavesAll, inverse, inverseAll]
  | .setFunctionSignature .. => by simp [leaves, leavesAll, inverse, inverseAll]
  | .setStackLocalType .. => by simp [leaves, leavesAll, inverse, inverseAll]
  | .setStackLocalName .. => by simp [leaves, leavesAll, inverse, inverseAll]
  | .setParamName .. => by simp [leaves, leavesAll, inverse, inverseAll]
  | .setFunctionMemory va card old => by
    cases h : old.getD none <;> simp [leaves, leavesAll, inverse, inverseAll, h]
  | .batch ops => by
    have ih := leavesAll_inverseAll ops
    simp only [leaves, inverse]
    split
    · rename_i hempty
      rw [List.isEmpty_iff.mp hempty] at ih
      simpa using ih
    · simpa [leaves, leavesAll] using ih

theorem leavesAll_inverseAll : ∀ (ops : List Op),
    leavesAll (inverseAll ops) = inverseAll (leavesAll ops)
  | [] => by simp [leavesAll, inverseAll]
  | op :: rest => by
    rw [inverseAll, leavesAll_append, leavesAll_inverseAll rest, leavesAll_inverse op, leavesAll,
      inverseAll_append]

end

mutual

theorem isLeaf_of_mem_leaves : ∀ (op : Op), ∀ l ∈ op.leaves, l.isLeaf = true
  | .renameSymbol .. => by simp [leaves, isLeaf]
  | .setComment .. => by simp [leaves, isLeaf]
  | .setFocus .. => by simp [leaves, isLeaf]
  | .setGlobalType .. => by simp [leaves, isLeaf]
  | .setFunctionSignature .. => by simp [leaves, isLeaf]
  | .setStackLocalType .. => by simp [leaves, isLeaf]
  | .setStackLocalName .. => by simp [leaves, isLeaf]
  | .setParamName .. => by simp [leaves, isLeaf]
  | .setFunctionMemory .. => by simp [leaves, isLeaf]
  | .batch ops => by simpa [leaves] using isLeaf_of_mem_leavesAll ops

theorem isLeaf_of_mem_leavesAll : ∀ (ops : List Op), ∀ l ∈ leavesAll ops, l.isLeaf = true
  | [] => by simp [leavesAll]
  | op :: rest => by
    intro l hl
    rcases List.mem_append.mp hl with h | h
    · exact isLeaf_of_mem_leaves op l h
    · exact isLeaf_of_mem_leavesAll rest l h

end

/-- Applying an operation is applying its leaves. -/
theorem applyTo_eq_leaves (op : Op) (p : Project) : op.applyTo p = (captureAll op.leaves p).2 := by
  rw [captureAll_leaves]; rfl

theorem applied_leaves (op : Op) (p : Project) :
    (op.applied p).leaves = (captureAll op.leaves p).1 := by
  rw [captureAll_leaves]; rfl

end Op

end Windy
