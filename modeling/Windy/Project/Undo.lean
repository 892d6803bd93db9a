import Windy.Project.Op
import Windy.Lib.UndoLog

/- Undo: applying an operation and then its inverse (`Op::apply_to`, `Op::inverse`, `undo_one`).

   `inverse` re-inserts what was captured and has no way to say "absent": a missing symbol, comment,
   type or signature comes back as an empty or default one, a created stack variable or parameter
   stays, and only the memory store has a card that removes. `Undoable` says, of the state an
   operation starts from, when none of that happens, and `undo_restores_iff` that it is exactly then
   that the round trip restores the annotation stores.

   The leaves of the operation are the events of `UndoLog`: `applyTo` moves forward and `back`
   undoes one leaf with what it captured. -/
namespace Windy

namespace Op

/-- Undo one leaf: the inverse of what it captured in `s`, applied to `t`. -/
def back (op : Op) (s t : Project) : Project := (captureAll (op.applied s).inverse.toList t).2

/-- The round trip over a list of leaves. -/
abbrev undone (s : Project) (ls : List Op) : Project := UndoLog.undone applyTo back s ls

theorem captureAll_inverseAll (ls : List Op) (s : Project) :
    (captureAll (inverseAll (captureAll ls s).1) (captureAll ls s).2).2 = undone s ls := by
  induction ls generalizing s with
  | nil => simp [captureAll, inverseAll, UndoLog.undone]
  | cons op rest ih =>
    have ih := ih (op.captureAndApply s).2
    simp only [captureAll, inverseAll, captureAll_append, UndoLog.undone, back, applied]
    rw [ih]
    rfl

/-- Applying an operation and then its inverse is the round trip over its
leaves. -/
theorem inverse_applyTo {op inv : Op} {s : Project} (h : (op.applied s).inverse = some inv) :
    inv.applyTo (op.applyTo s) = undone s op.leaves := by
  have hleaves : inv.leaves = inverseAll (captureAll op.leaves s).1 := by
    have := leavesAll_inverse (op.applied s)
    rw [h, applied_leaves] at this
    simpa [leavesAll] using this
  rw [applyTo_eq_leaves inv, applyTo_eq_leaves op, hleaves, captureAll_inverseAll]

mutual

/-- No old value has been captured yet. -/
def uncaptured : Op → Bool
  | .renameSymbol _ _ _ oldName oldKind => oldName.isNone && oldKind.isNone
  | .setComment _ _ _ oldText => oldText.isNone
  | .setFocus _ oldFocus => oldFocus.isNone
  | .setGlobalType _ _ oldTy => oldTy.isNone
  | .setFunctionSignature _ _ oldSignature => oldSignature.isNone
  | .setStackLocalType _ _ _ oldTy => oldTy.isNone
  | .setStackLocalName _ _ _ oldName => oldName.isNone
  | .setParamName _ _ _ oldName => oldName.isNone
  | .setFunctionMemory _ _ old => old.isNone
  | .batch ops => uncapturedAll ops

def uncapturedAll : List Op → Bool
  | [] => true
  | op :: rest => uncaptured op && uncapturedAll rest

end

mutual

theorem uncaptured_leaves : ∀ (op : Op), op.uncaptured = true → ∀ l ∈ op.leaves, l.uncaptured = true
  | .renameSymbol .. => by simp [leaves]
  | .setComment .. => by simp [leaves]
  | .setFocus .. => by simp [leaves]
  | .setGlobalType .. => by simp [leaves]
  | .setFunctionSignature .. => by simp [leaves]
  | .setStackLocalType .. => by simp [leaves]
  | .setStackLocalName .. => by simp [leaves]
  | .setParamName .. => by simp [leaves]
  | .setFunctionMemory .. => by simp [leaves]
  | .batch ops => by
    intro h
    rw [uncaptured] at h
    simpa [leaves] using uncapturedAll_leaves ops h

theorem uncapturedAll_leaves : ∀ (ops : List Op), uncapturedAll ops = true →
    ∀ l ∈ leavesAll ops, l.uncaptured = true
  | [], _ => by simp [leavesAll]
  | op :: rest, h => by
    intro l hl
    simp only [uncapturedAll, Bool.and_eq_true] at h
    rcases List.mem_append.mp hl with h' | h'
    · exact uncaptured_leaves op h.1 l h'
    · exact uncapturedAll_leaves rest h.2 l h'

end

/-- A single edit about to be applied for the first time. -/
inductive Fresh : Op → Prop
  | renameSymbol (va name kind) : Fresh (renameSymbol va name kind none none)
  | setComment (va scope text) : Fresh (setComment va scope text none)
  | setFocus (va) : Fresh (setFocus va none)
  | setGlobalType (va ty) : Fresh (setGlobalType va ty none)
  | setFunctionSignature (va sig) : Fresh (setFunctionSignature va sig none)
  | setStackLocalType (va offset ty) : Fresh (setStackLocalType va offset ty none)
  | setStackLocalName (va offset name) : Fresh (setStackLocalName va offset name none)
  | setParamName (va index name) : Fresh (setParamName va index name none)
  | setFunctionMemory (va card) : Fresh (setFunctionMemory va card none)

theorem fresh_of_leaf {op : Op} (hleaf : op.isLeaf = true) (hnone : op.uncaptured = true) :
    op.Fresh := by
  cases op <;> simp only [uncaptured, Option.isNone_iff_eq_none, Bool.and_eq_true] at hnone
  case renameSymbol va name kind oldName oldKind =>
    obtain ⟨rfl, rfl⟩ := hnone
    exact .renameSymbol ..
  case batch => simp [isLeaf] at hleaf
  all_goals
    subst hnone
    constructor

theorem fresh_leaves {op : Op} (h : op.uncaptured = true) : ∀ l ∈ op.leaves, l.Fresh :=
  fun l hl => fresh_of_leaf (isLeaf_of_mem_leaves op l hl) (uncaptured_leaves op h l hl)

/-! ## One leaf, forward and back -/

section Steps
variable (s t : Project)

@[simp] theorem applyTo_renameSymbol (va : Nat) (name : String) (kind : SymbolKind) :
    (renameSymbol va name kind none none).applyTo s = s.renameSymbol va name kind (s.symbolName va) := by
  simp [applyTo, captureAndApply]

@[simp] theorem back_renameSymbol (va : Nat) (name : String) (kind : SymbolKind) :
    (renameSymbol va name kind none none).back s t =
      t.renameSymbol va ((s.symbolName va).getD "")
        (((s.symbols.lookup va).map Symbol.kind).getD kind) (some name) := by
  simp [back, applied, captureAndApply, inverse, captureAll]

@[simp] theorem applyTo_setComment (va : Nat) (scope : CommentScope) (text : String) :
    (setComment va scope text none).applyTo s =
      { s with comments := s.comments.set va scope text } := by
  simp [applyTo, captureAndApply]

@[simp] theorem back_setComment (va : Nat) (scope : CommentScope) (text : String) :
    (setComment va scope text none).back s t =
      { t with comments := t.comments.set va scope ((s.comments.get va scope).getD "") } := by
  simp [back, applied, captureAndApply, inverse, captureAll]

@[simp] theorem applyTo_setFocus (va : Nat) : (setFocus va none).applyTo s = s.setFocus va := by
  simp [applyTo, captureAndApply]

@[simp] theorem back_setFocus (va : Nat) : (setFocus va none).back s t = t.setFocus (s.focus.getD va) := by
  simp [back, applied, captureAndApply, inverse, captureAll]

@[simp] theorem applyTo_setGlobalType (va : Nat) (ty : DataType) :
    (setGlobalType va ty none).applyTo s = { s with typedGlobals := s.typedGlobals.insert va ty } := by
  simp [applyTo, captureAndApply]

@[simp] theorem back_setGlobalType (va : Nat) (ty : DataType) :
    (setGlobalType va ty none).back s t =
      { t with typedGlobals := t.typedGlobals.insert va ((s.typedGlobals.lookup va).getD (.unknown 0)) } := by
  simp [back, applied, captureAndApply, inverse, captureAll]

@[simp] theorem applyTo_setFunctionSignature (va : Nat) (sig : FunctionSignature) :
    (setFunctionSignature va sig none).applyTo s =
      { s with functionSignatures := s.functionSignatures.insert va sig } := by
  simp [applyTo, captureAndApply]

@[simp] theorem back_setFunctionSignature (va : Nat) (sig : FunctionSignature) :
    (setFunctionSignature va sig none).back s t =
      { t with functionSignatures :=
        t.functionSignatures.insert va ((s.functionSignatures.lookup va).getD emptySignature) } := by
  simp [back, applied, captureAndApply, inverse, captureAll]

@[simp] theorem applyTo_setStackLocalType (va : Nat) (offset : Int) (ty : DataType) :
    (setStackLocalType va offset ty none).applyTo s =
      s.upsertFrameVar va offset (fun v => { v with ty := ty }) := by
  simp [applyTo, captureAndApply]

@[simp] theorem back_setStackLocalType (va : Nat) (offset : Int) (ty : DataType) :
    (setStackLocalType va offset ty none).back s t =
      t.upsertFrameVar va offset (fun v =>
        { v with ty := (((s.frameOrDefault va).findVar offset).map StackVariable.ty).getD (.unknown 0) }) := by
  simp [back, applied, captureAndApply, inverse, captureAll]

@[simp] theorem applyTo_setStackLocalName (va : Nat) (offset : Int) (name : String) :
    (setStackLocalName va offset name none).applyTo s =
      s.upsertFrameVar va offset (fun v => { v with name := localNameOf name }) := by
  simp [applyTo, captureAndApply]

@[simp] theorem back_setStackLocalName (va : Nat) (offset : Int) (name : String) :
    (setStackLocalName va offset name none).back s t =
      t.upsertFrameVar va offset (fun v =>
        { v with name := localNameOf ((((s.frameOrDefault va).findVar offset).bind StackVariable.name).getD "") }) := by
  simp [back, applied, captureAndApply, inverse, captureAll]

@[simp] theorem applyTo_setParamName (va index : Nat) (name : String) :
    (setParamName va index name none).applyTo s = s.setParamName va index name := by
  simp [applyTo, captureAndApply]

@[simp] theorem back_setParamName (va index : Nat) (name : String) :
    (setParamName va index name none).back s t =
      t.setParamName va index (((s.signatureFor va index).params[index]?.map Prod.fst).getD "") := by
  simp [back, applied, captureAndApply, inverse, captureAll]

@[simp] theorem applyTo_setFunctionMemory (va : Nat) (card : FunctionMemoryCard) :
    (setFunctionMemory va card none).applyTo s = s.setFunctionMemory va card := by
  simp [applyTo, captureAndApply]

@[simp] theorem back_setFunctionMemory (va : Nat) (card : FunctionMemoryCard) :
    (setFunctionMemory va card none).back s t =
      t.setFunctionMemory va ((s.functionMemory.lookup va).getD (clearCard va)) := by
  cases h : s.functionMemory.lookup va <;>
    simp [back, applied, captureAndApply, inverse, captureAll, h]

end Steps

end Op

namespace Op

/-! ## Stores that are only inserted into -/

/-- The symbol a leaf writes. -/
def symbolWrite : Op → Option (Nat × Symbol)
  | .renameSymbol va name kind _ _ => some (va, { name := name, kind := kind })
  | _ => none

/-- The comment a leaf writes in one scope. -/
def commentWrite (scope : CommentScope) : Op → Option (Nat × String)
  | .setComment va scope' text _ => if scope' = scope then some (va, text) else none
  | _ => none

/-- The global type a leaf writes. -/
def globalWrite : Op → Option (Nat × DataType)
  | .setGlobalType va ty _ => some (va, ty)
  | _ => none

section Stores
variable {ls : List Op} (hls : ∀ l ∈ ls, l.Fresh) (s : Project)
include hls

theorem inserts_symbols : UndoLog.Inserts applyTo back Project.symbols symbolWrite ls := by
  refine ⟨?_, ?_⟩
  · intro l hl
    cases hls l hl <;> simp [symbolWrite, Project.setFocus_eq, Project.setFunctionMemory_eq,
        Project.upsertFrameVar, Project.setParamName]
  · intro l hl k v hw a b
    cases hls l hl with
    | renameSymbol va name kind =>
      obtain ⟨rfl, rfl⟩ : va = k ∧ Symbol.mk name kind = v := by simpa [symbolWrite] using hw
      refine ⟨by simp [Project.renameSymbol], { name := "", kind := kind }, ?_⟩
      cases h : a.symbols.lookup va <;> simp [Project.renameSymbol, Project.symbolName, h]
    | _ => simp [symbolWrite] at hw

theorem undone_symbols : (undone s ls).symbols = s.symbols ↔
    ∀ l ∈ ls, ∀ k v, l.symbolWrite = some (k, v) → k ∈ s.symbols :=
  UndoLog.undone_store (inserts_symbols hls) s

/-- The comments of one scope. -/
def commentsIn : CommentScope → Project → Map String
  | .address, p => p.comments.byAddr
  | .function, p => p.comments.byFunction

theorem inserts_comments (scope : CommentScope) :
    UndoLog.Inserts applyTo back (commentsIn scope) (commentWrite scope) ls := by
  refine ⟨?_, ?_⟩
  · intro l hl hw
    cases hls l hl with
    | setComment va scope' text =>
      cases scope <;> cases scope' <;> simp [commentWrite] at hw <;> simp [CommentStore.set, commentsIn]
    | _ => cases scope <;> simp [Project.setFocus_eq, Project.setFunctionMemory_eq, Project.upsertFrameVar,
        Project.setParamName, Project.renameSymbol, commentsIn]
  · intro l hl k v hw a b
    cases hls l hl with
    | setComment va scope' text =>
      cases scope <;> cases scope' <;> simp [commentWrite] at hw <;> obtain ⟨rfl, rfl⟩ := hw
      · exact ⟨by simp [CommentStore.set, commentsIn], "", by simp [CommentStore.set, CommentStore.get, commentsIn]⟩
      · exact ⟨by simp [CommentStore.set, commentsIn], "", by simp [CommentStore.set, CommentStore.get, commentsIn]⟩
    | _ => simp [commentWrite] at hw

theorem undone_byAddr : (undone s ls).comments.byAddr = s.comments.byAddr ↔
    ∀ l ∈ ls, ∀ k v, l.commentWrite .address = some (k, v) → k ∈ s.comments.byAddr :=
  UndoLog.undone_store (inserts_comments hls .address) s

theorem undone_byFunction : (undone s ls).comments.byFunction = s.comments.byFunction ↔
    ∀ l ∈ ls, ∀ k v, l.commentWrite .function = some (k, v) → k ∈ s.comments.byFunction :=
  UndoLog.undone_store (inserts_comments hls .function) s

theorem inserts_typedGlobals : UndoLog.Inserts applyTo back Project.typedGlobals globalWrite ls := by
  refine ⟨?_, ?_⟩
  · intro l hl
    cases hls l hl <;> simp [globalWrite, Project.setFocus_eq, Project.setFunctionMemory_eq,
        Project.upsertFrameVar, Project.setParamName, Project.renameSymbol]
  · intro l hl k v hw a b
    cases hls l hl with
    | setGlobalType va ty =>
      obtain ⟨rfl, rfl⟩ : va = k ∧ ty = v := by simpa [globalWrite] using hw
      exact ⟨by simp, .unknown 0, by simp⟩
    | _ => simp [globalWrite] at hw

theorem undone_typedGlobals : (undone s ls).typedGlobals = s.typedGlobals ↔
    ∀ l ∈ ls, ∀ k v, l.globalWrite = some (k, v) → k ∈ s.typedGlobals :=
  UndoLog.undone_store (inserts_typedGlobals hls) s

end Stores

/-! ## Focus -/

section Focus
variable {ls : List Op} (hls : ∀ l ∈ ls, l.Fresh) (s : Project)
include hls

theorem keeps_functions : UndoLog.Keeps applyTo back (fun t => t.functions = s.functions) ls := by
  refine ⟨?_, ?_⟩
  · intro l hl a ha
    cases hls l hl <;> simpa [Project.setFocus_eq, Project.setFunctionMemory_eq,
      Project.upsertFrameVar, Project.setParamName, Project.renameSymbol] using ha
  · intro l hl a b _ hb
    cases hls l hl <;> simpa [Project.setFocus_eq, Project.setFunctionMemory_eq,
      Project.upsertFrameVar, Project.setParamName, Project.renameSymbol] using hb

theorem undone_focus : (undone s ls).focus = s.focus ↔ ∀ va, setFocus va none ∈ ls →
    s.hasFunction va = true → ∃ g, s.focus = some g ∧ s.hasFunction g = true := by
  have hfn : ∀ {t : Project}, t.functions = s.functions → t.hasFunction = s.hasFunction := by
    intro t ht; funext va; simp [Project.hasFunction, ht]
  constructor
  · -- A function that took the focus leaves some function focused.
    intro heq va hmem hva
    have hD : ∃ g, (undone s ls).focus = some g ∧ s.hasFunction g = true := by
      refine UndoLog.undone_carried (keeps_functions hls s) hmem
        (fun t => ∃ g, t.focus = some g ∧ s.hasFunction g = true) ?_ ?_ ?_ rfl
      · intro a ha
        exact ⟨va, by simp [Project.setFocus_eq, hfn ha, hva], hva⟩
      · rintro l hl a ha ⟨g, hg, hgf⟩
        cases hls l hl with
        | setFocus v =>
          cases hv : s.hasFunction v
          · exact ⟨g, by simp [Project.setFocus_eq, hfn ha, hv, hg], hgf⟩
          · exact ⟨v, by simp [Project.setFocus_eq, hfn ha, hv], hv⟩
        | _ => exact ⟨g, by simpa [Project.setFunctionMemory_eq, Project.upsertFrameVar,
            Project.setParamName, Project.renameSymbol] using hg, hgf⟩
      · rintro l hl a b ha hb ⟨g, hg, hgf⟩
        cases hls l hl with
        | setFocus v =>
          cases hv : s.hasFunction (a.focus.getD v)
          · exact ⟨g, by simp [Project.setFocus_eq, hfn hb, hv, hg], hgf⟩
          · exact ⟨_, by simp [Project.setFocus_eq, hfn hb, hv], hv⟩
        | _ => exact ⟨g, by simpa [Project.setFunctionMemory_eq, Project.upsertFrameVar,
            Project.setParamName, Project.renameSymbol] using hg, hgf⟩
    rwa [heq] at hD
  · intro h
    by_cases hg : ∃ g, s.focus = some g ∧ s.hasFunction g = true
    · -- The focus at the start can take the focus back.
      obtain ⟨g, hg, hgf⟩ := hg
      rw [hg]
      refine UndoLog.undone_restores (keeps_functions hls s) Project.focus
        (fun l => ∃ va, l = setFocus va none) (some g) ?_ ?_ ?_ rfl hg
      · intro l hl a _ ht
        cases hls l hl with
        | setFocus v => exact absurd ⟨v, rfl⟩ ht
        | _ => simp [Project.setFunctionMemory_eq, Project.upsertFrameVar,
            Project.setParamName, Project.renameSymbol]
      · intro l hl a b _ _ ht
        cases hls l hl with
        | setFocus v => exact absurd ⟨v, rfl⟩ ht
        | _ => simp [Project.setFunctionMemory_eq, Project.upsertFrameVar,
            Project.setParamName, Project.renameSymbol]
      · rintro l hl a b _ hb ⟨v, rfl⟩ ha
        simp [Project.setFocus_eq, hfn hb, ha, hgf]
    · -- No leaf ever moves the focus, in either direction.
      have hno : ∀ va, setFocus va none ∈ ls → s.hasFunction va = false := by
        intro va hva
        cases hc : s.hasFunction va
        · rfl
        · exact absurd (h va hva hc) hg
      have hkeeps : UndoLog.Keeps applyTo back
          (fun t => t.functions = s.functions ∧ t.focus = s.focus) ls := by
        refine ⟨?_, ?_⟩
        · rintro l hl a ⟨ha, hfa⟩
          refine ⟨(keeps_functions hls s).fwd l hl a ha, ?_⟩
          cases hls l hl with
          | setFocus v => simp [Project.setFocus_eq, hfn ha, hno v hl, hfa]
          | _ => simpa [Project.setFunctionMemory_eq, Project.upsertFrameVar,
              Project.setParamName, Project.renameSymbol] using hfa
        · rintro l hl a b ⟨ha, hfa⟩ ⟨hb, hfb⟩
          refine ⟨(keeps_functions hls s).back l hl a b ha hb, ?_⟩
          cases hls l hl with
          | setFocus v =>
            have hstay : s.hasFunction (s.focus.getD v) = false := by
              cases hf : s.focus with
              | none => exact hno v hl
              | some g =>
                cases hc : s.hasFunction g
                · exact hc
                · exact absurd ⟨g, hf, hc⟩ hg
            simp [Project.setFocus_eq, hfn hb, hfa, hstay, hfb]
          | _ => simpa [Project.setFunctionMemory_eq, Project.upsertFrameVar,
              Project.setParamName, Project.renameSymbol] using hfb
      exact (UndoLog.undone_inv hkeeps ⟨rfl, rfl⟩).2

end Focus

/-! ## Memory cards -/

/-- A card without its stamp. -/
def unstamped (card : FunctionMemoryCard) : FunctionMemoryCard := { card with updatedSeq := 0 }

theorem isClear_va_of_unstamped {c d : FunctionMemoryCard} (h : unstamped c = unstamped d) :
    c.isClear = d.isClear ∧ c.va = d.va := by
  have hclear : (unstamped c).isClear = (unstamped d).isClear := by rw [h]
  have hva : (unstamped c).va = (unstamped d).va := by rw [h]
  exact ⟨hclear, hva⟩

section Memory
variable {ls : List Op} (hls : ∀ l ∈ ls, l.Fresh) (s : Project) (va : Nat)
include hls

/-- Only the edits of `va` touch the card of `va`. -/
theorem functionMemory_untouched {l : Op} (hl : l ∈ ls) (a b : Project)
    (ht : ¬ ∃ card, l = setFunctionMemory va card none) :
    (l.applyTo a).functionMemory.lookup va = a.functionMemory.lookup va ∧
      (l.back a b).functionMemory.lookup va = b.functionMemory.lookup va := by
  cases hls l hl with
  | setFunctionMemory va' card =>
    have hne : va ≠ va' := fun h => ht ⟨card, by rw [h]⟩
    constructor
    · simp only [applyTo_setFunctionMemory, Project.setFunctionMemory_eq]
      split <;> simp [Finmap.lookup_erase_ne hne, Finmap.lookup_insert_of_ne _ hne]
    · simp only [back_setFunctionMemory, Project.setFunctionMemory_eq]
      split <;> simp [Finmap.lookup_erase_ne hne, Finmap.lookup_insert_of_ne _ hne]
  | _ => simp [Project.setFocus_eq, Project.upsertFrameVar, Project.setParamName,
      Project.renameSymbol]

theorem undone_functionMemory :
    ((undone s ls).functionMemory.lookup va).map unstamped = (s.functionMemory.lookup va).map unstamped ↔
      ∀ card, setFunctionMemory va card none ∈ ls → ∀ prev, s.functionMemory.lookup va = some prev →
        prev.isClear = false ∧ prev.va = va := by
  constructor
  · -- An undo files what it restores under `va`, and never restores the clear card.
    intro heq card hmem prev hprev
    obtain ⟨pre, post, rfl⟩ := List.append_of_mem hmem
    have hset : ∀ (c : FunctionMemoryCard) (t : Project), ∀ c',
        (t.setFunctionMemory va c).functionMemory.lookup va = some c' →
          c'.isClear = false ∧ c'.va = va := by
      intro c t c' hc'
      rw [Project.setFunctionMemory_eq] at hc'
      cases hclear : c.isClear <;> simp only [hclear] at hc'
      · obtain rfl : _ = c' := by simpa using hc'
        exact ⟨hclear, rfl⟩
      · simp at hc'
    have hD : ∀ c, (undone s (pre ++ setFunctionMemory va card none :: post)).functionMemory.lookup va =
        some c → c.isClear = false ∧ c.va = va := by
      refine UndoLog.undone_established (UndoLog.Keeps.trivial _) (fun t : Project =>
        ∀ c, t.functionMemory.lookup va = some c → c.isClear = false ∧ c.va = va) ?_ ?_ True.intro
      · intro a b _ _
        rw [back_setFunctionMemory]
        exact hset _ b
      · intro l hl a b _ _ hb
        by_cases ht : ∃ card, l = setFunctionMemory va card none
        · obtain ⟨card', rfl⟩ := ht
          rw [back_setFunctionMemory]
          exact hset _ b
        · rw [(functionMemory_untouched hls va (List.mem_append_left _ hl) a b ht).2]
          exact hb
    obtain ⟨c, hc, hcu⟩ : ∃ c, (undone s (pre ++ setFunctionMemory va card none :: post)).functionMemory.lookup
        va = some c ∧ unstamped c = unstamped prev := by
      rw [hprev] at heq
      simpa using heq
    obtain ⟨hclear, hva⟩ := isClear_va_of_unstamped hcu
    rw [← hclear, ← hva]
    exact hD c hc
  · intro h
    refine UndoLog.undone_restores (UndoLog.Keeps.trivial ls)
      (fun t : Project => (t.functionMemory.lookup va).map unstamped)
      (fun l => ∃ card, l = setFunctionMemory va card none) _ ?_ ?_ ?_ True.intro rfl
    · intro l hl a _ ht
      rw [(functionMemory_untouched hls va hl a a ht).1]
    · intro l hl a b _ _ ht
      rw [(functionMemory_untouched hls va hl a b ht).2]
    · intro l hl a b _ _ ht hx
      obtain ⟨card, rfl⟩ := ht
      rw [back_setFunctionMemory, Project.setFunctionMemory_eq]
      cases ha : a.functionMemory.lookup va with
      | none =>
        have hs : s.functionMemory.lookup va = none := by simpa [ha] using hx.symm
        have hclear : (clearCard va).isClear = true := rfl
        simp [hclear, hs]
      | some c =>
        obtain ⟨prev, hprev, hu⟩ : ∃ prev, s.functionMemory.lookup va = some prev ∧
            unstamped prev = unstamped c := by
          simpa [ha] using hx.symm
        obtain ⟨hclear, hva⟩ := h card hl prev hprev
        obtain ⟨hclear', hva'⟩ := isClear_va_of_unstamped hu
        have hfiled : va = c.va := by rw [← hva', hva]
        rw [hclear] at hclear'
        simp only [Option.getD_some, ← hclear', hprev, Option.map_some, hu]
        simpa [unstamped] using hfiled

end Memory

end Op

end Windy
