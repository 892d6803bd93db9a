import Windy.Project.UndoFrames

/- When undo restores the previous state.

   `Undoable s pre l` says what the state `s` an operation starts from must hold for its leaf `l`
   (with the leaves `pre` before it) to be undone without trace. It reads `s` alone: entries that
   are there, a focus that can take the focus back, a card filed under its own address.
   `undo_restores_iff` collects the stores: the round trip restores all of them exactly when every
   leaf is undoable. -/
namespace Windy

/-- Equal annotation stores; memory cards up to their stamps. -/
structure SameContents (s t : Project) : Prop where
  symbols : s.symbols = t.symbols
  comments : s.comments = t.comments
  focus : s.focus = t.focus
  typedGlobals : s.typedGlobals = t.typedGlobals
  functionSignatures : s.functionSignatures = t.functionSignatures
  functionFrames : s.functionFrames = t.functionFrames
  functionMemory : ∀ va, (s.functionMemory.lookup va).map Op.unstamped =
    (t.functionMemory.lookup va).map Op.unstamped

theorem SameContents.symm {s t : Project} (h : SameContents s t) : SameContents t s :=
  ⟨h.symbols.symm, h.comments.symm, h.focus.symm, h.typedGlobals.symm, h.functionSignatures.symm, h.functionFrames.symm,
    fun va => (h.functionMemory va).symm⟩

theorem SameContents.trans {s t u : Project} (h : SameContents s t) (h' : SameContents t u) : SameContents s u :=
  ⟨h.symbols.trans h'.symbols, h.comments.trans h'.comments, h.focus.trans h'.focus,
    h.typedGlobals.trans h'.typedGlobals, h.functionSignatures.trans h'.functionSignatures,
    h.functionFrames.trans h'.functionFrames, fun va => (h.functionMemory va).trans (h'.functionMemory va)⟩

namespace Op

/-- What the starting state must hold for one leaf to be undone without trace;
`pre` are the leaves applied before it. -/
def Undoable (s : Project) (pre : List Op) : Op → Prop
  | .renameSymbol va _ _ _ _ => va ∈ s.symbols
  | .setComment va scope _ _ => (s.comments.get va scope).isSome = true
  | .setFocus va _ => s.hasFunction va = true → ∃ g, s.focus = some g ∧ s.hasFunction g = true
  | .setGlobalType va _ _ => va ∈ s.typedGlobals
  | .setFunctionSignature va _ _ => va ∈ s.functionSignatures
  | .setStackLocalType va offset _ _ =>
    ∃ frame v, s.functionFrames.lookup va = some frame ∧ frame.slot offset = some v ∧
      v.ty = restoreTy ((frame.findVar offset).map StackVariable.ty)
  | .setStackLocalName va offset _ _ =>
    ∃ frame v, s.functionFrames.lookup va = some frame ∧ frame.slot offset = some v ∧
      v.name = restoreName ((frame.findVar offset).map StackVariable.name)
  | .setParamName va index _ _ =>
    ∃ sig, s.functionSignatures.lookup va = some sig ∧
      (index < sig.params.length ∨ ∃ sig', setFunctionSignature va sig' none ∈ pre)
  | .setFunctionMemory va _ _ => ∀ prev, s.functionMemory.lookup va = some prev →
    prev.isClear = false ∧ prev.va = va
  | .batch _ => True

section Exact
variable {ls : List Op} (hls : ∀ l ∈ ls, l.Fresh) (s : Project)
include hls

/-- Each store that came back asks its condition of the leaves that write it. -/
theorem undoable_of_same (h : SameContents (undone s ls) s) {pre post : List Op} {l : Op}
    (heq : ls = pre ++ l :: post) : l.Undoable s pre := by
  have hl : l ∈ ls := by simp [heq]
  have hsigs := fun va => (undone_functionSignatures hls s va).mp (by rw [h.functionSignatures])
  have hframes := fun va => (undone_functionFrames hls s va).mp (by rw [h.functionFrames])
  cases hls l hl with
  | renameSymbol va name kind => exact (undone_symbols hls s).mp h.symbols _ hl va _ rfl
  | setComment va scope text =>
    cases scope with
    | address =>
      have := (undone_byAddr hls s).mp (by rw [h.comments]) _ hl va text rfl
      exact Finmap.lookup_isSome.mpr this
    | function =>
      have := (undone_byFunction hls s).mp (by rw [h.comments]) _ hl va text rfl
      exact Finmap.lookup_isSome.mpr this
  | setFocus va => exact (undone_focus hls s).mp h.focus va hl
  | setGlobalType va ty => exact (undone_typedGlobals hls s).mp h.typedGlobals _ hl va ty rfl
  | setFunctionSignature va sig => exact (hsigs va).1 _ hl rfl
  | setStackLocalType va offset ty =>
    obtain ⟨frame, v, hframe, hslot, hty, -⟩ := hframes va _ hl offset rfl
    exact ⟨frame, v, hframe, hslot, hty True.intro⟩
  | setStackLocalName va offset name =>
    obtain ⟨frame, v, hframe, hslot, -, hname⟩ := hframes va _ hl offset rfl
    exact ⟨frame, v, hframe, hslot, hname True.intro⟩
  | setParamName va index name =>
    obtain ⟨sig, hsig⟩ := Finmap.mem_iff.mp ((hsigs va).1 _ hl rfl)
    exact ⟨sig, hsig, (hsigs va).2 pre index name post heq sig hsig⟩
  | setFunctionMemory va card =>
    exact (undone_functionMemory hls s va).mp (h.functionMemory va) card hl

theorem same_of_undoable (h : ∀ pre l post, ls = pre ++ l :: post → l.Undoable s pre) :
    SameContents (undone s ls) s := by
  have hmem : ∀ l ∈ ls, ∃ pre, l.Undoable s pre := by
    intro l hl
    obtain ⟨pre, post, heq⟩ := List.append_of_mem hl
    exact ⟨pre, h pre l post heq⟩
  refine ⟨?_, ?_, ?_, ?_, ?_, ?_, ?_⟩
  · refine (undone_symbols hls s).mpr fun l hl k v hw => ?_
    obtain ⟨pre, hu⟩ := hmem l hl
    cases hls l hl <;> simp [symbolWrite] at hw
    exact hw.1 ▸ hu
  · have haddr := (undone_byAddr hls s).mpr fun l hl k v hw => by
      obtain ⟨pre, hu⟩ := hmem l hl
      cases hls l hl <;> simp [commentWrite] at hw
      obtain ⟨rfl, rfl, rfl⟩ := hw
      exact Finmap.lookup_isSome.mp hu
    have hfun := (undone_byFunction hls s).mpr fun l hl k v hw => by
      obtain ⟨pre, hu⟩ := hmem l hl
      cases hls l hl <;> simp [commentWrite] at hw
      obtain ⟨rfl, rfl, rfl⟩ := hw
      exact Finmap.lookup_isSome.mp hu
    exact congrArg₂ CommentStore.mk haddr hfun
  · refine (undone_focus hls s).mpr fun va hl => ?_
    obtain ⟨pre, hu⟩ := hmem _ hl
    exact hu
  · refine (undone_typedGlobals hls s).mpr fun l hl k v hw => ?_
    obtain ⟨pre, hu⟩ := hmem l hl
    cases hls l hl <;> simp [globalWrite] at hw
    exact hw.1 ▸ hu
  · refine Finmap.ext_lookup fun va => (undone_functionSignatures hls s va).mpr ⟨?_, ?_⟩
    · intro l hl ht
      obtain ⟨pre, hu⟩ := hmem l hl
      cases hls l hl with
      | setFunctionSignature va' sig => exact ht ▸ hu
      | setParamName va' index name =>
        obtain ⟨sig, hsig, -⟩ := hu
        obtain rfl : va' = va := ht
        exact Finmap.mem_iff.mpr ⟨sig, hsig⟩
      | _ => exact absurd ht (by simp [editsSignature])
    · intro pre index name post heq sig hsig
      obtain ⟨sig', hsig', hor⟩ := h pre _ post heq
      rw [hsig, Option.some.injEq] at hsig'
      exact hsig' ▸ hor
  · refine Finmap.ext_lookup fun va => (undone_functionFrames hls s va).mpr fun l hl offset he => ?_
    obtain ⟨pre, hu⟩ := hmem l hl
    cases hls l hl with
    | setStackLocalType va' offset' ty =>
      obtain ⟨rfl, rfl⟩ : va' = va ∧ offset' = offset := by simpa [frameEdit] using he
      obtain ⟨frame, v, hframe, hslot, hty⟩ := hu
      exact ⟨frame, v, hframe, hslot, fun _ => hty, fun hf => hf.elim⟩
    | setStackLocalName va' offset' name =>
      obtain ⟨rfl, rfl⟩ : va' = va ∧ offset' = offset := by simpa [frameEdit] using he
      obtain ⟨frame, v, hframe, hslot, hname⟩ := hu
      exact ⟨frame, v, hframe, hslot, fun hf => hf.elim, fun _ => hname⟩
    | _ => simp [frameEdit] at he
  · refine fun va => (undone_functionMemory hls s va).mpr fun card hl => ?_
    obtain ⟨pre, hu⟩ := hmem _ hl
    exact hu

end Exact

/-- Applying an operation and then its inverse restores the annotation stores
exactly when every leaf is undoable in the state it started from. -/
theorem undo_restores_iff (o inv : Op) (s : Project) (hnew : o.uncaptured = true)
    (hinv : (o.applied s).inverse = some inv) :
    SameContents (inv.applyTo (o.applyTo s)) s ↔
      ∀ pre l post, o.leaves = pre ++ l :: post → l.Undoable s pre := by
  rw [inverse_applyTo hinv]
  have hls := fresh_leaves hnew
  exact ⟨fun h pre l post heq => undoable_of_same hls s h heq, same_of_undoable hls s⟩

end Op

/-- A project with nothing annotated yet. -/
def Project.blank : Project :=
  { symbols := ∅
    comments := { byAddr := ∅, byFunction := ∅ }
    typedGlobals := ∅
    functionSignatures := ∅
    functionFrames := ∅
    functionMemory := ∅
    aliasHistory := []
    focus := none
    opSeq := 0
    functions := ∅ }

namespace Op

/-- One comment and one new memory card, in a project that has the comment. -/
theorem undo_restores_batch :
    ∃ inv, ((batch [setComment 4096 .address "entry" none,
          setFunctionMemory 4096 { FunctionMemoryCard.default with tags := ["crypto"] } none]).applied
          { Project.blank with comments := CommentStore.set Project.blank.comments 4096 .address "start" }).inverse =
        some inv ∧
      SameContents (inv.applyTo ((batch [setComment 4096 .address "entry" none,
          setFunctionMemory 4096 { FunctionMemoryCard.default with tags := ["crypto"] } none]).applyTo
          { Project.blank with comments := CommentStore.set Project.blank.comments 4096 .address "start" }))
        { Project.blank with comments := CommentStore.set Project.blank.comments 4096 .address "start" } := by
  refine ⟨_, rfl, (undo_restores_iff _ _ _ rfl rfl).mpr ?_⟩
  intro pre l post heq
  have hl : l ∈ [setComment 4096 .address "entry" none,
      setFunctionMemory 4096 { FunctionMemoryCard.default with tags := ["crypto"] } none] := by
    have : l ∈ pre ++ l :: post := by simp
    rw [← heq] at this
    simpa [leaves, leavesAll] using this
  rcases List.mem_pair.mp hl with rfl | rfl
  · simp [Undoable, CommentStore.set, CommentStore.get]
  · simp [Undoable, Project.blank]

/-- The first comment at an address is not taken back: undo leaves an empty
comment where there was none. -/
theorem undo_first_comment_not_restored :
    ∃ inv, ((setComment 4096 .address "note" none).applied Project.blank).inverse = some inv ∧
      (inv.applyTo ((setComment 4096 .address "note" none).applyTo Project.blank)).comments.get 4096 .address =
        some "" ∧
      ¬ SameContents (inv.applyTo ((setComment 4096 .address "note" none).applyTo Project.blank))
        Project.blank := by
  refine ⟨_, rfl, ?_, ?_⟩
  · simp [applyTo, captureAndApply, CommentStore.set, CommentStore.get, Project.blank]
  · intro h
    have hget := congrArg (fun c => CommentStore.get c 4096 .address) h.comments
    simp [applyTo, captureAndApply, CommentStore.set, CommentStore.get, Project.blank] at hget

end Op

end Windy
