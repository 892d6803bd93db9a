import Windy.Project.Undo

/- Undo of the edits that change part of an entry: a parameter name inside a signature, and the type
   or the name of one variable inside a stack frame.

   Both edits create what is missing (a signature, parameters up to the index, a frame, a variable)
   and their inverses only write a name or a type back, so a created entry stays. A parameter list
   that grew is put back only by the undo of a whole-signature edit made before it in the same
   batch.

   A stack variable is edited in the list its sign selects but captured from the locals followed by
   the arguments: a local at a positive offset is read in place of the argument there. -/
namespace Windy

namespace Op

/-! ## Signatures -/

section Signatures
variable {ls : List Op} (hls : ∀ l ∈ ls, l.Fresh) (s : Project) (va : Nat)

/-- The leaf edits the signature of `va`. -/
def editsSignature (va : Nat) : Op → Prop
  | .setFunctionSignature va' _ _ => va' = va
  | .setParamName va' _ _ _ => va' = va
  | _ => False

include hls

theorem functionSignatures_untouched {l : Op} (hl : l ∈ ls) (a b : Project)
    (ht : ¬ l.editsSignature va) :
    (l.applyTo a).functionSignatures.lookup va = a.functionSignatures.lookup va ∧
      (l.back a b).functionSignatures.lookup va = b.functionSignatures.lookup va := by
  cases hls l hl with
  | setFunctionSignature va' sig =>
    have hne : va ≠ va' := fun h => ht h.symm
    simp [Finmap.lookup_insert_of_ne _ hne]
  | setParamName va' index name =>
    have hne : va ≠ va' := fun h => ht h.symm
    simp [Project.setParamName, Finmap.lookup_insert_of_ne _ hne]
  | _ => simp [Project.setFocus_eq, Project.setFunctionMemory_eq, Project.upsertFrameVar,
      Project.renameSymbol]

/-- Undoing an edit of the signature of `va` leaves a signature there. -/
theorem back_signature_mem {l : Op} (hl : l ∈ ls) (a b : Project) (ht : l.editsSignature va) :
    va ∈ (l.back a b).functionSignatures := by
  cases hls l hl with
  | setFunctionSignature va' sig =>
    obtain rfl : va' = va := ht
    simp
  | setParamName va' index name =>
    obtain rfl : va' = va := ht
    simp [Project.setParamName]
  | _ => exact absurd ht (by simp [editsSignature])

theorem undone_signature_mem {l : Op} (hl : l ∈ ls) (ht : l.editsSignature va) :
    va ∈ (undone s ls).functionSignatures := by
  obtain ⟨pre, post, rfl⟩ := List.append_of_mem hl
  refine UndoLog.undone_established (UndoLog.Keeps.trivial _)
    (fun t : Project => va ∈ t.functionSignatures) ?_ ?_ True.intro
  · exact fun a b _ _ => back_signature_mem hls va hl a b ht
  · intro l' hl' a b _ _ hb
    have hmem : l' ∈ pre ++ l :: post := List.mem_append_left _ hl'
    by_cases ht' : l'.editsSignature va
    · exact back_signature_mem hls va hmem a b ht'
    · rw [Finmap.mem_iff, (functionSignatures_untouched hls va hmem a b ht').2]
      exact Finmap.mem_iff.mp hb

/-- A parameter list that had to grow stays long enough, unless an earlier edit
of the whole signature is undone after it. -/
theorem undone_params_length {pre post : List Op} {index : Nat} {name : String}
    (heq : ls = pre ++ setParamName va index name none :: post)
    (hpre : ∀ sig, setFunctionSignature va sig none ∉ pre) :
    ∃ sig, (undone s ls).functionSignatures.lookup va = some sig ∧ index < sig.params.length := by
  subst heq
  refine UndoLog.undone_established (UndoLog.Keeps.trivial _) (fun t : Project =>
    ∃ sig, t.functionSignatures.lookup va = some sig ∧ index < sig.params.length) ?_ ?_ True.intro
  · intro a b _ _
    rw [back_setParamName]
    refine ⟨_, Finmap.lookup_insert _, ?_⟩
    simp only [setParamName_length, Project.signatureFor, extendParams_length]
    omega
  · intro l hl a b _ _ hb
    have hmem : l ∈ pre ++ setParamName va index name none :: post := List.mem_append_left _ hl
    by_cases ht : l.editsSignature va
    · obtain ⟨sig, hsig, hlen⟩ := hb
      cases hls l hmem with
      | setFunctionSignature va' sig' =>
        obtain rfl : va' = va := ht
        exact absurd hl (hpre sig')
      | setParamName va' index' name' =>
        obtain rfl : va' = va := ht
        rw [back_setParamName]
        refine ⟨_, Finmap.lookup_insert _, ?_⟩
        simp only [setParamName_length, Project.signatureFor, hsig, Option.getD_some,
          extendParams_length]
        omega
      | _ => exact absurd ht (by simp [editsSignature])
    · rw [(functionSignatures_untouched hls va hmem a b ht).2]
      exact hb

omit hls in
/-- A parameter that is there is renamed in place. -/
theorem setParamName_lookup {t : Project} {sig : FunctionSignature} {index : Nat} (name : String)
    (hsig : t.functionSignatures.lookup va = some sig) (hlt : index < sig.params.length) :
    (t.setParamName va index name).functionSignatures.lookup va =
      some { sig with params := Windy.setParamName sig.params index name } := by
  simp [Project.setParamName, Project.signatureFor, hsig, extendParams_of_lt hlt]

omit hls in
theorem setParamName_setParamName (params : List (String × DataType)) {index : Nat}
    (hlt : index < params.length) (name : String) :
    Windy.setParamName (Windy.setParamName params index name) index
      ((params[index]?.map Prod.fst).getD "") = params := by
  apply List.ext_getElem?
  intro i
  simp only [Windy.setParamName, List.getElem?_modify]
  by_cases hi : index = i
  · subst hi
    simp [List.getElem?_eq_getElem hlt]
  · simp [hi]

/-- A signature comes back when every parameter edit before the first edit of
the whole signature finds its parameter. -/
theorem undone_signature_some {sig : FunctionSignature}
    (hsig : s.functionSignatures.lookup va = some sig)
    (h : ∀ pre index name post, ls = pre ++ setParamName va index name none :: post →
      index < sig.params.length ∨ ∃ sig', setFunctionSignature va sig' none ∈ pre) :
    (undone s ls).functionSignatures.lookup va = some sig := by
  induction ls generalizing s sig with
  | nil => exact hsig
  | cons l ls ih =>
    have hmem : l ∈ l :: ls := List.mem_cons_self
    have hls' : ∀ l ∈ ls, l.Fresh := fun x hx => hls x (List.mem_cons_of_mem l hx)
    show ((l.back s _).functionSignatures.lookup va) = some sig
    by_cases ht : l.editsSignature va
    · cases hls l hmem with
      | setFunctionSignature va' sig' =>
        obtain rfl : va' = va := ht
        simp [hsig]
      | setParamName va' index name =>
        obtain rfl : va' = va := ht
        have hlt : index < sig.params.length := by
          simpa using h [] index name ls rfl
        -- The rest of the list sees the signature with this one name changed.
        have hrest : (undone ((setParamName va' index name none).applyTo s) ls).functionSignatures.lookup va' =
            some { sig with params := Windy.setParamName sig.params index name } := by
          refine ih hls' _ ?_ ?_
          · rw [applyTo_setParamName]
            exact setParamName_lookup va' name hsig hlt
          · intro pre index' name' post heq
            have := h (setParamName va' index name none :: pre) index' name' post (by rw [heq]; rfl)
            rw [setParamName_length]
            simpa using this
        have hlt' : index < (Windy.setParamName sig.params index name).length := by
          rwa [setParamName_length]
        rw [back_setParamName, setParamName_lookup va' _ hrest hlt']
        simp only [Project.signatureFor, hsig, Option.getD_some, extendParams_of_lt hlt,
          setParamName_setParamName _ hlt]
      | _ => exact absurd ht (by simp [editsSignature])
    · rw [(functionSignatures_untouched hls va hmem s _ ht).2]
      refine ih hls' _ ((functionSignatures_untouched hls va hmem s s ht).1.trans hsig) ?_
      intro pre index name post heq
      rcases h (l :: pre) index name post (by rw [heq]; rfl) with hlt | ⟨sig', hs'⟩
      · exact Or.inl hlt
      · rcases List.mem_cons.mp hs' with rfl | hs'
        · exact absurd rfl ht
        · exact Or.inr ⟨sig', hs'⟩

/-- The signature of `va` is restored exactly when it was there for every edit
of it, and every parameter edit either found its parameter or comes after an
edit of the whole signature. -/
theorem undone_functionSignatures :
    (undone s ls).functionSignatures.lookup va = s.functionSignatures.lookup va ↔
      (∀ l ∈ ls, l.editsSignature va → va ∈ s.functionSignatures) ∧
      ∀ pre index name post, ls = pre ++ setParamName va index name none :: post →
        ∀ sig, s.functionSignatures.lookup va = some sig →
          index < sig.params.length ∨ ∃ sig', setFunctionSignature va sig' none ∈ pre := by
  constructor
  · intro heq
    refine ⟨fun l hl ht => ?_, fun pre index name post hsplit sig hsig => ?_⟩
    · rw [Finmap.mem_iff, ← heq]
      exact Finmap.mem_iff.mp (undone_signature_mem hls s va hl ht)
    · by_contra hno
      obtain ⟨hge, hpre⟩ := not_or.mp hno
      obtain ⟨sig', hsig', hlt⟩ := undone_params_length hls s va hsplit (not_exists.mp hpre)
      rw [heq, hsig, Option.some.injEq] at hsig'
      exact hge (hsig' ▸ hlt)
  · intro h
    cases hsig : s.functionSignatures.lookup va with
    | some sig =>
      exact undone_signature_some hls s va hsig (fun pre index name post heq =>
        h.2 pre index name post heq sig hsig)
    | none =>
      have hno : ∀ l ∈ ls, ¬ l.editsSignature va := fun l hl ht =>
        absurd (h.1 l hl ht) (Finmap.lookup_eq_none.mp hsig)
      refine UndoLog.undone_restores (UndoLog.Keeps.trivial ls)
        (fun t : Project => t.functionSignatures.lookup va) (fun l => l.editsSignature va) _
        ?_ ?_ ?_ True.intro hsig
      · exact fun l hl a _ ht => (functionSignatures_untouched hls va hl a a ht).1
      · exact fun l hl a b _ _ ht => (functionSignatures_untouched hls va hl a b ht).2
      · exact fun l hl a b _ _ ht => absurd ht (hno l hl)

end Signatures

end Op

/-! ## Variables of a frame -/

/-- An edit at a positive offset works on the arguments. -/
def isArg (offset : Int) : Bool := decide (offset > 0)

namespace StackFrame

/-- The arguments or the locals. -/
def vars (frame : StackFrame) : Bool → List StackVariable
  | true => frame.args
  | false => frame.locals

/-- The position of the variable an edit at `offset` changes. -/
def slotIndex (frame : StackFrame) (offset : Int) : Option Nat :=
  (frame.vars (isArg offset)).findIdx? (fun v => v.offset = offset)

/-- The variable an edit at `offset` changes. -/
def slot (frame : StackFrame) (offset : Int) : Option StackVariable :=
  (frame.vars (isArg offset)).find? (fun v => v.offset = offset)

/-- The captured value of a field is that of the variable the edit changes, or
of a local at the same positive offset. -/
theorem findVar_eq (frame : StackFrame) (offset : Int) :
    frame.findVar offset =
      (if isArg offset then frame.locals.find? (fun v => v.offset = offset) else none).or
        ((frame.slot offset).or (frame.args.find? (fun v => v.offset = offset))) := by
  simp only [findVar, List.find?_append, slot]
  cases h : isArg offset <;> simp [vars]

end StackFrame

theorem upsertStackVar_vars (frame : StackFrame) (offset : Int)
    (mutate : StackVariable → StackVariable) (b : Bool) :
    (upsertStackVar frame offset mutate).vars b =
      if b = isArg offset then upsertList offset mutate (frame.vars b) else frame.vars b := by
  unfold upsertStackVar isArg
  by_cases h : offset > 0 <;> cases b <;> simp [h, StackFrame.vars]

/-- Where a variable is and how large it is: what no edit changes. -/
def StackVariable.place (v : StackVariable) : Int × Nat := (v.offset, v.size)

/-- After an edit there is a variable at its offset, and none has gone. -/
theorem mem_upsertList {offset : Int} {mutate : StackVariable → StackVariable}
    (hplace : ∀ v, (mutate v).place = v.place) (list : List StackVariable) (o : Int) :
    (∃ v ∈ upsertList offset mutate list, v.offset = o) ↔ (∃ v ∈ list, v.offset = o) ∨ o = offset := by
  have hoff : ∀ v, (mutate v).offset = v.offset := fun v => congrArg Prod.fst (hplace v)
  unfold upsertList
  split
  · rename_i i hi
    obtain ⟨hlt, hp, -⟩ := List.findIdx?_eq_some_iff_getElem.mp hi
    have hmap : (list.modify i mutate).map StackVariable.offset = list.map StackVariable.offset := by
      apply List.ext_getElem?
      intro j
      by_cases hj : i = j <;> cases hg : list[j]? <;> simp [hj, hg, hoff]
    have hiff : ∀ l : List StackVariable, (∃ v ∈ l, v.offset = o) ↔ o ∈ l.map StackVariable.offset := by
      simp
    rw [hiff, hmap, ← hiff]
    refine ⟨Or.inl, fun h => h.elim id ?_⟩
    rintro rfl
    exact ⟨list[i], List.getElem_mem hlt, by simpa using hp⟩
  · simp only [List.mem_insertionSort, List.mem_append, List.mem_singleton]
    constructor
    · rintro ⟨v, hv | rfl, ho⟩
      · exact Or.inl ⟨v, hv, ho⟩
      · exact Or.inr (by rw [← ho, hoff]; rfl)
    · rintro (⟨v, hv, ho⟩ | rfl)
      · exact ⟨v, Or.inl hv, ho⟩
      · exact ⟨_, Or.inr rfl, hoff _⟩

/-- Two frames that differ only in types and names, and not in those of a local
at a positive offset. -/
structure SameShape (frame frame₀ : StackFrame) : Prop where
  localSize : frame.localSize = frame₀.localSize
  argSize : frame.argSize = frame₀.argSize
  returnAddrOffset : frame.returnAddrOffset = frame₀.returnAddrOffset
  places : ∀ b, (frame.vars b).map StackVariable.place = (frame₀.vars b).map StackVariable.place
  shadows : ∀ offset, isArg offset = true →
    frame.locals.find? (fun v => v.offset = offset) = frame₀.locals.find? (fun v => v.offset = offset)

namespace SameShape
variable {frame frame₀ : StackFrame} {offset : Int} {i : Nat}

theorem refl (frame : StackFrame) : SameShape frame frame :=
  ⟨rfl, rfl, rfl, fun _ => rfl, fun _ _ => rfl⟩

/-- A search by offset sees only the places. -/
theorem findIdx?_offset {xs ys : List StackVariable}
    (h : xs.map StackVariable.place = ys.map StackVariable.place) (offset : Int) :
    xs.findIdx? (fun v => v.offset = offset) = ys.findIdx? (fun v => v.offset = offset) := by
  have hp : (fun v : StackVariable => decide (v.offset = offset)) =
      (fun q : Int × Nat => decide (q.1 = offset)) ∘ StackVariable.place := rfl
  rw [hp, ← List.findIdx?_map, ← List.findIdx?_map, h]

theorem slotIndex_eq (h : SameShape frame frame₀) (offset : Int) :
    frame.slotIndex offset = frame₀.slotIndex offset :=
  findIdx?_offset (h.places _) offset

/-- An edit of a variable that is there changes that variable only. -/
theorem upsert_vars (h : SameShape frame frame₀) (hi : frame₀.slotIndex offset = some i)
    (mutate : StackVariable → StackVariable) (b : Bool) :
    (upsertStackVar frame offset mutate).vars b =
      if b = isArg offset then (frame.vars b).modify i mutate else frame.vars b := by
  rw [upsertStackVar_vars]
  by_cases hb : b = isArg offset
  · subst hb
    have hidx : (frame.vars (isArg offset)).findIdx? (fun v => v.offset = offset) = some i := by
      rw [← hi]; exact h.slotIndex_eq offset
    simp [upsertList, hidx]
  · simp [hb]

theorem upsert (h : SameShape frame frame₀) (hi : frame₀.slotIndex offset = some i)
    {mutate : StackVariable → StackVariable} (hplace : ∀ v, (mutate v).place = v.place) :
    SameShape (upsertStackVar frame offset mutate) frame₀ := by
  have hvars := h.upsert_vars hi mutate
  have hplaces : ∀ b, ((upsertStackVar frame offset mutate).vars b).map StackVariable.place =
      (frame₀.vars b).map StackVariable.place := by
    intro b
    rw [← h.places b, hvars]
    split
    · apply List.ext_getElem?
      intro j
      by_cases hj : i = j <;> cases hg : (frame.vars b)[j]? <;> simp [hj, hg, hplace]
    · rfl
  refine ⟨?_, ?_, ?_, hplaces, ?_⟩
  · rw [← h.localSize]; unfold upsertStackVar; split <;> rfl
  · rw [← h.argSize]; unfold upsertStackVar; split <;> rfl
  · rw [← h.returnAddrOffset]; unfold upsertStackVar; split <;> rfl
  · -- A local at a positive offset is not the variable at a negative one.
    intro o ho
    rw [← h.shadows o ho]
    have hl := hvars false
    by_cases hb : false = isArg offset
    · rw [if_pos hb] at hl
      change (upsertStackVar frame offset mutate).locals = frame.locals.modify i mutate at hl
      have hidx : (upsertStackVar frame offset mutate).locals.findIdx? (fun v => v.offset = o) =
          frame.locals.findIdx? (fun v => v.offset = o) :=
        findIdx?_offset ((hplaces false).trans (h.places false).symm) o
      rw [List.find?_eq_bind_findIdx?_getElem?, List.find?_eq_bind_findIdx?_getElem?, hidx, hl]
      cases hj : frame.locals.findIdx? (fun v => v.offset = o) with
      | none => rfl
      | some j =>
        have hi' : frame.locals.findIdx? (fun v => v.offset = offset) = some i := by
          have := (h.slotIndex_eq offset).trans hi
          rwa [StackFrame.slotIndex, ← hb] at this
        obtain ⟨hlt, hp, -⟩ := List.findIdx?_eq_some_iff_getElem.mp hi'
        obtain ⟨hlt', hp', -⟩ := List.findIdx?_eq_some_iff_getElem.mp hj
        have hij : i ≠ j := by
          rintro rfl
          have hoo : offset = o := by
            rw [← of_decide_eq_true hp, ← of_decide_eq_true hp']
          rw [← hoo, ← hb] at ho
          cases ho
        simp [hij]
    · rw [if_neg hb] at hl
      change (upsertStackVar frame offset mutate).locals = frame.locals at hl
      rw [hl]

/-- The variable of an edit, by its position. -/
theorem slot_eq (h : SameShape frame frame₀) (hi : frame₀.slotIndex offset = some i) :
    frame.slot offset = (frame.vars (isArg offset))[i]? := by
  have hidx := (h.slotIndex_eq offset).trans hi
  rw [StackFrame.slot, List.find?_eq_bind_findIdx?_getElem?]
  rw [StackFrame.slotIndex] at hidx
  rw [hidx]; rfl

/-- Frames of one shape whose variables agree in a field at the edited position
capture the same value of it. -/
theorem findVar_field {γ : Type} (f : StackVariable → γ) (h : SameShape frame frame₀)
    (hi : frame₀.slotIndex offset = some i)
    (hobs : (frame.vars (isArg offset))[i]?.map f = (frame₀.vars (isArg offset))[i]?.map f) :
    (frame.findVar offset).map f = (frame₀.findVar offset).map f := by
  have hshadow : (if isArg offset then frame.locals.find? (fun v => v.offset = offset) else none) =
      (if isArg offset then frame₀.locals.find? (fun v => v.offset = offset) else none) := by
    split
    · exact h.shadows offset ‹_›
    · rfl
  have hslot : (frame.slot offset).map f = (frame₀.slot offset).map f := by
    rw [h.slot_eq hi, (SameShape.refl frame₀).slot_eq hi, hobs]
  have hsome : ∃ v, frame₀.slot offset = some v := by
    obtain ⟨hlt, -, -⟩ := List.findIdx?_eq_some_iff_getElem.mp hi
    exact ⟨_, by rw [(SameShape.refl frame₀).slot_eq hi, List.getElem?_eq_getElem hlt]⟩
  obtain ⟨v₀, hv₀⟩ := hsome
  obtain ⟨v, hv, hfv⟩ : ∃ v, frame.slot offset = some v ∧ f v = f v₀ := by
    simpa [hv₀] using hslot
  rw [StackFrame.findVar_eq, StackFrame.findVar_eq, hshadow, hv, hv₀]
  cases (if isArg offset then frame₀.locals.find? (fun v => v.offset = offset) else none) <;>
    simp [hfv]

end SameShape

namespace Op

/-! ## Frame edits -/

/-- The function and the offset of a stack variable edit. -/
def frameEdit : Op → Option (Nat × Int)
  | .setStackLocalType va offset _ _ => some (va, offset)
  | .setStackLocalName va offset _ _ => some (va, offset)
  | _ => none

/-- What the edit does to its variable. -/
def mutateVar : Op → StackVariable → StackVariable
  | .setStackLocalType _ _ ty _ => fun v => { v with ty := ty }
  | .setStackLocalName _ _ name _ => fun v => { v with name := localNameOf name }
  | _ => id

/-- The type an undo writes, from the captured one. -/
def restoreTy (captured : Option DataType) : DataType := captured.getD (.unknown 0)

/-- The name an undo writes, from the captured one. -/
def restoreName (captured : Option (Option String)) : Option String :=
  localNameOf (captured.join.getD "")

/-- What the undo of the edit, applied in `s`, does to its variable. -/
def unmutateVar (s : Project) : Op → StackVariable → StackVariable
  | .setStackLocalType va offset _ _ => fun v =>
    { v with ty := restoreTy (((s.frameOrDefault va).findVar offset).map StackVariable.ty) }
  | .setStackLocalName va offset _ _ => fun v =>
    { v with name := restoreName (((s.frameOrDefault va).findVar offset).map StackVariable.name) }
  | _ => id

theorem mutateVar_place (l : Op) (v : StackVariable) : (l.mutateVar v).place = v.place := by
  cases l <;> rfl

theorem unmutateVar_place (s : Project) (l : Op) (v : StackVariable) :
    (l.unmutateVar s v).place = v.place := by
  cases l <;> rfl

theorem frameEdit_step {l : Op} (hl : l.Fresh) {va : Nat} {offset : Int}
    (he : l.frameEdit = some (va, offset)) (a b : Project) :
    l.applyTo a = a.upsertFrameVar va offset l.mutateVar ∧
      l.back a b = b.upsertFrameVar va offset (l.unmutateVar a) := by
  cases hl with
  | setStackLocalType va' offset' ty =>
    obtain ⟨rfl, rfl⟩ : va' = va ∧ offset' = offset := by simpa [frameEdit] using he
    simp [mutateVar, unmutateVar, restoreTy]
  | setStackLocalName va' offset' name =>
    obtain ⟨rfl, rfl⟩ : va' = va ∧ offset' = offset := by simpa [frameEdit] using he
    cases h : (a.frameOrDefault va').findVar offset' <;> simp [mutateVar, unmutateVar, restoreName, h]
  | _ => simp [frameEdit] at he

theorem frames_untouched {l : Op} (hl : l.Fresh) {va : Nat} (he : ∀ offset, l.frameEdit ≠ some (va, offset))
    (a b : Project) :
    (l.applyTo a).functionFrames.lookup va = a.functionFrames.lookup va ∧
      (l.back a b).functionFrames.lookup va = b.functionFrames.lookup va := by
  cases hl with
  | setStackLocalType va' offset ty =>
    have hne : va ≠ va' := fun h => he offset (by rw [h]; rfl)
    simp [Project.upsertFrameVar, Finmap.lookup_insert_of_ne _ hne]
  | setStackLocalName va' offset name =>
    have hne : va ≠ va' := fun h => he offset (by rw [h]; rfl)
    simp [Project.upsertFrameVar, Finmap.lookup_insert_of_ne _ hne]
  | _ => simp [Project.setFocus_eq, Project.setFunctionMemory_eq, Project.renameSymbol,
      Project.setParamName]

/-- There is a frame, and it has this shape. -/
def Shaped (frame₀ : StackFrame) (f : Option StackFrame) : Prop := ∃ frame, f = some frame ∧ SameShape frame frame₀

/-- There is a frame, and it holds a variable at the offset. -/
def HoldsVar (offset : Int) (f : Option StackFrame) : Prop :=
  ∃ frame, f = some frame ∧ ∃ v ∈ frame.vars (isArg offset), v.offset = offset

/-- An edit of a variable that is there keeps the shape of the frame. -/
theorem upsertFrameVar_shape (va : Nat) {frame₀ : StackFrame} {offset : Int} {i : Nat} (hi : frame₀.slotIndex offset = some i)
    {mutate : StackVariable → StackVariable} (hplace : ∀ v, (mutate v).place = v.place) {t : Project}
    (ht : Shaped frame₀ (t.functionFrames.lookup va)) :
    Shaped frame₀ ((t.upsertFrameVar va offset mutate).functionFrames.lookup va) := by
  obtain ⟨frame, hframe, hshape⟩ := ht
  refine ⟨_, Finmap.lookup_insert _, ?_⟩
  rw [Project.frameOrDefault, hframe]
  exact hshape.upsert hi hplace

/-- The edited variable is there afterwards, and so are the ones that were. -/
theorem upsertFrameVar_slot (va : Nat) {offset offset' : Int} {mutate : StackVariable → StackVariable}
    (hplace : ∀ v, (mutate v).place = v.place) {t : Project}
    (ht : offset' = offset ∨ HoldsVar offset (t.functionFrames.lookup va)) :
    HoldsVar offset ((t.upsertFrameVar va offset' mutate).functionFrames.lookup va) := by
  refine ⟨_, Finmap.lookup_insert _, ?_⟩
  rw [upsertStackVar_vars]
  rcases ht with rfl | ⟨frame, hframe, hv⟩
  · rw [if_pos rfl]
    exact (mem_upsertList hplace _ _).mpr (Or.inr rfl)
  · rw [Project.frameOrDefault, hframe, Option.getD_some]
    split
    · exact (mem_upsertList hplace _ _).mpr (Or.inl hv)
    · exact hv

/-- What is true of a frame, and stays true when it is edited, is kept by every operation and
every undo. -/
theorem frame_kept {P : Option StackFrame → Prop} {l : Op} (hl : l.Fresh) {va : Nat}
    (hedit : ∀ offset, l.frameEdit = some (va, offset) → ∀ mutate : StackVariable → StackVariable,
      (∀ v, (mutate v).place = v.place) → ∀ t : Project, P (t.functionFrames.lookup va) →
        P ((t.upsertFrameVar va offset mutate).functionFrames.lookup va))
    (a : Project) {t : Project} (ht : P (t.functionFrames.lookup va)) :
    P ((l.applyTo t).functionFrames.lookup va) ∧ P ((l.back a t).functionFrames.lookup va) := by
  by_cases h : ∃ offset, l.frameEdit = some (va, offset)
  · obtain ⟨offset, he⟩ := h
    rw [(frameEdit_step hl he t t).1, (frameEdit_step hl he a t).2]
    exact ⟨hedit offset he _ (mutateVar_place l) t ht, hedit offset he _ (unmutateVar_place a l) t ht⟩
  · rw [(frames_untouched hl (not_exists.mp h) t t).1, (frames_untouched hl (not_exists.mp h) a t).2]
    exact ⟨ht, ht⟩

section Frames
variable {ls : List Op} (hls : ∀ l ∈ ls, l.Fresh) (s : Project) (va : Nat)
include hls

theorem slot_kept {l : Op} (hl : l ∈ ls) {offset : Int} (a : Project) {t : Project}
    (ht : HoldsVar offset (t.functionFrames.lookup va)) :
    HoldsVar offset ((l.applyTo t).functionFrames.lookup va) ∧ HoldsVar offset ((l.back a t).functionFrames.lookup va) :=
  frame_kept (hls l hl) (fun _ _ _ hplace _ ht => upsertFrameVar_slot va hplace (Or.inr ht)) a ht

/-- An edited variable is there afterwards. -/
theorem undone_slot {l : Op} (hl : l ∈ ls) {offset : Int} (he : l.frameEdit = some (va, offset)) :
    HoldsVar offset ((undone s ls).functionFrames.lookup va) := by
  obtain ⟨pre, post, rfl⟩ := List.append_of_mem hl
  refine UndoLog.undone_established (UndoLog.Keeps.trivial _)
    (fun t : Project => HoldsVar offset (t.functionFrames.lookup va)) ?_ ?_ True.intro
  · intro a b _ _
    rw [(frameEdit_step (hls l hl) he a b).2]
    exact upsertFrameVar_slot va (unmutateVar_place a l) (Or.inl rfl)
  · intro l' hl' a b _ _ hb
    exact (slot_kept hls va (List.mem_append_left _ hl') a hb).2

/-- As long as every edited variable of the frame is there, the frame keeps its
shape. -/
theorem shape_kept {frame₀ : StackFrame}
    (hslots : ∀ l ∈ ls, ∀ offset, l.frameEdit = some (va, offset) → ∃ i, frame₀.slotIndex offset = some i)
    {l : Op} (hl : l ∈ ls) (a : Project) {t : Project}
    (ht : Shaped frame₀ (t.functionFrames.lookup va)) :
    Shaped frame₀ ((l.applyTo t).functionFrames.lookup va) ∧ Shaped frame₀ ((l.back a t).functionFrames.lookup va) := by
  refine frame_kept (hls l hl) ?_ a ht
  intro offset he mutate hplace t ht
  obtain ⟨i, hi⟩ := hslots l hl offset he
  exact upsertFrameVar_shape va hi hplace ht

theorem keeps_shape {frame₀ : StackFrame}
    (hslots : ∀ l ∈ ls, ∀ offset, l.frameEdit = some (va, offset) → ∃ i, frame₀.slotIndex offset = some i) :
    UndoLog.Keeps applyTo back (fun t => Shaped frame₀ (t.functionFrames.lookup va)) ls :=
  ⟨fun _ hl a ha => (shape_kept hls va hslots hl a ha).1, fun _ hl a _ _ hb => (shape_kept hls va hslots hl a hb).2⟩

end Frames

/-- A field of a stack variable, with the edits that write it and what their
undo writes back. -/
structure VarField where
  Value : Type
  get : StackVariable → Value
  restore : Option Value → Value
  writes : Op → Prop
  keep_fwd : ∀ l, ¬ writes l → ∀ v, get (l.mutateVar v) = get v
  keep_back : ∀ l, ¬ writes l → ∀ a v, get (l.unmutateVar a v) = get v
  undo : ∀ l va offset, writes l → l.frameEdit = some (va, offset) → ∀ a v,
    get (l.unmutateVar a v) = restore (((a.frameOrDefault va).findVar offset).map get)

def tyField : VarField where
  Value := DataType
  get := StackVariable.ty
  restore := restoreTy
  writes l := match l with
    | .setStackLocalType .. => True
    | _ => False
  keep_fwd l h v := by cases l <;> simp_all [mutateVar]
  keep_back l h a v := by cases l <;> simp_all [unmutateVar]
  undo l va offset h he a v := by cases l <;> simp_all [unmutateVar, frameEdit]

def nameField : VarField where
  Value := Option String
  get := StackVariable.name
  restore := restoreName
  writes l := match l with
    | .setStackLocalName .. => True
    | _ => False
  keep_fwd l h v := by cases l <;> simp_all [mutateVar]
  keep_back l h a v := by cases l <;> simp_all [unmutateVar]
  undo l va offset h he a v := by cases l <;> simp_all [unmutateVar, frameEdit]

section Field
variable {ls : List Op} (hls : ∀ l ∈ ls, l.Fresh) (s : Project) (va : Nat)

/-- A field of the variable at one position. -/
def VarField.look (fld : VarField) (va : Nat) (b : Bool) (i : Nat) (t : Project) : Option (Option fld.Value) :=
  (t.functionFrames.lookup va).map fun frame => (frame.vars b)[i]?.map fld.get

/-- The edit writes the field of the variable at position `i` of one list. -/
def writesAt (fld : VarField) (va : Nat) (frame₀ : StackFrame) (b : Bool) (i : Nat) (l : Op) : Prop :=
  fld.writes l ∧ ∃ offset, l.frameEdit = some (va, offset) ∧ isArg offset = b ∧
    frame₀.slotIndex offset = some i

/-- An edit of the frame seen at one position: only the variable it finds there
changes. -/
theorem upsertFrameVar_field (fld : VarField) {frame₀ : StackFrame} {t : Project} {offset : Int} {j : Nat}
    (ht : Shaped frame₀ (t.functionFrames.lookup va))
    (hj : frame₀.slotIndex offset = some j) (mutate : StackVariable → StackVariable) (b : Bool) (i : Nat)
    (hsame : b = isArg offset → j = i → ∀ v, fld.get (mutate v) = fld.get v) :
    fld.look va b i (t.upsertFrameVar va offset mutate) = fld.look va b i t := by
  obtain ⟨frame, hframe, hshape⟩ := ht
  simp only [VarField.look, Project.upsertFrameVar, Finmap.lookup_insert, Project.frameOrDefault, hframe,
    Option.getD_some, Option.map_some, Option.some.injEq]
  rw [hshape.upsert_vars hj mutate b]
  by_cases hb : b = isArg offset
  · rw [if_pos hb]
    by_cases hji : j = i
    · cases hg : (frame.vars b)[i]? <;> simp [hji, hg, hsame hb hji]
    · simp [hji]
  · rw [if_neg hb]

include hls

/-- An operation and its undo keep the fields that it does not write. -/
theorem field_untouched (fld : VarField) {frame₀ : StackFrame}
    (hslots : ∀ l ∈ ls, ∀ offset, l.frameEdit = some (va, offset) → ∃ i, frame₀.slotIndex offset = some i)
    {b : Bool} {i : Nat} {l : Op} (hl : l ∈ ls) (hno : ¬ writesAt fld va frame₀ b i l) (a : Project) {t : Project}
    (ht : Shaped frame₀ (t.functionFrames.lookup va)) :
    fld.look va b i (l.applyTo t) = fld.look va b i t ∧ fld.look va b i (l.back a t) = fld.look va b i t := by
  by_cases hedit : ∃ offset, l.frameEdit = some (va, offset)
  · obtain ⟨offset, he⟩ := hedit
    obtain ⟨j, hj⟩ := hslots l hl offset he
    have hother : b = isArg offset → j = i → ¬ fld.writes l := by
      intro hb hji hw
      exact hno ⟨hw, offset, he, hb.symm, by rw [hj, hji]⟩
    rw [(frameEdit_step (hls l hl) he t t).1, (frameEdit_step (hls l hl) he a t).2]
    exact ⟨upsertFrameVar_field va fld ht hj _ b i fun hb hji => fld.keep_fwd l (hother hb hji),
      upsertFrameVar_field va fld ht hj _ b i fun hb hji => fld.keep_back l (hother hb hji) a⟩
  · unfold VarField.look
    rw [(frames_untouched (hls l hl) (not_exists.mp hedit) t t).1, (frames_untouched (hls l hl) (not_exists.mp hedit) a t).2]
    exact ⟨rfl, rfl⟩

/-- After the round trip a field holds what the undo of the edits writing it
restores, from what the frame held at the start. -/
theorem undone_field (fld : VarField) {frame₀ : StackFrame}
    (hframe : s.functionFrames.lookup va = some frame₀)
    (hslots : ∀ l ∈ ls, ∀ offset, l.frameEdit = some (va, offset) → ∃ i, frame₀.slotIndex offset = some i)
    (b : Bool) (i : Nat) {y : Option fld.Value}
    (hy : ∀ l ∈ ls, ∀ offset, fld.writes l → l.frameEdit = some (va, offset) → isArg offset = b →
      frame₀.slotIndex offset = some i → some (fld.restore ((frame₀.findVar offset).map fld.get)) = y)
    (hxy : (frame₀.vars b)[i]?.map fld.get = y ∨ ∃ l ∈ ls, writesAt fld va frame₀ b i l) :
    fld.look va b i (undone s ls) = some y := by
  refine UndoLog.undone_settles (keeps_shape hls va hslots) (fld.look va b i)
    (writesAt fld va frame₀ b i) (x := some ((frame₀.vars b)[i]?.map fld.get)) ?_ ?_ ?_
    (hxy.imp_left (congrArg some)) ⟨frame₀, hframe, SameShape.refl frame₀⟩ (by rw [VarField.look, hframe]; rfl)
  · exact fun l hl a ha hno => (field_untouched hls va fld hslots hl hno a ha).1
  · exact fun l hl a c _ hc hno => (field_untouched hls va fld hslots hl hno a hc).2
  · -- The undo writes what was captured where the field still had its first value.
    intro l hl a c ha hc hwrite hobs
    obtain ⟨hw, offset, he, rfl, hi⟩ := hwrite
    obtain ⟨frameA, hframeA, hshapeA⟩ := ha
    obtain ⟨frameC, hframeC, hshapeC⟩ := hc
    have hcap : (frameA.findVar offset).map fld.get = (frame₀.findVar offset).map fld.get := by
      refine hshapeA.findVar_field fld.get hi ?_
      simpa [VarField.look, hframeA] using hobs
    obtain ⟨hlt, -, -⟩ := List.findIdx?_eq_some_iff_getElem.mp ((hshapeC.slotIndex_eq offset).trans hi)
    rw [(frameEdit_step (hls l hl) he a c).2, ← hy l hl offset hw he rfl hi, ← hcap]
    simp only [VarField.look, Project.upsertFrameVar, Finmap.lookup_insert, Project.frameOrDefault, hframeC,
      Option.getD_some, Option.map_some]
    rw [hshapeC.upsert_vars hi, if_pos rfl, List.getElem?_modify_eq, List.getElem?_eq_getElem hlt]
    simp [fld.undo l va offset hw he, Project.frameOrDefault, hframeA]

omit hls in
/-- Frames of one shape with the same types and names are equal. -/
theorem frame_eq_of_fields {frame frame₀ : StackFrame} (hshape : SameShape frame frame₀)
    (hty : ∀ b (i : Nat), (frame.vars b)[i]?.map StackVariable.ty = (frame₀.vars b)[i]?.map StackVariable.ty)
    (hname : ∀ b (i : Nat), (frame.vars b)[i]?.map StackVariable.name = (frame₀.vars b)[i]?.map StackVariable.name) :
    frame = frame₀ := by
  have hvars : ∀ b, frame.vars b = frame₀.vars b := by
    intro b
    apply List.ext_getElem?
    intro i
    have hplace : (frame.vars b)[i]?.map StackVariable.place = (frame₀.vars b)[i]?.map StackVariable.place := by
      rw [← List.getElem?_map, ← List.getElem?_map, hshape.places b]
    have hty := hty b i
    have hname := hname b i
    cases hv : (frame.vars b)[i]? with
    | none => simpa [hv] using hplace
    | some v =>
      obtain ⟨v₀, hv₀, hp⟩ : ∃ v₀, (frame₀.vars b)[i]? = some v₀ ∧ v₀.place = v.place := by
        simpa [hv] using hplace.symm
      rw [hv₀]
      obtain ⟨n, t, o, z⟩ := v
      obtain ⟨n₀, t₀, o₀, z₀⟩ := v₀
      simp only [hv, hv₀, Option.map_some, Option.some.injEq] at hty hname
      simp only [StackVariable.place, Prod.mk.injEq] at hp
      rw [hty, hname, hp.1, hp.2]
  have hlocals : frame.locals = frame₀.locals := hvars false
  have hargs : frame.args = frame₀.args := hvars true
  obtain ⟨_, _, _, _, _⟩ := frame
  obtain ⟨_, _, _, _, _⟩ := frame₀
  simp only [StackFrame.mk.injEq]
  exact ⟨hshape.localSize, hshape.argSize, hshape.returnAddrOffset, hlocals, hargs⟩

omit hls in
theorem slotIndex_of_mem {frame : StackFrame} {offset : Int}
    (h : ∃ v ∈ frame.vars (isArg offset), v.offset = offset) : ∃ i, frame.slotIndex offset = some i := by
  obtain ⟨v, hv, ho⟩ := h
  exact ⟨_, List.findIdx?_eq_some_of_exists ⟨v, hv, by simpa using ho⟩⟩

omit hls in
theorem slotIndex_of_slot {frame : StackFrame} {offset : Int} {v : StackVariable}
    (h : frame.slot offset = some v) : ∃ i, frame.slotIndex offset = some i :=
  slotIndex_of_mem ⟨v, List.mem_of_find?_eq_some h, by simpa using List.find?_some h⟩

omit hls in
/-- A position holds the variable of one offset only. -/
theorem offset_of_slotIndex {frame : StackFrame} {offset offset' : Int} {i : Nat}
    (hb : isArg offset' = isArg offset) (h : frame.slotIndex offset = some i)
    (h' : frame.slotIndex offset' = some i) : offset' = offset := by
  rw [StackFrame.slotIndex, hb] at h'
  obtain ⟨hlt, hp, -⟩ := List.findIdx?_eq_some_iff_getElem.mp h
  obtain ⟨hlt', hp', -⟩ := List.findIdx?_eq_some_iff_getElem.mp h'
  rw [← of_decide_eq_true hp, ← of_decide_eq_true hp']

/-- A restored frame had the variable of every edit, with each field equal to
what its undo writes. -/
theorem field_of_undone (fld : VarField)
    (heq : (undone s ls).functionFrames.lookup va = s.functionFrames.lookup va)
    {l : Op} (hl : l ∈ ls) {offset : Int} (he : l.frameEdit = some (va, offset)) :
    ∃ frame v, s.functionFrames.lookup va = some frame ∧ frame.slot offset = some v ∧
      (fld.writes l → fld.get v = fld.restore ((frame.findVar offset).map fld.get)) := by
  obtain ⟨frame₀, hframe, hmem⟩ := undone_slot hls s va hl he
  rw [heq] at hframe
  have hslots : ∀ l ∈ ls, ∀ offset, l.frameEdit = some (va, offset) →
      ∃ i, frame₀.slotIndex offset = some i := by
    intro l' hl' offset' he'
    obtain ⟨frame, hframe', hmem'⟩ := undone_slot hls s va hl' he'
    rw [heq, hframe, Option.some.injEq] at hframe'
    subst hframe'
    exact slotIndex_of_mem hmem'
  obtain ⟨i, hi⟩ := hslots l hl offset he
  have hslot := (SameShape.refl frame₀).slot_eq hi
  obtain ⟨hlt, -, -⟩ := List.findIdx?_eq_some_iff_getElem.mp hi
  rw [List.getElem?_eq_getElem hlt] at hslot
  refine ⟨frame₀, _, hframe, hslot, fun hw => ?_⟩
  have hdone := undone_field hls s va fld hframe hslots (isArg offset) i
    (y := some (fld.restore ((frame₀.findVar offset).map fld.get)))
    (fun l' _ offset' _ _ hb hi' => by rw [offset_of_slotIndex hb hi hi'])
    (Or.inr ⟨l, hl, hw, offset, he, rfl, hi⟩)
  rw [VarField.look, heq, hframe] at hdone
  simpa [List.getElem?_eq_getElem hlt] using hdone

/-- The frame of `va` is restored exactly when every edited variable was there
with the type, or the name, that its undo writes back. -/
theorem undone_functionFrames :
    (undone s ls).functionFrames.lookup va = s.functionFrames.lookup va ↔
      ∀ l ∈ ls, ∀ offset, l.frameEdit = some (va, offset) →
        ∃ frame v, s.functionFrames.lookup va = some frame ∧ frame.slot offset = some v ∧
          (tyField.writes l → v.ty = restoreTy ((frame.findVar offset).map StackVariable.ty)) ∧
          (nameField.writes l → v.name = restoreName ((frame.findVar offset).map StackVariable.name)) := by
  constructor
  · intro heq l hl offset he
    obtain ⟨frame, v, hframe, hslot, hty⟩ := field_of_undone hls s va tyField heq hl he
    obtain ⟨frame', v', hframe', hslot', hname⟩ := field_of_undone hls s va nameField heq hl he
    rw [hframe, Option.some.injEq] at hframe'
    subst hframe'
    rw [hslot, Option.some.injEq] at hslot'
    subst hslot'
    exact ⟨frame, v, hframe, hslot, hty, hname⟩
  · intro h
    by_cases hedit : ∃ l ∈ ls, ∃ offset, l.frameEdit = some (va, offset)
    · obtain ⟨l₀, hl₀, offset₀, he₀⟩ := hedit
      obtain ⟨frame₀, v₀, hframe, -, -⟩ := h l₀ hl₀ offset₀ he₀
      have hcond : ∀ l ∈ ls, ∀ offset, l.frameEdit = some (va, offset) →
          ∃ v, frame₀.slot offset = some v ∧
            (tyField.writes l → v.ty = restoreTy ((frame₀.findVar offset).map StackVariable.ty)) ∧
            (nameField.writes l → v.name = restoreName ((frame₀.findVar offset).map StackVariable.name)) := by
        intro l hl offset he
        obtain ⟨frame, v, hframe', hv⟩ := h l hl offset he
        rw [hframe, Option.some.injEq] at hframe'
        subst hframe'
        exact ⟨v, hv⟩
      have hslots : ∀ l ∈ ls, ∀ offset, l.frameEdit = some (va, offset) →
          ∃ i, frame₀.slotIndex offset = some i := fun l hl offset he =>
        (hcond l hl offset he).elim fun v hv => slotIndex_of_slot hv.1
      obtain ⟨frame, hdone, hshape⟩ :=
        UndoLog.undone_inv (keeps_shape hls va hslots) ⟨frame₀, hframe, SameShape.refl frame₀⟩
      change (undone s ls).functionFrames.lookup va = some frame at hdone
      have hfield : ∀ fld : VarField, (∀ l ∈ ls, ∀ offset v, l.frameEdit = some (va, offset) →
          frame₀.slot offset = some v → fld.writes l →
            fld.get v = fld.restore ((frame₀.findVar offset).map fld.get)) →
          ∀ b (i : Nat), (frame.vars b)[i]?.map fld.get = (frame₀.vars b)[i]?.map fld.get := by
        intro fld hfld b i
        have hobs := undone_field hls s va fld hframe hslots b i
          (y := (frame₀.vars b)[i]?.map fld.get) ?_ (Or.inl rfl)
        · simpa [VarField.look, hdone] using hobs
        · intro l hl offset hw he hb hi
          obtain ⟨v, hv, -⟩ := hcond l hl offset he
          rw [← hfld l hl offset v he hv hw, ← hb, ← (SameShape.refl frame₀).slot_eq hi, hv]
          rfl
      rw [hdone, hframe, frame_eq_of_fields hshape (hfield tyField ?_) (hfield nameField ?_)]
      · intro l hl offset v he hv hw
        obtain ⟨v', hv', hty, -⟩ := hcond l hl offset he
        rw [hv, Option.some.injEq] at hv'
        subst hv'
        exact hty hw
      · intro l hl offset v he hv hw
        obtain ⟨v', hv', -, hname⟩ := hcond l hl offset he
        rw [hv, Option.some.injEq] at hv'
        subst hv'
        exact hname hw
    · have hno : ∀ l ∈ ls, ∀ offset, l.frameEdit ≠ some (va, offset) := by
        simpa using hedit
      refine UndoLog.undone_restores (UndoLog.Keeps.trivial ls)
        (fun t : Project => t.functionFrames.lookup va) (fun _ => False) _ ?_ ?_ ?_ True.intro rfl
      · exact fun l hl a _ _ => (frames_untouched (hls l hl) (hno l hl) a a).1
      · exact fun l hl a b _ _ _ => (frames_untouched (hls l hl) (hno l hl) a b).2
      · exact fun l _ _ _ _ _ hf => hf.elim

end Field

end Op

end Windy
