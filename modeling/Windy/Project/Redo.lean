import Windy.Project.UndoExact

/- Redo: applying an operation once more after it was undone (`redo_one`).

   An undo need not restore the state the operation started from: created entries stay behind,
   empty or with default values. The operation applied again overwrites all of them. For a
   store that is only inserted into this is so because the last edit of a key decides. For a
   signature or a frame of which an edit changes a part, the parts that no edit names are left
   alone from the first application on, and of the others the last edit decides.

   What is proved:
     `redo_same`: applying an operation, its inverse and then the operation with what it
     captured leaves the same annotation stores as applying it once. -/
namespace Windy.Op

/-- The state after the leaves, the undo of all of them, and the leaves again. -/
abbrev redone (s : Project) (ls : List Op) : Project := UndoLog.run applyTo (undone s ls) ls

/-- The state after the leaves. -/
abbrev ran (s : Project) (ls : List Op) : Project := UndoLog.run applyTo s ls

/-! ## One variable of a frame -/

theorem find?_orderedInsert (x : StackVariable) (list : List StackVariable) (offset : Int) :
    (list.orderedInsert (fun a b => a.offset ≤ b.offset) x).find? (fun v => v.offset = offset) =
      (x :: list).find? (fun v => v.offset = offset) := by
  induction list with
  | nil => rfl
  | cons y ys ih =>
    rw [List.orderedInsert_cons]
    split
    · rfl
    · next hlt =>
      -- a variable that is passed has another offset than the inserted one
      rw [List.find?_cons, ih, List.find?_cons, List.find?_cons, List.find?_cons]
      by_cases hx : x.offset = offset <;> by_cases hy : y.offset = offset
      · exact absurd (by rw [hx, hy]) hlt
      · simp [hx, hy]
      · simp [hx, hy]
      · simp [hx, hy]

/-- A stable sort by offset keeps the first variable at an offset. -/
theorem find?_insertionSort (list : List StackVariable) (offset : Int) :
    (list.insertionSort fun a b => a.offset ≤ b.offset).find? (fun v => v.offset = offset) =
      list.find? fun v => v.offset = offset := by
  induction list with
  | nil => rfl
  | cons x xs ih => rw [List.insertionSort_cons, find?_orderedInsert, List.find?_cons, List.find?_cons, ih]

theorem find?_modify_of_not {p : StackVariable → Bool} {f : StackVariable → StackVariable} (hf : ∀ v, p (f v) = p v)
    (list : List StackVariable) (i : Nat) (hi : ∀ v, list[i]? = some v → p v = false) :
    (list.modify i f).find? p = list.find? p := by
  induction list generalizing i with
  | nil => rw [List.modify_nil]
  | cons x xs ih =>
    cases i with
    | zero =>
      have hx := hi x rfl
      rw [List.modify_zero_cons, List.find?_cons, List.find?_cons, hf, hx]
    | succ i => rw [List.modify_succ_cons, List.find?_cons, List.find?_cons, ih i hi]

theorem find?_modify_self {p : StackVariable → Bool} {f : StackVariable → StackVariable} (hf : ∀ v, p (f v) = p v)
    {list : List StackVariable} {i : Nat} (hi : list.findIdx? p = some i) :
    (list.modify i f).find? p = (list.find? p).map f := by
  induction list generalizing i with
  | nil => cases hi
  | cons x xs ih =>
    rw [List.findIdx?_cons] at hi
    cases hx : p x with
    | true =>
      rw [hx, if_pos rfl] at hi
      rw [← Option.some.inj hi, List.modify_zero_cons, List.find?_cons, List.find?_cons, hf, hx]
      rfl
    | false =>
      rw [hx, if_neg Bool.false_ne_true] at hi
      obtain ⟨j, hj, rfl⟩ := Option.map_eq_some_iff.mp hi
      rw [List.modify_succ_cons, List.find?_cons, List.find?_cons, hx]
      exact ih hj

section Upsert
variable {mutate : StackVariable → StackVariable} (hplace : ∀ v, (mutate v).place = v.place) (list : List StackVariable)
include hplace

theorem find?_upsertList_of_ne {offset o : Int} (hne : offset ≠ o) :
    (upsertList offset mutate list).find? (fun v => v.offset = o) = list.find? fun v => v.offset = o := by
  have hoff : ∀ v, (mutate v).offset = v.offset := fun v => congrArg Prod.fst (hplace v)
  unfold upsertList
  split
  · next i hi =>
    apply find?_modify_of_not
    · exact fun v => by rw [hoff]
    · intro v hv
      obtain ⟨hlt, hp, -⟩ := List.findIdx?_eq_some_iff_getElem.mp hi
      rw [List.getElem?_eq_getElem hlt, Option.some.injEq] at hv
      rw [hv] at hp
      rw [of_decide_eq_true hp]
      exact decide_eq_false hne
  · rw [find?_insertionSort, List.find?_append, List.find?_singleton, if_neg]
    · exact Option.or_none
    · rw [hoff, decide_eq_true_eq]
      exact hne

theorem find?_upsertList_self (offset : Int) :
    (upsertList offset mutate list).find? (fun v => v.offset = offset) =
      some (mutate ((list.find? fun v => v.offset = offset).getD (freshStackVar offset))) := by
  have hoff : ∀ v, (mutate v).offset = v.offset := fun v => congrArg Prod.fst (hplace v)
  unfold upsertList
  split
  · next i hi =>
    have hsome : ∃ v, list.find? (fun v => v.offset = offset) = some v := by
      obtain ⟨hlt, hp, -⟩ := List.findIdx?_eq_some_iff_getElem.mp hi
      rw [← Option.isSome_iff_exists, List.find?_isSome]
      exact ⟨_, List.getElem_mem hlt, hp⟩
    obtain ⟨v, hv⟩ := hsome
    rw [find?_modify_self (fun v => by rw [hoff]) hi, hv]
    rfl
  · next hnone =>
    have hfind : list.find? (fun v => v.offset = offset) = none := by
      rw [List.find?_eq_none]
      rw [List.findIdx?_eq_none_iff] at hnone
      exact fun v hv => by simpa using hnone v hv
    rw [find?_insertionSort, List.find?_append, hfind, Option.none_or, List.find?_singleton, if_pos]
    · rfl
    · rw [hoff, decide_eq_true_eq]
      rfl

end Upsert

theorem slot_upsertStackVar_of_ne {mutate : StackVariable → StackVariable} (hplace : ∀ v, (mutate v).place = v.place)
    (frame : StackFrame) {offset o : Int} (hne : offset ≠ o) :
    (upsertStackVar frame offset mutate).slot o = frame.slot o := by
  rw [StackFrame.slot, StackFrame.slot, upsertStackVar_vars]
  split
  · exact find?_upsertList_of_ne hplace _ hne
  · rfl

theorem slot_upsertStackVar_self {mutate : StackVariable → StackVariable} (hplace : ∀ v, (mutate v).place = v.place)
    (frame : StackFrame) (offset : Int) :
    (upsertStackVar frame offset mutate).slot offset = some (mutate ((frame.slot offset).getD (freshStackVar offset))) := by
  rw [StackFrame.slot, upsertStackVar_vars, if_pos rfl, find?_upsertList_self hplace]
  rfl

/-- What an edit writes does not depend on the variable. -/
def VarField.Sets (fld : VarField) : Prop := ∀ l : Op, fld.writes l → ∃ x, ∀ v, fld.get (l.mutateVar v) = x

theorem tyField_sets : tyField.Sets := by
  intro l hw
  cases l with
  | setStackLocalType va offset ty old => exact ⟨ty, fun _ => rfl⟩
  | _ => exact hw.elim

theorem nameField_sets : nameField.Sets := by
  intro l hw
  cases l with
  | setStackLocalName va offset name old => exact ⟨localNameOf name, fun _ => rfl⟩
  | _ => exact hw.elim

/-- A field of the variable at an offset, if it is there. -/
def fieldAt (fld : VarField) (va : Nat) (offset : Int) (t : Project) : Option fld.Value :=
  (t.functionFrames.lookup va).bind fun frame => (frame.slot offset).map fld.get

/-! ## One parameter of a signature -/

/-- Two signatures that differ in the names of some parameters only. -/
structure SameBut (touched : Nat → Prop) (sig sig₁ : FunctionSignature) : Prop where
  name : sig.name = sig₁.name
  ret : sig.ret = sig₁.ret
  callingConv : sig.callingConv = sig₁.callingConv
  types : sig.params.map Prod.snd = sig₁.params.map Prod.snd
  params : ∀ i, ¬ touched i → sig.params[i]? = sig₁.params[i]?

theorem SameBut.rename {touched : Nat → Prop} {sig sig₁ : FunctionSignature} (h : SameBut touched sig sig₁) {index : Nat}
    (htouched : touched index) (name : String) :
    SameBut touched { sig with params := Windy.setParamName sig.params index name } sig₁ := by
  refine ⟨h.name, h.ret, h.callingConv, ?_, ?_⟩
  · rw [← h.types]
    apply List.ext_getElem?
    intro i
    by_cases hi : index = i <;> cases hp : sig.params[i]? <;> simp [Windy.setParamName, hi, hp]
  · intro i hi
    have hne : index ≠ i := fun heq => hi (heq ▸ htouched)
    rw [← h.params i hi]
    simp [Windy.setParamName, hne]

/-- Signatures of one shape with the same names are equal. -/
theorem SameBut.eq {touched : Nat → Prop} {sig sig₁ : FunctionSignature} (h : SameBut touched sig sig₁)
    (hnames : ∀ i, touched i → sig.params[i]?.map Prod.fst = sig₁.params[i]?.map Prod.fst) : sig = sig₁ := by
  have hparams : sig.params = sig₁.params := by
    apply List.ext_getElem?
    intro i
    by_cases hi : touched i
    · have htypes : sig.params[i]?.map Prod.snd = sig₁.params[i]?.map Prod.snd := by
        rw [← List.getElem?_map, ← List.getElem?_map, h.types]
      have hname := hnames i hi
      cases hp : sig.params[i]? with
      | none => simpa [hp, eq_comm] using htypes
      | some p =>
        cases hq : sig₁.params[i]? with
        | none => simp [hp, hq] at htypes
        | some q =>
          rw [hp, hq, Option.map_some, Option.map_some, Option.some.injEq] at htypes hname
          rw [Prod.ext hname htypes]
    · exact h.params i hi
  obtain ⟨_, _, _, _⟩ := sig
  obtain ⟨_, _, _, _⟩ := sig₁
  simp only [FunctionSignature.mk.injEq]
  exact ⟨h.name, hparams, h.ret, h.callingConv⟩

/-- The name of a parameter, if it is there. -/
def paramNameAt (va i : Nat) (t : Project) : Option String :=
  (t.functionSignatures.lookup va).bind fun sig => sig.params[i]?.map Prod.fst

theorem paramNameAt_setParamName_self (va i : Nat) (name : String) (t : Project) :
    paramNameAt va i (t.setParamName va i name) = some name := by
  have hlt : i < (extendParams ((t.functionSignatures.lookup va).getD (t.defaultSignature va)).params i).length := by
    rw [extendParams_length]
    omega
  simp [paramNameAt, Project.setParamName, Project.signatureFor, Windy.setParamName, List.getElem?_eq_getElem hlt]

theorem paramNameAt_setParamName_of_ne {va i j : Nat} (hne : j ≠ i) (name : String) {t : Project} {x : String}
    (h : paramNameAt va i t = some x) : paramNameAt va i (t.setParamName va j name) = some x := by
  obtain ⟨sig, hsig, hname⟩ := Option.bind_eq_some_iff.mp h
  obtain ⟨p, hp, hx⟩ := Option.map_eq_some_iff.mp hname
  have hlt : i < sig.params.length := (List.getElem?_eq_some_iff.mp hp).1
  have hext : (extendParams sig.params j)[i]? = some p := by
    rw [extendParams, List.getElem?_append_left hlt, hp]
  simp [paramNameAt, Project.setParamName, Project.signatureFor, hsig, Windy.setParamName, hne, hext, hx]

section Redone
variable {ls : List Op} (hls : ∀ l ∈ ls, l.Fresh) (s : Project)
include hls

/-! ## Stores that are only inserted into -/

theorem redone_symbols : (redone s ls).symbols = (ran s ls).symbols := UndoLog.redone_store (inserts_symbols hls) s

theorem redone_comments : (redone s ls).comments = (ran s ls).comments := by
  have haddr := UndoLog.redone_store (inserts_comments hls .address) s
  have hfun := UndoLog.redone_store (inserts_comments hls .function) s
  exact congrArg₂ CommentStore.mk haddr hfun

theorem redone_typedGlobals : (redone s ls).typedGlobals = (ran s ls).typedGlobals :=
  UndoLog.redone_store (inserts_typedGlobals hls) s

/-! ## Focus -/

theorem redone_focus : (redone s ls).focus = (ran s ls).focus := by
  have hfn : ∀ {t : Project}, t.functions = s.functions → t.hasFunction = s.hasFunction := by
    intro t ht
    funext va
    simp [Project.hasFunction, ht]
  have hkeeps := keeps_functions hls s
  have hundone : (undone s ls).functions = s.functions := UndoLog.undone_inv hkeeps rfl
  by_cases htaken : ∃ va, setFocus va none ∈ ls ∧ s.hasFunction va = true
  · -- the last function to take the focus has it
    have hsettled : ∃ v, ∀ t : Project, t.functions = s.functions → some (ran t ls).focus = some v := by
      apply UndoLog.run_settles (fun t : Project => some t.focus) hkeeps.fwd
      · intro l hl
        cases hls l hl with
        | setFocus v =>
          cases hv : s.hasFunction v with
          | true => exact .inl ⟨some v, fun t ht => by simp [Project.setFocus_eq, hfn ht, hv]⟩
          | false => exact .inr ⟨id, fun t x ht hx => by simpa [Project.setFocus_eq, hfn ht, hv] using hx⟩
        | _ => exact .inr ⟨id, fun t x _ hx => by simpa [Project.setFunctionMemory_eq, Project.upsertFrameVar,
            Project.setParamName, Project.renameSymbol] using hx⟩
      · obtain ⟨va, hmem, hva⟩ := htaken
        exact ⟨_, hmem, some va, fun t ht => by simp [Project.setFocus_eq, hfn ht, hva]⟩
    obtain ⟨v, hv⟩ := hsettled
    exact Option.some.inj ((hv _ hundone).trans (hv s rfl).symm)
  · -- no leaf moves the focus
    have hran : ∀ t : Project, t.functions = s.functions → (ran t ls).focus = t.focus := by
      intro t ht
      apply And.right
      apply UndoLog.run_kept (fun u : Project => u.functions = s.functions ∧ u.focus = t.focus) _ ⟨ht, rfl⟩
      intro l hl u hu
      refine ⟨hkeeps.fwd l hl u hu.1, ?_⟩
      cases hls l hl with
      | setFocus v =>
        have hv : s.hasFunction v = false := by
          cases h : s.hasFunction v with
          | false => rfl
          | true => exact absurd ⟨v, hl, h⟩ htaken
        simp [Project.setFocus_eq, hfn hu.1, hv, hu.2]
      | _ => simpa [Project.setFunctionMemory_eq, Project.upsertFrameVar, Project.setParamName,
          Project.renameSymbol] using hu.2
    rw [hran _ hundone, hran s rfl]
    exact (undone_focus hls s).mpr fun va hmem hva => absurd ⟨va, hmem, hva⟩ htaken

/-! ## Memory cards -/

theorem redone_functionMemory (va : Nat) :
    ((redone s ls).functionMemory.lookup va).map unstamped = ((ran s ls).functionMemory.lookup va).map unstamped := by
  have hresets : ∀ card, UndoLog.Resets applyTo (fun _ => True)
      (fun t : Project => some ((t.functionMemory.lookup va).map unstamped)) (setFunctionMemory va card none) := by
    intro card
    cases hclear : card.isClear with
    | true => exact ⟨none, fun t _ => by simp [Project.setFunctionMemory_eq, hclear]⟩
    | false =>
      exact ⟨some (unstamped { card with va := va }), fun t _ => by
        simp [Project.setFunctionMemory_eq, hclear, unstamped]⟩
  refine Option.some.inj (UndoLog.redone_eq
    (fun t : Project => some ((t.functionMemory.lookup va).map unstamped)) (UndoLog.Keeps.trivial ls) ?_ ?_ True.intro)
  · intro l hl
    by_cases ht : ∃ card, l = setFunctionMemory va card none
    · obtain ⟨card, rfl⟩ := ht
      exact .inl (hresets card)
    · refine .inr ⟨id, fun t x _ hx => ?_⟩
      exact (congrArg (fun c => some (Option.map unstamped c)) (functionMemory_untouched hls va hl t t ht).1).trans hx
  · by_cases hany : ∃ card, setFunctionMemory va card none ∈ ls
    · obtain ⟨card, hl⟩ := hany
      exact .inl ⟨_, hl, hresets card⟩
    · refine .inr fun l hl => ?_
      have ht : ¬ ∃ card, l = setFunctionMemory va card none := by
        intro h
        obtain ⟨card, rfl⟩ := h
        exact hany ⟨card, hl⟩
      constructor
      · exact fun t _ => by rw [(functionMemory_untouched hls va hl t t ht).1]
      · exact fun t u _ _ => by rw [(functionMemory_untouched hls va hl t u ht).2]

/-! ## Signatures -/

/-- A whole signature is written: what was there before does not matter. -/
theorem redone_signature_set (va : Nat) {sig : FunctionSignature} (hset : setFunctionSignature va sig none ∈ ls) :
    (redone s ls).functionSignatures.lookup va = (ran s ls).functionSignatures.lookup va := by
  refine UndoLog.redone_eq (fun t : Project => t.functionSignatures.lookup va) (UndoLog.Keeps.trivial ls) ?_
    (.inl ⟨_, hset, sig, fun t _ => by simp⟩) True.intro
  intro l hl
  by_cases ht : l.editsSignature va
  · cases hls l hl with
    | setFunctionSignature va' sig' =>
      obtain rfl : va' = va := ht
      exact .inl ⟨sig', fun t _ => by simp⟩
    | setParamName va' index name =>
      obtain rfl : va' = va := ht
      refine .inr ⟨fun sig => { sig with params := Windy.setParamName (extendParams sig.params index) index name },
        fun t x _ hx => ?_⟩
      simp [Project.setParamName, Project.signatureFor, hx]
    | _ => exact absurd ht (by simp [editsSignature])
  · exact .inr ⟨id, fun t x _ hx => ((functionSignatures_untouched hls va hl t t ht).1).trans hx⟩

/-- The parameters that the leaves name. -/
def namedParam (ls : List Op) (va i : Nat) : Prop := ∃ name, setParamName va i name none ∈ ls

section Named
variable {va : Nat} (hset : ∀ sig, setFunctionSignature va sig none ∉ ls)
include hset

/-- An edit of the signature names a parameter. -/
theorem eq_setParamName {l : Op} (hl : l ∈ ls) (hedit : l.editsSignature va) :
    ∃ index name, l = setParamName va index name none := by
  cases hls l hl with
  | setFunctionSignature va' sig =>
    obtain rfl : va' = va := hedit
    exact absurd hl (hset sig)
  | setParamName va' index name =>
    obtain rfl : va' = va := hedit
    exact ⟨index, name, rfl⟩
  | _ => exact absurd hedit (by simp [editsSignature])

/-- The signature that is there once the leaves are done holds every parameter they name. -/
theorem ran_signature {i : Nat} (hi : namedParam ls va i) :
    ∃ sig, (ran s ls).functionSignatures.lookup va = some sig ∧ i < sig.params.length := by
  obtain ⟨name, hmem⟩ := hi
  apply UndoLog.run_established (fun t : Project =>
    ∃ sig, t.functionSignatures.lookup va = some sig ∧ i < sig.params.length) hmem
  · intro t
    rw [applyTo_setParamName]
    refine ⟨_, Finmap.lookup_insert _, ?_⟩
    simp only [setParamName_length, Project.signatureFor, extendParams_length]
    omega
  · intro l hl t ht
    obtain ⟨sig, hsig, hlt⟩ := ht
    by_cases hedit : l.editsSignature va
    · obtain ⟨index, name', rfl⟩ := eq_setParamName hls hset hl hedit
      rw [applyTo_setParamName]
      refine ⟨_, Finmap.lookup_insert _, ?_⟩
      simp only [setParamName_length, Project.signatureFor, hsig, Option.getD_some, extendParams_length]
      omega
    · exact ⟨sig, ((functionSignatures_untouched hls va hl t t hedit).1).trans hsig, hlt⟩

/-- Neither the undo nor the redo changes more than the names of these parameters. -/
theorem redone_sameBut {sig₁ : FunctionSignature} (hran : (ran s ls).functionSignatures.lookup va = some sig₁) :
    ∃ sig, (redone s ls).functionSignatures.lookup va = some sig ∧ SameBut (namedParam ls va) sig sig₁ := by
  have hlt : ∀ i, namedParam ls va i → i < sig₁.params.length := by
    intro i hi
    obtain ⟨sig, hsig, hlt⟩ := ran_signature hls s hset hi
    rw [hran] at hsig
    rwa [Option.some.inj hsig]
  have hrename : ∀ {t : Project} {index : Nat} (name : String), namedParam ls va index →
      (∃ sig, t.functionSignatures.lookup va = some sig ∧ SameBut (namedParam ls va) sig sig₁) →
      ∃ sig, (t.setParamName va index name).functionSignatures.lookup va = some sig ∧
        SameBut (namedParam ls va) sig sig₁ := by
    intro t index name hindex ht
    obtain ⟨sig, hsig, hsame⟩ := ht
    have hlength : index < sig.params.length := by
      have := congrArg List.length hsame.types
      rw [List.length_map, List.length_map] at this
      rw [this]
      exact hlt index hindex
    exact ⟨_, setParamName_lookup va name hsig hlength, hsame.rename hindex name⟩
  have hstep : ∀ l ∈ ls, ∀ a t : Project,
      (∃ sig, t.functionSignatures.lookup va = some sig ∧ SameBut (namedParam ls va) sig sig₁) →
      (∃ sig, (l.applyTo t).functionSignatures.lookup va = some sig ∧ SameBut (namedParam ls va) sig sig₁) ∧
        ∃ sig, (l.back a t).functionSignatures.lookup va = some sig ∧ SameBut (namedParam ls va) sig sig₁ := by
    intro l hl a t ht
    by_cases hedit : l.editsSignature va
    · obtain ⟨index, name, rfl⟩ := eq_setParamName hls hset hl hedit
      rw [applyTo_setParamName, back_setParamName]
      exact ⟨hrename name ⟨name, hl⟩ ht, hrename _ ⟨name, hl⟩ ht⟩
    · rw [(functionSignatures_untouched hls va hl t t hedit).1, (functionSignatures_untouched hls va hl a t hedit).2]
      exact ⟨ht, ht⟩
  apply UndoLog.redone_kept (fun t : Project =>
    ∃ sig, t.functionSignatures.lookup va = some sig ∧ SameBut (namedParam ls va) sig sig₁)
  · exact fun l hl t ht => (hstep l hl t t ht).1
  · exact fun l hl a t ht => (hstep l hl a t ht).2
  · exact ⟨sig₁, hran, rfl, rfl, rfl, rfl, fun _ _ => rfl⟩

/-- The last leaf that names a parameter decides its name. -/
theorem redone_paramNameAt {i : Nat} (hi : namedParam ls va i) :
    paramNameAt va i (redone s ls) = paramNameAt va i (ran s ls) := by
  have hreset : ∀ name, UndoLog.Resets applyTo (fun _ => True) (paramNameAt va i) (setParamName va i name none) :=
    fun name => ⟨name, fun t _ => by rw [applyTo_setParamName, paramNameAt_setParamName_self]⟩
  obtain ⟨name, hmem⟩ := hi
  refine UndoLog.redone_eq (paramNameAt va i) (UndoLog.Keeps.trivial ls) ?_ (.inl ⟨_, hmem, hreset name⟩) True.intro
  intro l hl
  by_cases hedit : l.editsSignature va
  · obtain ⟨j, name', rfl⟩ := eq_setParamName hls hset hl hedit
    by_cases hj : j = i
    · rw [hj]
      exact .inl (hreset name')
    · refine .inr ⟨id, fun t x _ hx => ?_⟩
      rw [applyTo_setParamName]
      exact paramNameAt_setParamName_of_ne hj name' hx
  · refine .inr ⟨id, fun t x _ hx => ?_⟩
    rw [paramNameAt, (functionSignatures_untouched hls va hl t t hedit).1]
    exact hx

end Named

theorem redone_functionSignatures (va : Nat) :
    (redone s ls).functionSignatures.lookup va = (ran s ls).functionSignatures.lookup va := by
  by_cases hset : ∃ sig, setFunctionSignature va sig none ∈ ls
  · obtain ⟨sig, hsig⟩ := hset
    exact redone_signature_set hls s va hsig
  · have hno : ∀ sig, setFunctionSignature va sig none ∉ ls := not_exists.mp hset
    by_cases hnamed : ∃ i, namedParam ls va i
    · obtain ⟨i, hi⟩ := hnamed
      obtain ⟨sig₁, hran, -⟩ := ran_signature hls s hno hi
      obtain ⟨sig, hredone, hsame⟩ := redone_sameBut hls s hno hran
      rw [hredone, hran, hsame.eq]
      intro j hj
      have hname := redone_paramNameAt hls s hno hj
      rwa [paramNameAt, paramNameAt, hredone, hran] at hname
    · -- no leaf edits the signature
      have hedit : ∀ l ∈ ls, ¬ l.editsSignature va := by
        intro l hl hedit
        obtain ⟨index, name, rfl⟩ := eq_setParamName hls hno hl hedit
        exact hnamed ⟨index, name, hl⟩
      refine Option.some.inj (UndoLog.redone_eq (fun t : Project => some (t.functionSignatures.lookup va))
        (UndoLog.Keeps.trivial ls) ?_ (.inr ?_) True.intro)
      · exact fun l hl => .inr ⟨id, fun t x _ hx =>
          (congrArg some (functionSignatures_untouched hls va hl t t (hedit l hl)).1).trans hx⟩
      · exact fun l hl => ⟨fun t _ => congrArg some (functionSignatures_untouched hls va hl t t (hedit l hl)).1,
          fun t u _ _ => congrArg some (functionSignatures_untouched hls va hl t u (hedit l hl)).2⟩

/-! ## Frames -/

section Edited
variable {va : Nat}

/-- The frame that is there once the leaves are done holds every variable they edit. -/
theorem ran_slot {l : Op} (hl : l ∈ ls) {offset : Int} (he : l.frameEdit = some (va, offset)) :
    HoldsVar offset ((ran s ls).functionFrames.lookup va) := by
  apply UndoLog.run_established (fun t : Project => HoldsVar offset (t.functionFrames.lookup va)) hl
  · intro t
    rw [(frameEdit_step (hls l hl) he t t).1]
    exact upsertFrameVar_slot va (mutateVar_place l) (Or.inl rfl)
  · exact fun l' hl' t ht => (slot_kept hls va hl' t ht).1

variable {frame₁ : StackFrame} (hran : (ran s ls).functionFrames.lookup va = some frame₁)
  (hslots : ∀ l ∈ ls, ∀ offset, l.frameEdit = some (va, offset) → ∃ i, frame₁.slotIndex offset = some i)
include hran hslots

theorem redone_shape : Shaped frame₁ ((redone s ls).functionFrames.lookup va) := by
  apply UndoLog.redone_kept (fun t : Project => Shaped frame₁ (t.functionFrames.lookup va))
  · exact fun l hl t ht => (shape_kept hls va hslots hl t ht).1
  · exact fun l hl a t ht => (shape_kept hls va hslots hl a ht).2
  · exact ⟨frame₁, hran, SameShape.refl frame₁⟩

/-- A field that no leaf writes has its value all along. -/
theorem redone_field_untouched (fld : VarField) {b : Bool} {i : Nat} (hno : ∀ l ∈ ls, ¬ writesAt fld va frame₁ b i l) :
    fld.look va b i (redone s ls) = some ((frame₁.vars b)[i]?.map fld.get) := by
  have hkept : Shaped frame₁ ((redone s ls).functionFrames.lookup va) ∧
      fld.look va b i (redone s ls) = some ((frame₁.vars b)[i]?.map fld.get) := by
    apply UndoLog.redone_kept (fun t : Project =>
      Shaped frame₁ (t.functionFrames.lookup va) ∧ fld.look va b i t = some ((frame₁.vars b)[i]?.map fld.get))
    · intro l hl t ht
      exact ⟨(shape_kept hls va hslots hl t ht.1).1, (field_untouched hls va fld hslots hl (hno l hl) t ht.1).1.trans ht.2⟩
    · intro l hl a t ht
      exact ⟨(shape_kept hls va hslots hl a ht.1).2, (field_untouched hls va fld hslots hl (hno l hl) a ht.1).2.trans ht.2⟩
    · exact ⟨⟨frame₁, hran, SameShape.refl frame₁⟩, by rw [VarField.look, hran]; rfl⟩
  exact hkept.2

end Edited

/-- The last leaf that writes a field of a variable decides it. -/
theorem redone_fieldAt (va : Nat) {fld : VarField} (hsets : fld.Sets) {l : Op} (hl : l ∈ ls) {offset : Int}
    (he : l.frameEdit = some (va, offset)) (hw : fld.writes l) :
    fieldAt fld va offset (redone s ls) = fieldAt fld va offset (ran s ls) := by
  have hresets : ∀ l ∈ ls, l.frameEdit = some (va, offset) → fld.writes l →
      UndoLog.Resets applyTo (fun _ => True) (fieldAt fld va offset) l := by
    intro l hl he hw
    obtain ⟨x, hx⟩ := hsets l hw
    refine ⟨x, fun t _ => ?_⟩
    rw [(frameEdit_step (hls l hl) he t t).1, fieldAt, Project.upsertFrameVar, Finmap.lookup_insert, Option.bind_some,
      slot_upsertStackVar_self (mutateVar_place l), Option.map_some, hx]
  refine UndoLog.redone_eq (fieldAt fld va offset) (UndoLog.Keeps.trivial ls) ?_
    (.inl ⟨l, hl, hresets l hl he hw⟩) True.intro
  intro l' hl'
  by_cases hedit : ∃ offset', l'.frameEdit = some (va, offset')
  · obtain ⟨offset', he'⟩ := hedit
    by_cases hwrite : offset' = offset ∧ fld.writes l'
    · rw [hwrite.1] at he'
      exact .inl (hresets l' hl' he' hwrite.2)
    · -- another variable, or another field of this one
      refine .inr ⟨id, fun t x _ hx => ?_⟩
      obtain ⟨frame, hframe, hfield⟩ := Option.bind_eq_some_iff.mp hx
      rw [(frameEdit_step (hls l' hl') he' t t).1, fieldAt, Project.upsertFrameVar, Finmap.lookup_insert, Option.bind_some,
        Project.frameOrDefault, hframe, Option.getD_some]
      by_cases ho : offset' = offset
      · have hkeep := fld.keep_fwd l' fun hw' => hwrite ⟨ho, hw'⟩
        obtain ⟨v, hv, hget⟩ := Option.map_eq_some_iff.mp hfield
        rw [ho, slot_upsertStackVar_self (mutateVar_place l'), hv, Option.getD_some, Option.map_some, hkeep, hget]
        rfl
      · rw [slot_upsertStackVar_of_ne (mutateVar_place l') frame ho]
        exact hfield
  · refine .inr ⟨id, fun t x _ hx => ?_⟩
    rw [fieldAt, (frames_untouched (hls l' hl') (not_exists.mp hedit) t t).1]
    exact hx

theorem redone_functionFrames (va : Nat) :
    (redone s ls).functionFrames.lookup va = (ran s ls).functionFrames.lookup va := by
  by_cases hedit : ∃ l ∈ ls, ∃ offset, l.frameEdit = some (va, offset)
  · obtain ⟨l₀, hl₀, offset₀, he₀⟩ := hedit
    obtain ⟨frame₁, hran, -⟩ := ran_slot hls s hl₀ he₀
    have hslots : ∀ l ∈ ls, ∀ offset, l.frameEdit = some (va, offset) → ∃ i, frame₁.slotIndex offset = some i := by
      intro l hl offset he
      obtain ⟨frame, hframe, hmem⟩ := ran_slot hls s hl he
      rw [hran, Option.some.injEq] at hframe
      rw [hframe]
      exact slotIndex_of_mem hmem
    obtain ⟨frame, hredone, hshape⟩ := redone_shape hls s hran hslots
    have hfield : ∀ fld : VarField, fld.Sets →
        ∀ b (i : Nat), (frame.vars b)[i]?.map fld.get = (frame₁.vars b)[i]?.map fld.get := by
      intro fld hsets b i
      by_cases hwrites : ∃ l ∈ ls, writesAt fld va frame₁ b i l
      · obtain ⟨l, hl, hw, offset, he, rfl, hi⟩ := hwrites
        have hlast := redone_fieldAt hls s va hsets hl he hw
        rw [fieldAt, fieldAt, hredone, hran, Option.bind_some, Option.bind_some, hshape.slot_eq hi,
          (SameShape.refl frame₁).slot_eq hi] at hlast
        exact hlast
      · have hkept := redone_field_untouched hls s hran hslots fld fun l hl hw => hwrites ⟨l, hl, hw⟩
        rw [VarField.look, hredone, Option.map_some, Option.some.injEq] at hkept
        exact hkept
    rw [hredone, hran, frame_eq_of_fields hshape (hfield tyField tyField_sets) (hfield nameField nameField_sets)]
  · have hno : ∀ l ∈ ls, ∀ offset, l.frameEdit ≠ some (va, offset) := by simpa using hedit
    refine Option.some.inj (UndoLog.redone_eq (fun t : Project => some (t.functionFrames.lookup va))
      (UndoLog.Keeps.trivial ls) ?_ (.inr ?_) True.intro)
    · exact fun l hl => .inr ⟨id, fun t x _ hx =>
        (congrArg some (frames_untouched (hls l hl) (hno l hl) t t).1).trans hx⟩
    · exact fun l hl => ⟨fun t _ => congrArg some (frames_untouched (hls l hl) (hno l hl) t t).1,
        fun t u _ _ => congrArg some (frames_untouched (hls l hl) (hno l hl) t u).2⟩

theorem redone_sameContents : SameContents (redone s ls) (ran s ls) where
  symbols := redone_symbols hls s
  comments := redone_comments hls s
  focus := redone_focus hls s
  typedGlobals := redone_typedGlobals hls s
  functionSignatures := Finmap.ext_lookup (redone_functionSignatures hls s)
  functionFrames := Finmap.ext_lookup (redone_functionFrames hls s)
  functionMemory := redone_functionMemory hls s

end Redone

/-! ## What was captured does not matter -/

/-- The edit without what it captured. -/
def plain : Op → Op
  | .renameSymbol va name kind _ _ => .renameSymbol va name kind none none
  | .setComment va scope text _ => .setComment va scope text none
  | .setFocus va _ => .setFocus va none
  | .setGlobalType va ty _ => .setGlobalType va ty none
  | .setFunctionSignature va sig _ => .setFunctionSignature va sig none
  | .setStackLocalType va offset ty _ => .setStackLocalType va offset ty none
  | .setStackLocalName va offset name _ => .setStackLocalName va offset name none
  | .setParamName va index name _ => .setParamName va index name none
  | .setFunctionMemory va card _ => .setFunctionMemory va card none
  | .batch ops => .batch ops

/-- The same annotations on the same functions. -/
structure Alike (s t : Project) : Prop extends SameContents s t where
  functions : s.functions = t.functions

namespace Alike
variable {s t u : Project}

theorem refl (s : Project) : Alike s s := ⟨⟨rfl, rfl, rfl, rfl, rfl, rfl, fun _ => rfl⟩, rfl⟩

theorem symm (h : Alike s t) : Alike t s := ⟨h.toSameContents.symm, h.functions.symm⟩

theorem trans (h : Alike s t) (h' : Alike t u) : Alike s u :=
  ⟨h.toSameContents.trans h'.toSameContents, h.functions.trans h'.functions⟩

/-- The counter is no annotation. -/
theorem withSeq (s : Project) (n : Nat) : Alike (s.withSeq n) s := ⟨⟨rfl, rfl, rfl, rfl, rfl, rfl, fun _ => rfl⟩, rfl⟩

theorem upsertFrameVar (h : Alike s t) (va : Nat) (offset : Int) (mutate : StackVariable → StackVariable) :
    Alike (s.upsertFrameVar va offset mutate) (t.upsertFrameVar va offset mutate) := by
  refine ⟨⟨h.symbols, h.comments, h.focus, h.typedGlobals, h.functionSignatures, ?_, h.functionMemory⟩, h.functions⟩
  simp only [Project.upsertFrameVar, Project.frameOrDefault, h.functionFrames]

theorem setParamName (h : Alike s t) (va index : Nat) (name : String) :
    Alike (s.setParamName va index name) (t.setParamName va index name) := by
  refine ⟨⟨h.symbols, h.comments, h.focus, h.typedGlobals, ?_, h.functionFrames, h.functionMemory⟩, h.functions⟩
  simp only [Project.setParamName, Project.signatureFor, Project.defaultSignature, Project.symbolName,
    h.functionSignatures, h.symbols]

theorem setFunctionMemory (h : Alike s t) (va : Nat) (card : FunctionMemoryCard) :
    Alike (s.setFunctionMemory va card) (t.setFunctionMemory va card) := by
  rw [Project.setFunctionMemory_eq, Project.setFunctionMemory_eq]
  refine ⟨⟨h.symbols, h.comments, h.focus, h.typedGlobals, h.functionSignatures, h.functionFrames, ?_⟩, h.functions⟩
  intro va'
  cases card.isClear with
  | true =>
    by_cases heq : va' = va
    · subst heq
      simp
    · simpa [Finmap.lookup_erase_ne heq] using h.functionMemory va'
  | false =>
    by_cases heq : va' = va
    · subst heq
      simp [unstamped]
    · simpa [Finmap.lookup_insert_of_ne _ heq] using h.functionMemory va'

/-- A leaf makes the same edit whatever it captured. -/
theorem applyTo_plain (h : Alike s t) {l : Op} (hleaf : l.isLeaf = true) : Alike (l.applyTo s) (l.plain.applyTo t) := by
  cases l with
  | renameSymbol va name kind oldName oldKind =>
    refine ⟨⟨?_, h.comments, h.focus, h.typedGlobals, h.functionSignatures, h.functionFrames, h.functionMemory⟩, h.functions⟩
    simp [plain, applyTo, captureAndApply, Project.renameSymbol, h.symbols]
  | setComment va scope text oldText =>
    refine ⟨⟨h.symbols, ?_, h.focus, h.typedGlobals, h.functionSignatures, h.functionFrames, h.functionMemory⟩, h.functions⟩
    simp [plain, applyTo, captureAndApply, h.comments]
  | setFocus va oldFocus =>
    have hhas : s.hasFunction va = t.hasFunction va := by rw [Project.hasFunction, Project.hasFunction, h.functions]
    simp only [plain, applyTo, captureAndApply, Project.setFocus_eq]
    refine ⟨⟨h.symbols, h.comments, ?_, h.typedGlobals, h.functionSignatures, h.functionFrames, h.functionMemory⟩,
      h.functions⟩
    rw [hhas, h.focus]
  | setGlobalType va ty oldTy =>
    refine ⟨⟨h.symbols, h.comments, h.focus, ?_, h.functionSignatures, h.functionFrames, h.functionMemory⟩, h.functions⟩
    simp [plain, applyTo, captureAndApply, h.typedGlobals]
  | setFunctionSignature va sig oldSig =>
    refine ⟨⟨h.symbols, h.comments, h.focus, h.typedGlobals, ?_, h.functionFrames, h.functionMemory⟩, h.functions⟩
    simp [plain, applyTo, captureAndApply, h.functionSignatures]
  | setStackLocalType va offset ty oldTy =>
    simp only [plain, applyTo, captureAndApply]
    exact h.upsertFrameVar va offset _
  | setStackLocalName va offset name oldName =>
    simp only [plain, applyTo, captureAndApply]
    exact h.upsertFrameVar va offset _
  | setParamName va index name oldName =>
    simp only [plain, applyTo, captureAndApply]
    exact h.setParamName va index name
  | setFunctionMemory va card old =>
    simp only [plain, applyTo, captureAndApply]
    exact h.setFunctionMemory va card
  | batch ops => cases hleaf

/-- Leaves that make the same edits keep states alike. -/
theorem captureAll {ls ls' : List Op} (h : Alike s t) (hleaf : ∀ l ∈ ls, l.isLeaf = true)
    (hleaf' : ∀ l ∈ ls', l.isLeaf = true) (hplain : ls.map plain = ls'.map plain) :
    Alike (Op.captureAll ls s).2 (Op.captureAll ls' t).2 := by
  induction ls generalizing ls' s t with
  | nil =>
    rw [List.map_nil, eq_comm, List.map_eq_nil_iff] at hplain
    rw [hplain]
    exact h
  | cons l ls ih =>
    cases ls' with
    | nil => cases hplain
    | cons l' ls' =>
      rw [List.map_cons, List.map_cons, List.cons.injEq] at hplain
      have hl : Alike (l.captureAndApply s).2 (l'.captureAndApply t).2 := by
        apply (h.applyTo_plain (hleaf l List.mem_cons_self)).trans
        rw [hplain.1]
        exact ((Alike.refl t).applyTo_plain (hleaf' l' List.mem_cons_self)).symm
      have hrest : ∀ x ∈ ls, x.isLeaf = true := fun x hx => hleaf x (List.mem_cons_of_mem l hx)
      have hrest' : ∀ x ∈ ls', x.isLeaf = true := fun x hx => hleaf' x (List.mem_cons_of_mem l' hx)
      exact ih (s := (l.captureAndApply s).2) (t := (l'.captureAndApply t).2) hl hrest hrest' hplain.2

/-- An operation keeps states alike. -/
theorem applyTo (h : Alike s t) (op : Op) : Alike (op.applyTo s) (op.applyTo t) := by
  rw [applyTo_eq_leaves, applyTo_eq_leaves]
  exact h.captureAll (isLeaf_of_mem_leaves op) (isLeaf_of_mem_leaves op) rfl

end Alike

theorem plain_captureAndApply {l : Op} (hleaf : l.isLeaf = true) (s : Project) : (l.captureAndApply s).1.plain = l.plain := by
  cases l with
  | batch ops => cases hleaf
  | _ => rfl

theorem plain_captureAll {ls : List Op} (hleaf : ∀ l ∈ ls, l.isLeaf = true) (s : Project) :
    (captureAll ls s).1.map plain = ls.map plain := by
  induction ls generalizing s with
  | nil => rfl
  | cons l ls ih =>
    rw [captureAll, List.map_cons, List.map_cons, plain_captureAndApply (hleaf l List.mem_cons_self),
      ih fun x hx => hleaf x (List.mem_cons_of_mem l hx)]

/-- The operation with what it captured makes the same edit as the operation. -/
theorem applied_alike (o : Op) (s t : Project) : Alike ((o.applied s).applyTo t) (o.applyTo t) := by
  rw [applyTo_eq_leaves, applyTo_eq_leaves]
  apply (Alike.refl t).captureAll (isLeaf_of_mem_leaves _) (isLeaf_of_mem_leaves o)
  rw [applied_leaves]
  exact plain_captureAll (isLeaf_of_mem_leaves o) s

theorem captureAll_run (ls : List Op) (s : Project) : (captureAll ls s).2 = ran s ls := by
  induction ls generalizing s with
  | nil => rfl
  | cons l ls ih => exact ih _

/-- Applying an operation, its inverse and the operation with what it captured leaves the same
annotation stores as applying it once. -/
theorem redo_same {o inv : Op} {s : Project} (hnew : o.uncaptured = true) (hinv : (o.applied s).inverse = some inv) :
    SameContents ((o.applied s).applyTo (inv.applyTo (o.applyTo s))) (o.applyTo s) := by
  rw [inverse_applyTo hinv]
  have hagain := (applied_alike o s (undone s o.leaves)).toSameContents
  have hredone := redone_sameContents (fresh_leaves hnew) s
  rw [applyTo_eq_leaves o, captureAll_run] at hagain ⊢
  exact hagain.trans hredone

end Windy.Op
