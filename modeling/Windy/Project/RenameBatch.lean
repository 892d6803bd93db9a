import Windy.Lib.Upsert
import Windy.Llm.Verify
import Windy.Project.Redo

/- Rename batches (`project/mod.rs`): a map from keys to names, applied to the function in focus.

   The entries come in the order of a hash map, which is any order. Each is a write to one place of
   the project: the symbol of the function, the name of a stack local, the name of a parameter, or
   the comment of the function, which all entries with another key share. Writes to different places
   commute, but for one: the first parameter name makes a signature where there is none, and the
   signature takes over the name that the function has by then.

   The offset of a local is read as in `llm/verify.rs`, with checked arithmetic: negating the least
   `i64` is an error. Memory suffices for the parameters up to any index. The cache of SSA forms,
   from which the names of locals drop an entry, is not a field of the model.

   What is proved:
     `batchExact_iff`: every order gives the same project, with all entries in it, exactly
     when the map is `Compatible` with the project.

   Correspondence:
     the body of the loop of `apply_rename_batch` ↔ `renameEntry`
     `apply_rename_batch` ↔ the same
     `set_stack_local_name`, `set_param_name` ↔ the operations they apply -/
namespace Windy

/-- A map of texts: entries with different keys. -/
structure RenameMap where
  entries : List (String × String)
  nodup : (entries.map Prod.fst).Nodup

namespace Project

/-! ## The batch -/

def setFunctionComment (p : Project) (va : Nat) (text : String) : Project :=
  { p with comments := p.comments.set va .function text }

/-- `{key}: {value}` -/
def noteText (entry : String × String) : String := entry.1 ++ ": " ++ entry.2

def renameEntry (focus : Nat) (p : Project) (entry : String × String) : Except Llm.Overflow Project :=
  if entry.1 = "__function__" then
    .ok { p with symbols := p.symbols.insert focus { name := entry.2, kind := .user } }
  else
    match Llm.stripPrefix "local:" entry.1 with
    | some off =>
      (Llm.parseI64Offset off).map fun
        | some offset => (Op.setStackLocalName focus offset entry.2 none).applyTo p
        | none => p.setFunctionComment focus (noteText entry)
    | none =>
      match Llm.stripPrefix "arg:" entry.1 with
      | some idx =>
        match Bel.fromStrRadix 10 64 idx.toList with
        | some index => .ok ((Op.setParamName focus index entry.2 none).applyTo p)
        | none => .ok (p.setFunctionComment focus (noteText entry))
      | none => .ok (p.setFunctionComment focus (noteText entry))

/-- The entries in the order in which they are gone through. -/
def applyRenameBatch (p : Project) (order : List (String × String)) : Except Llm.Overflow Project :=
  match p.focus with
  | none => .ok p
  | some focus => order.foldlM (renameEntry focus) p

end Project

/-! ## Places -/

/-- What an entry writes to. -/
inductive RenamePlace where
  | function
  | stackLocal (offset : Int)
  | param (index : Nat)
  | note
  deriving DecidableEq

/-- The place that a key names; any other key stands for the comment. -/
def placeOf (key : String) : Except Llm.Overflow RenamePlace :=
  if key = "__function__" then .ok .function
  else
    match Llm.stripPrefix "local:" key with
    | some off =>
      (Llm.parseI64Offset off).map fun
        | some offset => .stackLocal offset
        | none => .note
    | none =>
      match Llm.stripPrefix "arg:" key with
      | some idx =>
        match Bel.fromStrRadix 10 64 idx.toList with
        | some index => .ok (.param index)
        | none => .ok .note
      | none => .ok .note

/-- What an entry writes there. -/
def written (place : RenamePlace) (entry : String × String) : String :=
  if place = .note then Project.noteText entry else entry.2

/-- The key is an offset that cannot be negated. -/
def Unreadable (key : String) : Prop :=
  key ≠ "__function__" ∧ ∃ off, Llm.stripPrefix "local:" key = some off ∧ Llm.NegatesLeast off

namespace Project

/-- The variable under a name; an empty one takes its name away. -/
def nameVar (name : String) (v : StackVariable) : StackVariable := { v with name := localNameOf name }

/-- One write. -/
def write (focus : Nat) (p : Project) : RenamePlace → String → Project
  | .function, name => { p with symbols := p.symbols.insert focus { name, kind := .user } }
  | .stackLocal offset, name => p.upsertFrameVar focus offset (nameVar name)
  | .param index, name => p.setParamName focus index name
  | .note, text => p.setFunctionComment focus text

/-- The entry was recorded: the function or the parameter has the name, a variable at the
offset has it (no name is the empty one), the comment holds the key and the value. -/
def Recorded (p : Project) (focus : Nat) (entry : String × String) : Prop :=
  match placeOf entry.1 with
  | .error _ => False
  | .ok .function => p.symbolName focus = some entry.2
  | .ok (.stackLocal offset) => ∃ frame, p.functionFrames.lookup focus = some frame ∧
      ∃ v ∈ frame.locals ++ frame.args, v.offset = offset ∧ v.name.getD "" = entry.2
  | .ok (.param index) => ∃ sig, p.functionSignatures.lookup focus = some sig ∧
      sig.params[index]?.map Prod.fst = some entry.2
  | .ok .note => ∃ text, p.comments.get focus .function = some text ∧
      entry.1.toList <:+: text.toList ∧ entry.2.toList <:+: text.toList

/-- Every order gives the same project, and every entry is recorded in it. -/
def BatchExact (p : Project) (focus : Nat) (m : RenameMap) : Prop :=
  ∃ q, (∀ order : List (String × String), order.Perm m.entries → p.applyRenameBatch order = .ok q) ∧
    ∀ entry ∈ m.entries, q.Recorded focus entry

/-- The keys can be read, entries that go to one place write the same there, and if the batch
has to make a signature while it renames the function, then the function has the name already. -/
structure Compatible (p : Project) (focus : Nat) (m : RenameMap) : Prop where
  readable : ∀ e ∈ m.entries, ¬ Unreadable e.1
  same : ∀ e ∈ m.entries, ∀ e' ∈ m.entries, ∀ place, placeOf e.1 = .ok place → placeOf e'.1 = .ok place →
    written place e = written place e'
  title : ∀ e ∈ m.entries, ∀ e' ∈ m.entries, ∀ index, placeOf e.1 = .ok .function → placeOf e'.1 = .ok (.param index) →
    p.functionSignatures.lookup focus = none → (p.symbolName focus).getD "sub" = e.2

end Project

/-! ## Reading the keys -/

theorem parseI64Offset_error {text : String} (h : Llm.NegatesLeast text) :
    Llm.parseI64Offset text = .error .negate := by
  obtain ⟨hex, htext, hleast⟩ := h
  unfold Llm.parseI64Offset
  rcases htext with htext | htext <;> simp only [htext, hleast] <;> rfl

theorem placeOf_ok_iff (key : String) : (∃ place, placeOf key = .ok place) ↔ ¬ Unreadable key := by
  unfold placeOf Unreadable
  by_cases hkey : key = "__function__"
  · rw [if_pos hkey]
    exact ⟨fun _ h => h.1 hkey, fun _ => ⟨_, rfl⟩⟩
  · rw [if_neg hkey]
    cases hoff : Llm.stripPrefix "local:" key with
    | some off =>
      simp only
      constructor
      · intro h hun
        obtain ⟨place, hplace⟩ := h
        obtain ⟨-, off', hoff', hleast⟩ := hun
        rw [Option.some.inj hoff', parseI64Offset_error hleast] at hplace
        cases hplace
      · intro h
        have hread : ¬ Llm.NegatesLeast off := fun hleast => h ⟨hkey, off, rfl, hleast⟩
        obtain ⟨offset, hoffset⟩ := Llm.parseI64Offset_ok hread
        rw [hoffset]
        exact ⟨_, rfl⟩
    | none =>
      refine ⟨fun _ h => ?_, fun _ => ?_⟩
      · obtain ⟨-, off, hoff, -⟩ := h
        cases hoff
      · simp only
        cases Llm.stripPrefix "arg:" key with
        | none => exact ⟨_, rfl⟩
        | some idx =>
          simp only
          cases Bel.fromStrRadix 10 64 idx.toList with
          | none => exact ⟨_, rfl⟩
          | some index => exact ⟨_, rfl⟩

namespace Project

/-- An entry writes to its place. -/
theorem renameEntry_eq (focus : Nat) (p : Project) (entry : String × String) :
    renameEntry focus p entry = (placeOf entry.1).map fun place => p.write focus place (written place entry) := by
  unfold renameEntry placeOf
  split
  · rfl
  · cases Llm.stripPrefix "local:" entry.1 with
    | some off =>
      simp only
      cases Llm.parseI64Offset off with
      | error e => rfl
      | ok parsed =>
        cases parsed with
        | none => rfl
        | some offset => rfl
    | none =>
      simp only
      cases Llm.stripPrefix "arg:" entry.1 with
      | none => rfl
      | some idx =>
        simp only
        cases Bel.fromStrRadix 10 64 idx.toList with
        | none => rfl
        | some index => rfl

/-! ## Writes to two places -/

theorem upsertList_eq (offset : Int) (mutate : StackVariable → StackVariable) (list : List StackVariable) :
    upsertList offset mutate list =
      Upsert.upsert StackVariable.offset offset mutate (mutate (freshStackVar offset)) list := by
  unfold upsertList Upsert.upsert
  split
  · rename_i i hi
    obtain ⟨hlt, hp, -⟩ := List.findIdx?_eq_some_iff_getElem.mp hi
    have hmem : offset ∈ list.map StackVariable.offset :=
      List.mem_map.mpr ⟨list[i], List.getElem_mem hlt, of_decide_eq_true hp⟩
    rw [if_pos hmem, Upsert.modify_findIdx? hi]
  · rename_i hnone
    have hnot : offset ∉ list.map StackVariable.offset := by
      intro hmem
      obtain ⟨v, hv, hoff⟩ := List.mem_map.mp hmem
      have := List.findIdx?_eq_none_iff.mp hnone v hv
      simp [hoff] at this
    rw [if_neg hnot]

section Frames
variable {mutate mutate' : StackVariable → StackVariable} (hoff : ∀ v, (mutate v).offset = v.offset)
  (hoff' : ∀ v, (mutate' v).offset = v.offset) {offset offset' : Int} (hne : offset ≠ offset')
include hoff hoff' hne

theorem upsertStackVar_comm (frame : StackFrame) :
    upsertStackVar (upsertStackVar frame offset' mutate') offset mutate =
      upsertStackVar (upsertStackVar frame offset mutate) offset' mutate' := by
  have hlist : ∀ list, upsertList offset mutate (upsertList offset' mutate' list) =
      upsertList offset' mutate' (upsertList offset mutate list) := by
    intro list
    have hx : (mutate (freshStackVar offset)).offset = offset := hoff _
    have hy : (mutate' (freshStackVar offset')).offset = offset' := hoff' _
    simp only [upsertList_eq]
    exact Upsert.upsert_comm hoff hoff' hx hy hne list
  unfold upsertStackVar
  by_cases h : offset > 0
  · by_cases h' : offset' > 0
    · simp only [if_pos h, if_pos h', hlist]
    · simp only [if_pos h, if_neg h']
  · by_cases h' : offset' > 0
    · simp only [if_neg h, if_pos h']
    · simp only [if_neg h, if_neg h', hlist]

theorem upsertFrameVar_comm (p : Project) (va : Nat) :
    (p.upsertFrameVar va offset' mutate').upsertFrameVar va offset mutate =
      (p.upsertFrameVar va offset mutate).upsertFrameVar va offset' mutate' := by
  simp only [upsertFrameVar, frameOrDefault, Finmap.lookup_insert, Option.getD_some, Finmap.insert_insert,
    upsertStackVar_comm hoff hoff' hne]

end Frames

theorem getElem?_extendParams (params : List (String × DataType)) (index i : Nat) :
    (extendParams params index)[i]? =
      if i < params.length then params[i]? else if i ≤ index then some ("arg" ++ toString i, .unknown 0) else none := by
  unfold extendParams
  by_cases hi : i < params.length
  · rw [if_pos hi, List.getElem?_append_left hi]
  · rw [if_neg hi, List.getElem?_append_right (Nat.le_of_not_lt hi), List.getElem?_map]
    by_cases hle : i ≤ index
    · rw [if_pos hle, List.getElem?_range' (by omega), Option.map_some, Nat.one_mul,
        Nat.add_sub_cancel' (Nat.le_of_not_lt hi)]
    · rw [if_neg hle, List.getElem?_eq_none (by simp only [List.length_range']; omega)]
      rfl

/-- The parameters after a name was written to one of them. -/
def namedParams (params : List (String × DataType)) (index : Nat) (name : String) : List (String × DataType) :=
  Windy.setParamName (extendParams params index) index name

theorem length_namedParams (params : List (String × DataType)) (index : Nat) (name : String) :
    (namedParams params index name).length = max params.length (index + 1) := by
  rw [namedParams, setParamName_length, extendParams_length]

theorem getElem?_namedParams (params : List (String × DataType)) (index : Nat) (name : String) (i : Nat) :
    (namedParams params index name)[i]? =
      if index = i then ((extendParams params index)[i]?).map fun param => (name, param.2)
      else (extendParams params index)[i]? := by
  rw [namedParams, Windy.setParamName, List.getElem?_modify]
  split
  · rfl
  · exact Option.map_id'

theorem namedParams_comm {index index' : Nat} (hne : index ≠ index') (name name' : String)
    (params : List (String × DataType)) :
    namedParams (namedParams params index' name') index name =
      namedParams (namedParams params index name) index' name' := by
  apply List.ext_getElem?
  intro i
  simp only [getElem?_namedParams, getElem?_extendParams, length_namedParams]
  grind

section Writes
variable {focus : Nat} {p : Project}

theorem lookup_setParamName (p : Project) (focus index : Nat) (name : String) :
    (p.setParamName focus index name).functionSignatures.lookup focus =
      some { (p.functionSignatures.lookup focus).getD (p.defaultSignature focus) with
        params := namedParams ((p.functionSignatures.lookup focus).getD (p.defaultSignature focus)).params index name } :=
  Finmap.lookup_insert _

theorem setParamName_comm {index index' : Nat} (hne : index ≠ index') (name name' : String) :
    (p.setParamName focus index name).setParamName focus index' name' =
      (p.setParamName focus index' name').setParamName focus index name := by
  have hcomm := namedParams_comm hne.symm name' name
  unfold namedParams at hcomm
  simp only [Project.setParamName, signatureFor, Finmap.lookup_insert, Option.getD_some, Finmap.insert_insert, hcomm]

/-- A signature that a parameter name makes takes over this name. -/
def Titled (p : Project) (focus : Nat) (title : String) : Prop :=
  p.functionSignatures.lookup focus = none → (p.symbolName focus).getD "sub" = title

theorem symbolName_write_function (p : Project) (focus : Nat) (name : String) :
    (p.write focus .function name).symbolName focus = some name := by
  simp [write, symbolName, Finmap.lookup_insert]

theorem Titled.write {title : String} (h : Titled p focus title) {place : RenamePlace} {text : String}
    (hfunction : place = .function → text = title) : Titled (p.write focus place text) focus title := by
  cases place with
  | function =>
    intro _
    rw [symbolName_write_function, hfunction rfl]
    rfl
  | stackLocal offset => exact h
  | param index =>
    intro hnone
    rw [Project.write, lookup_setParamName] at hnone
    cases hnone
  | note => exact h

theorem write_function_param {title : String} (h : Titled p focus title) (index : Nat) (name : String) :
    (p.write focus .function title).write focus (.param index) name =
      (p.write focus (.param index) name).write focus .function title := by
  cases hsig : p.functionSignatures.lookup focus with
  | some sig => simp only [write, Project.setParamName, signatureFor, hsig, Option.getD_some]
  | none =>
    have htitle := h hsig
    have hname : (p.write focus .function title).symbolName focus = some title := symbolName_write_function p focus title
    unfold write at hname ⊢
    simp only [Project.setParamName, signatureFor, hsig, Option.getD_none, defaultSignature, hname, Option.getD_some,
      htitle]

/-- Writes to two places commute, where the name of the function is no matter. -/
theorem write_comm {place place' : RenamePlace} (hne : place ≠ place') {text text' : String}
    (h : place = .function → (∃ index, place' = .param index) → Titled p focus text)
    (h' : place' = .function → (∃ index, place = .param index) → Titled p focus text') :
    (p.write focus place text).write focus place' text' = (p.write focus place' text').write focus place text := by
  cases place with
  | function =>
    cases place' with
    | function => exact absurd rfl hne
    | param index => exact write_function_param (h rfl ⟨index, rfl⟩) index text'
    | _ => rfl
  | stackLocal offset =>
    cases place' with
    | stackLocal offset' =>
      have hoffset : offset' ≠ offset := fun heq => hne (by rw [heq])
      exact @upsertFrameVar_comm (nameVar text') (nameVar text) (fun _ => rfl) (fun _ => rfl) offset' offset hoffset p focus
    | _ => rfl
  | param index =>
    cases place' with
    | function => exact (write_function_param (h' rfl ⟨index, rfl⟩) index text).symm
    | param index' => exact setParamName_comm (fun heq => hne (by rw [heq])) text text'
    | _ => rfl
  | note =>
    cases place' with
    | note => exact absurd rfl hne
    | _ => rfl

/-- The place holds the text. -/
def Holds (p : Project) (focus : Nat) : RenamePlace → String → Prop
  | .function, name => p.symbolName focus = some name
  | .stackLocal offset, name => ∃ frame, p.functionFrames.lookup focus = some frame ∧
      (frame.slot offset).map StackVariable.name = some (localNameOf name)
  | .param index, name => ∃ sig, p.functionSignatures.lookup focus = some sig ∧
      sig.params[index]?.map Prod.fst = some name
  | .note, text => p.comments.get focus .function = some text

theorem localNameOf_getD (name : String) : (localNameOf name).getD "" = name := by
  unfold localNameOf
  split
  · rename_i hempty
    exact hempty.symm
  · rfl

theorem Holds.unique {place : RenamePlace} {text text' : String} (h : Holds p focus place text)
    (h' : Holds p focus place text') : text = text' := by
  cases place with
  | function => exact Option.some.inj (h.symm.trans h')
  | stackLocal offset =>
    obtain ⟨frame, hframe, hname⟩ := h
    obtain ⟨frame', hframe', hname'⟩ := h'
    obtain rfl := Option.some.inj (hframe.symm.trans hframe')
    rw [← localNameOf_getD text, ← localNameOf_getD text', Option.some.inj (hname.symm.trans hname')]
  | param index =>
    obtain ⟨sig, hsig, hname⟩ := h
    obtain ⟨sig', hsig', hname'⟩ := h'
    obtain rfl := Option.some.inj (hsig.symm.trans hsig')
    exact Option.some.inj (hname.symm.trans hname')
  | note => exact Option.some.inj (h.symm.trans h')

theorem holds_write (p : Project) (focus : Nat) (place : RenamePlace) (text : String) :
    Holds (p.write focus place text) focus place text := by
  cases place with
  | function => exact symbolName_write_function p focus text
  | stackLocal offset =>
    refine ⟨_, Finmap.lookup_insert _, ?_⟩
    rw [StackFrame.slot, upsertStackVar_vars, if_pos rfl, @Op.find?_upsertList_self (nameVar text) (fun _ => rfl)]
    rfl
  | param index =>
    refine ⟨_, lookup_setParamName p focus index text, ?_⟩
    rw [getElem?_namedParams, if_pos rfl, getElem?_extendParams]
    split
    · rename_i hlt
      rw [List.getElem?_eq_getElem hlt]
      rfl
    · rw [if_pos (Nat.le_refl index)]
      rfl
  | note => exact Finmap.lookup_insert _

theorem recorded_of_holds {entry : String × String} {place : RenamePlace} (hplace : placeOf entry.1 = .ok place)
    (h : Holds p focus place (written place entry)) : Recorded p focus entry := by
  unfold Recorded
  rw [hplace]
  cases place with
  | function => exact h
  | stackLocal offset =>
    obtain ⟨frame, hframe, hname⟩ := h
    obtain ⟨v, hv, hname⟩ := Option.map_eq_some_iff.mp hname
    refine ⟨frame, hframe, v, ?_, by simpa using List.find?_some hv, ?_⟩
    · have hmem := List.mem_of_find?_eq_some hv
      cases hside : isArg offset with
      | true => exact List.mem_append_right _ (by rwa [hside] at hmem)
      | false => exact List.mem_append_left _ (by rwa [hside] at hmem)
    · rw [hname, localNameOf_getD]
      rfl
  | param index => exact h
  | note =>
    refine ⟨_, h, ?_, ?_⟩
    · simp only [written, if_true, noteText, String.toList_append]
      exact ⟨[], _, by rw [List.nil_append, List.append_assoc]⟩
    · simp only [written, if_true, noteText, String.toList_append]
      exact ⟨_, [], by rw [List.append_nil]⟩

end Writes

/-! ## All orders -/

/-- The project after one entry. -/
def renameStep (focus : Nat) (p : Project) (entry : String × String) : Project :=
  match placeOf entry.1 with
  | .error _ => p
  | .ok place => p.write focus place (written place entry)

theorem renameStep_of_ok {focus : Nat} {p : Project} {entry : String × String} {place : RenamePlace}
    (h : placeOf entry.1 = .ok place) : renameStep focus p entry = p.write focus place (written place entry) := by
  unfold renameStep
  rw [h]

/-- A batch has a result when all its keys can be read, and then it is that of the writes. -/
theorem foldlM_renameEntry_iff {focus : Nat} {order : List (String × String)} {p q : Project} :
    order.foldlM (renameEntry focus) p = .ok q ↔
      (∀ e ∈ order, ∃ place, placeOf e.1 = .ok place) ∧ order.foldl (renameStep focus) p = q := by
  induction order generalizing p with
  | nil =>
    constructor
    · exact fun h => ⟨fun e he => absurd he List.not_mem_nil, Except.ok.inj h⟩
    · exact fun h => congrArg Except.ok h.2
  | cons e rest ih =>
    rw [List.foldlM_cons, renameEntry_eq, List.foldl_cons]
    cases hplace : placeOf e.1 with
    | error err =>
      constructor
      · intro h
        cases h
      · intro h
        obtain ⟨place, hok⟩ := h.1 e List.mem_cons_self
        rw [hplace] at hok
        cases hok
    | ok place =>
      rw [renameStep_of_ok hplace]
      refine ih.trans ⟨fun h => ⟨fun e' he' => ?_, h.2⟩, fun h => ⟨fun e' he' => h.1 e' (List.mem_cons_of_mem e he'), h.2⟩⟩
      rcases List.mem_cons.mp he' with rfl | he'
      · exact ⟨place, hplace⟩
      · exact h.1 e' he'

section Batch
variable {p : Project} {focus : Nat} {m : RenameMap} {e : String × String} {rest : List (String × String)}
  {q : Project}

theorem applyRenameBatch_eq (hfocus : p.focus = some focus) (order : List (String × String)) :
    p.applyRenameBatch order = order.foldlM (renameEntry focus) p := by
  unfold applyRenameBatch
  rw [hfocus]

/-- The entry that comes last is recorded. -/
theorem holds_last {place : RenamePlace} (h : placeOf e.1 = .ok place) :
    Holds ((rest ++ [e]).foldl (renameStep focus) p) focus place (written place e) := by
  rw [List.foldl_append, List.foldl_cons, List.foldl_nil, renameStep_of_ok h]
  exact holds_write _ focus place _

/-- Whatever came before, the comment is the last note. -/
theorem comment_last (hfocus : p.focus = some focus)
    (hread : ∀ e' ∈ rest ++ [e], ∃ place, placeOf e'.1 = .ok place) (h : placeOf e.1 = .ok .note) :
    (p.applyRenameBatch (rest ++ [e])).map (fun q => q.comments.get focus .function) = .ok (some (noteText e)) := by
  rw [applyRenameBatch_eq hfocus, foldlM_renameEntry_iff.mpr ⟨hread, rfl⟩]
  exact congrArg Except.ok (holds_last h)

theorem perm_last {entries : List (String × String)} (he : e ∈ entries) :
    (entries.erase e ++ [e]).Perm entries :=
  (List.perm_append_singleton e _).trans (List.perm_cons_erase he).symm

/-- What the writes of a compatible batch keep: a signature made by it has the name that the
function gets. -/
def TitledAll (focus : Nat) (entries : List (String × String)) (p : Project) : Prop :=
  ∀ e ∈ entries, ∀ e' ∈ entries, ∀ index, placeOf e.1 = .ok .function → placeOf e'.1 = .ok (.param index) →
    Titled p focus e.2

theorem TitledAll.step (hc : p.Compatible focus m) (h : TitledAll focus m.entries q)
    (he : e ∈ m.entries) : TitledAll focus m.entries (renameStep focus q e) := by
  intro f hf a ha index hfunction hparam
  cases hplace : placeOf e.1 with
  | error err =>
    unfold renameStep
    rw [hplace]
    exact h f hf a ha index hfunction hparam
  | ok place =>
    rw [renameStep_of_ok hplace]
    refine (h f hf a ha index hfunction hparam).write fun heq => ?_
    rw [heq] at hplace
    rw [heq]
    exact hc.same e he f hf .function hplace hfunction

theorem renameStep_comm (hc : p.Compatible focus m) (h : TitledAll focus m.entries q)
    {e e' : String × String} (he : e ∈ m.entries) (he' : e' ∈ m.entries) :
    renameStep focus (renameStep focus q e) e' = renameStep focus (renameStep focus q e') e := by
  obtain ⟨place, hplace⟩ := (placeOf_ok_iff e.1).mpr (hc.readable e he)
  obtain ⟨place', hplace'⟩ := (placeOf_ok_iff e'.1).mpr (hc.readable e' he')
  simp only [renameStep_of_ok hplace, renameStep_of_ok hplace']
  by_cases hne : place = place'
  · subst hne
    rw [hc.same e he e' he' place hplace hplace']
  · refine write_comm hne (fun hf hp => ?_) fun hf hp => ?_
    · obtain ⟨index, hp⟩ := hp
      subst hf hp
      exact h e he e' he' index hplace hplace'
    · obtain ⟨index, hp⟩ := hp
      subst hf hp
      exact h e' he' e he index hplace' hplace

theorem batchExact_of_compatible (hfocus : p.focus = some focus) (hc : p.Compatible focus m) : p.BatchExact focus m := by
  have hread : ∀ e ∈ m.entries, ∃ place, placeOf e.1 = .ok place := fun e he =>
    (placeOf_ok_iff e.1).mpr (hc.readable e he)
  have horder : ∀ order : List (String × String), order.Perm m.entries →
      order.foldl (renameStep focus) p = m.entries.foldl (renameStep focus) p := by
    intro order hperm
    refine (Upsert.foldl_perm (I := TitledAll focus m.entries) hperm.symm (fun q hq e he => hq.step hc he)
      (fun q hq e he e' he' => renameStep_comm hc hq he he') ?_).symm
    exact fun e he e' he' index hfunction hparam => hc.title e he e' he' index hfunction hparam
  refine ⟨m.entries.foldl (renameStep focus) p, fun order hperm => ?_, fun e he => ?_⟩
  · rw [applyRenameBatch_eq hfocus, foldlM_renameEntry_iff]
    exact ⟨fun e he => hread e (hperm.mem_iff.mp he), horder order hperm⟩
  · obtain ⟨place, hplace⟩ := hread e he
    rw [← horder _ (perm_last he)]
    exact recorded_of_holds hplace (holds_last hplace)

/-- A signature keeps its name. -/
theorem signatureName_step {name : String}
    (h : (q.functionSignatures.lookup focus).map FunctionSignature.name = some name) (e : String × String) :
    ((renameStep focus q e).functionSignatures.lookup focus).map FunctionSignature.name = some name := by
  unfold renameStep
  cases placeOf e.1 with
  | error err => exact h
  | ok place =>
    cases place with
    | param index =>
      obtain ⟨sig, hsig, hname⟩ := Option.map_eq_some_iff.mp h
      simp only [write, lookup_setParamName, hsig, Option.getD_some, Option.map_some, hname]
    | _ => exact h

theorem signatureName_foldl {name : String}
    (h : (q.functionSignatures.lookup focus).map FunctionSignature.name = some name) (rest : List (String × String)) :
    ((rest.foldl (renameStep focus) q).functionSignatures.lookup focus).map FunctionSignature.name = some name := by
  induction rest generalizing q with
  | nil => exact h
  | cons e rest ih => exact ih (signatureName_step h e)

/-- A signature that is made takes the name that the function has. -/
theorem signatureName_param (hnone : q.functionSignatures.lookup focus = none) (index : Nat) (name : String) :
    ((q.write focus (.param index) name).functionSignatures.lookup focus).map FunctionSignature.name =
      some ((q.symbolName focus).getD "sub") := by
  rw [write, lookup_setParamName, hnone]
  rfl

/-- With the function before a parameter or behind it, the signature gets one name or the other. -/
theorem title_of_order {f a : String × String} {index : Nat} (hf : placeOf f.1 = .ok .function)
    (ha : placeOf a.1 = .ok (.param index)) (hnone : p.functionSignatures.lookup focus = none)
   
    (heq : (f :: a :: rest).foldl (renameStep focus) p = (a :: f :: rest).foldl (renameStep focus) p) :
    (p.symbolName focus).getD "sub" = f.2 := by
  simp only [List.foldl_cons, renameStep_of_ok hf, renameStep_of_ok ha] at heq
  have hsig : (p.write focus .function (written .function f)).functionSignatures.lookup focus = none := hnone
  have hfirst := signatureName_param hsig index (written (.param index) a)
  rw [symbolName_write_function, Option.getD_some] at hfirst
  -- the rename that comes second does not touch the signature
  have hsecond : (((p.write focus (.param index) (written (.param index) a)).write focus .function
      (written .function f)).functionSignatures.lookup focus).map FunctionSignature.name =
        some ((p.symbolName focus).getD "sub") := signatureName_param hnone index (written (.param index) a)
  have hnames := signatureName_foldl hfirst rest
  rw [heq, signatureName_foldl hsecond rest] at hnames
  exact Option.some.inj hnames

theorem compatible_of_batchExact (hfocus : p.focus = some focus) (h : p.BatchExact focus m) : p.Compatible focus m := by
  obtain ⟨q, horder, -⟩ := h
  have hfold : ∀ order : List (String × String), order.Perm m.entries →
      (∀ e ∈ order, ∃ place, placeOf e.1 = .ok place) ∧ order.foldl (renameStep focus) p = q := by
    intro order hperm
    rw [← foldlM_renameEntry_iff, ← applyRenameBatch_eq hfocus]
    exact horder order hperm
  have hlast : ∀ e ∈ m.entries, ∀ place, placeOf e.1 = .ok place → Holds q focus place (written place e) := by
    intro e he place hplace
    rw [← (hfold _ (perm_last he)).2]
    exact holds_last hplace
  refine ⟨fun e he => (placeOf_ok_iff e.1).mp ((hfold _ (List.Perm.refl _)).1 e he), ?_, ?_⟩
  · intro e he e' he' place hplace hplace'
    exact (hlast e he place hplace).unique (hlast e' he' place hplace')
  · intro f hf a ha index hfunction hparam hnone
    have hne : a ≠ f := by
      intro heq
      rw [heq, hfunction] at hparam
      cases Except.ok.inj hparam
    have hsplit : m.entries.Perm (f :: a :: (m.entries.erase f).erase a) :=
      (List.perm_cons_erase hf).trans ((List.perm_cons_erase ((List.mem_erase_of_ne hne).mpr ha)).cons f)
    have hfirst := (hfold _ hsplit.symm).2
    have hsecond := (hfold _ (hsplit.trans (List.Perm.swap a f _)).symm).2
    exact title_of_order hfunction hparam hnone (hfirst.trans hsecond.symm)

/-- A batch gives the same project in every order, with every entry recorded, exactly when it
is compatible with the project. -/
theorem batchExact_iff (hfocus : p.focus = some focus) (m : RenameMap) : p.BatchExact focus m ↔ p.Compatible focus m :=
  ⟨compatible_of_batchExact hfocus, batchExact_of_compatible hfocus⟩

end Batch

/-- A function in focus that has a name. -/
def parser : Project :=
  { blank with
    symbols := (∅ : Map Symbol).insert 4096 { name := "parse", kind := .user }
    focus := some 4096
    functions := {4096} }

/-- A name that the function has, a local, a parameter and a note. -/
def parserNames : List (String × String) :=
  [("__function__", "parse"), ("local:-0x10", "buf"), ("arg:1", "len"), ("note", "reads the header")]

theorem nodup_parserNames : (parserNames.map Prod.fst).Nodup := by decide

theorem placeOf_parserNames : parserNames.map (fun e => placeOf e.1) =
    [.ok .function, .ok (.stackLocal (-16)), .ok (.param 1), .ok .note] := by decide +kernel

theorem nodup_places : (parserNames.map fun e => placeOf e.1).Nodup := by
  rw [placeOf_parserNames]
  decide

theorem batchExact_parserNames : parser.BatchExact 4096 ⟨parserNames, nodup_parserNames⟩ := by
  refine (batchExact_iff rfl _).mpr ⟨fun e he => ?_, fun e he e' he' place hplace hplace' => ?_, ?_⟩
  · rw [← placeOf_ok_iff]
    have hmem : placeOf e.1 ∈ parserNames.map fun e => placeOf e.1 := List.mem_map_of_mem he
    rw [placeOf_parserNames] at hmem
    cases hplace : placeOf e.1 with
    | ok place => exact ⟨place, rfl⟩
    | error err =>
      rw [hplace] at hmem
      simp at hmem
  · rw [List.inj_on_of_nodup_map nodup_places he he' (hplace.trans hplace'.symm)]
  · intro e he e' he' index hfunction _ _
    have hfirst : placeOf ("__function__", "parse").1 = .ok .function := rfl
    rw [List.inj_on_of_nodup_map nodup_places he List.mem_cons_self (hfunction.trans hfirst.symm)]
    simp [parser, symbolName, Finmap.lookup_insert]

/-- Two notes. -/
def twoNotes : List (String × String) := [("purpose", "parser"), ("caveat", "no bounds check")]

theorem nodup_twoNotes : (twoNotes.map Prod.fst).Nodup := by decide

theorem placeOf_twoNotes : placeOf "purpose" = .ok .note ∧ placeOf "caveat" = .ok .note := by decide +kernel

/-- The comment holds the note that came last. -/
theorem twoNotes_not_exact :
    parser.focus = some 4096 ∧ ¬ parser.BatchExact 4096 ⟨twoNotes, nodup_twoNotes⟩ ∧
    (parser.applyRenameBatch twoNotes).map (fun q => q.comments.get 4096 .function) =
      .ok (some "caveat: no bounds check") ∧
    (parser.applyRenameBatch twoNotes.reverse).map (fun q => q.comments.get 4096 .function) =
      .ok (some "purpose: parser") := by
  obtain ⟨hpurpose, hcaveat⟩ := placeOf_twoNotes
  refine ⟨rfl, fun h => ?_, ?_, ?_⟩
  · have hsame := (compatible_of_batchExact rfl h).same _ List.mem_cons_self _
      (List.mem_cons_of_mem _ List.mem_cons_self) .note hpurpose hcaveat
    revert hsame
    decide
  · rw [show twoNotes = [("purpose", "parser")] ++ [("caveat", "no bounds check")] from rfl,
      comment_last rfl (by simp [hpurpose, hcaveat]) hcaveat]
    rfl
  · rw [show twoNotes.reverse = [("caveat", "no bounds check")] ++ [("purpose", "parser")] from rfl,
      comment_last rfl (by simp [hpurpose, hcaveat]) hpurpose]
    rfl

end Project

end Windy
