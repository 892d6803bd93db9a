import Mathlib

/- Path names with `/` between their components (`std::path` on Unix).

   Empty segments and single dots are skipped, but for a dot at the beginning of a relative
   path. Joining an absolute path to another one replaces it; else the components of the
   second follow those of the first (`components_join`). A file name adds itself, whatever it
   is joined to (`components_join_name`). -/
namespace PathName

/-- `std::path::Component` -/
inductive Component where
  | rootDir
  | curDir
  | parentDir
  | normal (name : List Char)
  deriving DecidableEq, Repr

def isAbsolute (path : List Char) : Bool := path.head? = some '/'

/-- The component of what is between two separators. -/
def part : List Char → Option Component
  | [] => none
  | ['.'] => none
  | ['.', '.'] => some .parentDir
  | name => some (.normal name)

def parts (path : List Char) : List Component := (path.splitOn '/').filterMap part

/-- What a path begins with, before its parts. -/
def lead (path : List Char) : List Component :=
  if isAbsolute path then [.rootDir] else if (path.splitOn '/').head? = some ['.'] then [.curDir] else []

def components (path : List Char) : List Component := lead path ++ parts path

/-- `Path::file_name` -/
def fileName (path : List Char) : Option (List Char) :=
  match (components path).getLast? with
  | some (.normal name) => some name
  | _ => none

/-- `Path::join` -/
def join (base path : List Char) : List Char :=
  if isAbsolute path then path
  else if base.getLast?.any (· ≠ '/') then base ++ '/' :: path
  else base ++ path

/-! ## Segments -/

theorem part_eq_normal {segment name : List Char} (h : part segment = some (.normal name)) : segment = name := by
  unfold part at h
  split at h
  · cases h
  · cases h
  · cases h
  · cases h
    rfl

theorem parts_nil : parts [] = [] := rfl

theorem parts_append (path rest : List Char) : parts (path ++ '/' :: rest) = parts path ++ parts rest := by
  rw [parts, List.splitOn_append_cons_self, List.filterMap_append]
  rfl

/-- A name between separators has none itself. -/
theorem notMem_of_segment {path segment : List Char} (h : segment ∈ path.splitOn '/') : '/' ∉ segment := by
  induction path generalizing segment with
  | nil =>
    rw [List.splitOn_nil, List.mem_singleton] at h
    rw [h]
    exact List.not_mem_nil
  | cons c path ih =>
    rw [List.splitOn_cons_eq_if_modifyHead] at h
    split at h
    · rcases List.mem_cons.mp h with rfl | h
      · exact List.not_mem_nil
      · exact ih h
    · next hc =>
      cases hsplit : path.splitOn '/' with
      | nil =>
        rw [hsplit] at h
        cases h
      | cons first rest =>
        rw [hsplit] at h ih
        rcases List.mem_cons.mp h with rfl | h
        · intro hmem
          rcases List.mem_cons.mp hmem with rfl | hmem
          · exact hc rfl
          · exact ih List.mem_cons_self hmem
        · exact ih (List.mem_cons_of_mem _ h)

theorem notMem_of_normal {path name : List Char} (h : .normal name ∈ parts path) : '/' ∉ name ∧ part name = some (.normal name) := by
  obtain ⟨segment, hsegment, hpart⟩ := List.mem_filterMap.mp h
  obtain rfl := part_eq_normal hpart
  exact ⟨notMem_of_segment hsegment, hpart⟩

variable {name : List Char}

/-- What a name is a path of. -/
theorem parts_of_part (hsep : '/' ∉ name) : parts name = (part name).toList := by
  rw [parts, List.splitOn_eq_singleton hsep]
  cases hpart : part name <;> simp [hpart]

/-! ## Joining -/

theorem lead_append {path : List Char} (hne : path ≠ []) (rest : List Char) : lead (path ++ '/' :: rest) = lead path := by
  have hhead : ((path ++ '/' :: rest).splitOn '/').head? = (path.splitOn '/').head? := by
    rw [List.splitOn_append_cons_self, List.head?_append_of_ne_nil _ (List.splitOn_ne_nil _ _)]
  have habs : isAbsolute (path ++ '/' :: rest) = isAbsolute path := by
    rw [isAbsolute, isAbsolute, List.head?_append_of_ne_nil _ hne]
  rw [lead, lead, hhead, habs]

theorem components_join {base path : List Char} (hbase : base ≠ []) (hrel : isAbsolute path = false) :
    components (join base path) = components base ++ parts path := by
  rw [join, hrel, if_neg Bool.false_ne_true]
  split
  · rw [components, lead_append hbase, parts_append, ← List.append_assoc]
    rfl
  · next hlast =>
    -- The path ends with a separator.
    obtain ⟨init, last, rfl⟩ := (List.eq_nil_or_concat' base).resolve_left hbase
    have hsep : last = '/' := by simpa using hlast
    subst hsep
    rw [List.append_assoc, List.singleton_append]
    by_cases hinit : init = []
    · subst hinit
      have hroot : lead ('/' :: path) = lead ['/'] := rfl
      rw [components, List.nil_append, List.nil_append, hroot, components,
        show '/' :: path = [] ++ '/' :: path from rfl, parts_append, parts_nil]
      rfl
    · rw [components, lead_append hinit, parts_append, components, lead_append hinit, parts_append, parts_nil,
        List.append_nil, List.append_assoc]

theorem join_ne_nil {base path : List Char} (h : path ≠ []) : join base path ≠ [] := by
  rw [join]
  split
  · exact h
  · split <;> simp [h]

/-! ## File names -/

/-- A component between two separators that is a name. -/
structure IsName (name : List Char) : Prop where
  sep : '/' ∉ name
  part : part name = some (.normal name)

theorem IsName.ne_nil (h : IsName name) : name ≠ [] := by
  rintro rfl
  cases h.part

theorem IsName.isAbsolute (h : IsName name) : isAbsolute name = false := by
  cases name with
  | nil => rfl
  | cons c name =>
    simp only [PathName.isAbsolute, List.head?_cons, Option.some.injEq, decide_eq_false_iff_not]
    rintro rfl
    exact h.sep List.mem_cons_self

theorem IsName.parts (h : IsName name) : parts name = [.normal name] := by
  rw [parts_of_part h.sep, h.part]
  rfl

theorem IsName.components (h : IsName name) : components name = [.normal name] := by
  have hdot : name ≠ ['.'] := by
    rintro rfl
    cases h.part
  rw [PathName.components, lead, h.isAbsolute, List.splitOn_eq_singleton h.sep, List.head?_cons,
    if_neg Bool.false_ne_true, if_neg (by simpa using hdot), h.parts, List.nil_append]

theorem components_join_name (base : List Char) (h : IsName name) :
    components (join base name) = components base ++ [.normal name] := by
  by_cases hbase : base = []
  · subst hbase
    rw [join, h.isAbsolute, if_neg Bool.false_ne_true]
    exact h.components
  · rw [components_join hbase h.isAbsolute, h.parts]

theorem fileName_eq_some {path name : List Char} :
    fileName path = some name ↔ (components path).getLast? = some (.normal name) := by
  unfold fileName
  constructor
  · intro h
    split at h
    · next hlast =>
      obtain rfl := Option.some.inj h
      exact hlast
    · cases h
  · intro h
    rw [h]

theorem isName_of_fileName {path name : List Char} (h : fileName path = some name) : IsName name := by
  have hmem := List.mem_of_getLast? (fileName_eq_some.mp h)
  rcases List.mem_append.mp hmem with hlead | hparts
  · rw [lead] at hlead
    split at hlead
    · cases List.mem_singleton.mp hlead
    · split at hlead
      · cases List.mem_singleton.mp hlead
      · cases hlead
  · obtain ⟨hsep, hpart⟩ := notMem_of_normal hparts
    exact ⟨hsep, hpart⟩

end PathName
