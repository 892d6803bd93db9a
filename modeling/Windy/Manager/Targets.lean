import Windy.Lib.KeyedList

/- The open targets of the manager: projects and dump sessions (`project_manager.rs`).

   A project is a file that is analyzed, or a module that was extracted from the dump of a session.
   The session has a table of the projects its modules were opened as. Both maps are ordered by id,
   the table by the identity key of a module.

   `close` takes a target out of its map and saves it. A session is taken out first, then the
   projects of its table one after the other, each before it is saved.

   What is proved: a close that fails leaves the targets as they were, and one that succeeds has
   saved what it took out, exactly when every project it reaches can be saved (`close_atomic_iff`).

   Correspondence:
     `ProjectHandle`, `DumpSessionHandle` ↔ the same
     `projects`, `dump_sessions` ↔ `Targets`
     `project.save()` ↔ the parameter `save`, and `Targets.saved`
     `ProjectManager::get`, `get_dump`, `close` ↔ the same -/
namespace Windy

/-- A UUID. -/
abbrev ProjectId := Nat

/-- What of a module of a dump finds it and names it. `presence` is in thousandths. -/
structure DumpModule where
  base : Nat
  size : Nat
  name : String
  path : String
  timestamp : Nat
  checksum : Nat
  presence : Int
  isMain : Bool
  isExceptionModule : Bool

structure LoadedDump where
  sessionKey : String
  modules : List DumpModule

structure DumpModuleOrigin where
  dumpSessionId : ProjectId
  moduleBase : Nat
  moduleName : String
  identityKey : String

structure ProjectHandle where
  id : ProjectId
  path : String
  dumpOrigin : Option DumpModuleOrigin

def ProjectHandle.kindLabel (h : ProjectHandle) : String := if h.dumpOrigin.isSome then "dump_module" else "pe"

/-- The project a module was opened as. -/
structure ModuleProject where
  identityKey : String
  project : ProjectId

structure DumpSessionHandle where
  id : ProjectId
  path : String
  dump : LoadedDump
  moduleProjects : List ModuleProject
  ordered : KeyedList.Ordered ModuleProject.identityKey moduleProjects

/-- What is open, and what was saved, newest first. -/
structure Targets where
  projects : List ProjectHandle
  dumpSessions : List DumpSessionHandle
  saved : List ProjectHandle
  projects_ordered : KeyedList.Ordered ProjectHandle.id projects
  dumpSessions_ordered : KeyedList.Ordered DumpSessionHandle.id dumpSessions

structure ClosedTarget where
  id : ProjectId
  kind : String
  path : String
  childProjects : Nat

inductive CloseError where
  /-- `save project before close` -/
  | saveProject (cause : String)
  /-- `save dump module before close` -/
  | saveModule (cause : String)
  /-- `target not found: …` -/
  | notFound (id : ProjectId)

namespace Targets

def get (s : Targets) (id : ProjectId) : Option ProjectHandle := KeyedList.get ProjectHandle.id id s.projects

def getDump (s : Targets) (id : ProjectId) : Option DumpSessionHandle := KeyedList.get DumpSessionHandle.id id s.dumpSessions

def removeProject (s : Targets) (id : ProjectId) : Targets :=
  { s with
    projects := KeyedList.remove ProjectHandle.id id s.projects
    projects_ordered := KeyedList.ordered_remove id s.projects_ordered }

def removeDump (s : Targets) (id : ProjectId) : Targets :=
  { s with
    dumpSessions := KeyedList.remove DumpSessionHandle.id id s.dumpSessions
    dumpSessions_ordered := KeyedList.ordered_remove id s.dumpSessions_ordered }

section Close
variable (save : ProjectHandle → Except String Unit)

/-- A project is no longer open when it is saved. -/
def removeAndSave (failure : String → CloseError) (h : ProjectHandle) (s : Targets) : Except CloseError Unit × Targets :=
  let removed := s.removeProject h.id
  match save h with
  | .ok _ => (.ok (), { removed with saved := h :: removed.saved })
  | .error cause => (.error (failure cause), removed)

/-- The projects of a table that are still open, with how many were closed. -/
def closeChildren : List ProjectId → Nat → Targets → Except CloseError Nat × Targets
  | [], closed, s => (.ok closed, s)
  | id :: ids, closed, s =>
    match s.get id with
    | none => closeChildren ids closed s
    | some h =>
      match removeAndSave save .saveModule h s with
      | (.ok _, s') => closeChildren ids (closed + 1) s'
      | (.error e, s') => (.error e, s')

def close (id : ProjectId) (s : Targets) : Except CloseError ClosedTarget × Targets :=
  match s.get id with
  | some h =>
    match removeAndSave save .saveProject h s with
    | (.ok _, s') => (.ok ⟨id, h.kindLabel, h.path, 0⟩, s')
    | (.error e, s') => (.error e, s')
  | none =>
    match s.getDump id with
    | none => (.error (.notFound id), s)
    | some session =>
      match closeChildren save (session.moduleProjects.map ModuleProject.project) 0 (s.removeDump id) with
      | (.ok closed, s') => (.ok ⟨id, "dump_session", session.path, closed⟩, s')
      | (.error e, s') => (.error e, s')

end Close

/-- The open projects among these. -/
def openOf (s : Targets) (ids : List ProjectId) : List ProjectHandle := ids.filterMap s.get

/-- The projects that are closed with a target. -/
def closedWith (s : Targets) (id : ProjectId) : List ProjectHandle :=
  match s.get id with
  | some h => [h]
  | none =>
    match s.getDump id with
    | some session => s.openOf (session.moduleProjects.map ModuleProject.project)
    | none => []

/-- A close from `s` that gave this. -/
structure Atomic (s : Targets) (result : Except CloseError ClosedTarget × Targets) : Prop where
  unchanged : ∀ e, result.1 = .error e → result.2.projects = s.projects ∧ result.2.dumpSessions = s.dumpSessions
  saved : ∀ target, result.1 = .ok target → ∃ new, result.2.saved = new ++ s.saved ∧
    ∀ h ∈ s.projects, h ∉ result.2.projects → h ∈ new

/-! ## Lookups -/

section Lookup
variable {s : Targets} {id : ProjectId} {h : ProjectHandle}

theorem id_of_get (hget : s.get id = some h) : h.id = id := KeyedList.key_of_get hget

theorem mem_of_get (hget : s.get id = some h) : h ∈ s.projects := KeyedList.mem_of_get hget

theorem get_of_mem (hmem : h ∈ s.projects) : s.get h.id = some h := KeyedList.get_of_mem s.projects_ordered hmem

theorem get_removeProject (removed id : ProjectId) (s : Targets) :
    (s.removeProject removed).get id = if id = removed then none else s.get id := KeyedList.get_remove removed id s.projects

theorem mem_removeProject : h ∈ (s.removeProject id).projects ↔ h ∈ s.projects ∧ h.id ≠ id := KeyedList.mem_remove

theorem getDump_removeDump (removed id : ProjectId) (s : Targets) :
    (s.removeDump removed).getDump id = if id = removed then none else s.getDump id :=
  KeyedList.get_remove removed id s.dumpSessions

theorem removeDump_ne {session : DumpSessionHandle} (hget : s.getDump id = some session) :
    (s.removeDump id).dumpSessions ≠ s.dumpSessions := by
  intro heq
  have hmem : session ∈ (s.removeDump id).dumpSessions := heq ▸ KeyedList.mem_of_get hget
  exact (KeyedList.mem_remove.mp hmem).2 (KeyedList.key_of_get hget)

theorem mem_openOf {ids : List ProjectId} : h ∈ s.openOf ids ↔ ∃ id ∈ ids, s.get id = some h := List.mem_filterMap

end Lookup

/-! ## Saving one project -/

section Saving
variable {save : ProjectHandle → Except String Unit} {failure : String → CloseError} {s : Targets} {h : ProjectHandle}

theorem removeAndSave_ok (hsave : save h = .ok ()) :
    removeAndSave save failure h s = (.ok (), { s.removeProject h.id with saved := h :: s.saved }) := by
  rw [removeAndSave, hsave]
  rfl

theorem removeAndSave_error {cause : String} (hsave : save h = .error cause) :
    removeAndSave save failure h s = (.error (failure cause), s.removeProject h.id) := by
  rw [removeAndSave, hsave]

/-- What was taken out was saved. -/
def Saved (s s' : Targets) : Prop :=
  ∃ new, s'.saved = new ++ s.saved ∧ ∀ h ∈ s.projects, h ∉ s'.projects → h ∈ new

theorem Saved.refl (s : Targets) : Saved s s := ⟨[], rfl, fun _ hmem hgone => absurd hmem hgone⟩

theorem Saved.trans {s₁ s₂ s₃ : Targets} (h₁ : Saved s₁ s₂) (h₂ : Saved s₂ s₃) : Saved s₁ s₃ := by
  obtain ⟨new₁, hsaved₁, hnew₁⟩ := h₁
  obtain ⟨new₂, hsaved₂, hnew₂⟩ := h₂
  refine ⟨new₂ ++ new₁, by rw [hsaved₂, hsaved₁, List.append_assoc], fun h hmem hgone => List.mem_append.mpr ?_⟩
  by_cases hmid : h ∈ s₂.projects
  · exact .inl (hnew₂ h hmid hgone)
  · exact .inr (hnew₁ h hmem hmid)

theorem saved_removeProject (hmem : h ∈ s.projects) : Saved s { s.removeProject h.id with saved := h :: s.saved } := by
  refine ⟨[h], rfl, fun h' hmem' hgone => List.mem_singleton.mpr ?_⟩
  have hid : h'.id = h.id := by
    by_contra hne
    exact hgone (mem_removeProject.mpr ⟨hmem', hne⟩)
  have hget := get_of_mem hmem'
  rw [hid, get_of_mem hmem] at hget
  exact (Option.some.inj hget).symm

end Saving

/-! ## The projects of a session -/

section Children
variable {save : ProjectHandle → Except String Unit}

theorem closeChildren_dumpSessions (ids : List ProjectId) (closed : Nat) (s : Targets) :
    (closeChildren save ids closed s).2.dumpSessions = s.dumpSessions := by
  induction ids generalizing closed s with
  | nil => rfl
  | cons id ids ih =>
    rw [closeChildren]
    cases s.get id with
    | none => exact ih closed s
    | some h =>
      cases hsave : save h with
      | ok _ =>
        simp only [removeAndSave_ok hsave]
        exact ih _ _
      | error cause =>
        simp only [removeAndSave_error hsave]
        rfl

/-- All children are saved, or one cannot be. -/
theorem closeChildren_ok (closed : Nat) {ids : List ProjectId} {s : Targets}
    (hsave : ∀ h ∈ s.openOf ids, save h = .ok ()) :
    (∃ n, (closeChildren save ids closed s).1 = .ok n) ∧ Saved s (closeChildren save ids closed s).2 := by
  induction ids generalizing closed s with
  | nil => exact ⟨⟨closed, rfl⟩, .refl s⟩
  | cons id ids ih =>
    rw [closeChildren]
    cases hget : s.get id with
    | none =>
      refine ih closed fun h hh => hsave h (mem_openOf.mpr ?_)
      obtain ⟨id', hid', hget'⟩ := mem_openOf.mp hh
      exact ⟨id', List.mem_cons_of_mem _ hid', hget'⟩
    | some h =>
      have hok : save h = .ok () := hsave h (mem_openOf.mpr ⟨id, List.mem_cons_self, hget⟩)
      simp only [removeAndSave_ok hok]
      obtain ⟨hresult, hrest⟩ := ih (closed + 1) (s := { s.removeProject h.id with saved := h :: s.saved }) fun h' hh' => by
        obtain ⟨id', hid', hget'⟩ := mem_openOf.mp hh'
        change (s.removeProject h.id).get id' = some h' at hget'
        rw [get_removeProject] at hget'
        split at hget'
        · cases hget'
        · exact hsave h' (mem_openOf.mpr ⟨id', List.mem_cons_of_mem _ hid', hget'⟩)
      exact ⟨hresult, (saved_removeProject (mem_of_get hget)).trans hrest⟩

theorem closeChildren_error (closed : Nat) {ids : List ProjectId} {s : Targets} {h : ProjectHandle}
    (hopen : h ∈ s.openOf ids) {cause : String} (hsave : save h = .error cause) :
    ∃ e, (closeChildren save ids closed s).1 = .error e := by
  induction ids generalizing closed s with
  | nil => exact absurd hopen List.not_mem_nil
  | cons id ids ih =>
    obtain ⟨id', hid', hget'⟩ := mem_openOf.mp hopen
    rw [closeChildren]
    cases hget : s.get id with
    | none =>
      refine ih closed (mem_openOf.mpr ⟨id', ?_, hget'⟩)
      rcases List.mem_cons.mp hid' with rfl | hmem
      · rw [hget] at hget'
        cases hget'
      · exact hmem
    | some first =>
      cases hfirst : save first with
      | error cause' =>
        simp only [removeAndSave_error hfirst]
        exact ⟨_, rfl⟩
      | ok _ =>
        simp only [removeAndSave_ok hfirst]
        -- The project that cannot be saved is another one, so it is still open.
        have hne : id' ≠ first.id := by
          rintro rfl
          rw [id_of_get hget] at hget'
          rw [hget] at hget'
          obtain rfl := Option.some.inj hget'
          rw [hsave] at hfirst
          cases hfirst
        have hmem : id' ∈ ids := by
          rcases List.mem_cons.mp hid' with rfl | hmem
          · exact absurd (id_of_get hget).symm hne
          · exact hmem
        refine ih (closed + 1) (mem_openOf.mpr ⟨id', hmem, ?_⟩)
        change (s.removeProject first.id).get id' = some h
        rw [get_removeProject, if_neg hne, hget']

end Children

/-! ## Closing a target -/

/-- Nothing is opened, and what is still open is as it was. -/
structure Shrinks (s s' : Targets) : Prop where
  get : ∀ id h, s'.get id = some h → s.get id = some h
  getDump : ∀ id session, s'.getDump id = some session → s.getDump id = some session

theorem Shrinks.refl (s : Targets) : Shrinks s s := ⟨fun _ _ h => h, fun _ _ h => h⟩

theorem Shrinks.trans {s₁ s₂ s₃ : Targets} (h₁ : Shrinks s₁ s₂) (h₂ : Shrinks s₂ s₃) : Shrinks s₁ s₃ :=
  ⟨fun id h hget => h₁.get id h (h₂.get id h hget), fun id session hget => h₁.getDump id session (h₂.getDump id session hget)⟩

theorem shrinks_removeProject (s : Targets) (id : ProjectId) : Shrinks s (s.removeProject id) := by
  refine ⟨fun id' h hget => ?_, fun _ _ h => h⟩
  rw [get_removeProject] at hget
  split at hget
  · cases hget
  · exact hget

theorem shrinks_removeDump (s : Targets) (id : ProjectId) : Shrinks s (s.removeDump id) := by
  refine ⟨fun _ _ h => h, fun id' session hget => ?_⟩
  rw [getDump_removeDump] at hget
  split at hget
  · cases hget
  · exact hget

theorem shrinks_removeAndSave (save : ProjectHandle → Except String Unit) (failure : String → CloseError) (h : ProjectHandle)
    (s : Targets) : Shrinks s (removeAndSave save failure h s).2 := by
  have hremoved := shrinks_removeProject s h.id
  cases hsave : save h with
  | ok _ =>
    rw [removeAndSave_ok hsave]
    exact ⟨hremoved.get, hremoved.getDump⟩
  | error cause =>
    rw [removeAndSave_error hsave]
    exact hremoved

theorem shrinks_closeChildren (save : ProjectHandle → Except String Unit) (ids : List ProjectId) (closed : Nat) (s : Targets) :
    Shrinks s (closeChildren save ids closed s).2 := by
  induction ids generalizing closed s with
  | nil => exact .refl s
  | cons id ids ih =>
    rw [closeChildren]
    cases s.get id with
    | none => exact ih closed s
    | some h =>
      have hfirst := shrinks_removeAndSave save .saveModule h s
      cases hresult : removeAndSave save .saveModule h s with
      | mk result s' =>
        rw [hresult] at hfirst
        simp only [hresult]
        cases result with
        | ok _ => exact hfirst.trans (ih (closed + 1) s')
        | error e => exact hfirst

theorem shrinks_close (save : ProjectHandle → Except String Unit) (id : ProjectId) (s : Targets) :
    Shrinks s (close save id s).2 := by
  rw [close]
  cases s.get id with
  | some h =>
    have hfirst := shrinks_removeAndSave save .saveProject h s
    cases hresult : removeAndSave save .saveProject h s with
    | mk result s' =>
      rw [hresult] at hfirst
      simp only [hresult]
      cases result with
      | ok _ => exact hfirst
      | error e => exact hfirst
  | none =>
    cases s.getDump id with
    | none => exact .refl s
    | some session =>
      have hall := (shrinks_removeDump s id).trans
        (shrinks_closeChildren save (session.moduleProjects.map ModuleProject.project) 0 (s.removeDump id))
      cases hresult : closeChildren save (session.moduleProjects.map ModuleProject.project) 0 (s.removeDump id) with
      | mk result s' =>
        rw [hresult] at hall
        simp only [hresult]
        cases result with
        | ok closed => exact hall
        | error e => exact hall

theorem close_atomic_iff (save : ProjectHandle → Except String Unit) (s : Targets) (id : ProjectId) :
    Atomic s (close save id s) ↔ ∀ h ∈ s.closedWith id, save h = .ok () := by
  unfold close closedWith
  cases hget : s.get id with
  | some h =>
    simp only [List.mem_singleton, forall_eq]
    cases hsave : save h with
    | ok _ =>
      refine iff_of_true ?_ rfl
      simp only [removeAndSave_ok hsave]
      exact ⟨fun e he => (by cases he), fun target _ => saved_removeProject (mem_of_get hget)⟩
    | error cause =>
      refine iff_of_false (fun hatomic => ?_) (by simp)
      simp only [removeAndSave_error hsave] at hatomic
      have hsame := (hatomic.unchanged _ rfl).1
      have hmem : h ∈ (s.removeProject h.id).projects := hsame ▸ mem_of_get hget
      exact (mem_removeProject.mp hmem).2 rfl
  | none =>
    cases hdump : s.getDump id with
    | none =>
      refine iff_of_true ⟨fun e _ => ⟨rfl, rfl⟩, fun target htarget => (by cases htarget)⟩ ?_
      exact fun h hmem => absurd hmem List.not_mem_nil
    | some session =>
      by_cases hall : ∀ h ∈ s.openOf (session.moduleProjects.map ModuleProject.project), save h = .ok ()
      · refine iff_of_true ?_ hall
        obtain ⟨⟨n, hn⟩, hsaved⟩ := closeChildren_ok 0 (s := s.removeDump id) hall
        cases hchildren : closeChildren save (session.moduleProjects.map ModuleProject.project) 0 (s.removeDump id) with
        | mk result s' =>
          rw [hchildren] at hn hsaved
          obtain rfl : result = .ok n := hn
          simp only [hchildren]
          exact ⟨fun e he => (by cases he), fun target _ => hsaved⟩
      · refine iff_of_false (fun hatomic => ?_) hall
        simp only [not_forall] at hall
        obtain ⟨h, hopen, hne⟩ := hall
        obtain ⟨cause, hcause⟩ : ∃ cause, save h = .error cause := by
          cases hsave : save h with
          | ok _ => exact absurd hsave hne
          | error cause => exact ⟨cause, rfl⟩
        obtain ⟨e, he⟩ := closeChildren_error 0 (s := s.removeDump id) hopen hcause
        have hsessions := @closeChildren_dumpSessions save (session.moduleProjects.map ModuleProject.project) 0 (s.removeDump id)
        cases hchildren : closeChildren save (session.moduleProjects.map ModuleProject.project) 0 (s.removeDump id) with
        | mk result s' =>
          rw [hchildren] at he hsessions
          obtain rfl : result = .error e := he
          simp only [hchildren] at hatomic
          exact removeDump_ne hdump (hsessions.symm.trans (hatomic.unchanged e rfl).2)

/-! ## A session with two modules -/

/-- A project without a file behind it. -/
def plainProject (id : ProjectId) : ProjectHandle := ⟨id, "", none⟩

/-- A project, and a session with two module projects. -/
def openTargets : Targets where
  projects := [plainProject 1, plainProject 2, plainProject 3]
  dumpSessions := [⟨7, "crash.dmp", ⟨"key", []⟩, [⟨"a", 1⟩, ⟨"b", 2⟩], by decide⟩]
  saved := []
  projects_ordered := by decide
  dumpSessions_ordered := List.pairwise_singleton _ _

/-- The second module cannot be saved. -/
def secondFails (h : ProjectHandle) : Except String Unit := if h.id = 2 then .error "disk full" else .ok ()

/-- The failed close of a session leaves nothing of it to close again, and that of a project
takes it away. -/
theorem close_not_atomic :
    ¬ Atomic openTargets (close secondFails 7 openTargets) ∧ ¬ Atomic openTargets (close secondFails 2 openTargets) := by
  constructor
  · intro h
    have hsame := (h.unchanged (.saveModule "disk full") rfl).2
    exact absurd (congrArg List.length hsame) (by decide)
  · intro h
    have hsame := (h.unchanged (.saveProject "disk full") rfl).1
    exact absurd (congrArg List.length hsame) (by decide)

end Targets

end Windy
