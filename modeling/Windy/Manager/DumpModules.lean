import Windy.Bel.Query
import Windy.Lib.PathName
import Windy.Manager.Targets

/- Opening the modules of a dump as projects (`project_manager.rs`,
   `ProjectManager::open_dump_module`).

   A call names a module. If a project that was opened before takes its place the call returns that
   project; else the module is extracted and opened, and the table of the session gets its identity
   key. A project takes a module's place if its identity key has the name of the module somewhere in
   it, and it is still open. The first such entry in the order of the keys is taken.

   What is proved: over any run of calls and closes, each project a call returns is the open one of
   the module the call resolved, exactly when an entry of that module is first among those that take
   its place (`opened_iff`). In a dump where no identity key has the name of another module in it
   that is so in every run (`opened_of_apart`).

   Correspondence:
     `LoadedDump::primary_module`, `resolve_module_spec`, `sanitize_module_filename` ↔ the same
     the identity key of a module ↔ `identityKey`
     `ProjectManager::open_dump_module` ↔ the same
   What the extraction and the analysis of a module give is the parameter `extract`. -/
namespace Windy.Targets
open Bel (Text)

/-! ## Modules -/

def primaryModule (dump : LoadedDump) : Option DumpModule :=
  ((dump.modules.find? DumpModule.isExceptionModule).or (dump.modules.find? DumpModule.isMain)).or dump.modules.head?

/-- A number after `0x`. -/
def hexBase : Text → Option Nat
  | '0' :: 'x' :: hex | '0' :: 'X' :: hex => Bel.fromStrRadix 16 64 hex
  | _ => none

/-- The base that a module is named by. -/
def baseSpec (spec : Text) : Option Nat := (hexBase spec).or (Bel.fromStrRadix 10 64 spec)

/-- Modules with the least rank are preferred. -/
def rank (m : DumpModule) : Bool ×ₗ Bool ×ₗ Int := toLex (!m.isExceptionModule, toLex (!m.isMain, -m.presence))

def lowerName (m : DumpModule) : Text := Bel.normalizeAscii m.name.toList

def resolveModuleSpec (dump : LoadedDump) (spec : Text) : Option DumpModule :=
  let specTrim := Bel.trim spec
  if specTrim = [] then primaryModule dump
  else
    match baseSpec specTrim with
    | some base => dump.modules.find? fun m => m.base = base
    | none =>
      let needle := Bel.normalizeAscii specTrim
      match dump.modules.find? fun m => lowerName m = needle with
      | some m => some m
      | none =>
        let hits := dump.modules.filter fun m =>
          Bel.containsText (lowerName m) needle || Bel.containsText (Bel.normalizeAscii m.path.toList) needle
        (hits.mergeSort fun m m' => rank m ≤ rank m').head?

def isFileChar (c : Char) : Bool := c.isAlphanum || c = '.' || c = '-' || c = '_'

def sanitizeModuleFilename (name : Text) : Text :=
  let out := ((PathName.fileName name).getD name).map fun c => if isFileChar c then c else '_'
  if out = [] then "module".toList else out

def hex (n : Nat) : Text := Nat.toDigits 16 n

def identityKey (dump : LoadedDump) (m : DumpModule) : Text :=
  "dmpmod:".toList ++ dump.sessionKey.toList ++ ':' :: Bel.normalizeAscii (sanitizeModuleFilename m.name.toList) ++
    ':' :: hex m.timestamp ++ ':' :: hex m.size ++ ':' :: hex m.checksum

/-! ## Opening a module -/

inductive OpenError where
  /-- `dump session not found` -/
  | noSession
  /-- `module not found: …` -/
  | noModule (spec : Text)
  /-- The extraction or the analysis failed. -/
  | extraction (cause : String)

def keyHint (m : DumpModule) : Text := lowerName m ++ ':' :: hex m.timestamp ++ ':' :: hex m.size

/-- The key has the name of the module in it, with or without its time stamp and size. -/
def keyMatches (m : DumpModule) (key : String) : Bool :=
  Bel.containsText key.toList (keyHint m) || Bel.containsText key.toList (lowerName m)

/-- The project of an entry is returned for the module. -/
def takesPlace (s : Targets) (m : DumpModule) (e : ModuleProject) : Bool :=
  keyMatches m e.identityKey && (s.get e.project).isSome

def insertProject (s : Targets) (h : ProjectHandle) : Targets :=
  { s with
    projects := KeyedList.put ProjectHandle.id h s.projects
    projects_ordered := KeyedList.ordered_put h s.projects_ordered }

def insertDump (s : Targets) (session : DumpSessionHandle) : Targets :=
  { s with
    dumpSessions := KeyedList.put DumpSessionHandle.id session s.dumpSessions
    dumpSessions_ordered := KeyedList.ordered_put session s.dumpSessions_ordered }

/-- The session with one more entry in its table. -/
def insertModule (session : DumpSessionHandle) (e : ModuleProject) : DumpSessionHandle :=
  { session with
    moduleProjects := KeyedList.put ModuleProject.identityKey e session.moduleProjects
    ordered := KeyedList.ordered_put e session.ordered }

section Open
variable (extract : DumpModule → Except String String)

/-- The project that a module is opened as. -/
def moduleProject (session : DumpSessionHandle) (m : DumpModule) (id : ProjectId) (path : String) : ProjectHandle :=
  ⟨id, path, some ⟨session.id, m.base, m.name, String.ofList (identityKey session.dump m)⟩⟩

def openDumpModule (sessionId : ProjectId) (spec : Text) (id : ProjectId) (s : Targets) : Except OpenError ProjectId × Targets :=
  match s.getDump sessionId with
  | none => (.error .noSession, s)
  | some session =>
    match resolveModuleSpec session.dump spec with
    | none => (.error (.noModule spec), s)
    | some m =>
      match session.moduleProjects.find? (takesPlace s m) with
      | some e => (.ok e.project, s)
      | none =>
        match extract m with
        | .error cause => (.error (.extraction cause), s)
        | .ok path =>
          (.ok id, (s.insertProject (moduleProject session m id path)).insertDump
            (insertModule session ⟨String.ofList (identityKey session.dump m), id⟩))

end Open

/-! ## Runs -/

inductive Action where
  | openModule (spec : Text) (extract : DumpModule → Except String String) (id : ProjectId)
  | close (id : ProjectId) (save : ProjectHandle → Except String Unit)

section Runs
variable (session : ProjectId)

def step (s : Targets) : Action → Targets
  | .openModule spec extract id => (openDumpModule extract session spec id s).2
  | .close id save => (close save id s).2

/-- The actions of a run, each with the state it is taken in. -/
def turns : Targets → List Action → List (Targets × Action)
  | _, [] => []
  | s, a :: as => (s, a) :: turns (step session s a) as

/-- The base of the module that the project of an entry was opened for. -/
def baseOf (s : Targets) (e : ModuleProject) : Option Nat :=
  ((s.get e.project).bind ProjectHandle.dumpOrigin).map DumpModuleOrigin.moduleBase

/-- What is returned is the open project of the module that is resolved. -/
def Opened (s : Targets) : Action → Prop
  | .openModule spec extract id => ∀ project, (openDumpModule extract session spec id s).1 = .ok project →
      ∃ d m h o, s.getDump session = some d ∧ resolveModuleSpec d.dump spec = some m ∧
        (openDumpModule extract session spec id s).2.get project = some h ∧ h.dumpOrigin = some o ∧ o.moduleBase = m.base
  | .close _ _ => True

/-- An entry of the module itself is before all those of other modules that take its place. -/
def OwnFirst (s : Targets) : Action → Prop
  | .openModule spec _ _ => ∀ d m before e after, s.getDump session = some d → resolveModuleSpec d.dump spec = some m →
      d.moduleProjects = before ++ e :: after → takesPlace s m e = true → baseOf s e ≠ some m.base →
      ∃ e' ∈ before, takesPlace s m e' = true ∧ baseOf s e' = some m.base
  | .close _ _ => True

end Runs

/-! ## One call -/

section Call
variable {extract : DumpModule → Except String String} {session : ProjectId} {spec : Text} {id : ProjectId} {s : Targets}
  {d : DumpSessionHandle} {m : DumpModule}

theorem openDumpModule_noSession (hdump : s.getDump session = none) :
    openDumpModule extract session spec id s = (.error .noSession, s) := by
  rw [openDumpModule, hdump]

theorem openDumpModule_noModule (hdump : s.getDump session = some d) (hresolve : resolveModuleSpec d.dump spec = none) :
    openDumpModule extract session spec id s = (.error (.noModule spec), s) := by
  simp only [openDumpModule, hdump, hresolve]

theorem openDumpModule_taken {e : ModuleProject} (hdump : s.getDump session = some d)
    (hresolve : resolveModuleSpec d.dump spec = some m) (hfind : d.moduleProjects.find? (takesPlace s m) = some e) :
    openDumpModule extract session spec id s = (.ok e.project, s) := by
  simp only [openDumpModule, hdump, hresolve, hfind]

theorem openDumpModule_extraction {cause : String} (hdump : s.getDump session = some d)
    (hresolve : resolveModuleSpec d.dump spec = some m) (hfind : d.moduleProjects.find? (takesPlace s m) = none)
    (hextract : extract m = .error cause) : openDumpModule extract session spec id s = (.error (.extraction cause), s) := by
  simp only [openDumpModule, hdump, hresolve, hfind, hextract]

theorem openDumpModule_new {path : String} (hdump : s.getDump session = some d)
    (hresolve : resolveModuleSpec d.dump spec = some m) (hfind : d.moduleProjects.find? (takesPlace s m) = none)
    (hextract : extract m = .ok path) : openDumpModule extract session spec id s =
      (.ok id, (s.insertProject (moduleProject d m id path)).insertDump
        (insertModule d ⟨String.ofList (identityKey d.dump m), id⟩)) := by
  simp only [openDumpModule, hdump, hresolve, hfind, hextract]

theorem baseOf_eq_some {e : ModuleProject} {base : Nat} : baseOf s e = some base ↔
    ∃ h o, s.get e.project = some h ∧ h.dumpOrigin = some o ∧ o.moduleBase = base := by
  simp [baseOf, Option.map_eq_some_iff, Option.bind_eq_some_iff]

theorem get_insertProject (h : ProjectHandle) (id : ProjectId) (s : Targets) :
    (s.insertProject h).get id = if h.id = id then some h else s.get id := KeyedList.get_put h id s.projects

theorem getDump_insertDump (d : DumpSessionHandle) (id : ProjectId) (s : Targets) :
    (s.insertDump d).getDump id = if d.id = id then some d else s.getDump id := KeyedList.get_put d id s.dumpSessions

theorem get_insertDump (d : DumpSessionHandle) (id : ProjectId) (s : Targets) : (s.insertDump d).get id = s.get id := rfl

/-- The first entry that takes the place decides. -/
theorem ownFirst_of_find? {d : DumpSessionHandle} {m : DumpModule} {e : ModuleProject}
    (hfind : d.moduleProjects.find? (takesPlace s m) = some e) :
    (∀ before e after, d.moduleProjects = before ++ e :: after → takesPlace s m e = true → baseOf s e ≠ some m.base →
      ∃ e' ∈ before, takesPlace s m e' = true ∧ baseOf s e' = some m.base) ↔ baseOf s e = some m.base := by
  constructor
  · intro h
    obtain ⟨htakes, before, after, hsplit, hbefore⟩ := List.find?_eq_some_iff_append.mp hfind
    by_contra hbase
    obtain ⟨e', hmem, htakes', -⟩ := h before e after hsplit htakes hbase
    have hnot := hbefore e' hmem
    rw [htakes'] at hnot
    cases hnot
  · intro hbase before e₂ after hsplit htakes hother
    rw [hsplit, List.find?_append] at hfind
    cases hbefore : before.find? (takesPlace s m) with
    | some e' =>
      rw [hbefore, Option.some_or] at hfind
      obtain rfl := Option.some.inj hfind
      exact ⟨e', List.mem_of_find?_eq_some hbefore, List.find?_some hbefore, hbase⟩
    | none =>
      rw [hbefore, Option.none_or, List.find?_cons_of_pos htakes] at hfind
      obtain rfl := Option.some.inj hfind
      exact absurd hbase hother

theorem opened_iff_ownFirst (s : Targets) (a : Action) : Opened session s a ↔ OwnFirst session s a := by
  cases a with
  | close id save => exact Iff.rfl
  | openModule spec extract id =>
    cases hdump : s.getDump session with
    | none =>
      refine iff_of_true (fun project hproject => ?_) fun d m before e after hd => ?_
      · rw [openDumpModule_noSession hdump] at hproject
        cases hproject
      · rw [hdump] at hd
        cases hd
    | some d =>
      cases hresolve : resolveModuleSpec d.dump spec with
      | none =>
        refine iff_of_true (fun project hproject => ?_) fun d' m before e after hd hm => ?_
        · rw [openDumpModule_noModule hdump hresolve] at hproject
          cases hproject
        · obtain rfl := Option.some.inj (hdump.symm.trans hd)
          rw [hresolve] at hm
          cases hm
      | some m =>
        have hown : OwnFirst session s (.openModule spec extract id) ↔
            ∀ before e after, d.moduleProjects = before ++ e :: after → takesPlace s m e = true →
              baseOf s e ≠ some m.base → ∃ e' ∈ before, takesPlace s m e' = true ∧ baseOf s e' = some m.base := by
          constructor
          · exact fun h before e after => h d m before e after hdump hresolve
          · intro h d' m' before e after hd hm
            obtain rfl := Option.some.inj (hdump.symm.trans hd)
            obtain rfl := Option.some.inj (hresolve.symm.trans hm)
            exact h before e after
        rw [hown]
        cases hfind : d.moduleProjects.find? (takesPlace s m) with
        | some e =>
          rw [ownFirst_of_find? hfind, baseOf_eq_some, Opened, openDumpModule_taken hdump hresolve hfind]
          constructor
          · intro h
            obtain ⟨d', m', h, o, hd, hm, hget, horigin, hbase⟩ := h e.project rfl
            obtain rfl := Option.some.inj (hdump.symm.trans hd)
            obtain rfl := Option.some.inj (hresolve.symm.trans hm)
            exact ⟨h, o, hget, horigin, hbase⟩
          · rintro ⟨h, o, hget, horigin, hbase⟩ project hproject
            cases hproject
            exact ⟨d, m, h, o, hdump, hresolve, hget, horigin, hbase⟩
        | none =>
          refine iff_of_true ?_ fun before e after hsplit htakes => ?_
          · cases hextract : extract m with
            | error cause =>
              intro project hproject
              rw [openDumpModule_extraction hdump hresolve hfind hextract] at hproject
              cases hproject
            | ok path =>
              rw [Opened, openDumpModule_new hdump hresolve hfind hextract]
              intro project hproject
              cases hproject
              refine ⟨d, m, moduleProject d m id path, _, hdump, hresolve, ?_, rfl, rfl⟩
              rw [get_insertDump, get_insertProject]
              exact if_pos rfl
          · have hnot := List.find?_eq_none.mp hfind e (by rw [hsplit]; exact List.mem_append_cons_self)
            exact absurd htakes hnot

end Call

theorem opened_iff (session : ProjectId) (s : Targets) (actions : List Action) :
    (∀ turn ∈ turns session s actions, Opened session turn.1 turn.2) ↔
      ∀ turn ∈ turns session s actions, OwnFirst session turn.1 turn.2 :=
  forall₂_congr fun turn _ => opened_iff_ownFirst turn.1 turn.2

/-! ## Names that are apart -/

/-- No identity key has the name of a module with another base in it. -/
def NamesApart (dump : LoadedDump) : Prop :=
  ∀ m ∈ dump.modules, ∀ m' ∈ dump.modules, keyMatches m (String.ofList (identityKey dump m')) = true → m.base = m'.base

/-- The new id of an opened project is new. -/
def FreshId (session : ProjectId) (s : Targets) : Action → Prop
  | .openModule _ _ id => ∀ d, s.getDump session = some d → ∀ e ∈ d.moduleProjects, e.project ≠ id
  | .close _ _ => True

/-- The entries of a session are those of modules of its dump. -/
structure TableSound (session : ProjectId) (s : Targets) : Prop where
  apart : ∀ d, s.getDump session = some d → NamesApart d.dump
  entries : ∀ d, s.getDump session = some d → ∀ e ∈ d.moduleProjects, ∃ m ∈ d.dump.modules,
    e.identityKey = String.ofList (identityKey d.dump m) ∧ ∀ base, baseOf s e = some base → base = m.base
  opened : ∀ d, s.getDump session = some d → ∀ e ∈ d.moduleProjects, ∀ h, s.get e.project = some h → (baseOf s e).isSome

section Apart
variable {session : ProjectId} {s : Targets}

theorem mem_of_resolveModuleSpec {dump : LoadedDump} {spec : Text} {m : DumpModule} (h : resolveModuleSpec dump spec = some m) :
    m ∈ dump.modules := by
  rw [resolveModuleSpec] at h
  split at h
  · rcases Option.or_eq_some_iff.mp h with h | ⟨-, h⟩
    · rcases Option.or_eq_some_iff.mp h with h | ⟨-, h⟩
      · exact List.mem_of_find?_eq_some h
      · exact List.mem_of_find?_eq_some h
    · exact List.mem_of_head? h
  · split at h
    · exact List.mem_of_find?_eq_some h
    · dsimp only at h
      split at h
      · next hfind =>
        obtain rfl := Option.some.inj h
        exact List.mem_of_find?_eq_some hfind
      · exact (List.mem_filter.mp (List.mem_mergeSort.mp (List.mem_of_head? h))).1

theorem getDump_id {d : DumpSessionHandle} (h : s.getDump session = some d) : d.id = session := KeyedList.key_of_get h

theorem TableSound.ownFirst (hs : TableSound session s) (a : Action) : OwnFirst session s a := by
  cases a with
  | close id save => trivial
  | openModule spec extract id =>
    intro d m before e after hdump hresolve hsplit htakes hother
    have hmem : e ∈ d.moduleProjects := by
      rw [hsplit]
      exact List.mem_append_cons_self
    obtain ⟨m', hm', hkey, hbase⟩ := hs.entries d hdump e hmem
    obtain ⟨hmatches, hopen⟩ := (Bool.and_eq_true _ _ ▸ htakes : _ ∧ _)
    obtain ⟨h, hget⟩ := Option.isSome_iff_exists.mp hopen
    obtain ⟨base, hbaseOf⟩ := Option.isSome_iff_exists.mp (hs.opened d hdump e hmem h hget)
    rw [hkey] at hmatches
    have heq := hs.apart d hdump m (mem_of_resolveModuleSpec hresolve) m' hm' hmatches
    rw [hbaseOf, hbase base hbaseOf, heq] at hother
    exact absurd rfl hother

theorem TableSound.of_shrinks {s' : Targets} (hs : TableSound session s) (h : Shrinks s s') : TableSound session s' := by
  have hbase : ∀ e base, baseOf s' e = some base → baseOf s e = some base := by
    intro e base hbaseOf
    obtain ⟨handle, o, hget, hrest⟩ := baseOf_eq_some.mp hbaseOf
    exact baseOf_eq_some.mpr ⟨handle, o, h.get _ _ hget, hrest⟩
  refine ⟨fun d hd => hs.apart d (h.getDump _ _ hd), fun d hd e he => ?_, fun d hd e he handle hget => ?_⟩
  · obtain ⟨m, hm, hkey, hof⟩ := hs.entries d (h.getDump _ _ hd) e he
    exact ⟨m, hm, hkey, fun base hbaseOf => hof base (hbase e base hbaseOf)⟩
  · obtain ⟨base, hbaseOf⟩ := Option.isSome_iff_exists.mp (hs.opened d (h.getDump _ _ hd) e he handle (h.get _ _ hget))
    obtain ⟨handle', o, hget', horigin, -⟩ := baseOf_eq_some.mp hbaseOf
    obtain rfl := Option.some.inj ((h.get _ _ hget).symm.trans hget')
    exact Option.isSome_iff_exists.mpr ⟨_, baseOf_eq_some.mpr ⟨handle, o, hget, horigin, rfl⟩⟩

/-- A new project leaves the bases of the others as they were. -/
theorem baseOf_insert {h : ProjectHandle} {d : DumpSessionHandle} {e : ModuleProject} (hne : h.id ≠ e.project) :
    baseOf ((s.insertProject h).insertDump d) e = baseOf s e := by
  rw [baseOf, get_insertDump, get_insertProject, if_neg hne, baseOf]

theorem TableSound.step (hs : TableSound session s) (a : Action) (hfresh : FreshId session s a) :
    TableSound session (Targets.step session s a) := by
  cases a with
  | close id save => exact hs.of_shrinks (shrinks_close save id s)
  | openModule spec extract id =>
    rw [Targets.step]
    cases hdump : s.getDump session with
    | none => rwa [openDumpModule_noSession hdump]
    | some d =>
      cases hresolve : resolveModuleSpec d.dump spec with
      | none => rwa [openDumpModule_noModule hdump hresolve]
      | some m =>
        cases hfind : d.moduleProjects.find? (takesPlace s m) with
        | some e => rwa [openDumpModule_taken hdump hresolve hfind]
        | none =>
          cases hextract : extract m with
          | error cause => rwa [openDumpModule_extraction hdump hresolve hfind hextract]
          | ok path =>
            rw [openDumpModule_new hdump hresolve hfind hextract]
            -- The session is the one whose table was extended, the rest is as it was.
            have hsession : ∀ d', ((s.insertProject (moduleProject d m id path)).insertDump
                (insertModule d ⟨String.ofList (identityKey d.dump m), id⟩)).getDump session = some d' →
                d' = insertModule d ⟨String.ofList (identityKey d.dump m), id⟩ := by
              intro d' hd'
              have hid : (insertModule d ⟨String.ofList (identityKey d.dump m), id⟩).id = session :=
                (getDump_id hdump : d.id = session)
              rw [getDump_insertDump, if_pos hid] at hd'
              exact (Option.some.inj hd').symm
            have hentries : ∀ e ∈ (insertModule d ⟨String.ofList (identityKey d.dump m), id⟩).moduleProjects,
                e = ⟨String.ofList (identityKey d.dump m), id⟩ ∨ e ∈ d.moduleProjects ∧ id ≠ e.project := by
              intro e he
              rcases KeyedList.mem_of_mem_put he with rfl | he
              · exact .inl rfl
              · exact .inr ⟨he, fun heq => hfresh d hdump e he heq.symm⟩
            have hnew : baseOf ((s.insertProject (moduleProject d m id path)).insertDump
                (insertModule d ⟨String.ofList (identityKey d.dump m), id⟩)) ⟨String.ofList (identityKey d.dump m), id⟩ =
                some m.base := by
              rw [baseOf, get_insertDump, get_insertProject]
              exact congrArg (fun h : Option ProjectHandle => (h.bind ProjectHandle.dumpOrigin).map DumpModuleOrigin.moduleBase)
                (if_pos rfl)
            refine ⟨fun d' hd' => ?_, fun d' hd' e he => ?_, fun d' hd' e he h hget => ?_⟩
            · obtain rfl := hsession d' hd'
              exact hs.apart d hdump
            · obtain rfl := hsession d' hd'
              rcases hentries e he with rfl | ⟨hold, hne⟩
              · refine ⟨m, mem_of_resolveModuleSpec hresolve, rfl, fun base hbase => ?_⟩
                exact Option.some.inj (hbase.symm.trans hnew)
              · rw [baseOf_insert hne]
                exact hs.entries d hdump e hold
            · obtain rfl := hsession d' hd'
              rcases hentries e he with rfl | ⟨hold, hne⟩
              · rw [hnew]
                rfl
              · rw [baseOf_insert hne]
                rw [get_insertDump, get_insertProject, if_neg (show (moduleProject d m id path).id ≠ e.project from hne)] at hget
                exact hs.opened d hdump e hold h hget

/-- From an empty table on, with names that are apart, every call returns the project of its
module. -/
theorem opened_of_apart {s : Targets} {actions : List Action}
    (hstart : ∀ d, s.getDump session = some d → d.moduleProjects = [] ∧ NamesApart d.dump)
    (hfresh : ∀ turn ∈ turns session s actions, FreshId session turn.1 turn.2) :
    ∀ turn ∈ turns session s actions, Opened session turn.1 turn.2 := by
  have hsound : TableSound session s := by
    refine ⟨fun d hd => (hstart d hd).2, fun d hd e he => ?_, fun d hd e he => ?_⟩
    · rw [(hstart d hd).1] at he
      cases he
    · rw [(hstart d hd).1] at he
      cases he
  clear hstart
  induction actions generalizing s with
  | nil => exact fun turn hturn => absurd hturn List.not_mem_nil
  | cons a actions ih =>
    intro turn hturn
    rcases List.mem_cons.mp hturn with rfl | hturn
    · exact (opened_iff_ownFirst s a).mpr (hsound.ownFirst a)
    · exact ih (fun turn hturn => hfresh turn (List.mem_cons_of_mem _ hturn))
        (hsound.step a (hfresh (s, a) List.mem_cons_self)) turn hturn

end Apart

/-- Two modules with names apart, both opened by their names. -/
theorem apart_opened : ∃ s : Targets, s.projects = [] ∧
    ∀ turn ∈ turns 7 s [.openModule ['x'] (fun _ => .ok "x") 1, .openModule ['y'] (fun _ => .ok "y") 2],
      Opened 7 turn.1 turn.2 := by
  let dump : LoadedDump := ⟨"k", [⟨0x1000, 0x1000, "x", "x", 0, 0, 0, false, false⟩, ⟨0x2000, 0x1000, "y", "y", 0, 0, 0, false, false⟩]⟩
  refine ⟨⟨[], [⟨7, "crash.dmp", dump, [], .nil⟩], [], .nil, List.pairwise_singleton _ _⟩, rfl, opened_of_apart ?_ ?_⟩
  · rintro d ⟨⟩
    exact ⟨rfl, by unfold NamesApart; decide⟩
  · simp only [turns, List.forall_mem_cons, List.not_mem_nil, false_implies, implies_true, and_true]
    refine ⟨fun d hd => ?_, fun d hd e he => ?_⟩
    · cases hd
      simp
    · cases hd
      cases List.mem_singleton.mp he
      decide

/-! ## A name within another -/

def namedModule (base : Nat) (name : String) : DumpModule := ⟨base, 0x1000, name, name, 0, 0, 0, false, false⟩

/-- A session with two modules, the name of one of which ends with that of the other. -/
def dumpTargets : Targets where
  projects := []
  dumpSessions := [⟨7, "crash.dmp", ⟨"k", [namedModule 0x1000 "ab", namedModule 0x2000 "b"]⟩, [], List.Pairwise.nil⟩]
  saved := []
  projects_ordered := List.Pairwise.nil
  dumpSessions_ordered := List.pairwise_singleton _ _

/-- Both modules are opened, by their names. -/
def openBoth : List Action := [.openModule ['a', 'b'] (fun _ => .ok "ab") 1, .openModule ['b'] (fun _ => .ok "b") 2]

/-- The second call returns the project of the first module. -/
theorem second_not_opened : ¬ ∀ turn ∈ turns 7 dumpTargets openBoth, Opened 7 turn.1 turn.2 := by
  intro h
  have hsecond := h _ (List.mem_cons_of_mem _ List.mem_cons_self)
  obtain ⟨d, m, handle, o, hdump, hresolve, hget, horigin, hbase⟩ := hsecond 1 rfl
  cases hdump
  cases hresolve
  cases hget
  cases horigin
  exact absurd hbase (by decide)

end Windy.Targets
