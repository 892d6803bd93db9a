import Mathlib.Logic.Function.Basic
import Windy.Bel.Build
import Windy.Lib.Run

/- The shared construction of an index (`get_or_build`, `BelIndexCell` and `BelBuildLease` in
   `analysis/bel/mod.rs`).

   All calls on one project share a write-once cell, a flag under a lock and a one-shot permission
   to look at the disk. A call reads the cell, may load the index from the disk, and then joins the
   loop under the lock: it takes what is installed, or the flag, or gives up, or sleeps. Who has the
   flag builds outside the lock and clears the flag when its lease is dropped, whatever came of the
   build. Nothing orders the calls: every action below is one step of one of them, and what the
   disk, the clock, the cancel flag and the build answer is part of the action.

   What is proved:
     1. `Inv.step`: each step keeps that the flag is set exactly while one call is
        between taking it and clearing it, and that the lock has one holder.
     2. `single_flight`: in every run at most one build is in progress, all calls
        that return an index return the installed one, and when no build is under way
        the flag is clear and the next call gets to build.

   Correspondence:
     `BelIndexCell` ↔ `Cell` (`holder` is who has the lock of `building`)
     `get_or_build` ↔ `advance`, from `.started` to `.returned`
     `BelBuildLease::drop` ↔ `Event.relock` and `Event.clear`
   A build that panics unwinds through the lease. The background write of the finished index to the
   disk is left out. -/
namespace Windy.Bel.SingleFlight

variable {ι : Type}

/-- Why a call returns no index. -/
inductive BuildFailure where
  | cancelled
  | deadline
  | error (e : BelBuildError)

/-- How `BelIndex::build` ends. -/
inductive Outcome (ι : Type) where
  | done (index : ι)
  | failed (e : BuildFailure)
  | panicked

def Outcome.isDone : Outcome ι → Bool
  | .done _ => true
  | _ => false

/-- How far a call has come. -/
inductive Phase (ι : Type) where
  | idle
  | started
  /-- the cell was empty -/
  | missed
  /-- has the permission to look at the disk -/
  | loading
  | loaded (index : ι)
  /-- its index went into the cell -/
  | installed
  /-- wants the lock, for the first time or after sleeping -/
  | locking
  /-- in the loop, with the lock -/
  | testing
  | claiming
  /-- somebody else has the flag -/
  | busy
  /-- has the flag, and still the lock -/
  | claimed
  | building
  | built (outcome : Outcome ι)
  /-- the lease is to be dropped -/
  | leaving (outcome : Outcome ι)
  /-- dropping the lease, with the lock -/
  | dropping (outcome : Outcome ι)
  | left (outcome : Outcome ι)
  | returned (result : Except BuildFailure ι)
  | unwound

structure Cell (ι : Type) where
  ready : Option ι
  building : Bool
  diskProbe : Bool
  holder : Option Nat

/-- `BelIndexCell::default()`. -/
def Cell.fresh : Cell ι := { ready := none, building := false, diskProbe := true, holder := none }

/-- `OnceLock::set`: only the first value stays. -/
def Cell.set (cell : Cell ι) (index : ι) : Cell ι := { cell with ready := cell.ready.or (some index) }

inductive Event (ι : Type) where
  | call
  | readReady
  | probe
  /-- `none` for a missing, damaged or foreign file -/
  | load (result : Option ι)
  | install
  | readInstalled
  | lock
  | lookAgain
  | claim
  /-- the cancel flag is set, or the deadline has passed -/
  | giveUp (deadline : Bool)
  | sleep
  | unlock
  | build (outcome : Outcome ι)
  | publish
  | relock
  | clear
  | finish

/-- What the call returns once its lease is gone. -/
def finished (cell : Cell ι) : Outcome ι → Phase ι
  | .done built => .returned (.ok (cell.ready.getD built))
  | .failed e => .returned (.error e)
  | .panicked => .unwound

/-- One step of the call `c`; `none` where it cannot be taken. -/
def advance (c : Nat) (cell : Cell ι) : Phase ι → Event ι → Option (Cell ι × Phase ι)
  | .idle, .call => some (cell, .started)
  | .started, .readReady =>
    match cell.ready with
    | some index => some (cell, .returned (.ok index))
    | none => some (cell, .missed)
  | .missed, .probe =>
    some ({ cell with diskProbe := false }, if cell.diskProbe then .loading else .locking)
  | .loading, .load result =>
    match result with
    | some index => some (cell, .loaded index)
    | none => some (cell, .locking)
  | .loaded index, .install =>
    some (cell.set index, if cell.ready.isNone then .installed else .locking)
  | .installed, .readInstalled =>
    match cell.ready with
    | some index => some (cell, .returned (.ok index))
    | none => some (cell, .unwound)
  | .locking, .lock => if cell.holder = none then some ({ cell with holder := some c }, .testing) else none
  | .testing, .lookAgain =>
    match cell.ready with
    | some index => some ({ cell with holder := none }, .returned (.ok index))
    | none => some (cell, .claiming)
  | .claiming, .claim =>
    if cell.building then some (cell, .busy) else some ({ cell with building := true }, .claimed)
  | .busy, .giveUp deadline =>
    some ({ cell with holder := none }, .returned (.error (if deadline then .deadline else .cancelled)))
  | .busy, .sleep => some ({ cell with holder := none }, .locking)
  | .claimed, .unlock => some ({ cell with holder := none }, .building)
  | .building, .build outcome => some (cell, .built outcome)
  | .built outcome, .publish =>
    match outcome with
    | .done index => some (cell.set index, .leaving outcome)
    | _ => some (cell, .leaving outcome)
  | .leaving outcome, .relock =>
    if cell.holder = none then some ({ cell with holder := some c }, .dropping outcome) else none
  | .dropping outcome, .clear => some ({ cell with building := false, holder := none }, .left outcome)
  | .left outcome, .finish => some (cell, finished cell outcome)
  | _, _ => none

/-- All calls on one project. -/
structure State (ι : Type) where
  cell : Cell ι
  calls : Nat → Phase ι

def start : State ι := { cell := .fresh, calls := fun _ => .idle }

/-- One call takes one step. -/
def step (s : State ι) (action : Nat × Event ι) : Option (State ι) :=
  (advance action.1 s.cell (s.calls action.1) action.2).map fun next =>
    { cell := next.1, calls := Function.update s.calls action.1 next.2 }

/-! ## Phases -/

namespace Phase

/-- The call has the lock. -/
def holds : Phase ι → Bool
  | .testing | .claiming | .busy | .claimed | .dropping _ => true
  | _ => false

/-- The call has the flag. -/
def inFlight : Phase ι → Bool
  | .claimed | .building | .built _ | .leaving _ | .dropping _ => true
  | _ => false

/-- `BelIndex::build` is running. -/
def isBuilding : Phase ι → Bool
  | .building => true
  | _ => false

/-- The call has seen an index go into the cell. -/
def hasStored : Phase ι → Bool
  | .installed => true
  | .leaving outcome | .dropping outcome | .left outcome => outcome.isDone
  | _ => false

/-- The index the call has returned. -/
def answer : Phase ι → Option ι
  | .returned (.ok index) => some index
  | _ => none

theorem inFlight_of_isBuilding {p : Phase ι} (h : p.isBuilding = true) : p.inFlight = true := by
  cases p <;> simp_all [isBuilding, inFlight]

end Phase

/-! ## The invariant -/

/-- The lock has one holder, the flag is set exactly while one call is between taking
and clearing it, and whoever returned an index returned the installed one. -/
structure Inv (s : State ι) : Prop where
  holder : ∀ c, (s.calls c).holds = true ↔ s.cell.holder = some c
  single : ∀ c d, (s.calls c).inFlight = true → (s.calls d).inFlight = true → c = d
  flag : s.cell.building = true ↔ ∃ c, (s.calls c).inFlight = true
  stored : ∀ c, (s.calls c).hasStored = true → s.cell.ready.isSome = true
  answer : ∀ c index, (s.calls c).answer = some index → s.cell.ready = some index

theorem inv_start : Inv (start : State ι) := by
  constructor <;> simp [start, Cell.fresh, Phase.holds, Phase.inFlight, Phase.hasStored, Phase.answer]

/-- What one step of a call does to the lock, to the flag, to the cell and to what the
call has seen. -/
structure Moves (c : Nat) (cell cell' : Cell ι) (p p' : Phase ι) : Prop where
  holder : (p'.holds = p.holds ∧ cell'.holder = cell.holder) ∨
    (cell.holder = none ∧ p'.holds = true ∧ cell'.holder = some c) ∨
    (p.holds = true ∧ p'.holds = false ∧ cell'.holder = none)
  flag : (p'.inFlight = p.inFlight ∧ cell'.building = cell.building) ∨
    (cell.building = false ∧ p'.inFlight = true ∧ cell'.building = true) ∨
    (p.inFlight = true ∧ p'.inFlight = false ∧ cell'.building = false)
  ready : ∀ index, cell.ready = some index → cell'.ready = some index
  stored : p'.hasStored = true → p.hasStored = true ∨ cell'.ready.isSome = true
  answer : ∀ index, p'.answer = some index →
    cell'.ready = some index ∨ (p.hasStored = true ∧ ∃ built, index = cell'.ready.getD built)

@[simp] theorem holder_set (cell : Cell ι) (built : ι) : (cell.set built).holder = cell.holder := rfl

@[simp] theorem building_set (cell : Cell ι) (built : ι) : (cell.set built).building = cell.building := rfl

@[simp] theorem ready_set (cell : Cell ι) (built : ι) :
    (cell.set built).ready = some (cell.ready.getD built) := by
  cases h : cell.ready <;> simp [Cell.set, h]

/-- The one step that looks at both the cell and the outcome. -/
theorem moves_finish (c : Nat) (cell : Cell ι) (outcome : Outcome ι) :
    Moves c cell cell (.left outcome) (finished cell outcome) := by
  cases outcome with
  | done built =>
    refine ⟨.inl ⟨rfl, rfl⟩, .inl ⟨rfl, rfl⟩, fun _ h => h, ?_, ?_⟩
    · simp [finished, Phase.hasStored]
    · intro index h
      exact .inr ⟨rfl, built, (Option.some.inj h).symm⟩
  | failed e => exact ⟨.inl ⟨rfl, rfl⟩, .inl ⟨rfl, rfl⟩, fun _ h => h, by simp [finished, Phase.hasStored],
      by simp [finished, Phase.answer]⟩
  | panicked => exact ⟨.inl ⟨rfl, rfl⟩, .inl ⟨rfl, rfl⟩, fun _ h => h, by simp [finished, Phase.hasStored],
      by simp [finished, Phase.answer]⟩

theorem moves {c : Nat} {cell cell' : Cell ι} {p p' : Phase ι} {e : Event ι}
    (h : advance c cell p e = some (cell', p')) : Moves c cell cell' p p' := by
  unfold advance at h
  split at h
  all_goals try split at h
  all_goals simp only [Option.some.injEq, Prod.mk.injEq, reduceCtorEq] at h
  all_goals obtain ⟨rfl, rfl⟩ := h
  case h_17 => exact moves_finish c cell _
  -- each field is read off the two phases
  all_goals constructor <;> simp_all [Phase.holds, Phase.inFlight, Phase.hasStored, Phase.answer, Outcome.isDone]

section Preserved
variable {s : State ι} {c : Nat} {cell : Cell ι} {p : Phase ι}

/-- The state after the step of `c`. -/
def State.after (s : State ι) (c : Nat) (cell : Cell ι) (p : Phase ι) : State ι :=
  { cell := cell, calls := Function.update s.calls c p }

theorem after_self (s : State ι) (c : Nat) (cell : Cell ι) (p : Phase ι) : (s.after c cell p).calls c = p :=
  Function.update_self ..

theorem after_ne (s : State ι) (cell : Cell ι) (p : Phase ι) {c d : Nat} (h : d ≠ c) :
    (s.after c cell p).calls d = s.calls d :=
  Function.update_of_ne h ..

theorem Inv.holder_after (hinv : Inv s) (hmoves : Moves c s.cell cell (s.calls c) p) (d : Nat) :
    ((s.after c cell p).calls d).holds = true ↔ cell.holder = some d := by
  have hc := hinv.holder c
  have hd := hinv.holder d
  by_cases hdc : d = c
  · subst hdc
    rw [after_self]
    rcases hmoves.holder with ⟨hp, hcell⟩ | ⟨-, hp, hcell⟩ | ⟨-, hp, hcell⟩
    · rw [hp, hcell]; exact hd
    · simp [hp, hcell]
    · simp [hp, hcell]
  · have hcd : c ≠ d := fun h => hdc h.symm
    rw [after_ne s cell p hdc]
    rcases hmoves.holder with ⟨-, hcell⟩ | ⟨hfree, -, hcell⟩ | ⟨hheld, -, hcell⟩
    · rw [hcell]; exact hd
    · rw [hd, hfree, hcell]; simp [hcd]
    · rw [hd, hc.mp hheld, hcell]; simp [hcd]

/-- The call that takes the flag finds nobody in flight. -/
theorem Inv.single_after (hinv : Inv s) (hmoves : Moves c s.cell cell (s.calls c) p) {d : Nat}
    (hp : p.inFlight = true) (hd : (s.calls d).inFlight = true) : d = c := by
  rcases hmoves.flag with ⟨hsame, -⟩ | ⟨hclear, -, -⟩ | ⟨-, hnot, -⟩
  · exact hinv.single d c hd (hsame ▸ hp)
  · have hset := hinv.flag.mpr ⟨d, hd⟩
    rw [hclear] at hset
    cases hset
  · rw [hp] at hnot
    cases hnot

theorem Inv.flag_after (hinv : Inv s) (hmoves : Moves c s.cell cell (s.calls c) p) :
    cell.building = true ↔ ∃ d, ((s.after c cell p).calls d).inFlight = true := by
  rcases hmoves.flag with ⟨hsame, hcell⟩ | ⟨-, hp, hcell⟩ | ⟨hflight, hnot, hcell⟩
  · rw [hcell, hinv.flag]
    refine exists_congr fun d => ?_
    by_cases hdc : d = c
    · subst hdc; rw [after_self, hsame]
    · rw [after_ne s cell p hdc]
  · simp only [hcell, true_iff]
    exact ⟨c, by rw [after_self]; exact hp⟩
  · simp only [hcell, Bool.false_eq_true, false_iff, not_exists]
    intro d hd
    by_cases hdc : d = c
    · subst hdc
      rw [after_self, hnot] at hd
      cases hd
    · rw [after_ne s cell p hdc] at hd
      exact hdc (hinv.single d c hd hflight)

theorem Inv.stored_after (hinv : Inv s) (hmoves : Moves c s.cell cell (s.calls c) p) (d : Nat)
    (h : ((s.after c cell p).calls d).hasStored = true) : cell.ready.isSome = true := by
  have hkept : ∀ e, (s.calls e).hasStored = true → cell.ready.isSome = true := by
    intro e he
    obtain ⟨index, hindex⟩ := Option.isSome_iff_exists.mp (hinv.stored e he)
    rw [hmoves.ready index hindex]
    rfl
  by_cases hdc : d = c
  · subst hdc
    rw [after_self] at h
    rcases hmoves.stored h with hbefore | hnow
    · exact hkept d hbefore
    · exact hnow
  · rw [after_ne s cell p hdc] at h
    exact hkept d h

theorem Inv.answer_after (hinv : Inv s) (hmoves : Moves c s.cell cell (s.calls c) p) (d : Nat) (index : ι)
    (h : ((s.after c cell p).calls d).answer = some index) : cell.ready = some index := by
  by_cases hdc : d = c
  · subst hdc
    rw [after_self] at h
    rcases hmoves.answer index h with hready | ⟨hstored, built, hbuilt⟩
    · exact hready
    · obtain ⟨installed, hinstalled⟩ := Option.isSome_iff_exists.mp (hinv.stored d hstored)
      have hready := hmoves.ready installed hinstalled
      rw [hbuilt, hready]
      rfl
  · rw [after_ne s cell p hdc] at h
    exact hmoves.ready index (hinv.answer d index h)

theorem Inv.step {s' : State ι} {action : Nat × Event ι} (hinv : Inv s) (h : step s action = some s') :
    Inv s' := by
  obtain ⟨c, e⟩ := action
  obtain ⟨⟨cell, p⟩, hadvance, rfl⟩ := Option.map_eq_some_iff.mp h
  have hmoves := moves hadvance
  refine ⟨hinv.holder_after hmoves, ?_, hinv.flag_after hmoves, hinv.stored_after hmoves, hinv.answer_after hmoves⟩
  intro d d' hd hd'
  by_cases hdc : d = c <;> by_cases hdc' : d' = c
  · rw [hdc, hdc']
  · subst hdc
    exact (hinv.single_after hmoves ((after_self s d cell p) ▸ hd) (after_ne s cell p hdc' ▸ hd')).symm
  · subst hdc'
    exact hinv.single_after hmoves ((after_self s d' cell p) ▸ hd') (after_ne s cell p hdc ▸ hd)
  · exact hinv.single d d' (after_ne s cell p hdc ▸ hd) (after_ne s cell p hdc' ▸ hd')

end Preserved

/-! ## Runs -/

/-- What a new call does that finds nothing on the disk and nobody in its way. -/
def attempt (c : Nat) (probes : Bool) : List (Nat × Event ι) :=
  let look : List (Event ι) := if probes then [.load none] else []
  let events : List (Event ι) := [.call, .readReady, .probe] ++ look ++ [.lock, .lookAgain, .claim, .unlock]
  events.map fun e => (c, e)

/-- Steps of one call only. -/
theorem exec_alone {s : State ι} {c : Nat} {es : List (Event ι)} {cell : Cell ι} {p : Phase ι}
    (h : Run.exec (fun now e => advance c now.1 now.2 e) (s.cell, s.calls c) es = some (cell, p)) :
    Run.exec step s (es.map fun e => (c, e)) = some (s.after c cell p) := by
  induction es generalizing s with
  | nil =>
    obtain ⟨rfl, rfl⟩ := Prod.mk.inj (Option.some.inj h)
    simp [Run.exec, State.after]
  | cons e es ih =>
    obtain ⟨⟨next, q⟩, hnext, hrest⟩ := Option.bind_eq_some_iff.mp h
    have hstep : step s (c, e) = some (s.after c next q) := Option.map_eq_some_iff.mpr ⟨(next, q), hnext, rfl⟩
    have htail := ih (s := s.after c next q) (by rw [after_self]; exact hrest)
    rw [List.map_cons, Run.exec, hstep, Option.bind_some, htail]
    simp [State.after]

theorem attempt_builds {s : State ι} {c : Nat} (hready : s.cell.ready = none) (hholder : s.cell.holder = none)
    (hflag : s.cell.building = false) (hidle : s.calls c = .idle) :
    ∃ s', Run.exec step s (attempt c s.cell.diskProbe) = some s' ∧ (s'.calls c).isBuilding = true := by
  obtain ⟨⟨ready, building, diskProbe, holder⟩, calls⟩ := s
  subst hready hholder hflag
  cases diskProbe with
  | true => exact ⟨_, exec_alone (by rw [hidle]; rfl), by rw [after_self]; rfl⟩
  | false => exact ⟨_, exec_alone (by rw [hidle]; rfl), by rw [after_self]; rfl⟩

/-- In every run of any calls: at most one build is in progress; all calls that return
an index return the one in the cell; the flag is set exactly while some call is between
taking and clearing it; and when it is clear, nothing is installed and nobody has the
lock, a new call gets to build. -/
theorem single_flight {actions : List (Nat × Event ι)} {s : State ι} (h : Run.exec step start actions = some s) :
    (∀ c d, (s.calls c).isBuilding = true → (s.calls d).isBuilding = true → c = d) ∧
      (∀ c index, (s.calls c).answer = some index → s.cell.ready = some index) ∧
      (s.cell.building = true ↔ ∃ c, (s.calls c).inFlight = true) ∧
      ((∀ c, (s.calls c).inFlight = false) → s.cell.ready = none → s.cell.holder = none →
        ∀ c, s.calls c = .idle → ∃ s', Run.exec step s (attempt c s.cell.diskProbe) = some s' ∧
          (s'.calls c).isBuilding = true) := by
  have hinv : Inv s := Run.exec_inv (fun _ _ _ hinv hstep => Inv.step hinv hstep) h inv_start
  refine ⟨?_, hinv.answer, hinv.flag, ?_⟩
  · intro c d hc hd
    exact hinv.single c d (Phase.inFlight_of_isBuilding hc) (Phase.inFlight_of_isBuilding hd)
  · intro hnone hready hholder c hidle
    refine attempt_builds hready hholder ?_ hidle
    cases hflag : s.cell.building with
    | false => rfl
    | true =>
      obtain ⟨d, hd⟩ := hinv.flag.mp hflag
      rw [hnone d] at hd
      cases hd

/-- Call 0 takes the flag and its build is cancelled while call 1 sleeps; call 1 then
builds, and call 2, which loaded another index from the disk too late, takes that of
call 1. -/
def failThenBuild : List (Nat × Event Nat) :=
  [(0, .call), (2, .call), (0, .readReady), (2, .readReady), (2, .probe), (0, .probe), (0, .lock), (0, .lookAgain),
    (0, .claim), (0, .unlock), (1, .call), (1, .readReady), (1, .probe), (1, .lock), (1, .lookAgain), (1, .claim),
    (1, .sleep), (0, .build (.failed .cancelled)), (0, .publish), (0, .relock), (0, .clear), (0, .finish), (1, .lock),
    (1, .lookAgain), (1, .claim), (1, .unlock), (2, .load (some 7)), (1, .build (.done 5)), (1, .publish),
    (2, .install), (1, .relock), (1, .clear), (1, .finish), (2, .lock), (2, .lookAgain)]

theorem failThenBuild_shared : ∃ s, Run.exec step start failThenBuild = some s ∧
    (s.calls 1).answer = some 5 ∧ (s.calls 2).answer = some 5 ∧ s.cell.ready = some 5 := by
  refine ⟨_, rfl, rfl, rfl, ?_⟩
  have hrun : Run.exec step start failThenBuild = some _ := rfl
  exact (single_flight hrun).2.1 2 5 rfl

end Windy.Bel.SingleFlight
