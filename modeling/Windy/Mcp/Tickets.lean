import Mathlib.Data.Finmap
import Windy.Mcp.Artifact

/- Action tickets (`bind_action` and `prepare_step` in `mcp.rs`).

   A ticket binds a capability to its arguments and to the revision of the project it was computed
   from. A step clones the ticket, writes the inputs of the client over its arguments and only then
   reads the project id for the revision check out of the merged arguments. An input under a bound
   key therefore replaces what was bound, the project id included.

   What is proved:
     1. `actions_run`: an issued ticket is never changed or dropped.
     2. `prepareStep_execute_iff`: when a step is executed, and with what.
     3. `stays_bound_iff`: what is executed is what was bound, at the revision it
        was bound to, exactly when the inputs repeat the bound values or the
        step is refused anyway.

   Correspondence:
     `WindyMcp::bind_action`, `WindyMcp::prepare_step` ↔ the same
     `serde_json::Map` ↔ `Arguments`
     `Uuid::parse_str`, `Uuid::to_string` ↔ a `UuidFormat`
   The answers of the four internal capabilities are a parameter: none of them executes the ticket.
   -/
namespace Windy.Tickets

open Artifact (CallToolResult toolErrorJson)
open scoped Utf8

/-- An argument map. -/
abbrev Arguments := Finmap (fun _ : String => Json)

/-- `INVESTIGATION_TTL` in seconds. -/
def investigationTtl : Nat := 30 * 60

structure ActionTicket where
  id : String
  investigationId : String
  label : String
  capability : String
  arguments : Arguments
  expectedRevision : Option Nat
  created : Nat

/-- How project ids are written and read. -/
structure UuidFormat (τ : Type) where
  text : τ → String
  parse : String → Option τ
  parse_text : ∀ p, parse (text p) = some p

/-- The part of the server that tickets touch. `revision` is the `op_seq` of an
open project, `uuids` the ids that `Uuid::new_v4` draws. -/
structure Session (τ : Type) where
  now : Nat
  revision : τ → Option Nat
  actions : String → Option ActionTicket
  uuids : Nat → String
  distinct : Function.Injective uuids
  issued : Nat

inductive StepPlan where
  | immediate (result : CallToolResult)
  | execute (ticket : ActionTicket)

/-- The capabilities a step answers by itself. -/
def internalCapabilities : List String :=
  ["__poll_open", "__build_deep_index", "__catalog_list_imports", "__inspect_window"]

def repairStart : Json :=
  .object [("repair", .arr [.object [("tool", .str "investigation_start"), ("reuse_question", .bool true)]])]

def actionNotFound : CallToolResult :=
  toolErrorJson "ACTION_NOT_FOUND" "action is missing or expired" repairStart false

def actionExpired : CallToolResult :=
  toolErrorJson "ACTION_EXPIRED" "action expired" repairStart true

def revisionConflict : CallToolResult :=
  toolErrorJson "REVISION_CONFLICT" "target changed after this action was issued" repairStart true

/-- `for (key, value) in inputs { ticket.arguments.insert(key, value); }`. -/
def mergeInputs (arguments inputs : Arguments) : Arguments := inputs ∪ arguments

namespace Session

variable {τ : Type}

/-- `bind_action`: a new ticket under a new id. -/
def bindAction (s : Session τ) (investigationId label capability : String) (arguments : Arguments)
    (expectedRevision : Option Nat) : ActionTicket × Session τ :=
  let ticket :=
    { id := s.uuids s.issued
      investigationId := investigationId
      label := label
      capability := capability
      arguments := arguments
      expectedRevision := expectedRevision
      created := s.now }
  (ticket, { s with
    issued := s.issued + 1
    actions := Function.update s.actions ticket.id (some ticket) })

/-- The project the arguments name, if it is written as a uuid. -/
def projectOf (fmt : UuidFormat τ) (arguments : Arguments) : Option τ :=
  ((arguments.lookup "project_id").bind Json.asStr).bind fmt.parse

/-- `prepare_step`. -/
def prepareStep (fmt : UuidFormat τ) (answers : ActionTicket → Arguments → CallToolResult) (s : Session τ)
    (actionId : String) (inputs : Arguments) : StepPlan :=
  match s.actions actionId with
  | none => .immediate actionNotFound
  | some ticket =>
    if s.now - ticket.created > investigationTtl then .immediate actionExpired
    else if ticket.capability ∈ internalCapabilities then .immediate (answers ticket inputs)
    else
      let merged := { ticket with arguments := mergeInputs ticket.arguments inputs }
      match merged.expectedRevision, projectOf fmt merged.arguments with
      | some expected, some project =>
        if s.revision project ≠ some expected then .immediate revisionConflict else .execute merged
      | _, _ => .execute merged

/-- What happens to a session between two steps of one ticket. -/
inductive Event (τ : Type) where
  | tick (seconds : Nat)
  /-- projects are opened, closed and edited -/
  | projects (revision : τ → Option Nat)
  | bind (investigationId label capability : String) (arguments : Arguments) (expectedRevision : Option Nat)

def handle (s : Session τ) : Event τ → Session τ
  | .tick seconds => { s with now := s.now + seconds }
  | .projects revision => { s with revision := revision }
  | .bind investigationId label capability arguments expectedRevision =>
    (s.bindAction investigationId label capability arguments expectedRevision).2

def run (s : Session τ) (events : List (Event τ)) : Session τ := events.foldl handle s

/-! ## Tickets are kept -/

theorem actions_handle (s : Session τ) (event : Event τ) {i : Nat} (hi : i < s.issued) :
    (s.handle event).uuids = s.uuids ∧ s.issued ≤ (s.handle event).issued ∧
      (s.handle event).actions (s.uuids i) = s.actions (s.uuids i) := by
  cases event with
  | tick seconds => exact ⟨rfl, le_refl _, rfl⟩
  | projects revision => exact ⟨rfl, le_refl _, rfl⟩
  | bind investigationId label capability arguments expectedRevision =>
    refine ⟨rfl, Nat.le_succ _, ?_⟩
    show Function.update s.actions (s.uuids s.issued) _ (s.uuids i) = _
    apply Function.update_of_ne
    intro heq
    have := s.distinct heq
    omega

/-- Whatever happens later, a ticket that was issued stays as it is. -/
theorem actions_run (s : Session τ) (events : List (Event τ)) {i : Nat} (hi : i < s.issued) :
    (s.run events).actions (s.uuids i) = s.actions (s.uuids i) := by
  induction events generalizing s with
  | nil => rfl
  | cons event events ih =>
    obtain ⟨huuids, hissued, hactions⟩ := s.actions_handle event hi
    have hrest := ih (s.handle event) (by omega)
    rw [huuids] at hrest
    exact hrest.trans hactions

theorem actions_bindAction (s : Session τ) (investigationId label capability : String) (arguments : Arguments)
    (expectedRevision : Option Nat) (events : List (Event τ)) :
    let issued := s.bindAction investigationId label capability arguments expectedRevision
    (issued.2.run events).actions issued.1.id = some issued.1 := by
  intro issued
  have hkept := issued.2.actions_run events (i := s.issued) (Nat.lt_succ_self _)
  rw [show issued.1.id = issued.2.uuids s.issued from rfl, hkept]
  exact Function.update_self ..

/-! ## What a step executes -/

section Step
variable {fmt : UuidFormat τ} {answers : ActionTicket → Arguments → CallToolResult} {s : Session τ}
  {ticket : ActionTicket} {inputs : Arguments}

/-- The revision check of the merged arguments fails. -/
def Refused (fmt : UuidFormat τ) (s : Session τ) (ticket : ActionTicket) (inputs : Arguments) : Prop :=
  ∃ expected project, ticket.expectedRevision = some expected ∧
    projectOf fmt (mergeInputs ticket.arguments inputs) = some project ∧ s.revision project ≠ some expected

/-- The ticket is not executed, whatever the inputs are: it is too old, or one of
the internal ones. -/
def Settled (s : Session τ) (ticket : ActionTicket) : Prop :=
  investigationTtl < s.now - ticket.created ∨ ticket.capability ∈ internalCapabilities

/-- A step is executed with the merged arguments unless it is settled or
refused. -/
theorem prepareStep_execute_iff (hticket : s.actions ticket.id = some ticket) {executed : ActionTicket} :
    s.prepareStep fmt answers ticket.id inputs = .execute executed ↔
      ¬ s.Settled ticket ∧ ¬ s.Refused fmt ticket inputs ∧
      executed = { ticket with arguments := mergeInputs ticket.arguments inputs } := by
  unfold prepareStep Settled Refused
  rw [hticket]
  dsimp only
  by_cases hold : s.now - ticket.created > investigationTtl
  · rw [if_pos hold]
    exact iff_of_false (fun h => by cases h) fun h => h.1 (Or.inl hold)
  rw [if_neg hold]
  by_cases hinternal : ticket.capability ∈ internalCapabilities
  · rw [if_pos hinternal]
    exact iff_of_false (fun h => by cases h) fun h => h.1 (Or.inr hinternal)
  rw [if_neg hinternal]
  have hsettled : ¬ (investigationTtl < s.now - ticket.created ∨ ticket.capability ∈ internalCapabilities) :=
    fun h => h.elim hold hinternal
  cases hrevision : ticket.expectedRevision with
  | none => simp [hsettled, eq_comm]
  | some expected =>
    cases hproject : projectOf fmt (mergeInputs ticket.arguments inputs) with
    | none => simp [hsettled, eq_comm]
    | some project =>
      by_cases hcurrent : s.revision project = some expected
      · simp [hsettled, hcurrent, eq_comm]
      · simp [hcurrent]

end Step

/-! ## Staying bound -/

/-- Where an executed step keeps every bound argument, and the bound project is
at the revision the ticket was issued for. -/
def StaysBound (fmt : UuidFormat τ) (answers : ActionTicket → Arguments → CallToolResult) (s : Session τ)
    (ticket : ActionTicket) (project : τ) (expected : Nat) (inputs : Arguments) : Prop :=
  ∀ executed, s.prepareStep fmt answers ticket.id inputs = .execute executed →
    (∀ key value, ticket.arguments.lookup key = some value → executed.arguments.lookup key = some value) ∧
    s.revision project = some expected

/-- Every input under a bound key repeats what was bound. -/
def Repeats (arguments inputs : Arguments) : Prop :=
  ∀ key bound value, arguments.lookup key = some bound → inputs.lookup key = some value → value = bound

theorem lookup_mergeInputs (arguments inputs : Arguments) (key : String) :
    (mergeInputs arguments inputs).lookup key = (inputs.lookup key).or (arguments.lookup key) := by
  unfold mergeInputs
  by_cases hkey : key ∈ inputs
  · obtain ⟨value, hvalue⟩ := Finmap.mem_iff.mp hkey
    rw [Finmap.lookup_union_left hkey, hvalue]
    rfl
  · rw [Finmap.lookup_union_right hkey, Finmap.lookup_eq_none.mpr hkey]
    rfl

theorem repeats_iff_keeps (arguments inputs : Arguments) :
    Repeats arguments inputs ↔
      ∀ key value, arguments.lookup key = some value → (mergeInputs arguments inputs).lookup key = some value := by
  constructor
  · intro h key bound hbound
    rw [lookup_mergeInputs]
    cases hinput : inputs.lookup key with
    | none => exact hbound
    | some value => rw [h key bound value hbound hinput]; rfl
  · intro h key bound value hbound hinput
    have hkept := h key bound hbound
    rw [lookup_mergeInputs, hinput] at hkept
    exact Option.some.inj hkept

/-- A ticket that was issued for a project at a revision stays bound through a
step exactly when the step is settled or refused, or the inputs repeat the bound
values they name. -/
theorem stays_bound_iff (fmt : UuidFormat τ) (answers : ActionTicket → Arguments → CallToolResult)
    (start : Session τ) (investigationId label capability : String) (arguments : Arguments) (expected : Nat)
    (project : τ) (hproject : arguments.lookup "project_id" = some (.str (fmt.text project)))
    (events : List (Event τ)) (inputs : Arguments) :
    let issued := start.bindAction investigationId label capability arguments (some expected)
    let s := issued.2.run events
    s.StaysBound fmt answers issued.1 project expected inputs ↔
      s.Settled issued.1 ∨ s.Refused fmt issued.1 inputs ∨ Repeats arguments inputs := by
  intro issued s
  have hticket : s.actions issued.1.id = some issued.1 :=
    start.actions_bindAction investigationId label capability arguments (some expected) events
  have harguments : issued.1.arguments = arguments := rfl
  unfold StaysBound
  constructor
  · intro h
    by_cases hsettled : s.Settled issued.1
    · exact Or.inl hsettled
    by_cases hrefused : s.Refused fmt issued.1 inputs
    · exact Or.inr (Or.inl hrefused)
    have hexecuted := h _ ((prepareStep_execute_iff hticket).mpr ⟨hsettled, hrefused, rfl⟩)
    exact Or.inr (Or.inr ((repeats_iff_keeps arguments inputs).mpr hexecuted.1))
  · intro h executed hexecute
    obtain ⟨hsettled, hrefused, rfl⟩ := (prepareStep_execute_iff hticket).mp hexecute
    have hrepeats : Repeats arguments inputs := (h.resolve_left hsettled).resolve_left hrefused
    have hkeeps := (repeats_iff_keeps arguments inputs).mp hrepeats
    refine ⟨hkeeps, ?_⟩
    -- The merged project id is the bound one, so the check was about it.
    by_contra hne
    refine hrefused ⟨expected, project, rfl, ?_, hne⟩
    show ((mergeInputs arguments inputs).lookup "project_id" |>.bind Json.asStr).bind fmt.parse = _
    rw [hkeeps _ _ hproject]
    exact fmt.parse_text project

/-- Hyphenated uuids. -/
def hyphenated : UuidFormat Artifact.Uuid where
  text := Artifact.Uuid.text
  parse text :=
    if h : text.toList.length = 36 ∧ ∀ c ∈ text.toList, c ∈ "0123456789abcdef-".toList then
      some { text := text, length := h.1, plain := h.2 }
    else none
  parse_text p := dif_pos ⟨p.length, p.plain⟩

def projectText : String := "3f2a9c1e-0000-4000-8000-00000000000a"

def openProject : Artifact.Uuid :=
  { text := projectText, length := by decide, plain := by decide }

/-- A session with one open project, at revision 7. -/
def oneProject : Session Artifact.Uuid where
  now := 0
  revision := fun p => if p.text = projectText then some 7 else none
  actions := fun _ => none
  uuids := fun n => String.ofList (List.replicate n 'a')
  distinct := by
    intro m n h
    simpa using congrArg (fun text => text.toList.length) h
  issued := 0

/-- The arguments of a ticket to look at a candidate. -/
def candidate : Arguments :=
  Finmap.insert "va" (.str "0x1000") (Finmap.insert "project_id" (.str projectText) ∅)

/-- The ticket to look at the candidate, and the session that issued it. -/
def candidateTicket : ActionTicket × Session Artifact.Uuid :=
  oneProject.bindAction "i" "verify candidate 0x1000" "get_function_evidence" candidate (some 7)

def noAnswer : ActionTicket → Arguments → CallToolResult := fun _ _ => actionNotFound

/-- Inputs that add an argument keep the ticket bound. -/
theorem stays_bound_extra_input :
    (candidateTicket.2.run [.tick 5]).StaysBound hyphenated noAnswer candidateTicket.1 openProject 7
      (Finmap.insert "limit" (.nat 3) ∅) := by
  apply (stays_bound_iff hyphenated noAnswer oneProject "i" "verify candidate 0x1000" "get_function_evidence"
    candidate 7 openProject rfl [.tick 5] (Finmap.insert "limit" (.nat 3) ∅)).mpr
  refine Or.inr (Or.inr ?_)
  intro key bound value hbound hvalue
  by_cases hkey : key = "limit"
  · subst hkey
    have hnone : candidate.lookup "limit" = none := by decide
    rw [hnone] at hbound
    cases hbound
  · rw [Finmap.lookup_insert_of_ne _ hkey] at hvalue
    cases hvalue

/-- An input replaces the bound address; one that replaces the project id by a
text that is no uuid gets past the revision check. -/
theorem replaced_input_is_executed :
    (∃ executed, candidateTicket.2.prepareStep hyphenated noAnswer candidateTicket.1.id
        (Finmap.insert "va" (.str "0x2000") ∅) = .execute executed ∧
      executed.arguments.lookup "va" = some (.str "0x2000")) ∧
    ¬ candidateTicket.2.StaysBound hyphenated noAnswer candidateTicket.1 openProject 7
        (Finmap.insert "va" (.str "0x2000") ∅) ∧
    ¬ (candidateTicket.2.run [.projects fun _ => some 8]).StaysBound hyphenated noAnswer candidateTicket.1
        openProject 7 (Finmap.insert "project_id" (.str "other") ∅) := by
  refine ⟨⟨_, rfl, rfl⟩, fun h => ?_, fun h => ?_⟩
  · have hva := (h _ rfl).1 "va" (.str "0x1000") rfl
    exact absurd (congrArg (Option.bind · Json.asStr) hva) (by decide)
  · exact absurd (h _ rfl).2 (by decide)

end Session

end Windy.Tickets
