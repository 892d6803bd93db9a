import Windy.Lib.Run
import Windy.Manager.Writer

/- Committing proposals (`change_commit`: `WindyMcp::commit_change` and the `Commit` branch of
   `call_tool` in `mcp.rs`, with `ProjectManager::apply_op` and the project's writer).

   A call looks up its proposal and the cache of earlier results, checks the revision against the
   published snapshot, sends the edit to the project's writer, waits for the answer and stores a
   successful result in the cache. Nothing is locked from one of these steps to the next, so between
   them other calls, direct edits and the writer take theirs: the state below holds every call at
   the point it has reached, and `step` moves one party by one step.

   Correspondence:
     `commit_change` up to the cache lookup ↔ `Action.lookup`
     `commit_change`, the revision check ↔ `Action.check`
     `apply_rename_batch` up to `write_tx.send` ↔ `ChangeProposal.op`, `Action.send`
     `writer_loop`: `apply_one`, `store`, `respond` ↔ `Action.writerApply`, `.writerPublish`, `.writerAnswer`
     `call_tool`, filling `edit_results` ↔ `Action.finish`
   The cache key `"v3:{target}:{key}"` is the pair of target and key. Target ids are an arbitrary
   type. -/
namespace Windy.Commit

/-- What a proposed edit changes. -/
inductive EditTarget where
  | function
  | functionComment

/-- A server-issued proposal: one rename or one function comment. -/
structure ChangeProposal (τ : Type) where
  id : String
  investigationId : String
  targetId : τ
  expectedRevision : Nat
  functionVa : Nat
  target : EditTarget
  newName : String
  created : Nat

/-- The operation `apply_rename_batch` builds from the proposal's arguments. -/
def ChangeProposal.op {τ : Type} (p : ChangeProposal τ) : Op :=
  match p.target with
  | .function => .batch [.renameSymbol p.functionVa p.newName .user none none]
  | .functionComment => .batch [.setComment p.functionVa .function p.newName none]

inductive ErrorDetails where
  | repairField (field sample : String)
  | repairIntent (intent : String)
  | revisions (expected : Nat) (current : Option Nat)
  | rpc (code : Int)

/-- What a call answers. -/
inductive Response where
  | error (code message : String) (details : ErrorDetails) (retryable : Bool)
  | success (proposalId investigationId idempotencyKey : String) (op : Op)

/-- `INVESTIGATION_TTL` in seconds. -/
def investigationTtl : Nat := 30 * 60

def maxEditResults : Nat := 1024

/-- Where a request to the writer comes from. -/
inductive Source (τ : Type) where
  | direct
  | commit (call : Nat) (proposal : ChangeProposal τ) (key : String)

structure Request (τ : Type) where
  source : Source τ
  op : Op

/-- Where the writer is in the request it is working on. -/
inductive WriterPhase (τ : Type) where
  | idle
  | applied (source : Source τ) (answer : Except String Op)
  | published (source : Source τ) (answer : Except String Op)

/-- An open project: the writer's live state, the published snapshot and the
requests waiting in the channel. -/
structure Target (τ : Type) where
  isOpen : Bool
  live : Project
  snapshot : Project
  queue : List (Request τ)
  writer : WriterPhase τ

/-- How far a `change_commit` call has come. -/
inductive CallPhase (τ : Type) where
  | started
  /-- proposal found, nothing cached -/
  | resolved (p : ChangeProposal τ)
  /-- revision check passed -/
  | granted (p : ChangeProposal τ)
  /-- edit sent to the writer -/
  | queued (p : ChangeProposal τ)
  /-- edit applied, no answer yet -/
  | edited (p : ChangeProposal τ)
  | answered (p : ChangeProposal τ) (answer : Except String Op)
  | responded (r : Response)

structure Call (τ : Type) where
  proposalId : String
  expectedRevision : Nat
  key : String
  phase : CallPhase τ

/-- An edit of a proposal that the writer has applied, and the revision it was
applied to. -/
structure Effect (τ : Type) where
  call : Nat
  proposal : ChangeProposal τ
  key : String
  appliedAt : Nat

structure State (τ : Type) where
  clock : Nat
  targets : τ → Target τ
  proposals : String → Option (ChangeProposal τ)
  editResults : Finmap (fun _ : τ × String => Response)
  calls : Nat → Option (Call τ)
  effects : List (Effect τ)

inductive Action (τ : Type) where
  | tick (seconds : Nat)
  | propose (id investigationId : String) (t : τ) (va : Nat) (target : EditTarget) (newName : String)
  | closeTarget (t : τ)
  | directEdit (t : τ) (op : Op)
  | call (c : Nat) (proposalId : String) (expectedRevision : Nat) (key : String)
  | lookup (c : Nat)
  | check (c : Nat)
  | send (c : Nat)
  /-- `journaled` tells whether the journal append succeeds -/
  | writerApply (t : τ) (journaled : Bool)
  | writerPublish (t : τ)
  | writerAnswer (t : τ)
  /-- `evicted` is the entry a full cache gives up -/
  | finish (c : Nat) (evicted : Option (τ × String))

/-! ## Responses -/

def invalidKey : Response :=
  .error "INVALID_ARGUMENT" "idempotency_key must contain 8..128 bytes"
    (.repairField "idempotency_key" "case-0001-edit") false

def proposalNotFound : Response :=
  .error "PROPOSAL_NOT_FOUND" "proposal is missing or expired" (.repairIntent "edit") false

def proposalExpired : Response :=
  .error "PROPOSAL_EXPIRED" "proposal expired" (.repairIntent "edit") true

def revisionConflict (expected : Nat) (current : Option Nat) : Response :=
  .error "REVISION_CONFLICT" "proposal revision does not match the current target"
    (.revisions expected current) true

/-- `invalid_params` through `mcp_error_result`; its rpc code is -32602. -/
def invalidParams (code message : String) : Response := .error code message (.rpc (-32602)) false

variable {τ : Type} [DecidableEq τ]

/-! ## Steps -/

namespace State

def setTarget (s : State τ) (t : τ) (target : Target τ) : State τ :=
  { s with targets := Function.update s.targets t target }

def setCall (s : State τ) (c : Nat) (call : Call τ) : State τ :=
  { s with calls := Function.update s.calls c (some call) }

/-- `manager.get(t).map(|project| project.op_seq)`. -/
def currentRevision (s : State τ) (t : τ) : Option Nat :=
  if (s.targets t).isOpen then some (s.targets t).snapshot.opSeq else none

/-- `commit_change` up to the cache: what the call moves on to. -/
def lookupPhase (s : State τ) (call : Call τ) : CallPhase τ :=
  if ¬ (8 ≤ call.key.utf8ByteSize ∧ call.key.utf8ByteSize ≤ 128) then .responded invalidKey
  else
    match s.proposals call.proposalId with
    | none => .responded proposalNotFound
    | some p =>
      if s.clock - p.created > investigationTtl then .responded proposalExpired
      else
        match s.editResults.lookup (p.targetId, call.key) with
        | some cached => .responded cached
        | none => .resolved p

/-- The revision check of `commit_change`. -/
def checkPhase (s : State τ) (call : Call τ) (p : ChangeProposal τ) : CallPhase τ :=
  if call.expectedRevision ≠ p.expectedRevision ∨
      s.currentRevision p.targetId ≠ some call.expectedRevision then
    .responded (revisionConflict p.expectedRevision (s.currentRevision p.targetId))
  else .granted p

/-- The cache after a successful result: a full one gives up an entry first. -/
def remember (s : State τ) (k : τ × String) (r : Response) (evicted : Option (τ × String)) :
    Option (Finmap (fun _ : τ × String => Response)) :=
  if maxEditResults ≤ s.editResults.keys.card then
    match evicted with
    | some old => if old ∈ s.editResults then some ((s.editResults.erase old).insert k r) else none
    | none => none
  else some (s.editResults.insert k r)

/-- The call whose edit the writer has just applied. -/
def markEdited (s : State τ) : Source τ → State τ
  | .direct => s
  | .commit c p _ =>
    match s.calls c with
    | some call => s.setCall c { call with phase := .edited p }
    | none => s

/-- The answer of the writer reaches the call. -/
def deliver (s : State τ) (answer : Except String Op) : Source τ → State τ
  | .direct => s
  | .commit c p _ =>
    match s.calls c with
    | some call => s.setCall c { call with phase := .answered p answer }
    | none => s

/-- What applying the request at revision `n` adds to the history of edits. -/
def logEffect (s : State τ) (n : Nat) : Source τ → State τ
  | .direct => s
  | .commit c p key =>
    { s with effects := s.effects ++ [{ call := c, proposal := p, key := key, appliedAt := n }] }

end State

/-- One step of one party; `none` where it cannot be taken. -/
def step (s : State τ) : Action τ → Option (State τ)
  | .tick seconds => some { s with clock := s.clock + seconds }
  | .propose id investigationId t va target newName =>
    -- a fresh uuid, issued at the snapshot's revision
    if (s.proposals id).isNone ∧ (s.targets t).isOpen then
      some { s with proposals := Function.update s.proposals id (some
        { id := id
          investigationId := investigationId
          targetId := t
          expectedRevision := (s.targets t).snapshot.opSeq
          functionVa := va
          target := target
          newName := newName
          created := s.clock }) }
    else none
  | .closeTarget t => some (s.setTarget t { s.targets t with isOpen := false })
  | .directEdit t op =>
    if (s.targets t).isOpen then
      some (s.setTarget t { s.targets t with
        queue := (s.targets t).queue ++ [{ source := .direct, op := op }] })
    else none
  | .call c proposalId expectedRevision key =>
    match s.calls c with
    | none => some (s.setCall c
        { proposalId := proposalId
          expectedRevision := expectedRevision
          key := key
          phase := .started })
    | some _ => none
  | .lookup c =>
    match s.calls c with
    | some call =>
      match call.phase with
      | .started => some (s.setCall c { call with phase := s.lookupPhase call })
      | _ => none
    | none => none
  | .check c =>
    match s.calls c with
    | some call =>
      match call.phase with
      | .resolved p => some (s.setCall c { call with phase := s.checkPhase call p })
      | _ => none
    | none => none
  | .send c =>
    match s.calls c with
    | some call =>
      match call.phase with
      | .granted p =>
        let t := p.targetId
        if (s.targets t).isOpen then
          some ((s.setTarget t { s.targets t with
            queue := (s.targets t).queue ++ [{ source := .commit c p call.key, op := p.op }] }).setCall c
              { call with phase := .queued p })
        else
          some (s.setCall c { call with
            phase := .responded (invalidParams "NOT_FOUND" "project not found") })
      | _ => none
    | none => none
  | .writerApply t journaled =>
    match (s.targets t).writer, (s.targets t).queue with
    | .idle, req :: rest =>
      let before := (s.targets t).live
      let answer : Except String Op :=
        if journaled then .ok (req.op.applied before.bump) else .error "append op to oplog"
      some (((s.setTarget t { s.targets t with
        live := req.op.applyTo before.bump
        queue := rest
        writer := .applied req.source answer }).markEdited req.source).logEffect before.opSeq req.source)
    | _, _ => none
  | .writerPublish t =>
    match (s.targets t).writer with
    | .applied source answer => some (s.setTarget t { s.targets t with
        snapshot := (s.targets t).live
        writer := .published source answer })
    | _ => none
  | .writerAnswer t =>
    match (s.targets t).writer with
    | .published source answer =>
      some ((s.setTarget t { s.targets t with writer := .idle }).deliver answer source)
    | _ => none
  | .finish c evicted =>
    match s.calls c with
    | some call =>
      match call.phase with
      | .answered p (.ok op) =>
        let r := Response.success p.id p.investigationId call.key op
        match s.remember (p.targetId, call.key) r evicted with
        | some results =>
          some ({ s with editResults := results }.setCall c { call with phase := .responded r })
        | none => none
      | .answered _ (.error e) =>
        some (s.setCall c { call with phase := .responded (invalidParams "INVALID_ARGUMENT" e) })
      | _ => none
    | none => none

/-- Projects with nothing under way, and no call made yet. -/
def start (projects : τ → Project) : State τ :=
  { clock := 0
    targets := fun t =>
      { isOpen := true, live := projects t, snapshot := projects t, queue := [], writer := .idle }
    proposals := fun _ => none
    editResults := ∅
    calls := fun _ => none
    effects := [] }

/-! ## How calls, requests and the writer hang together -/

/-- The call a request belongs to. -/
def Source.call? : Source τ → Option Nat
  | .direct => none
  | .commit c _ _ => some c

/-- The request the writer is working on. -/
def WriterPhase.source : WriterPhase τ → Option (Source τ)
  | .idle => none
  | .applied source _ => some source
  | .published source _ => some source

/-- The proposal a call has found. -/
def CallPhase.proposal : CallPhase τ → Option (ChangeProposal τ)
  | .resolved p => some p
  | .granted p => some p
  | .queued p => some p
  | .edited p => some p
  | .answered p _ => some p
  | _ => none

/-- The revision check has passed and the edit is not applied yet. -/
def CallPhase.window : CallPhase τ → Option (ChangeProposal τ)
  | .granted p => some p
  | .queued p => some p
  | _ => none

/-- Every queued request is of a call that waits for it, and so is the request
the writer is working on. -/
structure Linked (s : State τ) : Prop where
  ids : ∀ id p, s.proposals id = some p → p.id = id
  proposal : ∀ c call p, s.calls c = some call → call.phase.proposal = some p →
    s.proposals call.proposalId = some p
  queue : ∀ t, ∀ req ∈ (s.targets t).queue, ∀ c p key, req.source = .commit c p key → p.targetId = t ∧
    ∃ call, s.calls c = some call ∧ call.phase = .queued p ∧ call.key = key
  nodup : ∀ t, ((s.targets t).queue.filterMap (fun req => req.source.call?)).Nodup
  writer : ∀ t c p key, (s.targets t).writer.source = some (.commit c p key) → p.targetId = t ∧
    ∃ call, s.calls c = some call ∧ call.phase = .edited p ∧ call.key = key
  snapshot : ∀ t, (s.targets t).snapshot.opSeq ≤ (s.targets t).live.opSeq
  current : ∀ t, (∀ source answer, (s.targets t).writer ≠ .applied source answer) →
    (s.targets t).snapshot = (s.targets t).live

/-- The target after the writer has applied a request. -/
def Target.afterApply (target : Target τ) (req : Request τ) (rest : List (Request τ)) (journaled : Bool) :
    Target τ :=
  { target with
    live := req.op.applyTo target.live.bump
    queue := rest
    writer := .applied req.source
      (if journaled then .ok (req.op.applied target.live.bump) else .error "append op to oplog") }

/-- What a step can do, one case for each branch that changes the state. -/
inductive Step (s : State τ) : Action τ → State τ → Prop
  | tick (n : Nat) : Step s (.tick n) { s with clock := s.clock + n }
  | propose {id investigationId : String} {t : τ} {va : Nat} {target : EditTarget} {newName : String}
      {p : ChangeProposal τ} (hfresh : s.proposals id = none) (hid : p.id = id) :
      Step s (.propose id investigationId t va target newName)
        { s with proposals := Function.update s.proposals id (some p) }
  | closeTarget (t : τ) : Step s (.closeTarget t) (s.setTarget t { s.targets t with isOpen := false })
  | directEdit (t : τ) (op : Op) : Step s (.directEdit t op) (s.setTarget t { s.targets t with
      queue := (s.targets t).queue ++ [{ source := .direct, op := op }] })
  | call {c : Nat} {proposalId : String} {expectedRevision : Nat} {key : String} (hnew : s.calls c = none) :
      Step s (.call c proposalId expectedRevision key) (s.setCall c
        { proposalId := proposalId
          expectedRevision := expectedRevision
          key := key
          phase := .started })
  | lookup {c : Nat} {call : Call τ} (hcall : s.calls c = some call) (hphase : call.phase = .started) :
      Step s (.lookup c) (s.setCall c { call with phase := s.lookupPhase call })
  | check {c : Nat} {call : Call τ} {p : ChangeProposal τ} (hcall : s.calls c = some call)
      (hphase : call.phase = .resolved p) :
      Step s (.check c) (s.setCall c { call with phase := s.checkPhase call p })
  | send {c : Nat} {call : Call τ} {p : ChangeProposal τ} (hcall : s.calls c = some call)
      (hphase : call.phase = .granted p) :
      Step s (.send c) ((s.setTarget p.targetId { s.targets p.targetId with
        queue := (s.targets p.targetId).queue ++
          [{ source := .commit c p call.key, op := p.op }] }).setCall c { call with phase := .queued p })
  | sendClosed {c : Nat} {call : Call τ} {p : ChangeProposal τ} (hcall : s.calls c = some call)
      (hphase : call.phase = .granted p) :
      Step s (.send c) (s.setCall c { call with
        phase := .responded (invalidParams "NOT_FOUND" "project not found") })
  | applyDirect {t : τ} {journaled : Bool} {op : Op} {rest : List (Request τ)}
      (hidle : (s.targets t).writer = .idle)
      (hqueue : (s.targets t).queue = { source := .direct, op := op } :: rest) :
      Step s (.writerApply t journaled)
        (s.setTarget t ((s.targets t).afterApply { source := .direct, op := op } rest journaled))
  | applyCommit {t : τ} {journaled : Bool} {c : Nat} {p : ChangeProposal τ} {key : String} {op : Op}
      {rest : List (Request τ)} {call : Call τ} (hidle : (s.targets t).writer = .idle)
      (hqueue : (s.targets t).queue = { source := .commit c p key, op := op } :: rest)
      (hcall : s.calls c = some call) :
      Step s (.writerApply t journaled)
        { (s.setTarget t ((s.targets t).afterApply { source := .commit c p key, op := op } rest
              journaled)).setCall c { call with phase := .edited p } with
          effects := s.effects ++
            [{ call := c, proposal := p, key := key, appliedAt := (s.targets t).live.opSeq }] }
  | writerPublish {t : τ} {source : Source τ} {answer : Except String Op}
      (hwriter : (s.targets t).writer = .applied source answer) :
      Step s (.writerPublish t) (s.setTarget t { s.targets t with
        snapshot := (s.targets t).live
        writer := .published source answer })
  | answerDirect {t : τ} {answer : Except String Op}
      (hwriter : (s.targets t).writer = .published .direct answer) :
      Step s (.writerAnswer t) (s.setTarget t { s.targets t with writer := .idle })
  | answerCommit {t : τ} {c : Nat} {p : ChangeProposal τ} {key : String} {answer : Except String Op}
      {call : Call τ} (hwriter : (s.targets t).writer = .published (.commit c p key) answer)
      (hcall : s.calls c = some call) :
      Step s (.writerAnswer t) ((s.setTarget t { s.targets t with writer := .idle }).setCall c
        { call with phase := .answered p answer })
  | finish {c : Nat} {evicted : Option (τ × String)} {call : Call τ} {p : ChangeProposal τ} {op : Op}
      {results : Finmap (fun _ : τ × String => Response)} (hcall : s.calls c = some call)
      (hphase : call.phase = .answered p (.ok op))
      (hresults : s.remember (p.targetId, call.key)
        (.success p.id p.investigationId call.key op) evicted = some results) :
      Step s (.finish c evicted) ({ s with editResults := results }.setCall c { call with
        phase := .responded (.success p.id p.investigationId call.key op) })
  | finishFailed {c : Nat} {evicted : Option (τ × String)} {call : Call τ} {p : ChangeProposal τ}
      {e : String} (hcall : s.calls c = some call) (hphase : call.phase = .answered p (.error e)) :
      Step s (.finish c evicted) (s.setCall c { call with
        phase := .responded (invalidParams "INVALID_ARGUMENT" e) })

/-- The step function takes only these steps. -/
theorem step_cases {s s' : State τ} {act : Action τ} (hlinked : Linked s) (hstep : step s act = some s') :
    Step s act s' := by
  cases act with
  | tick n =>
    obtain rfl := Option.some.inj hstep
    exact .tick n
  | propose id investigationId t va target newName =>
    simp only [step] at hstep
    split at hstep
    · next h =>
      obtain rfl := Option.some.inj hstep
      exact .propose (by simpa using h.1) rfl
    · cases hstep
  | closeTarget t =>
    obtain rfl := Option.some.inj hstep
    exact .closeTarget t
  | directEdit t op =>
    simp only [step] at hstep
    split at hstep
    · obtain rfl := Option.some.inj hstep
      exact .directEdit t op
    · cases hstep
  | call c proposalId expectedRevision key =>
    simp only [step] at hstep
    split at hstep
    · next h =>
      obtain rfl := Option.some.inj hstep
      exact .call h
    · cases hstep
  | lookup c =>
    simp only [step] at hstep
    split at hstep
    · next hcall =>
      split at hstep
      · next hphase =>
        obtain rfl := Option.some.inj hstep
        exact .lookup hcall hphase
      · cases hstep
    · cases hstep
  | check c =>
    simp only [step] at hstep
    split at hstep
    · next hcall =>
      split at hstep
      · next hphase =>
        obtain rfl := Option.some.inj hstep
        exact .check hcall hphase
      · cases hstep
    · cases hstep
  | send c =>
    simp only [step] at hstep
    split at hstep
    · next hcall =>
      split at hstep
      · next hphase =>
        split at hstep
        · obtain rfl := Option.some.inj hstep
          exact .send hcall hphase
        · obtain rfl := Option.some.inj hstep
          exact .sendClosed hcall hphase
      · cases hstep
    · cases hstep
  | writerApply t journaled =>
    simp only [step] at hstep
    split at hstep
    · next req rest hidle hqueue =>
      obtain rfl := Option.some.inj hstep
      obtain ⟨source, op⟩ := req
      cases source with
      | direct => exact .applyDirect hidle hqueue
      | commit c p key =>
        obtain ⟨-, call, hcall, -, -⟩ := hlinked.queue t _ (by rw [hqueue]; exact List.mem_cons_self)
          c p key rfl
        have happly : Step s (.writerApply t journaled) _ := .applyCommit hidle hqueue hcall
        simpa [State.markEdited, State.logEffect, State.setTarget, State.setCall, hcall,
          Target.afterApply] using happly
    · cases hstep
  | writerPublish t =>
    simp only [step] at hstep
    split at hstep
    · next hwriter =>
      obtain rfl := Option.some.inj hstep
      exact .writerPublish hwriter
    · cases hstep
  | writerAnswer t =>
    simp only [step] at hstep
    split at hstep
    · next source answer hwriter =>
      obtain rfl := Option.some.inj hstep
      cases source with
      | direct => exact .answerDirect hwriter
      | commit c p key =>
        obtain ⟨-, call, hcall, -, -⟩ := hlinked.writer t c p key (by rw [hwriter]; rfl)
        have hanswer := Step.answerCommit hwriter hcall
        simpa [State.deliver, State.setTarget, State.setCall, hcall] using hanswer
    · cases hstep
  | finish c evicted =>
    simp only [step] at hstep
    split at hstep
    · next hcall =>
      split at hstep
      · next hphase =>
        split at hstep
        · next hresults =>
          obtain rfl := Option.some.inj hstep
          exact .finish hcall hphase hresults
        · cases hstep
      · next hphase =>
        obtain rfl := Option.some.inj hstep
        exact .finishFailed hcall hphase
      · cases hstep
    · cases hstep

/-! ## The links hold along every run -/

section Links

omit [DecidableEq τ] in
theorem setCall_self (s : State τ) (c : Nat) (call : Call τ) : (s.setCall c call).calls c = some call := by
  simp [State.setCall]

omit [DecidableEq τ] in
theorem setCall_ne {s : State τ} {c c' : Nat} {call : Call τ} (h : c' ≠ c) :
    (s.setCall c call).calls c' = s.calls c' := by
  simp [State.setCall, Function.update_of_ne h]

omit [DecidableEq τ] in
theorem setCall_cases {s : State τ} {c c' : Nat} {call call' : Call τ}
    (h : (s.setCall c call).calls c' = some call') :
    (c' = c ∧ call' = call) ∨ (c' ≠ c ∧ s.calls c' = some call') := by
  by_cases hne : c' = c
  · subst hne
    rw [setCall_self] at h
    exact Or.inl ⟨rfl, (Option.some.inj h).symm⟩
  · rw [setCall_ne hne] at h
    exact Or.inr ⟨hne, h⟩

theorem setTarget_self (s : State τ) (t : τ) (target : Target τ) : (s.setTarget t target).targets t = target := by
  simp [State.setTarget]

variable {s : State τ} {c : Nat} {call : Call τ} {p : ChangeProposal τ} {target : Target τ} {t : τ}

theorem setTarget_ne {t t' : τ} (h : t' ≠ t) :
    (s.setTarget t target).targets t' = s.targets t' := by
  simp [State.setTarget, Function.update_of_ne h]

/-- What is true of the target that is set and of the others is true of all. -/
theorem setTarget_forall {P : τ → Target τ → Prop} (htarget : P t target)
    (hothers : ∀ t', P t' (s.targets t')) (t' : τ) : P t' ((s.setTarget t target).targets t') := by
  by_cases ht : t' = t
  · subst ht
    rw [setTarget_self]
    exact htarget
  · rw [setTarget_ne ht]
    exact hothers t'

theorem setTarget_keeps {β : Type} (f : Target τ → β)
    (hf : f target = f (s.targets t)) (t' : τ) : f ((s.setTarget t target).targets t') = f (s.targets t') :=
  setTarget_forall (P := fun t' x => f x = f (s.targets t')) hf (fun _ => rfl) t'

/-- No request of the call is queued or being worked on. -/
def Unsent (s : State τ) (c : Nat) : Prop :=
  (∀ t, ∀ req ∈ (s.targets t).queue, req.source.call? ≠ some c) ∧
    ∀ t source, (s.targets t).writer.source = some source → source.call? ≠ some c

omit [DecidableEq τ] in
/-- The call of a queued request waits for its edit there. -/
theorem Linked.queued_of_mem (h : Linked s) {req : Request τ} (hreq : req ∈ (s.targets t).queue)
    (hc : req.source.call? = some c) :
    ∃ p call, p.targetId = t ∧ s.calls c = some call ∧ call.phase = .queued p := by
  cases hsource : req.source with
  | direct => rw [hsource] at hc; cases hc
  | commit c' p key =>
    obtain rfl : c' = c := by rw [hsource] at hc; exact Option.some.inj hc
    obtain ⟨ht, call, hcall, hphase, -⟩ := h.queue t req hreq c' p key hsource
    exact ⟨p, call, ht, hcall, hphase⟩

omit [DecidableEq τ] in
/-- The call of the request a writer works on has its edit applied there. -/
theorem Linked.edited_of_source (h : Linked s) {source : Source τ}
    (hw : (s.targets t).writer.source = some source) (hc : source.call? = some c) :
    ∃ p call, p.targetId = t ∧ s.calls c = some call ∧ call.phase = .edited p := by
  cases source with
  | direct => cases hc
  | commit c' p key =>
    obtain rfl : c' = c := Option.some.inj hc
    obtain ⟨ht, call, hcall, hphase, -⟩ := h.writer t c' p key hw
    exact ⟨p, call, ht, hcall, hphase⟩

omit [DecidableEq τ] in
theorem Linked.unsent (h : Linked s) (hcall : s.calls c = some call)
    (hqueued : ∀ p, call.phase ≠ .queued p) (hedited : ∀ p, call.phase ≠ .edited p) : Unsent s c := by
  constructor
  · intro t req hreq hc
    obtain ⟨p, call', -, hc', hphase⟩ := h.queued_of_mem hreq hc
    obtain rfl : call = call' := Option.some.inj (hcall.symm.trans hc')
    exact hqueued p hphase
  · intro t source hw hc
    obtain ⟨p, call', -, hc', hphase⟩ := h.edited_of_source hw hc
    obtain rfl : call = call' := Option.some.inj (hcall.symm.trans hc')
    exact hedited p hphase

omit [DecidableEq τ] in
/-- A call with nothing sent may move on by itself. -/
theorem Linked.setCall (h : Linked s) (hunsent : Unsent s c) (call' : Call τ)
    (hproposal : ∀ p, call'.phase.proposal = some p → s.proposals call'.proposalId = some p) :
    Linked (s.setCall c call') := by
  refine ⟨h.ids, ?_, ?_, h.nodup, ?_, h.snapshot, h.current⟩
  · intro c' call'' p hc' hp
    rcases setCall_cases hc' with ⟨rfl, rfl⟩ | ⟨-, hold⟩
    · exact hproposal p hp
    · exact h.proposal c' call'' p hold hp
  · intro t req hreq c' p key hsource
    obtain ⟨ht, call'', hc', hphase, hkey⟩ := h.queue t req hreq c' p key hsource
    have hne : c' ≠ c := by
      intro heq
      exact hunsent.1 t req hreq (by rw [hsource, heq]; rfl)
    exact ⟨ht, call'', by rw [setCall_ne hne]; exact hc', hphase, hkey⟩
  · intro t c' p key hsource
    obtain ⟨ht, call'', hc', hphase, hkey⟩ := h.writer t c' p key hsource
    have hne : c' ≠ c := by
      intro heq
      exact hunsent.2 t _ hsource (by rw [heq]; rfl)
    exact ⟨ht, call'', by rw [setCall_ne hne]; exact hc', hphase, hkey⟩

/-- A target whose queue, writer and projects agree with the calls may take the
place of another. -/
theorem Linked.setTarget (h : Linked s) (t : τ) (target : Target τ)
    (hqueue : ∀ req ∈ target.queue, ∀ c p key, req.source = .commit c p key → p.targetId = t ∧
      ∃ call, s.calls c = some call ∧ call.phase = .queued p ∧ call.key = key)
    (hnodup : (target.queue.filterMap (fun req => req.source.call?)).Nodup)
    (hwriter : ∀ c p key, target.writer.source = some (.commit c p key) → p.targetId = t ∧
      ∃ call, s.calls c = some call ∧ call.phase = .edited p ∧ call.key = key)
    (hsnapshot : target.snapshot.opSeq ≤ target.live.opSeq)
    (hcurrent : (∀ source answer, target.writer ≠ .applied source answer) → target.snapshot = target.live) :
    Linked (s.setTarget t target) := by
  have hall := setTarget_forall (P := fun t x =>
    (∀ req ∈ x.queue, ∀ c p key, req.source = .commit c p key → p.targetId = t ∧
      ∃ call, s.calls c = some call ∧ call.phase = .queued p ∧ call.key = key) ∧
    (x.queue.filterMap (fun req => req.source.call?)).Nodup ∧
    (∀ c p key, x.writer.source = some (.commit c p key) → p.targetId = t ∧
      ∃ call, s.calls c = some call ∧ call.phase = .edited p ∧ call.key = key) ∧
    x.snapshot.opSeq ≤ x.live.opSeq ∧
    ((∀ source answer, x.writer ≠ .applied source answer) → x.snapshot = x.live))
    ⟨hqueue, hnodup, hwriter, hsnapshot, hcurrent⟩
    (fun t => ⟨h.queue t, h.nodup t, h.writer t, h.snapshot t, h.current t⟩)
  exact ⟨h.ids, h.proposal, fun t' => (hall t').1, fun t' => (hall t').2.1, fun t' => (hall t').2.2.1,
    fun t' => (hall t').2.2.2.1, fun t' => (hall t').2.2.2.2⟩

omit [DecidableEq τ] in
/-- A call that has not been made has nothing sent. -/
theorem Linked.unsent_of_none (h : Linked s) (hnew : s.calls c = none) : Unsent s c := by
  constructor
  · intro t req hreq hc
    obtain ⟨p, call', -, hc', -⟩ := h.queued_of_mem hreq hc
    rw [hnew] at hc'
    cases hc'
  · intro t source hw hc
    obtain ⟨p, call', -, hc', -⟩ := h.edited_of_source hw hc
    rw [hnew] at hc'
    cases hc'

omit [DecidableEq τ] in
/-- The requests left after the first one are of other calls. -/
theorem Linked.rest_ne (h : Linked s) {key : String} {op : Op}
    {rest : List (Request τ)} (hqueue : (s.targets t).queue = { source := .commit c p key, op := op } :: rest) :
    ∀ req ∈ rest, req.source.call? ≠ some c := by
  intro req hreq hc
  have hnodup := h.nodup t
  rw [hqueue] at hnodup
  have hnot : c ∉ rest.filterMap (fun req => req.source.call?) :=
    (List.nodup_cons.mp (by simpa [List.filterMap_cons, Source.call?] using hnodup)).1
  exact hnot (List.mem_filterMap.mpr ⟨req, hreq, hc⟩)

theorem applyTo_bump_opSeq (op : Op) {p : Project} (h : p.opSeq + 1 < 2 ^ 64) :
    (op.applyTo p.bump).opSeq = p.opSeq + 1 := by
  rw [(op.applyTo_frame p.bump).1, Project.bump, Project.withSeq_opSeq, Nat.mod_eq_of_lt h]

/-- The counter of a target does not overflow when its writer applies. -/
def Counts (s : State τ) : Action τ → Prop
  | .writerApply t _ => (s.targets t).live.opSeq + 1 < 2 ^ 64
  | _ => True

/-- The target after its writer has taken a request of which nothing is linked
yet. -/
theorem Linked.afterApply (h : Linked s) {req : Request τ} {rest : List (Request τ)}
    (hqueue : (s.targets t).queue = req :: rest) (hcount : (s.targets t).live.opSeq + 1 < 2 ^ 64)
    (answer : Except String Op) :
    Linked (s.setTarget t { s.targets t with
      live := req.op.applyTo (s.targets t).live.bump
      queue := rest
      writer := .applied .direct answer }) := by
  have hseq := applyTo_bump_opSeq req.op hcount
  have hsnap := h.snapshot t
  refine h.setTarget t _ ?_ ?_ ?_ ?_ ?_
  · exact fun r hr => h.queue t r (by rw [hqueue]; exact List.mem_cons_of_mem req hr)
  · have hnodup := h.nodup t
    rw [hqueue] at hnodup
    exact hnodup.sublist ((List.sublist_cons_self req rest).filterMap _)
  · intro c p key hw
    cases hw
  · show (s.targets t).snapshot.opSeq ≤ (req.op.applyTo (s.targets t).live.bump).opSeq
    omega
  · exact fun hw => absurd rfl (hw .direct answer)

/-- Lookup answers with an error or a cached result, or finds the proposal. -/
theorem lookupPhase_cases (s : State τ) (call : Call τ) :
    (∃ code message details retryable,
      s.lookupPhase call = .responded (.error code message details retryable)) ∨
    ∃ p, s.proposals call.proposalId = some p ∧
      ((∃ cached, s.editResults.lookup (p.targetId, call.key) = some cached ∧
        s.lookupPhase call = .responded cached) ∨ s.lookupPhase call = .resolved p) := by
  unfold State.lookupPhase
  split
  · exact Or.inl ⟨_, _, _, _, rfl⟩
  · split
    · exact Or.inl ⟨_, _, _, _, rfl⟩
    · next p hp =>
      split
      · exact Or.inl ⟨_, _, _, _, rfl⟩
      · split
        · next cached hcached => exact Or.inr ⟨p, hp, Or.inl ⟨cached, hcached, rfl⟩⟩
        · exact Or.inr ⟨p, hp, Or.inr rfl⟩

/-- Lookup lets no call pass its check. -/
theorem lookupPhase_window (s : State τ) (call : Call τ) : (s.lookupPhase call).window = none := by
  rcases lookupPhase_cases s call with ⟨_, _, _, _, h⟩ | ⟨p, -, ⟨_, -, h⟩ | h⟩ <;> rw [h] <;> rfl

/-- Lookup finds only proposals that were issued. -/
theorem lookupPhase_proposal
    (h : (s.lookupPhase call).proposal = some p) : s.proposals call.proposalId = some p := by
  rcases lookupPhase_cases s call with ⟨_, _, _, _, hr⟩ | ⟨q, hq, ⟨_, -, hr⟩ | hr⟩ <;> rw [hr] at h
  · cases h
  · cases h
  · obtain rfl : q = p := Option.some.inj h
    exact hq

omit [DecidableEq τ] in
theorem checkPhase_cases (s : State τ) (call : Call τ) (p : ChangeProposal τ) :
    (∃ r, s.checkPhase call p = .responded (revisionConflict p.expectedRevision r)) ∨
      (s.checkPhase call p = .granted p ∧ call.expectedRevision = p.expectedRevision ∧
        (s.targets p.targetId).snapshot.opSeq = p.expectedRevision) := by
  unfold State.checkPhase
  split
  · exact Or.inl ⟨_, rfl⟩
  · next h =>
    obtain ⟨hrev, hcur⟩ : call.expectedRevision = p.expectedRevision ∧
        s.currentRevision p.targetId = some call.expectedRevision := by
      simpa using h
    refine Or.inr ⟨rfl, hrev, ?_⟩
    unfold State.currentRevision at hcur
    split at hcur
    · rw [← hrev]
      exact Option.some.inj hcur
    · cases hcur

omit [DecidableEq τ] in
theorem Linked.of_eq {s' : State τ} (h : Linked s) (htargets : s'.targets = s.targets)
    (hproposals : s'.proposals = s.proposals) (hcalls : s'.calls = s.calls) : Linked s' := by
  obtain ⟨h1, h2, h3, h4, h5, h6, h7⟩ := h
  refine ⟨?_, ?_, ?_, ?_, ?_, ?_, ?_⟩
  · rw [hproposals]; exact h1
  · rw [hproposals, hcalls]; exact h2
  · rw [htargets, hcalls]; exact h3
  · rw [htargets]; exact h4
  · rw [htargets, hcalls]; exact h5
  · rw [htargets]; exact h6
  · rw [htargets]; exact h7

/-- A call that waits for its edit waits at one target only. -/
theorem Linked.unsent_of_queued (h : Linked s) {key : String} {op : Op}
    {rest : List (Request τ)}
    (hqueue : (s.targets t).queue = { source := .commit c p key, op := op } :: rest)
    (hrest : target.queue = rest) (hwriter : ∀ source, target.writer.source = some source → source = .direct) :
    Unsent (s.setTarget t target) c := by
  obtain ⟨ht, call, hcall, hphase, -⟩ := h.queue t _ (by rw [hqueue]; exact List.mem_cons_self) c p key rfl
  constructor
  · intro t' req hreq hc
    by_cases heq : t' = t
    · subst heq
      rw [setTarget_self, hrest] at hreq
      exact h.rest_ne hqueue req hreq hc
    · rw [setTarget_ne heq] at hreq
      obtain ⟨p', call', ht', hc', hphase'⟩ := h.queued_of_mem hreq hc
      obtain rfl : call = call' := Option.some.inj (hcall.symm.trans hc')
      obtain rfl : p = p' := CallPhase.queued.inj (hphase.symm.trans hphase')
      exact heq (ht'.symm.trans ht)
  · intro t' source hw hc
    by_cases heq : t' = t
    · subst heq
      rw [setTarget_self] at hw
      rw [hwriter source hw] at hc
      cases hc
    · rw [setTarget_ne heq] at hw
      obtain ⟨p', call', -, hc', hphase'⟩ := h.edited_of_source hw hc
      obtain rfl : call = call' := Option.some.inj (hcall.symm.trans hc')
      rw [hphase] at hphase'
      cases hphase'

/-- A call whose edit is applied is being answered by one target only. -/
theorem Linked.unsent_of_edited (h : Linked s) {key : String}
    (hwriter : (s.targets t).writer.source = some (.commit c p key)) :
    Unsent (s.setTarget t { s.targets t with writer := .idle }) c := by
  obtain ⟨ht, call, hcall, hphase, -⟩ := h.writer t c p key hwriter
  constructor
  · intro t' req hreq hc
    rw [setTarget_keeps Target.queue (by rfl) t'] at hreq
    obtain ⟨p', call', -, hc', hphase'⟩ := h.queued_of_mem hreq hc
    obtain rfl : call = call' := Option.some.inj (hcall.symm.trans hc')
    rw [hphase] at hphase'
    cases hphase'
  · intro t' source hw hc
    by_cases heq : t' = t
    · subst heq
      rw [setTarget_self] at hw
      cases hw
    · rw [setTarget_ne heq] at hw
      obtain ⟨p', call', ht', hc', hphase'⟩ := h.edited_of_source hw hc
      obtain rfl : call = call' := Option.some.inj (hcall.symm.trans hc')
      obtain rfl : p = p' := CallPhase.edited.inj (hphase.symm.trans hphase')
      exact heq (ht'.symm.trans ht)

theorem linked_step {s' : State τ} {act : Action τ} (h : Linked s) (hcount : Counts s act)
    (hstep : Step s act s') : Linked s' := by
  cases hstep with
  | tick n => exact ⟨h.ids, h.proposal, h.queue, h.nodup, h.writer, h.snapshot, h.current⟩
  | @propose id _ _ _ _ _ q hfresh hid =>
    refine ⟨?_, ?_, h.queue, h.nodup, h.writer, h.snapshot, h.current⟩
    · intro id' p hp
      by_cases heq : id' = id
      · subst heq
        have : q = p := by simpa using hp
        rw [← this, hid]
      · exact h.ids id' p (by simpa [Function.update_of_ne heq] using hp)
    · intro c call p hc hp
      have hold := h.proposal c call p hc hp
      have hne : call.proposalId ≠ id := by
        intro heq
        rw [heq, hfresh] at hold
        cases hold
      show Function.update s.proposals id (some q) call.proposalId = some p
      rw [Function.update_of_ne hne]
      exact hold
  | closeTarget t =>
    exact h.setTarget t _ (h.queue t) (h.nodup t) (h.writer t) (h.snapshot t) (h.current t)
  | directEdit t op =>
    refine h.setTarget t _ ?_ ?_ (h.writer t) (h.snapshot t) (h.current t)
    · intro req hreq c p key hsource
      rcases List.mem_append.mp hreq with hreq | hreq
      · exact h.queue t req hreq c p key hsource
      · rw [List.mem_singleton.mp hreq] at hsource
        cases hsource
    · simpa [Source.call?] using h.nodup t
  | call hnew => exact h.setCall (h.unsent_of_none hnew) _ (fun p hp => by cases hp)
  | @lookup c call hcall hphase =>
    exact h.setCall (h.unsent hcall (by simp [hphase]) (by simp [hphase])) _
      fun p hp => lookupPhase_proposal hp
  | @check c call p hcall hphase =>
    refine h.setCall (h.unsent hcall (by simp [hphase]) (by simp [hphase])) _ fun q hq => ?_
    rcases checkPhase_cases s call p with ⟨r, hr⟩ | ⟨hg, -, -⟩
    · simp [hr, CallPhase.proposal] at hq
    · obtain rfl : p = q := by simpa [hg, CallPhase.proposal] using hq
      exact h.proposal c call p hcall (by simp [hphase, CallPhase.proposal])
  | @send c call p hcall hphase =>
    have hprop := h.proposal c call p hcall (by simp [hphase, CallPhase.proposal])
    have hunsent := h.unsent hcall (by simp [hphase]) (by simp [hphase])
    have hcalls : Linked (s.setCall c { call with phase := .queued p }) := by
      refine h.setCall hunsent _ fun q hq => ?_
      obtain rfl : p = q := Option.some.inj hq
      exact hprop
    -- The new request is of this call, which waits for it now.
    refine hcalls.setTarget _ _ ?_ ?_ (hcalls.writer _) (h.snapshot _) (h.current _)
    · intro req hreq c' p' key hsource
      rcases List.mem_append.mp hreq with hreq | hreq
      · exact hcalls.queue _ req hreq c' p' key hsource
      · rw [List.mem_singleton.mp hreq] at hsource
        obtain ⟨rfl, rfl, rfl⟩ := Source.commit.inj hsource
        exact ⟨rfl, _, setCall_self s c _, rfl, rfl⟩
    · rw [List.filterMap_append]
      refine List.nodup_append.mpr ⟨h.nodup _, by simp [Source.call?], ?_⟩
      intro x hx y hy hxy
      obtain ⟨req, hreq, hrc⟩ := List.mem_filterMap.mp hx
      have hyc : y = c := by simpa [Source.call?] using hy
      exact hunsent.1 _ req hreq (by rw [hrc, hxy, hyc])
  | @sendClosed c call p hcall hphase =>
    exact h.setCall (h.unsent hcall (by simp [hphase]) (by simp [hphase])) _ fun q hq => by cases hq
  | applyDirect hidle hqueue => exact h.afterApply hqueue hcount _
  | @applyCommit t journaled c p key op rest call hidle hqueue hcall =>
    obtain ⟨ht, call', hcall', hphase, hkey⟩ := h.queue t _ (by rw [hqueue]; exact List.mem_cons_self)
      c p key rfl
    obtain rfl : call = call' := Option.some.inj (hcall.symm.trans hcall')
    have hprop := h.proposal c call p hcall (by simp [hphase, CallPhase.proposal])
    -- Take the request off the queue, move the call on, then show whose it was.
    let answer : Except String Op :=
      if journaled then .ok (op.applied (s.targets t).live.bump) else .error "append op to oplog"
    have htaken := h.afterApply hqueue hcount answer
    have hmoved := htaken.setCall (h.unsent_of_queued hqueue rfl fun source hs => (Option.some.inj hs).symm)
      { call with phase := .edited p } fun q hq => by
        obtain rfl : p = q := Option.some.inj hq
        exact hprop
    have hqueue' := hmoved.queue t
    have hnodup' := hmoved.nodup t
    have hsnapshot' := hmoved.snapshot t
    simp only [State.setCall, setTarget_self] at hqueue' hnodup' hsnapshot'
    have hfinal := hmoved.setTarget t
      ((s.targets t).afterApply { source := .commit c p key, op := op } rest journaled)
      hqueue' hnodup' ?_ hsnapshot' ?_
    · refine hfinal.of_eq ?_ rfl rfl
      simp [State.setTarget, State.setCall]
    · intro c' p' key' hs
      obtain ⟨rfl, rfl, rfl⟩ := Source.commit.inj (Option.some.inj hs)
      exact ⟨ht, _, setCall_self _ c _, rfl, hkey⟩
    · exact fun hw => absurd rfl (hw _ _)
  | @writerPublish t source answer hwriter =>
    refine h.setTarget t _ (h.queue t) (h.nodup t) ?_ (le_refl _) (fun _ => rfl)
    intro c p key hs
    exact h.writer t c p key (by rw [hwriter]; exact hs)
  | @answerDirect t answer hwriter =>
    refine h.setTarget t _ (h.queue t) (h.nodup t) (fun c p key hs => by cases hs) (h.snapshot t) ?_
    exact fun _ => h.current t (by simp [hwriter])
  | @answerCommit t c p key answer call hwriter hcall =>
    have hsource : (s.targets t).writer.source = some (.commit c p key) := by rw [hwriter]; rfl
    obtain ⟨-, call', hcall', hphase, -⟩ := h.writer t c p key hsource
    obtain rfl : call = call' := Option.some.inj (hcall.symm.trans hcall')
    have hprop := h.proposal c call p hcall (by simp [hphase, CallPhase.proposal])
    have htarget : Linked (s.setTarget t { s.targets t with writer := .idle }) := by
      refine h.setTarget t _ (h.queue t) (h.nodup t) (fun c p key hs => by cases hs) (h.snapshot t) ?_
      exact fun _ => h.current t (by simp [hwriter])
    refine htarget.setCall (h.unsent_of_edited hsource) _ fun q hq => ?_
    obtain rfl : p = q := Option.some.inj hq
    exact hprop
  | @finish c evicted call p op results hcall hphase hresults =>
    have hcalls : Linked (s.setCall c { call with
        phase := .responded (.success p.id p.investigationId call.key op) }) :=
      h.setCall (h.unsent hcall (by simp [hphase]) (by simp [hphase])) _ fun q hq => by cases hq
    exact hcalls.of_eq rfl rfl rfl
  | @finishFailed c evicted call p e hcall hphase =>
    exact h.setCall (h.unsent hcall (by simp [hphase]) (by simp [hphase])) _ fun q hq => by cases hq

omit [DecidableEq τ] in
theorem linked_start (projects : τ → Project) : Linked (start projects) := by
  refine ⟨?_, ?_, ?_, ?_, ?_, ?_, ?_⟩
  · intro id p hp; cases hp
  · intro c call p hc; cases hc
  · intro t req hreq; cases hreq
  · intro t; exact List.nodup_nil
  · intro t c p key hs; cases hs
  · intro t; exact le_refl _
  · intro t _; rfl

end Links

end Windy.Commit
