import Windy.Manager.Writer

/- The writer's three requests when the journal may refuse an append (`apply_one`, `undo_one`,
   `redo_one` and a turn of the `writer_loop`).

   Each handler edits the live project, bumps the counter and pops its stack before it knows that
   the request succeeds, and none of them puts anything back: `journal.append(..)?` returns after
   the edit, and `undo_one` looks for the inverse after it has popped. The loop then publishes the
   project whatever the result. Only the failures that come before the first edit, the empty stacks,
   leave no trace.

   What is proved:
     1. `requestWith_accepting`: with a journal that accepts every record the
        handlers are those of `Writer`.
     2. `requestWith_pending`, `requestWith_nothing`: the ways a request can fail,
        and what each of them leaves behind.
     3. `failed_leaves_no_trace_iff`: a failed request is without trace exactly
        when the journal accepts the pending record and the popped operation
        has an inverse.

   Correspondence:
     `Journal::append` ↔ an `Append`, any function
     `apply_one`, `undo_one`, `redo_one` ↔ `applyOneWith`, `undoOneWith`, `redoOneWith`
     `read_state`, one turn of the loop ↔ `Served.readState`, `Served.turn` -/
namespace Windy

/-- What the journal does with a record: its answer, and the stored state
afterwards (a failed write may leave anything). -/
abbrev Append := Disk → Nat → Op → Except String Unit × Disk

/-- The append that always succeeds. -/
def Append.accepting : Append := fun disk seq op => (.ok (), disk.append seq op)

/-- An operation of a request moves the counter, so it never leaves the project
as it was. -/
theorem Op.applyTo_bump_ne (op : Op) (p : Project) : op.applyTo p.bump ≠ p := by
  intro h
  have hseq : (op.applyTo p.bump).opSeq = p.opSeq := congrArg Project.opSeq h
  rw [(op.applyTo_frame p.bump).1] at hseq
  have hbump : (p.opSeq + 1) % 2 ^ 64 = p.opSeq := hseq
  omega

namespace Writer

/-- The part the three requests share: bump, apply, append. -/
def commitWith (append : Append) (w : Writer) (op : Op) : Except String Op × Writer :=
  let p := op.applyTo w.project.bump
  let applied := op.applied w.project.bump
  let answer := append w.disk p.opSeq applied
  (answer.1.map fun _ => applied, { w with project := p, disk := answer.2 })

/-- `apply_one`. -/
def applyOneWith (append : Append) (w : Writer) (clientId : String) (op : Op) : Except String Op × Writer :=
  match w.commitWith append op with
  | (.error e, w') => (.error e, w')
  | (.ok applied, w') =>
    let stack := (w'.history.lookup clientId).getD { undo := [], redo := [] }
    (.ok applied, { w' with history := w'.history.insert clientId { undo := applied :: stack.undo, redo := [] } })

/-- `undo_one`: `pop` has changed the stack before the inverse is asked for. -/
def undoOneWith (append : Append) (w : Writer) (clientId : String) : Except String Op × Writer :=
  match w.history.lookup clientId with
  | none => (.error "no operations to undo", w)
  | some stack =>
    match stack.undo with
    | [] => (.error "no operations to undo", w)
    | last :: rest =>
      let popped := { w with history := w.history.insert clientId { stack with undo := rest } }
      match last.inverse with
      | none => (.error "operation is not invertible", popped)
      | some inv =>
        match popped.commitWith append inv with
        | (.error e, w') => (.error e, w')
        | (.ok applied, w') =>
          (.ok applied,
            { w' with history := w'.history.insert clientId { undo := rest, redo := last :: stack.redo } })

/-- `redo_one`. -/
def redoOneWith (append : Append) (w : Writer) (clientId : String) : Except String Op × Writer :=
  match w.history.lookup clientId with
  | none => (.error "no operations to redo", w)
  | some stack =>
    match stack.redo with
    | [] => (.error "no operations to redo", w)
    | op :: rest =>
      let popped := { w with history := w.history.insert clientId { stack with redo := rest } }
      match popped.commitWith append op with
      | (.error e, w') => (.error e, w')
      | (.ok applied, w') =>
        (.ok applied,
          { w' with history := w'.history.insert clientId { undo := applied :: stack.undo, redo := rest } })

/-- What the request answers, and the writer after it. -/
def requestWith (append : Append) (w : Writer) : WriteRequest → Except String Op × Writer
  | .apply clientId op => w.applyOneWith append clientId op
  | .undoLast clientId => w.undoOneWith append clientId
  | .redoLast clientId => w.redoOneWith append clientId

/-! ## The failures -/

section Failures
variable (append : Append) (w : Writer)

theorem commitWith_accepting (op : Op) :
    w.commitWith Append.accepting op = (.ok (op.applied w.project.bump), w.commit op) := rfl

/-- With a journal that accepts every record the requests are those of the
undisturbed writer. -/
theorem requestWith_accepting (req : WriteRequest) : w.requestWith Append.accepting req = w.request req := by
  cases req with
  | apply clientId op => rfl
  | undoLast clientId =>
    simp only [requestWith, undoOneWith, request, undoOne]
    cases w.history.lookup clientId with
    | none => rfl
    | some stack =>
      cases hu : stack.undo with
      | nil => simp [hu]
      | cons last rest =>
        cases hi : last.inverse with
        | none => simp [hu, hi]
        | some inv => simp [hu, hi, commitWith_accepting, commit, Finmap.insert_insert]
  | redoLast clientId =>
    simp only [requestWith, redoOneWith, request, redoOne]
    cases w.history.lookup clientId with
    | none => rfl
    | some stack =>
      cases hr : stack.redo with
      | nil => simp [hr]
      | cons op rest => simp [hr, commitWith_accepting, commit, Finmap.insert_insert]

/-- The record of the pending operation is accepted. -/
def Accepts (req : WriteRequest) : Prop :=
  ∀ op, w.pending req = some op →
    (append w.disk (op.applyTo w.project.bump).opSeq (op.applied w.project.bump)).1 = .ok ()

/-- The operation an undo is about to pop has an inverse. -/
def Invertible (req : WriteRequest) : Prop :=
  ∀ clientId stack last rest, req = .undoLast clientId → w.history.lookup clientId = some stack →
    stack.undo = last :: rest → last.inverse.isSome

variable {append w} {req : WriteRequest}

/-- A popped stack is not the stack. -/
theorem insert_popped_ne {history : Finmap (fun _ : String => UndoRedoStack)} {clientId : String}
    {stack popped : UndoRedoStack} (h : history.lookup clientId = some stack) (hne : popped ≠ stack) :
    history.insert clientId popped ≠ history := by
  intro heq
  have hlookup := congrArg (Finmap.lookup clientId) heq
  rw [Finmap.lookup_insert, h] at hlookup
  exact hne (Option.some.inj hlookup)

/-- The requests with an operation to commit. -/
theorem pending_cases {op : Op} (hop : w.pending req = some op) :
    (∃ clientId, req = .apply clientId op) ∨
    (∃ clientId stack last rest, req = .undoLast clientId ∧ w.history.lookup clientId = some stack ∧
      stack.undo = last :: rest ∧ last.inverse = some op) ∨
    (∃ clientId stack rest, req = .redoLast clientId ∧ w.history.lookup clientId = some stack ∧
      stack.redo = op :: rest) := by
  cases req with
  | apply clientId op' => exact Or.inl ⟨clientId, congrArg _ (Option.some.inj hop)⟩
  | undoLast clientId =>
    cases h : w.history.lookup clientId with
    | none => simp [pending, h] at hop
    | some stack =>
      cases hu : stack.undo with
      | nil => simp [pending, h, hu] at hop
      | cons last rest => exact Or.inr (Or.inl ⟨clientId, stack, last, rest, rfl, h, hu, by simpa [pending, h, hu] using hop⟩)
  | redoLast clientId =>
    cases h : w.history.lookup clientId with
    | none => simp [pending, h] at hop
    | some stack =>
      cases hr : stack.redo with
      | nil => simp [pending, h, hr] at hop
      | cons op' rest =>
        obtain rfl : op' = op := by simpa [pending, h, hr] using hop
        exact Or.inr (Or.inr ⟨clientId, stack, rest, rfl, h, hr⟩)

/-- What an operation that is about to be committed leaves: an answer when its
record is accepted, an edited project when it is not. -/
theorem requestWith_pending {op : Op} (hop : w.pending req = some op) :
    ((append w.disk (op.applyTo w.project.bump).opSeq (op.applied w.project.bump)).1 = .ok () ∧
      (w.requestWith append req).1 = .ok (op.applied w.project.bump)) ∨
    (∃ e, (append w.disk (op.applyTo w.project.bump).opSeq (op.applied w.project.bump)).1 = .error e ∧
      (w.requestWith append req).1 = .error e ∧
      (w.requestWith append req).2.project = op.applyTo w.project.bump) := by
  cases hans : (append w.disk (op.applyTo w.project.bump).opSeq (op.applied w.project.bump)).1 with
  | ok u =>
    refine Or.inl ⟨rfl, ?_⟩
    rcases pending_cases hop with ⟨clientId, rfl⟩ | ⟨clientId, stack, last, rest, rfl, h, hu, hi⟩ |
      ⟨clientId, stack, rest, rfl, h, hr⟩
    · simp [requestWith, applyOneWith, commitWith, hans, Except.map]
    · simp [requestWith, undoOneWith, h, hu, hi, commitWith, hans, Except.map]
    · simp [requestWith, redoOneWith, h, hr, commitWith, hans, Except.map]
  | error e =>
    refine Or.inr ⟨e, rfl, ?_⟩
    rcases pending_cases hop with ⟨clientId, rfl⟩ | ⟨clientId, stack, last, rest, rfl, h, hu, hi⟩ |
      ⟨clientId, stack, rest, rfl, h, hr⟩
    · simp [requestWith, applyOneWith, commitWith, hans, Except.map]
    · simp [requestWith, undoOneWith, h, hu, hi, commitWith, hans, Except.map]
    · simp [requestWith, redoOneWith, h, hr, commitWith, hans, Except.map]

/-- An operation that is about to be committed is applied whatever the journal answers. -/
theorem requestWith_project {op : Op} (hop : w.pending req = some op) :
    (w.requestWith append req).2.project = op.applyTo w.project.bump := by
  rcases @requestWith_pending append w req op hop with ⟨hok, -⟩ | ⟨e, -, -, hproject⟩
  · rcases pending_cases hop with ⟨clientId, rfl⟩ | ⟨clientId, stack, last, rest, rfl, h, hu, hi⟩ |
      ⟨clientId, stack, rest, rfl, h, hr⟩
    · simp [requestWith, applyOneWith, commitWith, hok, Except.map]
    · simp [requestWith, undoOneWith, h, hu, hi, commitWith, hok, Except.map]
    · simp [requestWith, redoOneWith, h, hr, commitWith, hok, Except.map]
  · exact hproject

/-- With nothing to commit the request fails and the project stays; the stacks
stay unless an operation without inverse was popped. -/
theorem requestWith_nothing (hnone : w.pending req = none) :
    (∃ e, (w.requestWith append req).1 = .error e) ∧ (w.requestWith append req).2.project = w.project ∧
      ((w.requestWith append req).2.history = w.history ↔ w.Invertible req) := by
  cases req with
  | apply clientId op => cases hnone
  | undoLast clientId =>
    cases h : w.history.lookup clientId with
    | none =>
      have hreq : w.requestWith append (.undoLast clientId) = (.error "no operations to undo", w) := by
        simp only [requestWith, undoOneWith, h]
      rw [hreq]
      refine ⟨⟨_, rfl⟩, rfl, iff_of_true rfl ?_⟩
      rintro clientId' stack last rest heq hstack
      obtain rfl := WriteRequest.undoLast.inj heq
      rw [h] at hstack
      cases hstack
    | some stack =>
      cases hu : stack.undo with
      | nil =>
        have hreq : w.requestWith append (.undoLast clientId) = (.error "no operations to undo", w) := by
          simp only [requestWith, undoOneWith, h, hu]
        rw [hreq]
        refine ⟨⟨_, rfl⟩, rfl, iff_of_true rfl ?_⟩
        rintro clientId' stack' last rest heq hstack hlast
        obtain rfl := WriteRequest.undoLast.inj heq
        rw [h] at hstack
        rw [← Option.some.inj hstack, hu] at hlast
        cases hlast
      | cons last rest =>
        have hi : last.inverse = none := by simpa [pending, h, hu] using hnone
        have hreq : w.requestWith append (.undoLast clientId) = (.error "operation is not invertible",
            { w with history := w.history.insert clientId { stack with undo := rest } }) := by
          simp only [requestWith, undoOneWith, h, hu, hi]
        rw [hreq]
        refine ⟨⟨_, rfl⟩, rfl, iff_of_false ?_ ?_⟩
        · apply insert_popped_ne h
          intro heq
          have hlen := congrArg (fun s => s.undo.length) heq
          simp [hu] at hlen
        · intro hinv
          have := hinv clientId stack last rest rfl h hu
          rw [hi] at this
          cases this
  | redoLast clientId =>
    have hinv : w.Invertible (.redoLast clientId) := by
      rintro clientId' stack last rest heq
      cases heq
    cases h : w.history.lookup clientId with
    | none =>
      have hreq : w.requestWith append (.redoLast clientId) = (.error "no operations to redo", w) := by
        simp only [requestWith, redoOneWith, h]
      rw [hreq]
      exact ⟨⟨_, rfl⟩, rfl, iff_of_true rfl hinv⟩
    | some stack =>
      cases hr : stack.redo with
      | nil =>
        have hreq : w.requestWith append (.redoLast clientId) = (.error "no operations to redo", w) := by
          simp only [requestWith, redoOneWith, h, hr]
        rw [hreq]
        exact ⟨⟨_, rfl⟩, rfl, iff_of_true rfl hinv⟩
      | cons op rest => simp [pending, h, hr] at hnone

/-- An undo that finds an inverse is not about to pop anything else. -/
theorem invertible_of_pending {op : Op} (hop : w.pending req = some op) :
    w.Invertible req := by
  rintro clientId stack last rest rfl hstack hlast
  have hi : last.inverse = some op := by simpa [pending, hstack, hlast] using hop
  rw [hi]
  rfl

end Failures

end Writer

/-! ## What the readers see -/

/-- The writer with the project it has published: the one its requests see. -/
structure Served where
  writer : Writer
  readState : Project
  current : readState = writer.project

namespace Served

/-- One turn of the writer loop: the project is stored for the readers whatever
the request answered. `checkpoint` tells whether a save follows. -/
def turn (append : Append) (s : Served) (req : WriteRequest) (checkpoint : Bool) : Except String Op × Served :=
  let r := s.writer.requestWith append req
  let w := if checkpoint then { r.2 with disk := r.2.project.save r.2.disk } else r.2
  (r.1, { writer := w, readState := r.2.project, current := by unfold w; split <;> rfl })

theorem turn_history (append : Append) (s : Served) (req : WriteRequest) (checkpoint : Bool) :
    (s.turn append req checkpoint).2.writer.history = (s.writer.requestWith append req).2.history := by
  simp only [turn]
  split <;> rfl

/-- If the request fails, the readers and every client's stacks see nothing of
it. -/
def NoTrace (append : Append) (s : Served) (req : WriteRequest) (checkpoint : Bool) : Prop :=
  ∀ e, (s.turn append req checkpoint).1 = .error e →
    (s.turn append req checkpoint).2.readState = s.readState ∧
    (s.turn append req checkpoint).2.writer.history = s.writer.history

/-- A failed request leaves no trace exactly when the record it is about to
append is accepted and the operation it is about to pop has an inverse. -/
theorem failed_leaves_no_trace_iff (append : Append) (s : Served) (req : WriteRequest) (checkpoint : Bool) :
    s.NoTrace append req checkpoint ↔ s.writer.Accepts append req ∧ s.writer.Invertible req := by
  unfold NoTrace
  rw [turn_history, s.current]
  show (∀ e, (s.writer.requestWith append req).1 = .error e →
      (s.writer.requestWith append req).2.project = s.writer.project ∧ _) ↔ _
  cases hp : s.writer.pending req with
  | none =>
    obtain ⟨⟨e, he⟩, hproject, hhistory⟩ := Writer.requestWith_nothing hp
    have haccepts : s.writer.Accepts append req := by
      intro op hop
      rw [hp] at hop
      cases hop
    constructor
    · intro h
      exact ⟨haccepts, hhistory.mp (h e he).2⟩
    · intro h e' _
      exact ⟨hproject, hhistory.mpr h.2⟩
  | some op =>
    rcases Writer.requestWith_pending hp with ⟨hok, hres⟩ | ⟨e, herr, hres, hproject⟩
    · refine iff_of_true ?_ ⟨?_, Writer.invertible_of_pending hp⟩
      · intro e he
        rw [hres] at he
        cases he
      · intro op' hop'
        rw [hp] at hop'
        rw [← Option.some.inj hop']
        exact hok
    · -- The project has been edited and published.
      refine iff_of_false ?_ ?_
      · intro h
        have hsame := (h e hres).1
        rw [hproject] at hsame
        exact op.applyTo_bump_ne _ hsame
      · intro h
        have hok := h.1 op hp
        rw [herr] at hok
        cases hok

/-- The writer of `oneFunction`, before any request. -/
def fresh : Served :=
  { writer := Writer.start Writer.oneFunction { idb := none, journal := [] }
    readState := (Writer.start Writer.oneFunction { idb := none, journal := [] }).project
    current := rfl }

/-- A journal on a full disk. -/
def fullDisk : Append := fun disk _ _ => (.error "No space left on device", disk)

/-- A comment whose record cannot be stored is refused and shown to the readers,
and an empty batch can be popped only once. -/
theorem refused_comment_is_published :
    (fresh.turn fullDisk (.apply "ui" (.setComment 4096 .address "entry" none)) false).1.toOption.isNone = true ∧
    (fresh.turn fullDisk (.apply "ui" (.setComment 4096 .address "entry" none)) false).2.readState.comments.get
      4096 .address = some "entry" ∧
    fresh.readState.comments.get 4096 .address = none ∧
    ¬ fresh.NoTrace fullDisk (.apply "ui" (.setComment 4096 .address "entry" none)) false ∧
    ¬ (fresh.turn Append.accepting (.apply "ui" (.batch [])) false).2.NoTrace Append.accepting
        (.undoLast "ui") false := by
  refine ⟨by decide, by decide, by decide, ?_, ?_⟩
  · intro h
    have hsame := congrArg Project.opSeq (h _ rfl).1
    exact absurd hsame (by decide)
  · intro h
    have hsame := congrArg (fun history => (history.lookup "ui").map fun stack => stack.undo.length) (h _ rfl).2
    exact absurd hsame (by decide)

end Served

end Windy
