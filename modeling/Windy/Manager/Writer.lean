import Windy.Project.Redo
import Windy.Project.Replay

/- The writer of one project (`writer_loop`, `apply_one`, `undo_one`, `redo_one` in
   `project_manager.rs`) and crash recovery.

   Every request bumps the counter, applies an operation to the live project and appends the applied
   operation to the journal under the new counter. Reopening replays that record on the recovered
   project, but sets the counter *after* the operation. What an operation stamps with the counter
   (an alias event, a memory card) is therefore stamped one higher live than on replay, and the
   recovered project is the live one as long as nothing was stamped since the last checkpoint
   (`recover_eq_live`).

   A redo after an undo leaves the annotations the operation had left the first time
   (`redo_reproduces`), also where the undo did not restore what was there before.

   Correspondence:
     `apply_one`, `undo_one`, `redo_one` ↔ the same
     one turn of the `writer_loop` ↔ `Writer.handle`
   Every journal append succeeds here. A checkpoint may follow any request. -/
namespace Windy

/-- The operations of one client that can be undone or redone, latest first. -/
structure UndoRedoStack where
  undo : List Op
  redo : List Op

/-- A request to the writer. -/
inductive WriteRequest where
  | apply (clientId : String) (op : Op)
  | undoLast (clientId : String)
  | redoLast (clientId : String)

/-- The writer's own state and what it has stored. -/
structure Writer where
  project : Project
  disk : Disk
  history : Finmap (fun _ : String => UndoRedoStack)

/-- `op_seq += 1`, as a release build computes it. -/
def Project.bump (p : Project) : Project := p.withSeq ((p.opSeq + 1) % 2 ^ 64)

namespace Writer

/-- The writer of a project that was just opened. -/
def start (a : ImageAnalysis) (d : Disk) : Writer :=
  { project := openProject a d, disk := d, history := ∅ }

/-- The part the three requests share: bump, apply, append. -/
def commit (w : Writer) (op : Op) : Writer :=
  let p := op.applyTo w.project.bump
  { w with project := p, disk := w.disk.append p.opSeq (op.applied w.project.bump) }

/-- `apply_one`. -/
def applyOne (w : Writer) (clientId : String) (op : Op) : Except String Op × Writer :=
  let applied := op.applied w.project.bump
  let stack := (w.history.lookup clientId).getD { undo := [], redo := [] }
  (.ok applied,
    { w.commit op with history := w.history.insert clientId { undo := applied :: stack.undo, redo := [] } })

/-- `undo_one`: the popped operation is gone when it has no inverse. -/
def undoOne (w : Writer) (clientId : String) : Except String Op × Writer :=
  match w.history.lookup clientId with
  | none => (.error "no operations to undo", w)
  | some stack =>
    match stack.undo with
    | [] => (.error "no operations to undo", w)
    | last :: rest =>
      match last.inverse with
      | none => (.error "operation is not invertible",
          { w with history := w.history.insert clientId { stack with undo := rest } })
      | some inv => (.ok (inv.applied w.project.bump),
          { w.commit inv with
            history := w.history.insert clientId { undo := rest, redo := last :: stack.redo } })

/-- `redo_one`. -/
def redoOne (w : Writer) (clientId : String) : Except String Op × Writer :=
  match w.history.lookup clientId with
  | none => (.error "no operations to redo", w)
  | some stack =>
    match stack.redo with
    | [] => (.error "no operations to redo", w)
    | op :: rest =>
      let applied := op.applied w.project.bump
      (.ok applied,
        { w.commit op with
          history := w.history.insert clientId { undo := applied :: stack.undo, redo := rest } })

/-- What the request answers, and the writer after it. -/
def request (w : Writer) : WriteRequest → Except String Op × Writer
  | .apply clientId op => w.applyOne clientId op
  | .undoLast clientId => w.undoOne clientId
  | .redoLast clientId => w.redoOne clientId

/-- One turn of the writer loop; `checkpoint` tells whether a save follows. -/
def handle (w : Writer) (turn : WriteRequest × Bool) : Writer :=
  let w' := (w.request turn.1).2
  if turn.2 then { w' with disk := w'.project.save w'.disk } else w'

/-- The writer after a sequence of turns. -/
def run (w : Writer) (turns : List (WriteRequest × Bool)) : Writer := turns.foldl handle w

/-- The operation a request is about to apply, if any. -/
def pending (w : Writer) : WriteRequest → Option Op
  | .apply _ op => some op
  | .undoLast clientId =>
    (w.history.lookup clientId).bind fun stack => stack.undo.head?.bind Op.inverse
  | .redoLast clientId => (w.history.lookup clientId).bind fun stack => stack.redo.head?

/-- A request commits the pending operation, or leaves the project and the
stored state alone. -/
theorem request_cases (w : Writer) (req : WriteRequest) :
    (∃ op, w.pending req = some op ∧ (w.request req).2.project = (w.commit op).project ∧
      (w.request req).2.disk = (w.commit op).disk) ∨
    (w.pending req = none ∧ (w.request req).2.project = w.project ∧ (w.request req).2.disk = w.disk) := by
  cases req with
  | apply clientId op => exact Or.inl ⟨op, rfl, rfl, rfl⟩
  | undoLast clientId =>
    simp only [request, undoOne, pending]
    cases h : w.history.lookup clientId with
    | none => exact Or.inr ⟨rfl, rfl, rfl⟩
    | some stack =>
      cases hu : stack.undo with
      | nil => exact Or.inr ⟨by simp [hu], by simp [hu], by simp [hu]⟩
      | cons last rest =>
        cases hi : last.inverse with
        | none => exact Or.inr ⟨by simp [hu, hi], by simp [hu, hi], by simp [hu, hi]⟩
        | some inv => exact Or.inl ⟨inv, by simp [hu, hi], by simp [hu, hi], by simp [hu, hi]⟩
  | redoLast clientId =>
    simp only [request, redoOne, pending]
    cases h : w.history.lookup clientId with
    | none => exact Or.inr ⟨rfl, rfl, rfl⟩
    | some stack =>
      cases hr : stack.redo with
      | nil => exact Or.inr ⟨by simp [hr], by simp [hr], by simp [hr]⟩
      | cons op rest => exact Or.inl ⟨op, by simp [hr], by simp [hr], by simp [hr]⟩

theorem commit_opSeq (w : Writer) (op : Op) :
    (w.commit op).project.opSeq = (w.project.opSeq + 1) % 2 ^ 64 :=
  (op.applyTo_frame w.project.bump).1

/-! ## Undo and redo -/

/-- The latest operation of a client, undone and redone. -/
def undoRedo (w : Writer) (clientId : String) : Writer := ((w.undoOne clientId).2.redoOne clientId).2

/-- An applied operation that has an inverse is undone and redone as itself. -/
theorem undoRedo_applyOne {w : Writer} {clientId : String} {o inv : Op}
    (hinv : (o.applied w.project.bump).inverse = some inv) :
    ((w.applyOne clientId o).2.undoRedo clientId).project =
      (o.applied w.project.bump).applyTo (inv.applyTo (o.applyTo w.project.bump).bump).bump := by
  simp [undoRedo, applyOne, undoOne, redoOne, commit, hinv]

/-- One that has none is dropped by the undo, and nothing is left to redo. -/
theorem undoRedo_applyOne_of_none {w : Writer} {clientId : String} {o : Op}
    (hinv : (o.applied w.project.bump).inverse = none) :
    ((w.applyOne clientId o).2.undoRedo clientId).project = (w.applyOne clientId o).2.project := by
  simp [undoRedo, applyOne, undoOne, redoOne, commit, hinv]

/-- Redo reproduces the applied state. -/
theorem redo_reproduces (w : Writer) (clientId : String) (o : Op) (hnew : o.uncaptured = true) :
    SameContents ((w.applyOne clientId o).2.undoRedo clientId).project (w.applyOne clientId o).2.project := by
  cases hinv : (o.applied w.project.bump).inverse with
  | none =>
    rw [undoRedo_applyOne_of_none hinv]
    exact (Op.Alike.refl _).toSameContents
  | some inv =>
    -- the counter moves on with each request, and no edit reads it for more than a stamp
    have hundone : Op.Alike (inv.applyTo (o.applyTo w.project.bump).bump).bump (inv.applyTo (o.applyTo w.project.bump)) :=
      (Op.Alike.withSeq _ _).trans ((Op.Alike.withSeq _ _).applyTo inv)
    rw [undoRedo_applyOne hinv]
    exact (hundone.applyTo _).toSameContents.trans (Op.redo_same hnew hinv)

/-- An image with one function, named by the analysis. -/
def oneFunction : ImageAnalysis :=
  { symbols := (∅ : Map Symbol).insert 4096 { name := "FUN_00001000", kind := .function }
    typedGlobals := ∅
    functionSignatures := ∅
    functionFrames := ∅
    functions := {4096}
    entryVa := 4096 }

/-- A batch that names a parameter of a function without a signature and then comments on it:
the undo leaves the signature and an empty comment behind. -/
theorem redo_batch :
    SameContents
      (((start oneFunction { idb := none, journal := [] }).applyOne "ui"
        (.batch [.setParamName 4096 0 "argc" none, .setComment 4096 .address "entry" none])).2.undoRedo "ui").project
      ((start oneFunction { idb := none, journal := [] }).applyOne "ui"
        (.batch [.setParamName 4096 0 "argc" none, .setComment 4096 .address "entry" none])).2.project :=
  redo_reproduces _ _ _ (by decide)

/-! ## Recovery -/

/-- What holds of every writer of the image analyzed as `a`: the journal is at
or below the counter, and the analysis is still there under the edits. -/
structure Ok (a : ImageAnalysis) (w : Writer) : Prop where
  journal : ∀ r ∈ w.disk.journal, r.seq ≤ w.project.opSeq
  project : w.project.Extends a

section Recovery
variable {a : ImageAnalysis} {w : Writer}

theorem ok_start (a : ImageAnalysis) (d : Disk) : (start a d).Ok a :=
  ⟨openProject_seq_le a d, .openProject a d⟩

theorem Ok.commit (h : w.Ok a) (hseq : w.project.opSeq + 1 < 2 ^ 64) (op : Op) : (w.commit op).Ok a := by
  refine ⟨?_, (h.project.withSeq _).applyTo op⟩
  intro r hr
  have hnew : (w.commit op).project.opSeq = w.project.opSeq + 1 := by
    rw [commit_opSeq, Nat.mod_eq_of_lt hseq]
  rw [hnew]
  rcases List.mem_append.mp hr with hold | hlast
  · have := h.journal r hold
    omega
  · rw [List.mem_singleton.mp hlast]
    exact hnew.le

theorem Ok.request (h : w.Ok a) (hseq : w.project.opSeq + 1 < 2 ^ 64) (req : WriteRequest) :
    (w.request req).2.Ok a := by
  rcases request_cases w req with ⟨op, -, hp, hd⟩ | ⟨-, hp, hd⟩
  · have hc := h.commit hseq op
    exact ⟨by rw [hp, hd]; exact hc.journal, by rw [hp]; exact hc.project⟩
  · exact ⟨by rw [hp, hd]; exact h.journal, by rw [hp]; exact h.project⟩

/-- A checkpoint keeps no record: all are at or below the counter. -/
theorem Ok.save_journal (h : w.Ok a) : (w.project.save w.disk).journal = [] := by
  apply List.filter_eq_nil_iff.mpr
  intro r hr
  have := h.journal r hr
  simpa using this

theorem Ok.handle (h : w.Ok a) (hseq : w.project.opSeq + 1 < 2 ^ 64) (turn : WriteRequest × Bool) :
    (w.handle turn).Ok a := by
  have hreq := h.request hseq turn.1
  unfold Writer.handle
  split
  · refine ⟨?_, hreq.project⟩
    show ∀ r ∈ ((w.request turn.1).2.project.save (w.request turn.1).2.disk).journal, _
    rw [hreq.save_journal]
    intro r hr
    cases hr
  · exact hreq

/-- Right after a checkpoint the stored state is the project. -/
theorem recover_save (h : w.Ok a) : openProject a (w.project.save w.disk) = w.project := by
  unfold openProject
  rw [h.save_journal]
  exact h.project.apply_fromProject

/-- An operation that stamps nothing is recovered as it was applied. -/
theorem recover_commit (hrec : openProject a w.disk = w.project)
    (hseq : w.project.opSeq + 1 < 2 ^ 64) {op : Op} (hquiet : op.StampsNothing w.project) :
    openProject a (w.commit op).disk = (w.commit op).project := by
  have hbump : w.project.bump = w.project.withSeq (w.project.opSeq + 1) := by
    rw [Project.bump, Nat.mod_eq_of_lt hseq]
  have hnew : (w.commit op).project.opSeq = w.project.opSeq + 1 := by
    rw [commit_opSeq, Nat.mod_eq_of_lt hseq]
  have hlt : (openProject a w.disk).opSeq < (w.commit op).project.opSeq := by
    rw [hrec, hnew]; omega
  calc openProject a (w.commit op).disk
      = ((op.applied w.project.bump).viaJson.applyTo (openProject a w.disk)).withSeq
          (w.commit op).project.opSeq := openProject_append a w.disk _ hlt
    _ = ((op.applyTo w.project.bump).withSeq w.project.opSeq).withSeq (w.commit op).project.opSeq := by
        rw [hrec, hbump, Op.replay_applied hquiet]
    _ = (w.commit op).project := rfl

end Recovery

/-- Every turn is taken below the largest counter. -/
def Counts (w : Writer) (turns : List (WriteRequest × Bool)) : Prop :=
  ∀ pre turn post, turns = pre ++ turn :: post → (w.run pre).project.opSeq + 1 < 2 ^ 64

/-- Every request since the last checkpoint applies an operation that stamps
nothing. -/
def QuietSinceCheckpoint (w : Writer) (turns : List (WriteRequest × Bool)) : Prop :=
  ∀ pre turn post, turns = pre ++ turn :: post → (∀ t ∈ turn :: post, t.2 = false) →
    ∀ op, (w.run pre).pending turn.1 = some op → op.StampsNothing (w.run pre).project

theorem run_snoc (w : Writer) (turns : List (WriteRequest × Bool)) (turn : WriteRequest × Bool) :
    w.run (turns ++ [turn]) = (w.run turns).handle turn := by
  simp [run]

theorem ok_run (a : ImageAnalysis) (d : Disk) {turns : List (WriteRequest × Bool)}
    (hcount : (start a d).Counts turns) : ((start a d).run turns).Ok a := by
  induction turns using List.reverseRecOn with
  | nil => exact ok_start a d
  | append_singleton turns turn ih =>
    rw [run_snoc]
    refine (ih ?_).handle (hcount turns turn [] rfl) turn
    intro pre t post heq
    exact hcount pre t (post ++ [turn]) (by rw [heq]; simp)

/-- Crash recovery gives the live project, whatever was stored before, as long
as nothing was stamped since the last checkpoint. -/
theorem recover_eq_live (a : ImageAnalysis) (d : Disk) (turns : List (WriteRequest × Bool))
    (hcount : (start a d).Counts turns) (hquiet : (start a d).QuietSinceCheckpoint turns) :
    openProject a ((start a d).run turns).disk = ((start a d).run turns).project := by
  induction turns using List.reverseRecOn with
  | nil => rfl
  | append_singleton turns turn ih =>
    have hcount' : (start a d).Counts turns := by
      intro pre t post heq
      exact hcount pre t (post ++ [turn]) (by rw [heq]; simp)
    have hseq := hcount turns turn [] rfl
    have hok := ok_run a d hcount'
    rw [run_snoc]
    obtain ⟨req, checkpoint⟩ := turn
    cases checkpoint with
    | true => exact recover_save (hok.request hseq req)
    | false =>
      -- No checkpoint here, so the turns before it were quiet since theirs.
      have hrec := ih hcount' (by
        intro pre t post heq hfalse
        refine hquiet pre t (post ++ [(req, false)]) (by rw [heq]; simp) ?_
        intro t' ht'
        rcases List.mem_cons.mp ht' with rfl | h
        · exact hfalse t' List.mem_cons_self
        · rcases List.mem_append.mp h with h | h
          · exact hfalse t' (List.mem_cons_of_mem t h)
          · rw [List.mem_singleton.mp h])
      show openProject a (((start a d).run turns).request req).2.disk = _
      rcases request_cases ((start a d).run turns) req with ⟨op, hop, hp, hd⟩ | ⟨-, hp, hd⟩
      · have hstamp := hquiet turns (req, false) [] rfl (by simp) op hop
        show _ = (((start a d).run turns).request req).2.project
        rw [hp, hd]
        exact recover_commit hrec hseq hstamp
      · show _ = (((start a d).run turns).request req).2.project
        rw [hp, hd]
        exact hrec

/-- A rename before a checkpoint and a comment after it. -/
theorem recover_comment :
    openProject oneFunction ((start oneFunction { idb := none, journal := [] }).run
        [(.apply "ui" (.renameSymbol 4096 "main" .user none none), true),
          (.apply "ui" (.setComment 4096 .address "entry" none), false)]).disk =
      ((start oneFunction { idb := none, journal := [] }).run
        [(.apply "ui" (.renameSymbol 4096 "main" .user none none), true),
          (.apply "ui" (.setComment 4096 .address "entry" none), false)]).project := by
  apply recover_eq_live
  · intro pre turn post heq
    match pre, heq with
    | [], _ => decide
    | [x], heq =>
      obtain ⟨rfl, -⟩ := List.cons.inj heq
      decide
    | _ :: _ :: [], heq => simp at heq
  · intro pre turn post heq hlast op hop
    match pre, heq with
    | [], heq =>
      obtain ⟨rfl, rfl⟩ := List.cons.inj heq
      simp at hlast
    | [x], heq =>
      obtain ⟨rfl, hrest⟩ := List.cons.inj heq
      obtain ⟨rfl, -⟩ := List.cons.inj hrest
      obtain rfl : _ = op := Option.some.inj hop
      intro pre l post hsplit
      have hl : l ∈ pre ++ l :: post := by simp
      rw [← hsplit] at hl
      obtain rfl := List.mem_singleton.mp hl
      exact True.intro
    | _ :: _ :: [], heq => simp at heq

/-- Renaming a named function: the alias event is stamped 2 live and 1 on
recovery. -/
theorem recover_rename_differs :
    ((start oneFunction { idb := none, journal := [] }).run
        [(.apply "ui" (.renameSymbol 4096 "main" .user none none), false)]).project.aliasHistory =
      [{ va := 4096, oldName := "FUN_00001000", newName := "main", source := "user", seq := 2 }] ∧
    (openProject oneFunction ((start oneFunction { idb := none, journal := [] }).run
        [(.apply "ui" (.renameSymbol 4096 "main" .user none none), false)]).disk).aliasHistory =
      [{ va := 4096, oldName := "FUN_00001000", newName := "main", source := "user", seq := 1 }] ∧
    openProject oneFunction ((start oneFunction { idb := none, journal := [] }).run
        [(.apply "ui" (.renameSymbol 4096 "main" .user none none), false)]).disk ≠
      ((start oneFunction { idb := none, journal := [] }).run
        [(.apply "ui" (.renameSymbol 4096 "main" .user none none), false)]).project := by
  refine ⟨by decide, by decide, fun h => ?_⟩
  have hlog := congrArg (fun p : Project => p.aliasHistory.map AliasEvent.seq) h
  exact absurd hlog (by decide)

end Writer

end Windy
