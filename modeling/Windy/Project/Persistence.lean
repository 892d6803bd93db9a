import Windy.Project.Op

/- The stored project: the IDB snapshot, the operation journal, and how a project is rebuilt from
   them (`project/persistence.rs`, `project/op_log.rs`, `Project::open_with_progress`,
   `Project::save`).

   Reopening analyzes the image again, applies the snapshot over the result and replays the journal
   records above the snapshot's sequence number. A journal record went through JSON: a captured
   "there was none" (`Some(None)`) is read back as "not captured" (`None`).

   Correspondence:
     the struct literal in `Project::open_with_progress` ↔ `Project.ofAnalysis`
     `ProjectState::from_project` / `ProjectState::apply` ↔ `ProjectState.fromProject` / `.apply`
     the replay loop of `Project::open_with_progress` ↔ `replay`
     `Journal::truncate_through`, `Project::save` ↔ the same
   The snapshot's symbol and comment lists hold the entries of maps, so inserting them one by one is
   a union. -/
namespace Windy

/-- What analyzing the image gives: the symbols, frames, types and signatures
found in it, the functions, and the entry point. -/
structure ImageAnalysis where
  symbols : Map Symbol
  typedGlobals : Map DataType
  functionSignatures : Map FunctionSignature
  functionFrames : Map StackFrame
  functions : Finset Nat
  entryVa : Nat

/-- The freshly analyzed project, before any stored state is applied. -/
def Project.ofAnalysis (a : ImageAnalysis) : Project :=
  { symbols := a.symbols
    comments := { byAddr := ∅, byFunction := ∅ }
    typedGlobals := a.typedGlobals
    functionSignatures := a.functionSignatures
    functionFrames := a.functionFrames
    functionMemory := ∅
    aliasHistory := []
    focus := some a.entryVa
    opSeq := 0
    functions := a.functions }

/-- Serializable project metadata. -/
structure ProjectState where
  symbols : Map Symbol
  commentsAddr : Map String
  commentsFunc : Map String
  functionFrames : Map StackFrame
  typedGlobals : Map DataType
  functionSignatures : Map FunctionSignature
  focus : Option Nat
  /-- Highest operation sequence number captured in this snapshot. -/
  seq : Nat
  version : Nat
  functionMemory : Map FunctionMemoryCard
  aliasHistory : List AliasEvent

namespace ProjectState

def currentVersion : Nat := 3

/-- Capture all state that should survive across sessions. -/
def fromProject (p : Project) : ProjectState :=
  { symbols := p.symbols
    commentsAddr := p.comments.byAddr
    commentsFunc := p.comments.byFunction
    functionFrames := p.functionFrames
    typedGlobals := p.typedGlobals
    functionSignatures := p.functionSignatures
    focus := p.focus
    seq := p.opSeq
    version := currentVersion
    functionMemory := p.functionMemory
    aliasHistory := p.aliasHistory }

/-- Apply persisted user edits to a freshly analyzed project. -/
def apply (st : ProjectState) (p : Project) : Project :=
  if st.version ≠ 2 ∧ st.version ≠ currentVersion then p
  else
    { p with
      symbols := st.symbols ∪ p.symbols
      comments :=
        { byAddr := st.commentsAddr ∪ p.comments.byAddr
          byFunction := st.commentsFunc ∪ p.comments.byFunction }
      functionFrames := st.functionFrames
      typedGlobals := st.typedGlobals
      functionSignatures := st.functionSignatures
      functionMemory := st.functionMemory
      aliasHistory := st.aliasHistory
      opSeq := st.seq
      focus := if st.focus.isSome then st.focus else p.focus }

end ProjectState

/-! ## The journal -/

mutual

/-- An operation written as JSON and read back. -/
def Op.viaJson : Op → Op
  | .setStackLocalName va offset name oldName => .setStackLocalName va offset name (oldName.join.map some)
  | .setFunctionMemory va card old => .setFunctionMemory va card (old.join.map some)
  | .batch ops => .batch (Op.viaJsonAll ops)
  | .renameSymbol va name kind oldName oldKind => .renameSymbol va name kind oldName oldKind
  | .setComment va scope text oldText => .setComment va scope text oldText
  | .setFocus va oldFocus => .setFocus va oldFocus
  | .setGlobalType va ty oldTy => .setGlobalType va ty oldTy
  | .setFunctionSignature va sig oldSig => .setFunctionSignature va sig oldSig
  | .setStackLocalType va offset ty oldTy => .setStackLocalType va offset ty oldTy
  | .setParamName va index name oldName => .setParamName va index name oldName

def Op.viaJsonAll : List Op → List Op
  | [] => []
  | op :: rest => Op.viaJson op :: Op.viaJsonAll rest

end

structure JournalRecord where
  seq : Nat
  op : Op

/-- What is stored for one image: the IDB file and the journal's records. -/
structure Disk where
  idb : Option ProjectState
  journal : List JournalRecord

/-- `Journal::append`. -/
def Disk.append (d : Disk) (seq : Nat) (op : Op) : Disk :=
  { d with journal := d.journal ++ [{ seq := seq, op := op.viaJson }] }

/-- One iteration of the replay loop. -/
def Project.replayRecord (p : Project) (r : JournalRecord) : Project :=
  if r.seq > p.opSeq then (r.op.applyTo p).withSeq r.seq else p

/-- The replay loop. -/
def Project.replay (p : Project) (records : List JournalRecord) : Project :=
  records.foldl Project.replayRecord p

/-- `Project::open_with_progress`, from the analysis of the image on. -/
def openProject (a : ImageAnalysis) (d : Disk) : Project :=
  (match d.idb with
    | some st => st.apply (Project.ofAnalysis a)
    | none => Project.ofAnalysis a).replay d.journal

/-- `Journal::truncate_through`: drop the records a snapshot has captured. -/
def truncateThrough (records : List JournalRecord) (seq : Nat) : List JournalRecord :=
  records.filter (fun r => r.seq > seq)

/-- `Project::save`. -/
def Project.save (p : Project) (d : Disk) : Disk :=
  { idb := some (ProjectState.fromProject p)
    journal := truncateThrough d.journal p.opSeq }

/-! ## What replay does -/

theorem Project.replay_append (p : Project) (xs ys : List JournalRecord) :
    p.replay (xs ++ ys) = (p.replay xs).replay ys := by
  simp [replay, List.foldl_append]

theorem Project.replayRecord_opSeq (p : Project) (r : JournalRecord) :
    (p.replayRecord r).opSeq = max p.opSeq r.seq := by
  unfold replayRecord
  split
  · show r.seq = max p.opSeq r.seq
    omega
  · omega

/-- Replay ends at the highest sequence number it has seen. -/
theorem Project.replay_seq_le (p : Project) (records : List JournalRecord) :
    p.opSeq ≤ (p.replay records).opSeq ∧ ∀ r ∈ records, r.seq ≤ (p.replay records).opSeq := by
  induction records generalizing p with
  | nil => simp [replay]
  | cons r rest ih =>
    have hr := replayRecord_opSeq p r
    obtain ⟨hle, hmem⟩ := ih (p.replayRecord r)
    rw [hr] at hle
    change max p.opSeq r.seq ≤ (p.replay (r :: rest)).opSeq at hle
    refine ⟨by omega, ?_⟩
    intro r' hr'
    rcases List.mem_cons.mp hr' with rfl | h
    · omega
    · exact hmem r' h

theorem Project.replay_opSeq_le {p : Project} {records : List JournalRecord} {n : Nat}
    (hp : p.opSeq ≤ n) (h : ∀ r ∈ records, r.seq ≤ n) : (p.replay records).opSeq ≤ n := by
  induction records generalizing p with
  | nil => exact hp
  | cons r rest ih =>
    have hr := h r List.mem_cons_self
    refine ih ?_ fun x hx => h x (List.mem_cons_of_mem r hx)
    rw [replayRecord_opSeq]
    omega

/-- Every record of the journal is at or below the reopened project's counter. -/
theorem openProject_seq_le (a : ImageAnalysis) (d : Disk) :
    ∀ r ∈ d.journal, r.seq ≤ (openProject a d).opSeq :=
  (Project.replay_seq_le _ d.journal).2

/-- A record above everything stored is replayed last. -/
theorem openProject_append (a : ImageAnalysis) (d : Disk) (op : Op) {seq : Nat}
    (h : (openProject a d).opSeq < seq) :
    openProject a (d.append seq op) =
      (op.viaJson.applyTo (openProject a d)).withSeq seq := by
  unfold openProject Disk.append
  rw [Project.replay_append]
  exact if_pos h

end Windy
