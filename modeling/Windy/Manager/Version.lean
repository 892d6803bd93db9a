import Windy.Manager.Writer

/- Project versions with the operations they contain.

   Whether a stored snapshot "contains" an operation cannot be read off the snapshot: two handles of
   one image can reach the same counter by different operations. A `Version` is a project together
   with the records that led to it. The records are a ghost: `openVersion_project` says that
   reopening a stored image gives the project `openProject` gives, and only the counter of a project
   decides what is replayed. -/
namespace Windy

/-- A project and the operations it contains, in the order they were applied. -/
structure Version where
  project : Project
  contents : List JournalRecord

/-- What is stored for one image, with the contents of the snapshot. -/
structure Stored where
  idb : Option Version
  journal : List JournalRecord

/-- The files without the ghost. -/
def Stored.disk (s : Stored) : Disk :=
  { idb := s.idb.map fun v => ProjectState.fromProject v.project, journal := s.journal }

namespace Version

/-- The record an operation makes in the journal. -/
def recordOf (v : Version) (op : Op) : JournalRecord :=
  { seq := (op.applyTo v.project.bump).opSeq, op := (op.applied v.project.bump).viaJson }

/-- The counter is bumped and the operation applied (`apply_one`). -/
def apply (v : Version) (op : Op) : Version :=
  { project := op.applyTo v.project.bump, contents := v.contents ++ [v.recordOf op] }

/-- One iteration of the replay loop. -/
def replayRecord (v : Version) (r : JournalRecord) : Version :=
  if r.seq > v.project.opSeq then
    { project := v.project.replayRecord r, contents := v.contents ++ [r] }
  else v

def replay (v : Version) (records : List JournalRecord) : Version := records.foldl replayRecord v

theorem apply_opSeq (v : Version) (op : Op) (h : v.project.opSeq + 1 < 2 ^ 64) :
    (v.apply op).project.opSeq = v.project.opSeq + 1 ∧ (v.recordOf op).seq = v.project.opSeq + 1 := by
  have hseq : (op.applyTo v.project.bump).opSeq = v.project.opSeq + 1 := by
    rw [(op.applyTo_frame v.project.bump).1, Project.bump, Project.withSeq_opSeq, Nat.mod_eq_of_lt h]
  exact ⟨hseq, hseq⟩

theorem replayRecord_project (v : Version) (r : JournalRecord) :
    (v.replayRecord r).project = v.project.replayRecord r := by
  unfold replayRecord
  split
  · rfl
  · next h => exact (if_neg h).symm

theorem replay_project (v : Version) (records : List JournalRecord) :
    (v.replay records).project = v.project.replay records := by
  induction records generalizing v with
  | nil => rfl
  | cons r rest ih =>
    show ((v.replayRecord r).replay rest).project = (v.project.replayRecord r).replay rest
    rw [ih, replayRecord_project]

theorem replay_append (v : Version) (xs ys : List JournalRecord) :
    v.replay (xs ++ ys) = (v.replay xs).replay ys := by
  simp [replay, List.foldl_append]

/-- Replaying an increasing run of records above the counter takes all of them. -/
theorem replay_increasing {v : Version} {records : List JournalRecord}
    (habove : ∀ r ∈ records, v.project.opSeq < r.seq)
    (hsorted : records.Pairwise (fun r r' => r.seq < r'.seq)) :
    (v.replay records).contents = v.contents ++ records := by
  induction records generalizing v with
  | nil => simp [replay]
  | cons r rest ih =>
    obtain ⟨hlt, hrest⟩ := List.pairwise_cons.mp hsorted
    have hr := habove r List.mem_cons_self
    have hseq : (v.replayRecord r).project.opSeq = r.seq := by
      rw [replayRecord_project, Project.replayRecord_opSeq]
      omega
    show ((v.replayRecord r).replay rest).contents = v.contents ++ r :: rest
    rw [ih (fun x hx => by rw [hseq]; exact hlt x hx) hrest, replayRecord, if_pos hr]
    simp

end Version

/-- The version replay starts from: the snapshot over the fresh analysis. -/
def Stored.base (a : ImageAnalysis) (s : Stored) : Version :=
  match s.idb with
  | some v =>
    { project := (ProjectState.fromProject v.project).apply (Project.ofAnalysis a)
      contents := v.contents }
  | none => { project := Project.ofAnalysis a, contents := [] }

/-- The version a stored image reopens to. -/
def openVersion (a : ImageAnalysis) (s : Stored) : Version := (s.base a).replay s.journal

/-- The sequence number of the stored snapshot. -/
def Stored.idbSeq (s : Stored) : Nat := (s.idb.map fun v => v.project.opSeq).getD 0

theorem Stored.base_opSeq (a : ImageAnalysis) (s : Stored) : (s.base a).project.opSeq = s.idbSeq := by
  unfold Stored.base Stored.idbSeq
  cases h : s.idb with
  | none => rfl
  | some v => simp [ProjectState.apply, ProjectState.fromProject, ProjectState.currentVersion]

theorem le_openVersion_opSeq (a : ImageAnalysis) (s : Stored) :
    s.idbSeq ≤ (openVersion a s).project.opSeq ∧
      ∀ r ∈ s.journal, r.seq ≤ (openVersion a s).project.opSeq := by
  rw [openVersion, Version.replay_project, ← Stored.base_opSeq a]
  exact Project.replay_seq_le _ s.journal

/-- The reopened counter is the highest sequence number stored. -/
theorem openVersion_opSeq_le {a : ImageAnalysis} {s : Stored} {n : Nat} (hidb : s.idbSeq ≤ n)
    (h : ∀ r ∈ s.journal, r.seq ≤ n) : (openVersion a s).project.opSeq ≤ n := by
  rw [openVersion, Version.replay_project]
  exact Project.replay_opSeq_le (by rw [Stored.base_opSeq]; exact hidb) h

end Windy
