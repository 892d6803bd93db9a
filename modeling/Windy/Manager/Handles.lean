import Windy.Lib.Run
import Windy.Manager.Version

/- Several open handles of one image (`ProjectManager::open_with_progress` deduplicates by path,
   while the journal and the IDB are keyed by hash).

   Every handle numbers its operations from its own counter, all append to one journal, and replay
   takes only records above the counter it has reached. Two handles that are behind each other's
   records use the same numbers, and the later record is skipped on reopening.
   `acknowledged_recovered` says that nothing acknowledged is lost as long as every record is
   appended above everything stored and no save replaces a newer snapshot.

   The steps of a handle are those of its writer: apply the operation to the live project, append
   the record, acknowledge it; a save (a checkpoint, or closing the handle) happens between
   operations. -/
namespace Windy

/-! ## Versions and the stored state -/

section Tracking
variable {a : ImageAnalysis} {s : Stored} {v : Version} {r : JournalRecord}

/-- `v` is what is stored up to its counter, and the journal goes on from
there. -/
def Aligned (a : ImageAnalysis) (s : Stored) (v : Version) : Prop :=
  ∃ old new, s.journal = old ++ new ∧ (∀ r ∈ old, r.seq ≤ v.project.opSeq) ∧
    (∀ r ∈ new, v.project.opSeq < r.seq) ∧ new.Pairwise (fun r r' => r.seq < r'.seq) ∧
    v.contents ++ new = (openVersion a s).contents

/-- `v` is at or below what is stored, and aligned with it unless the snapshot
is already newer. -/
structure Tracks (a : ImageAnalysis) (s : Stored) (v : Version) : Prop where
  le : v.project.opSeq ≤ (openVersion a s).project.opSeq
  aligned : s.idbSeq ≤ v.project.opSeq → Aligned a s v

theorem tracks_open (a : ImageAnalysis) (s : Stored) : Tracks a s (openVersion a s) := by
  refine ⟨le_refl _, fun _ => ⟨s.journal, [], by simp, (le_openVersion_opSeq a s).2, ?_, ?_, by simp⟩⟩
  · simp
  · exact List.Pairwise.nil

/-- The stored state with one more record. -/
def Stored.append (s : Stored) (r : JournalRecord) : Stored := { s with journal := s.journal ++ [r] }

/-- The record is above everything stored. -/
def Stored.Above (s : Stored) (r : JournalRecord) : Prop :=
  s.idbSeq < r.seq ∧ ∀ r' ∈ s.journal, r'.seq < r.seq

theorem openVersion_lt_of_above (a : ImageAnalysis) (h : s.Above r) :
    (openVersion a s).project.opSeq < r.seq := by
  have hle : (openVersion a s).project.opSeq ≤ r.seq - 1 := by
    refine openVersion_opSeq_le ?_ ?_
    · have := h.1
      omega
    · intro r' hr'
      have := h.2 r' hr'
      omega
  have := h.1
  omega

/-- A record above everything stored is recovered last. -/
theorem openVersion_append (h : s.Above r) :
    (openVersion a (s.append r)).contents = (openVersion a s).contents ++ [r] ∧
      (openVersion a (s.append r)).project.opSeq = r.seq := by
  have hlt := openVersion_lt_of_above a h
  have heq : openVersion a (s.append r) = (openVersion a s).replayRecord r := by
    show (s.base a).replay (s.journal ++ [r]) = _
    rw [Version.replay_append]
    rfl
  rw [heq]
  constructor
  · rw [Version.replayRecord, if_pos hlt]
  · rw [Version.replayRecord_project, Project.replayRecord_opSeq]
    omega

theorem Tracks.append (h : Tracks a s v) (habove : s.Above r) :
    Tracks a (s.append r) v := by
  obtain ⟨hcontents, hseq⟩ := openVersion_append (a := a) habove
  have hlt := openVersion_lt_of_above a habove
  have hv : v.project.opSeq < r.seq := lt_of_le_of_lt h.le hlt
  refine ⟨by omega, fun hidb => ?_⟩
  obtain ⟨old, new, hj, hold, hnew, hsorted, hall⟩ := h.aligned hidb
  refine ⟨old, new ++ [r], ?_, hold, ?_, ?_, ?_⟩
  · show s.journal ++ [r] = _
    rw [hj, List.append_assoc]
  · intro r' hr'
    rcases List.mem_append.mp hr' with h' | h'
    · exact hnew r' h'
    · rw [List.mem_singleton.mp h']; exact hv
  · refine List.pairwise_append.mpr ⟨hsorted, List.pairwise_singleton _ _, ?_⟩
    intro r' hr' x hx
    rw [List.mem_singleton.mp hx]
    exact habove.2 r' (by rw [hj]; exact List.mem_append_right _ hr')
  · rw [hcontents, ← hall, List.append_assoc]

/-- A version one record below everything stored already contains all of it. -/
theorem Tracks.contents_of_above (h : Tracks a s v) (habove : s.Above r)
    (hseq : r.seq = v.project.opSeq + 1) : v.contents = (openVersion a s).contents := by
  have hidb : s.idbSeq ≤ v.project.opSeq := by
    have := habove.1
    omega
  obtain ⟨old, new, hj, -, hnew, -, hall⟩ := h.aligned hidb
  have hnil : new = [] := by
    rcases new with _ | ⟨x, new⟩
    · rfl
    · have h1 := hnew x List.mem_cons_self
      have h2 := habove.2 x (by rw [hj]; simp)
      omega
  rw [← hall, hnil, List.append_nil]

/-- `Project::save` with the contents of the snapshot. -/
def Version.save (v : Version) (s : Stored) : Stored :=
  { idb := some v, journal := truncateThrough s.journal v.project.opSeq }

/-- Saving a version that no newer snapshot has replaced loses nothing, and
moves the reopened counter nowhere. -/
theorem Tracks.save (h : Tracks a s v) (hidb : s.idbSeq ≤ v.project.opSeq) :
    (openVersion a (v.save s)).contents = (openVersion a s).contents ∧
      (openVersion a (v.save s)).project.opSeq = (openVersion a s).project.opSeq := by
  obtain ⟨old, new, hj, hold, hnew, hsorted, hall⟩ := h.aligned hidb
  have hjournal : (v.save s).journal = new := by
    show truncateThrough s.journal v.project.opSeq = new
    have h1 : truncateThrough old v.project.opSeq = [] := by
      apply List.filter_eq_nil_iff.mpr
      intro r hr
      simpa using hold r hr
    have h2 : truncateThrough new v.project.opSeq = new := by
      apply List.filter_eq_self.mpr
      intro r hr
      simpa using hnew r hr
    rw [hj, truncateThrough, List.filter_append]
    exact (congrArg₂ (· ++ ·) h1 h2).trans (List.nil_append new)
  have hbase : ((v.save s).base a).project.opSeq = v.project.opSeq := Stored.base_opSeq a (v.save s)
  constructor
  · rw [openVersion, hjournal, Version.replay_increasing (by rw [hbase]; exact hnew) hsorted, ← hall]
    rfl
  · apply le_antisymm
    · refine openVersion_opSeq_le h.le ?_
      rw [hjournal]
      intro r hr
      exact (le_openVersion_opSeq a s).2 r (by rw [hj]; exact List.mem_append_right _ hr)
    · obtain ⟨hv, hr⟩ := le_openVersion_opSeq a (v.save s)
      rw [hjournal] at hr
      refine openVersion_opSeq_le (hidb.trans hv) ?_
      intro r hr'
      rw [hj] at hr'
      rcases List.mem_append.mp hr' with h' | h'
      · exact (hold r h').trans hv
      · exact hr r h'

theorem Tracks.of_save (h : Tracks a s v) (hidb : s.idbSeq ≤ v.project.opSeq) {u : Version}
    (hu : Tracks a s u) : Tracks a (v.save s) u := by
  obtain ⟨hcontents, hseq⟩ := h.save hidb
  refine ⟨by rw [hseq]; exact hu.le, fun hle => ?_⟩
  have hvu : v.project.opSeq ≤ u.project.opSeq := hle
  obtain ⟨old, new, hj, hold, hnew, hsorted, hall⟩ := hu.aligned (hidb.trans hvu)
  refine ⟨truncateThrough old v.project.opSeq, new, ?_, ?_, hnew, hsorted, by rw [hcontents, hall]⟩
  · show truncateThrough s.journal v.project.opSeq = _
    rw [hj, truncateThrough, List.filter_append]
    congr 1
    apply List.filter_eq_self.mpr
    intro r hr
    have := hnew r hr
    simp
    omega
  · intro r hr
    exact hold r (List.mem_of_mem_filter hr)

end Tracking

/-! ## Handles -/

namespace Handles

/-- Where a handle's writer is in the operation it is working on. -/
inductive Phase where
  | idle
  | applied (r : JournalRecord)
  | appended (r : JournalRecord)

/-- An open handle: the live project of its writer. -/
structure Handle where
  version : Version
  phase : Phase

/-- The files of the image, the open handles, and the records acknowledged. -/
structure State (ι : Type) where
  stored : Stored
  handles : ι → Option Handle
  acknowledged : List JournalRecord

inductive Action (ι : Type) where
  | openHandle (h : ι)
  | request (h : ι) (op : Op)
  | append (h : ι)
  | acknowledge (h : ι)
  | save (h : ι)
  | close (h : ι)

variable {ι : Type} [DecidableEq ι]

/-- The image as it is stored, with no handle open. -/
def start (s : Stored) : State ι := { stored := s, handles := fun _ => none, acknowledged := [] }

def State.put (s : State ι) (h : ι) (handle : Option Handle) : State ι :=
  { s with handles := Function.update s.handles h handle }

/-- One step of one handle; `none` where the handle cannot take it. -/
def step (a : ImageAnalysis) (s : State ι) : Action ι → Option (State ι)
  | .openHandle h =>
    match s.handles h with
    | none => some (s.put h (some { version := openVersion a s.stored, phase := .idle }))
    | some _ => none
  | .request h op =>
    match s.handles h with
    | some { version := v, phase := .idle } =>
      some (s.put h (some { version := v.apply op, phase := .applied (v.recordOf op) }))
    | _ => none
  | .append h =>
    match s.handles h with
    | some { version := v, phase := .applied r } =>
      some ({ s with stored := s.stored.append r }.put h (some { version := v, phase := .appended r }))
    | _ => none
  | .acknowledge h =>
    match s.handles h with
    | some { version := v, phase := .appended r } =>
      some ({ s with acknowledged := s.acknowledged ++ [r] }.put h (some { version := v, phase := .idle }))
    | _ => none
  | .save h =>
    match s.handles h with
    | some { version := v, phase := .idle } => some { s with stored := v.save s.stored }
    | _ => none
  | .close h =>
    match s.handles h with
    | some { version := v, phase := .idle } => some ({ s with stored := v.save s.stored }.put h none)
    | _ => none

/-- A record is appended above everything stored, a save does not replace a
newer snapshot, and the counter does not overflow. -/
def UpToDate (s : State ι) : Action ι → Prop
  | .append h =>
    match s.handles h with
    | some { version := _, phase := .applied r } => s.stored.Above r
    | _ => True
  | .save h => ∀ handle ∈ s.handles h, s.stored.idbSeq ≤ handle.version.project.opSeq
  | .close h => ∀ handle ∈ s.handles h, s.stored.idbSeq ≤ handle.version.project.opSeq
  | .request h _ => ∀ handle ∈ s.handles h, handle.version.project.opSeq + 1 < 2 ^ 64
  | _ => True

/-- What a handle knows about the stored state, in each phase. -/
def Handle.Tracks (a : ImageAnalysis) (s : Stored) (handle : Handle) : Prop :=
  match handle.phase with
  | .idle => Windy.Tracks a s handle.version
  | .applied r => ∃ v, Windy.Tracks a s v ∧ handle.version.contents = v.contents ++ [r] ∧
      handle.version.project.opSeq = r.seq ∧ r.seq = v.project.opSeq + 1
  | .appended r => Windy.Tracks a s handle.version ∧ r ∈ (openVersion a s).contents

/-- Every acknowledged record is recovered, and every handle tracks the stored
state. -/
structure Inv (a : ImageAnalysis) (s : State ι) : Prop where
  recovered : ∀ r ∈ s.acknowledged, r ∈ (openVersion a s.stored).contents
  handles : ∀ h handle, s.handles h = some handle → handle.Tracks a s.stored

section Invariant
variable {a : ImageAnalysis} {s : State ι}

/-- A change of the stored state that keeps what handles track keeps every
handle. -/
theorem Handle.Tracks.of_stored {t t' : Stored} {handle : Handle} (h : handle.Tracks a t)
    (htracks : ∀ v, Windy.Tracks a t v → Windy.Tracks a t' v)
    (hcontents : ∀ r ∈ (openVersion a t).contents, r ∈ (openVersion a t').contents) :
    handle.Tracks a t' := by
  unfold Handle.Tracks at h ⊢
  split at h
  · exact htracks _ h
  · obtain ⟨v, hv, hrest⟩ := h
    exact ⟨v, htracks v hv, hrest⟩
  · exact ⟨htracks _ h.1, hcontents _ h.2⟩

theorem Inv.put (h : Inv a s) (i : ι) {handle : Handle} (hh : handle.Tracks a s.stored) :
    Inv a (s.put i (some handle)) := by
  refine ⟨h.recovered, fun j handle' hj => ?_⟩
  by_cases hij : j = i
  · subst hij
    have : some handle = some handle' := by simpa [State.put] using hj
    exact Option.some.inj this ▸ hh
  · exact h.handles j handle' (by simpa [State.put, Function.update_of_ne hij] using hj)

omit [DecidableEq ι] in
/-- A changed stored state that recovers at least as much. -/
theorem Inv.stored (h : Inv a s) {t : Stored}
    (htracks : ∀ v, Windy.Tracks a s.stored v → Windy.Tracks a t v)
    (hcontents : ∀ r ∈ (openVersion a s.stored).contents, r ∈ (openVersion a t).contents) :
    Inv a { s with stored := t } :=
  ⟨fun r hr => hcontents r (h.recovered r hr),
    fun j handle hj => (h.handles j handle hj).of_stored htracks hcontents⟩

omit [DecidableEq ι] in
theorem Inv.save (h : Inv a s) {i : ι} {v : Version}
    (hi : s.handles i = some { version := v, phase := .idle }) (hidb : s.stored.idbSeq ≤ v.project.opSeq) :
    Inv a { s with stored := v.save s.stored } := by
  have hv : Windy.Tracks a s.stored v := h.handles i _ hi
  refine h.stored (fun u hu => hv.of_save hidb hu) ?_
  intro r hr
  rw [(hv.save hidb).1]
  exact hr

theorem inv_step {act : Action ι} {s' : State ι} (h : Inv a s) (hok : UpToDate s act)
    (hstep : step a s act = some s') : Inv a s' := by
  cases act with
  | openHandle i =>
    simp only [step] at hstep
    split at hstep
    · obtain rfl := Option.some.inj hstep
      exact h.put i (tracks_open a s.stored)
    · cases hstep
  | request i op =>
    simp only [step] at hstep
    split at hstep
    · rename_i v hi
      obtain rfl := Option.some.inj hstep
      obtain ⟨hseq, hrec⟩ := v.apply_opSeq op (hok _ hi)
      exact h.put i ⟨v, h.handles i _ hi, rfl, by rw [hseq, hrec], hrec⟩
    · cases hstep
  | append i =>
    simp only [step] at hstep
    split at hstep
    · rename_i v r hi
      obtain rfl := Option.some.inj hstep
      have habove : s.stored.Above r := by simpa [UpToDate, hi] using hok
      obtain ⟨hcontents, hseq⟩ := openVersion_append (a := a) habove
      obtain ⟨u, hu, hvc, hvs, hr⟩ : ∃ u, Windy.Tracks a s.stored u ∧ v.contents = u.contents ++ [r] ∧
        v.project.opSeq = r.seq ∧ r.seq = u.project.opSeq + 1 := h.handles i _ hi
      -- The version before this record held everything stored, so now it does again.
      have hall : v.contents = (openVersion a (s.stored.append r)).contents := by
        rw [hvc, hcontents, hu.contents_of_above habove hr]
      have hinv : Inv a { s with stored := s.stored.append r } := by
        refine h.stored (fun w hw => hw.append habove) ?_
        intro x hx
        rw [hcontents]
        exact List.mem_append_left _ hx
      refine hinv.put i ⟨⟨by rw [hvs, hseq], fun _ => ?_⟩, ?_⟩
      · refine ⟨(s.stored.append r).journal, [], by simp, ?_, by simp, List.Pairwise.nil, ?_⟩
        · intro x hx
          have := (le_openVersion_opSeq a (s.stored.append r)).2 x hx
          rw [hseq] at this
          rwa [← hvs] at this
        · rw [List.append_nil]
          exact hall
      · show r ∈ (openVersion a (s.stored.append r)).contents
        rw [hcontents]
        simp
    · cases hstep
  | acknowledge i =>
    simp only [step] at hstep
    split at hstep
    · rename_i v r hi
      obtain rfl := Option.some.inj hstep
      obtain ⟨hv, hr⟩ : Windy.Tracks a s.stored v ∧ r ∈ (openVersion a s.stored).contents :=
        h.handles i _ hi
      have hinv : Inv a { s with acknowledged := s.acknowledged ++ [r] } := by
        refine ⟨fun x hx => ?_, h.handles⟩
        rcases List.mem_append.mp hx with hx | hx
        · exact h.recovered x hx
        · rw [List.mem_singleton.mp hx]; exact hr
      exact hinv.put i hv
    · cases hstep
  | save i =>
    simp only [step] at hstep
    split at hstep
    · rename_i v hi
      obtain rfl := Option.some.inj hstep
      exact h.save hi (hok _ hi)
    · cases hstep
  | close i =>
    simp only [step] at hstep
    split at hstep
    · rename_i v hi
      obtain rfl := Option.some.inj hstep
      have hinv := h.save hi (hok _ hi)
      refine ⟨hinv.recovered, fun j handle hj => ?_⟩
      by_cases hij : j = i
      · subst hij
        simp [State.put] at hj
      · exact hinv.handles j handle (by simpa [State.put, Function.update_of_ne hij] using hj)
    · cases hstep

end Invariant

/-- One handle comments and saves; a second one is opened after that. -/
def lateOpen : List (Action Bool) :=
  [.openHandle true, .request true (.setComment 4096 .address "a" none), .append true, .acknowledge true,
    .save true, .openHandle false, .request false (.setComment 8192 .address "b" none), .append false,
    .acknowledge false]

/-- Both handles are open before either has edited. -/
def bothOpen : List (Action Bool) :=
  [.openHandle true, .openHandle false,
    .request true (.setComment 4096 .address "a" none), .append true, .acknowledge true,
    .request false (.setComment 8192 .address "b" none), .append false, .acknowledge false]

end Handles

end Windy
