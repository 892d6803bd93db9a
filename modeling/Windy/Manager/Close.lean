import Windy.Lib.Run
import Windy.Manager.Version

/- Closing a project while its writer is at work (`ProjectManager::close`, `Project::save`,
   `Journal::truncate_through`, `writer_loop`).

   Both tasks save: they write a snapshot, read the journal, write the records above the snapshot to
   a temporary file and rename it over the journal, each from its own view of the project. The
   writer's checkpoint uses its live project, `close` the last published one. Between the steps of
   one task the other may take any of its own.

   `acknowledged_durable` says what the interleaving must not do for every acknowledged operation to
   stay in the snapshot or in the journal: replace a newer snapshot by an older one, or append to
   (or start rewriting) the journal while the other task is between reading it and renaming over it.

   Correspondence:
     `Project::save` with `truncate_through`, step by step ↔ `SavePhase`, `saveStep`
     a turn of `writer_loop` ↔ `WriterPhase`
     `ProjectManager::close` ↔ `CloserPhase` -/
namespace Windy.Close

/-- Where a task is in saving version `v`. -/
inductive SavePhase where
  /-- about to write the IDB -/
  | begin (v : Version)
  /-- about to read the journal -/
  | idbWritten (v : Version)
  /-- about to write the temporary file -/
  | filtered (v : Version) (records : List JournalRecord)
  /-- about to rename the temporary file over the journal -/
  | tmpWritten (v : Version)

inductive WriterPhase where
  | idle
  | applied (r : JournalRecord)
  | appended (r : JournalRecord)
  /-- the append failed -/
  | failed
  | published (r : JournalRecord)
  | publishedFailed
  | saving (phase : SavePhase)

inductive CloserPhase where
  | notStarted
  | saving (phase : SavePhase)
  | done

/-- The files, the writer's live project, the published one, and where both
tasks are. -/
structure State where
  stored : Stored
  tmp : Option (List JournalRecord)
  live : Version
  readState : Version
  writer : WriterPhase
  closer : CloserPhase
  acknowledged : List JournalRecord

inductive Action where
  | request (op : Op)
  | append
  | appendFails
  | publish
  /-- answer the request; a checkpoint may follow -/
  | acknowledge (checkpoint : Bool)
  | writerSave
  | load
  | closerSave

/-- The project was opened from `s`; `tmp` may be left over from a crash. -/
def start (a : ImageAnalysis) (s : Stored) (tmp : Option (List JournalRecord)) : State :=
  { stored := s
    tmp := tmp
    live := openVersion a s
    readState := openVersion a s
    writer := .idle
    closer := .notStarted
    acknowledged := [] }

/-- One step of a save: the files after it, and what is left to do. A rename
without a temporary file fails, and the failure is ignored. -/
def saveStep (stored : Stored) (tmp : Option (List JournalRecord)) :
    SavePhase → Stored × Option (List JournalRecord) × Option SavePhase
  | .begin v => ({ stored with idb := some v }, tmp, some (.idbWritten v))
  | .idbWritten v => (stored, tmp, some (.filtered v (truncateThrough stored.journal v.project.opSeq)))
  | .filtered v records => (stored, some records, some (.tmpWritten v))
  | .tmpWritten _ =>
    match tmp with
    | some records => ({ stored with journal := records }, none, none)
    | none => (stored, none, none)

def WriterPhase.ofSave : Option SavePhase → WriterPhase
  | some phase => .saving phase
  | none => .idle

def CloserPhase.ofSave : Option SavePhase → CloserPhase
  | some phase => .saving phase
  | none => .done

/-- The next checkpoint, if one is due. -/
def WriterPhase.afterTurn (live : Version) (checkpoint : Bool) : WriterPhase :=
  if checkpoint then .saving (.begin live) else .idle

/-- One step of one task; `none` where the task cannot take it. -/
def step (s : State) : Action → Option State
  | .request op =>
    match s.writer with
    | .idle => some { s with live := s.live.apply op, writer := .applied (s.live.recordOf op) }
    | _ => none
  | .append =>
    match s.writer with
    | .applied r => some { s with
        stored := { s.stored with journal := s.stored.journal ++ [r] }
        writer := .appended r }
    | _ => none
  | .appendFails =>
    match s.writer with
    | .applied _ => some { s with writer := .failed }
    | _ => none
  | .publish =>
    match s.writer with
    | .appended r => some { s with readState := s.live, writer := .published r }
    | .failed => some { s with readState := s.live, writer := .publishedFailed }
    | _ => none
  | .acknowledge checkpoint =>
    match s.writer with
    | .published r => some { s with
        acknowledged := s.acknowledged ++ [r]
        writer := .afterTurn s.live checkpoint }
    | .publishedFailed => some { s with writer := .afterTurn s.live checkpoint }
    | _ => none
  | .writerSave =>
    match s.writer with
    | .saving phase =>
      let r := saveStep s.stored s.tmp phase
      some { s with stored := r.1, tmp := r.2.1, writer := .ofSave r.2.2 }
    | _ => none
  | .load =>
    match s.closer with
    | .notStarted => some { s with closer := .saving (.begin s.readState) }
    | _ => none
  | .closerSave =>
    match s.closer with
    | .saving phase =>
      let r := saveStep s.stored s.tmp phase
      some { s with stored := r.1, tmp := r.2.1, closer := .ofSave r.2.2 }
    | _ => none

/-- The task has read the journal and not yet renamed over it. -/
def SavePhase.rewriting : SavePhase → Bool
  | .filtered _ _ => true
  | .tmpWritten _ => true
  | _ => false

def WriterPhase.rewriting : WriterPhase → Bool
  | .saving phase => phase.rewriting
  | _ => false

def CloserPhase.rewriting : CloserPhase → Bool
  | .saving phase => phase.rewriting
  | _ => false

/-- What the interleaving must keep to: the journal is not appended to, or read
for a rewrite, while the other task rewrites it; closing does not replace a newer
snapshot; the counter does not overflow. -/
def Orderly (s : State) : Action → Prop
  | .request _ => s.live.project.opSeq + 1 < 2 ^ 64
  | .append => s.closer.rewriting = false
  | .writerSave =>
    match s.writer with
    | .saving (.idbWritten _) => s.closer.rewriting = false
    | _ => True
  | .closerSave =>
    match s.closer with
    | .saving (.begin v) => s.stored.idbSeq ≤ v.project.opSeq
    | .saving (.idbWritten _) => s.writer.rewriting = false
    | _ => True
  | _ => True

/-- The operation is in the stored snapshot, or in the journal above it. -/
def Durable (s : Stored) (r : JournalRecord) : Prop :=
  (∃ v, s.idb = some v ∧ r ∈ v.contents) ∨ (r ∈ s.journal ∧ s.idbSeq < r.seq)

/-! ## Versions of one writer -/

/-- `v` is an earlier version of `w`: it has what `w` had at its counter. -/
structure Older (v w : Version) : Prop where
  le : v.project.opSeq ≤ w.project.opSeq
  keeps : ∀ r ∈ w.contents, r.seq ≤ v.project.opSeq → r ∈ v.contents

theorem Older.refl (v : Version) : Older v v := ⟨le_refl _, fun _ h _ => h⟩

theorem Older.apply {v w : Version} (h : Older v w) (hseq : w.project.opSeq + 1 < 2 ^ 64) (op : Op) :
    Older v (w.apply op) := by
  obtain ⟨hlive, hrec⟩ := w.apply_opSeq op hseq
  have hle := h.le
  refine ⟨by omega, ?_⟩
  intro r hr hrv
  rcases List.mem_append.mp hr with hr | hr
  · exact h.keeps r hr hrv
  · rw [List.mem_singleton.mp hr, hrec] at hrv
    omega

/-- The snapshot is an earlier version of what was opened from it. -/
theorem older_open (a : ImageAnalysis) (s : Stored) {v : Version} (hv : s.idb = some v) :
    Older v (openVersion a s) := by
  have hseq : s.idbSeq = v.project.opSeq := by simp [Stored.idbSeq, hv]
  have hbase : (s.base a).contents = v.contents := by simp [Stored.base, hv]
  refine ⟨by rw [← hseq]; exact (le_openVersion_opSeq a s).1, ?_⟩
  intro r hr hrv
  -- Replay adds only records above the counter it starts from.
  have hreplay : ∀ (records : List JournalRecord) (u : Version), ∀ x ∈ (u.replay records).contents,
      x ∈ u.contents ∨ u.project.opSeq < x.seq := by
    intro records
    induction records with
    | nil => exact fun u x hx => Or.inl hx
    | cons r' rest ih =>
      intro u x hx
      have hmono : u.project.opSeq ≤ (u.replayRecord r').project.opSeq := by
        rw [Version.replayRecord_project, Project.replayRecord_opSeq]
        omega
      rcases ih (u.replayRecord r') x hx with h | h
      · unfold Version.replayRecord at h
        split at h
        · next hgt =>
          rcases List.mem_append.mp h with h | h
          · exact Or.inl h
          · rw [List.mem_singleton.mp h]; exact Or.inr hgt
        · exact Or.inl h
      · exact Or.inr (by omega)
  rcases hreplay s.journal (s.base a) r hr with h | h
  · rwa [hbase] at h
  · rw [Stored.base_opSeq, hseq] at h
    omega

/-! ## Saving -/

/-- What holds at each point of a save: the version saved is an earlier version
of the live one; once the IDB is written the stored snapshot is at least as new;
and once the journal is read nothing above the version is left out. -/
def SavePhase.Ok (stored : Stored) (tmp : Option (List JournalRecord)) (live : Version) : SavePhase → Prop
  | .begin v => Older v live
  | .idbWritten v => v.project.opSeq ≤ stored.idbSeq
  | .filtered v records => v.project.opSeq ≤ stored.idbSeq ∧
      ∀ r ∈ stored.journal, v.project.opSeq < r.seq → r ∈ records
  | .tmpWritten v => v.project.opSeq ≤ stored.idbSeq ∧ ∃ records, tmp = some records ∧
      ∀ r ∈ stored.journal, v.project.opSeq < r.seq → r ∈ records

/-- The record is covered by the snapshot or still in the journal. -/
def Kept (s : Stored) (r : JournalRecord) : Prop := r.seq ≤ s.idbSeq ∨ r ∈ s.journal

section Save
variable {stored : Stored} {tmp : Option (List JournalRecord)} {live : Version} {phase other : SavePhase}

/-- The snapshot only gets newer when a save does not replace a newer one. -/
theorem saveStep_idbSeq (hnewer : ∀ v, phase = .begin v → stored.idbSeq ≤ v.project.opSeq) :
    stored.idbSeq ≤ (saveStep stored tmp phase).1.idbSeq := by
  cases phase with
  | begin v => exact hnewer v rfl
  | idbWritten v => exact le_refl _
  | filtered v records => exact le_refl _
  | tmpWritten v => cases tmp <;> exact le_refl _

theorem saveStep_idb (hok : phase.Ok stored tmp live) (hidb : ∀ v, stored.idb = some v → Older v live) :
    ∀ v, (saveStep stored tmp phase).1.idb = some v → Older v live := by
  cases phase with
  | begin v =>
    intro w hw
    obtain rfl : v = w := Option.some.inj hw
    exact hok
  | idbWritten v => exact hidb
  | filtered v records => exact hidb
  | tmpWritten v => cases tmp <;> exact hidb

/-- A save keeps every record that was kept. -/
theorem saveStep_kept (hok : phase.Ok stored tmp live)
    (hnewer : ∀ v, phase = .begin v → stored.idbSeq ≤ v.project.opSeq) {r : JournalRecord}
    (hr : Kept stored r) : Kept (saveStep stored tmp phase).1 r := by
  have hmono : stored.idbSeq ≤ (saveStep stored tmp phase).1.idbSeq := saveStep_idbSeq hnewer
  rcases hr with hr | hr
  · exact Or.inl (hr.trans hmono)
  · cases phase with
    | begin v => exact Or.inr hr
    | idbWritten v => exact Or.inr hr
    | filtered v records => exact Or.inr hr
    | tmpWritten v =>
      obtain ⟨hv, records, rfl, hall⟩ := hok
      by_cases hlt : v.project.opSeq < r.seq
      · exact Or.inr (hall r hr hlt)
      · have hle : r.seq ≤ stored.idbSeq := by omega
        exact Or.inl hle

theorem saveStep_next (hok : phase.Ok stored tmp live) :
    ∀ next, (saveStep stored tmp phase).2.2 = some next →
      next.Ok (saveStep stored tmp phase).1 (saveStep stored tmp phase).2.1 live := by
  intro next hnext
  cases phase with
  | begin v =>
    obtain rfl : _ = next := Option.some.inj hnext
    exact le_refl v.project.opSeq
  | idbWritten v =>
    obtain rfl : _ = next := Option.some.inj hnext
    refine ⟨hok, fun r hr hlt => ?_⟩
    exact List.mem_filter.mpr ⟨hr, by simpa using hlt⟩
  | filtered v records =>
    obtain rfl : _ = next := Option.some.inj hnext
    exact ⟨hok.1, records, rfl, hok.2⟩
  | tmpWritten v => cases tmp <;> cases hnext

/-- The other task is not disturbed, unless both rewrite the journal. -/
theorem saveStep_other (hother : other.Ok stored tmp live)
    (hnewer : ∀ v, phase = .begin v → stored.idbSeq ≤ v.project.opSeq)
    (hexcl : phase.rewriting = true → other.rewriting = false) :
    other.Ok (saveStep stored tmp phase).1 (saveStep stored tmp phase).2.1 live := by
  have hmono : stored.idbSeq ≤ (saveStep stored tmp phase).1.idbSeq := saveStep_idbSeq hnewer
  cases other with
  | begin v => exact hother
  | idbWritten v =>
    have hv : v.project.opSeq ≤ stored.idbSeq := hother
    exact hv.trans hmono
  | filtered v records =>
    cases phase with
    | begin w => exact ⟨hother.1.trans hmono, hother.2⟩
    | idbWritten w => exact hother
    | filtered w records' => cases hexcl rfl
    | tmpWritten w => cases hexcl rfl
  | tmpWritten v =>
    cases phase with
    | begin w => exact ⟨hother.1.trans hmono, hother.2⟩
    | idbWritten w => exact hother
    | filtered w records' => cases hexcl rfl
    | tmpWritten w => cases hexcl rfl

/-- Only a task that has just read the journal starts rewriting it. -/
theorem saveStep_rewriting {next : SavePhase} (hnext : (saveStep stored tmp phase).2.2 = some next)
    (hrew : next.rewriting = true) : phase.rewriting = true ∨ ∃ v, phase = .idbWritten v := by
  cases phase with
  | begin v =>
    obtain rfl : _ = next := Option.some.inj hnext
    cases hrew
  | idbWritten v => exact Or.inr ⟨v, rfl⟩
  | filtered v records => exact Or.inl rfl
  | tmpWritten v => exact Or.inl rfl

end Save

/-! ## The invariant -/

/-- The record the writer has appended and not acknowledged yet. -/
def WriterPhase.record : WriterPhase → Option JournalRecord
  | .appended r => some r
  | .published r => some r
  | _ => none

structure Inv (s : State) : Prop where
  idb : ∀ v, s.stored.idb = some v → Older v s.live
  readState : Older s.readState s.live
  kept : ∀ r, r ∈ s.acknowledged ∨ s.writer.record = some r →
    r ∈ s.live.contents ∧ 0 < r.seq ∧ Kept s.stored r
  applied : ∀ r, s.writer = .applied r → r ∈ s.live.contents ∧ 0 < r.seq
  writer : ∀ phase, s.writer = .saving phase → phase.Ok s.stored s.tmp s.live
  checkpoint : ∀ v, s.writer = .saving (.begin v) → v = s.live
  closer : ∀ phase, s.closer = .saving phase → phase.Ok s.stored s.tmp s.live
  exclusive : s.writer.rewriting = true → s.closer.rewriting = false

variable {s : State}

/-- The stored snapshot is never ahead of the live project. -/
theorem Inv.idbSeq_le (h : Inv s) : s.stored.idbSeq ≤ s.live.project.opSeq := by
  cases hv : s.stored.idb with
  | none => simp [Stored.idbSeq, hv]
  | some v =>
    have := (h.idb v hv).le
    simpa [Stored.idbSeq, hv] using this

/-- What the invariant says of an acknowledged record. -/
theorem Inv.durable (h : Inv s) {r : JournalRecord} (hr : r ∈ s.acknowledged) :
    Durable s.stored r := by
  obtain ⟨hlive, hpos, hkept⟩ := h.kept r (Or.inl hr)
  by_cases hle : r.seq ≤ s.stored.idbSeq
  · cases hv : s.stored.idb with
    | none =>
      simp [Stored.idbSeq, hv] at hle
      omega
    | some v =>
      have hseq : s.stored.idbSeq = v.project.opSeq := by simp [Stored.idbSeq, hv]
      exact Or.inl ⟨v, hv, (h.idb v hv).keeps r hlive (by omega)⟩
  · exact Or.inr ⟨hkept.resolve_left hle, by omega⟩

theorem inv_start (a : ImageAnalysis) (s : Stored) (tmp : Option (List JournalRecord)) :
    Inv (start a s tmp) := by
  refine ⟨fun v hv => older_open a s hv, Older.refl _, ?_, ?_, ?_, ?_, ?_, ?_⟩
  · intro r hr
    rcases hr with hr | hr <;> cases hr
  · intro r hr; cases hr
  · intro phase hp; cases hp
  · intro v hv; cases hv
  · intro phase hp; cases hp
  · intro h; cases h

/-- A turn of the writer that changes no file leaves both saves alone. -/
theorem Inv.of_files {s s' : State} (h : Inv s) (hstored : s'.stored = s.stored)
    (hlive : s'.live = s.live) (htmp : s'.tmp = s.tmp) (hcloser : s'.closer = s.closer)
    (hreadState : Older s'.readState s.live)
    (hkept : ∀ r, r ∈ s'.acknowledged ∨ s'.writer.record = some r →
      r ∈ s.acknowledged ∨ s.writer.record = some r)
    (happlied : ∀ r, s'.writer ≠ .applied r)
    (hsave : ∀ phase, s'.writer = .saving phase → phase = .begin s.live) : Inv s' := by
  have hnot : s'.writer.rewriting = false := by
    cases hw : s'.writer with
    | saving phase => rw [hsave phase hw]; rfl
    | _ => rfl
  refine ⟨?_, ?_, ?_, ?_, ?_, ?_, ?_, ?_⟩
  · rw [hstored, hlive]; exact h.idb
  · rw [hlive]; exact hreadState
  · rw [hstored, hlive]
    exact fun r hr => h.kept r (hkept r hr)
  · exact fun r hr => absurd hr (happlied r)
  · intro phase hp
    rw [hsave phase hp, hlive]
    exact Older.refl _
  · intro v hv
    rw [hlive]
    exact SavePhase.begin.inj (hsave _ hv)
  · rw [hstored, hlive, htmp, hcloser]; exact h.closer
  · rw [hnot]
    intro hf
    cases hf

theorem inv_request (h : Inv s)
    (hseq : s.live.project.opSeq + 1 < 2 ^ 64) (op : Op) :
    Inv { s with live := s.live.apply op, writer := .applied (s.live.recordOf op) } := by
  have hmem : ∀ r ∈ s.live.contents, r ∈ (s.live.apply op).contents := fun r hr =>
    List.mem_append_left _ hr
  refine ⟨?_, h.readState.apply hseq op, ?_, ?_, ?_, ?_, ?_, ?_⟩
  · exact fun v hv => (h.idb v hv).apply hseq op
  · intro r hr
    rcases hr with hr | hr
    · obtain ⟨hlive, hpos, hkept⟩ := h.kept r (Or.inl hr)
      exact ⟨hmem r hlive, hpos, hkept⟩
    · cases hr
  · intro r hr
    obtain rfl := WriterPhase.applied.inj hr
    have hrec := (s.live.apply_opSeq op hseq).2
    exact ⟨List.mem_append_right _ (List.mem_singleton.mpr rfl), by omega⟩
  · intro phase hp; cases hp
  · intro v hv; cases hv
  · intro phase hp
    have hok := h.closer phase hp
    cases phase with
    | begin v => exact Older.apply hok hseq op
    | _ => exact hok
  · intro hf; cases hf

theorem inv_append (h : Inv s) {r : JournalRecord} (happ : s.writer = .applied r)
    (hquiet : s.closer.rewriting = false) :
    Inv { s with
      stored := { s.stored with journal := s.stored.journal ++ [r] }
      writer := .appended r } := by
  refine ⟨h.idb, h.readState, ?_, ?_, ?_, ?_, ?_, ?_⟩
  · intro x hx
    rcases hx with hx | hx
    · obtain ⟨hlive, hpos, hkept⟩ := h.kept x (Or.inl hx)
      refine ⟨hlive, hpos, ?_⟩
      rcases hkept with hk | hk
      · exact Or.inl hk
      · exact Or.inr (List.mem_append_left _ hk)
    · obtain rfl : r = x := Option.some.inj hx
      obtain ⟨hlive, hpos⟩ := h.applied r happ
      exact ⟨hlive, hpos, Or.inr (List.mem_append_right _ (List.mem_singleton.mpr rfl))⟩
  · intro x hx; cases hx
  · intro phase hp; cases hp
  · intro v hv; cases hv
  · -- The closer has not read the journal yet, so it will see this record.
    intro phase hp
    have hok := h.closer phase hp
    have hp' : s.closer = .saving phase := hp
    rw [hp'] at hquiet
    cases phase with
    | begin v => exact hok
    | idbWritten v => exact hok
    | filtered v records => cases hquiet
    | tmpWritten v => cases hquiet
  · intro hf; cases hf

theorem inv_writerSave (h : Inv s) {phase : SavePhase} (hphase : s.writer = .saving phase)
    (horder : ∀ v, phase = .idbWritten v → s.closer.rewriting = false) :
    Inv { s with
      stored := (saveStep s.stored s.tmp phase).1
      tmp := (saveStep s.stored s.tmp phase).2.1
      writer := .ofSave (saveStep s.stored s.tmp phase).2.2 } := by
  have hok := h.writer phase hphase
  have hnewer : ∀ v, phase = .begin v → s.stored.idbSeq ≤ v.project.opSeq := by
    intro v hv
    rw [h.checkpoint v (by rw [hphase, hv])]
    exact h.idbSeq_le
  have hexcl : phase.rewriting = true → s.closer.rewriting = false := by
    intro hrew
    exact h.exclusive (by rw [hphase]; exact hrew)
  refine ⟨saveStep_idb hok h.idb, h.readState, ?_, ?_, ?_, ?_, ?_, ?_⟩
  · intro r hr
    have hr' : r ∈ s.acknowledged := by
      rcases hr with hr | hr
      · exact hr
      · cases hnext : (saveStep s.stored s.tmp phase).2.2 <;> simp [hnext, WriterPhase.ofSave,
          WriterPhase.record] at hr
    obtain ⟨hlive, hpos, hkept⟩ := h.kept r (Or.inl hr')
    exact ⟨hlive, hpos, saveStep_kept hok hnewer hkept⟩
  · intro r hr
    cases hnext : (saveStep s.stored s.tmp phase).2.2 <;> simp [hnext, WriterPhase.ofSave] at hr
  · intro next hp
    have hnext : (saveStep s.stored s.tmp phase).2.2 = some next := by
      cases hn : (saveStep s.stored s.tmp phase).2.2 with
      | none => simp [hn, WriterPhase.ofSave] at hp
      | some n => simp [hn, WriterPhase.ofSave] at hp; rw [hp]
    exact saveStep_next hok next hnext
  · intro v hv
    cases phase with
    | begin w => cases hv
    | idbWritten w => cases hv
    | filtered w records => cases hv
    | tmpWritten w => cases htmp : s.tmp <;> simp [saveStep, htmp, WriterPhase.ofSave] at hv
  · intro other ho
    refine saveStep_other (h.closer other ho) hnewer fun hrew => ?_
    have ho' : s.closer = .saving other := ho
    have := hexcl hrew
    rwa [ho'] at this
  · intro hrew
    cases hn : (saveStep s.stored s.tmp phase).2.2 with
    | none => simp [hn, WriterPhase.ofSave, WriterPhase.rewriting] at hrew
    | some n =>
      have hnrew : n.rewriting = true := by
        simpa [hn, WriterPhase.ofSave, WriterPhase.rewriting] using hrew
      rcases saveStep_rewriting hn hnrew with h' | ⟨v, hv⟩
      · exact hexcl h'
      · exact horder v hv

theorem inv_closerSave (h : Inv s) {phase : SavePhase} (hphase : s.closer = .saving phase)
    (hnewer : ∀ v, phase = .begin v → s.stored.idbSeq ≤ v.project.opSeq)
    (horder : ∀ v, phase = .idbWritten v → s.writer.rewriting = false) :
    Inv { s with
      stored := (saveStep s.stored s.tmp phase).1
      tmp := (saveStep s.stored s.tmp phase).2.1
      closer := .ofSave (saveStep s.stored s.tmp phase).2.2 } := by
  have hok := h.closer phase hphase
  have hexcl : phase.rewriting = true → s.writer.rewriting = false := by
    intro hrew
    cases hw : s.writer.rewriting with
    | false => rfl
    | true =>
      have := h.exclusive hw
      rw [hphase] at this
      rw [← this]
      exact hrew.symm
  refine ⟨saveStep_idb hok h.idb, h.readState, ?_, h.applied, ?_, h.checkpoint, ?_, ?_⟩
  · intro r hr
    obtain ⟨hlive, hpos, hkept⟩ := h.kept r hr
    exact ⟨hlive, hpos, saveStep_kept hok hnewer hkept⟩
  · intro other ho
    refine saveStep_other (h.writer other ho) hnewer fun hrew => ?_
    have ho' : s.writer = .saving other := ho
    have := hexcl hrew
    rwa [ho'] at this
  · intro next hp
    have hnext : (saveStep s.stored s.tmp phase).2.2 = some next := by
      cases hn : (saveStep s.stored s.tmp phase).2.2 with
      | none => simp [hn, CloserPhase.ofSave] at hp
      | some n => simp [hn, CloserPhase.ofSave] at hp; rw [hp]
    exact saveStep_next hok next hnext
  · intro hw
    have hw' : s.writer.rewriting = true := hw
    cases hn : (saveStep s.stored s.tmp phase).2.2 with
    | none => rfl
    | some n =>
      show n.rewriting = false
      cases hrew : n.rewriting with
      | false => rfl
      | true =>
        rcases saveStep_rewriting hn hrew with h' | ⟨v, hv⟩
        · rw [hexcl h'] at hw'
          cases hw'
        · rw [horder v hv] at hw'
          cases hw'

theorem inv_step {s s' : State} {act : Action} (h : Inv s) (hok : Orderly s act)
    (hstep : step s act = some s') : Inv s' := by
  cases act with
  | request op =>
    simp only [step] at hstep
    split at hstep
    · obtain rfl := Option.some.inj hstep
      exact inv_request h hok op
    · cases hstep
  | append =>
    simp only [step] at hstep
    split at hstep
    · rename_i r happ
      obtain rfl := Option.some.inj hstep
      exact inv_append h happ hok
    · cases hstep
  | appendFails =>
    simp only [step] at hstep
    split at hstep
    · obtain rfl := Option.some.inj hstep
      refine h.of_files rfl rfl rfl rfl h.readState ?_ (by simp) (by simp)
      intro r hr
      rcases hr with hr | hr
      · exact Or.inl hr
      · cases hr
    · cases hstep
  | publish =>
    simp only [step] at hstep
    split at hstep
    · rename_i r happ
      obtain rfl := Option.some.inj hstep
      refine h.of_files rfl rfl rfl rfl (Older.refl _) ?_ (by simp) (by simp)
      intro x hx
      rw [happ]
      exact hx
    · obtain rfl := Option.some.inj hstep
      refine h.of_files rfl rfl rfl rfl (Older.refl _) ?_ (by simp) (by simp)
      intro x hx
      rcases hx with hx | hx
      · exact Or.inl hx
      · cases hx
    · cases hstep
  | acknowledge checkpoint =>
    have hafter : ∀ r, WriterPhase.afterTurn s.live checkpoint ≠ .applied r := by
      intro r
      cases checkpoint <;> simp [WriterPhase.afterTurn]
    have hsave : ∀ phase, WriterPhase.afterTurn s.live checkpoint = .saving phase →
        phase = .begin s.live := by
      intro phase hp
      cases checkpoint with
      | false => simp [WriterPhase.afterTurn] at hp
      | true => simpa [WriterPhase.afterTurn] using hp.symm
    have hnone : (WriterPhase.afterTurn s.live checkpoint).record = none := by
      cases checkpoint <;> rfl
    simp only [step] at hstep
    split at hstep
    · rename_i r hpub
      obtain rfl := Option.some.inj hstep
      refine h.of_files rfl rfl rfl rfl h.readState ?_ hafter hsave
      intro x hx
      rcases hx with hx | hx
      · rcases List.mem_append.mp hx with hx | hx
        · exact Or.inl hx
        · rw [List.mem_singleton.mp hx, hpub]
          exact Or.inr rfl
      · rw [hnone] at hx
        cases hx
    · obtain rfl := Option.some.inj hstep
      refine h.of_files rfl rfl rfl rfl h.readState ?_ hafter hsave
      intro x hx
      rcases hx with hx | hx
      · exact Or.inl hx
      · rw [hnone] at hx
        cases hx
    · cases hstep
  | writerSave =>
    simp only [step] at hstep
    split at hstep
    · rename_i phase hphase
      obtain rfl := Option.some.inj hstep
      refine inv_writerSave h hphase fun v hv => ?_
      simpa [Orderly, hphase, hv] using hok
    · cases hstep
  | load =>
    simp only [step] at hstep
    split at hstep
    · obtain rfl := Option.some.inj hstep
      refine ⟨h.idb, h.readState, h.kept, h.applied, h.writer, h.checkpoint, ?_, fun _ => rfl⟩
      intro phase hp
      obtain rfl := CloserPhase.saving.inj hp
      exact h.readState
    · cases hstep
  | closerSave =>
    simp only [step] at hstep
    split at hstep
    · rename_i phase hphase
      obtain rfl := Option.some.inj hstep
      refine inv_closerSave h hphase (fun v hv => ?_) fun v hv => ?_
      · simpa [Orderly, hphase, hv] using hok
      · simpa [Orderly, hphase, hv] using hok
    · cases hstep

/-- However the steps of the writer and of `close` are interleaved, every
acknowledged operation is in the stored snapshot or in the journal above it, as
long as the interleaving is orderly. -/
theorem acknowledged_durable (a : ImageAnalysis) (s₀ : Stored) (tmp : Option (List JournalRecord))
    (acts : List Action) (s : State) (hrun : Run.Guarded step Orderly (start a s₀ tmp) acts s) :
    ∀ r ∈ s.acknowledged, Durable s.stored r := by
  intro r hr
  exact (hrun.inv (fun _ _ _ h hok hstep => inv_step h hok hstep) (inv_start a s₀ tmp)).durable hr

/-- An edit with a checkpoint, then the project is closed. -/
def editThenClose : List Action :=
  [.request (.setComment 4096 .address "a" none), .append, .publish, .acknowledge true, .writerSave,
    .writerSave, .writerSave, .writerSave, .load, .closerSave, .closerSave, .closerSave, .closerSave]

theorem editThenClose_durable :
    ∃ s, Run.exec step (start Writer.oneFunction { idb := none, journal := [] } none) editThenClose = some s ∧
      s.acknowledged.length = 1 ∧ ∀ r ∈ s.acknowledged, Durable s.stored r := by
  refine ⟨_, rfl, rfl, acknowledged_durable Writer.oneFunction { idb := none, journal := [] } none
    editThenClose _ ?_⟩
  have hcount : (openVersion Writer.oneFunction { idb := none, journal := [] }).project.opSeq + 1 < 2 ^ 64 := by
    decide
  refine .cons hcount rfl (.cons rfl rfl (.cons True.intro rfl (.cons True.intro rfl
    (.cons True.intro rfl (.cons rfl rfl (.cons True.intro rfl (.cons True.intro rfl (.cons True.intro rfl
    (.cons ?_ rfl (.cons rfl rfl (.cons True.intro rfl (.cons True.intro rfl (.nil _)))))))))))))
  -- The snapshot `close` writes is the one the checkpoint has just written.
  exact le_refl _

/-- The project is edited while `close` is between reading the journal and
renaming its copy over it. -/
def editDuringClose : List Action :=
  [.load, .closerSave, .closerSave, .request (.setComment 4096 .address "a" none), .append, .publish,
    .acknowledge false, .closerSave, .closerSave]

/-- The edit was acknowledged; when both tasks are done it is neither in the
snapshot nor in the journal, and reopening does not have the comment. -/
theorem editDuringClose_lost :
    ∃ s, Run.exec step (start Writer.oneFunction { idb := none, journal := [] } none) editDuringClose =
        some s ∧
      s.writer = .idle ∧ s.closer = .done ∧
      s.acknowledged = [{ seq := 1, op := .setComment 4096 .address "a" none }] ∧
      s.stored.journal = [] ∧ (s.stored.idb.map Version.contents) = some [] ∧
      (∀ r ∈ s.acknowledged, ¬ Durable s.stored r) ∧
      (openProject Writer.oneFunction s.stored.disk).comments.get 4096 .address = none := by
  refine ⟨_, rfl, rfl, rfl, rfl, rfl, rfl, ?_, by decide⟩
  intro r _ hr
  rcases hr with ⟨v, hv, hmem⟩ | ⟨hmem, -⟩
  · obtain rfl := Option.some.inj hv
    cases hmem
  · cases hmem

end Windy.Close
