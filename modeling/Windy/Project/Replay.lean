import Windy.Project.Persistence

/- Applying a recorded operation again.

   A journal record holds the operation with its captured old values, read back from JSON. Applied
   to the state it was first applied to, it does the same again (`replay_applied`), except for what
   it stamps with the operation counter: an alias event for a rename that replaces a name, and the
   memory card it stores. `Quiet` says that an operation stamps nothing. -/
namespace Windy

namespace Op

/-- What every leaf keeps, an operation keeps. -/
theorem applyTo_keeps {P : Project → Prop} (hleaf : ∀ l : Op, l.isLeaf = true → ∀ p, P p → P (l.applyTo p))
    (op : Op) {p : Project} (hp : P p) : P (op.applyTo p) := by
  have hlist : ∀ ls : List Op, (∀ l ∈ ls, l.isLeaf = true) → ∀ p, P p → P (captureAll ls p).2 := by
    intro ls
    induction ls with
    | nil => exact fun _ p hp => hp
    | cons l ls ih =>
      intro hls p hp
      exact ih (fun x hx => hls x (List.mem_cons_of_mem l hx)) _
        (hleaf l (hls l List.mem_cons_self) p hp)
  rw [applyTo_eq_leaves]
  exact hlist op.leaves (isLeaf_of_mem_leaves op) p hp

/-- No operation touches the counter or the functions, takes a symbol away or
clears the focus. -/
theorem applyTo_frame (op : Op) (p : Project) :
    (op.applyTo p).opSeq = p.opSeq ∧ (op.applyTo p).functions = p.functions ∧
      (∀ va ∈ p.symbols, va ∈ (op.applyTo p).symbols) ∧
      (p.focus.isSome = true → (op.applyTo p).focus.isSome = true) := by
  refine applyTo_keeps (P := fun q => q.opSeq = p.opSeq ∧ q.functions = p.functions ∧
    (∀ va ∈ p.symbols, va ∈ q.symbols) ∧ (p.focus.isSome = true → q.focus.isSome = true))
    ?_ op ⟨rfl, rfl, fun _ h => h, id⟩
  intro l hl q hq
  obtain ⟨hseq, hfun, hsym, hfocus⟩ := hq
  cases l with
  | renameSymbol va name kind oldName oldKind =>
    refine ⟨hseq, hfun, fun v hv => ?_, hfocus⟩
    exact Finmap.mem_insert.mpr (Or.inr (hsym v hv))
  | setFocus va oldFocus =>
    simp only [applyTo, captureAndApply, Project.setFocus_eq]
    refine ⟨hseq, hfun, hsym, fun h => ?_⟩
    split
    · rfl
    · exact hfocus h
  | setFunctionMemory va card old =>
    simp only [applyTo, captureAndApply, Project.setFunctionMemory_eq]
    exact ⟨hseq, hfun, hsym, hfocus⟩
  | batch ops => cases hl
  | _ => exact ⟨hseq, hfun, hsym, hfocus⟩

/-! ## Through JSON -/

mutual

theorem leaves_viaJson : ∀ op : Op, op.viaJson.leaves = op.leaves.map viaJson
  | .renameSymbol .. => by simp [viaJson, leaves]
  | .setComment .. => by simp [viaJson, leaves]
  | .setFocus .. => by simp [viaJson, leaves]
  | .setGlobalType .. => by simp [viaJson, leaves]
  | .setFunctionSignature .. => by simp [viaJson, leaves]
  | .setStackLocalType .. => by simp [viaJson, leaves]
  | .setStackLocalName .. => by simp [viaJson, leaves]
  | .setParamName .. => by simp [viaJson, leaves]
  | .setFunctionMemory .. => by simp [viaJson, leaves]
  | .batch ops => by
    rw [viaJson, leaves, leaves]
    exact leavesAll_viaJson ops

theorem leavesAll_viaJson : ∀ ops : List Op, leavesAll (viaJsonAll ops) = (leavesAll ops).map viaJson
  | [] => by simp [viaJsonAll, leavesAll]
  | op :: rest => by
    rw [viaJsonAll, leavesAll, leavesAll, leaves_viaJson op, leavesAll_viaJson rest, List.map_append]

end

/-! ## Stamps -/

/-- The leaf stamps nothing when `p` is the state the operation starts from and
`pre` are the leaves before it: a rename of an address that had no name, or a
card that clears. -/
def Quiet (p : Project) (pre : List Op) : Op → Prop
  | .renameSymbol va _ _ oldName _ =>
    oldName = none ∧ va ∉ p.symbols ∧ ∀ l ∈ pre, ∀ name kind oldName oldKind,
      l ≠ renameSymbol va name kind oldName oldKind
  | .setFunctionMemory _ card _ => card.isClear = true
  | _ => True

/-- The operation stamps nothing when applied to `p`. -/
def StampsNothing (op : Op) (p : Project) : Prop :=
  ∀ pre l post, op.leaves = pre ++ l :: post → l.Quiet p pre

/-- A quiet leaf does the same at every counter, first applied or read back. -/
theorem replay_leaf {l : Op} (hl : l.isLeaf = true) {p : Project} (hq : l.Quiet p []) (n : Nat) :
    ((l.applied (p.withSeq n)).viaJson).applyTo p =
      (l.applyTo (p.withSeq n)).withSeq p.opSeq := by
  cases l with
  | renameSymbol va name kind oldName oldKind =>
    obtain ⟨rfl, hva, -⟩ := hq
    have hnone : p.symbols.lookup va = none := Finmap.lookup_eq_none.mpr hva
    simp [applied, applyTo, captureAndApply, viaJson, Project.symbolName, hnone,
      Project.renameSymbol, Project.withSeq]
  | setFunctionMemory va card old =>
    have hclear : card.isClear = true := hq
    simp [applied, applyTo, captureAndApply, viaJson, Project.setFunctionMemory, hclear,
      Project.withSeq]
  | setFocus va oldFocus =>
    simp [applied, applyTo, captureAndApply, viaJson, Project.setFocus_eq, Project.hasFunction,
      Project.withSeq]
  | batch ops => cases hl
  | _ => simp [applied, applyTo, captureAndApply, viaJson, Project.upsertFrameVar,
      Project.frameOrDefault, Project.setParamName, Project.signatureFor, Project.defaultSignature,
      Project.symbolName, Project.withSeq]

/-- A leaf keeps quiet what comes after it. -/
theorem quiet_next {l x : Op} (hl : l.isLeaf = true) {p q : Project} {pre : List Op}
    (hq : q.symbols = p.symbols) (hx : x.Quiet p (l :: pre)) : x.Quiet (l.applyTo q) pre := by
  cases x with
  | renameSymbol va name kind oldName oldKind =>
    obtain ⟨hold, hva, hpre⟩ := hx
    refine ⟨hold, ?_, fun y hy => hpre y (List.mem_cons_of_mem l hy)⟩
    rw [← hq] at hva
    cases l with
    | renameSymbol va' name' kind' oldName' oldKind' =>
      have hne : va ≠ va' := by
        intro h
        exact hpre _ List.mem_cons_self name' kind' oldName' oldKind' (by rw [h])
      exact fun h => (Finmap.mem_insert.mp h).elim hne hva
    | setFocus va' oldFocus => simpa [applyTo, captureAndApply, Project.setFocus_eq] using hva
    | setFunctionMemory va' card old =>
      simpa [applyTo, captureAndApply, Project.setFunctionMemory_eq] using hva
    | batch ops => cases hl
    | _ => exact hva
  | setFunctionMemory va card old => exact hx
  | _ => exact True.intro

/-- The recorded leaves, read back and applied where the counter has not moved
yet, do what they did live. -/
theorem replay_leaves {ls : List Op} (hls : ∀ l ∈ ls, l.isLeaf = true) {p : Project}
    (hq : ∀ pre l post, ls = pre ++ l :: post → l.Quiet p pre) (n : Nat) :
    (captureAll ((captureAll ls (p.withSeq n)).1.map viaJson) p).2 =
      (captureAll ls (p.withSeq n)).2.withSeq p.opSeq := by
  induction ls generalizing p with
  | nil => rfl
  | cons l rest ih =>
    have hl : l.isLeaf = true := hls l List.mem_cons_self
    have hhead := replay_leaf hl (hq [] l rest rfl) n
    have hseq : (l.applyTo (p.withSeq n)).opSeq = n := (applyTo_frame l _).1
    -- The counter is the only difference between the two states the rest starts from.
    have hnext : ((l.applyTo (p.withSeq n)).withSeq p.opSeq).withSeq n = l.applyTo (p.withSeq n) :=
      Project.withSeq_eq_self hseq
    have hquiet : ∀ pre x post, rest = pre ++ x :: post →
        x.Quiet ((l.applyTo (p.withSeq n)).withSeq p.opSeq) pre := by
      intro pre x post heq
      have hx := hq (l :: pre) x post (by rw [heq]; rfl)
      have := quiet_next hl (q := p.withSeq n) rfl hx
      cases x <;> exact this
    have htail := ih (fun x hx => hls x (List.mem_cons_of_mem l hx)) hquiet
    rw [hnext, Project.withSeq_opSeq] at htail
    show (captureAll ((captureAll rest (l.applyTo (p.withSeq n))).1.map viaJson)
      ((l.applied (p.withSeq n)).viaJson.applyTo p)).2 = _
    rw [hhead]
    exact htail

/-- Replaying the record of an operation that stamps nothing gives the live
project, up to the counter. -/
theorem replay_applied {op : Op} {p : Project} (h : op.StampsNothing p) (n : Nat) :
    ((op.applied (p.withSeq n)).viaJson).applyTo p =
      (op.applyTo (p.withSeq n)).withSeq p.opSeq := by
  rw [applyTo_eq_leaves, leaves_viaJson, applied_leaves, applyTo_eq_leaves op]
  exact replay_leaves (isLeaf_of_mem_leaves op) h n

end Op

/-! ## What the analysis found -/

/-- The project still holds what analyzing the image found: a symbol at each
address that had one, the functions, and a focus. -/
structure Project.Extends (p : Project) (a : ImageAnalysis) : Prop where
  symbols : ∀ va ∈ a.symbols, va ∈ p.symbols
  focus : p.focus.isSome = true
  functions : p.functions = a.functions

namespace Project.Extends
variable {p : Project} {a : ImageAnalysis}

theorem ofAnalysis (a : ImageAnalysis) : (Project.ofAnalysis a).Extends a :=
  ⟨fun _ h => h, rfl, rfl⟩

theorem applyTo (h : p.Extends a) (op : Op) : (op.applyTo p).Extends a := by
  obtain ⟨-, hfun, hsym, hfocus⟩ := op.applyTo_frame p
  exact ⟨fun va hva => hsym va (h.symbols va hva), hfocus h.focus, hfun.trans h.functions⟩

theorem withSeq (h : p.Extends a) (n : Nat) : (p.withSeq n).Extends a :=
  ⟨h.symbols, h.focus, h.functions⟩

theorem replay (h : p.Extends a) (records : List JournalRecord) : (p.replay records).Extends a := by
  induction records generalizing p with
  | nil => exact h
  | cons r rest ih =>
    apply ih
    unfold replayRecord
    split
    · exact (h.applyTo r.op).withSeq r.seq
    · exact h

theorem snapshot (h : p.Extends a) (st : ProjectState) : (st.apply p).Extends a := by
  unfold ProjectState.apply
  split
  · exact h
  · refine ⟨fun va hva => Finmap.mem_union.mpr (Or.inr (h.symbols va hva)), ?_, h.functions⟩
    show (if st.focus.isSome then st.focus else p.focus).isSome = true
    split
    · assumption
    · exact h.focus

theorem openProject (a : ImageAnalysis) (d : Disk) : (openProject a d).Extends a := by
  unfold Windy.openProject
  apply replay
  cases d.idb with
  | none => exact ofAnalysis a
  | some st => exact (ofAnalysis a).snapshot st

/-- The snapshot of a project, applied to the fresh analysis, is the project. -/
theorem apply_fromProject (h : p.Extends a) :
    (ProjectState.fromProject p).apply (Project.ofAnalysis a) = p := by
  have hsym : p.symbols ∪ a.symbols = p.symbols := by
    apply Finmap.ext_lookup
    intro va
    by_cases hva : va ∈ p.symbols
    · exact Finmap.lookup_union_left hva
    · have ha : va ∉ a.symbols := fun hm => hva (h.symbols va hm)
      rw [Finmap.lookup_union_right hva, Finmap.lookup_eq_none.mpr ha, Finmap.lookup_eq_none.mpr hva]
  have hempty : ∀ m : Map String, m ∪ ∅ = m := fun m => Finmap.union_empty
  have hfocus := h.focus
  have hfun := h.functions
  obtain ⟨symbols, ⟨byAddr, byFunction⟩, globals, sigs, frames, memory, aliases, focus, seq, functions⟩ := p
  have hversion : ¬ (ProjectState.currentVersion ≠ 2 ∧
      ProjectState.currentVersion ≠ ProjectState.currentVersion) := by decide
  simp only [ProjectState.fromProject, ProjectState.apply, Project.ofAnalysis, if_neg hversion, hsym,
    hempty, if_pos hfocus, ← hfun]

end Project.Extends

end Windy
