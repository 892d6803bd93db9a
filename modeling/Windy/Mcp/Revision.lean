import Windy.Mcp.Commit

/- Optimistic revisions: at which revision a proposal's edit is applied.

   The revision is checked against the published snapshot; the edit is applied by the writer some
   steps later, without looking at the revision again. Two calls that pass the check at the same
   revision are therefore both applied, the second one to a project it was not proposed for.

   `applied_at_expected` says when that cannot happen: no request is applied to a target while
   another call sits between its check and its own edit, and a check reads a snapshot that is not
   behind the live project. -/
namespace Windy.Commit

variable {τ : Type} [DecidableEq τ]

/-- The request at the head of a target's queue is of call `c`. -/
def Target.headIs (target : Target τ) (c : Nat) : Prop :=
  target.queue.head?.bind (fun req => req.source.call?) = some c

/-- From its check to its edit a call has the target to itself: the writer
applies no other request, and the check reads the current project. -/
def Exclusive (s : State τ) : Action τ → Prop
  | .check c => ∀ call ∈ s.calls c, ∀ p, call.phase = .resolved p →
      (s.targets p.targetId).snapshot.opSeq = (s.targets p.targetId).live.opSeq
  | .writerApply t _ => (s.targets t).live.opSeq + 1 < 2 ^ 64 ∧
      ∀ c, ∀ call ∈ s.calls c, ∀ p, call.phase.window = some p → p.targetId = t → (s.targets t).headIs c
  | _ => True

omit [DecidableEq τ] in
theorem Exclusive.counts {s : State τ} {act : Action τ} (h : Exclusive s act) : Counts s act := by
  cases act with
  | writerApply t journaled => exact h.1
  | _ => exact True.intro

/-- Every call between its check and its edit still has its revision, and so did
every edit that was applied. -/
structure AtRevision (s : State τ) : Prop where
  linked : Linked s
  window : ∀ c call p, s.calls c = some call → call.phase.window = some p →
    (s.targets p.targetId).live.opSeq = p.expectedRevision
  exact : ∀ e ∈ s.effects, e.appliedAt = e.proposal.expectedRevision
  past : ∀ e ∈ s.effects, e.appliedAt < (s.targets e.proposal.targetId).live.opSeq
  once : s.effects.Pairwise fun e e' =>
    e.proposal.targetId = e'.proposal.targetId → e.appliedAt ≠ e'.appliedAt

section Revision
variable {s : State τ}

omit [DecidableEq τ] in
/-- A step that applies nothing keeps the revisions when every call it brings
into the window has its revision. -/
theorem AtRevision.frame {s' : State τ} (h : AtRevision s) (hlinked : Linked s')
    (heffects : s'.effects = s.effects) (hlive : ∀ t, (s'.targets t).live = (s.targets t).live)
    (hwindow : ∀ c call p, s'.calls c = some call → call.phase.window = some p →
      (∃ call', s.calls c = some call' ∧ call'.phase.window = some p) ∨
        (s.targets p.targetId).live.opSeq = p.expectedRevision) : AtRevision s' := by
  refine ⟨hlinked, ?_, ?_, ?_, ?_⟩
  · intro c call p hc hp
    rw [hlive]
    rcases hwindow c call p hc hp with ⟨call', hc', hp'⟩ | hrev
    · exact h.window c call' p hc' hp'
    · exact hrev
  · rw [heffects]
    exact h.exact
  · intro e he
    rw [heffects] at he
    rw [hlive]
    exact h.past e he
  · rw [heffects]
    exact h.once

omit [DecidableEq τ] in
/-- The window after one call has moved on. -/
theorem window_setCall {s' : State τ} {c : Nat} {call : Call τ} (hcalls : s'.calls = (s.setCall c call).calls)
    (hnew : ∀ p, call.phase.window = some p → (∃ call', s.calls c = some call' ∧ call'.phase.window = some p) ∨
      (s.targets p.targetId).live.opSeq = p.expectedRevision) :
    ∀ c' call' p, s'.calls c' = some call' → call'.phase.window = some p →
      (∃ call'', s.calls c' = some call'' ∧ call''.phase.window = some p) ∨
        (s.targets p.targetId).live.opSeq = p.expectedRevision := by
  intro c' call' p hc' hp
  rw [hcalls] at hc'
  rcases setCall_cases hc' with ⟨rfl, rfl⟩ | ⟨-, hold⟩
  · exact hnew p hp
  · exact Or.inl ⟨call', hold, hp⟩

/-- Applying the head of the queue when nobody else is in the window. -/
theorem AtRevision.apply (h : AtRevision s) {t : τ} {req : Request τ} {rest : List (Request τ)}
    {journaled : Bool} (hcount : (s.targets t).live.opSeq + 1 < 2 ^ 64) {s' : State τ} (hlinked : Linked s')
    (htargets : s'.targets = (s.setTarget t ((s.targets t).afterApply req rest journaled)).targets)
    (hwindow : ∀ c call p, s'.calls c = some call → call.phase.window = some p →
      p.targetId ≠ t ∧ s.calls c = some call)
    (heffects : s'.effects = s.effects ∨ ∃ e, s'.effects = s.effects ++ [e] ∧ e.proposal.targetId = t ∧
      e.appliedAt = (s.targets t).live.opSeq ∧ e.appliedAt = e.proposal.expectedRevision) :
    AtRevision s' := by
  have hseq := applyTo_bump_opSeq req.op hcount
  have hlive : (s'.targets t).live.opSeq = (s.targets t).live.opSeq + 1 := by
    rw [htargets, setTarget_self]
    exact hseq
  have hother : ∀ t', t' ≠ t → (s'.targets t').live = (s.targets t').live := by
    intro t' ht
    rw [htargets, setTarget_ne ht]
  -- Every earlier edit of the target is further in the past now.
  have hpast : ∀ e ∈ s.effects, e.appliedAt < (s'.targets e.proposal.targetId).live.opSeq := by
    intro e he
    have hold := h.past e he
    by_cases ht : e.proposal.targetId = t
    · rw [ht] at hold ⊢
      omega
    · rw [hother _ ht]
      exact hold
  refine ⟨hlinked, ?_, ?_, ?_, ?_⟩
  · intro c call p hc hp
    obtain ⟨hne, hold⟩ := hwindow c call p hc hp
    rw [hother _ hne]
    exact h.window c call p hold hp
  · rcases heffects with heq | ⟨e, heq, -, -, hrev⟩
    · rw [heq]
      exact h.exact
    · rw [heq]
      intro e' he'
      rcases List.mem_append.mp he' with he' | he'
      · exact h.exact e' he'
      · rw [List.mem_singleton.mp he']
        exact hrev
  · rcases heffects with heq | ⟨e, heq, htarget, hat, -⟩
    · rw [heq]
      exact hpast
    · rw [heq]
      intro e' he'
      rcases List.mem_append.mp he' with he' | he'
      · exact hpast e' he'
      · rw [List.mem_singleton.mp he', htarget, hlive, hat]
        omega
  · rcases heffects with heq | ⟨e, heq, htarget, hat, -⟩
    · rw [heq]
      exact h.once
    · rw [heq]
      refine List.pairwise_append.mpr ⟨h.once, List.pairwise_singleton _ _, ?_⟩
      intro e₁ he₁ e₂ he₂ hsame
      rw [List.mem_singleton.mp he₂] at hsame ⊢
      have hlt := h.past e₁ he₁
      rw [hsame, htarget] at hlt
      omega

theorem atRevision_step {s' : State τ} {act : Action τ} (h : AtRevision s) (hok : Exclusive s act)
    (hstep : step s act = some s') : AtRevision s' := by
  have hcases := step_cases h.linked hstep
  have hlinked := linked_step h.linked hok.counts hcases
  have hsame : ∀ c call p, s.calls c = some call → call.phase.window = some p →
      (∃ call', s.calls c = some call' ∧ call'.phase.window = some p) ∨
        (s.targets p.targetId).live.opSeq = p.expectedRevision :=
    fun c call p hc hp => Or.inl ⟨call, hc, hp⟩
  cases hcases with
  | tick n => exact h.frame hlinked rfl (fun _ => rfl) hsame
  | propose hfresh hid => exact h.frame hlinked rfl (fun _ => rfl) hsame
  | closeTarget t => exact h.frame hlinked rfl (setTarget_keeps (fun x => x.live) rfl) hsame
  | directEdit t op => exact h.frame hlinked rfl (setTarget_keeps (fun x => x.live) rfl) hsame
  | call hnew => exact h.frame hlinked rfl (fun _ => rfl) (window_setCall rfl fun p hp => by cases hp)
  | @lookup c call hcall hphase =>
    refine h.frame hlinked rfl (fun _ => rfl) (window_setCall rfl fun p hp => ?_)
    rw [lookupPhase_window] at hp
    cases hp
  | @check c call p hcall hphase =>
    refine h.frame hlinked rfl (fun _ => rfl) (window_setCall rfl fun q hq => Or.inr ?_)
    rcases checkPhase_cases s call p with ⟨r, hr⟩ | ⟨hg, -, hrev⟩
    · simp [hr, CallPhase.window] at hq
    · obtain rfl : p = q := by simpa [hg, CallPhase.window] using hq
      rw [← hok call hcall p hphase]
      exact hrev
  | @send c call p hcall hphase =>
    refine h.frame hlinked rfl (setTarget_keeps (fun x => x.live) rfl) (window_setCall rfl fun q hq => Or.inl ?_)
    exact ⟨call, hcall, by rw [hphase]; exact hq⟩
  | sendClosed hcall hphase =>
    exact h.frame hlinked rfl (fun _ => rfl) (window_setCall rfl fun q hq => by cases hq)
  | @applyDirect t journaled op rest hidle hqueue =>
    refine h.apply hok.1 hlinked rfl ?_ (Or.inl rfl)
    intro c call p hc hp
    refine ⟨fun ht => ?_, hc⟩
    have hhead := hok.2 c call hc p hp ht
    simp [Target.headIs, hqueue, Source.call?] at hhead
  | @applyCommit t journaled c p key op rest call hidle hqueue hcall =>
    obtain ⟨ht, call', hcall', hphase, -⟩ := h.linked.queue t _
      (by rw [hqueue]; exact List.mem_cons_self) c p key rfl
    obtain rfl : call = call' := Option.some.inj (hcall.symm.trans hcall')
    have hrev := h.window c call p hcall (by rw [hphase]; rfl)
    rw [ht] at hrev
    refine h.apply hok.1 hlinked rfl ?_ (Or.inr ⟨_, rfl, ht, rfl, hrev⟩)
    intro c' call' p' hc' hp'
    rcases setCall_cases hc' with ⟨rfl, rfl⟩ | ⟨hne, hold⟩
    · cases hp'
    · refine ⟨fun ht' => hne ?_, hold⟩
      have hhead := hok.2 c' call' hold p' hp' ht'
      simpa [Target.headIs, hqueue, Source.call?] using hhead.symm
  | writerPublish hwriter => exact h.frame hlinked rfl (setTarget_keeps (fun x => x.live) rfl) hsame
  | answerDirect hwriter => exact h.frame hlinked rfl (setTarget_keeps (fun x => x.live) rfl) hsame
  | answerCommit hwriter hcall =>
    exact h.frame hlinked rfl (setTarget_keeps (fun x => x.live) rfl) (window_setCall rfl fun q hq => by cases hq)
  | finish hcall hphase hresults =>
    exact h.frame hlinked rfl (fun _ => rfl) (window_setCall rfl fun q hq => by cases hq)
  | finishFailed hcall hphase =>
    exact h.frame hlinked rfl (fun _ => rfl) (window_setCall rfl fun q hq => by cases hq)

end Revision

/-- Every edit that takes effect is applied at the revision it was proposed for,
and at most one of those proposed at a revision of a target takes effect, in every
run in which calls have the target to themselves from check to edit. -/
theorem applied_at_expected (projects : τ → Project) (acts : List (Action τ)) (s : State τ)
    (hrun : Run.Guarded step Exclusive (start projects) acts s) :
    (∀ e ∈ s.effects, e.appliedAt = e.proposal.expectedRevision) ∧
      s.effects.Pairwise fun e e' => ¬ (e.proposal.targetId = e'.proposal.targetId ∧
        e.proposal.expectedRevision = e'.proposal.expectedRevision) := by
  have hstart : AtRevision (start projects) := by
    refine ⟨linked_start projects, ?_, ?_, ?_, List.Pairwise.nil⟩
    · intro c call p hc; cases hc
    · intro e he; cases he
    · intro e he; cases he
  have h := hrun.inv (fun _ _ _ h hok hstep => atRevision_step h hok hstep) hstart
  refine ⟨h.exact, h.once.imp_of_mem ?_⟩
  intro e e' he he' hne hsame
  exact hne hsame.1 (by rw [h.exact e he, h.exact e' he', hsame.2])

/-- Two proposals at the same revision, committed one after the other. -/
def commitInTurn : List (Action Unit) :=
  [.propose "p1" "i1" () 4096 .function "main", .propose "p2" "i2" () 4096 .functionComment "entry",
    .call 1 "p1" 0 "key-0001", .lookup 1, .check 1, .send 1, .writerApply () true, .writerPublish (),
    .writerAnswer (), .finish 1 none, .call 2 "p2" 0 "key-0002", .lookup 2, .check 2]

theorem commitInTurn_exclusive :
    ∃ s, Run.exec step (start fun _ : Unit => Project.ofAnalysis Writer.oneFunction) commitInTurn = some s ∧
      s.effects.length = 1 ∧ ∀ e ∈ s.effects, e.appliedAt = e.proposal.expectedRevision := by
  refine ⟨_, rfl, rfl, (applied_at_expected (fun _ => Project.ofAnalysis Writer.oneFunction)
    commitInTurn _ ?_).1⟩
  -- Only the first call has been made when the writer applies its edit.
  refine .cons True.intro rfl (.cons True.intro rfl (.cons True.intro rfl (.cons True.intro rfl
    (.cons ?_ rfl (.cons True.intro rfl (.cons ⟨by decide, ?_⟩ rfl (.cons True.intro rfl
    (.cons True.intro rfl (.cons True.intro rfl (.cons True.intro rfl (.cons True.intro rfl
    (.cons ?_ rfl (.nil _)))))))))))))
  · intro call hcall p hphase
    rfl
  · intro c call hcall p hp ht
    by_cases hc : c = 1
    · subst hc
      rfl
    · have hnone : (none : Option (Call Unit)) = some call := by
        rw [← hcall]
        simp [State.setCall, State.setTarget, start, Function.update_of_ne hc]
      cases hnone
  · intro call hcall p hphase
    rfl

/-- Both calls pass the check before either edit is applied. -/
def commitTogether : List (Action Unit) :=
  [.propose "p1" "i1" () 4096 .function "main", .propose "p2" "i2" () 4096 .functionComment "entry",
    .call 1 "p1" 0 "key-0001", .lookup 1, .call 2 "p2" 0 "key-0002", .lookup 2, .check 1, .check 2,
    .send 1, .send 2, .writerApply () true, .writerPublish (), .writerAnswer (), .writerApply () true]

/-- The second edit is applied to a project at revision 1 that it was proposed
for at revision 0. -/
theorem commitTogether_stale :
    ∃ s, Run.exec step (start fun _ : Unit => Project.ofAnalysis Writer.oneFunction) commitTogether =
        some s ∧
      s.effects.map (fun e => (e.proposal.id, e.proposal.expectedRevision, e.appliedAt)) =
        [("p1", 0, 0), ("p2", 0, 1)] := by
  exact ⟨_, rfl, by decide⟩

end Windy.Commit
