import Windy.Mcp.Commit

/- Idempotency: how often the edit of a proposal, and an edit under a key, is applied.

   The cache of results is looked up before the edit and filled after it, and it is keyed by target
   and idempotency key only. What keeps a retry from being applied again once the entry is gone is
   the revision check: the first edit has moved the project on.

   `applied_once` says when this is enough: a key is not shared by proposals of one target, and a
   call does not pass its check while another call for the same proposal is under way. -/
namespace Windy.Commit

variable {τ : Type} [DecidableEq τ]

/-- The call is past its check and its edit is not answered yet. -/
def CallPhase.underWay : CallPhase τ → Option (ChangeProposal τ)
  | .granted p => some p
  | .queued p => some p
  | .edited p => some p
  | _ => none

omit [DecidableEq τ] in
theorem CallPhase.underWay_of_window {phase : CallPhase τ} {p : ChangeProposal τ} (h : phase.window = some p) :
    phase.underWay = some p := by
  cases phase with
  | granted q => exact h
  | queued q => exact h
  | _ => cases h

/-- The result is of the proposal. -/
def Response.reports (proposalId : String) : Response → Prop
  | .error _ _ _ _ => True
  | .success pid _ _ _ => pid = proposalId

/-- Keys are not shared by proposals of a target, and a proposal has one call
under way at a time: a cached result is of the proposal asked for, and where a
call passes its check neither an edit of another proposal nor a waiting call has
its key, and no other call for its proposal is under way. -/
def Unshared (s : State τ) : Action τ → Prop
  | .lookup c => ∀ call ∈ s.calls c, ∀ p ∈ s.proposals call.proposalId,
      ∀ r ∈ s.editResults.lookup (p.targetId, call.key), r.reports p.id
  | .check c => ∀ call ∈ s.calls c, ∀ p, call.phase = .resolved p → s.checkPhase call p = .granted p →
      (∀ e ∈ s.effects, e.proposal.targetId = p.targetId → e.key = call.key → e.proposal.id = p.id) ∧
      ∀ c' ≠ c, ∀ call' ∈ s.calls c', ∀ p', call'.phase.underWay = some p' → p'.id ≠ p.id ∧
        (call'.phase.window = some p' → p'.targetId = p.targetId → call'.key ≠ call.key)
  | .writerApply t _ => (s.targets t).live.opSeq + 1 < 2 ^ 64
  | _ => True

theorem Unshared.counts {s : State τ} {act : Action τ} (h : Unshared s act) : Counts s act := by
  cases act with
  | writerApply t journaled => exact h
  | _ => exact True.intro

/-- No proposal and no key is used twice, by the applied edits and the calls that
wait for theirs; and an applied edit is either still being answered or visible in
the snapshot's revision. -/
structure OneEdit (s : State τ) : Prop where
  linked : Linked s
  issued : ∀ e ∈ s.effects, s.proposals e.proposal.id = some e.proposal
  proposals : s.effects.Pairwise fun e e' => e.proposal.id ≠ e'.proposal.id
  keys : s.effects.Pairwise fun e e' => ¬ (e.proposal.targetId = e'.proposal.targetId ∧ e.key = e'.key)
  past : ∀ e ∈ s.effects, e.proposal.expectedRevision < (s.targets e.proposal.targetId).live.opSeq
  window : ∀ c call p, s.calls c = some call → call.phase.window = some p →
    p.expectedRevision ≤ (s.targets p.targetId).live.opSeq ∧
      ∀ e ∈ s.effects, e.proposal.id ≠ p.id ∧ ¬ (e.proposal.targetId = p.targetId ∧ e.key = call.key)
  alone : ∀ c call p c' call' p', s.calls c = some call → call.phase.window = some p →
    s.calls c' = some call' → call'.phase.window = some p' → c ≠ c' →
      p.id ≠ p'.id ∧ ¬ (p.targetId = p'.targetId ∧ call.key = call'.key)
  visible : ∀ e ∈ s.effects,
    (∃ call, s.calls e.call = some call ∧ call.phase = .edited e.proposal) ∨
      e.proposal.expectedRevision < (s.targets e.proposal.targetId).snapshot.opSeq

section OneEdit
variable {s : State τ}

omit [DecidableEq τ] in
/-- A step that applies nothing and lets no call pass its check. -/
theorem OneEdit.frame {s' : State τ} (h : OneEdit s) (hlinked : Linked s')
    (heffects : s'.effects = s.effects) (hlive : ∀ t, (s.targets t).live.opSeq ≤ (s'.targets t).live.opSeq)
    (hproposals : ∀ id p, s.proposals id = some p → s'.proposals id = some p)
    (hwindow : ∀ c call p, s'.calls c = some call → call.phase.window = some p →
      ∃ call', s.calls c = some call' ∧ call'.phase.window = some p ∧ call'.key = call.key)
    (hvisible : ∀ e ∈ s.effects,
      (∃ call, s'.calls e.call = some call ∧ call.phase = .edited e.proposal) ∨
        e.proposal.expectedRevision < (s'.targets e.proposal.targetId).snapshot.opSeq) : OneEdit s' := by
  refine ⟨hlinked, ?_, ?_, ?_, ?_, ?_, ?_, ?_⟩
  · rw [heffects]
    exact fun e he => hproposals _ _ (h.issued e he)
  · rw [heffects]
    exact h.proposals
  · rw [heffects]
    exact h.keys
  · rw [heffects]
    exact fun e he => Nat.lt_of_lt_of_le (h.past e he) (hlive _)
  · intro c call p hc hp
    obtain ⟨call', hc', hp', hkey⟩ := hwindow c call p hc hp
    obtain ⟨hrev, hunspent⟩ := h.window c call' p hc' hp'
    rw [heffects, ← hkey]
    exact ⟨Nat.le_trans hrev (hlive _), hunspent⟩
  · intro c call p c' call' p' hc hp hc' hp' hne
    obtain ⟨old, hold, hphase, hkey⟩ := hwindow c call p hc hp
    obtain ⟨old', hold', hphase', hkey'⟩ := hwindow c' call' p' hc' hp'
    rw [← hkey, ← hkey']
    exact h.alone c old p c' old' p' hold hphase hold' hphase' hne
  · rw [heffects]
    exact hvisible

omit [DecidableEq τ] in
/-- One call moves on to a phase that waits for nothing new. -/
theorem OneEdit.setCall {s' : State τ} {c : Nat} {call : Call τ} (h : OneEdit s) (hlinked : Linked s')
    (heffects : s'.effects = s.effects) (hlive : ∀ t, (s'.targets t).live = (s.targets t).live)
    (hsnapshot : ∀ t, (s'.targets t).snapshot = (s.targets t).snapshot)
    (hproposals : s'.proposals = s.proposals) (hcalls : s'.calls = (s.setCall c call).calls)
    (hwindow : ∀ p, call.phase.window = some p →
      ∃ call', s.calls c = some call' ∧ call'.phase.window = some p ∧ call'.key = call.key)
    (hedited : ∀ e ∈ s.effects, ∀ call' ∈ s.calls c, call'.phase = .edited e.proposal →
      e.proposal.expectedRevision < (s.targets e.proposal.targetId).snapshot.opSeq) : OneEdit s' := by
  refine h.frame hlinked heffects (fun t => by rw [hlive]) (by rw [hproposals]; exact fun _ _ hp => hp) ?_ ?_
  · intro c' call' p hc' hp
    rw [hcalls] at hc'
    rcases setCall_cases hc' with ⟨rfl, rfl⟩ | ⟨-, hold⟩
    · exact hwindow p hp
    · exact ⟨call', hold, hp, rfl⟩
  · intro e he
    rw [hsnapshot]
    rcases h.visible e he with ⟨call', hc', hphase⟩ | hseen
    · by_cases heq : e.call = c
      · rw [heq] at hc'
        exact Or.inr (hedited e he call' hc' hphase)
      · refine Or.inl ⟨call', ?_, hphase⟩
        rw [hcalls, setCall_ne heq]
        exact hc'
    · exact Or.inr hseen

/-- A target's queue or writer moves on, and with it at most the revisions. -/
theorem OneEdit.setTarget (h : OneEdit s) {t : τ} {target : Target τ} (hlinked : Linked (s.setTarget t target))
    (hlive : (s.targets t).live.opSeq ≤ target.live.opSeq)
    (hsnapshot : (s.targets t).snapshot.opSeq ≤ target.snapshot.opSeq) : OneEdit (s.setTarget t target) := by
  refine h.frame hlinked rfl ?_ (fun _ _ hp => hp) (fun c call p hc hp => ⟨call, hc, hp, rfl⟩) ?_
  · exact setTarget_forall (P := fun t' x => (s.targets t').live.opSeq ≤ x.live.opSeq) hlive fun _ => le_refl _
  · intro e he
    refine (h.visible e he).imp_right fun hseen => Nat.lt_of_lt_of_le hseen ?_
    exact setTarget_forall (P := fun t' x => (s.targets t').snapshot.opSeq ≤ x.snapshot.opSeq) hsnapshot
      (fun _ => le_refl _) e.proposal.targetId

omit [DecidableEq τ] in
/-- A call whose check passes is for a proposal that has not been applied: an
applied one is either under way still or has moved the snapshot on. -/
theorem OneEdit.unapplied (h : OneEdit s) {c : Nat} {call : Call τ} {p : ChangeProposal τ}
    (hcall : s.calls c = some call) (hphase : call.phase = .resolved p)
    (hrev : (s.targets p.targetId).snapshot.opSeq = p.expectedRevision)
    (hother : ∀ c' ≠ c, ∀ call' ∈ s.calls c', ∀ p', call'.phase.underWay = some p' → p'.id ≠ p.id) :
    ∀ e ∈ s.effects, e.proposal.id ≠ p.id := by
  intro e he hid
  have hprop := h.linked.proposal c call p hcall (by rw [hphase]; rfl)
  have hsame : e.proposal = p := by
    have hissued := h.issued e he
    rw [hid, h.linked.ids _ _ hprop, hprop] at hissued
    exact (Option.some.inj hissued).symm
  rcases h.visible e he with ⟨call', hc', hedited⟩ | hseen
  · refine hother e.call ?_ call' hc' e.proposal (by rw [hedited]; rfl) hid
    intro heq
    rw [heq, hcall] at hc'
    obtain rfl := Option.some.inj hc'
    rw [hphase] at hedited
    cases hedited
  · rw [hsame] at hseen
    omega

/-- A call passes its check. -/
theorem OneEdit.grant (h : OneEdit s) {c : Nat} {call : Call τ} {p : ChangeProposal τ}
    (hcall : s.calls c = some call) (hphase : call.phase = .resolved p) (hok : Unshared s (.check c))
    (hgrant : s.checkPhase call p = .granted p)
    (hrev : (s.targets p.targetId).snapshot.opSeq = p.expectedRevision)
    (hlinked : Linked (s.setCall c { call with phase := .granted p })) :
    OneEdit (s.setCall c { call with phase := .granted p }) := by
  obtain ⟨hkeys, hother⟩ := hok call hcall p hphase hgrant
  have hunapplied := h.unapplied hcall hphase hrev
    fun c' hne call' hc' p' hp' => (hother c' hne call' hc' p' hp').1
  have hlive := h.linked.snapshot p.targetId
  -- The new call against one that was waiting before it.
  have hapart : ∀ c' call' p', c' ≠ c → s.calls c' = some call' → call'.phase.window = some p' →
      p'.id ≠ p.id ∧ ¬ (p'.targetId = p.targetId ∧ call'.key = call.key) := by
    intro c' call' p' hne hc' hp'
    obtain ⟨hid, hkey⟩ := hother c' hne call' hc' p' (CallPhase.underWay_of_window hp')
    exact ⟨hid, fun hsame => hkey hp' hsame.1 hsame.2⟩
  refine ⟨hlinked, h.issued, h.proposals, h.keys, h.past, ?_, ?_, ?_⟩
  · intro c' call' p' hc' hp'
    rcases setCall_cases hc' with ⟨rfl, rfl⟩ | ⟨-, hold⟩
    · obtain rfl : p = p' := Option.some.inj hp'
      refine ⟨by show p.expectedRevision ≤ (s.targets p.targetId).live.opSeq; omega, ?_⟩
      intro e he
      exact ⟨hunapplied e he, fun hsame => hunapplied e he (hkeys e he hsame.1 hsame.2)⟩
    · exact h.window c' call' p' hold hp'
  · intro c₁ call₁ p₁ c₂ call₂ p₂ hc₁ hp₁ hc₂ hp₂ hne
    rcases setCall_cases hc₁ with ⟨rfl, rfl⟩ | ⟨hne₁, hold₁⟩
    · rcases setCall_cases hc₂ with ⟨rfl, rfl⟩ | ⟨hne₂, hold₂⟩
      · exact absurd rfl hne
      · obtain rfl : p = p₁ := Option.some.inj hp₁
        obtain ⟨hid, hkey⟩ := hapart c₂ call₂ p₂ hne₂ hold₂ hp₂
        exact ⟨fun heq => hid heq.symm, fun hsame => hkey ⟨hsame.1.symm, hsame.2.symm⟩⟩
    · rcases setCall_cases hc₂ with ⟨rfl, rfl⟩ | ⟨hne₂, hold₂⟩
      · obtain rfl : p = p₂ := Option.some.inj hp₂
        exact hapart c₁ call₁ p₁ hne₁ hold₁ hp₁
      · exact h.alone c₁ call₁ p₁ c₂ call₂ p₂ hold₁ hp₁ hold₂ hp₂ hne
  · intro e he
    rcases h.visible e he with ⟨call', hc', hedited⟩ | hseen
    · refine Or.inl ⟨call', ?_, hedited⟩
      rw [setCall_ne]
      · exact hc'
      · intro heq
        rw [heq, hcall] at hc'
        obtain rfl := Option.some.inj hc'
        rw [hphase] at hedited
        cases hedited
    · exact Or.inr hseen

/-- The writer applies the edit of a call. -/
theorem OneEdit.apply (h : OneEdit s) {t : τ} {journaled : Bool} {c : Nat} {p : ChangeProposal τ}
    {key : String} {op : Op} {rest : List (Request τ)} {call : Call τ} {s' : State τ}
    (hqueue : (s.targets t).queue = { source := .commit c p key, op := op } :: rest)
    (hcall : s.calls c = some call) (hcount : (s.targets t).live.opSeq + 1 < 2 ^ 64) (hlinked : Linked s')
    (htargets : s'.targets = (s.setTarget t ((s.targets t).afterApply { source := .commit c p key, op := op }
      rest journaled)).targets)
    (hproposals : s'.proposals = s.proposals)
    (hcalls : s'.calls = (s.setCall c { call with phase := .edited p }).calls)
    (heffects : s'.effects = s.effects ++
      [{ call := c, proposal := p, key := key, appliedAt := (s.targets t).live.opSeq }]) : OneEdit s' := by
  obtain ⟨ht, call', hcall', hphase, hkey⟩ := h.linked.queue t _
    (by rw [hqueue]; exact List.mem_cons_self) c p key rfl
  obtain rfl : call = call' := Option.some.inj (hcall.symm.trans hcall')
  have hwaiting : call.phase.window = some p := by rw [hphase]; rfl
  have hprop := h.linked.proposal c call p hcall (by rw [hphase]; rfl)
  obtain ⟨hrev, hunspent⟩ := h.window c call p hcall hwaiting
  rw [ht] at hrev
  have hseq := applyTo_bump_opSeq op hcount
  have hnow : (s'.targets t).live.opSeq = (s.targets t).live.opSeq + 1 := by
    rw [htargets, setTarget_self]
    exact hseq
  have hlive : ∀ t', (s.targets t').live.opSeq ≤ (s'.targets t').live.opSeq := by
    intro t'
    by_cases heq : t' = t
    · subst heq
      omega
    · rw [htargets, setTarget_ne heq]
  have hsnapshot : ∀ t', (s'.targets t').snapshot = (s.targets t').snapshot := by
    rw [htargets]
    exact setTarget_keeps (fun x => x.snapshot) rfl
  refine ⟨hlinked, ?_, ?_, ?_, ?_, ?_, ?_, ?_⟩
  · rw [heffects, hproposals]
    intro e he
    rcases List.mem_append.mp he with he | he
    · exact h.issued e he
    · rw [List.mem_singleton.mp he]
      show s.proposals p.id = some p
      rw [h.linked.ids _ _ hprop]
      exact hprop
  · rw [heffects]
    refine List.pairwise_append.mpr ⟨h.proposals, List.pairwise_singleton _ _, ?_⟩
    intro e he e' he'
    rw [List.mem_singleton.mp he']
    exact (hunspent e he).1
  · rw [heffects]
    refine List.pairwise_append.mpr ⟨h.keys, List.pairwise_singleton _ _, ?_⟩
    intro e he e' he'
    rw [List.mem_singleton.mp he', ← hkey]
    exact (hunspent e he).2
  · rw [heffects]
    intro e he
    rcases List.mem_append.mp he with he | he
    · exact Nat.lt_of_lt_of_le (h.past e he) (hlive _)
    · rw [List.mem_singleton.mp he]
      show p.expectedRevision < (s'.targets p.targetId).live.opSeq
      rw [ht]
      omega
  · rw [hcalls, heffects]
    intro c' call' p' hc' hp'
    rcases setCall_cases hc' with ⟨rfl, rfl⟩ | ⟨hne, hold⟩
    · cases hp'
    · obtain ⟨hrev', hunspent'⟩ := h.window c' call' p' hold hp'
      refine ⟨Nat.le_trans hrev' (hlive _), ?_⟩
      intro e he
      rcases List.mem_append.mp he with he | he
      · exact hunspent' e he
      · -- The edit just applied was waiting beside this call.
        rw [List.mem_singleton.mp he, ← hkey]
        exact h.alone c call p c' call' p' hcall hwaiting hold hp' (fun heq => hne heq.symm)
  · rw [hcalls]
    intro c₁ call₁ p₁ c₂ call₂ p₂ hc₁ hp₁ hc₂ hp₂ hne
    rcases setCall_cases hc₁ with ⟨rfl, rfl⟩ | ⟨-, hold₁⟩
    · cases hp₁
    · rcases setCall_cases hc₂ with ⟨rfl, rfl⟩ | ⟨-, hold₂⟩
      · cases hp₂
      · exact h.alone c₁ call₁ p₁ c₂ call₂ p₂ hold₁ hp₁ hold₂ hp₂ hne
  · rw [hcalls, heffects]
    intro e he
    rcases List.mem_append.mp he with he | he
    · rcases h.visible e he with ⟨call', hc', hedited⟩ | hseen
      · refine Or.inl ⟨call', ?_, hedited⟩
        rw [setCall_ne]
        · exact hc'
        · intro heq
          rw [heq, hcall] at hc'
          obtain rfl := Option.some.inj hc'
          rw [hphase] at hedited
          cases hedited
      · rw [hsnapshot]
        exact Or.inr hseen
    · rw [List.mem_singleton.mp he]
      exact Or.inl ⟨_, setCall_self s c _, rfl⟩

theorem oneEdit_step {s' : State τ} {act : Action τ} (h : OneEdit s) (hok : Unshared s act)
    (hstep : Step s act s') : OneEdit s' := by
  have hlinked := linked_step h.linked hok.counts hstep
  have hsame : ∀ c call p, s.calls c = some call → call.phase.window = some p →
      ∃ call', s.calls c = some call' ∧ call'.phase.window = some p ∧ call'.key = call.key :=
    fun c call p hc hp => ⟨call, hc, hp, rfl⟩
  -- No edit is visible only through a call that is not `edited`.
  have hnot : ∀ c call, s.calls c = some call → (∀ p, call.phase ≠ .edited p) → ∀ e ∈ s.effects,
      ∀ call' ∈ s.calls c, call'.phase = .edited e.proposal →
        e.proposal.expectedRevision < (s.targets e.proposal.targetId).snapshot.opSeq := by
    intro c call hcall hphase e he call' hcall' hedited
    obtain rfl : call = call' := Option.some.inj (hcall.symm.trans hcall')
    exact absurd hedited (hphase e.proposal)
  cases hstep with
  | tick n => exact h.frame hlinked rfl (fun _ => le_refl _) (fun _ _ hp => hp) hsame h.visible
  | @propose id _ _ _ _ _ q hfresh hid =>
    refine h.frame hlinked rfl (fun _ => le_refl _) ?_ hsame h.visible
    intro id' p hp
    have hne : id' ≠ id := by
      intro heq
      rw [heq, hfresh] at hp
      cases hp
    show Function.update s.proposals id (some q) id' = some p
    rw [Function.update_of_ne hne]
    exact hp
  | closeTarget t => exact h.setTarget hlinked (le_refl _) (le_refl _)
  | directEdit t op => exact h.setTarget hlinked (le_refl _) (le_refl _)
  | call hnew =>
    refine h.setCall hlinked rfl (fun _ => rfl) (fun _ => rfl) rfl rfl (fun p hp => by cases hp) ?_
    intro e he call' hc'
    rw [hnew] at hc'
    cases hc'
  | @lookup c call hcall hphase =>
    refine h.setCall hlinked rfl (fun _ => rfl) (fun _ => rfl) rfl rfl ?_
      (hnot c call hcall (by simp [hphase]))
    intro p hp
    rw [lookupPhase_window] at hp
    cases hp
  | @check c call p hcall hphase =>
    rcases checkPhase_cases s call p with ⟨r, hr⟩ | ⟨hg, -, hrev⟩
    · refine h.setCall hlinked rfl (fun _ => rfl) (fun _ => rfl) rfl rfl ?_
        (hnot c call hcall (by simp [hphase]))
      intro q hq
      simp [hr, CallPhase.window] at hq
    · rw [hg] at hlinked ⊢
      exact h.grant hcall hphase hok hg hrev hlinked
  | @send c call p hcall hphase =>
    refine h.setCall hlinked rfl (setTarget_keeps (fun x => x.live) rfl)
      (setTarget_keeps (fun x => x.snapshot) rfl) rfl rfl ?_ (hnot c call hcall (by simp [hphase]))
    intro q hq
    exact ⟨call, hcall, by rw [hphase]; exact hq, rfl⟩
  | @sendClosed c call p hcall hphase =>
    exact h.setCall hlinked rfl (fun _ => rfl) (fun _ => rfl) rfl rfl (fun q hq => by cases hq)
      (hnot c call hcall (by simp [hphase]))
  | @applyDirect t journaled op rest hidle hqueue =>
    have hseq := applyTo_bump_opSeq op hok
    refine h.setTarget hlinked ?_ (le_refl _)
    show (s.targets t).live.opSeq ≤ (op.applyTo (s.targets t).live.bump).opSeq
    omega
  | @applyCommit t journaled c p key op rest call hidle hqueue hcall =>
    exact h.apply hqueue hcall hok hlinked rfl rfl rfl rfl
  | @writerPublish t source answer hwriter =>
    exact h.setTarget hlinked (le_refl _) (h.linked.snapshot t)
  | answerDirect hwriter => exact h.setTarget hlinked (le_refl _) (le_refl _)
  | @answerCommit t c p key answer call hwriter hcall =>
    obtain ⟨ht, call', hcall', hphase, -⟩ := h.linked.writer t c p key (by rw [hwriter]; rfl)
    refine h.setCall hlinked rfl (setTarget_keeps (fun x => x.live) rfl)
      (setTarget_keeps (fun x => x.snapshot) rfl) rfl rfl (fun q hq => by cases hq) ?_
    intro e he call'' hc'' hedited
    obtain rfl : call' = call'' := Option.some.inj (hcall'.symm.trans hc'')
    obtain hsame : p = e.proposal := CallPhase.edited.inj (hphase.symm.trans hedited)
    -- The edit is answered only after its publication.
    have hcurrent := h.linked.current t (by simp [hwriter])
    have hpast := h.past e he
    rw [← hsame, ht] at hpast ⊢
    rw [hcurrent]
    exact hpast
  | @finish c evicted call p op results hcall hphase hresults =>
    exact h.setCall hlinked rfl (fun _ => rfl) (fun _ => rfl) rfl rfl (fun q hq => by cases hq)
      (hnot c call hcall (by simp [hphase]))
  | @finishFailed c evicted call p e hcall hphase =>
    exact h.setCall hlinked rfl (fun _ => rfl) (fun _ => rfl) rfl rfl (fun q hq => by cases hq)
      (hnot c call hcall (by simp [hphase]))

end OneEdit

/-! ## What the results say -/

/-- The edit of a call that has one behind it is in the history, and a success is
of the call's own proposal. -/
def Call.Reported (effects : List (Effect τ)) (call : Call τ) : Prop :=
  match call.phase with
  | .edited p => ∃ e ∈ effects, e.proposal = p
  | .answered p _ => ∃ e ∈ effects, e.proposal = p
  | .responded (.success pid _ _ _) => pid = call.proposalId ∧ ∃ e ∈ effects, e.proposal.id = pid
  | _ => True

/-- Responses, and the results in the cache, are of edits that were applied. -/
structure Reported (s : State τ) : Prop where
  calls : ∀ c call, s.calls c = some call → call.Reported s.effects
  cache : ∀ k r, s.editResults.lookup k = some r →
    ∃ pid investigationId key op, r = .success pid investigationId key op ∧
      ∃ e ∈ s.effects, e.proposal.id = pid

section Reported
variable {s : State τ}

omit [DecidableEq τ] in
theorem Call.Reported.mono {effects effects' : List (Effect τ)} {call : Call τ}
    (hsub : ∀ e ∈ effects, e ∈ effects') (h : call.Reported effects) : call.Reported effects' := by
  unfold Call.Reported at *
  split
  · next hphase =>
    rw [hphase] at h
    obtain ⟨e, he, hp⟩ := h
    exact ⟨e, hsub e he, hp⟩
  · next hphase =>
    rw [hphase] at h
    obtain ⟨e, he, hp⟩ := h
    exact ⟨e, hsub e he, hp⟩
  · next hphase =>
    rw [hphase] at h
    obtain ⟨hid, e, he, hp⟩ := h
    exact ⟨hid, e, hsub e he, hp⟩
  · exact True.intro

/-- What a full cache gives up is not replaced by anything else. -/
theorem lookup_remember {k k' : τ × String} {r r' : Response} {evicted : Option (τ × String)}
    {results : Finmap (fun _ : τ × String => Response)} (h : s.remember k r evicted = some results)
    (hr : results.lookup k' = some r') : (k' = k ∧ r' = r) ∨ s.editResults.lookup k' = some r' := by
  by_cases heq : k' = k
  · subst heq
    refine Or.inl ⟨rfl, ?_⟩
    unfold State.remember at h
    split at h
    · split at h
      · split at h
        · obtain rfl := Option.some.inj h
          rw [Finmap.lookup_insert] at hr
          exact (Option.some.inj hr).symm
        · cases h
      · cases h
    · obtain rfl := Option.some.inj h
      rw [Finmap.lookup_insert] at hr
      exact (Option.some.inj hr).symm
  · refine Or.inr ?_
    unfold State.remember at h
    split at h
    · split at h
      · next old =>
        split at h
        · obtain rfl := Option.some.inj h
          rw [Finmap.lookup_insert_of_ne _ heq] at hr
          by_cases hold : k' = old
          · rw [hold, Finmap.lookup_erase] at hr
            cases hr
          · rwa [Finmap.lookup_erase_ne hold] at hr
        · cases h
      · cases h
    · obtain rfl := Option.some.inj h
      rwa [Finmap.lookup_insert_of_ne _ heq] at hr

/-- A step that moves one call on. -/
theorem Reported.setCall {s' : State τ} {c : Nat} {call : Call τ} (h : Reported s)
    (heffects : ∀ e ∈ s.effects, e ∈ s'.effects) (hcalls : s'.calls = (s.setCall c call).calls)
    (hcall : call.Reported s'.effects)
    (hcache : ∀ k r, s'.editResults.lookup k = some r → s.editResults.lookup k = some r ∨
      ∃ pid investigationId key op, r = .success pid investigationId key op ∧
        ∃ e ∈ s'.effects, e.proposal.id = pid) : Reported s' := by
  refine ⟨?_, ?_⟩
  · intro c' call' hc'
    rw [hcalls] at hc'
    rcases setCall_cases hc' with ⟨rfl, rfl⟩ | ⟨-, hold⟩
    · exact hcall
    · exact (h.calls c' call' hold).mono heffects
  · intro k r hr
    rcases hcache k r hr with hold | hnew
    · obtain ⟨pid, investigationId, key, op, heq, e, he, hid⟩ := h.cache k r hold
      exact ⟨pid, investigationId, key, op, heq, e, heffects e he, hid⟩
    · exact hnew

theorem reported_step {s' : State τ} {act : Action τ} (h : Reported s) (hlinked : Linked s)
    (hok : Unshared s act) (hstep : Step s act s') : Reported s' := by
  have hsub : ∀ e ∈ s.effects, e ∈ s.effects := fun _ he => he
  cases hstep with
  | tick n => exact ⟨h.calls, h.cache⟩
  | propose hfresh hid => exact ⟨h.calls, h.cache⟩
  | closeTarget t => exact ⟨h.calls, h.cache⟩
  | directEdit t op => exact ⟨h.calls, h.cache⟩
  | call hnew => exact h.setCall hsub rfl True.intro fun _ _ hr => Or.inl hr
  | @lookup c call hcall hphase =>
    refine h.setCall hsub rfl ?_ fun _ _ hr => Or.inl hr
    rcases lookupPhase_cases s call with ⟨_, _, _, _, hr⟩ | ⟨p, hp, ⟨cached, hcached, hr⟩ | hr⟩
    · rw [hr]
      exact True.intro
    · -- The cached result is of the proposal asked for.
      obtain ⟨pid, investigationId, key, op, rfl, heffect⟩ := h.cache _ cached hcached
      have hreports : pid = p.id := hok call hcall p hp _ hcached
      rw [hr]
      exact ⟨hreports.trans (hlinked.ids _ _ hp), heffect⟩
    · rw [hr]
      exact True.intro
  | @check c call p hcall hphase =>
    refine h.setCall hsub rfl ?_ fun _ _ hr => Or.inl hr
    rcases checkPhase_cases s call p with ⟨r, hr⟩ | ⟨hg, -, -⟩
    · rw [hr]
      exact True.intro
    · rw [hg]
      exact True.intro
  | send hcall hphase => exact h.setCall hsub rfl True.intro fun _ _ hr => Or.inl hr
  | sendClosed hcall hphase => exact h.setCall hsub rfl True.intro fun _ _ hr => Or.inl hr
  | applyDirect hidle hqueue => exact ⟨h.calls, h.cache⟩
  | @applyCommit t journaled c p key op rest call hidle hqueue hcall =>
    refine h.setCall (fun e he => List.mem_append_left _ he) rfl ?_ fun _ _ hr => Or.inl hr
    exact ⟨_, List.mem_append_right _ (List.mem_singleton_self _), rfl⟩
  | writerPublish hwriter => exact ⟨h.calls, h.cache⟩
  | answerDirect hwriter => exact ⟨h.calls, h.cache⟩
  | @answerCommit t c p key answer call hwriter hcall =>
    obtain ⟨-, call', hcall', hphase, -⟩ := hlinked.writer t c p key (by rw [hwriter]; rfl)
    have hedited := h.calls c call' hcall'
    unfold Call.Reported at hedited
    rw [hphase] at hedited
    exact h.setCall hsub rfl hedited fun _ _ hr => Or.inl hr
  | @finish c evicted call p op results hcall hphase hresults =>
    have hanswered := h.calls c call hcall
    unfold Call.Reported at hanswered
    rw [hphase] at hanswered
    obtain ⟨e, he, hp⟩ := hanswered
    have hprop := hlinked.proposal c call p hcall (by rw [hphase]; rfl)
    refine h.setCall hsub rfl ⟨hlinked.ids _ _ hprop, e, he, by rw [hp]⟩ ?_
    intro k r hr
    rcases lookup_remember hresults hr with ⟨-, rfl⟩ | hold
    · exact Or.inr ⟨_, _, _, _, rfl, e, he, by rw [hp]⟩
    · exact Or.inl hold
  | finishFailed hcall hphase => exact h.setCall hsub rfl True.intro fun _ _ hr => Or.inl hr

end Reported

/-- In every run that shares no key and overlaps no calls for one proposal, at most
one edit is applied under a key of a target, and a success of a call says that the
edit of its own proposal was applied exactly once. -/
theorem applied_once (projects : τ → Project) (acts : List (Action τ)) (s : State τ)
    (hrun : Run.Guarded step Unshared (start projects) acts s) :
    (s.effects.Pairwise fun e e' => ¬ (e.proposal.targetId = e'.proposal.targetId ∧ e.key = e'.key)) ∧
      ∀ c call pid investigationId key op, s.calls c = some call →
        call.phase = .responded (.success pid investigationId key op) →
          pid = call.proposalId ∧ (s.effects.map fun e => e.proposal.id).count call.proposalId = 1 := by
  have hstart : OneEdit (start projects) ∧ Reported (start projects) := by
    refine ⟨⟨linked_start projects, ?_, List.Pairwise.nil, List.Pairwise.nil, ?_, ?_, ?_, ?_⟩, ?_, ?_⟩
    · intro e he; cases he
    · intro e he; cases he
    · intro c call p hc; cases hc
    · intro c call p c' call' p' hc; cases hc
    · intro e he; cases he
    · intro c call hc; cases hc
    · intro k r hr
      rw [show (start projects).editResults = ∅ from rfl, Finmap.lookup_empty] at hr
      cases hr
  obtain ⟨hone, hreported⟩ := hrun.inv (P := fun s => OneEdit s ∧ Reported s) (fun s act s' h hok hstep => by
    have hcases := step_cases h.1.linked hstep
    exact ⟨oneEdit_step h.1 hok hcases, reported_step h.2 h.1.linked hok hcases⟩) hstart
  refine ⟨hone.keys, ?_⟩
  intro c call pid investigationId key op hc hphase
  have hcall := hreported.calls c call hc
  unfold Call.Reported at hcall
  rw [hphase] at hcall
  obtain ⟨hid, e, he, heid⟩ := hcall
  refine ⟨hid, List.count_eq_one_of_mem ?_ ?_⟩
  · exact List.pairwise_map.mpr hone.proposals
  · exact List.mem_map.mpr ⟨e, he, heid.trans hid⟩

/-- A proposal is committed, and committed again with the same key. -/
def commitAndRetry : List (Action Unit) :=
  [.propose "p1" "i1" () 4096 .function "main", .call 1 "p1" 0 "key-0001", .lookup 1, .check 1, .send 1,
    .writerApply () true, .writerPublish (), .writerAnswer (), .finish 1 none, .call 2 "p1" 0 "key-0001",
    .lookup 2]

theorem commitAndRetry_once :
    ∃ s, Run.exec step (start fun _ : Unit => Project.ofAnalysis Writer.oneFunction) commitAndRetry = some s ∧
      (∃ call investigationId key op, s.calls 2 = some call ∧
        call.phase = .responded (.success "p1" investigationId key op)) ∧
      s.effects.Pairwise fun e e' => ¬ (e.proposal.targetId = e'.proposal.targetId ∧ e.key = e'.key) := by
  refine ⟨_, rfl, ⟨_, _, _, _, rfl, rfl⟩, (applied_once (fun _ => Project.ofAnalysis Writer.oneFunction)
    commitAndRetry _ ?_).1⟩
  refine .cons True.intro rfl (.cons True.intro rfl (.cons ?_ rfl (.cons ?_ rfl (.cons True.intro rfl
    (.cons ?_ rfl (.cons True.intro rfl (.cons True.intro rfl (.cons True.intro rfl
    (.cons True.intro rfl (.cons ?_ rfl (.nil _)))))))))))
  · intro call hcall p hp r hr
    cases hr
  · intro call hcall p hphase hgrant
    refine ⟨fun e he => ?_, ?_⟩
    · exact absurd he (List.not_mem_nil)
    intro c' hne call' hcall'
    have hnone : (none : Option (Call Unit)) = some call' := by
      rw [← hcall']
      simp [State.setCall, start, Function.update_of_ne hne]
    cases hnone
  · show 0 + 1 < 2 ^ 64
    decide
  · intro call hcall p hp r hr
    have hid : "p1" = call.proposalId := congrArg Call.proposalId (Option.some.inj hcall)
    have hkey : "key-0001" = call.key := congrArg Call.key (Option.some.inj hcall)
    rw [← hid] at hp
    have hpid : "p1" = p.id := congrArg ChangeProposal.id (Option.some.inj hp)
    rw [← hkey] at hr
    rw [← hpid]
    obtain rfl := Option.some.inj hr
    rfl

/-- Two calls for one proposal pass the check before either edit is applied. -/
def retryTogether : List (Action Unit) :=
  [.propose "p1" "i1" () 4096 .function "main", .call 1 "p1" 0 "key-0001", .lookup 1,
    .call 2 "p1" 0 "key-0001", .lookup 2, .check 1, .check 2, .send 1, .send 2, .writerApply () true,
    .writerPublish (), .writerAnswer (), .writerApply () true]

/-- Two proposals are committed one after the other with the same key. -/
def commitSharedKey : List (Action Unit) :=
  [.propose "p1" "i1" () 4096 .function "main", .propose "p2" "i2" () 4096 .functionComment "entry",
    .call 1 "p1" 0 "key-0001", .lookup 1, .check 1, .send 1, .writerApply () true, .writerPublish (),
    .writerAnswer (), .finish 1 none, .call 2 "p2" 0 "key-0001", .lookup 2]

/-- The first run applies one edit twice under one key; in the second one the call
for `p2` succeeds with the result of `p1`, and `p2` is never applied. -/
theorem retryTogether_applied_twice :
    (∃ s, Run.exec step (start fun _ : Unit => Project.ofAnalysis Writer.oneFunction) retryTogether = some s ∧
      s.effects.map (fun e => (e.proposal.id, e.key)) = [("p1", "key-0001"), ("p1", "key-0001")]) ∧
    ∃ s, Run.exec step (start fun _ : Unit => Project.ofAnalysis Writer.oneFunction) commitSharedKey = some s ∧
      s.effects.map (fun e => e.proposal.id) = ["p1"] ∧
      ∃ call op, s.calls 2 = some call ∧ call.proposalId = "p2" ∧
        call.phase = .responded (.success "p1" "i1" "key-0001" op) := by
  exact ⟨⟨_, rfl, by decide⟩, _, rfl, by decide, _, _, rfl, rfl, rfl⟩

end Windy.Commit
