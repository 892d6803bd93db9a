import Windy.Analysis.Closed
import Windy.Analysis.Entries

/- What is found again behind the last pass.

   The last pass cuts filters out of functions and frees what they held from there on. The
   filters are discovered as functions of their own, and they take what their code leads to.

   What is proved:
     1. `flowEdges_claims`: what the last instruction of a block leads to is claimed, unless it
        is left to a known entry.
     2. `after_step`: what holds of every state behind the last pass.
     3. `refound_covered`: an address to which the new entries lead through free addresses
        is in a block of a new function in the end. -/
namespace Windy.Discovery

variable {inp : Input} {s t u : State}

/-! ## What is claimed -/

variable (inp) in
theorem branchTo_claims (c : Claims) {e va : Nat} (kind : EdgeKind) (hexec : isExecutableTarget inp va = true)
    (hsoft : isHardFunctionEntry inp va = false) : ((branchTo inp c e va kind).1.blockOwners va).isSome := by
  unfold branchTo
  rw [if_pos hexec, if_neg (by simp [hsoft])]
  exact Claims.claimOrQueueBlock_isSome c va e

theorem Grows.isSome {e va : Nat} {c c' : Claims} (h : Grows e c c') (hsome : (c.blockOwners va).isSome) :
    (c'.blockOwners va).isSome := by
  obtain ⟨owner, howner⟩ := Option.isSome_iff_exists.mp hsome
  rw [h.owners_of_some howner]
  rfl

/-- Where the last instruction of a block passes control to has an owner from then on,
unless it is a jump to a known entry. -/
theorem flowEdges_claims (c : Claims) (e : Nat) {d : DecodedInstr} (hnext : d.flowControl ≠ .next)
    (hxbegin : d.flowControl ≠ .xbeginXabortXend) {va : Nat} (hva : va ∈ flowTargets d)
    (hexec : isExecutableTarget inp va = true) (hsoft : isHardFunctionEntry inp va = false)
    (hjump : d.flowControl = .unconditionalBranch → e ≤ va) :
    ((flowEdges inp c e d).1.blockOwners va).isSome ∨
      d.flowControl = .unconditionalBranch ∧ (flowEdges inp c e d).1.functionEntries va = true := by
  simp only [flowTargets] at hva
  simp only [flowEdges]
  split
  · next hflow => exact absurd hflow hnext
  · next hflow =>
    rw [hflow] at hva
    obtain rfl := List.mem_singleton.mp hva
    rw [if_pos hexec]
    split
    · next htail =>
      refine .inr ⟨hflow, ?_⟩
      have hle := hjump hflow
      simp only [Bool.or_eq_true, Bool.and_eq_true, decide_eq_true_eq] at htail
      exact (htail.resolve_right (by omega)).1
    · exact .inl (Claims.claimOrQueueBlock_isSome _ _ _)
  · next hflow =>
    rw [hflow] at hva
    rcases List.mem_cons.mp hva with rfl | htarget
    · exact .inl ((branchTo_grows _ _ _ _).isSome (branchTo_claims inp c .fallthrough hexec hsoft))
    · obtain rfl := List.mem_singleton.mp htarget
      exact .inl (branchTo_claims inp _ .conditional hexec hsoft)
  · next hflow =>
    rw [hflow] at hva
    obtain rfl := List.mem_singleton.mp hva
    have hclaimed := branchTo_claims inp c (e := e) .fallthrough hexec hsoft
    split
    · exact .inl ((Claims.seedFunction_grows _ _ e).isSome hclaimed)
    · exact .inl hclaimed
  · next hflow => rw [hflow] at hva; cases hva
  · next hflow =>
    rw [hflow] at hva
    obtain rfl := List.mem_singleton.mp hva
    rw [if_pos hexec]
    exact .inl (Claims.claimOrQueueBlock_isSome _ _ _)
  · next hflow => rw [hflow] at hva; cases hva
  · next hflow => rw [hflow] at hva; cases hva
  · next hflow => rw [hflow] at hva; cases hva
  · next hflow => exact absurd hflow hxbegin

/-- The same for a block that is decoded. -/
theorem Decodes.claims (hs : Sound t) {task : Task} {start : Nat} {rest : List Nat} (h : Decodes t task start rest)
    (hstep : step inp t = some u) {d : DecodedInstr} (hd : d ∈ (walkFrom inp t.claims task start).1.getLast?) {va : Nat}
    (hva : va ∈ flowTargets d) (hxbegin : d.flowControl ≠ .xbeginXabortXend) (hexec : isExecutableTarget inp va = true)
    (hat : (inp.code.atVa va).isSome) (hsoft : isHardFunctionEntry inp va = false)
    (hjump : d.flowControl = .unconditionalBranch → task.entry ≤ va) :
    (u.claims.blockOwners va).isSome ∨ d.flowControl = .unconditionalBranch ∧ u.claims.functionEntries va = true := by
  obtain rfl := Option.some.inj (hstep.symm.trans (h.step_eq hs))
  have hwalk : walkFrom inp { t.claims with blockQueue := rest } task start = walkFrom inp t.claims task start :=
    walkFrom_congr (by rfl) task start
  have hgrows := decodeBlock_grows inp { t.claims with blockQueue := rest } task start
  rcases (walkFrom_walked t.claims task start).last hd with ⟨hend, hflow⟩ | ⟨hflow, hrest⟩
  · have hclaims := flowEdges_claims { t.claims with blockQueue := rest } task.entry hflow hxbegin hva hexec hsoft hjump
    simpa only [decodeBlock, hwalk, hend, endEdges] using hclaims
  · have hnext : va = d.nextIp := by
      simp only [flowTargets, hflow] at hva
      exact List.mem_singleton.mp hva
    subst hnext
    left
    -- the walk has stopped at the address behind, which is a block already
    have howned : (t.claims.blockOwners d.nextIp).isSome := by
      generalize (walkFrom inp t.claims task start).2 = w at hrest
      cases hrest with
      | undecoded hnone => rw [hnone] at hat; cases hat
      | hardEntry _ _ hhard => rw [hsoft] at hhard; cases hhard
      | foreign _ hother =>
        obtain ⟨owner, howner, -⟩ := isOwnedByOther_eq_true.mp hother
        rw [howner]
        rfl
      | ownBlock _ _ hblock =>
        rw [((hs.task task h.task).owned d.nextIp).mpr (.inl hblock)]
        rfl
    exact hgrows.isSome howned

/-! ## Behind the last pass -/

variable (inp) in
/-- What can become an entry behind the last pass: a filter, or the target of a call. -/
def IsNewEntry (va : Nat) : Prop :=
  va ∈ filterCandidates inp ∨ ∃ d ∈ inp.code.instrs, d.flowControl = .call ∧ d.nearBranchTarget = va

variable (inp) in
/-- A state `t` behind the last pass, which was taken in `s`. -/
structure After (s t : State) : Prop where
  stage : t.stage = .filters
  grown : ∀ va, (s.functions.get va).isSome → (t.functions.get va).isSome
  /-- What the pass has left free is owned by new functions. -/
  owner : ∀ va o, (seedAccessViolationFilterLeaves inp s).claims.blockOwners va = none →
    t.claims.blockOwners va = some o → s.functions.get o = none
  own : ∀ va, (t.functions.get va).isSome → s.functions.get va = none → t.claims.blockOwners va = some va
  found : ∀ va, inp.space.isExecutableVa va = true → t.claims.functionEntries va = true →
    s.claims.functionEntries va = false → va ∈ t.claims.worklist ∨ (t.claims.blockOwners va).isSome
  listed : ∀ va ∈ t.claims.worklist, IsNewEntry inp va
  begun : ∀ task, t.task = some task → IsNewEntry inp task.entry
  new : ∀ va, (t.functions.get va).isSome → s.functions.get va = none → IsNewEntry inp va
  /-- What a block of a new function leads to has an owner, or is a known entry. -/
  claims : ∀ g va n es, HasBlock t g va n es → s.functions.get g = none → ∀ d ∈ (inp.code.sweep va n).getLast?,
    ∀ a ∈ flowTargets d, d.flowControl ≠ .xbeginXabortXend → isExecutableTarget inp a = true →
      (inp.code.atVa a).isSome → isHardFunctionEntry inp a = false → (d.flowControl = .unconditionalBranch → g ≤ a) →
        (t.claims.blockOwners a).isSome ∨ d.flowControl = .unconditionalBranch ∧ t.claims.functionEntries a = true

theorem get_eq_none_of_new {va : Nat} (hr : Reached inp s) (hnew : s.claims.functionEntries va = false) :
    s.functions.get va = none := by
  refine Option.not_isSome_iff_eq_none.mp fun hsome => ?_
  rw [reached_known hr (.inr (.inl hsome))] at hnew
  cases hnew

theorem after_step (hr : Reached inp s) (ht : Reached inp t) (hafter : After inp s t) (hstep : step inp t = some u) :
    After inp s u := by
  have hs := reached_sound ht
  have hmove := step_move hstep
  have hu := hs.move hmove
  have hkept : ∀ {va}, (t.claims.blockOwners va).isSome → (u.claims.blockOwners va).isSome := by
    intro va hsome
    obtain ⟨owner, howner⟩ := Option.isSome_iff_exists.mp hsome
    rw [hmove.owner_kept hs hafter.stage howner]
    rfl
  refine ⟨hmove.stage_filters hafter.stage, fun va hva => hmove.functions.mpr (.inl (hafter.grown va hva)),
    fun va o hfree ho => ?_, fun va hfun hnew => ?_, fun va hexec hknown hnew => ?_, fun va hva => ?_,
    fun task htask => ?_, fun va hfun hnew => ?_, fun g va n es hb hnew d hd a ha hxbegin hexec hat hsoft hjump => ?_⟩
  · rcases hmove.owner_cases hs va with heq | ⟨-, task, htask, hclaimed⟩ | ⟨-, hnone⟩
    · exact hafter.owner va o hfree (heq ▸ ho)
    · obtain rfl := Option.some.inj (hclaimed.symm.trans ho)
      refine Option.not_isSome_iff_eq_none.mp fun hold => ?_
      have hfun := hmove.functions.mpr (.inl (hafter.grown _ hold))
      rw [(hu.task task htask).new] at hfun
      cases hfun
    · rw [ho] at hnone; cases hnone
  · rcases hmove.functions.mp hfun with hold | ⟨task, htask, -, rfl⟩
    · exact hmove.owner_kept hs hafter.stage (hafter.own va hold hnew)
    · exact hmove.owner_kept hs hafter.stage (hs.task task htask).entry
  · rcases hmove.entered hknown with hold | hlisted
    · rcases hafter.found va hexec hold hnew with hlisted | hsome
      · rcases hmove.waiting hlisted with hstays | (hfun | hnot | hother) | hbegun
        · exact .inl hstays
        · have howner := hafter.own va hfun (get_eq_none_of_new hr hnew)
          exact .inr (hkept (by rw [howner]; rfl))
        · rw [hexec] at hnot; cases hnot
        · obtain ⟨owner, howner, -⟩ := isOwnedByOther_eq_true.mp hother
          exact .inr (hkept (by rw [howner]; rfl))
        · have howner : u.claims.blockOwners va = some va := (hu.task _ hbegun).entry
          exact .inr (by rw [howner]; rfl)
      · exact .inr (hkept hsome)
    · exact .inl hlisted
  · rcases hmove.listed_call hafter.stage hva with hold | hcall
    · exact hafter.listed va hold
    · exact .inr hcall
  · rcases hmove.task_before htask with ⟨task₀, htask₀, hsame⟩ | ⟨rest, hworklist, -⟩
    · exact hsame ▸ hafter.begun task₀ htask₀
    · exact hafter.listed _ (by rw [hworklist]; exact List.mem_cons_self)
  · rcases hmove.functions.mp hfun with hold | ⟨task, htask, -, rfl⟩
    · exact hafter.new va hold hnew
    · exact hafter.begun task htask
  · rcases hb.before hs hmove with hold | ⟨task, rest, hdec, rfl, -, rfl, -⟩
    · exact (hafter.claims g va n es hold hnew d hd a ha hxbegin hexec hat hsoft hjump).imp hkept (And.imp_right hmove.entries)
    · rw [(walkFrom_walked t.claims task va).sweep_eq] at hd
      exact hdec.claims hs hstep hd ha hxbegin hexec hat hsoft hjump

theorem after_lastPass (hr : Reached inp s) (hlast : LastPass inp s t) : After inp s t := by
  have hs := reached_sound hr
  obtain ⟨htask, hworklist, hstage, rfl⟩ := hlast
  have hmove : Move inp s (seedAccessViolationFilterLeaves inp s) := .filters htask hworklist hstage
  have htask' : (seedAccessViolationFilterLeaves inp s).task = none := (foldl_carve_task _ s).trans htask
  have hold : ∀ {va}, ((seedAccessViolationFilterLeaves inp s).functions.get va).isSome → s.functions.get va = none → False := by
    intro va hfun hnone
    rw [filters_functions_get, hnone] at hfun
    cases hfun
  refine ⟨rfl, fun va hva => hmove.functions.mpr (.inl hva), fun va o hfree ho => ?_, fun va hfun hnone => (hold hfun hnone).elim,
    fun va _ hknown hnew => ?_, fun va hva => ?_, fun task ht => ?_, fun va hfun hnone => (hold hfun hnone).elim,
    fun g va n es hb hnone => ?_⟩
  · rw [ho] at hfree; cases hfree
  · rcases hmove.entered hknown with hbefore | hlisted
    · rw [hnew] at hbefore; cases hbefore
    · exact .inl hlisted
  · left
    obtain ⟨owners, hclaims⟩ := foldl_carve_claims (filterCandidates inp) s
    rcases foldl_seedFunction_listed _ _ hva with hbefore | hcand
    · rw [hclaims] at hbefore
      rw [show s.claims.worklist = [] from hworklist] at hbefore
      cases hbefore
    · exact hcand
  · rw [htask'] at ht; cases ht
  · have hfun := ((hasBlock_filters hs htask).mp hb).1.function hs htask
    rw [hnone] at hfun
    cases hfun

/-- What holds behind the last pass holds in the end. -/
theorem after_final (hr : Reached inp s) (hlast : LastPass inp s t) (hstep : step inp s = some t) :
    After inp s (finalState inp) :=
  reached_to_end (P := fun t => After inp s t) (fun _ _ ht hstep hafter => after_step hr ht hafter hstep)
    (Machine.reaches_step hr hstep) (after_lastPass hr hlast)

/-! ## Dropped blocks -/

/-- The function that is finished has no code before its entry. -/
def DropsNothing (inp : Input) (s : State) : Prop :=
  ∀ t, s.task = some t → s.claims.blockQueue = [] → ∀ b ∈ t.blocks, b.entryVa < t.entry → inp.code.atVa b.entryVa = none

/-- Then what a finished function owns does not lie before its entry, if it is code. -/
theorem entry_le_of_owner (hdrop : ∀ s, Reached inp s → DropsNothing inp s) (hr : Reached inp s) {va e : Nat}
    (hat : (inp.code.atVa va).isSome) (howner : s.claims.blockOwners va = some e) (hfun : (s.functions.get e).isSome) :
    e ≤ va := by
  refine Machine.inv_of_reaches (P := fun s => s.claims.blockOwners va = some e → (s.functions.get e).isSome → e ≤ va)
    (fun hnone => by cases hnone) (fun t u ht hold hstep hou hfu => ?_) hr howner hfun
  have hs := reached_sound ht
  have hmove := step_move hstep
  rcases hmove.owner_cases hs va with heq | ⟨-, task, htask, hclaimed⟩ | ⟨-, hnone⟩
  · rw [heq] at hou
    rcases hmove.functions.mp hfu with hbefore | ⟨task, htask, hend, rfl⟩
    · exact hold hou hbefore
    · -- the function is finished with this step
      by_contra hlt
      have hqueue := hmove.finished htask hend
      rcases ((hs.task task htask).owned va).mp hou with hblock | hqueued
      · obtain ⟨b, hb, rfl⟩ := KeyedList.get_isSome_iff.mp hblock
        rw [hdrop t ht task htask hqueue b hb (by omega)] at hat
        cases hat
      · rw [hqueue] at hqueued
        cases hqueued
  · obtain rfl := Option.some.inj (hclaimed.symm.trans hou)
    rw [((hs.move hmove).task task htask).new] at hfu
    cases hfu
  · rw [hou] at hnone; cases hnone

/-- An owned instruction is in a block in the end. -/
theorem hasBlock_of_owner (hdrop : ∀ s, Reached inp s → DropsNothing inp s) {va e : Nat}
    (hat : (inp.code.atVa va).isSome) (howner : (finalState inp).claims.blockOwners va = some e) :
    ∃ n es, HasBlock (finalState inp) e va n es := by
  have hr := reached_finalState inp
  have hs := reached_sound hr
  obtain ⟨htask, -, -⟩ := halted (discover_ends inp)
  have hfun : ((finalState inp).functions.get e).isSome := by
    rcases hs.owner va e howner with hfun | ⟨t, ht, -⟩
    · exact hfun
    · rw [htask] at ht; cases ht
  rcases hs.block_or_queued howner (entry_le_of_owner hdrop hr hat howner hfun) with hblock | ⟨t, ht, -⟩
  · exact hblock
  · rw [htask] at ht; cases ht

/-! ## Found again -/

variable (inp) in
/-- Addresses the last pass has freed and new entries lead to: `s` and `t` are the states
before and behind the pass. A jump back does not count where a new entry lies between. -/
inductive Refound (s t : State) : Nat → Prop
  | entry {va : Nat} (hcandidate : va ∈ filterCandidates inp) (hnew : s.claims.functionEntries va = false)
      (hfree : t.claims.blockOwners va = none) (hat : (inp.code.atVa va).isSome) : Refound s t va
  | flow {a va : Nat} {d : DecodedInstr} (ha : Refound s t a) (hd : inp.code.atVa a = some d) (hva : va ∈ flowTargets d)
      (hxbegin : d.flowControl ≠ .xbeginXabortXend) (hexec : isExecutableTarget inp va = true)
      (hat : (inp.code.atVa va).isSome) (hsoft : isHardFunctionEntry inp va = false)
      (hfree : t.claims.blockOwners va = none)
      (hjump : d.flowControl = .unconditionalBranch →
        s.claims.functionEntries va = false ∧ ∀ g, IsNewEntry inp g → va < g → a < g) : Refound s t va

/-- In a block of a function that is new behind the last pass. -/
def NewlyCovered (inp : Input) (s : State) (a : Nat) : Prop :=
  ∃ g va n es, HasBlock (finalState inp) g va n es ∧ s.functions.get g = none ∧ ∃ d ∈ inp.code.sweep va n, d.ip = a

theorem newlyCovered_of_owner (hdrop : ∀ s, Reached inp s → DropsNothing inp s) (hafter : After inp s (finalState inp))
    {va : Nat} (hat : (inp.code.atVa va).isSome)
    (hfree : (seedAccessViolationFilterLeaves inp s).claims.blockOwners va = none)
    (hsome : ((finalState inp).claims.blockOwners va).isSome) : NewlyCovered inp s va := by
  obtain ⟨o, ho⟩ := Option.isSome_iff_exists.mp hsome
  obtain ⟨n, es, hb⟩ := hasBlock_of_owner hdrop hat ho
  obtain ⟨d, hd⟩ := Option.isSome_iff_exists.mp hat
  exact ⟨o, va, n, es, hb, hafter.owner va o hfree ho, d, hb.start_mem (reached_finalState inp) hd, CodeIndex.atVa_ip hd⟩

theorem executable_of_candidate {va : Nat} (h : va ∈ filterCandidates inp) : inp.space.isExecutableVa va = true := by
  simp only [filterCandidates, List.mem_insertionSort, List.mem_dedup, List.mem_filter] at h
  exact h.2

/-- What is refound is in a block of a new function. -/
theorem refound_covered (hdrop : ∀ s, Reached inp s → DropsNothing inp s) (hr : Reached inp s) (hlast : LastPass inp s t)
    (hstep : step inp s = some t) {a : Nat} (h : Refound inp s t a) : NewlyCovered inp s a := by
  have hafter := after_final hr hlast hstep
  have hworklist := (halted (discover_ends inp)).2.1
  -- a new entry has an owner in the end
  have hentry : ∀ {va}, inp.space.isExecutableVa va = true → (finalState inp).claims.functionEntries va = true →
      s.claims.functionEntries va = false → ((finalState inp).claims.blockOwners va).isSome := by
    intro va hexec hknown hnew
    rcases hafter.found va hexec hknown hnew with hlisted | hsome
    · rw [hworklist] at hlisted; cases hlisted
    · exact hsome
  have ht := hlast.eq
  induction h with
  | @entry va hcandidate hnew hfree hat =>
    have hseeded : t.claims.functionEntries va = true := by
      rw [ht]
      exact mem_foldl_seedFunction hcandidate _
    have hknown : (finalState inp).claims.functionEntries va = true :=
      reached_to_end (P := fun t => t.claims.functionEntries va = true) (fun _ _ _ hstep => (step_move hstep).entries)
        (Machine.reaches_step hr hstep) hseeded
    exact newlyCovered_of_owner hdrop hafter hat (ht ▸ hfree) (hentry (executable_of_candidate hcandidate) hknown hnew)
  | @flow a va d ha hd hva hxbegin hexec hat hsoft hfree hjump ih =>
    obtain ⟨g, start, n, es, hb, hgnew, d', hd', hip⟩ := ih
    obtain rfl : d' = d := Option.some.inj ((CodeIndex.mem_sweep hd').2.symm.trans (hip ▸ hd))
    rcases CodeIndex.getLast?_or_next hd' with hend | ⟨b, hbmem, hbip⟩
    · -- the last instruction of its block
      have hforward : d'.flowControl = .unconditionalBranch → g ≤ va := by
        intro hflow
        by_contra hlt
        have hg := hafter.new g (hb.function (reached_sound (reached_finalState inp)) (halted (discover_ends inp)).1) hgnew
        have hbefore := (hjump hflow).2 g hg (by omega)
        have hstart := (CodeIndex.mem_sweep hd').1
        have hle := hb.1
        omega
      refine newlyCovered_of_owner hdrop hafter hat (ht ▸ hfree) ?_
      rcases hafter.claims g start n es hb hgnew d' hend va hva hxbegin hexec hat hsoft hforward with hsome | ⟨hflow, hknown⟩
      · exact hsome
      · have hexec' : inp.space.isExecutableVa va = true := by
          simp only [isExecutableTarget, Bool.and_eq_true] at hexec
          exact hexec.2
        exact hentry hexec' hknown (hjump hflow).1
    · -- inside of a block control goes on to the next instruction
      have hflow := hb.next_of_not_last (reached_finalState inp) hd' hbmem hbip
      have hnext : va = d'.nextIp := by
        simp only [flowTargets, hflow] at hva
        exact List.mem_singleton.mp hva
      exact ⟨g, start, n, es, hb, hgnew, b, hbmem, hbip.trans hnext.symm⟩

end Windy.Discovery
