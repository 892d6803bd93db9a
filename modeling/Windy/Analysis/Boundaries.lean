import Windy.Analysis.Entries

/- Trusted entries as boundaries.

   Every case of the flow asks whether the address behind or beside a block is a trusted
   entry, but the indirect call: it claims the address behind itself.

   What is proved:
     1. `endEdges_claims_hint`: no other case claims a trusted entry for another function.
     2. `guarded_step`: as long as no indirect call does, a trusted entry belongs to its own
        function or to nobody.
     3. `boundaries_iff`: the trusted entries are boundaries exactly if no indirect call
        claims one of them.
     4. `returnHint_absorbed`: an entry behind an indirect call. -/
namespace Windy.Discovery

variable {inp : Input} {s s' : State} {h : Nat}

/-! ## What is claimed -/

theorem claimOrQueueBlock_owners_ne (c : Claims) {va a : Nat} (e : Nat) (hne : a ≠ va) :
    (c.claimOrQueueBlock va e).blockOwners a = c.blockOwners a := by
  unfold Claims.claimOrQueueBlock
  split
  · exact Function.update_of_ne hne _ _
  · rfl

theorem seedFunction_owners (c : Claims) (va : Nat) : (c.seedFunction va).blockOwners = c.blockOwners := by
  unfold Claims.seedFunction
  split <;> rfl

/-- A guarded branch leaves a trusted entry of another function alone. -/
theorem branchTo_owners_hint (c : Claims) {e : Nat} (va : Nat) (kind : EdgeKind) (hhint : isHardFunctionEntry inp h = true)
    (hne : h ≠ e) : (branchTo inp c e va kind).1.blockOwners h = c.blockOwners h := by
  unfold branchTo
  split
  · split
    · rfl
    · next hsoft =>
      refine claimOrQueueBlock_owners_ne c e fun heq => hsoft ?_
      subst heq
      simp [hhint, hne]
  · rfl

/-- Only an indirect call claims a trusted entry for another function. -/
theorem endEdges_claims_hint {c : Claims} {e : Nat} {w : WalkEnd} (hhint : isHardFunctionEntry inp h = true) (hne : h ≠ e)
    (hentry : c.functionEntries h = true) (hnew : (endEdges inp c e w).1.blockOwners h ≠ c.blockOwners h) :
    ∃ d, w = .terminator d ∧ d.flowControl = .indirectCall ∧ d.nextIp = h := by
  cases w with
  | undecoded | hardEntry | foreign | ownBlock => exact absurd rfl hnew
  | terminator d =>
    refine ⟨d, rfl, ?_⟩
    simp only [endEdges, flowEdges] at hnew
    split at hnew
    · exact absurd rfl hnew
    · split at hnew
      · split at hnew
        · exact absurd rfl hnew
        · next hsoft =>
          -- a known entry is a tail call
          have hother : h ≠ d.nearBranchTarget := by
            intro heq
            refine hsoft ?_
            rw [← heq, hentry]
            simp [hne]
          exact absurd (claimOrQueueBlock_owners_ne c e hother) hnew
      · exact absurd rfl hnew
    · rw [branchTo_owners_hint _ _ _ hhint hne, branchTo_owners_hint _ _ _ hhint hne] at hnew
      exact absurd rfl hnew
    · split at hnew
      · rw [seedFunction_owners, branchTo_owners_hint _ _ _ hhint hne] at hnew
        exact absurd rfl hnew
      · rw [branchTo_owners_hint _ _ _ hhint hne] at hnew
        exact absurd rfl hnew
    · exact absurd rfl hnew
    · next hflow =>
      split at hnew
      · refine ⟨hflow, ?_⟩
        by_contra hother
        exact hnew (claimOrQueueBlock_owners_ne c e (Ne.symm hother))
      · exact absurd rfl hnew
    · exact absurd rfl hnew
    · exact absurd rfl hnew
    · exact absurd rfl hnew
    · exact absurd rfl hnew

variable (inp) in
/-- The next step decodes a block of another function that ends with an indirect call right
before `h`. -/
structure CallsBefore (s : State) (t : Task) (h : Nat) : Prop where
  decodes : ∃ start rest, Decodes s t start rest ∧ ∃ d, (walkFrom inp s.claims t start).2 = .terminator d ∧
    d.flowControl = .indirectCall ∧ d.nextIp = h
  other : h ≠ t.entry
  free : s.claims.blockOwners h = none

/-- A step that claims a trusted entry for another function. -/
theorem Move.callsBefore (hmove : Move inp s s') (hs : Sound s) (hhint : isHardFunctionEntry inp h = true)
    (hentry : s.claims.functionEntries h = true) (hfree : s.claims.blockOwners h = none) {e : Nat}
    (hnew : s'.claims.blockOwners h = some e) (hne : h ≠ e) :
    ∃ t, s.task = some t ∧ t.entry = e ∧ CallsBefore inp s t h := by
  rcases hmove.owner_cases hs h with heq | ⟨-, t', ht', howner⟩ | ⟨-, hnone⟩
  · rw [heq, hfree] at hnew; cases hnew
  · cases hmove with
    | finish => cases ht'
    | pass => rw [hfree] at hnew; cases hnew
    | @decode t start rest htask hqueue hblock hmine =>
      have hentry' : t.entry = e := by
        rw [hnew] at howner
        rw [Option.some.inj howner, ← Option.some.inj ht']
      subst hentry'
      rw [hs.decodeClaims_eq htask hqueue] at hnew
      obtain ⟨d, hend, hflow, hnext⟩ := endEdges_claims_hint (c := { s.claims with blockQueue := rest }) hhint hne hentry
        (fun heq => by rw [show s.claims.blockOwners h = none from hfree] at heq; exact Option.some_ne_none _ (hnew.symm.trans heq))
      refine ⟨t, htask, rfl, ⟨start, rest, ⟨htask, hqueue, hblock⟩, d, ?_, hflow, hnext⟩, hne, hfree⟩
      rw [← hend]
      exact congrArg Prod.snd (walkFrom_congr (by rfl) t start)
    | ignore => rw [hfree] at hnew; cases hnew
    | @enter entry rest htask hworklist _ _ hmine =>
      have hentry' : entry = e := by
        rw [hnew] at howner
        rw [Option.some.inj howner, ← Option.some.inj ht']
      have hold : (Claims.own { s.claims with worklist := rest } entry entry).blockOwners h = none := by
        unfold Claims.own
        split
        · rw [← hfree]
          exact Function.update_of_ne (hentry' ▸ hne) _ _
        · exact hfree
      exact absurd (hnew.symm.trans hold) (Option.some_ne_none _)
    | gaps htask => rw [show (seedInt3GapLeaves inp s).task = none from htask] at ht'; cases ht'
    | filters htask =>
      rw [show (seedAccessViolationFilterLeaves inp s).task = none from (foldl_carve_task _ s).trans htask] at ht'
      cases ht'
  · rw [hnone] at hnew; cases hnew

/-! ## Guarded entries -/

variable (inp) in
/-- A function takes an entry that is not its own: one that is no function yet, or one that
lies behind its own entry. -/
def Absorbs (s : State) (h : Nat) : Prop := ∃ t, CallsBefore inp s t h ∧ (s.functions.get h = none ∨ t.entry ≤ h)

variable (inp) in
/-- A trusted entry belongs to its own function or to nobody. -/
structure Guarded (s : State) (h : Nat) : Prop where
  entry : s.claims.functionEntries h = true
  owner : ∀ e, s.claims.blockOwners h = some e → e = h ∨ (s.functions.get h).isSome ∧ h < e
  block : ∀ e va n es, HasBlock s e va n es → ∀ d ∈ inp.code.sweep va n, d.ip = h → e = h
  found : h ∈ s.claims.worklist ∨ (s.functions.get h).isSome ∨ ∃ t, s.task = some t ∧ t.entry = h

theorem start_guarded (hseed : h ∈ inp.seeds) : Guarded inp (start inp) h where
  entry := by simpa [start] using hseed
  owner e he := by cases he
  block e va n es hb := absurd hb not_hasBlock_start
  found := .inl hseed

theorem guarded_step (hr : Reached inp s) (hguarded : Guarded inp s h) (hhint : isHardFunctionEntry inp h = true)
    (hexec : inp.space.isExecutableVa h = true) (hfree : ¬ Absorbs inp s h) (hstep : step inp s = some s') :
    Guarded inp s' h := by
  have hs := reached_sound hr
  have hmove := step_move hstep
  have hmono : (s.functions.get h).isSome → (s'.functions.get h).isSome := fun hsome => hmove.functions.mpr (.inl hsome)
  refine ⟨hmove.entries hguarded.entry, fun e he => ?_, fun e va n es hb d hd hip => ?_, ?_⟩
  · rcases hmove.owner_cases hs h with heq | ⟨hnone, -⟩ | ⟨-, hnone⟩
    · exact (hguarded.owner e (heq ▸ he)).imp_right (And.imp_left hmono)
    · by_cases hne : h = e
      · exact .inl hne.symm
      · obtain ⟨t, htask, rfl, hcalls⟩ := hmove.callsBefore hs hhint hguarded.entry hnone he hne
        -- no function absorbs it, so it is a function already, and this block will be dropped
        have hnot : ¬ (s.functions.get h = none ∨ t.entry ≤ h) := fun hor => hfree ⟨t, hcalls, hor⟩
        obtain ⟨hfun, hlt⟩ := not_or.mp hnot
        exact .inr ⟨hmono (Option.isSome_iff_ne_none.mpr hfun), by omega⟩
    · rw [he] at hnone; cases hnone
  · rcases hb.before hs hmove with hold | ⟨t, rest, hdec, rfl, hle, rfl, -⟩
    · exact hguarded.block e va n es hold d hd hip
    · rw [walkFrom_mem] at hd
      obtain ⟨hsoft, -, -⟩ := (walkFrom_walked s.claims t va).passes hd
      rw [hip, hhint] at hsoft
      rcases hsoft with hstart | hfalse | hentry
      · rcases hguarded.owner t.entry (by rw [hstart]; exact hs.queued_owner hdec.task hdec.queue) with heq | ⟨-, hlt⟩
        · exact heq
        · omega
      · cases hfalse
      · exact hentry.symm
  · rcases hguarded.found with hlisted | hfun | ⟨t, htask, hentry⟩
    · rcases hmove.waiting hlisted with hstays | (hfun | hnot | hother) | hbegun
      · exact .inl hstays
      · exact .inr (.inl (hmono hfun))
      · rw [hexec] at hnot; cases hnot
      · obtain ⟨owner, howner, hne⟩ := isOwnedByOther_eq_true.mp hother
        exact .inr (.inl (hmono ((hguarded.owner owner howner).resolve_left hne).1))
      · exact .inr (.inr ⟨_, hbegun, rfl⟩)
    · exact .inr (.inl (hmono hfun))
    · rcases hmove.task_kept htask with ⟨t', htask', hsame⟩ | hnone
      · exact .inr (.inr ⟨t', htask', hsame.trans hentry⟩)
      · exact .inr (.inl (hmove.functions.mpr (.inr ⟨t, htask, hnone, hentry⟩)))

/-! ## Absorbed entries -/

/-- An entry that is no function and is not going to be one. -/
structure Lost (s : State) (h : Nat) : Prop where
  entry : s.claims.functionEntries h = true
  function : s.functions.get h = none
  task : ∀ t, s.task = some t → t.entry ≠ h
  /-- Another function owns it, or it was passed over before its owner lost it. -/
  owner : (∃ e, s.claims.blockOwners h = some e ∧ e ≠ h) ∨ h ∉ s.claims.worklist

theorem lost_step (hr : Reached inp s) (hlost : Lost s h) (hstep : step inp s = some s') : Lost s' h := by
  have hs := reached_sound hr
  have hmove := step_move hstep
  have hunlisted : h ∉ s.claims.worklist → h ∉ s'.claims.worklist := by
    intro hnot hmem
    rcases hmove.listed hmem with hold | ⟨hfalse, -⟩
    · exact hnot hold
    · rw [hlost.entry] at hfalse; cases hfalse
  refine ⟨hmove.entries hlost.entry, ?_, fun t ht heq => ?_, ?_⟩
  · refine Option.not_isSome_iff_eq_none.mp fun hsome => ?_
    rcases hmove.functions.mp hsome with hfun | ⟨t, htask, -, hentry⟩
    · rw [hlost.function] at hfun; cases hfun
    · exact hlost.task t htask hentry
  · rcases hmove.task_before ht with ⟨t₀, htask, hsame⟩ | ⟨rest, hworklist, hmine⟩
    · exact hlost.task t₀ htask (hsame.trans heq)
    · rw [heq] at hworklist hmine
      rcases hlost.owner with ⟨e, he, hne⟩ | hnot
      · exact hne (isOwnedByOther_eq_false.mp hmine e he)
      · exact hnot (by rw [hworklist]; exact List.mem_cons_self)
  · rcases hlost.owner with ⟨e, he, hne⟩ | hnot
    · rcases hmove.owner_cases hs h with heq | ⟨hnone, -⟩ | ⟨hlast, -⟩
      · exact .inl ⟨e, heq.trans he, hne⟩
      · rw [he] at hnone; cases hnone
      · exact .inr (hunlisted (by rw [hlast.worklist]; exact List.not_mem_nil))
    · exact .inr (hunlisted hnot)

/-- The step that absorbs an entry claims it. -/
theorem CallsBefore.claimed (hs : Sound s) {t : Task} (hcalls : CallsBefore inp s t h)
    (hexec : inp.space.isExecutableVa h = true) (hstep : step inp s = some s') :
    s'.claims.blockOwners h = some t.entry ∧ s'.functions = s.functions ∧ s'.stage = s.stage ∧
      ∃ t', s'.task = some t' ∧ t'.entry = t.entry := by
  obtain ⟨⟨start, rest, hdec, d, hend, hflow, hnext⟩, hne, hfree⟩ := hcalls
  obtain rfl := Option.some.inj (hstep.symm.trans (hdec.step_eq hs))
  refine ⟨?_, rfl, rfl, _, rfl, rfl⟩
  have hend' : (walkFrom inp { s.claims with blockQueue := rest } t start).2 = .terminator d :=
    (congrArg Prod.snd (walkFrom_congr (by rfl) t start)).trans hend
  have hzero : h ≠ 0 := by
    have := d.ip_lt_nextIp
    omega
  have htarget : isExecutableTarget inp d.nextIp = true := by simp [isExecutableTarget, hnext, hzero, hexec]
  simp only [decodeBlock, hend', endEdges, flowEdges, hflow, if_pos htarget, Claims.claimOrQueueBlock]
  rw [hnext, if_pos hfree]
  exact Function.update_self _ _ _

/-! ## The result -/

variable (inp) in
/-- Every trusted entry that is executable code is a function, and in no block of another
one. -/
def HardBoundaries : Prop :=
  ∀ h ∈ inp.entryHints, inp.space.isExecutableVa h = true → (inp.code.atVa h).isSome →
    (∃ f ∈ discover inp, f.entryVa = h) ∧
      ∀ f ∈ discover inp, f.entryVa ≠ h → ∀ b ∈ f.blocks, ∀ d ∈ span inp b, d.ip ≠ h

theorem mem_discover_iff : (∃ f ∈ discover inp, f.entryVa = h) ↔ ((finalState inp).functions.get h).isSome :=
  KeyedList.get_isSome_iff.symm

theorem boundary_of_guarded (hguarded : Guarded inp (finalState inp) h) :
    (∃ f ∈ discover inp, f.entryVa = h) ∧
      ∀ f ∈ discover inp, f.entryVa ≠ h → ∀ b ∈ f.blocks, ∀ d ∈ span inp b, d.ip ≠ h := by
  obtain ⟨htask, hworklist, -⟩ := halted (discover_ends inp)
  constructor
  · refine mem_discover_iff.mpr ?_
    rcases hguarded.found with hlisted | hfun | ⟨t, ht, -⟩
    · rw [hworklist] at hlisted; cases hlisted
    · exact hfun
    · rw [htask] at ht; cases ht
  · intro f hf hne b hb d hd hip
    exact hne (hguarded.block _ _ _ _ (hasBlock_of_mem hf hb) d hd hip)

/-- An absorbed entry is no function in the end, or lies in a block of another one. -/
theorem not_boundary_of_absorbs (hr : Reached inp s) (habsorbs : Absorbs inp s h) (hseed : h ∈ inp.seeds)
    (hexec : inp.space.isExecutableVa h = true) {d : DecodedInstr} (hat : inp.code.atVa h = some d) :
    ¬ ((∃ f ∈ discover inp, f.entryVa = h) ∧
      ∀ f ∈ discover inp, f.entryVa ≠ h → ∀ b ∈ f.blocks, ∀ d ∈ span inp b, d.ip ≠ h) := by
  have hs := reached_sound hr
  obtain ⟨t, hcalls, hor⟩ := habsorbs
  obtain ⟨start, rest, hdec, -⟩ := hcalls.decodes
  obtain ⟨s', hstep⟩ : ∃ s', step inp s = some s' := ⟨_, hdec.step_eq hs⟩
  have hr' := Machine.reaches_step hr hstep
  obtain ⟨hclaimed, hfunctions, hstage, t', htask', hsame⟩ := hcalls.claimed hs hexec hstep
  rintro ⟨hfound, hapart⟩
  cases hfun : s.functions.get h with
  | none =>
    have hentry : s.claims.functionEntries h = true := by
      refine Machine.inv_of_reaches (P := fun s => s.claims.functionEntries h = true) (by simpa [Discovery.start] using hseed)
        (fun _ _ _ hold hstep => (step_move hstep).entries hold) hr
    have hlost : Lost (finalState inp) h := by
      refine reached_to_end (P := fun s => Lost s h) (fun _ _ hr' hstep hlost => lost_step hr' hlost hstep) hr' ?_
      refine ⟨(step_move hstep).entries hentry, ?_, fun t₁ ht₁ => ?_, .inl ⟨t.entry, hclaimed, Ne.symm hcalls.other⟩⟩
      · rw [hfunctions, hfun]
      · obtain rfl := Option.some.inj (htask'.symm.trans ht₁)
        rw [hsame]
        exact Ne.symm hcalls.other
    rw [mem_discover_iff, hlost.function] at hfound
    cases hfound
  | some f =>
    have hle : t.entry ≤ h := hor.resolve_left (by rw [hfun]; exact Option.some_ne_none _)
    -- the entry of a function has lost its owner: the last pass is over
    have hlast : s.stage = .filters := by
      by_contra hearly
      have howned := entry_owned hr hearly (by rw [hfun]; rfl)
      rw [hcalls.free] at howned
      cases howned
    have hend := owner_stays hr' (hstage.trans hlast) hclaimed
    have hend_sound := reached_sound (reached_finalState inp)
    obtain ⟨htask, -, -⟩ := halted (discover_ends inp)
    rcases hend_sound.block_or_queued hend hle with ⟨n, es, hb⟩ | ⟨t₁, ht₁, -⟩
    · obtain ⟨g, hg, hgentry, b, hbg, hva, hcount, -⟩ := hasBlock_discover.mp hb
      have hmem : d ∈ span inp b := by
        rw [span, hva, hcount]
        exact hb.start_mem (reached_finalState inp) hat
      exact hapart g hg (hgentry ▸ Ne.symm hcalls.other) b hbg d hmem (CodeIndex.atVa_ip hat)
    · rw [htask] at ht₁; cases ht₁

/-- Trusted entries are boundaries exactly if no indirect call right before one of them
makes another function take it. -/
theorem boundaries_iff (inp : Input) (hseeds : ∀ h ∈ inp.entryHints, h ∈ inp.seeds) :
    HardBoundaries inp ↔ ∀ s, Reached inp s → ∀ h ∈ inp.entryHints, inp.space.isExecutableVa h = true →
      (inp.code.atVa h).isSome → ¬ Absorbs inp s h := by
  constructor
  · intro hbound s hr h hhint hexec hat habsorbs
    obtain ⟨d, hd⟩ := Option.isSome_iff_exists.mp hat
    exact not_boundary_of_absorbs hr habsorbs (hseeds h hhint) hexec hd (hbound h hhint hexec hat)
  · intro hfree h hhint hexec hat
    refine boundary_of_guarded ?_
    refine Machine.inv_of_reaches (P := fun s => Guarded inp s h) (start_guarded (hseeds h hhint)) ?_ (reached_finalState inp)
    intro s s' hr hguarded hstep
    exact guarded_step hr hguarded (by simpa [isHardFunctionEntry] using hhint) hexec (hfree s hr h hhint hexec hat) hstep

/-- An indirect call, and a trusted entry right behind it. -/
def returnHint : Input :=
  { code := .ofList
      [flowInstr 0x1000 2 .indirectCall 0 Nat.two_pos end_1002,
       flowInstr 0x1002 1 .ret 0 Nat.one_pos end_1003]
    space := textSpace, seeds := [0x1000, 0x1002], entryHints := [0x1002] }

/-- The function before it takes the entry, and it never becomes a function. -/
theorem returnHint_absorbed : ¬ HardBoundaries returnHint := by
  intro h
  have hnone : (discover returnHint).all (fun f => f.entryVa ≠ 0x1002) = true := by
    decide +kernel
  obtain ⟨⟨f, hf, hentry⟩, -⟩ := h 0x1002 (by decide) (by decide +kernel) (by decide +kernel)
  simp only [List.all_eq_true, decide_eq_true_eq] at hnone
  exact hnone f hf hentry

theorem returnHint_boundaries_iff :
    (∀ h ∈ returnHint.entryHints, h ∈ returnHint.seeds) ∧
      (HardBoundaries returnHint ↔ ∀ s, Reached returnHint s → ∀ h ∈ returnHint.entryHints,
        returnHint.space.isExecutableVa h = true → (returnHint.code.atVa h).isSome → ¬ Absorbs returnHint s h) :=
  ⟨by decide, boundaries_iff returnHint (by decide)⟩

end Windy.Discovery
