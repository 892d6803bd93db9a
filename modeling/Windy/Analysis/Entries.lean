import Windy.Analysis.Blocks

/- The entries of a run: how they become known, wait and become functions.

   What is proved:
     1. `Move.entries`, `Move.listed`: a known entry stays known, and only an entry that was
        not known before is put on the worklist.
     2. `Move.waiting`: an entry leaves the worklist when it is visited.
     3. `entry_owned`: until the last pass a function owns its entry. -/
namespace Windy.Discovery

variable {inp : Input} {s s' : State} {va : Nat}

theorem foldl_seedFunction_grows (vas : List Nat) (c : Claims) (e : Nat) : Grows e c (vas.foldl Claims.seedFunction c) := by
  induction vas generalizing c with
  | nil => exact Grows.refl c
  | cons va vas ih => exact (c.seedFunction_grows va e).trans (ih _)

theorem mem_foldl_seedFunction {vas : List Nat} (hva : va ∈ vas) (c : Claims) :
    (vas.foldl Claims.seedFunction c).functionEntries va = true := by
  induction vas generalizing c with
  | nil => cases hva
  | cons a vas ih =>
    rcases List.mem_cons.mp hva with rfl | hmem
    · refine (foldl_seedFunction_grows vas _ 0).entries va ?_
      unfold Claims.seedFunction
      split
      · assumption
      · exact Function.update_self _ _ _
    · exact ih hmem _

theorem foldl_seedFunction_listed (vas : List Nat) (c : Claims) (hva : va ∈ (vas.foldl Claims.seedFunction c).worklist) :
    va ∈ c.worklist ∨ va ∈ vas := by
  induction vas generalizing c with
  | nil => exact .inl hva
  | cons a vas ih =>
    rcases ih _ hva with hmem | hmem
    · unfold Claims.seedFunction at hmem
      split at hmem
      · exact .inl hmem
      · rcases List.mem_append.mp hmem with hold | hnew
        · exact .inl hold
        · exact .inr (List.mem_singleton.mp hnew ▸ List.mem_cons_self)
    · exact .inr (List.mem_cons_of_mem _ hmem)

/-- The claims before the entries of a step are added: the last pass has cut out by then,
a visit has taken its entry from the worklist. -/
theorem Move.entry_claims (hmove : Move inp s s') :
    (∃ c e, c.functionEntries = s.claims.functionEntries ∧ c.worklist = s.claims.worklist ∧ Grows e c s'.claims) ∨
      ∃ entry rest, s.task = none ∧ s.claims.worklist = entry :: rest ∧ s'.claims.worklist = rest ∧
        s'.claims.functionEntries = s.claims.functionEntries := by
  cases hmove with
  | finish => exact .inl ⟨s.claims, 0, rfl, rfl, Grows.refl _⟩
  | @pass t start rest => exact .inl ⟨{ s.claims with blockQueue := rest }, 0, rfl, rfl, Grows.refl _⟩
  | @decode t start rest htask hqueue hnew hmine =>
    refine .inl ⟨decodeClaims s t start rest, t.entry, ?_, ?_, decodeBlock_grows inp _ t start⟩
    · unfold decodeClaims Claims.own
      split <;> rfl
    · unfold decodeClaims Claims.own
      split <;> rfl
  | ignore htask hworklist => exact .inr ⟨_, _, htask, hworklist, rfl, rfl⟩
  | @enter entry rest htask hworklist hnew hexec hmine =>
    refine .inr ⟨entry, rest, htask, hworklist, ?_, ?_⟩
    · change (Claims.own _ entry entry).worklist = rest
      unfold Claims.own
      split <;> rfl
    · change (Claims.own _ entry entry).functionEntries = _
      unfold Claims.own
      split <;> rfl
  | gaps => exact .inl ⟨s.claims, 0, rfl, rfl, foldl_seedFunction_grows _ _ _⟩
  | filters =>
    obtain ⟨owners, hclaims⟩ := foldl_carve_claims (filterCandidates inp) s
    refine .inl ⟨((filterCandidates inp).foldl carve s).claims, 0, ?_, ?_, foldl_seedFunction_grows _ _ _⟩
    · rw [hclaims]
    · rw [hclaims]

theorem Move.entries (hmove : Move inp s s') (hva : s.claims.functionEntries va = true) :
    s'.claims.functionEntries va = true := by
  rcases hmove.entry_claims with ⟨c, e, hentries, -, hgrows⟩ | ⟨entry, rest, -, -, -, hentries⟩
  · exact hgrows.entries va (by rw [hentries]; exact hva)
  · rw [hentries]
    exact hva

/-- A new entry is put on the worklist. -/
theorem Move.entered (hmove : Move inp s s') (hva : s'.claims.functionEntries va = true) :
    s.claims.functionEntries va = true ∨ va ∈ s'.claims.worklist := by
  rcases hmove.entry_claims with ⟨c, e, hentries, -, hgrows⟩ | ⟨entry, rest, -, -, -, hentries⟩
  · rw [← hentries]
    exact hgrows.entered va hva
  · rw [← hentries]
    exact .inl hva

theorem Move.listed (hmove : Move inp s s') (hva : va ∈ s'.claims.worklist) :
    va ∈ s.claims.worklist ∨ s.claims.functionEntries va = false ∧ s'.claims.functionEntries va = true := by
  rcases hmove.entry_claims with ⟨c, e, hentries, hworklist, hgrows⟩ | ⟨entry, rest, -, hworklist, hrest, -⟩
  · rw [← hentries, ← hworklist]
    exact hgrows.listed va hva
  · rw [hworklist]
    rw [hrest] at hva
    exact .inl (List.mem_cons_of_mem _ hva)

theorem finish_functions (s : State) (t : Task) :
    ((finish s t).functions.get va).isSome ↔ t.entry = va ∨ (s.functions.get va).isSome := by
  change (KeyedList.get Function.entryVa va (KeyedList.put Function.entryVa _ s.functions)).isSome ↔ _
  rw [KeyedList.get_put]
  split
  · next heq => exact ⟨fun _ => .inl heq, fun _ => rfl⟩
  · next hne => exact ⟨.inr, fun h => h.resolve_left hne⟩

theorem carve_functions (s : State) (entry : Nat) :
    ((carve s entry).functions.get va).isSome = (s.functions.get va).isSome := by
  unfold carve
  split
  · rfl
  · split
    · split
      · rfl
      · change (KeyedList.get Function.entryVa va (s.functions.map _)).isSome = _
        rw [KeyedList.get_map _ (fun f => by split <;> rfl), Option.isSome_map]
        rfl
    · rfl

theorem filters_functions_get (s : State) :
    ((seedAccessViolationFilterLeaves inp s).functions.get va).isSome = (s.functions.get va).isSome := by
  change (((filterCandidates inp).foldl carve s).functions.get va).isSome = _
  generalize filterCandidates inp = entries
  induction entries generalizing s with
  | nil => rfl
  | cons entry entries ih => rw [List.foldl_cons, ih, carve_functions]

/-- Which addresses are functions: more with every function that is finished. -/
theorem Move.functions (hmove : Move inp s s') :
    (s'.functions.get va).isSome ↔ (s.functions.get va).isSome ∨ ∃ t, s.task = some t ∧ s'.task = none ∧ t.entry = va := by
  cases hmove with
  | @finish t htask hqueue =>
    rw [finish_functions, htask]
    constructor
    · rintro (heq | hsome)
      · exact .inr ⟨t, rfl, rfl, heq⟩
      · exact .inl hsome
    · rintro (hsome | ⟨t', ht', -, heq⟩)
      · exact .inr hsome
      · exact .inl (Option.some.inj ht' ▸ heq)
  | pass htask hqueue hseen => simp [htask]
  | decode htask hqueue hnew hmine => simp
  | ignore htask hworklist hseen => simp [htask]
  | enter htask hworklist hnew hexec hmine => simp
  | gaps htask hworklist hstage => simp [htask, seedInt3GapLeaves]
  | filters htask hworklist hstage => rw [filters_functions_get]; simp [htask]

/-- The function being discovered stays the same until it is finished. -/
theorem Move.task_kept (hmove : Move inp s s') {t : Task} (htask : s.task = some t) :
    (∃ t', s'.task = some t' ∧ t'.entry = t.entry) ∨ s'.task = none := by
  cases hmove with
  | finish => exact .inr rfl
  | pass => exact .inl ⟨t, htask, rfl⟩
  | decode htask' =>
    obtain rfl := Option.some.inj (htask'.symm.trans htask)
    exact .inl ⟨_, rfl, rfl⟩
  | ignore hnone | enter hnone | gaps hnone | filters hnone => rw [hnone] at htask; cases htask

/-- A function is begun when its entry is visited and nobody else owns it. -/
theorem Move.task_before (hmove : Move inp s s') {t : Task} (htask : s'.task = some t) :
    (∃ t₀, s.task = some t₀ ∧ t₀.entry = t.entry) ∨
      ∃ rest, s.claims.worklist = t.entry :: rest ∧ isOwnedByOther s.claims t.entry t.entry = false := by
  cases hmove with
  | finish => cases htask
  | pass => exact .inl ⟨t, htask, rfl⟩
  | decode hold =>
    obtain rfl := Option.some.inj htask
    exact .inl ⟨_, hold, rfl⟩
  | ignore hnone | gaps hnone => exact absurd (hnone.symm.trans htask) (by simp)
  | enter hold hworklist hnew hexec hmine =>
    obtain rfl := Option.some.inj htask
    exact .inr ⟨_, hworklist, hmine⟩
  | filters hnone => exact absurd (((foldl_carve_task _ s).trans hnone).symm.trans htask) (by simp)

/-- An entry waits until it is visited. A visit passes over it, or begins its function. -/
theorem Move.waiting (hmove : Move inp s s') (hva : va ∈ s.claims.worklist) :
    va ∈ s'.claims.worklist ∨
      ((s.functions.get va).isSome ∨ inp.space.isExecutableVa va = false ∨ isOwnedByOther s.claims va va = true) ∨
      s'.task = some ⟨va, []⟩ := by
  cases hmove with
  | ignore htask hworklist hseen =>
    rw [hworklist] at hva
    rcases List.mem_cons.mp hva with rfl | hrest
    · exact .inr (.inl hseen)
    · exact .inl hrest
  | @enter entry rest htask hworklist hnew hexec hmine =>
    rw [hworklist] at hva
    rcases List.mem_cons.mp hva with rfl | hrest
    · exact .inr (.inr rfl)
    · left
      change va ∈ (Claims.own _ entry entry).worklist
      unfold Claims.own
      split <;> exact hrest
  | finish | pass => exact .inl hva
  | @decode t start rest htask hqueue hnew hmine =>
    refine .inl ((decodeBlock_grows inp _ t start).worklist va ?_)
    unfold decodeClaims Claims.own
    split <;> exact hva
  | gaps => exact .inl ((foldl_seedFunction_grows _ _ 0).worklist va hva)
  | filters =>
    obtain ⟨owners, hclaims⟩ := foldl_carve_claims (filterCandidates inp) s
    refine .inl ((foldl_seedFunction_grows _ _ 0).worklist va ?_)
    rw [hclaims]
    exact hva

/-- What waits, is being discovered or is a function is a known entry. -/
theorem reached_known (h : Reached inp s)
    (hva : va ∈ s.claims.worklist ∨ (s.functions.get va).isSome ∨ ∃ t, s.task = some t ∧ t.entry = va) :
    s.claims.functionEntries va = true := by
  refine Machine.inv_of_reaches (P := fun s => va ∈ s.claims.worklist ∨ (s.functions.get va).isSome ∨
    (∃ t, s.task = some t ∧ t.entry = va) → s.claims.functionEntries va = true) ?_ (fun t u ht hold hstep hu => ?_) h hva
  · rintro (hseed | hfun | ⟨t, ht, -⟩)
    · simpa [start] using hseed
    · cases hfun
    · cases ht
  · have hmove := step_move hstep
    rcases hu with hlisted | hfun | ⟨task, htask, rfl⟩
    · rcases hmove.listed hlisted with hbefore | ⟨-, hknown⟩
      · exact hmove.entries (hold (.inl hbefore))
      · exact hknown
    · refine hmove.entries (hold ?_)
      rcases hmove.functions.mp hfun with hbefore | ⟨task, htask, -, hentry⟩
      · exact .inr (.inl hbefore)
      · exact .inr (.inr ⟨task, htask, hentry⟩)
    · refine hmove.entries (hold ?_)
      rcases hmove.task_before htask with ⟨task₀, htask₀, hsame⟩ | ⟨rest, hworklist, -⟩
      · exact .inr (.inr ⟨task₀, htask₀, hsame⟩)
      · exact .inl (by rw [hworklist]; exact List.mem_cons_self)

/-- The last pass is the last. -/
theorem Move.stage_filters (hmove : Move inp s s') (hstage : s.stage = .filters) : s'.stage = .filters := by
  cases hmove with
  | finish | pass | decode | ignore | enter => exact hstage
  | gaps _ _ hseeds => rw [hstage] at hseeds; cases hseeds
  | filters => rfl

theorem LastPass.stage_eq (h : LastPass inp s s') : s'.stage = .filters := by
  rw [h.eq]
  rfl

/-- A new function owns its entry. -/
theorem Move.function_new (hmove : Move inp s s') (hs : Sound s) (hnone : s.functions.get va = none) :
    s'.functions.get va = none ∨ (s'.claims.blockOwners va).isSome := by
  by_cases hfun : (s'.functions.get va).isSome
  · rcases hmove.functions.mp hfun with hbefore | ⟨task, htask, -, rfl⟩
    · rw [hnone] at hbefore; cases hbefore
    · have howner := (hs.task task htask).entry
      rcases hmove.owner_cases hs task.entry with heq | ⟨hfree, -⟩ | ⟨hlast, -⟩
      · exact .inr (by rw [heq, howner]; rfl)
      · rw [howner] at hfree; cases hfree
      · rw [hlast.task] at htask; cases htask
  · exact .inl (Option.not_isSome_iff_eq_none.mp hfun)

/-- After the last pass an owner stays. -/
theorem Move.owner_kept (hmove : Move inp s s') (hs : Sound s) (hstage : s.stage = .filters) {e : Nat}
    (howner : s.claims.blockOwners va = some e) : s'.claims.blockOwners va = some e := by
  rcases hmove.owner_cases hs va with heq | ⟨hnone, -⟩ | ⟨hlast, -⟩
  · rw [heq, howner]
  · rw [howner] at hnone; cases hnone
  · rw [hlast.stage] at hstage; cases hstage

theorem owner_stays (hr : Reached inp s) (hstage : s.stage = .filters) {e : Nat}
    (howner : s.claims.blockOwners va = some e) : (finalState inp).claims.blockOwners va = some e := by
  refine (reached_to_end (P := fun s => s.stage = .filters ∧ s.claims.blockOwners va = some e) ?_ hr ⟨hstage, howner⟩).2
  rintro t u ht hstep ⟨hfilters, hold⟩
  exact ⟨(step_move hstep).stage_filters hfilters, (step_move hstep).owner_kept (reached_sound ht) hfilters hold⟩

/-- A function is finished when nothing is queued. -/
theorem Move.finished (hmove : Move inp s s') {t : Task} (htask : s.task = some t) (hnone : s'.task = none) :
    s.claims.blockQueue = [] := by
  cases hmove with
  | finish _ hqueue => exact hqueue
  | pass => rw [htask] at hnone; cases hnone
  | decode => cases hnone
  | ignore hnone' | enter hnone' | gaps hnone' | filters hnone' => rw [hnone'] at htask; cases htask

/-- After the last pass only the targets of calls are put on the worklist. -/
theorem Move.listed_call (hmove : Move inp s s') (hstage : s.stage = .filters) (hva : va ∈ s'.claims.worklist) :
    va ∈ s.claims.worklist ∨ ∃ d ∈ inp.code.instrs, d.flowControl = .call ∧ d.nearBranchTarget = va := by
  cases hmove with
  | finish | pass => exact .inl hva
  | ignore htask hworklist =>
    rw [hworklist]
    exact .inl (List.mem_cons_of_mem _ hva)
  | @enter entry rest htask hworklist =>
    have hrest : (Claims.own { s.claims with worklist := rest } entry entry).worklist = rest := by
      unfold Claims.own
      split <;> rfl
    rw [hworklist]
    exact .inl (List.mem_cons_of_mem _ (hrest ▸ hva))
  | gaps _ _ hseeds => rw [hstage] at hseeds; cases hseeds
  | filters _ _ hgaps => rw [hstage] at hgaps; cases hgaps
  | @decode t start rest htask hqueue hnew hmine =>
    have hsame : (decodeClaims s t start rest).worklist = s.claims.worklist := by
      unfold decodeClaims Claims.own
      split <;> rfl
    rcases endEdges_listed _ _ _ va hva with hold | ⟨d, hend, hflow, htarget⟩
    · exact .inl (hsame ▸ hold)
    · exact .inr ⟨d, ((walkFrom_walked _ t start).terminator_mem hend).2, hflow, htarget⟩

/-- Until the last pass a function owns its entry. -/
theorem entry_owned (h : Reached inp s) (hstage : s.stage ≠ .filters) (hva : (s.functions.get va).isSome) :
    s.claims.blockOwners va = some va := by
  refine Machine.inv_of_reaches (P := fun s => s.stage ≠ .filters → (s.functions.get va).isSome →
    s.claims.blockOwners va = some va) (fun _ hsome => by cases hsome) (fun t u ht hold hstep hu hsome => ?_) h hstage hva
  have hmove := step_move hstep
  have hs := reached_sound ht
  have hbefore : t.claims.blockOwners va = some va := by
    rcases hmove.functions.mp hsome with hfun | ⟨task, htask, -, rfl⟩
    · exact hold (fun hfilters => hu (hmove.stage_filters hfilters)) hfun
    · exact (hs.task task htask).entry
  rcases hmove.owner_cases hs va with heq | ⟨hnone, -⟩ | ⟨hlast, -⟩
  · rw [heq, hbefore]
  · rw [hbefore] at hnone; cases hnone
  · exact absurd hlast.stage_eq hu

end Windy.Discovery
