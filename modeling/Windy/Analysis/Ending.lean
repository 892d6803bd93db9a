import Windy.Analysis.Owners

/- The discovery comes to its end.

   Every address the run comes upon is a seed, the address of an instruction, the one behind it or
   its target. Each of them becomes an entry once, and a block once until the last pass frees it.

   What is proved:
     `discover_ends`: the machine stops within `stepsLeft` steps. -/
namespace Windy.Discovery

variable {inp : Input}

/-! ## The end of the run -/

variable (inp) in
/-- Claims that leave no more to visit than there was to come upon. -/
structure Spends (c c' : Claims) : Prop where
  entries : plannedEntries inp c' ≤ plannedEntries inp c
  blocks : plannedBlocks inp c' ≤ plannedBlocks inp c

theorem Spends.trans {c c' c'' : Claims} (h : Spends inp c c') (h' : Spends inp c' c'') : Spends inp c c'' :=
  ⟨h'.entries.trans h.entries, h'.blocks.trans h.blocks⟩

theorem claimOrQueueBlock_spends {va : Nat} (hva : va ∈ addresses inp) (c : Claims) (functionEntry : Nat) :
    Spends inp c (c.claimOrQueueBlock va functionEntry) := by
  unfold Claims.claimOrQueueBlock
  split
  · next hnone =>
    refine ⟨le_rfl, ?_⟩
    have hlt : (addresses inp).countP (fun a => (Function.update c.blockOwners va (some functionEntry) a).isNone) <
        (addresses inp).countP fun a => (c.blockOwners a).isNone := by
      refine Machine.countP_lt_countP (fun a ha => ?_) hva (by simp [hnone]) (by simp)
      by_cases heq : a = va
      · simp [heq] at ha
      · simpa [heq] using ha
    simp only [plannedBlocks, List.length_append, List.length_singleton]
    omega
  · exact ⟨le_rfl, le_rfl⟩

theorem seedFunction_spends {va : Nat} (hva : va ∈ addresses inp) (c : Claims) : Spends inp c (c.seedFunction va) := by
  unfold Claims.seedFunction
  split
  · exact ⟨le_rfl, le_rfl⟩
  · next hnew =>
    refine ⟨?_, le_rfl⟩
    have hlt : (addresses inp).countP (fun a => !(Function.update c.functionEntries va true a)) <
        (addresses inp).countP fun a => !c.functionEntries a := by
      refine Machine.countP_lt_countP (fun a ha => ?_) hva (by simpa using hnew) (by simp)
      by_cases heq : a = va
      · simp [heq] at ha
      · simpa [heq] using ha
    simp only [plannedEntries, List.length_append, List.length_singleton]
    omega

theorem foldl_seedFunction_spends {vas : List Nat} (hvas : ∀ va ∈ vas, va ∈ addresses inp) (c : Claims) :
    Spends inp c (vas.foldl Claims.seedFunction c) := by
  induction vas generalizing c with
  | nil => exact ⟨le_rfl, le_rfl⟩
  | cons va vas ih =>
    refine (seedFunction_spends (hvas va List.mem_cons_self) c).trans (ih (fun a ha => ?_) _)
    exact hvas a (List.mem_cons_of_mem _ ha)

theorem mem_addresses {d : DecodedInstr} (hd : d ∈ inp.code.instrs) :
    d.ip ∈ addresses inp ∧ ∀ va ∈ claimable d, va ∈ addresses inp := by
  have hall : ∀ va ∈ [d.ip, d.nextIp, d.nearBranchTarget], va ∈ addresses inp := fun va hva =>
    List.mem_append_right _ (List.mem_flatMap.mpr ⟨d, hd, hva⟩)
  exact ⟨hall _ List.mem_cons_self, fun va hva => hall va (List.mem_cons_of_mem _ hva)⟩

/-- The last instruction of a walk is one of the index. -/
theorem Walked.terminator_mem {c : Claims} {t : Task} {start va : Nat} {ds : List DecodedInstr} {d : DecodedInstr}
    {e : WalkEnd} (h : Walked inp c t start va ds e) (he : e = .terminator d) : d ∈ ds ∧ d ∈ inp.code.instrs := by
  induction h with
  | undecoded | hardEntry | foreign | ownBlock => cases he
  | terminator hat =>
    cases he
    exact ⟨List.mem_singleton_self _, CodeIndex.atVa_mem hat⟩
  | next _ _ _ _ ih => exact (ih he).imp_left (List.mem_cons_of_mem _)

theorem decodeBlock_spends (c : Claims) (t : Task) (start : Nat) :
    Spends inp c (decodeBlock inp c t start).1 := by
  have hmem : ∀ d, (walkFrom inp c t start).2 = .terminator d → ∀ va ∈ claimable d, va ∈ addresses inp := fun d hd =>
    (mem_addresses ((walkFrom_walked c t start).terminator_mem hd).2).2
  exact endEdges_rel (R := Spends inp) (fun _ => ⟨le_rfl, le_rfl⟩) Spends.trans _
    (fun d hd c va hva => claimOrQueueBlock_spends (hmem d hd va hva) c t.entry)
    (fun d hd _ c => seedFunction_spends (hmem d hd _ (List.mem_cons_of_mem _ List.mem_cons_self)) c) c

theorem gapCandidates_subset (s : State) (prev : Bool) (ds : List DecodedInstr) :
    ∀ va ∈ gapCandidates inp s prev ds, ∃ d ∈ ds, d.ip = va := by
  induction ds generalizing prev with
  | nil => simp [gapCandidates]
  | cons d ds ih =>
    have hrest : ∀ prev, ∀ va ∈ gapCandidates inp s prev ds, ∃ b ∈ d :: ds, b.ip = va := fun prev va hva => by
      obtain ⟨b, hb, hip⟩ := ih prev va hva
      exact ⟨b, List.mem_cons_of_mem _ hb, hip⟩
    simp only [gapCandidates]
    split
    · exact hrest true
    · split
      · intro va hva
        rcases List.mem_cons.mp hva with rfl | hmem
        · exact ⟨d, List.mem_cons_self, rfl⟩
        · exact hrest false va hmem
      · exact hrest false

theorem filterEntry_mem (entry : Nat) (before : List Nat) : filterEntry inp entry before ∈ entry :: before := by
  induction before generalizing entry with
  | nil => exact List.mem_singleton_self _
  | cons prev before ih =>
    simp only [filterEntry]
    split
    · exact List.mem_cons_self
    · split
      · exact List.mem_cons_self
      · exact List.mem_cons_of_mem _ (ih prev)

theorem mem_sortedIps {va : Nat} : va ∈ sortedIps inp ↔ ∃ d ∈ inp.code.instrs, d.ip = va := by
  simp [sortedIps]

variable (inp) in
theorem filterCandidates_subset : ∀ va ∈ filterCandidates inp, va ∈ addresses inp := by
  intro va hva
  simp only [filterCandidates, List.mem_insertionSort, List.mem_dedup, List.mem_filter, List.mem_map] at hva
  obtain ⟨⟨immVa, ⟨d, ⟨hd, -⟩, rfl⟩, rfl⟩, -⟩ := hva
  rcases List.mem_cons.mp (filterEntry_mem d.ip ((sortedIps inp).takeWhile fun ip => ip < d.ip).reverse) with heq | hmem
  · rw [heq]
    exact (mem_addresses hd).1
  · obtain ⟨b, hb, hip⟩ := mem_sortedIps.mp (List.takeWhile_subset _ (List.mem_reverse.mp hmem))
    rw [← hip]
    exact (mem_addresses hb).1

/-- Cutting out touches the owners only. -/
theorem foldl_carve_claims (entries : List Nat) (s : State) :
    ∃ owners, (entries.foldl carve s).claims = { s.claims with blockOwners := owners } := by
  induction entries generalizing s with
  | nil => exact ⟨_, rfl⟩
  | cons entry entries ih =>
    obtain ⟨owners, hrest⟩ := ih (carve s entry)
    refine ⟨owners, hrest.trans ?_⟩
    unfold carve
    split
    · rfl
    · split
      · split <;> rfl
      · rfl

variable (inp) in
theorem plannedBlocks_le (c : Claims) : plannedBlocks inp c ≤ (addresses inp).length + c.blockQueue.length :=
  Nat.add_le_add_right List.countP_le_length _

theorem stepsLeft_lt {s s' : State} (h : Sound s) (hmove : Move inp s s') : stepsLeft inp s' < stepsLeft inp s := by
  cases hmove with
  | finish htask hqueue => simp [stepsLeft, finish, htask]
  | pass htask hqueue hseen => simp [stepsLeft, plannedEntries, plannedBlocks, hqueue, htask]
  | @decode t start rest htask hqueue hnew hmine =>
    have hspends : Spends inp _ _ := decodeBlock_spends (decodeClaims s t start rest) t start
    rw [h.decodeClaims_eq htask hqueue] at hspends ⊢
    generalize decodeBlock inp { s.claims with blockQueue := rest } t start = decoded at hspends ⊢
    obtain ⟨hentries, hblocks⟩ := hspends
    have hpop : plannedBlocks inp { s.claims with blockQueue := rest } + 1 = plannedBlocks inp s.claims := by
      simp [plannedBlocks, hqueue, Nat.add_assoc]
    change _ ≤ plannedEntries inp s.claims at hentries
    simp only [stepsLeft, htask, Option.isSome_some, if_true]
    omega
  | ignore htask hworklist hseen =>
    simp only [stepsLeft, plannedEntries, plannedBlocks, hworklist, htask, List.length_cons]
    omega
  | @enter entry rest htask hworklist hnew hexec hmine =>
    have hown : (addresses inp).countP (fun va =>
          ((({ s.claims with worklist := rest } : Claims).own entry entry).blockOwners va).isNone) ≤
        (addresses inp).countP fun va => (s.claims.blockOwners va).isNone := by
      refine List.countP_mono_left fun va _ hva => ?_
      unfold Claims.own at hva
      split at hva
      · by_cases heq : va = entry
        · simp [heq] at hva
        · simpa [heq] using hva
      · exact hva
    have hentries : (({ s.claims with worklist := rest } : Claims).own entry entry).functionEntries =
        s.claims.functionEntries := by
      unfold Claims.own
      split <;> rfl
    have hrest : (({ s.claims with worklist := rest } : Claims).own entry entry).worklist = rest := by
      unfold Claims.own
      split <;> rfl
    generalize ({ s.claims with worklist := rest } : Claims).own entry entry = c at hown hentries hrest ⊢
    simp only [stepsLeft, plannedEntries, plannedBlocks, hentries, hrest, hworklist, htask, List.length_cons,
      List.length_nil, Option.isSome_some, Option.isSome_none, if_true, Bool.false_eq_true, if_false]
    omega
  | gaps htask hworklist hstage =>
    have hsub : ∀ va ∈ gapCandidates inp s false inp.code.instrs, va ∈ addresses inp := fun va hva => by
      obtain ⟨d, hd, hip⟩ := gapCandidates_subset s false _ va hva
      exact hip ▸ (mem_addresses hd).1
    obtain ⟨hentries, hblocks⟩ := foldl_seedFunction_spends hsub s.claims
    simp only [stepsLeft, seedInt3GapLeaves, htask, hstage, Stage.passesLeft]
    omega
  | filters htask hworklist hstage =>
    have hsame : plannedEntries inp ((filterCandidates inp).foldl carve s).claims = plannedEntries inp s.claims ∧
        ((filterCandidates inp).foldl carve s).claims.blockQueue = [] := by
      obtain ⟨owners, hclaims⟩ := foldl_carve_claims (filterCandidates inp) s
      rw [hclaims]
      exact ⟨rfl, h.idle htask⟩
    obtain ⟨hentries, hblocks⟩ := foldl_seedFunction_spends (filterCandidates_subset inp)
      ((filterCandidates inp).foldl carve s).claims
    have hfree := plannedBlocks_le inp ((filterCandidates inp).foldl carve s).claims
    rw [hsame.2, List.length_nil] at hfree
    simp only [stepsLeft, seedAccessViolationFilterLeaves, foldl_carve_task, htask, hstage, Stage.passesLeft]
    omega

/-- The state in which the run ends. -/
def finalState (inp : Input) : State := Machine.runFor (step inp) (stepsLeft inp (start inp)) (start inp)

theorem reached_finalState (inp : Input) : Reached inp (finalState inp) := Machine.reaches_runFor _ _

/-- The discovery comes to its end. -/
theorem discover_ends (inp : Input) : step inp (finalState inp) = none :=
  Machine.runFor_halts (stepsLeft inp) (fun _ _ hs hstep => ⟨hs.move (step_move hstep), stepsLeft_lt hs (step_move hstep)⟩)
    _ start_sound le_rfl

end Windy.Discovery
