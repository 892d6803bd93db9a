import Windy.Analysis.Refound

/- No code is lost.

   Code is lost in two ways: a function drops the blocks before its entry but goes on
   owning their addresses, and the last pass takes blocks from a function that the filters
   do not lead to again, because an entry is known already or control does not get there.

   What is proved:
     1. `covered_of_block`, `covered_of_entry`: as long as neither happens, what is in a block
        once is in a block in the end, and so is every entry.
     2. `coverage_of_keeps`: then no seed, no target of a call and no decoded instruction is
        lost. Where no filter is cut out, a dropped block then starts inside of another
        function's block.
     3. `backwardInput_lost`: a branch to a seed before the entry. -/
namespace Windy.Discovery

variable {inp : Input} {s t : State}

variable (inp) in
/-- In a block of the result. -/
def Covered (va : Nat) : Prop := ∃ f ∈ discover inp, ∃ b ∈ f.blocks, ∃ d ∈ span inp b, d.ip = va

variable (inp) in
/-- The next step loses no code. -/
structure Keeps (s : State) : Prop where
  drops : DropsNothing inp s
  /-- Address zero stands for no target. -/
  zero : ∀ t start rest, Decodes s t start rest → ∀ d, (walkFrom inp s.claims t start).2 = .terminator d →
    d.flowControl = .call → d.nearBranchTarget = 0 → inp.space.isExecutableVa 0 = true → inp.code.atVa 0 = none
  /-- What is cut out of a function is in another block that stays, or the new entries lead
  to it. -/
  cut : ∀ s', LastPass inp s s' → ∀ e va n es, HasBlock s e va n es → s'.claims.blockOwners va ≠ some e →
    ∀ d ∈ inp.code.sweep va n,
      (∃ e' va' n' es', HasBlock s' e' va' n' es' ∧ d ∈ inp.code.sweep va' n') ∨ Refound inp s s' d.ip

theorem covered_of_final {e va n : Nat} {es : List Edge} (hb : HasBlock (finalState inp) e va n es) {d : DecodedInstr}
    (hd : d ∈ inp.code.sweep va n) : Covered inp d.ip := by
  obtain ⟨f, hf, -, b, hbf, hva, hcount, -⟩ := hasBlock_discover.mp hb
  exact ⟨f, hf, b, hbf, d, by rw [span, hva, hcount]; exact hd, rfl⟩

/-- A block behind the last pass stays. -/
theorem HasBlock.stays {e va n : Nat} {es : List Edge} (hb : HasBlock s e va n es) (hr : Reached inp s)
    (hstage : s.stage = .filters) : HasBlock (finalState inp) e va n es := by
  refine (reached_to_end (P := fun s => s.stage = .filters ∧ HasBlock s e va n es) ?_ hr ⟨hstage, hb⟩).2
  rintro t u ht hstep ⟨hfilters, hold⟩
  refine ⟨(step_move hstep).stage_filters hfilters, ?_⟩
  rcases hold.after (reached_sound ht) (step_move hstep) with hkept | ⟨hlast, -⟩
  · exact hkept
  · rw [hlast.stage] at hfilters; cases hfilters

variable (inp) in
/-- An entry waits for its visit, or has an owner, or is covered. -/
def Safe (s : State) (va : Nat) : Prop :=
  (va ∈ s.claims.worklist ∧ s.functions.get va = none) ∨ (s.claims.blockOwners va).isSome ∨ Covered inp va

section Kept
variable (hkeeps : ∀ s, Reached inp s → Keeps inp s)
include hkeeps

theorem dropsNothing : ∀ s, Reached inp s → DropsNothing inp s := fun s hr => (hkeeps s hr).drops

/-- What is in a block of a function once is in a block in the end. -/
theorem covered_of_block {e va n : Nat} {es : List Edge} (hb : HasBlock s e va n es) (hr : Reached inp s)
    {d : DecodedInstr} (hd : d ∈ inp.code.sweep va n) : Covered inp d.ip := by
  have hend : HasBlock (finalState inp) e va n es ∨ Covered inp d.ip := by
    refine reached_to_end (P := fun s => HasBlock s e va n es ∨ Covered inp d.ip) ?_ hr (.inl hb)
    rintro t u ht hstep (hold | hcovered)
    · rcases hold.after (reached_sound ht) (step_move hstep) with hkept | ⟨hlast, hnone⟩
      · exact .inl hkept
      · right
        rcases (hkeeps t ht).cut u hlast e va n es hold (by rw [hnone]; simp) d hd with
          ⟨e', va', n', es', hstays, hmem⟩ | hrefound
        · exact covered_of_final (hstays.stays (Machine.reaches_step ht hstep) hlast.stage_eq) hmem
        · obtain ⟨g, start, m, es', hnew, -, d', hd', hip⟩ :=
            refound_covered (dropsNothing hkeeps) ht hlast hstep hrefound
          rw [← hip]
          exact covered_of_final hnew hd'
    · exact .inr hcovered
  exact hend.elim (fun hfinal => covered_of_final hfinal hd) id

/-- An owned instruction stays owned, or is in a block in the end. -/
theorem owned_or_covered {va e : Nat} (hr : Reached inp s) (hat : (inp.code.atVa va).isSome)
    (howner : s.claims.blockOwners va = some e) (hstep : step inp s = some t) :
    (t.claims.blockOwners va).isSome ∨ Covered inp va := by
  have hs := reached_sound hr
  rcases (step_move hstep).owner_cases hs va with heq | ⟨hnone, -⟩ | ⟨hlast, -⟩
  · rw [heq, howner]
    exact .inl rfl
  · rw [howner] at hnone; cases hnone
  · -- the last pass may free the address, but what is there is in a block
    have hnotask : ∀ task, s.task ≠ some task := by
      intro task htask
      rw [hlast.task] at htask
      cases htask
    have hfun : (s.functions.get e).isSome := by
      rcases hs.owner va e howner with hfun | ⟨task, htask, -⟩
      · exact hfun
      · exact absurd htask (hnotask task)
    rcases hs.block_or_queued howner (entry_le_of_owner (dropsNothing hkeeps) hr hat howner hfun) with
      ⟨n, es, hb⟩ | ⟨task, htask, -⟩
    · obtain ⟨d, hd⟩ := Option.isSome_iff_exists.mp hat
      rw [← CodeIndex.atVa_ip hd]
      exact .inr (covered_of_block hkeeps hb hr (hb.start_mem hr hd))
    · exact absurd htask (hnotask task)

theorem safe_step {va : Nat} (hr : Reached inp s) (hexec : inp.space.isExecutableVa va = true)
    (hat : (inp.code.atVa va).isSome) (hstep : step inp s = some t) (hsafe : Safe inp s va) : Safe inp t va := by
  have hs := reached_sound hr
  have hmove := step_move hstep
  rcases hsafe with ⟨hlisted, hnone⟩ | hsome | hcovered
  · rcases hmove.waiting hlisted with hstays | (hfun | hnot | hother) | hbegun
    · exact (hmove.function_new hs hnone).imp (fun hnone' => ⟨hstays, hnone'⟩) .inl
    · rw [hnone] at hfun; cases hfun
    · rw [hexec] at hnot; cases hnot
    · obtain ⟨owner, howner, -⟩ := isOwnedByOther_eq_true.mp hother
      exact .inr (owned_or_covered hkeeps hr hat howner hstep)
    · have howner : t.claims.blockOwners va = some va := ((hs.move hmove).task _ hbegun).entry
      exact .inr (.inl (by rw [howner]; rfl))
  · obtain ⟨e, howner⟩ := Option.isSome_iff_exists.mp hsome
    exact .inr (owned_or_covered hkeeps hr hat howner hstep)
  · exact .inr (.inr hcovered)

theorem known_safe {va : Nat} (hexec : inp.space.isExecutableVa va = true) (hat : (inp.code.atVa va).isSome)
    (hr : Reached inp s) (hknown : s.claims.functionEntries va = true) : Safe inp s va := by
  refine Machine.inv_of_reaches (P := fun s => s.claims.functionEntries va = true → Safe inp s va) ?_ ?_ hr hknown
  · intro hseed
    exact .inl ⟨by simpa [start] using hseed, rfl⟩
  · intro t u ht hold hstep hu
    have hmove := step_move hstep
    by_cases hbefore : t.claims.functionEntries va = true
    · exact safe_step hkeeps ht hexec hat hstep (hold hbefore)
    · have hnone : t.functions.get va = none := get_eq_none_of_new ht (Bool.eq_false_iff.mpr hbefore)
      have hlisted : va ∈ u.claims.worklist := (hmove.entered hu).resolve_left hbefore
      exact (hmove.function_new (reached_sound ht) hnone).imp (fun hnone' => ⟨hlisted, hnone'⟩) .inl

/-- A known entry is in a block in the end. -/
theorem covered_of_entry {va : Nat} (hr : Reached inp s) (hknown : s.claims.functionEntries va = true)
    (hexec : inp.space.isExecutableVa va = true) (hat : (inp.code.atVa va).isSome) : Covered inp va := by
  have hend := reached_finalState inp
  have hknown' : (finalState inp).claims.functionEntries va = true :=
    reached_to_end (P := fun s => s.claims.functionEntries va = true) (fun _ _ _ hstep => (step_move hstep).entries) hr hknown
  rcases known_safe hkeeps hexec hat hend hknown' with ⟨hlisted, -⟩ | hsome | hcovered
  · rw [(halted (discover_ends inp)).2.1] at hlisted
    cases hlisted
  · obtain ⟨e, howner⟩ := Option.isSome_iff_exists.mp hsome
    obtain ⟨n, es, hb⟩ := hasBlock_of_owner (dropsNothing hkeeps) hat howner
    obtain ⟨d, hd⟩ := Option.isSome_iff_exists.mp hat
    rw [← CodeIndex.atVa_ip hd]
    exact covered_of_final hb (hb.start_mem hend hd)
  · exact hcovered

/-- A function has no code before its entry: what it decodes there it would drop. -/
theorem entry_le_of_block {task : Task} (hr : Reached inp s) (htask : s.task = some task) {b : BasicBlock}
    (hb : b ∈ task.blocks) (hat : (inp.code.atVa b.entryVa).isSome) : task.entry ≤ b.entryVa := by
  have howner : s.claims.blockOwners b.entryVa = some task.entry :=
    (((reached_sound hr).task task htask).owned _).mpr (.inl (KeyedList.get_isSome_iff.mpr ⟨b, hb, rfl⟩))
  have hdrop := dropsNothing hkeeps
  by_contra hlt
  have hend : (finalState inp).claims.blockOwners b.entryVa = some task.entry := by
    refine reached_to_end (P := fun s => s.claims.blockOwners b.entryVa = some task.entry) ?_ hr howner
    intro t u ht hstep hold
    rcases (step_move hstep).owner_cases (reached_sound ht) b.entryVa with heq | ⟨hnone, -⟩ | ⟨hlast, -⟩
    · rw [heq, hold]
    · rw [hold] at hnone; cases hnone
    · -- by the last pass the function is finished and may not own it
      rcases (reached_sound ht).owner _ _ hold with hfun | ⟨task', htask', -⟩
      · exact absurd (entry_le_of_owner hdrop ht hat hold hfun) hlt
      · rw [hlast.task] at htask'; cases htask'
  obtain ⟨n, es, hblock⟩ := hasBlock_of_owner hdrop hat hend
  exact hlt hblock.1

/-- The target of a call in a decoded block is a known entry. -/
theorem known_of_call {task : Task} (hr : Reached inp s) (htask : s.task = some task) {b : BasicBlock}
    (hb : b ∈ task.blocks) {d : DecodedInstr} (hd : d ∈ span inp b) (hcall : d.flowControl = .call)
    (hexec : inp.space.isExecutableVa d.nearBranchTarget = true) (hat : (inp.code.atVa d.nearBranchTarget).isSome) :
    s.claims.functionEntries d.nearBranchTarget = true := by
  refine Machine.inv_of_reaches (P := fun s => ∀ task, s.task = some task → ∀ b ∈ task.blocks, d ∈ span inp b →
    s.claims.functionEntries d.nearBranchTarget = true) (fun task ht => by cases ht) ?_ hr task htask b hb hd
  intro s s' hr hold hstep task htask b hb hd
  have hmove := step_move hstep
  obtain ⟨t, ht, -, hmem | ⟨start, rest, hdec, -, rfl, hclaims⟩⟩ := hmove.task_block (reached_sound hr) htask hb
  · exact hmove.entries (hold t ht b hmem hd)
  · rw [decodeBlock_span] at hd
    have hend : (walkFrom inp { s.claims with blockQueue := rest } t start).2 = .terminator d :=
      (walkFrom_walked _ t start).terminator_of_flow hd (by rw [hcall]; simp)
    have hend' : (walkFrom inp s.claims t start).2 = .terminator d := by
      rw [← hend]
      exact congrArg Prod.snd (walkFrom_congr (by rfl) t start)
    have hne : d.nearBranchTarget ≠ 0 := by
      intro hzero
      rw [hzero] at hexec hat
      rw [(hkeeps s hr).zero t start rest hdec d hend' hcall hzero hexec] at hat
      cases hat
    simp only [hclaims, decodeBlock, hend]
    exact endEdges_call _ _ hcall (by simp [isExecutableTarget, hne, hexec])

end Kept

/-! ## The result -/

variable (inp) in
/-- No seed, no target of a direct call and no decoded instruction is lost. -/
structure NothingLost : Prop where
  seeds : ∀ va ∈ inp.seeds, inp.space.isExecutableVa va = true → (inp.code.atVa va).isSome → Covered inp va
  calls : ∀ s, Reached inp s → ∀ task, s.task = some task → ∀ b ∈ task.blocks, ∀ d ∈ span inp b,
    d.flowControl = .call → inp.space.isExecutableVa d.nearBranchTarget = true →
      (inp.code.atVa d.nearBranchTarget).isSome → Covered inp d.nearBranchTarget
  decoded : ∀ s, Reached inp s → ∀ task, s.task = some task → ∀ b ∈ task.blocks, ∀ d ∈ span inp b, Covered inp d.ip

theorem nothingLost (hkeeps : ∀ s, Reached inp s → Keeps inp s) : NothingLost inp := by
  refine ⟨fun va hva hexec hat => ?_, fun s hr task htask b hb d hd hcall hexec hat => ?_,
    fun s hr task htask b hb d hd => ?_⟩
  · exact covered_of_entry hkeeps (s := start inp) Relation.ReflTransGen.refl (by simpa [start] using hva) hexec hat
  · exact covered_of_entry hkeeps hr (known_of_call hkeeps hr htask hb hd hcall hexec hat) hexec hat
  · have hle := entry_le_of_block hkeeps hr htask hb (CodeIndex.atVa_isSome_of_mem_sweep hd)
    have hblock : HasBlock s task.entry b.entryVa b.instrCount _ := ⟨hle, b, .inl ⟨task, htask, rfl, hb⟩, rfl, rfl, rfl⟩
    exact covered_of_block hkeeps hblock hr hd

/-- Where nothing is cut out and nothing is lost, a dropped block starts inside of a block of
a function that was finished before. -/
theorem NothingLost.dropped (h : NothingLost inp) (hn : CarvesNothing inp) (hr : Reached inp s) {task : Task}
    (htask : s.task = some task) {b : BasicBlock} (hb : b ∈ task.blocks) (hlt : b.entryVa < task.entry)
    (hat : (inp.code.atVa b.entryVa).isSome) : ∃ f ∈ s.functions, ∃ c ∈ f.blocks, ∃ d ∈ span inp c, d.ip = b.entryVa := by
  have howner : s.claims.blockOwners b.entryVa = some task.entry :=
    (((reached_sound hr).task task htask).owned _).mpr (.inl (KeyedList.get_isSome_iff.mpr ⟨b, hb, rfl⟩))
  obtain ⟨d, hd⟩ := Option.isSome_iff_exists.mp hat
  have hip := CodeIndex.atVa_ip hd
  obtain ⟨f, hf, c, hc, d', hd', hip'⟩ := h.decoded s hr task htask b hb d (task_block_start hr htask hb hd)
  rw [hip] at hip'
  -- no block decoded from here on runs over the address, which the function owns
  have hend := reached_to_end (P := fun t => t.claims.blockOwners b.entryVa = some task.entry ∧
    ∀ e va n es, HasBlock t e va n es → (∃ a ∈ inp.code.sweep va n, a.ip = b.entryVa) → HasBlock s e va n es) ?_ hr
    ⟨howner, fun _ _ _ _ hold _ => hold⟩
  · have hblock := hend.2 _ _ _ _ (hasBlock_of_mem hf hc) ⟨d', hd', hip'⟩
    obtain ⟨hle, b', ⟨t, ht, hentry, -⟩ | ⟨g, hg, -, hbg⟩, hva, hcount, -⟩ := hblock
    · have hge := (CodeIndex.mem_sweep hd').1
      obtain rfl := Option.some.inj (ht.symm.trans htask)
      omega
    · refine ⟨g, hg, b', hbg, d', ?_, hip'⟩
      rw [span, hva, hcount]
      exact hd'
  · rintro t u ht hstep ⟨hown, hold⟩
    refine ⟨hn.owner_step ht hstep hown, fun e va n es hblock hrun => ?_⟩
    rcases hblock.before (reached_sound ht) (step_move hstep) with hbefore | ⟨task', rest, hdec, rfl, hle, rfl, -⟩
    · exact hold e va n es hbefore hrun
    · obtain ⟨a, ha, haip⟩ := hrun
      rw [walkFrom_mem] at ha
      have hpass := (walkFrom_walked t.claims task' va).passes ha
      have hsame := isOwnedByOther_eq_false.mp hpass.owner task.entry (by rw [haip]; exact hown)
      have hge := (CodeIndex.mem_sweep (walkFrom_mem.mpr ha)).1
      omega

/-- Nothing is lost if no step loses code; and where no filter is cut out of a function,
only then, but for dropped blocks that start inside of another function's block. -/
theorem coverage_of_keeps (inp : Input) :
    ((∀ s, Reached inp s → Keeps inp s) → NothingLost inp) ∧
      (CarvesNothing inp → NothingLost inp → ∀ s, Reached inp s → ∀ task, s.task = some task →
        ∀ b ∈ task.blocks, b.entryVa < task.entry → (inp.code.atVa b.entryVa).isSome →
          ∃ f ∈ s.functions, ∃ c ∈ f.blocks, ∃ d ∈ span inp c, d.ip = b.entryVa) :=
  ⟨nothingLost, fun hn h _ hr _ htask _ hb hlt hat => h.dropped hn hr htask hb hlt hat⟩

/-- A conditional branch back to the instruction before the function's entry. -/
def backwardInput : Input :=
  { code := .ofList
      [flowInstr 0x1000 1 .ret 0 Nat.one_pos end_1001,
       flowInstr 0x1001 2 .conditionalBranch 0x1000 Nat.two_pos end_1003_of_two,
       flowInstr 0x1003 1 .ret 0 Nat.one_pos end_1004]
    space := textSpace, seeds := [0x1001, 0x1000], entryHints := [] }

/-- The function drops the block but owns its address, so the seed there is passed over. -/
theorem backwardInput_lost : ¬ NothingLost backwardInput := by
  intro h
  have hnone : (discover backwardInput).all (fun f => f.blocks.all fun b =>
      (span backwardInput b).all fun d => d.ip ≠ 0x1000) = true := by
    decide +kernel
  obtain ⟨f, hf, b, hb, d, hd, hip⟩ := h.seeds 0x1000 (by decide) (by decide +kernel) (by decide +kernel)
  simp only [List.all_eq_true, decide_eq_true_eq] at hnone
  exact hnone f hf b hb d hd hip

end Windy.Discovery
