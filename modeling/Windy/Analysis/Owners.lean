import Windy.Analysis.Walk

/- Owners and blocks along a run of the discovery.

   What is proved:
     1. `step_move`: the seven kinds of step.
     2. `reached_sound`: in every reached state the blocks of a finished function are the
        addresses it owns from its entry on, and every address the function being
        discovered owns is decoded or queued. -/
namespace Windy.Discovery

open StateTransition

variable (inp : Input)

/-! ## Steps -/

/-- The claims with which the block at the front of the queue is decoded. -/
abbrev decodeClaims (s : State) (t : Task) (start : Nat) (rest : List Nat) : Claims :=
  ({ s.claims with blockQueue := rest } : Claims).own start t.entry

/-- A step, by its kind. -/
inductive Move (s : State) : State → Prop
  | finish {t : Task} (htask : s.task = some t) (hqueue : s.claims.blockQueue = []) : Move s (finish s t)
  | pass {t : Task} {start : Nat} {rest : List Nat} (htask : s.task = some t)
      (hqueue : s.claims.blockQueue = start :: rest)
      (hseen : (blockAt t.blocks start).isSome ∨ isOwnedByOther s.claims start t.entry = true) :
      Move s { s with claims := { s.claims with blockQueue := rest } }
  | decode {t : Task} {start : Nat} {rest : List Nat} (htask : s.task = some t)
      (hqueue : s.claims.blockQueue = start :: rest) (hnew : blockAt t.blocks start = none)
      (hmine : isOwnedByOther s.claims start t.entry = false) :
      Move s
        { s with
          claims := (decodeBlock inp (decodeClaims s t start rest) t start).1
          task := some { t with
            blocks := KeyedList.put BasicBlock.entryVa (decodeBlock inp (decodeClaims s t start rest) t start).2 t.blocks } }
  | ignore {entry : Nat} {rest : List Nat} (htask : s.task = none) (hworklist : s.claims.worklist = entry :: rest)
      (hseen : (s.functions.get entry).isSome ∨ inp.space.isExecutableVa entry = false ∨
        isOwnedByOther s.claims entry entry = true) :
      Move s { s with claims := { s.claims with worklist := rest } }
  | enter {entry : Nat} {rest : List Nat} (htask : s.task = none) (hworklist : s.claims.worklist = entry :: rest)
      (hnew : s.functions.get entry = none) (hexec : inp.space.isExecutableVa entry = true)
      (hmine : isOwnedByOther s.claims entry entry = false) :
      Move s
        { s with
          claims := { ({ s.claims with worklist := rest } : Claims).own entry entry with blockQueue := [entry] }
          task := some ⟨entry, []⟩ }
  | gaps (htask : s.task = none) (hworklist : s.claims.worklist = []) (hstage : s.stage = .seeds) :
      Move s (seedInt3GapLeaves inp s)
  | filters (htask : s.task = none) (hworklist : s.claims.worklist = []) (hstage : s.stage = .gaps) :
      Move s (seedAccessViolationFilterLeaves inp s)

variable {inp}

theorem step_move {s s' : State} (h : step inp s = some s') : Move inp s s' := by
  unfold step at h
  split at h
  · next t htask =>
    split at h
    · next hqueue =>
      obtain rfl := Option.some.inj h
      exact .finish htask hqueue
    · next start rest hqueue =>
      obtain rfl := Option.some.inj h
      unfold visitBlock
      split
      · next hseen => exact .pass htask hqueue ((Bool.or_eq_true _ _).mp hseen)
      · next hnew =>
        simp only [Bool.or_eq_true, not_or, Bool.not_eq_true, Option.isSome_eq_false_iff,
          Option.isNone_iff_eq_none] at hnew
        exact .decode htask hqueue hnew.1 hnew.2
  · next htask =>
    split at h
    · next entry rest hworklist =>
      obtain rfl := Option.some.inj h
      unfold visitFunction
      split
      · next hseen =>
        refine .ignore htask hworklist ?_
        simpa [or_assoc, isOwnedByOther] using hseen
      · next hnew =>
        simp only [Bool.or_eq_true, not_or, Bool.not_eq_true, Option.isSome_eq_false_iff, Option.isNone_iff_eq_none,
          Bool.not_eq_false'] at hnew
        exact .enter htask hworklist hnew.1.1 hnew.1.2 hnew.2
    · next hworklist =>
      split at h
      · next hstage =>
        obtain rfl := Option.some.inj h
        exact .gaps htask hworklist hstage
      · next hstage =>
        obtain rfl := Option.some.inj h
        exact .filters htask hworklist hstage
      · cases h

/-- A run comes to its end with nothing left to visit. -/
theorem halted {s : State} (h : step inp s = none) : s.task = none ∧ s.claims.worklist = [] ∧ s.stage = .filters := by
  unfold step at h
  split at h
  · split at h <;> cases h
  · next htask =>
    split at h
    · cases h
    · next hworklist =>
      split at h
      · cases h
      · cases h
      · next hstage => exact ⟨htask, hworklist, hstage⟩

/-! ## Small lemmas of the operations -/

theorem isOwnedByOther_eq_false {c : Claims} {va e : Nat} :
    isOwnedByOther c va e = false ↔ ∀ owner, c.blockOwners va = some owner → owner = e := by
  unfold isOwnedByOther
  cases c.blockOwners va <;> simp

theorem isOwnedByOther_eq_true {c : Claims} {va e : Nat} :
    isOwnedByOther c va e = true ↔ ∃ owner, c.blockOwners va = some owner ∧ owner ≠ e := by
  unfold isOwnedByOther
  cases c.blockOwners va <;> simp

theorem Claims.own_of_some {c : Claims} {va e : Nat} (h : c.blockOwners va = some e) : c.own va e = c := by
  simp [Claims.own, h]

theorem foldl_seedFunction_owners (vas : List Nat) (c : Claims) :
    (vas.foldl Claims.seedFunction c).blockOwners = c.blockOwners := by
  induction vas generalizing c with
  | nil => rfl
  | cons va vas ih =>
    rw [List.foldl_cons, ih]
    unfold Claims.seedFunction
    split <;> rfl

theorem foldl_seedFunction_queue (vas : List Nat) (c : Claims) :
    (vas.foldl Claims.seedFunction c).blockQueue = c.blockQueue := by
  induction vas generalizing c with
  | nil => rfl
  | cons va vas ih =>
    rw [List.foldl_cons, ih]
    unfold Claims.seedFunction
    split <;> rfl

/-- The blocks of a function are those it was discovered with, from its entry on, with
their edges rewritten. -/
theorem exists_finished {t : Task} {P : Nat → Nat → List Edge → Prop} :
    (∃ b ∈ withPredecessors (keptBlocks t), P b.entryVa b.instrCount b.successors) ↔
      ∃ b ∈ t.blocks, t.entry ≤ b.entryVa ∧ P b.entryVa b.instrCount (b.successors.map (rewriteEdge t.entry)) := by
  simp [withPredecessors, keptBlocks, and_assoc]

theorem finished_ordered {t : Task} (h : KeyedList.Ordered BasicBlock.entryVa t.blocks) :
    KeyedList.Ordered BasicBlock.entryVa (withPredecessors (keptBlocks t)) := by
  have hkept : KeyedList.Ordered BasicBlock.entryVa (keptBlocks t) := by
    refine KeyedList.ordered_map _ ?_ (KeyedList.ordered_filter _ h)
    intro b
    rfl
  refine KeyedList.ordered_map _ ?_ hkept
  intro b
  rfl

/-! ## The invariant -/

/-- The function being discovered: what it owns is decoded or queued. -/
structure TaskSound (s : State) (t : Task) : Prop where
  new : s.functions.get t.entry = none
  ordered : KeyedList.Ordered BasicBlock.entryVa t.blocks
  entry : s.claims.blockOwners t.entry = some t.entry
  owned : ∀ va, s.claims.blockOwners va = some t.entry ↔ (blockAt t.blocks va).isSome ∨ va ∈ s.claims.blockQueue

structure Sound (s : State) : Prop where
  functions_ordered : KeyedList.Ordered Function.entryVa s.functions
  blocks_ordered : ∀ f ∈ s.functions, KeyedList.Ordered BasicBlock.entryVa f.blocks
  /-- A finished function has a block at every address it owns from its entry on, and at
  no other. -/
  function_block : ∀ f ∈ s.functions, ∀ va,
    (∃ b ∈ f.blocks, b.entryVa = va) ↔ s.claims.blockOwners va = some f.entryVa ∧ f.entryVa ≤ va
  owner : ∀ va e, s.claims.blockOwners va = some e →
    (s.functions.get e).isSome ∨ ∃ t, s.task = some t ∧ t.entry = e
  idle : s.task = none → s.claims.blockQueue = []
  task : ∀ t, s.task = some t → TaskSound s t

theorem start_sound : Sound (start inp) where
  functions_ordered := List.Pairwise.nil
  blocks_ordered f hf := by cases hf
  function_block f hf := by cases hf
  owner va e h := by cases h
  idle _ := rfl
  task t h := by cases h

namespace Sound

variable {s : State}

/-- Entries and stages play no part in it. -/
theorem congr (h : Sound s) {s' : State} (hfunctions : s'.functions = s.functions) (htask : s'.task = s.task)
    (howners : s'.claims.blockOwners = s.claims.blockOwners) (hqueue : s'.claims.blockQueue = s.claims.blockQueue) :
    Sound s' where
  functions_ordered := by rw [hfunctions]; exact h.functions_ordered
  blocks_ordered := by rw [hfunctions]; exact h.blocks_ordered
  function_block := by rw [hfunctions, howners]; exact h.function_block
  owner := by rw [howners, hfunctions, htask]; exact h.owner
  idle := by rw [htask, hqueue]; exact h.idle
  task t ht := by
    have hold := h.task t (htask ▸ ht)
    exact ⟨hfunctions ▸ hold.new, hold.ordered, howners ▸ hold.entry, by rw [howners, hqueue]; exact hold.owned⟩

theorem finish (h : Sound s) {t : Task} (htask : s.task = some t) (hqueue : s.claims.blockQueue = []) :
    Sound (Discovery.finish s t) := by
  obtain ⟨hnew, hordered, hentry, howned⟩ := h.task t htask
  refine ⟨KeyedList.ordered_put _ h.functions_ordered, ?_, ?_, ?_, fun _ => hqueue, fun t' ht' => ?_⟩
  · intro f hf
    rcases KeyedList.mem_of_mem_put hf with rfl | hold
    · exact finished_ordered hordered
    · exact h.blocks_ordered f hold
  · intro f hf va
    rcases KeyedList.mem_of_mem_put hf with rfl | hold
    · rw [exists_finished (P := fun start _ _ => start = va)]
      have hdecoded := howned va
      rw [hqueue, KeyedList.get_isSome_iff] at hdecoded
      simp only [List.not_mem_nil, or_false] at hdecoded
      change _ ↔ s.claims.blockOwners va = some t.entry ∧ t.entry ≤ va
      rw [hdecoded]
      constructor
      · rintro ⟨b, hb, hle, rfl⟩
        exact ⟨⟨b, hb, rfl⟩, hle⟩
      · rintro ⟨⟨b, hb, rfl⟩, hle⟩
        exact ⟨b, hb, hle, rfl⟩
    · exact h.function_block f hold va
  · intro va e he
    refine .inl ?_
    change (KeyedList.get Function.entryVa e (KeyedList.put Function.entryVa _ s.functions)).isSome
    rw [KeyedList.get_put]
    split
    · rfl
    · next hne =>
      rcases h.owner va e he with hsome | ⟨t', ht', rfl⟩
      · exact hsome
      · exact absurd (congrArg Task.entry (Option.some.inj (htask.symm.trans ht'))) hne
  · cases ht'

theorem decode (h : Sound s) {t : Task} {start : Nat} {rest : List Nat} (htask : s.task = some t)
    (hqueue : s.claims.blockQueue = start :: rest) {c' : Claims} {b : BasicBlock} (hb : b.entryVa = start)
    (hgrows : Grows t.entry { s.claims with blockQueue := rest } c') :
    Sound { s with claims := c', task := some { t with blocks := KeyedList.put BasicBlock.entryVa b t.blocks } } := by
  obtain ⟨hnew, hordered, hentry, howned⟩ := h.task t htask
  have hother : ∀ va e, e ≠ t.entry → (c'.blockOwners va = some e ↔ s.claims.blockOwners va = some e) := by
    intro va e hne
    rcases hgrows.owners va with heq | ⟨hnone, hsome⟩
    · rw [heq]
    · change s.claims.blockOwners va = none at hnone
      simp [hnone, hsome, Ne.symm hne]
  refine ⟨h.functions_ordered, h.blocks_ordered, fun f hf va => ?_, fun va e he => ?_, (by simp), fun t' ht' => ?_⟩
  · have hne : f.entryVa ≠ t.entry := by
      rintro heq
      have hget := KeyedList.get_of_mem h.functions_ordered hf
      rw [heq] at hget
      exact Option.some_ne_none _ (hget.symm.trans hnew)
    rw [h.function_block f hf va, hother va _ hne]
  · by_cases heq : e = t.entry
    · exact .inr ⟨_, rfl, heq.symm⟩
    · rcases h.owner va e ((hother va e heq).mp he) with hsome | ⟨t', ht', rfl⟩
      · exact .inl hsome
      · exact absurd (congrArg Task.entry (Option.some.inj (ht'.symm.trans htask))) heq
  · obtain rfl := Option.some.inj ht'
    refine ⟨hnew, KeyedList.ordered_put _ hordered, hgrows.owners_of_some hentry, fun va => ?_⟩
    change c'.blockOwners va = some t.entry ↔
      (KeyedList.get BasicBlock.entryVa va (KeyedList.put BasicBlock.entryVa b t.blocks)).isSome ∨ va ∈ c'.blockQueue
    have hput : (KeyedList.get BasicBlock.entryVa va (KeyedList.put BasicBlock.entryVa b t.blocks)).isSome ↔
        va = start ∨ (blockAt t.blocks va).isSome := by
      rw [KeyedList.get_put, hb]
      split
      · next heq => simp [heq]
      · next hne => simp [Ne.symm hne]
    have hold := howned va
    rw [hqueue, List.mem_cons] at hold
    rw [hput, hgrows.queue va]
    have hnewly : c'.blockOwners va = some t.entry ↔
        s.claims.blockOwners va = some t.entry ∨ s.claims.blockOwners va = none ∧ c'.blockOwners va = some t.entry := by
      rcases hgrows.owners va with heq | ⟨hnone, hsome⟩
      · change c'.blockOwners va = s.claims.blockOwners va at heq
        rw [heq]
        exact ⟨.inl, fun hor => hor.elim id And.right⟩
      · exact ⟨fun hs => .inr ⟨hnone, hs⟩, fun _ => hsome⟩
    rw [hnewly, hold]
    clear * -
    tauto

theorem enter (h : Sound s) {entry : Nat} (htask : s.task = none) (hnew : s.functions.get entry = none)
    {c' : Claims} (hqueue : c'.blockQueue = [entry]) (hentry : c'.blockOwners entry = some entry)
    (howners : ∀ va, va ≠ entry → c'.blockOwners va = s.claims.blockOwners va)
    (hmine : isOwnedByOther s.claims entry entry = false) :
    Sound { s with claims := c', task := some ⟨entry, []⟩ } := by
  -- nothing was owned by this entry before, unless its own address
  have hother : ∀ va e, e ≠ entry → (c'.blockOwners va = some e ↔ s.claims.blockOwners va = some e) := by
    intro va e hne
    by_cases hva : va = entry
    · subst hva
      refine ⟨fun he => absurd (Option.some.inj (hentry.symm.trans he)) (Ne.symm hne), fun he => ?_⟩
      exact absurd (isOwnedByOther_eq_false.mp hmine e he) hne
    · rw [howners va hva]
  have hfree : ∀ va, s.claims.blockOwners va ≠ some entry := by
    intro va he
    rcases h.owner va entry he with hsome | ⟨t, ht, -⟩
    · rw [hnew] at hsome; cases hsome
    · rw [htask] at ht; cases ht
  refine ⟨h.functions_ordered, h.blocks_ordered, fun f hf va => ?_, fun va e he => ?_, by simp, fun t' ht' => ?_⟩
  · have hne : f.entryVa ≠ entry := by
      rintro heq
      have hget := KeyedList.get_of_mem h.functions_ordered hf
      rw [heq] at hget
      exact Option.some_ne_none _ (hget.symm.trans hnew)
    rw [h.function_block f hf va, hother va _ hne]
  · by_cases heq : e = entry
    · exact .inr ⟨_, rfl, heq.symm⟩
    · rcases h.owner va e ((hother va e heq).mp he) with hsome | ⟨t', ht', -⟩
      · exact .inl hsome
      · rw [htask] at ht'; cases ht'
  · obtain rfl := Option.some.inj ht'
    refine ⟨hnew, List.Pairwise.nil, hentry, fun va => ?_⟩
    change c'.blockOwners va = some entry ↔ (blockAt [] va).isSome ∨ va ∈ c'.blockQueue
    rw [hqueue]
    by_cases hva : va = entry
    · simp [hva, hentry]
    · simp [hva, howners va hva, hfree va]

theorem carveOut (h : Sound s) (htask : s.task = none) (owner entry : Nat) :
    Sound (Discovery.carveOut s owner entry) := by
  have hmem : ∀ f' ∈ (Discovery.carveOut s owner entry).functions, ∃ f ∈ s.functions, f'.entryVa = f.entryVa ∧
      f'.blocks = if f.entryVa = owner then f.blocks.filter (fun b => b.entryVa < entry) else f.blocks := by
    intro f' hf'
    obtain ⟨f, hf, rfl⟩ := List.mem_map.mp hf'
    refine ⟨f, hf, ?_⟩
    split <;> exact ⟨rfl, rfl⟩
  refine ⟨?_, fun f' hf' => ?_, fun f' hf' va => ?_, fun va e he => ?_, fun _ => h.idle htask, fun t ht => ?_⟩
  · refine KeyedList.ordered_map _ (fun f => ?_) h.functions_ordered
    split <;> rfl
  · obtain ⟨f, hf, -, hblocks⟩ := hmem f' hf'
    rw [hblocks]
    split
    · exact KeyedList.ordered_filter _ (h.blocks_ordered f hf)
    · exact h.blocks_ordered f hf
  · obtain ⟨f, hf, hentry, hblocks⟩ := hmem f' hf'
    have hold := h.function_block f hf va
    rw [hblocks, hentry]
    change _ ↔ (if s.claims.blockOwners va = some owner ∧ entry ≤ va then none else s.claims.blockOwners va) =
      some f.entryVa ∧ f.entryVa ≤ va
    by_cases howner : f.entryVa = owner
    · subst howner
      simp only [if_true, List.mem_filter, decide_eq_true_eq]
      constructor
      · rintro ⟨b, ⟨hb, hlt⟩, rfl⟩
        obtain ⟨hown, hle⟩ := hold.mp ⟨b, hb, rfl⟩
        rw [if_neg (by omega)]
        exact ⟨hown, hle⟩
      · rintro ⟨hown, hle⟩
        split at hown
        · cases hown
        · next hkept =>
          obtain ⟨b, hb, rfl⟩ := hold.mpr ⟨hown, hle⟩
          exact ⟨b, ⟨hb, by by_contra hge; exact hkept ⟨hown, by omega⟩⟩, rfl⟩
    · rw [if_neg howner, hold]
      constructor
      · rintro ⟨hown, hle⟩
        rw [if_neg (by rw [hown]; simp [howner])]
        exact ⟨hown, hle⟩
      · rintro ⟨hown, hle⟩
        split at hown
        · cases hown
        · exact ⟨hown, hle⟩
  · change (if s.claims.blockOwners va = some owner ∧ entry ≤ va then none else s.claims.blockOwners va) = some e at he
    split at he
    · cases he
    · rcases h.owner va e he with hsome | ⟨t, ht, -⟩
      · refine .inl ?_
        change (KeyedList.get Function.entryVa e (s.functions.map _)).isSome
        rw [KeyedList.get_map _ (fun f => by split <;> rfl), Option.isSome_map]
        exact hsome
      · rw [htask] at ht; cases ht
  · change s.task = some t at ht
    rw [htask] at ht; cases ht

theorem carve (h : Sound s) (htask : s.task = none) (entry : Nat) : Sound (Discovery.carve s entry) := by
  unfold Discovery.carve
  split
  · exact h
  · split
    · split
      · exact h
      · exact h.carveOut htask _ entry
    · exact h

end Sound

@[simp] theorem carve_task (s : State) (entry : Nat) : (carve s entry).task = s.task := by
  unfold carve
  split
  · rfl
  · split
    · split <;> rfl
    · rfl

theorem foldl_carve_task (entries : List Nat) (s : State) : (entries.foldl carve s).task = s.task := by
  induction entries generalizing s with
  | nil => rfl
  | cons entry entries ih => rw [List.foldl_cons, ih, carve_task]

theorem Sound.foldl_carve {s : State} (h : Sound s) (htask : s.task = none) (entries : List Nat) :
    Sound (entries.foldl Discovery.carve s) := by
  induction entries generalizing s with
  | nil => exact h
  | cons entry entries ih => exact ih (h.carve htask entry) (by rw [carve_task, htask])

namespace Sound

variable {s s' : State} {t : Task} {start : Nat} {rest : List Nat}

/-- What is queued is owned by the function being discovered. -/
theorem queued_owner (h : Sound s) (htask : s.task = some t) (hqueue : s.claims.blockQueue = start :: rest) :
    s.claims.blockOwners start = some t.entry :=
  ((h.task t htask).owned start).mpr (.inr (by rw [hqueue]; exact List.mem_cons_self))

theorem decodeClaims_eq (h : Sound s) (htask : s.task = some t) (hqueue : s.claims.blockQueue = start :: rest) :
    decodeClaims s t start rest = { s.claims with blockQueue := rest } :=
  Claims.own_of_some (h.queued_owner htask hqueue)

theorem pass (h : Sound s) (htask : s.task = some t) (hqueue : s.claims.blockQueue = start :: rest)
    (hseen : (blockAt t.blocks start).isSome ∨ isOwnedByOther s.claims start t.entry = true) :
    Sound { s with claims := { s.claims with blockQueue := rest } } := by
  have hdecoded : (blockAt t.blocks start).isSome := by
    refine hseen.resolve_right fun hother => ?_
    obtain ⟨owner, howner, hne⟩ := isOwnedByOther_eq_true.mp hother
    exact hne (Option.some.inj (howner.symm.trans (h.queued_owner htask hqueue)))
  refine ⟨h.functions_ordered, h.blocks_ordered, h.function_block, h.owner, fun hnone => ?_, fun t' ht' => ?_⟩
  · exact absurd (hnone.symm.trans htask) (by simp)
  · obtain rfl := Option.some.inj (ht'.symm.trans htask)
    obtain ⟨hnew, hordered, hentry, howned⟩ := h.task _ ht'
    refine ⟨hnew, hordered, hentry, fun va => ?_⟩
    have hold := howned va
    rw [hqueue, List.mem_cons] at hold
    rw [hold]
    constructor
    · rintro (hblock | rfl | hmem)
      · exact .inl hblock
      · exact .inl hdecoded
      · exact .inr hmem
    · rintro (hblock | hmem)
      · exact .inl hblock
      · exact .inr (.inr hmem)

theorem move (h : Sound s) (hmove : Move inp s s') : Sound s' := by
  cases hmove with
  | finish htask hqueue => exact h.finish htask hqueue
  | pass htask hqueue hseen => exact h.pass htask hqueue hseen
  | decode htask hqueue hnew hmine =>
    rw [h.decodeClaims_eq htask hqueue]
    exact h.decode htask hqueue rfl (decodeBlock_grows _ _ _ _)
  | ignore htask hworklist => exact h.congr rfl rfl rfl rfl
  | @enter entry rest htask hworklist hnew hexec hmine =>
    refine h.enter htask hnew rfl ?_ (fun va hva => ?_) hmine
    · change (Claims.own _ entry entry).blockOwners entry = some entry
      unfold Claims.own
      split
      · exact Function.update_self _ _ _
      · next howned =>
        obtain ⟨owner, howner⟩ := Option.ne_none_iff_exists'.mp howned
        rw [howner, isOwnedByOther_eq_false.mp hmine owner howner]
    · change (Claims.own _ entry entry).blockOwners va = _
      unfold Claims.own
      split
      · exact Function.update_of_ne hva _ _
      · rfl
  | gaps htask => exact h.congr rfl rfl (foldl_seedFunction_owners _ _) (foldl_seedFunction_queue _ _)
  | filters htask =>
    exact (h.foldl_carve htask (filterCandidates inp)).congr rfl rfl (foldl_seedFunction_owners _ _)
      (foldl_seedFunction_queue _ _)

end Sound

variable (inp) in
/-- The states of the run. -/
abbrev Reached (s : State) : Prop := Reaches (step inp) (start inp) s

theorem reached_sound {s : State} (h : Reached inp s) : Sound s :=
  Machine.inv_of_reaches start_sound (fun _ _ _ hs hstep => hs.move (step_move hstep)) h

end Windy.Discovery
