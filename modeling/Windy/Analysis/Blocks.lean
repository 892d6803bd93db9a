import Windy.Analysis.Ending

/- The blocks of a run, and what becomes of them.

   What is proved:
     1. `HasBlock.before`, `HasBlock.after`: a block comes when it is decoded, and goes when
        the last pass frees its address.
     2. `hasBlock_discover`: the table of the result holds the blocks of the last state.
     3. `CarvesNothing.block_end`, `owner_end`: where the last pass finds no filter inside of
        a function, every block and every claim stays to the end. -/
namespace Windy.Discovery

variable {inp : Input}

/-! ## Blocks -/

/-- A block of the function with this entry, finished or not. -/
def BlockOf (s : State) (e : Nat) (b : BasicBlock) : Prop :=
  (∃ t, s.task = some t ∧ t.entry = e ∧ b ∈ t.blocks) ∨ ∃ f ∈ s.functions, f.entryVa = e ∧ b ∈ f.blocks

/-- The function keeps a block of so many instructions, with these edges, at an address.
Blocks before the entry do not count, and edges to there count as tail calls, as they will
be when the function is finished. -/
def HasBlock (s : State) (e va n : Nat) (es : List Edge) : Prop :=
  e ≤ va ∧ ∃ b, BlockOf s e b ∧ b.entryVa = va ∧ b.instrCount = n ∧ b.successors.map (rewriteEdge e) = es

@[simp] theorem rewriteEdge_rewriteEdge (entry : Nat) (e : Edge) :
    rewriteEdge entry (rewriteEdge entry e) = rewriteEdge entry e := by
  by_cases h : e.target ≠ 0 ∧ e.target < entry
  · simp [rewriteEdge, h]
  · simp [rewriteEdge, h]

@[simp] theorem rewriteEdge_target (entry : Nat) (e : Edge) : (rewriteEdge entry e).target = e.target := by
  unfold rewriteEdge
  split <;> rfl

section Blocks

variable {s s' : State} {e va n : Nat} {es : List Edge}

theorem hasBlock_congr (hfunctions : s'.functions = s.functions) (htask : s'.task = s.task) :
    HasBlock s' e va n es ↔ HasBlock s e va n es := by
  simp [HasBlock, BlockOf, hfunctions, htask]

theorem HasBlock.owner (hs : Sound s) (h : HasBlock s e va n es) : s.claims.blockOwners va = some e := by
  obtain ⟨-, b, ⟨t, htask, rfl, hb⟩ | ⟨f, hf, rfl, hb⟩, rfl, -⟩ := h
  · exact ((hs.task t htask).owned _).mpr (.inl (KeyedList.get_isSome_iff.mpr ⟨b, hb, rfl⟩))
  · exact ((hs.function_block f hf _).mp ⟨b, hb, rfl⟩).1

/-- Between two functions every block is one of a finished function. -/
theorem HasBlock.function (h : HasBlock s e va n es) (hs : Sound s) (htask : s.task = none) :
    (s.functions.get e).isSome := by
  rcases hs.owner va e (h.owner hs) with hfun | ⟨t, ht, -⟩
  · exact hfun
  · rw [htask] at ht; cases ht

/-- What a function owns from its entry on is a block of it, or still queued. -/
theorem Sound.block_or_queued (hs : Sound s) (howner : s.claims.blockOwners va = some e) (hle : e ≤ va) :
    (∃ n es, HasBlock s e va n es) ∨ ∃ t, s.task = some t ∧ t.entry = e ∧ va ∈ s.claims.blockQueue := by
  rcases hs.owner va e howner with hsome | ⟨t, htask, rfl⟩
  · obtain ⟨f, hf⟩ := Option.isSome_iff_exists.mp hsome
    have hkey : f.entryVa = e := KeyedList.key_of_get hf
    subst hkey
    obtain ⟨b, hb, rfl⟩ := (hs.function_block f (KeyedList.mem_of_get hf) va).mpr ⟨howner, hle⟩
    exact .inl ⟨_, _, hle, b, .inr ⟨f, KeyedList.mem_of_get hf, rfl, hb⟩, rfl, rfl, rfl⟩
  · rcases ((hs.task t htask).owned va).mp howner with hblock | hqueued
    · obtain ⟨b, hb, rfl⟩ := KeyedList.get_isSome_iff.mp hblock
      exact .inl ⟨_, _, hle, b, .inl ⟨t, htask, rfl, hb⟩, rfl, rfl, rfl⟩
    · exact .inr ⟨t, htask, rfl, hqueued⟩

/-- The entry of the function being discovered is no finished function. -/
theorem Sound.function_ne_task (hs : Sound s) {t : Task} (htask : s.task = some t) {f : Function}
    (hf : f ∈ s.functions) : f.entryVa ≠ t.entry := by
  intro heq
  have hget := KeyedList.get_of_mem hs.functions_ordered hf
  rw [heq] at hget
  exact Option.some_ne_none _ (hget.symm.trans (hs.task t htask).new)

theorem hasBlock_finish (hs : Sound s) {t : Task} (htask : s.task = some t) :
    HasBlock (finish s t) e va n es ↔ HasBlock s e va n es := by
  have hnew : KeyedList.get Function.entryVa t.entry s.functions = none := (hs.task t htask).new
  have hmem : ∀ f, f ∈ (finish s t).functions ↔ f = ⟨t.entry, withPredecessors (keptBlocks t), none, none⟩ ∨ f ∈ s.functions :=
    fun f => KeyedList.mem_put_iff hs.functions_ordered hnew
  have hblocks := exists_finished (t := t) (P := fun start count edges =>
    start = va ∧ count = n ∧ edges.map (rewriteEdge t.entry) = es)
  simp only [List.map_map, Function.comp_def, rewriteEdge_rewriteEdge] at hblocks
  simp only [HasBlock, BlockOf, hmem, htask]
  constructor
  · rintro ⟨hle, b, ⟨t', ht', -⟩ | ⟨f, rfl | hf, rfl, hb⟩, hva, hn⟩
    · cases ht'
    · obtain ⟨b', hb', -, hshape⟩ := hblocks.mp ⟨b, hb, hva, hn⟩
      exact ⟨hle, b', .inl ⟨t, rfl, rfl, hb'⟩, hshape⟩
    · exact ⟨hle, b, .inr ⟨f, hf, rfl, hb⟩, hva, hn⟩
  · rintro ⟨hle, b, ⟨t', ht', rfl, hb⟩ | ⟨f, hf, rfl, hb⟩, hva, hn⟩
    · obtain rfl := Option.some.inj ht'
      obtain ⟨b', hb', hshape⟩ := hblocks.mpr ⟨b, hb, hva ▸ hle, hva, hn⟩
      exact ⟨hle, b', .inr ⟨_, .inl rfl, rfl, hb'⟩, hshape⟩
    · exact ⟨hle, b, .inr ⟨f, .inr hf, rfl, hb⟩, hva, hn⟩

theorem hasBlock_decode (hs : Sound s) {t : Task} (htask : s.task = some t) {b : BasicBlock} (c' : Claims)
    (hnew : blockAt t.blocks b.entryVa = none) :
    HasBlock { s with claims := c', task := some { t with blocks := KeyedList.put BasicBlock.entryVa b t.blocks } }
        e va n es ↔
      HasBlock s e va n es ∨
        e = t.entry ∧ t.entry ≤ va ∧ va = b.entryVa ∧ n = b.instrCount ∧ es = b.successors.map (rewriteEdge e) := by
  have hmem : ∀ a, a ∈ KeyedList.put BasicBlock.entryVa b t.blocks ↔ a = b ∨ a ∈ t.blocks :=
    fun a => KeyedList.mem_put_iff (hs.task t htask).ordered hnew
  simp only [HasBlock, BlockOf, htask, Option.some.injEq, exists_eq_left', hmem]
  constructor
  · rintro ⟨hle, a, ⟨rfl, rfl | ha⟩ | hf, hva, hn, hes⟩
    · exact .inr ⟨rfl, hle, hva.symm, hn.symm, hes.symm⟩
    · exact .inl ⟨hle, a, .inl ⟨rfl, ha⟩, hva, hn, hes⟩
    · exact .inl ⟨hle, a, .inr hf, hva, hn, hes⟩
  · rintro (⟨hle, a, ⟨rfl, ha⟩ | hf, hva, hn⟩ | ⟨rfl, hle, hva, hn, hes⟩)
    · exact ⟨hle, a, .inl ⟨rfl, .inr ha⟩, hva, hn⟩
    · exact ⟨hle, a, .inr hf, hva, hn⟩
    · exact ⟨hle, b, .inl ⟨rfl, .inl rfl⟩, hva.symm, hn.symm, hes.symm⟩

theorem hasBlock_enter {entry : Nat} (htask : s.task = none) (c' : Claims) :
    HasBlock { s with claims := c', task := some ⟨entry, []⟩ } e va n es ↔ HasBlock s e va n es := by
  simp [HasBlock, BlockOf, htask]

theorem hasBlock_carveOut (hs : Sound s) (htask : s.task = none) (owner entry : Nat) :
    HasBlock (carveOut s owner entry) e va n es ↔
      HasBlock s e va n es ∧ (carveOut s owner entry).claims.blockOwners va = some e := by
  refine ⟨fun h => ⟨?_, h.owner (hs.carveOut htask owner entry)⟩, fun ⟨h, hkept⟩ => ?_⟩
  · obtain ⟨hle, b, ⟨t, ht, -⟩ | ⟨f', hf', hentry, hb⟩, hshape⟩ := h
    · rw [show (carveOut s owner entry).task = s.task from rfl, htask] at ht
      cases ht
    · obtain ⟨f, hf, rfl⟩ := List.mem_map.mp hf'
      refine ⟨hle, b, .inr ⟨f, hf, ?_⟩, hshape⟩
      split at hentry
      · next heq =>
        rw [if_pos heq] at hb
        exact ⟨hentry, (List.mem_filter.mp hb).1⟩
      · next hne =>
        rw [if_neg hne] at hb
        exact ⟨hentry, hb⟩
  · have howner := h.owner hs
    obtain ⟨hle, b, ⟨t, ht, -⟩ | ⟨f, hf, hentry, hb⟩, hva, hn⟩ := h
    · rw [htask] at ht; cases ht
    · refine ⟨hle, b, .inr ⟨_, List.mem_map_of_mem hf, ?_⟩, hva, hn⟩
      split
      · next heq =>
        -- the address is still owned, so it lies before the cut
        refine ⟨hentry, List.mem_filter.mpr ⟨hb, ?_⟩⟩
        change (if s.claims.blockOwners va = some owner ∧ entry ≤ va then none else s.claims.blockOwners va) = some e at hkept
        split at hkept
        · cases hkept
        · next hbefore =>
          rw [howner, ← hentry, heq] at hbefore
          simp only [true_and, not_le] at hbefore
          simpa [hva] using hbefore
      · exact ⟨hentry, hb⟩

/-- Cutting out takes the blocks whose addresses it frees. -/
theorem hasBlock_carve (hs : Sound s) (htask : s.task = none) (entry : Nat) :
    HasBlock (carve s entry) e va n es ↔ HasBlock s e va n es ∧ (carve s entry).claims.blockOwners va = some e := by
  have hkeep : HasBlock s e va n es ↔ HasBlock s e va n es ∧ s.claims.blockOwners va = some e :=
    ⟨fun h => ⟨h, h.owner hs⟩, And.left⟩
  unfold carve
  split
  · exact hkeep
  · split
    · next owner howner =>
      split
      · exact hkeep
      · exact hasBlock_carveOut hs htask owner entry
    · exact hkeep

/-- Cutting out leaves an owner or takes it. -/
theorem carve_owners (s : State) (entry va : Nat) :
    (carve s entry).claims.blockOwners va = s.claims.blockOwners va ∨ (carve s entry).claims.blockOwners va = none := by
  unfold carve
  split
  · exact .inl rfl
  · split
    · next owner howner =>
      split
      · exact .inl rfl
      · change (if s.claims.blockOwners va = some owner ∧ entry ≤ va then none else s.claims.blockOwners va) = _ ∨
          (if s.claims.blockOwners va = some owner ∧ entry ≤ va then none else s.claims.blockOwners va) = none
        split
        · exact .inr rfl
        · exact .inl rfl
    · exact .inl rfl

theorem foldl_carve_owners (entries : List Nat) (s : State) (va : Nat) :
    (entries.foldl carve s).claims.blockOwners va = s.claims.blockOwners va ∨
      (entries.foldl carve s).claims.blockOwners va = none := by
  induction entries generalizing s with
  | nil => exact .inl rfl
  | cons entry entries ih =>
    rcases ih (carve s entry) with heq | hnone
    · rw [List.foldl_cons, heq]
      exact carve_owners s entry va
    · exact .inr hnone

theorem hasBlock_foldl_carve (hs : Sound s) (htask : s.task = none) (entries : List Nat) :
    HasBlock (entries.foldl carve s) e va n es ↔
      HasBlock s e va n es ∧ (entries.foldl carve s).claims.blockOwners va = some e := by
  induction entries generalizing s with
  | nil => exact ⟨fun h => ⟨h, h.owner hs⟩, And.left⟩
  | cons entry entries ih =>
    rw [List.foldl_cons, ih (hs.carve htask entry) (by rw [carve_task, htask]), hasBlock_carve hs htask, and_assoc]
    refine and_congr_right fun _ => and_iff_right_of_imp fun howner => ?_
    rcases foldl_carve_owners entries (carve s entry) va with heq | hnone
    · rw [← heq, howner]
    · rw [hnone] at howner; cases howner

theorem filters_owners (s : State) :
    (seedAccessViolationFilterLeaves inp s).claims.blockOwners =
      ((filterCandidates inp).foldl carve s).claims.blockOwners :=
  foldl_seedFunction_owners _ _

theorem hasBlock_filters (hs : Sound s) (htask : s.task = none) :
    HasBlock (seedAccessViolationFilterLeaves inp s) e va n es ↔
      HasBlock s e va n es ∧ (seedAccessViolationFilterLeaves inp s).claims.blockOwners va = some e := by
  rw [filters_owners, ← hasBlock_foldl_carve hs htask]
  exact hasBlock_congr rfl rfl

/-- What the last pass leaves of a function. -/
theorem foldl_carve_functions (entries : List Nat) (s : State) :
    ∀ f' ∈ (entries.foldl carve s).functions, ∃ f ∈ s.functions, f'.entryVa = f.entryVa ∧
      ∃ p : BasicBlock → Bool, f'.blocks = f.blocks.filter p := by
  induction entries generalizing s with
  | nil => exact fun f hf => ⟨f, hf, rfl, fun _ => true, by simp⟩
  | cons entry entries ih =>
    have hcarve : ∀ f' ∈ (carve s entry).functions, ∃ f ∈ s.functions, f'.entryVa = f.entryVa ∧
        ∃ p : BasicBlock → Bool, f'.blocks = f.blocks.filter p := by
      have hsame : ∀ f ∈ s.functions, ∃ g ∈ s.functions, f.entryVa = g.entryVa ∧
          ∃ p : BasicBlock → Bool, f.blocks = g.blocks.filter p := fun f hf => ⟨f, hf, rfl, fun _ => true, by simp⟩
      unfold carve
      split
      · exact hsame
      · split
        · next owner _ =>
          split
          · exact hsame
          · intro f' hf'
            obtain ⟨f, hf, rfl⟩ := List.mem_map.mp hf'
            refine ⟨f, hf, ?_⟩
            split
            · exact ⟨rfl, _, rfl⟩
            · exact ⟨rfl, fun _ => true, by simp⟩
        · exact hsame
    intro f' hf'
    obtain ⟨g, hg, hentry, q, hq⟩ := ih (carve s entry) f' hf'
    obtain ⟨f, hf, hentry', p, hp⟩ := hcarve g hg
    exact ⟨f, hf, hentry.trans hentry', _, by rw [hq, hp, List.filter_filter]⟩

theorem filters_functions (hs : Sound s) (htask : s.task = none) :
    ∀ f' ∈ (seedAccessViolationFilterLeaves inp s).functions, ∃ f ∈ s.functions, f'.entryVa = f.entryVa ∧
      f'.blocks = f.blocks.filter fun b =>
        (seedAccessViolationFilterLeaves inp s).claims.blockOwners b.entryVa = some f.entryVa := by
  intro f' hf'
  obtain ⟨f, hf, hentry, p, hp⟩ := foldl_carve_functions (filterCandidates inp) s f' hf'
  refine ⟨f, hf, hentry, ?_⟩
  have hblock := (hs.foldl_carve htask (filterCandidates inp)).function_block f' hf'
  rw [filters_owners, hp]
  rw [hp, hentry] at hblock
  refine List.filter_congr fun b hb => ?_
  have hle := ((hs.function_block f hf b.entryVa).mp ⟨b, hb, rfl⟩).2
  rw [Bool.eq_iff_iff, decide_eq_true_eq]
  constructor
  · intro hpb
    exact ((hblock b.entryVa).mp ⟨b, List.mem_filter.mpr ⟨hb, hpb⟩, rfl⟩).1
  · intro howner
    obtain ⟨c, hc, heq⟩ := (hblock b.entryVa).mpr ⟨howner, hle⟩
    obtain ⟨hcf, hpc⟩ := List.mem_filter.mp hc
    have hget := KeyedList.get_of_mem (hs.blocks_ordered f hf) hcf
    rw [heq, KeyedList.get_of_mem (hs.blocks_ordered f hf) hb] at hget
    rw [Option.some.inj hget]
    exact hpc

variable (inp) in
/-- The step is the last pass. -/
structure LastPass (s s' : State) : Prop where
  task : s.task = none
  worklist : s.claims.worklist = []
  stage : s.stage = .gaps
  eq : s' = seedAccessViolationFilterLeaves inp s

/-- What a step does to the owner of an address: nothing, a claim for the function being
discovered, or in the last pass its loss. -/
theorem Move.owner_cases (hs : Sound s) (hmove : Move inp s s') (va : Nat) :
    s'.claims.blockOwners va = s.claims.blockOwners va ∨
      (s.claims.blockOwners va = none ∧ ∃ t, s'.task = some t ∧ s'.claims.blockOwners va = some t.entry) ∨
      LastPass inp s s' ∧ s'.claims.blockOwners va = none := by
  cases hmove with
  | finish | pass | ignore => exact .inl rfl
  | @decode t start rest htask hqueue hnew hmine =>
    rw [hs.decodeClaims_eq htask hqueue]
    rcases (decodeBlock_grows inp { s.claims with blockQueue := rest } t start).owners va with heq | ⟨hnone, hsome⟩
    · exact .inl heq
    · exact .inr (.inl ⟨hnone, _, rfl, hsome⟩)
  | @enter entry rest htask hworklist hnew hexec hmine =>
    by_cases hnone : s.claims.blockOwners entry = none
    · by_cases hva : va = entry
      · subst hva
        refine .inr (.inl ⟨hnone, _, rfl, ?_⟩)
        simp [Claims.own, hnone]
      · left
        simp [Claims.own, hnone, hva]
    · left
      simp [Claims.own, hnone]
  | gaps => exact .inl (congrFun (foldl_seedFunction_owners _ _) va)
  | filters htask hworklist hstage =>
    rw [filters_owners]
    rcases foldl_carve_owners (filterCandidates inp) s va with heq | hnone
    · exact .inl heq
    · exact .inr (.inr ⟨⟨htask, hworklist, hstage, rfl⟩, hnone⟩)

/-- The step decodes the block at the front of the queue. -/
structure Decodes (s : State) (t : Task) (start : Nat) (rest : List Nat) : Prop where
  task : s.task = some t
  queue : s.claims.blockQueue = start :: rest
  new : blockAt t.blocks start = none

theorem Decodes.step_eq (hs : Sound s) {t : Task} {start : Nat} {rest : List Nat} (h : Decodes s t start rest) :
    step inp s = some
      { s with
        claims := (decodeBlock inp { s.claims with blockQueue := rest } t start).1
        task := some { t with
          blocks := KeyedList.put BasicBlock.entryVa (decodeBlock inp { s.claims with blockQueue := rest } t start).2
            t.blocks } } := by
  obtain ⟨htask, hqueue, hnew⟩ := h
  have howner := hs.queued_owner htask hqueue
  have hmine : isOwnedByOther s.claims start t.entry = false :=
    isOwnedByOther_eq_false.mpr fun owner ho => Option.some.inj (ho.symm.trans howner)
  have hown : ({ s.claims with blockQueue := rest } : Claims).own start t.entry = { s.claims with blockQueue := rest } :=
    hs.decodeClaims_eq htask hqueue
  unfold step
  rw [htask, hqueue]
  simp only [visitBlock, hnew]
  rw [if_neg (by simpa [isOwnedByOther] using hmine)]
  rw [hown]

/-- Blocks come when they are decoded. -/
theorem HasBlock.before (hs : Sound s) (hmove : Move inp s s') (h : HasBlock s' e va n es) :
    HasBlock s e va n es ∨
      ∃ t rest, Decodes s t va rest ∧ e = t.entry ∧ e ≤ va ∧ n = (walkFrom inp s.claims t va).1.length ∧
        es = (decodeBlock inp s.claims t va).2.successors.map (rewriteEdge e) := by
  cases hmove with
  | finish htask hqueue => exact .inl ((hasBlock_finish hs htask).mp h)
  | pass | ignore | gaps => exact .inl ((hasBlock_congr rfl rfl).mp h)
  | @decode t start rest htask hqueue hnew hmine =>
    rw [hs.decodeClaims_eq htask hqueue] at h
    rw [decodeBlock_queue] at h
    rcases (hasBlock_decode hs htask _ hnew).mp h with hold | ⟨he, hle, rfl, hn, hes⟩
    · exact .inl hold
    · exact .inr ⟨t, rest, ⟨htask, hqueue, hnew⟩, he, he ▸ hle, hn, hes⟩
  | enter htask hworklist hnew hexec hmine => exact .inl ((hasBlock_enter htask _).mp h)
  | filters htask hworklist hstage => exact .inl ((hasBlock_filters hs htask).mp h).1

/-- The blocks of the function being discovered come when they are decoded. -/
theorem Move.task_block (hs : Sound s) (hmove : Move inp s s') {t' : Task} (htask : s'.task = some t') {b : BasicBlock}
    (hb : b ∈ t'.blocks) :
    ∃ t, s.task = some t ∧ t.entry = t'.entry ∧ (b ∈ t.blocks ∨
      ∃ start rest, Decodes s t start rest ∧ isOwnedByOther s.claims start t.entry = false ∧
        b = (decodeBlock inp { s.claims with blockQueue := rest } t start).2 ∧
        s'.claims = (decodeBlock inp { s.claims with blockQueue := rest } t start).1) := by
  cases hmove with
  | finish => cases htask
  | pass => exact ⟨t', htask, rfl, .inl hb⟩
  | ignore hnone | gaps hnone => exact absurd (hnone.symm.trans htask) (by simp)
  | enter =>
    obtain rfl := Option.some.inj htask
    cases hb
  | filters hnone => exact absurd (((foldl_carve_task _ s).trans hnone).symm.trans htask) (by simp)
  | @decode t start rest ht hqueue hnew hmine =>
    obtain rfl := Option.some.inj htask
    rw [hs.decodeClaims_eq ht hqueue] at hb ⊢
    rcases KeyedList.mem_of_mem_put hb with rfl | hmem
    · exact ⟨t, ht, rfl, .inr ⟨start, rest, ⟨ht, hqueue, hnew⟩, hmine, rfl, rfl⟩⟩
    · exact ⟨t, ht, rfl, .inl hmem⟩

/-- Blocks go when the last pass frees their addresses. -/
theorem HasBlock.after (hs : Sound s) (hmove : Move inp s s') (h : HasBlock s e va n es) :
    HasBlock s' e va n es ∨ LastPass inp s s' ∧ s'.claims.blockOwners va = none := by
  cases hmove with
  | finish htask hqueue => exact .inl ((hasBlock_finish hs htask).mpr h)
  | pass | ignore | gaps => exact .inl ((hasBlock_congr rfl rfl).mpr h)
  | decode htask hqueue hnew hmine => exact .inl ((hasBlock_decode hs htask _ hnew).mpr (.inl h))
  | enter htask hworklist hnew hexec hmine => exact .inl ((hasBlock_enter htask _).mpr h)
  | filters htask hworklist hstage =>
    rw [hasBlock_filters hs htask, filters_owners]
    rcases foldl_carve_owners (filterCandidates inp) s va with heq | hnone
    · exact .inl ⟨h, heq.trans (h.owner hs)⟩
    · exact .inr ⟨⟨htask, hworklist, hstage, rfl⟩, hnone⟩

/-- The block a step decodes. -/
theorem Decodes.hasBlock (hs : Sound s) {t : Task} {rest : List Nat} (h : Decodes s t va rest) (hle : t.entry ≤ va)
    (hstep : step inp s = some s') :
    HasBlock s' t.entry va (walkFrom inp s.claims t va).1.length
      ((decodeBlock inp s.claims t va).2.successors.map (rewriteEdge t.entry)) := by
  obtain rfl := Option.some.inj (hstep.symm.trans (h.step_eq hs))
  rw [decodeBlock_queue]
  exact (hasBlock_decode hs h.task _ h.new).mpr (.inr ⟨rfl, hle, rfl, rfl, rfl⟩)

end Blocks

variable {es : List Edge} {e va n : Nat}

theorem not_hasBlock_start : ¬ HasBlock (start inp) e va n es := by
  rintro ⟨-, b, ⟨t, ht, -⟩ | ⟨f, hf, -⟩, -⟩
  · cases ht
  · cases hf

/-- What holds of blocks when they are decoded holds of every block of a run. -/
theorem HasBlock.of_decodes {P : Nat → Nat → Nat → List Edge → Prop}
    (hdecodes : ∀ s t va rest, Reached inp s → Decodes s t va rest →
      P t.entry va (walkFrom inp s.claims t va).1.length
        ((decodeBlock inp s.claims t va).2.successors.map (rewriteEdge t.entry)))
    {s : State} (h : Reached inp s) (hb : HasBlock s e va n es) : P e va n es := by
  refine Machine.inv_of_reaches (P := fun s => ∀ e va n es, HasBlock s e va n es → P e va n es) ?_
    (fun t u ht hold hstep e va n es hb => ?_) h e va n es hb
  · exact fun e va n es hb => absurd hb not_hasBlock_start
  · rcases hb.before (reached_sound ht) (step_move hstep) with hb | ⟨task, rest, hdec, rfl, -, rfl, rfl⟩
    · exact hold e va n es hb
    · exact hdecodes t task va rest ht hdec

/-- A block at an instruction holds it. -/
theorem HasBlock.start_mem {s : State} (hb : HasBlock s e va n es) (h : Reached inp s) {d : DecodedInstr}
    (hat : inp.code.atVa va = some d) : d ∈ inp.code.sweep va n := by
  refine HasBlock.of_decodes (P := fun _ va n _ => inp.code.atVa va = some d → d ∈ inp.code.sweep va n)
    (fun s t va rest hr hdec hat => ?_) h hb hat
  have howner := (reached_sound hr).queued_owner hdec.task hdec.queue
  have hmine := isOwnedByOther_eq_false.mpr fun owner ho => Option.some.inj (ho.symm.trans howner)
  exact walkFrom_mem.mpr ((walkFrom_walked _ _ va).start_mem hat hmine)

/-- The same for every block of the function being discovered, also for those it will
drop. -/
theorem task_block_start {s : State} (h : Reached inp s) {t : Task} (htask : s.task = some t) {b : BasicBlock}
    (hb : b ∈ t.blocks) {d : DecodedInstr} (hat : inp.code.atVa b.entryVa = some d) : d ∈ span inp b := by
  refine Machine.inv_of_reaches (P := fun s => ∀ t, s.task = some t → ∀ b ∈ t.blocks,
    ∀ d, inp.code.atVa b.entryVa = some d → d ∈ span inp b) (fun t ht => by cases ht) ?_ h t htask b hb d hat
  intro s s' hr hold hstep t' htask b hb d hat
  obtain ⟨t, ht, -, hmem | ⟨start, rest, -, hmine, rfl, -⟩⟩ := (step_move hstep).task_block (reached_sound hr) htask hb
  · exact hold t ht b hmem d hat
  · rw [decodeBlock_span]
    exact (walkFrom_walked _ t start).start_mem hat hmine

/-- Before its last instruction the control goes straight on through a block. -/
theorem HasBlock.next_of_not_last {s : State} (hb : HasBlock s e va n es)
    (h : Reached inp s) {d b : DecodedInstr} (hd : d ∈ inp.code.sweep va n) (hbmem : b ∈ inp.code.sweep va n)
    (hip : b.ip = d.nextIp) : d.flowControl = .next := by
  refine HasBlock.of_decodes (P := fun _ va n _ => d ∈ inp.code.sweep va n → b ∈ inp.code.sweep va n →
    d.flowControl = .next) (fun s t va rest hr hdec hd hbmem => ?_) h hb hd hbmem
  rw [walkFrom_mem] at hd hbmem
  exact (walkFrom_walked _ _ va).flow_next hd hbmem hip

/-- The edges of a finished function are rewritten. -/
theorem reached_rewritten {s : State} (h : Reached inp s) :
    ∀ f ∈ s.functions, ∀ b ∈ f.blocks, b.successors.map (rewriteEdge f.entryVa) = b.successors := by
  refine Machine.inv_of_reaches (P := fun s => ∀ f ∈ s.functions, ∀ b ∈ f.blocks,
    b.successors.map (rewriteEdge f.entryVa) = b.successors) (fun f hf => by cases hf) ?_ h
  intro s s' hr hold hstep
  cases step_move hstep with
  | finish =>
    intro f hf b hb
    rcases KeyedList.mem_of_mem_put hf with rfl | hmem
    · obtain ⟨b₁, hb₁, rfl⟩ := List.mem_map.mp hb
      obtain ⟨b₀, hb₀, rfl⟩ := List.mem_map.mp hb₁
      simp
    · exact hold f hmem b hb
  | pass | ignore | gaps | enter | decode => exact hold
  | filters htask =>
    intro f' hf' b hb
    obtain ⟨f, hf, hentry, hblocks⟩ := filters_functions (reached_sound hr) htask f' hf'
    rw [hblocks] at hb
    rw [hentry]
    exact hold f hf b (List.mem_filter.mp hb).1

/-! ## The result -/

/-- The table of the result holds the blocks of the last state. -/
theorem hasBlock_discover :
    HasBlock (finalState inp) e va n es ↔
      ∃ f ∈ discover inp, f.entryVa = e ∧
        ∃ b ∈ f.blocks, b.entryVa = va ∧ b.instrCount = n ∧ b.successors.map (rewriteEdge e) = es := by
  have hs := reached_sound (reached_finalState inp)
  have htask := (halted (discover_ends inp)).1
  constructor
  · rintro ⟨-, b, ⟨t, ht, -⟩ | ⟨f, hf, he, hb⟩, hshape⟩
    · rw [htask] at ht; cases ht
    · exact ⟨f, hf, he, b, hb, hshape⟩
  · rintro ⟨f, hf, rfl, b, hb, rfl, hshape⟩
    exact ⟨((hs.function_block f hf _).mp ⟨b, hb, rfl⟩).2, b, .inr ⟨f, hf, rfl, hb⟩, rfl, hshape⟩

/-- A block of the table, with its edges. -/
theorem hasBlock_of_mem {f : Function} (hf : f ∈ discover inp) {b : BasicBlock} (hb : b ∈ f.blocks) :
    HasBlock (finalState inp) f.entryVa b.entryVa b.instrCount b.successors :=
  hasBlock_discover.mpr ⟨f, hf, rfl, b, hb, rfl, rfl, reached_rewritten (reached_finalState inp) f hf b hb⟩

/-- Functions and blocks are told apart by their addresses. -/
theorem discover_unique {f g : Function} (hf : f ∈ discover inp) (hg : g ∈ discover inp)
    (hentry : f.entryVa = g.entryVa) : f = g := by
  have hord := (reached_sound (reached_finalState inp)).functions_ordered
  have hget := KeyedList.get_of_mem hord hf
  rw [hentry, KeyedList.get_of_mem hord hg] at hget
  exact (Option.some.inj hget).symm

theorem block_unique {f : Function} (hf : f ∈ discover inp) {b c : BasicBlock} (hb : b ∈ f.blocks) (hc : c ∈ f.blocks)
    (hentry : b.entryVa = c.entryVa) : b = c := by
  have hord := (reached_sound (reached_finalState inp)).blocks_ordered f hf
  have hget := KeyedList.get_of_mem hord hb
  rw [hentry, KeyedList.get_of_mem hord hc] at hget
  exact (Option.some.inj hget).symm

/-! ## Runs that cut nothing out -/

variable (inp) in
/-- No filter lies inside of another function when the last pass begins. -/
def CarvesNothing : Prop :=
  ∀ s, Reached inp s → s.task = none → s.claims.worklist = [] → s.stage = .gaps →
    ∀ entry ∈ filterCandidates inp, ∀ owner, s.claims.blockOwners entry = some owner →
      owner = entry ∨ (s.functions.get entry).isSome

section CarvesNothing

variable {s s' : State} {e va n : Nat} {es : List Edge}

theorem foldl_carve_eq {entries : List Nat} (h : ∀ entry ∈ entries, ∀ owner, s.claims.blockOwners entry = some owner →
    owner = entry ∨ (s.functions.get entry).isSome) : entries.foldl carve s = s := by
  induction entries with
  | nil => rfl
  | cons entry entries ih =>
    have hcarve : carve s entry = s := by
      unfold carve
      split
      · rfl
      · next hnew =>
        split
        · next owner howner =>
          rw [if_pos ((h entry List.mem_cons_self owner howner).resolve_right hnew)]
        · rfl
    rw [List.foldl_cons, hcarve]
    exact ih fun a ha => h a (List.mem_cons_of_mem _ ha)

/-- Then an owner stays. -/
theorem CarvesNothing.owner_step (hn : CarvesNothing inp) (h : Reached inp s) (hstep : step inp s = some s')
    (howner : s.claims.blockOwners va = some e) : s'.claims.blockOwners va = some e := by
  rcases (step_move hstep).owner_cases (reached_sound h) va with heq | ⟨hnone, -⟩ | ⟨⟨htask, hworklist, hstage, rfl⟩, hnone⟩
  · rw [heq, howner]
  · rw [howner] at hnone; cases hnone
  · rw [filters_owners, foldl_carve_eq (hn s h htask hworklist hstage), howner] at hnone
    cases hnone

theorem CarvesNothing.block_step (hn : CarvesNothing inp) (h : Reached inp s) (hstep : step inp s = some s')
    (hb : HasBlock s e va n es) : HasBlock s' e va n es := by
  rcases hb.after (reached_sound h) (step_move hstep) with hkept | ⟨-, hnone⟩
  · exact hkept
  · rw [hn.owner_step h hstep (hb.owner (reached_sound h))] at hnone
    cases hnone

/-- What is kept with every step is there at the end. -/
theorem reached_to_end {P : State → Prop} (hkeep : ∀ s s', Reached inp s → step inp s = some s' → P s → P s')
    (h : Reached inp s) (hs : P s) : P (finalState inp) := by
  have hrest := Machine.reaches_halted h (reached_finalState inp) (discover_ends inp)
  exact Machine.inv_of_reaches hs
    (fun t u ht hPt hstep => hkeep t u (Machine.reaches_trans h ht) hstep hPt) hrest

theorem CarvesNothing.block_end (hn : CarvesNothing inp) (h : Reached inp s) (hb : HasBlock s e va n es) :
    HasBlock (finalState inp) e va n es :=
  reached_to_end (fun _ _ hr hstep => hn.block_step hr hstep) h hb

/-- What a function owns from its entry on is a block of it in the end. -/
theorem CarvesNothing.owner_end (hn : CarvesNothing inp) (h : Reached inp s)
    (howner : s.claims.blockOwners va = some e) (hle : e ≤ va) : ∃ n es, HasBlock (finalState inp) e va n es := by
  have hend := reached_to_end (P := fun s => s.claims.blockOwners va = some e)
    (fun _ _ hr hstep => hn.owner_step hr hstep) h howner
  rcases (reached_sound (reached_finalState inp)).block_or_queued hend hle with hblock | ⟨t, ht, -⟩
  · exact hblock
  · rw [(halted (discover_ends inp)).1] at ht
    cases ht

end CarvesNothing

end Windy.Discovery
