import Windy.Analysis.Blocks

/- Blocks and the instructions in them.

   Two blocks hold the same instruction when a walk runs over an address that the function
   has claimed and not decoded yet, or when an address inside of a block is claimed behind
   it: by a branch back into it, or as the entry of another function. The only other way is
   that two instructions lead to the same address.

   What is proved:
     1. `clear_clean`: as long as none of this happens, no claimed address lies behind the
        start of a block, and no instruction lies in two blocks.
     2. `partition_of_clear`: then the blocks of the result partition the code. Where no filter
        is cut out of a function, the result is a partition only then.
     3. `joinInput_shared`: a join after a branch puts one instruction into two blocks. -/
namespace Windy.Discovery

variable {inp : Input} {s s' : State}

variable (inp) in
/-- Nothing in the next step makes two blocks overlap. -/
structure Clear (s : State) : Prop where
  /-- The walk of a block the function keeps runs over no address that still waits to be
  decoded. -/
  waiting : ∀ t start rest, Decodes s t start rest → t.entry ≤ start →
    ∀ d ∈ (walkFrom inp s.claims t start).1, d.ip ≠ start → d.ip ∉ rest
  /-- It comes into a block behind its start only from inside of the block. -/
  joins : ∀ t start rest, Decodes s t start rest → t.entry ≤ start →
    ∀ p ∈ (walkFrom inp s.claims t start).1, ∀ q ∈ (walkFrom inp s.claims t start).1, p.nextIp = q.ip →
      ∀ e va n es, HasBlock s e va n es → q ∈ inp.code.sweep va n → q.ip ≠ va → p ∈ inp.code.sweep va n
  /-- An address that is claimed does not lie behind the start of a block. -/
  claims : ∀ s', step inp s = some s' → ∀ va e, s.claims.blockOwners va = none →
    s'.claims.blockOwners va = some e → e ≤ va →
      ∀ e₀ start n es, HasBlock s' e₀ start n es → ∀ d ∈ inp.code.sweep start n, d.ip = va → va = start

variable (inp) in
/-- No claimed address lies behind the start of a block, and no instruction in two. -/
structure Clean (s : State) : Prop where
  claimed : ∀ e start n es, HasBlock s e start n es → ∀ d ∈ inp.code.sweep start n, ∀ owner,
    s.claims.blockOwners d.ip = some owner → owner ≤ d.ip → d.ip = start
  apart : ∀ e start n es, HasBlock s e start n es → ∀ e' start' n' es', HasBlock s e' start' n' es' →
    ∀ d ∈ inp.code.sweep start n, d ∈ inp.code.sweep start' n' → start = start'

/-- An address that belongs to the function and is not decoded is no block of it. -/
theorem Decodes.not_hasBlock (hs : Sound s) {t : Task} {start : Nat} {rest : List Nat} (h : Decodes s t start rest)
    {va n : Nat} {es : List Edge} (hnew : blockAt t.blocks va = none) : ¬ HasBlock s t.entry va n es := by
  rintro ⟨-, b, ⟨t', ht', -, hb⟩ | ⟨f, hf, hentry, -⟩, rfl, -⟩
  · obtain rfl := Option.some.inj (h.task.symm.trans ht')
    have hsome : (blockAt t.blocks b.entryVa).isSome := KeyedList.get_isSome_iff.mpr ⟨b, hb, rfl⟩
    rw [hnew] at hsome
    cases hsome
  · exact hs.function_ne_task h.task hf hentry

/-- The walk of a new block stays outside of every block there is. -/
theorem Clean.walk_apart (hs : Sound s) (hclear : Clear inp s) (hclean : Clean inp s) {t : Task} {start : Nat}
    {rest : List Nat} (h : Decodes s t start rest) (hle : t.entry ≤ start) {e va n : Nat} {es : List Edge} (hb : HasBlock s e va n es) :
    ∀ d ∈ (walkFrom inp s.claims t start).1, d ∉ inp.code.sweep va n := by
  have hwalk : Walked inp s.claims t start start _ _ := walkFrom_walked s.claims t start
  -- by induction on the address: the walk would have been inside one instruction before
  suffices hall : ∀ a, ∀ d ∈ (walkFrom inp s.claims t start).1, d.ip = a → d ∉ inp.code.sweep va n from
    fun d hd => hall d.ip d hd rfl
  intro a
  induction a using Nat.strong_induction_on with
  | _ a ih =>
    intro d hd ha hmem
    obtain ⟨-, howner, hundecoded⟩ := hwalk.passes hd
    have hnew : blockAt t.blocks d.ip = none := by
      rcases hundecoded with hstart | hnone
      · rw [hstart]
        exact h.new
      · exact hnone
    by_cases hva : d.ip = va
    · have he : e = t.entry := isOwnedByOther_eq_false.mp howner e (by rw [hva]; exact hb.owner hs)
      rw [he] at hb
      exact h.not_hasBlock hs (hva ▸ hnew) hb
    · by_cases hstart : d.ip = start
      · have hmine : s.claims.blockOwners d.ip = some t.entry := by
          rw [hstart]
          exact hs.queued_owner h.task h.queue
        exact hva (hclean.claimed e va n es hb d hmem t.entry hmine (by omega))
      · obtain ⟨p, hp, hpd⟩ := hwalk.exists_before hd hstart
        have hlt := p.ip_lt_nextIp
        exact ih p.ip (by omega) p hp rfl (hclear.joins t start rest h hle p hp d hd hpd e va n es hb hmem hva)

/-- One step of a run in which nothing makes two blocks overlap. -/
theorem Clean.step (hs : Sound s) (hclear : Clear inp s) (hclean : Clean inp s) (hstep : step inp s = some s') :
    Clean inp s' := by
  have hmove := step_move hstep
  constructor
  · intro e start n es hb d hd owner howner hle
    rcases hmove.owner_cases hs d.ip with heq | ⟨hnone, -⟩ | ⟨-, hnone⟩
    · rw [heq] at howner
      rcases hb.before hs hmove with hold | ⟨t, rest, hdec, rfl, hstart, rfl, -⟩
      · exact hclean.claimed e start n es hold d hd owner howner hle
      · -- the walk of the new block has passed an address of its own function
        rw [walkFrom_mem] at hd
        obtain ⟨-, hmine, hundecoded⟩ := (walkFrom_walked s.claims t start).passes hd
        by_contra hne
        have hown : s.claims.blockOwners d.ip = some t.entry := by
          rw [howner, isOwnedByOther_eq_false.mp hmine owner howner]
        rcases ((hs.task t hdec.task).owned d.ip).mp hown with hblock | hqueued
        · rw [hundecoded.resolve_left hne] at hblock
          cases hblock
        · rw [hdec.queue] at hqueued
          exact hclear.waiting t start rest hdec hstart d hd hne ((List.mem_cons.mp hqueued).resolve_left hne)
    · exact hclear.claims s' hstep d.ip owner hnone howner hle e start n es hb d hd rfl
    · rw [howner] at hnone; cases hnone
  · intro e start n es hb e' start' n' es' hb' d hd hd'
    rcases hb.before hs hmove with hold | ⟨t, rest, hdec, rfl, hle, rfl, -⟩
    · rcases hb'.before hs hmove with hold' | ⟨t, rest, hdec, rfl, hle, rfl, -⟩
      · exact hclean.apart e start n es hold e' start' n' es' hold' d hd hd'
      · exact absurd hd (hclean.walk_apart hs hclear hdec hle hold d (walkFrom_mem.mp hd'))
    · rcases hb'.before hs hmove with hold' | ⟨t', rest', hdec', -, -, -, -⟩
      · exact absurd hd' (hclean.walk_apart hs hclear hdec hle hold' d (walkFrom_mem.mp hd))
      · exact (List.cons.inj (hdec.queue.symm.trans hdec'.queue)).1

theorem start_clean : Clean inp (start inp) :=
  ⟨fun e va n es hb => absurd hb not_hasBlock_start, fun e va n es hb => absurd hb not_hasBlock_start⟩

theorem clear_clean (hclear : ∀ s, Reached inp s → Clear inp s) (h : Reached inp s) : Clean inp s :=
  Machine.inv_of_reaches start_clean
    (fun t _ ht hclean hstep => hclean.step (reached_sound ht) (hclear t ht) hstep) h

/-! ## The result -/

variable (inp) in
/-- No instruction lies in two blocks of the table, and no block holds the start of another
one of its function. -/
structure BlocksPartition : Prop where
  once : ∀ f ∈ discover inp, ∀ b ∈ f.blocks, ∀ g ∈ discover inp, ∀ c ∈ g.blocks,
    ∀ d ∈ span inp b, d ∈ span inp c → f = g ∧ b = c
  starts : ∀ f ∈ discover inp, ∀ b ∈ f.blocks, ∀ c ∈ f.blocks, ∀ d ∈ (span inp b).tail, d.ip ≠ c.entryVa

theorem Clean.partition (h : Clean inp (finalState inp)) : BlocksPartition inp := by
  have hs := reached_sound (reached_finalState inp)
  constructor
  · intro f hf b hb g hg c hc d hd hd'
    have hblock := hasBlock_of_mem hf hb
    have hblock' := hasBlock_of_mem hg hc
    have hentry : b.entryVa = c.entryVa := h.apart _ _ _ _ hblock _ _ _ _ hblock' d hd hd'
    have howner := hblock.owner hs
    rw [hentry, hblock'.owner hs] at howner
    obtain rfl := discover_unique hf hg (Option.some.inj howner).symm
    exact ⟨rfl, block_unique hf hb hc hentry⟩
  · intro f hf b hb c hc d hd heq
    obtain ⟨hmem, hne⟩ := CodeIndex.mem_tail_sweep.mp hd
    have hblock := hasBlock_of_mem hf hc
    refine hne (h.claimed _ _ _ _ (hasBlock_of_mem hf hb) d hmem f.entryVa ?_ ?_)
    · rw [heq]
      exact hblock.owner hs
    · rw [heq]
      exact hblock.1

/-- Two blocks of the result that share an instruction are one. -/
theorem BlocksPartition.eq_of_shared (h : BlocksPartition inp) {e va n e' va' n' : Nat}
    {es es' : List Edge} (hb : HasBlock (finalState inp) e va n es) (hb' : HasBlock (finalState inp) e' va' n' es') {d : DecodedInstr}
    (hd : d ∈ inp.code.sweep va n) (hd' : d ∈ inp.code.sweep va' n') : va = va' ∧ n = n' := by
  obtain ⟨f, hf, -, b, hbf, rfl, rfl, -⟩ := hasBlock_discover.mp hb
  obtain ⟨g, hg, -, c, hcg, rfl, rfl, -⟩ := hasBlock_discover.mp hb'
  obtain ⟨-, rfl⟩ := h.once f hf b hbf g hg c hcg d hd hd'
  exact ⟨rfl, rfl⟩

/-- Where nothing is cut out, what makes two blocks overlap shows in the result. -/
theorem BlocksPartition.clear (h : BlocksPartition inp) (hn : CarvesNothing inp) (hr : Reached inp s) : Clear inp s := by
  have hs := reached_sound hr
  have hstart : ∀ {e va n es d}, HasBlock (finalState inp) e va n es → inp.code.atVa va = some d → d ∈ inp.code.sweep va n :=
    fun hb hat => hb.start_mem (reached_finalState inp) hat
  -- the block of a decoding step is there at the end
  have hdecoded : ∀ {t start rest}, Decodes s t start rest → t.entry ≤ start →
      HasBlock (finalState inp) t.entry start (walkFrom inp s.claims t start).1.length
        ((decodeBlock inp s.claims t start).2.successors.map (rewriteEdge t.entry)) := by
    intro t start rest hdec hle
    exact hn.block_end (Machine.reaches_step hr (hdec.step_eq hs)) (hdec.hasBlock hs hle (hdec.step_eq hs))
  constructor
  · intro t start rest hdec hle d hd hne hmem
    have howner : s.claims.blockOwners d.ip = some t.entry :=
      ((hs.task t hdec.task).owned d.ip).mpr (.inr (by rw [hdec.queue]; exact List.mem_cons_of_mem _ hmem))
    obtain ⟨hge, hat⟩ := CodeIndex.mem_sweep (walkFrom_mem.mpr hd)
    obtain ⟨n, es, hb⟩ := hn.owner_end hr howner (hle.trans hge)
    exact hne (h.eq_of_shared hb (hdecoded hdec hle) (hstart hb hat) (walkFrom_mem.mpr hd)).1
  · intro t start rest hdec hle p hp q hq hpq e va n es hb hmem hne
    obtain ⟨rfl, rfl⟩ := h.eq_of_shared (hn.block_end hr hb) (hdecoded hdec hle) hmem (walkFrom_mem.mpr hq)
    exact walkFrom_mem.mpr hp
  · intro s' hstep va e hnone howner hle e₀ start n es hb d hd heq
    have hr' := Machine.reaches_step hr hstep
    obtain ⟨m, es', hblock⟩ := hn.owner_end hr' howner hle
    have hat : inp.code.atVa va = some d := heq ▸ (CodeIndex.mem_sweep hd).2
    exact (h.eq_of_shared hblock (hn.block_end hr' hb) (hstart hblock hat) hd).1

/-- The blocks partition the code if no step makes two of them overlap; and only then, if
no filter is cut out of a function. -/
theorem partition_of_clear (inp : Input) :
    ((∀ s, Reached inp s → Clear inp s) → BlocksPartition inp) ∧
      (CarvesNothing inp → BlocksPartition inp → ∀ s, Reached inp s → Clear inp s) :=
  ⟨fun hclear => (clear_clean hclear (reached_finalState inp)).partition, fun hn h _ hr => h.clear hn hr⟩

/-- A conditional branch over one instruction, and the return both ways lead to. -/
def joinInput : Input :=
  { code := .ofList
      [flowInstr 0x1000 2 .conditionalBranch 0x1003 Nat.two_pos end_1002,
       flowInstr 0x1002 1 .next 0 Nat.one_pos end_1003,
       flowInstr 0x1003 1 .ret 0 Nat.one_pos end_1004]
    space := textSpace, seeds := [0x1000], entryHints := [] }

/-- The block of the instruction that is branched over runs over the return, which waits
in the queue to become a block of its own. -/
theorem joinInput_shared : ¬ BlocksPartition joinInput := by
  intro h
  have hshared : (discover joinInput).any (fun f => f.blocks.any fun b => f.blocks.any fun c =>
      (span joinInput b).tail.any fun d => d.ip = c.entryVa) = true := by
    decide +kernel
  simp only [List.any_eq_true, decide_eq_true_eq] at hshared
  obtain ⟨f, hf, b, hb, c, hc, d, hd, heq⟩ := hshared
  exact h.starts f hf b hb c hc d hd heq

end Windy.Discovery
