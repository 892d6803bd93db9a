import Windy.Analysis.Discovery

/- What decoding one block does: the addresses its walk passes, and what the last
   instruction claims.

   What is proved:
     1. `walkFrom_walked`: a walk passes instruction after instruction and ends for one of
        five reasons; it never ends because the bound on its length is met.
     2. `decodeBlock_grows`: decoding claims only addresses without an owner, for the
        function it decodes for, and queues each of them; known entries stay known.
     3. `decodeBlock_span`: the instructions of the block are the ones the walk has passed. -/
namespace Windy.Discovery

variable (inp : Input)

/-! ## The walk -/

/-- The walk goes over this address. -/
structure Passes (c : Claims) (t : Task) (start va : Nat) : Prop where
  soft : va = start ∨ isHardFunctionEntry inp va = false ∨ va = t.entry
  owner : isOwnedByOther c va t.entry = false
  undecoded : va = start ∨ blockAt t.blocks va = none

/-- A walk that stands at an address: the instructions it still passes, and its end. -/
inductive Walked (c : Claims) (t : Task) (start : Nat) : Nat → List DecodedInstr → WalkEnd → Prop
  | undecoded {va : Nat} (hat : inp.code.atVa va = none) : Walked c t start va [] .undecoded
  | hardEntry {va : Nat} {d : DecodedInstr} (hat : inp.code.atVa va = some d) (hne : va ≠ start)
      (hhard : isHardFunctionEntry inp va = true) (hentry : va ≠ t.entry) : Walked c t start va [] (.hardEntry va)
  | foreign {va : Nat} {d : DecodedInstr} (hat : inp.code.atVa va = some d)
      (hother : isOwnedByOther c va t.entry = true) : Walked c t start va [] (.foreign va)
  | ownBlock {va : Nat} {d : DecodedInstr} (hat : inp.code.atVa va = some d) (hne : va ≠ start)
      (hblock : (blockAt t.blocks va).isSome) : Walked c t start va [] (.ownBlock va)
  | terminator {va : Nat} {d : DecodedInstr} (hat : inp.code.atVa va = some d) (hpass : Passes inp c t start va)
      (hflow : d.flowControl ≠ .next) : Walked c t start va [d] (.terminator d)
  | next {va : Nat} {d : DecodedInstr} {ds : List DecodedInstr} {e : WalkEnd} (hat : inp.code.atVa va = some d)
      (hpass : Passes inp c t start va) (hflow : d.flowControl = .next) (hrest : Walked c t start d.nextIp ds e) :
      Walked c t start va (d :: ds) e

variable {inp}

/-- More rounds than there are instructions from here on are enough. -/
theorem walk_walked {c : Claims} {t : Task} {start : Nat} (fuel va : Nat)
    (hfuel : inp.code.instrs.countP (fun d => va ≤ d.ip) < fuel) :
    Walked inp c t start va (walk inp c t start fuel va).1 (walk inp c t start fuel va).2 := by
  induction fuel generalizing va with
  | zero => exact absurd hfuel (Nat.not_lt_zero _)
  | succ fuel ih =>
    cases hat : inp.code.atVa va with
    | none =>
      simp only [walk, hat]
      exact .undecoded hat
    | some d =>
      simp only [walk, hat]
      split
      · next hhard =>
        simp only [Bool.and_eq_true, decide_eq_true_eq] at hhard
        exact .hardEntry hat hhard.1.1 hhard.1.2 hhard.2
      · next hsoft =>
        split
        · next hother => exact .foreign hat hother
        · next hmine =>
          split
          · next hblock =>
            simp only [Bool.and_eq_true, decide_eq_true_eq] at hblock
            exact .ownBlock hat hblock.1 hblock.2
          · next hnew =>
            have hpass : Passes inp c t start va := by
              refine ⟨?_, by simpa using hmine, ?_⟩
              · by_cases hstart : va = start
                · exact .inl hstart
                · simp only [hstart, ne_eq, not_false_eq_true, decide_true, Bool.true_and, Bool.and_eq_true,
                    decide_eq_true_eq, not_and_or, Bool.not_eq_true, not_not] at hsoft
                  exact .inr hsoft
              · by_cases hstart : va = start
                · exact .inl hstart
                · exact .inr (by simpa [hstart] using hnew)
            split
            · next hflow =>
              refine .next hat hpass hflow (ih _ ?_)
              -- the instruction itself is counted here and not behind itself
              have hlt : inp.code.instrs.countP (fun b => d.nextIp ≤ b.ip) < inp.code.instrs.countP (fun b => va ≤ b.ip) := by
                have hip := CodeIndex.atVa_ip hat
                have hlen := d.ip_lt_nextIp
                refine Machine.countP_lt_countP (fun b hb => ?_) (CodeIndex.atVa_mem hat) (by simp [hip]) (by simp [hlen])
                simp only [decide_eq_true_eq] at hb ⊢
                omega
              omega
            · next hflow => exact .terminator hat hpass hflow

theorem walkFrom_walked (c : Claims) (t : Task) (start : Nat) :
    Walked inp c t start start (walkFrom inp c t start).1 (walkFrom inp c t start).2 :=
  walk_walked _ _ (Nat.lt_succ_of_le List.countP_le_length)

/-- A walk looks at the owners only. -/
theorem walk_congr {c c' : Claims} (howners : c.blockOwners = c'.blockOwners) (t : Task) (start fuel va : Nat) :
    walk inp c t start fuel va = walk inp c' t start fuel va := by
  have hother : ∀ va e, isOwnedByOther c va e = isOwnedByOther c' va e := by
    intro va e
    unfold isOwnedByOther
    rw [howners]
  induction fuel generalizing va with
  | zero => rfl
  | succ fuel ih => simp only [walk, hother, ih]

theorem walkFrom_congr {c c' : Claims} (howners : c.blockOwners = c'.blockOwners) (t : Task) (start : Nat) :
    walkFrom inp c t start = walkFrom inp c' t start :=
  walk_congr howners t start _ _

namespace Walked

variable {c : Claims} {t : Task} {start va : Nat} {ds : List DecodedInstr} {e : WalkEnd} {d : DecodedInstr}

/-- The instructions of a walk follow each other. -/
theorem sweep_eq (h : Walked inp c t start va ds e) : inp.code.sweep va ds.length = ds := by
  induction h with
  | undecoded | hardEntry | foreign | ownBlock => rfl
  | terminator hat => simp [CodeIndex.sweep_succ hat, CodeIndex.sweep]
  | next hat _ _ _ ih => rw [List.length_cons, CodeIndex.sweep_succ hat, ih]

theorem passes (h : Walked inp c t start va ds e) (hd : d ∈ ds) : Passes inp c t start d.ip := by
  induction h with
  | undecoded | hardEntry | foreign | ownBlock => cases hd
  | terminator hat hpass =>
    rw [List.mem_singleton.mp hd, CodeIndex.atVa_ip hat]
    exact hpass
  | next hat hpass _ _ ih =>
    rcases List.mem_cons.mp hd with rfl | hmem
    · rw [CodeIndex.atVa_ip hat]
      exact hpass
    · exact ih hmem

/-- Before an instruction behind the start the walk has passed the one that leads there. -/
theorem exists_before (h : Walked inp c t start va ds e) (hd : d ∈ ds) (hne : d.ip ≠ va) :
    ∃ p ∈ ds, p.nextIp = d.ip := by
  induction h with
  | undecoded | hardEntry | foreign | ownBlock => cases hd
  | terminator hat =>
    rw [List.mem_singleton.mp hd] at hne
    exact absurd (CodeIndex.atVa_ip hat) hne
  | @next va first ds e hat _ _ _ ih =>
    rcases List.mem_cons.mp hd with rfl | hmem
    · exact absurd (CodeIndex.atVa_ip hat) hne
    · by_cases hnext : d.ip = first.nextIp
      · exact ⟨first, List.mem_cons_self, hnext.symm⟩
      · obtain ⟨p, hp, hpd⟩ := ih hmem hnext
        exact ⟨p, List.mem_cons_of_mem _ hp, hpd⟩

/-- An instruction that does not go straight on ends the walk. -/
theorem terminator_of_flow (h : Walked inp c t start va ds e) (hd : d ∈ ds)
    (hflow : d.flowControl ≠ .next) : e = .terminator d := by
  induction h with
  | undecoded | hardEntry | foreign | ownBlock => cases hd
  | terminator => rw [List.mem_singleton.mp hd]
  | next _ _ hnext _ ih =>
    rcases List.mem_cons.mp hd with rfl | hmem
    · exact absurd hnext hflow
    · exact ih hmem

theorem le_ip (h : Walked inp c t start va ds e) (hd : d ∈ ds) : va ≤ d.ip := by
  rw [← h.sweep_eq] at hd
  exact (CodeIndex.mem_sweep hd).1

/-- A walk goes on from an instruction only where the control does. -/
theorem flow_next (h : Walked inp c t start va ds e) {d b : DecodedInstr} (hd : d ∈ ds) (hb : b ∈ ds)
    (hip : b.ip = d.nextIp) : d.flowControl = .next := by
  induction h with
  | undecoded | hardEntry | foreign | ownBlock => cases hd
  | terminator =>
    rw [List.mem_singleton.mp hd, List.mem_singleton.mp hb] at hip
    exact absurd hip (Nat.ne_of_lt (DecodedInstr.ip_lt_nextIp _))
  | @next va first ds e hat _ hflow hrest ih =>
    rcases List.mem_cons.mp hd with rfl | hmem
    · exact hflow
    · refine ih hmem ((List.mem_cons.mp hb).resolve_left fun heq => ?_)
      have hle := hrest.le_ip hmem
      have hlt := first.ip_lt_nextIp
      have hlt' := d.ip_lt_nextIp
      rw [heq] at hip
      omega

/-- A walk from its own start passes the start, if there is an instruction. -/
theorem start_mem (h : Walked inp c t start start ds e) (hat : inp.code.atVa start = some d)
    (hmine : isOwnedByOther c start t.entry = false) : d ∈ ds := by
  cases h with
  | undecoded hnone => rw [hat] at hnone; cases hnone
  | hardEntry _ hne => exact absurd rfl hne
  | foreign _ hother => rw [hmine] at hother; cases hother
  | ownBlock _ hne => exact absurd rfl hne
  | terminator hat' =>
    obtain rfl := Option.some.inj (hat.symm.trans hat')
    exact List.mem_singleton_self _
  | next hat' =>
    obtain rfl := Option.some.inj (hat.symm.trans hat')
    exact List.mem_cons_self

end Walked

theorem walkFrom_mem {c : Claims} {t : Task} {start : Nat} {d : DecodedInstr} :
    d ∈ inp.code.sweep start (walkFrom inp c t start).1.length ↔ d ∈ (walkFrom inp c t start).1 := by
  rw [(walkFrom_walked c t start).sweep_eq]

/-! ## Claims -/

/-- Claims made for one function: only of addresses without an owner, each of them queued;
entries are added, never taken back. -/
structure Grows (functionEntry : Nat) (c c' : Claims) : Prop where
  owners : ∀ va, c'.blockOwners va = c.blockOwners va ∨
    c.blockOwners va = none ∧ c'.blockOwners va = some functionEntry
  queue : ∀ va, va ∈ c'.blockQueue ↔
    va ∈ c.blockQueue ∨ c.blockOwners va = none ∧ c'.blockOwners va = some functionEntry
  entries : ∀ va, c.functionEntries va = true → c'.functionEntries va = true
  entered : ∀ va, c'.functionEntries va = true → c.functionEntries va = true ∨ va ∈ c'.worklist
  worklist : ∀ va ∈ c.worklist, va ∈ c'.worklist
  listed : ∀ va ∈ c'.worklist, va ∈ c.worklist ∨ c.functionEntries va = false ∧ c'.functionEntries va = true

namespace Grows

variable {functionEntry : Nat} {c c' c'' : Claims}

theorem owners_of_some (h : Grows functionEntry c c') {va e : Nat} (hva : c.blockOwners va = some e) :
    c'.blockOwners va = some e := by
  rcases h.owners va with heq | ⟨hnone, -⟩
  · rw [heq, hva]
  · rw [hva] at hnone; cases hnone

theorem refl (c : Claims) : Grows functionEntry c c where
  owners va := .inl rfl
  queue va := by
    refine ⟨.inl, fun h => ?_⟩
    rcases h with h | ⟨hnone, hsome⟩
    · exact h
    · rw [hnone] at hsome; cases hsome
  entries va h := h
  entered va h := .inl h
  worklist va h := h
  listed va h := .inl h

theorem trans (h : Grows functionEntry c c') (h' : Grows functionEntry c' c'') : Grows functionEntry c c'' where
  owners va := by
    rcases h'.owners va with heq | ⟨hnone, hsome⟩
    · rw [heq]
      exact h.owners va
    · rcases h.owners va with heq | ⟨_, hsome'⟩
      · exact .inr ⟨heq ▸ hnone, hsome⟩
      · rw [hnone] at hsome'; cases hsome'
  queue va := by
    rw [h'.queue, h.queue]
    constructor
    · rintro ((hmem | ⟨hnone, hsome⟩) | ⟨hnone, hsome⟩)
      · exact .inl hmem
      · exact .inr ⟨hnone, h'.owners_of_some hsome⟩
      · rcases h.owners va with heq | ⟨_, hsome'⟩
        · exact .inr ⟨heq ▸ hnone, hsome⟩
        · rw [hnone] at hsome'; cases hsome'
    · rintro (hmem | ⟨hnone, hsome⟩)
      · exact .inl (.inl hmem)
      · rcases h.owners va with heq | ⟨_, hsome'⟩
        · exact .inr ⟨heq.trans hnone, hsome⟩
        · exact .inl (.inr ⟨hnone, hsome'⟩)
  entries va hva := h'.entries va (h.entries va hva)
  entered va hva := by
    rcases h'.entered va hva with hva' | hmem
    · exact (h.entered va hva').imp_right (h'.worklist va)
    · exact .inr hmem
  worklist va hva := h'.worklist va (h.worklist va hva)
  listed va hva := by
    rcases h'.listed va hva with hmem | ⟨hfalse, htrue⟩
    · exact (h.listed va hmem).imp_right fun ⟨hnew, hknown⟩ => ⟨hnew, h'.entries va hknown⟩
    · refine .inr ⟨Bool.eq_false_iff.mpr fun hknown => ?_, htrue⟩
      rw [h.entries va hknown] at hfalse
      cases hfalse

end Grows

theorem Claims.claimOrQueueBlock_grows (c : Claims) (va functionEntry : Nat) :
    Grows functionEntry c (c.claimOrQueueBlock va functionEntry) := by
  unfold Claims.claimOrQueueBlock
  split
  · next hnone =>
    refine ⟨fun a => ?_, fun a => ?_, fun _ h => h, fun _ h => .inl h, fun _ h => h, fun _ h => .inl h⟩
    · by_cases ha : a = va
      · subst ha
        exact .inr ⟨hnone, Function.update_self _ _ _⟩
      · exact .inl (Function.update_of_ne ha _ _)
    · by_cases ha : a = va
      · subst ha
        simp [hnone]
      · simp only [List.mem_append, List.mem_singleton, ha, or_false, Function.update_of_ne ha]
        refine ⟨.inl, fun h => h.elim id fun ⟨hn, hs⟩ => ?_⟩
        rw [hn] at hs; cases hs
  · exact Grows.refl c

theorem Claims.claimOrQueueBlock_isSome (c : Claims) (va functionEntry : Nat) :
    ((c.claimOrQueueBlock va functionEntry).blockOwners va).isSome := by
  unfold Claims.claimOrQueueBlock
  split
  · simp
  · next howned => exact Option.isSome_iff_ne_none.mpr howned

theorem Claims.seedFunction_grows (c : Claims) (va functionEntry : Nat) :
    Grows functionEntry c (c.seedFunction va) := by
  unfold Claims.seedFunction
  split
  · exact Grows.refl c
  · next hnew =>
    refine { (Grows.refl c : Grows functionEntry c c) with
      entries := fun a ha => ?_, entered := fun a ha => ?_, worklist := fun a ha => ?_, listed := fun a ha => ?_ }
    · by_cases h : a = va
      · subst h; exact Function.update_self _ _ _
      · rw [← ha]; exact Function.update_of_ne h _ _
    · by_cases h : a = va
      · exact .inr (List.mem_append_right _ (List.mem_singleton.mpr h))
      · exact .inl ((Function.update_of_ne h _ _).symm.trans ha)
    · exact List.mem_append_left _ ha
    · rcases List.mem_append.mp ha with hmem | hmem
      · exact .inl hmem
      · rw [List.mem_singleton.mp hmem]
        exact .inr ⟨Bool.eq_false_iff.mpr hnew, Function.update_self _ _ _⟩

/-! ## The last instruction -/

/-- The addresses the last instruction of a block may claim. -/
abbrev claimable (d : DecodedInstr) : List Nat := [d.nextIp, d.nearBranchTarget]

section Rel
variable {R : Claims → Claims → Prop} {functionEntry : Nat}

/-- What every single claim does to the claims, decoding does to them. -/
theorem endEdges_rel (hrefl : ∀ c, R c c) (htrans : ∀ {c c' c''}, R c c' → R c' c'' → R c c'') (e : WalkEnd)
    (hclaim : ∀ d, e = .terminator d → ∀ c, ∀ va ∈ claimable d, R c (c.claimOrQueueBlock va functionEntry))
    (hseed : ∀ d, e = .terminator d → d.flowControl = .call → ∀ c, R c (c.seedFunction d.nearBranchTarget))
    (c : Claims) : R c (endEdges inp c functionEntry e).1 := by
  cases e with
  | undecoded | hardEntry | foreign | ownBlock => exact hrefl c
  | terminator d =>
    have hbranch : ∀ c, ∀ va ∈ claimable d, ∀ kind, R c (branchTo inp c functionEntry va kind).1 := by
      intro c va hva kind
      unfold branchTo
      split
      · split
        · exact hrefl c
        · exact hclaim d rfl c va hva
      · exact hrefl c
    have hnext : d.nextIp ∈ claimable d := List.mem_cons_self
    have htarget : d.nearBranchTarget ∈ claimable d := List.mem_cons_of_mem _ List.mem_cons_self
    simp only [endEdges, flowEdges]
    split
    · exact hrefl c
    · split
      · split
        · exact hrefl c
        · exact hclaim d rfl c _ htarget
      · exact hrefl c
    · exact htrans (hbranch c _ hnext _) (hbranch _ _ htarget _)
    · next hflow =>
      split
      · exact htrans (hbranch c _ hnext _) (hseed d rfl hflow _)
      · exact hbranch c _ hnext _
    · exact hrefl c
    · split
      · exact hclaim d rfl c _ hnext
      · exact hrefl c
    · exact hrefl c
    · exact hrefl c
    · exact hrefl c
    · exact hrefl c

end Rel

theorem endEdges_grows (c : Claims) (functionEntry : Nat) (e : WalkEnd) :
    Grows functionEntry c (endEdges inp c functionEntry e).1 :=
  endEdges_rel Grows.refl (fun h h' => h.trans h') e (fun _ _ c va _ => c.claimOrQueueBlock_grows va functionEntry)
    (fun _ _ _ c => c.seedFunction_grows _ functionEntry) c

/-- The target of a call becomes a known entry. -/
theorem endEdges_call (c : Claims) (functionEntry : Nat) {d : DecodedInstr} (hflow : d.flowControl = .call)
    (hexec : isExecutableTarget inp d.nearBranchTarget = true) :
    (endEdges inp c functionEntry (.terminator d)).1.functionEntries d.nearBranchTarget = true := by
  simp only [endEdges, flowEdges, hflow, if_pos hexec]
  unfold Claims.seedFunction
  split
  · assumption
  · exact Function.update_self _ _ _

/-- What is put on the worklist is the target of a call. -/
theorem endEdges_listed (c : Claims) (functionEntry : Nat) (e : WalkEnd) :
    ∀ va ∈ (endEdges inp c functionEntry e).1.worklist,
      va ∈ c.worklist ∨ ∃ d, e = .terminator d ∧ d.flowControl = .call ∧ d.nearBranchTarget = va := by
  refine endEdges_rel (R := fun c c' => ∀ va ∈ c'.worklist,
    va ∈ c.worklist ∨ ∃ d, e = .terminator d ∧ d.flowControl = .call ∧ d.nearBranchTarget = va) ?_ ?_ e ?_ ?_ c
  · exact fun c va hva => .inl hva
  · exact fun h h' va hva => (h' va hva).elim (h va) .inr
  · intro d hd c va hva a ha
    have hsame : (c.claimOrQueueBlock va functionEntry).worklist = c.worklist := by
      unfold Claims.claimOrQueueBlock
      split <;> rfl
    exact .inl (hsame ▸ ha)
  · intro d hd hflow c a ha
    unfold Claims.seedFunction at ha
    split at ha
    · exact .inl ha
    · rcases List.mem_append.mp ha with hmem | hmem
      · exact .inl hmem
      · exact .inr ⟨d, hd, hflow, (List.mem_singleton.mp hmem).symm⟩

variable (inp) in
theorem decodeBlock_grows (c : Claims) (t : Task) (start : Nat) :
    Grows t.entry c (decodeBlock inp c t start).1 :=
  endEdges_grows _ _ _

/-! ## The block -/

variable (inp) in
/-- The instructions of a block. -/
def span (b : BasicBlock) : List DecodedInstr := inp.code.sweep b.entryVa b.instrCount

theorem decodeBlock_span (c : Claims) (t : Task) (start : Nat) :
    span inp (decodeBlock inp c t start).2 = (walkFrom inp c t start).1 :=
  (walkFrom_walked c t start).sweep_eq

/-- The edges of an end depend on the known entries only. -/
theorem endEdges_congr {c c' : Claims} (hentries : c.functionEntries = c'.functionEntries) (functionEntry : Nat)
    (e : WalkEnd) : (endEdges inp c functionEntry e).2 = (endEdges inp c' functionEntry e).2 := by
  have hbranch : ∀ (c c' : Claims) va kind,
      (branchTo inp c functionEntry va kind).2 = (branchTo inp c' functionEntry va kind).2 := by
    intro c c' va kind
    unfold branchTo
    split
    · split <;> rfl
    · rfl
  cases e with
  | undecoded | hardEntry | foreign | ownBlock => rfl
  | terminator d =>
    simp only [endEdges, flowEdges, hentries]
    split
    · rfl
    · split
      · split <;> rfl
      · rfl
    · simp only [hbranch _ (branchTo inp c' functionEntry d.nextIp .fallthrough).1]
    · split
      · simp only [hbranch c c']
      · exact hbranch c c' _ _
    · rfl
    · split <;> rfl
    · rfl
    · rfl
    · rfl
    · rfl

/-- The block that is decoded depends on the owners and the known entries only. -/
theorem decodeBlock_congr {c c' : Claims} (howners : c.blockOwners = c'.blockOwners)
    (hentries : c.functionEntries = c'.functionEntries) (t : Task) (start : Nat) :
    (decodeBlock inp c t start).2 = (decodeBlock inp c' t start).2 := by
  simp only [decodeBlock, walkFrom_congr howners, endEdges_congr hentries]

theorem decodeBlock_queue (c : Claims) (queue : List Nat) (t : Task) (start : Nat) :
    (decodeBlock inp { c with blockQueue := queue } t start).2 = (decodeBlock inp c t start).2 := by
  apply decodeBlock_congr
  · rfl
  · rfl

end Windy.Discovery
