import Windy.Analysis.Blocks

/- The edges of the recovered graph.

   A block gets its edges when it is decoded, before it is settled who owns their targets.
   The graph has a hole where a target belongs to another function by then, where a walk
   comes to an end at a block of another function, and where the last pass takes blocks
   from a function whose other blocks have edges to them.

   What is proved:
     1. `flowEdges_complete`, `endEdges_inner`: which edges an instruction gets, and that the
        target of an inner edge has an owner from then on.
     2. `contained_closed`: as long as no hole is made, every inner edge of a block leads to
        an address of its function.
     3. `closed_of_contained`: then the graph of the result is closed and complete, and the
        predecessors are its edges read backwards. Where no filter is cut out of a function,
        it is so only then.
     4. `sharedInput_open`: a conditional branch into another function. -/
namespace Windy

/-- Edges between two blocks of one function. -/
def EdgeKind.isInner : EdgeKind → Bool
  | .fallthrough | .unconditional | .conditional => true
  | .call | .tailCall | .indirect | .ret => false

namespace Discovery

variable {inp : Input} {s s' : State}

/-- Where an instruction passes control to: behind itself, or to the target of its branch. -/
def flowTargets (d : DecodedInstr) : List Nat :=
  match d.flowControl with
  | .next | .call | .indirectCall => [d.nextIp]
  | .unconditionalBranch => [d.nearBranchTarget]
  | .conditionalBranch | .xbeginXabortXend => [d.nextIp, d.nearBranchTarget]
  | .indirectBranch | .ret | .interrupt | .exception => []

/-! ## The end of a walk -/

namespace Walked

variable {c : Claims} {t : Task} {start va : Nat} {ds : List DecodedInstr} {e : WalkEnd}

/-- The last instruction of a walk ends it, or the walk ends at the address behind. -/
theorem last (h : Walked inp c t start va ds e) {d : DecodedInstr} (hd : ds.getLast? = some d) :
    (e = .terminator d ∧ d.flowControl ≠ .next) ∨ (d.flowControl = .next ∧ Walked inp c t start d.nextIp [] e) := by
  induction h with
  | undecoded | hardEntry | foreign | ownBlock => cases hd
  | terminator hat hpass hflow =>
    obtain rfl := Option.some.inj hd
    exact .inl ⟨rfl, hflow⟩
  | @next va first ds e hat hpass hflow hrest ih =>
    cases ds with
    | nil =>
      obtain rfl := Option.some.inj hd
      exact .inr ⟨hflow, hrest⟩
    | cons second ds => exact ih (by simpa using hd)

/-- A walk that ends at a block of its own function ends behind its start. -/
theorem ownBlock_ne_zero (h : Walked inp c t start va ds e) (hle : start ≤ va) {a : Nat} (he : e = .ownBlock a) :
    a ≠ 0 ∧ (blockAt t.blocks a).isSome := by
  induction h with
  | undecoded | hardEntry | foreign | terminator => cases he
  | ownBlock hat hne hblock =>
    obtain rfl := WalkEnd.ownBlock.inj he
    exact ⟨by omega, hblock⟩
  | @next va d ds e hat _ _ _ ih =>
    have hip := CodeIndex.atVa_ip hat
    have hlt := d.ip_lt_nextIp
    exact ih (by omega) he

end Walked

/-! ## The edges of an instruction -/

theorem branchTo_edge {c : Claims} {e va : Nat} {kind : EdgeKind} {edge : Edge}
    (h : edge ∈ (branchTo inp c e va kind).2) :
    edge.target = va ∧ isExecutableTarget inp va = true ∧
      (edge.kind = .tailCall ∨ edge.kind = kind ∧ ((branchTo inp c e va kind).1.blockOwners va).isSome) := by
  unfold branchTo at h ⊢
  split at h
  · next hexec =>
    split at h
    · next hhard =>
      obtain rfl := List.mem_singleton.mp h
      exact ⟨rfl, hexec, .inl rfl⟩
    · next hsoft =>
      obtain rfl := List.mem_singleton.mp h
      refine ⟨rfl, hexec, .inr ⟨rfl, ?_⟩⟩
      rw [if_pos hexec, if_neg hsoft]
      exact Claims.claimOrQueueBlock_isSome c va e
  · cases h

variable (inp) in
theorem branchTo_complete (c : Claims) (e va : Nat) (kind : EdgeKind) (hkind : kind.isInner)
    (hexec : isExecutableTarget inp va = true) :
    ∃ edge ∈ (branchTo inp c e va kind).2, edge.target = va ∧ (edge.kind.isInner ∨ edge.kind = .tailCall) := by
  unfold branchTo
  rw [if_pos hexec]
  split
  · exact ⟨_, List.mem_singleton_self _, rfl, .inr rfl⟩
  · exact ⟨_, List.mem_singleton_self _, rfl, .inl hkind⟩

theorem branchTo_grows (c : Claims) (e va : Nat) (kind : EdgeKind) : Grows e c (branchTo inp c e va kind).1 := by
  unfold branchTo
  split
  · split
    · exact Grows.refl c
    · exact c.claimOrQueueBlock_grows va e
  · exact Grows.refl c

theorem ne_zero_of_isExecutableTarget {va : Nat} (h : isExecutableTarget inp va = true) : va ≠ 0 := by
  simp only [isExecutableTarget, Bool.and_eq_true, decide_eq_true_eq] at h
  exact h.1

/-- The target of an inner edge is an address, and has an owner from then on. -/
theorem branchTo_inner {c c' : Claims} {e va : Nat} {kind : EdgeKind} {edge : Edge}
    (h : edge ∈ (branchTo inp c e va kind).2) (hinner : edge.kind.isInner)
    (hgrows : Grows e (branchTo inp c e va kind).1 c') : edge.target ≠ 0 ∧ (c'.blockOwners edge.target).isSome := by
  obtain ⟨htarget, hexec, htail | ⟨-, hsome⟩⟩ := branchTo_edge h
  · rw [htail] at hinner
    cases hinner
  · obtain ⟨owner, howner⟩ := Option.isSome_iff_exists.mp hsome
    rw [htarget]
    exact ⟨ne_zero_of_isExecutableTarget hexec, by rw [hgrows.owners_of_some howner]; rfl⟩

theorem endEdges_inner {c : Claims} {e : Nat} {w : WalkEnd} {edge : Edge} (h : edge ∈ (endEdges inp c e w).2)
    (hinner : edge.kind.isInner) :
    w = .ownBlock edge.target ∨ edge.target ≠ 0 ∧ ((endEdges inp c e w).1.blockOwners edge.target).isSome := by
  cases w with
  | undecoded | foreign => cases h
  | hardEntry va =>
    obtain rfl := List.mem_singleton.mp h
    cases hinner
  | ownBlock va =>
    obtain rfl := List.mem_singleton.mp h
    exact .inl rfl
  | terminator d =>
    refine .inr ?_
    simp only [endEdges, flowEdges] at h ⊢
    split at h
    · cases h
    · split at h
      · next hexec =>
        split at h
        · obtain rfl := List.mem_singleton.mp h
          cases hinner
        · next hsoft =>
          obtain rfl := List.mem_singleton.mp h
          rw [if_pos hexec, if_neg hsoft]
          exact ⟨ne_zero_of_isExecutableTarget hexec, Claims.claimOrQueueBlock_isSome _ _ _⟩
      · cases h
    · rcases List.mem_append.mp h with hnext | htarget
      · exact branchTo_inner hnext hinner (branchTo_grows _ _ _ _)
      · exact branchTo_inner htarget hinner (Grows.refl _)
    · split at h
      · next hexec =>
        rw [if_pos hexec]
        rcases List.mem_append.mp h with hnext | hcall
        · exact branchTo_inner hnext hinner (Claims.seedFunction_grows _ _ _)
        · obtain rfl := List.mem_singleton.mp hcall
          cases hinner
      · next hexec =>
        rw [if_neg hexec]
        exact branchTo_inner h hinner (Grows.refl _)
    · obtain rfl := List.mem_singleton.mp h
      cases hinner
    · split at h
      · next hexec =>
        rw [if_pos hexec]
        rcases List.mem_cons.mp h with rfl | hindirect
        · exact ⟨ne_zero_of_isExecutableTarget hexec, Claims.claimOrQueueBlock_isSome _ _ _⟩
        · obtain rfl := List.mem_singleton.mp hindirect
          cases hinner
      · obtain rfl := List.mem_singleton.mp h
        cases hinner
    · obtain rfl := List.mem_singleton.mp h
      cases hinner
    · obtain rfl := List.mem_singleton.mp h
      cases hinner
    · obtain rfl := List.mem_singleton.mp h
      cases hinner
    · cases h

/-- Every place the last instruction of a block passes control to has an edge, if it is
executable: an inner one, or a tail call. -/
theorem flowEdges_complete (c : Claims) (e : Nat) {d : DecodedInstr} (hnext : d.flowControl ≠ .next)
    (hxbegin : d.flowControl ≠ .xbeginXabortXend) {va : Nat} (hva : va ∈ flowTargets d)
    (hexec : isExecutableTarget inp va = true) :
    ∃ edge ∈ (flowEdges inp c e d).2, edge.target = va ∧ (edge.kind.isInner ∨ edge.kind = .tailCall) := by
  simp only [flowTargets] at hva
  simp only [flowEdges]
  split
  · next hflow => exact absurd hflow hnext
  · next hflow =>
    rw [hflow] at hva
    obtain rfl := List.mem_singleton.mp hva
    rw [if_pos hexec]
    split
    · exact ⟨_, List.mem_singleton_self _, rfl, .inr rfl⟩
    · exact ⟨_, List.mem_singleton_self _, rfl, .inl rfl⟩
  · next hflow =>
    rw [hflow] at hva
    rcases List.mem_cons.mp hva with rfl | htarget
    · obtain ⟨edge, hedge, hspec⟩ := branchTo_complete inp c e d.nextIp .fallthrough rfl hexec
      exact ⟨edge, List.mem_append_left _ hedge, hspec⟩
    · obtain rfl := List.mem_singleton.mp htarget
      obtain ⟨edge, hedge, hspec⟩ := branchTo_complete inp (branchTo inp c e d.nextIp .fallthrough).1 e d.nearBranchTarget
        .conditional rfl hexec
      exact ⟨edge, List.mem_append_right _ hedge, hspec⟩
  · next hflow =>
    rw [hflow] at hva
    obtain rfl := List.mem_singleton.mp hva
    obtain ⟨edge, hedge, hspec⟩ := branchTo_complete inp c e d.nextIp .fallthrough rfl hexec
    split
    · exact ⟨edge, List.mem_append_left _ hedge, hspec⟩
    · exact ⟨edge, hedge, hspec⟩
  · next hflow => rw [hflow] at hva; cases hva
  · next hflow =>
    rw [hflow] at hva
    obtain rfl := List.mem_singleton.mp hva
    rw [if_pos hexec]
    exact ⟨_, List.mem_cons_self, rfl, .inl rfl⟩
  · next hflow => rw [hflow] at hva; cases hva
  · next hflow => rw [hflow] at hva; cases hva
  · next hflow => rw [hflow] at hva; cases hva
  · next hflow => exact absurd hflow hxbegin

/-! ## Inner edges along the run -/

variable (inp) in
/-- The next step leaves no hole in the graph of a function. -/
structure Contained (s : State) : Prop where
  /-- No inner edge leads to an address of another function. -/
  inner : ∀ t start rest, Decodes s t start rest → t.entry ≤ start →
    ∀ edge ∈ (decodeBlock inp s.claims t start).2.successors, edge.kind.isInner → t.entry ≤ edge.target →
      isOwnedByOther s.claims edge.target t.entry = false
  /-- A block that goes on in executable code does not end at the block of another function,
  nor with an instruction of a transaction, nor does it go on at address zero. -/
  ends : ∀ t start rest, Decodes s t start rest → t.entry ≤ start →
    ∀ d ∈ (walkFrom inp s.claims t start).1.getLast?, ∀ va ∈ flowTargets d, inp.space.isExecutableVa va = true →
      (inp.code.atVa va).isSome →
        (walkFrom inp s.claims t start).2 ≠ .foreign va ∧ d.flowControl ≠ .xbeginXabortXend ∧ va ≠ 0
  /-- No inner edge leads from what a function keeps to what is cut out of it, and no edge
  at all leads back. -/
  cut : ∀ s', LastPass inp s s' → ∀ e va n es, HasBlock s e va n es → ∀ edge ∈ es, edge.target ≠ 0 →
    e ≤ edge.target → s.claims.blockOwners edge.target = some e →
      (edge.kind.isInner → s'.claims.blockOwners va = some e → s'.claims.blockOwners edge.target = some e) ∧
      (s'.claims.blockOwners edge.target = some e → s'.claims.blockOwners va = some e)

variable (inp) in
/-- Inner edges lead to addresses of the function, and no place control passes to is
without an edge. -/
structure Closed (s : State) : Prop where
  inner : ∀ e va n es, HasBlock s e va n es → ∀ edge ∈ es, edge.kind.isInner →
    edge.target ≠ 0 ∧ e ≤ edge.target ∧ s.claims.blockOwners edge.target = some e
  complete : ∀ e va n es, HasBlock s e va n es → ∀ d ∈ (inp.code.sweep va n).getLast?, ∀ a ∈ flowTargets d,
    inp.space.isExecutableVa a = true → (inp.code.atVa a).isSome →
      ∃ edge ∈ es, edge.target = a ∧ (edge.kind.isInner ∨ edge.kind = .tailCall)

theorem rewriteEdge_inner {entry : Nat} {e : Edge} (h : (rewriteEdge entry e).kind.isInner) :
    rewriteEdge entry e = e ∧ (e.target ≠ 0 → entry ≤ e.target) := by
  unfold rewriteEdge at h ⊢
  split at h
  · cases h
  · next hkept =>
    rw [if_neg hkept]
    exact ⟨rfl, fun hne => by by_contra hlt; exact hkept ⟨hne, by omega⟩⟩

/-- The inner edges of the block a step decodes. -/
theorem Contained.decoded_inner (hcontained : Contained inp s) (hs : Sound s) {t : Task} {start : Nat} {rest : List Nat}
    (h : Decodes s t start rest) (hle : t.entry ≤ start) (hstep : step inp s = some s') :
    ∀ edge ∈ (decodeBlock inp s.claims t start).2.successors.map (rewriteEdge t.entry), edge.kind.isInner →
      edge.target ≠ 0 ∧ t.entry ≤ edge.target ∧ s'.claims.blockOwners edge.target = some t.entry := by
  intro edge hedge hinner
  obtain ⟨e, he, rfl⟩ := List.mem_map.mp hedge
  obtain ⟨heq, hge⟩ := rewriteEdge_inner hinner
  rw [heq] at hinner ⊢
  obtain rfl := Option.some.inj (hstep.symm.trans (h.step_eq hs))
  have he' : e ∈ (decodeBlock inp { s.claims with blockQueue := rest } t start).2.successors := by
    rw [decodeBlock_queue]
    exact he
  have hgrows := decodeBlock_grows inp { s.claims with blockQueue := rest } t start
  rcases endEdges_inner he' hinner with hblock | ⟨hne, hsome⟩
  · obtain ⟨hne, hdecoded⟩ := (walkFrom_walked _ t start).ownBlock_ne_zero le_rfl hblock
    have howner : s.claims.blockOwners e.target = some t.entry :=
      ((hs.task t h.task).owned e.target).mpr (.inl hdecoded)
    exact ⟨hne, hge hne, hgrows.owners_of_some howner⟩
  · refine ⟨hne, hge hne, ?_⟩
    have hmine := isOwnedByOther_eq_false.mp (hcontained.inner t start rest h hle e he hinner (hge hne))
    rcases hgrows.owners e.target with hold | ⟨-, hnew⟩
    · obtain ⟨owner, howner⟩ := Option.isSome_iff_exists.mp hsome
      have hbefore : s.claims.blockOwners e.target = some owner := hold.symm.trans howner
      rw [hmine owner hbefore] at hbefore
      exact hold.trans hbefore
    · exact hnew

theorem rewriteEdge_tailCall {entry : Nat} {e : Edge} (h : e.kind.isInner ∨ e.kind = .tailCall) :
    (rewriteEdge entry e).kind.isInner ∨ (rewriteEdge entry e).kind = .tailCall := by
  unfold rewriteEdge
  split
  · exact .inr rfl
  · exact h

/-- The block a step decodes has an edge to every place it goes on. -/
theorem Contained.decoded_complete (hcontained : Contained inp s) {t : Task} {start : Nat} {rest : List Nat}
    (h : Decodes s t start rest) (hle : t.entry ≤ start) :
    ∀ d ∈ (walkFrom inp s.claims t start).1.getLast?, ∀ a ∈ flowTargets d, inp.space.isExecutableVa a = true →
      (inp.code.atVa a).isSome →
        ∃ edge ∈ (decodeBlock inp s.claims t start).2.successors.map (rewriteEdge t.entry),
          edge.target = a ∧ (edge.kind.isInner ∨ edge.kind = .tailCall) := by
  intro d hd a ha hexec hat
  obtain ⟨hforeign, hxbegin, hzero⟩ := hcontained.ends t start rest h hle d hd a ha hexec hat
  suffices hedge : ∃ edge ∈ (endEdges inp s.claims t.entry (walkFrom inp s.claims t start).2).2,
      edge.target = a ∧ (edge.kind.isInner ∨ edge.kind = .tailCall) by
    obtain ⟨edge, hmem, htarget, hkind⟩ := hedge
    exact ⟨_, List.mem_map_of_mem hmem, (rewriteEdge_target _ _).trans htarget, rewriteEdge_tailCall hkind⟩
  rcases (walkFrom_walked s.claims t start).last hd with ⟨hend, hflow⟩ | ⟨hflow, hrest⟩
  · rw [hend]
    refine flowEdges_complete s.claims t.entry hflow hxbegin ha ?_
    simp [isExecutableTarget, hzero, hexec]
  · -- the walk went on to the address behind, and that is the only one
    have hnext : a = d.nextIp := by
      simp only [flowTargets, hflow] at ha
      exact List.mem_singleton.mp ha
    subst hnext
    generalize (walkFrom inp s.claims t start).2 = w at hrest hforeign ⊢
    cases hrest with
    | undecoded hnone => rw [hnone] at hat; cases hat
    | hardEntry => exact ⟨_, List.mem_singleton_self _, rfl, .inr rfl⟩
    | foreign => exact absurd rfl hforeign
    | ownBlock => exact ⟨_, List.mem_singleton_self _, rfl, .inl rfl⟩

theorem Closed.step (hclosed : Closed inp s) (hs : Sound s) (hcontained : Contained inp s)
    (hstep : step inp s = some s') : Closed inp s' := by
  have hmove := step_move hstep
  constructor
  · intro e va n es hb edge hedge hinner
    rcases hb.before hs hmove with hold | ⟨t, rest, hdec, rfl, hle, rfl, rfl⟩
    · obtain ⟨hne, hge, howner⟩ := hclosed.inner e va n es hold edge hedge hinner
      refine ⟨hne, hge, ?_⟩
      rcases hmove.owner_cases hs edge.target with heq | ⟨hnone, -⟩ | ⟨hlast, -⟩
      · rw [heq, howner]
      · rw [howner] at hnone; cases hnone
      · exact (hcontained.cut s' hlast e va n es hold edge hedge hne hge howner).1 hinner (hb.owner (hs.move hmove))
    · exact hcontained.decoded_inner hs hdec hle hstep edge hedge hinner
  · intro e va n es hb d hd
    rcases hb.before hs hmove with hold | ⟨t, rest, hdec, rfl, hle, rfl, rfl⟩
    · exact hclosed.complete e va n es hold d hd
    · rw [(walkFrom_walked s.claims t va).sweep_eq] at hd
      exact hcontained.decoded_complete hdec hle d hd

theorem start_closed : Closed inp (start inp) :=
  ⟨fun e va n es hb => absurd hb not_hasBlock_start, fun e va n es hb => absurd hb not_hasBlock_start⟩

theorem contained_closed (hcontained : ∀ s, Reached inp s → Contained inp s) (h : Reached inp s) : Closed inp s :=
  Machine.inv_of_reaches start_closed
    (fun t _ ht hclosed hstep => hclosed.step (reached_sound ht) (hcontained t ht) hstep) h

/-! ## Predecessors -/

/-- The edges into an address, read backwards. -/
def edgesInto (blocks : List BasicBlock) (va : Nat) : List Edge :=
  blocks.flatMap fun source =>
    (source.successors.filter fun e => e.target ≠ 0 && e.target = va).map fun e => ⟨source.entryVa, e.kind⟩

theorem edgesInto_withPredecessors (blocks : List BasicBlock) (va : Nat) :
    edgesInto (withPredecessors blocks) va = edgesInto blocks va := by
  simp [edgesInto, withPredecessors, List.flatMap_map]

/-- Blocks without an edge to an address can be left out. -/
theorem edgesInto_filter {p : BasicBlock → Bool} {blocks : List BasicBlock} {va : Nat}
    (h : ∀ b ∈ blocks, p b = false → ∀ e ∈ b.successors, e.target ≠ 0 → e.target ≠ va) :
    edgesInto (blocks.filter p) va = edgesInto blocks va := by
  induction blocks with
  | nil => rfl
  | cons b blocks ih =>
    have hrest := ih fun a ha => h a (List.mem_cons_of_mem _ ha)
    unfold edgesInto at hrest ⊢
    cases hp : p b with
    | true => rw [List.filter_cons_of_pos hp, List.flatMap_cons, List.flatMap_cons, hrest]
    | false =>
      have hnone : (b.successors.filter fun e => e.target ≠ 0 && e.target = va) = [] := by
        refine List.filter_eq_nil_iff.mpr fun e he => ?_
        by_cases hzero : e.target = 0
        · simp [hzero]
        · simp [h b List.mem_cons_self hp e he hzero]
      rw [List.filter_cons_of_neg (by simp [hp]), List.flatMap_cons, hnone, hrest, List.map_nil, List.nil_append]

/-- The predecessors are the edges read backwards. -/
structure Linked (s : State) : Prop where
  task : ∀ t, s.task = some t → ∀ b ∈ t.blocks, b.predecessors = []
  predecessors : ∀ f ∈ s.functions, ∀ c ∈ f.blocks, c.predecessors = edgesInto f.blocks c.entryVa

theorem Linked.finish (hlinked : Linked s) {t : Task} (htask : s.task = some t) : Linked (finish s t) := by
  refine ⟨fun t' ht' => ?_, fun f hf c hc => ?_⟩
  · cases ht'
  · rcases KeyedList.mem_of_mem_put hf with rfl | hold
    · change c ∈ withPredecessors (keptBlocks t) at hc
      change c.predecessors = edgesInto (withPredecessors (keptBlocks t)) c.entryVa
      rw [edgesInto_withPredecessors]
      obtain ⟨b, hb, rfl⟩ := List.mem_map.mp hc
      obtain ⟨b₀, hb₀, rfl⟩ := List.mem_map.mp hb
      change b₀.predecessors ++ _ = _
      rw [hlinked.task t htask b₀ (List.mem_filter.mp hb₀).1, List.nil_append]
      rfl
    · exact hlinked.predecessors f hold c hc

theorem Linked.step (hlinked : Linked s) (hr : Reached inp s) (hcontained : Contained inp s)
    (hstep : Discovery.step inp s = some s') : Linked s' := by
  have hs := reached_sound hr
  have htasks : ∀ t', s'.task = some t' → ∀ b ∈ t'.blocks, b.predecessors = [] := by
    intro t' ht' b hb
    obtain ⟨t, ht, -, hmem | ⟨start, rest, -, -, rfl, -⟩⟩ := (step_move hstep).task_block hs ht' hb
    · exact hlinked.task t ht b hmem
    · rfl
  refine ⟨htasks, ?_⟩
  cases step_move hstep with
  | finish htask hqueue => exact (hlinked.finish htask).predecessors
  | pass | ignore | gaps | enter | decode => exact hlinked.predecessors
  | filters htask hworklist hstage =>
    have hcut := hcontained.cut _ ⟨htask, hworklist, hstage, rfl⟩
    intro f' hf' c hc
    obtain ⟨f, hf, hentry, hblocks⟩ := filters_functions hs htask f' hf'
    rw [hblocks] at hc ⊢
    obtain ⟨hcf, hkept⟩ := List.mem_filter.mp hc
    obtain ⟨howner, hle⟩ := (hs.function_block f hf c.entryVa).mp ⟨c, hcf, rfl⟩
    rw [hlinked.predecessors f hf c hcf]
    refine (edgesInto_filter fun b hb hgone e he hne htarget => ?_).symm
    -- an edge from a block that is cut out to one that stays
    have hb' : HasBlock s f.entryVa b.entryVa b.instrCount b.successors :=
      ⟨((hs.function_block f hf b.entryVa).mp ⟨b, hb, rfl⟩).2, b, .inr ⟨f, hf, rfl, hb⟩, rfl, rfl,
        reached_rewritten hr f hf b hb⟩
    have hback := (hcut f.entryVa b.entryVa b.instrCount b.successors hb' e he hne (htarget ▸ hle)
      (htarget ▸ howner)).2 (by rw [htarget]; exact of_decide_eq_true hkept)
    rw [hback] at hgone
    simp at hgone

theorem start_linked : Linked (start inp) where
  task t ht := by cases ht
  predecessors f hf := by cases hf

theorem contained_linked (hcontained : ∀ s, Reached inp s → Contained inp s) (h : Reached inp s) : Linked s :=
  Machine.inv_of_reaches start_linked
    (fun t _ ht hlinked hstep => hlinked.step ht (hcontained t ht) hstep) h

/-! ## The result -/

variable (inp) in
/-- The recovered graph is closed and complete. An edge with the target zero leads nowhere. -/
structure CfgClosed : Prop where
  inner : ∀ f ∈ discover inp, ∀ b ∈ f.blocks, ∀ e ∈ b.successors, e.kind.isInner → ∃ c ∈ f.blocks, c.entryVa = e.target
  complete : ∀ f ∈ discover inp, ∀ b ∈ f.blocks, ∀ d ∈ (span inp b).getLast?, ∀ va ∈ flowTargets d,
    inp.space.isExecutableVa va = true → (inp.code.atVa va).isSome →
      ∃ e ∈ b.successors, e.target = va ∧ ((∃ c ∈ f.blocks, c.entryVa = va) ∨ e.kind = .tailCall)
  predecessors : ∀ f ∈ discover inp, ∀ c ∈ f.blocks, c.predecessors.Perm (edgesInto f.blocks c.entryVa)

theorem cfgClosed (hcontained : ∀ s, Reached inp s → Contained inp s) : CfgClosed inp := by
  have hr := reached_finalState inp
  have hclosed := contained_closed hcontained hr
  have hinner : ∀ f ∈ discover inp, ∀ b ∈ f.blocks, ∀ e ∈ b.successors, e.kind.isInner →
      ∃ c ∈ f.blocks, c.entryVa = e.target := by
    intro f hf b hb e he hkind
    obtain ⟨-, hge, howner⟩ := hclosed.inner _ _ _ _ (hasBlock_of_mem hf hb) e he hkind
    exact ((reached_sound hr).function_block f hf e.target).mpr ⟨howner, hge⟩
  refine ⟨hinner, fun f hf b hb d hd va hva hexec hat => ?_, fun f hf c hc => ?_⟩
  · obtain ⟨e, he, htarget, hkind⟩ := hclosed.complete _ _ _ _ (hasBlock_of_mem hf hb) d hd va hva hexec hat
    refine ⟨e, he, htarget, hkind.imp_left fun hin => ?_⟩
    rw [← htarget]
    exact hinner f hf b hb e he hin
  · rw [(contained_linked hcontained hr).predecessors f hf c hc]

/-- No edge of an instruction leads to address zero, unless it leads nowhere. -/
theorem endEdges_zero {c : Claims} {e : Nat} {d : DecodedInstr} (hzero : 0 ∈ flowTargets d) {edge : Edge}
    (h : edge ∈ (endEdges inp c e (.terminator d)).2) : edge.target ≠ 0 := by
  have hnext : d.nextIp ≠ 0 := by
    have := d.ip_lt_nextIp
    omega
  have hbranch : ∀ c va kind, edge ∈ (branchTo inp c e va kind).2 → edge.target ≠ 0 := by
    intro c va kind hedge
    obtain ⟨htarget, hexec, -⟩ := branchTo_edge hedge
    rw [htarget]
    exact ne_zero_of_isExecutableTarget hexec
  simp only [flowTargets] at hzero
  simp only [endEdges, flowEdges] at h
  split at h
  · cases h
  · split at h
    · next hexec =>
      split at h
      · obtain rfl := List.mem_singleton.mp h
        exact ne_zero_of_isExecutableTarget hexec
      · obtain rfl := List.mem_singleton.mp h
        exact ne_zero_of_isExecutableTarget hexec
    · cases h
  · rcases List.mem_append.mp h with hleft | hright
    · exact hbranch _ _ _ hleft
    · exact hbranch _ _ _ hright
  · next hflow =>
    rw [hflow] at hzero
    exact absurd (List.mem_singleton.mp hzero).symm hnext
  · next hflow => rw [hflow] at hzero; cases hzero
  · next hflow =>
    rw [hflow] at hzero
    exact absurd (List.mem_singleton.mp hzero).symm hnext
  · next hflow => rw [hflow] at hzero; cases hzero
  · next hflow => rw [hflow] at hzero; cases hzero
  · next hflow => rw [hflow] at hzero; cases hzero
  · cases h

/-- Where nothing is cut out, every hole shows in the result. -/
theorem CfgClosed.contained (h : CfgClosed inp) (hn : CarvesNothing inp) (hr : Reached inp s) : Contained inp s := by
  have hs := reached_sound hr
  -- the block of a decoding step is there at the end, with its edges
  have hdecoded : ∀ {t start rest}, Decodes s t start rest → t.entry ≤ start →
      ∃ f ∈ discover inp, f.entryVa = t.entry ∧ ∃ b ∈ f.blocks, span inp b = (walkFrom inp s.claims t start).1 ∧
        b.successors = (decodeBlock inp s.claims t start).2.successors.map (rewriteEdge t.entry) := by
    intro t start rest hdec hle
    have hb := hn.block_end (Machine.reaches_step hr (hdec.step_eq hs)) (hdec.hasBlock hs hle (hdec.step_eq hs))
    obtain ⟨f, hf, hentry, b, hbf, hva, hcount, hedges⟩ := hasBlock_discover.mp hb
    refine ⟨f, hf, hentry, b, hbf, ?_, ?_⟩
    · rw [span, hva, hcount, (walkFrom_walked s.claims t start).sweep_eq]
    · rw [← hedges, ← hentry, reached_rewritten (reached_finalState inp) f hf b hbf]
  constructor
  · intro t start rest hdec hle edge hedge hinner hge
    obtain ⟨f, hf, hentry, b, hb, -, hedges⟩ := hdecoded hdec hle
    have hkept : rewriteEdge t.entry edge = edge := by
      unfold rewriteEdge
      rw [if_neg (by omega)]
    have hmem : edge ∈ b.successors := by
      rw [hedges, ← hkept]
      exact List.mem_map_of_mem hedge
    have hblock := h.inner f hf b hb edge hmem hinner
    have hend := ((reached_sound (reached_finalState inp)).function_block f hf edge.target).mp hblock
    refine isOwnedByOther_eq_false.mpr fun owner howner => ?_
    have hstays := reached_to_end (P := fun s => s.claims.blockOwners edge.target = some owner)
      (fun _ _ hr' hstep => hn.owner_step hr' hstep) hr howner
    rw [hend.1, hentry] at hstays
    exact (Option.some.inj hstays).symm
  · intro t start rest hdec hle d hd va hva hexec hat
    obtain ⟨f, hf, -, b, hb, hspan, hedges⟩ := hdecoded hdec hle
    obtain ⟨edge, hedge, htarget, -⟩ := h.complete f hf b hb d (hspan ▸ hd) va hva hexec hat
    rw [hedges] at hedge
    obtain ⟨e, he, rfl⟩ := List.mem_map.mp hedge
    rw [rewriteEdge_target] at htarget
    change e ∈ (endEdges inp s.claims t.entry (walkFrom inp s.claims t start).2).2 at he
    refine ⟨fun hforeign => ?_, fun hxbegin => ?_, fun hzero => ?_⟩
    · rw [hforeign] at he
      cases he
    · rcases (walkFrom_walked s.claims t start).last hd with ⟨hend, -⟩ | ⟨hflow, -⟩
      · rw [hend] at he
        simp only [endEdges, flowEdges, hxbegin] at he
        cases he
      · rw [hxbegin] at hflow; cases hflow
    · rcases (walkFrom_walked s.claims t start).last hd with ⟨hend, -⟩ | ⟨hflow, -⟩
      · rw [hend] at he
        exact endEdges_zero (hzero ▸ hva) he (htarget.trans hzero)
      · simp only [flowTargets, hflow] at hva
        have hlt := d.ip_lt_nextIp
        have hnext := List.mem_singleton.mp hva
        omega
  · rintro s' ⟨htask, hworklist, hstage, rfl⟩ e va n es hb edge hedge hne hge howner
    have hsame : (seedAccessViolationFilterLeaves inp s).claims.blockOwners = s.claims.blockOwners := by
      rw [filters_owners, foldl_carve_eq (hn s hr htask hworklist hstage)]
    rw [hsame]
    exact ⟨fun _ _ => howner, fun _ => hb.owner hs⟩

/-- The graph is closed if no step makes a hole; and only then, if no filter is cut out of
a function. -/
theorem closed_of_contained (inp : Input) :
    ((∀ s, Reached inp s → Contained inp s) → CfgClosed inp) ∧
      (CarvesNothing inp → CfgClosed inp → ∀ s, Reached inp s → Contained inp s) :=
  ⟨cfgClosed, fun hn h _ hr => h.contained hn hr⟩

/-- Two functions; the second one branches into the first. -/
def sharedInput : Input :=
  { code := .ofList
      [flowInstr 0x1000 2 .conditionalBranch 0x1003 Nat.two_pos end_1002,
       flowInstr 0x1002 1 .ret 0 Nat.one_pos end_1003,
       flowInstr 0x1003 1 .ret 0 Nat.one_pos end_1004]
    space := textSpace, seeds := [0x1003, 0x1000], entryHints := [] }

/-- The branch becomes an inner edge, and its target is no block of the function. -/
theorem sharedInput_open : ¬ CfgClosed sharedInput := by
  intro h
  have hopen : (discover sharedInput).any (fun f => f.blocks.any fun b => b.successors.any fun e =>
      e.kind.isInner && f.blocks.all fun c => c.entryVa ≠ e.target) = true := by
    decide +kernel
  simp only [List.any_eq_true, Bool.and_eq_true, List.all_eq_true, decide_eq_true_eq] at hopen
  obtain ⟨f, hf, b, hb, e, he, hinner, hnone⟩ := hopen
  obtain ⟨c, hc, heq⟩ := h.inner f hf b hb e he hinner
  exact hnone c hc heq

end Discovery

end Windy
