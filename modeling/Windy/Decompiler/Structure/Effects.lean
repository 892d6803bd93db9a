import Mathlib.Data.Finset.Card
import Windy.Decompiler.Structure.EmitRegion

/- Which calls and stores the structured emitter prints.

   The emitter marks a block as emitted in several places, and in some of them it does not
   print the statements of the block: the second block of a folded pair of branches, the
   latch that a do-while loop takes its condition from, a self-headed loop whose branch is
   folded, and a block that returns and is replaced by its `return`. `Swallows` says which
   blocks these places can mark. `Emits` is what a part of the walk does: it prints only
   blocks that were not emitted before, and what it marks is printed or swallowed.

   What is proved:
     `statement_of_effect`: a call or a store that is no parameter home has a statement;
     `emitRegion_emits`: with fuel for the blocks not yet emitted the walk ends, and what
       it did is an `Emits`;
     `emitLines_settled`: in the end every block is printed or swallowed;
     `emitLines_prints_effects`: where no block with an effect is swallowed, every effect
       of a reachable block is printed;
     `emitLines_folds_start`: a pair folded at the start of the function is never
       printed past its first block. -/
namespace Windy.Decompiler

/-- The blocks a region names, behind the cases of a switch. -/
def Region.targets : Region → List Nat
  | .ifElse thenEntry elseEntry merge _ => [thenEntry, elseEntry, merge]
  | .ifThen bodyEntry merge _ => [bodyEntry, merge]
  | .ifThenFallthrough thenEntry contEntry merge _ => [thenEntry, contEntry, merge]
  | .while bodyEntry exit => [bodyEntry, exit]
  | .doWhile bodyEntry _ exit => [bodyEntry, exit]
  | .switch _ merge => [merge]
  | .ret => []

/-- The blocks a path of successors leads to. -/
inductive SsaFunction.Reachable (ssa : SsaFunction) : Nat → Prop
  | start : Reachable ssa ssa.start
  | step {b next : Nat} {block : SsaBlock} : Reachable ssa b → ssa.blocks[b]? = some block →
      next ∈ block.successorIds → Reachable ssa next

namespace Structure.Emitter

variable (c : Emitter)

/-! ## The blocks that can be lost -/

/-- The blocks the walk goes to. -/
inductive Entered : Nat → Prop
  | start : Entered c.ssa.start
  | target {b x : Nat} {region : Region} : c.regions b = some region → x ∈ region.targets → Entered x
  | case {b merge : Nat} {cases : List (Int × Nat)} {entry : Int × Nat} :
      c.regions b = some (.switch cases merge) → entry ∈ cases → Entered (c.resolve entry.2)
  | folded {b : Nat} {block : SsaBlock} {folded : String × ShortCircuit × Nat × Nat} :
      c.ssa.blocks[b]? = some block → c.shortCircuit block = some folded → Entered folded.2.2.2
  | next {b x : Nat} {block : SsaBlock} : c.regions b = none → c.ssa.blocks[b]? = some block →
      x ∈ presentationSuccessors c.ssa block → Entered x

/-- The blocks for which an alternative to a `goto` is looked for before they are emitted:
behind a block that only jumps, and behind a branch without a region. -/
inductive Offered : Nat → Prop
  | jump {b : Nat} : Entered c b → b ≠ c.resolve b → Offered (c.resolve b)
  | arm {b x : Nat} {block : SsaBlock} : c.regions b = none → c.ssa.blocks[b]? = some block →
      block.successorIds.length = 2 → x ∈ presentationSuccessors c.ssa block → Offered (c.resolve x)
  | way {b x : Nat} {block : SsaBlock} : c.regions b = none → c.ssa.blocks[b]? = some block →
      2 < block.successorIds.length → x ∈ presentationSuccessors c.ssa block → Offered x

/-- The blocks that can be marked as emitted without their statements being printed. -/
inductive Swallows : Nat → Prop
  | second {b : Nat} {block : SsaBlock} {folded : String × ShortCircuit × Nat × Nat} :
      c.ssa.blocks[b]? = some block → c.shortCircuit block = some folded → Swallows folded.2.2.1
  | latch {b bodyEntry condBlock exit : Nat} : c.regions b = some (.doWhile bodyEntry condBlock exit) →
      condBlock ≠ b → Swallows condBlock
  | header {b : Nat} {block : SsaBlock} : c.ssa.blocks[b]? = some block → c.defers b →
      (c.shortCircuit block).isSome → Swallows b
  | returns {b : Nat} {block : SsaBlock} : c.ssa.blocks[b]? = some block → block.hasReturn →
      Offered c b → Swallows b

/-! ## Statements -/

variable {c}

theorem not_isDead_of_effect {op : SsaOp} (h : op.isEffect) : c.isDead op = false := by
  unfold SsaOp.isEffect SsaOpKind.isCall SsaOp.isStore at h
  unfold isDead
  split
  · simp only [SsaOp.isStableContractiblePure, SsaOp.isLoad]
    split <;> simp_all
  · rfl

/-- Calls and stores are never skipped. -/
theorem statement_of_effect {op : SsaOp} (h : op.isEffect) (blockId indent i : Nat) :
    ∃ text, c.statement blockId indent i op = some text := by
  have hdead := not_isDead_of_effect (c := c) h
  unfold SsaOp.isEffect SsaOpKind.isCall at h
  unfold statement
  cases hkind : op.kind with
  | phi out args => simp [hkind, SsaOp.isStore] at h
  | pcode pcode =>
    cases pcode with
    | store ptr val =>
      have hhome : op.isParamHomeStore = false := by simpa [hkind, SsaOp.isStore] using h
      simp only [SsaOp.isTerminator, SsaOp.isFramePointerAdjust, SsaOp.isNoiseStackReload, SsaOp.isPhi, SsaOp.isStore,
        hkind, hhome, hdead, Bool.and_false, Bool.true_or, Bool.not_true, Bool.false_eq_true, if_false]
      split <;> exact ⟨_, rfl⟩
    | call dest =>
      simp only [SsaOp.isTerminator, SsaOp.isFramePointerAdjust, SsaOp.isNoiseStackReload, SsaOp.isPhi, SsaOp.isStore,
        SsaOpKind.isCall, hkind, hdead, Bool.and_false, Bool.false_and, Bool.or_true, Bool.not_true, Bool.false_eq_true,
        if_false]
      split <;> exact ⟨_, rfl⟩
    | callInd dest =>
      simp only [SsaOp.isTerminator, SsaOp.isFramePointerAdjust, SsaOp.isNoiseStackReload, SsaOp.isPhi, SsaOp.isStore,
        SsaOpKind.isCall, hkind, hdead, Bool.and_false, Bool.false_and, Bool.or_true, Bool.not_true, Bool.false_eq_true,
        if_false]
      split <;> exact ⟨_, rfl⟩
    | _ => simp [hkind, SsaOp.isStore] at h

variable (c)

/-- Every effect of the block has its line. -/
def Printed (out : List Line) (b : Nat) : Prop :=
  ∀ (block : SsaBlock) (i : Nat) (op : SsaOp), c.ssa.blocks[b]? = some block → block.ops[i]? = some op → op.isEffect →
    ∃ indent text, c.statement b indent i op = some text ∧ ⟨text, some (b, i)⟩ ∈ out

variable {c}

theorem Printed.mono {out out' : List Line} {b : Nat} (h : Printed c out b) (hsub : out ⊆ out') :
    Printed c out' b := by
  intro block i op hblock hop heffect
  obtain ⟨indent, text, hstatement, hmem⟩ := h block i op hblock hop heffect
  exact ⟨indent, text, hstatement, hsub hmem⟩

/-- A block that only forwards has no effects. -/
theorem printed_of_forwarding {b : Nat} {block : SsaBlock} (hb : c.ssa.blocks[b]? = some block)
    (h : block.isForwarding) (out : List Line) : Printed c out b := by
  intro block' i op hblock hop heffect
  obtain rfl : block = block' := Option.some.inj (hb.symm.trans hblock)
  have hshown := List.all_eq_true.mp h op (List.mem_of_getElem? hop)
  exfalso
  unfold SsaOp.isEffect at heffect
  rw [Bool.or_eq_true] at heffect hshown
  rcases heffect with hcall | hstore
  · rw [SsaOp.not_isControl_of_isCall hcall, SsaOp.not_isNoise_of_isCall hcall] at hshown
    simp at hshown
  · rw [Bool.and_eq_true, Bool.not_eq_true'] at hstore
    obtain ⟨hstore, hhome⟩ := hstore
    unfold SsaOp.isStore at hstore
    split at hstore
    · rename_i hkind
      simp [SsaOp.isControl, SsaOp.isNoise, SsaOp.isFramePointerAdjust, SsaOp.isNoiseStackReload, hkind, hhome] at hshown
    · cases hstore

theorem mem_emitBlockStatements {block : SsaBlock} {indent : Nat} {line : Line}
    (h : line ∈ c.emitBlockStatements block indent) : ∃ i, line.source = some (block.id, i) := by
  obtain ⟨entry, -, hentry⟩ := List.mem_filterMap.mp h
  obtain ⟨text, -, rfl⟩ := Option.map_eq_some_iff.mp hentry
  exact ⟨entry.2, rfl⟩

theorem printed_emitBlockStatements {b : Nat} {block : SsaBlock} (hb : c.ssa.blocks[b]? = some block) (indent : Nat) :
    Printed c (c.emitBlockStatements block indent) b := by
  intro block' i op hblock hop heffect
  obtain rfl : block = block' := Option.some.inj (hb.symm.trans hblock)
  obtain ⟨text, htext⟩ := statement_of_effect (c := c) heffect b indent i
  refine ⟨indent, text, htext, List.mem_filterMap.mpr ⟨(op, i), List.mk_mem_zipIdx_iff_getElem?.mpr hop, ?_⟩⟩
  rw [c.ssa.id_eq b block hb, htext]
  rfl

/-! ## What a part of the walk does -/

variable (c)

/-- From one state to the next: only blocks not emitted before are printed, and a block
that becomes emitted is swallowed or printed. -/
structure Emits (s s' : EmitState) : Prop where
  stack : s'.loopStack = s.loopStack
  marked : s.emitted ⊆ s'.emitted
  lines : ∃ new, s'.out = s.out ++ new ∧ ∀ line ∈ new, ∀ b i, line.source = some (b, i) → b ∉ s.emitted
  settled : ∀ b ∈ s'.emitted, b ∈ s.emitted ∨ (b < c.ssa.blocks.length ∧ (Swallows c b ∨ Printed c s'.out b))

variable {c} {s s' s'' : EmitState}

namespace Emits

theorem of_eq (hout : s'.out = s.out) (hemitted : s'.emitted = s.emitted) (hstack : s'.loopStack = s.loopStack) :
    Emits c s s' := by
  refine ⟨hstack, hemitted.symm.subset, ⟨[], by simp [hout], by simp⟩, ?_⟩
  intro b hb
  exact .inl (hemitted ▸ hb)

theorem refl (s : EmitState) : Emits c s s := of_eq rfl rfl rfl

theorem trans (h : Emits c s s') (h' : Emits c s' s'') : Emits c s s'' := by
  obtain ⟨new, hout, hnew⟩ := h.lines
  obtain ⟨new', hout', hnew'⟩ := h'.lines
  refine ⟨h'.stack.trans h.stack, h.marked.trans h'.marked, ⟨new ++ new', ?_, ?_⟩, ?_⟩
  · rw [hout', hout, List.append_assoc]
  · intro line hline b i hsource hb
    rcases List.mem_append.mp hline with hline | hline
    · exact hnew line hline b i hsource hb
    · exact hnew' line hline b i hsource (h.marked hb)
  · intro b hb
    rcases h'.settled b hb with hb | hb
    · refine (h.settled b hb).imp_right fun ⟨hbound, hdone⟩ => ⟨hbound, hdone.imp_right fun hprinted => ?_⟩
      exact hprinted.mono (by rw [hout']; exact List.subset_append_left _ _)
    · exact .inr hb

theorem push (s : EmitState) (text : String) : Emits c s (s.push text) :=
  ⟨rfl, fun _ h => h, ⟨[⟨text, none⟩], rfl, by simp⟩, fun _ h => .inl h⟩

theorem say (s : EmitState) (text : String) : Emits c s (s.say text) := push s _

theorem deeper (s : EmitState) : Emits c s s.deeper := of_eq rfl rfl rfl

theorem back (s : EmitState) : Emits c s s.back := of_eq rfl rfl rfl

theorem mark (s : EmitState) {b : Nat} (hb : b < c.ssa.blocks.length)
    (h : b ∈ s.emitted ∨ Swallows c b ∨ Printed c s.out b) : Emits c s (s.mark b) := by
  refine ⟨rfl, Finset.subset_insert _ _, ⟨[], by simp [EmitState.mark], by simp⟩, ?_⟩
  intro x hx
  rcases Finset.mem_insert.mp hx with rfl | hx
  · exact h.imp_right fun h => ⟨hb, h⟩
  · exact .inl hx

/-- A block that is printed and marked, in whichever order. -/
theorem enter {b : Nat} {block : SsaBlock} (indent : Nat) (before after : List Line) (hb : c.ssa.blocks[b]? = some block)
    (hfresh : b ∉ s.emitted) (hemitted : s'.emitted = insert b s.emitted) (hstack : s'.loopStack = s.loopStack)
    (hout : s'.out = s.out ++ (before ++ c.emitBlockStatements block indent ++ after))
    (hbefore : ∀ line ∈ before, line.source = none) (hafter : ∀ line ∈ after, line.source = none) :
    Emits c s s' := by
  refine ⟨hstack, hemitted ▸ Finset.subset_insert _ _, ⟨_, hout, ?_⟩, ?_⟩
  · intro line hline x i hsource
    simp only [List.mem_append] at hline
    rcases hline with (hline | hline) | hline
    · simp [hbefore line hline] at hsource
    · obtain ⟨j, hj⟩ := mem_emitBlockStatements hline
      rw [hj, Option.some.injEq, Prod.mk.injEq, c.ssa.id_eq b block hb] at hsource
      exact hsource.1 ▸ hfresh
    · simp [hafter line hline] at hsource
  · intro x hx
    rw [hemitted, Finset.mem_insert] at hx
    rcases hx with rfl | hx
    · refine .inr ⟨(List.getElem?_eq_some_iff.mp hb).1, .inr ?_⟩
      refine (printed_emitBlockStatements hb indent).mono ?_
      intro line hline
      rw [hout]
      simp [hline]
    · exact .inl hx

theorem print {b : Nat} {block : SsaBlock} (hb : c.ssa.blocks[b]? = some block) (hfresh : b ∉ s.emitted) :
    Emits c s ((c.print s block).mark b) :=
  enter s.indent [] [] hb hfresh rfl rfl (by simp [Emitter.print, EmitState.mark]) (by simp) (by simp)

/-- What is done inside of a loop. -/
theorem loop {frame : LoopFrame} (h : Emits c (s.enterLoop frame) s') : Emits c s s'.leaveLoop := by
  refine ⟨?_, h.marked, h.lines, h.settled⟩
  show s'.loopStack.tail = s.loopStack
  rw [h.stack]
  rfl

end Emits

/-! ## Fuel -/

variable (c)

def Bounded (s : EmitState) : Prop := ∀ b ∈ s.emitted, b < c.ssa.blocks.length

/-- The blocks not yet emitted. -/
def left (s : EmitState) : Nat := c.ssa.blocks.length - s.emitted.card

/-- Fuel for two rounds per block not yet emitted, and for the last one. -/
structure Ready (fuel : Nat) (s : EmitState) : Prop where
  bounded : Bounded c s
  enough : 2 * c.left s + 2 ≤ fuel

/-- What is asked of a walk with this much fuel. A block not yet emitted needs one round
less, as its round is not spent on an edge. -/
def Walks (fuel : Nat) (go : Walk) : Prop :=
  ∀ s b stop, Bounded c s → (if b ∈ s.emitted then Entered c b ∧ 2 * c.left s + 2 ≤ fuel else 2 * c.left s + 1 ≤ fuel) →
    ∃ s', go s b stop = some s' ∧ Emits c s s'

variable {c} {fuel : Nat} {block : SsaBlock} {go : Walk} {b : Nat}

theorem Emits.bounded (h : Emits c s s') (hs : Bounded c s) : Bounded c s' := by
  intro b hb
  rcases h.settled b hb with hb | hb
  · exact hs b hb
  · exact hb.1

theorem Emits.left_le (h : Emits c s s') : c.left s' ≤ c.left s := by
  have hcard := Finset.card_le_card h.marked
  unfold left
  omega

theorem Emits.left_lt (h : Emits c s s') (hs : Bounded c s) (hfresh : b ∉ s.emitted) (hmem : b ∈ s'.emitted) :
    c.left s' < c.left s := by
  have hsub : insert b s.emitted ⊆ s'.emitted := Finset.insert_subset hmem h.marked
  have hcard := Finset.card_le_card hsub
  rw [Finset.card_insert_of_notMem hfresh] at hcard
  have hrange : s'.emitted ⊆ Finset.range c.ssa.blocks.length := by
    intro x hx
    exact Finset.mem_range.mpr (h.bounded hs x hx)
  have hlength := Finset.card_le_card hrange
  rw [Finset.card_range] at hlength
  unfold left
  omega

theorem Emits.ready (h : Emits c s s') (hs : Ready c fuel s) : Ready c fuel s' := by
  have hleft := h.left_le
  have henough := hs.enough
  exact ⟨h.bounded hs.bounded, by omega⟩

theorem Walks.run (hgo : Walks c fuel go) (hs : Ready c fuel s) (stop : Nat)
    (hb : b ∈ s.emitted → Entered c b) : ∃ s', go s b stop = some s' ∧ Emits c s s' := by
  have henough := hs.enough
  refine hgo s b stop hs.bounded ?_
  split
  · rename_i hmem
    exact ⟨hb hmem, henough⟩
  · omega

/-! ## Edges -/

theorem Emits.ret (s : EmitState) (block : SsaBlock) : Emits c s (c.ret s block) := Emits.push s _

theorem Emits.sayKw (s : EmitState) (kw : LoopKw) : Emits c s (sayKw s kw) := by
  cases kw with
  | «continue» => exact Emits.refl s
  | «break» => exact Emits.say s _

theorem Emits.emitGotoWithReason (s : EmitState) (target : Nat) (reason : String) :
    Emits c s (c.emitGotoWithReason s target reason) := by
  unfold Emitter.emitGotoWithReason
  split
  · exact Emits.refl s
  · exact Emits.say s _

/-- The alternative to a `goto`: a target that is not yet emitted and returns is lost here. -/
theorem tryEmitGotoAlternative_emits (hgo : Walks c fuel go) (hs : Bounded c s)
    (hfuel : 2 * c.left s + 1 ≤ fuel) {target : Nat} (stop : Nat) (htarget : target ∉ s.emitted → Offered c target) :
    ∃ taken s', c.tryEmitGotoAlternative go s target stop = some (taken, s') ∧ Emits c s s' ∧
      (taken = false → s' = s ∧ target < c.ssa.blocks.length) := by
  unfold tryEmitGotoAlternative
  split
  · exact ⟨true, s, rfl, Emits.refl s, by simp⟩
  rename_i block hblock
  have hbound : target < c.ssa.blocks.length := (List.getElem?_eq_some_iff.mp hblock).1
  split
  · exact ⟨true, s, rfl, Emits.refl s, by simp⟩
  split
  · rename_i hreturn
    refine ⟨true, _, rfl, (Emits.ret s block).trans (Emits.mark _ hbound ?_), by simp⟩
    by_cases hmem : target ∈ s.emitted
    · exact .inl hmem
    · exact .inr (.inl (.returns hblock hreturn (htarget hmem)))
  split
  · rename_i hroot
    obtain ⟨s', hrun, hemits⟩ := hgo s target stop hs (by rw [if_neg hroot.1]; exact hfuel)
    exact ⟨true, s', by rw [hrun]; rfl, hemits, by simp⟩
  · exact ⟨false, s, rfl, Emits.refl s, fun _ => ⟨rfl, hbound⟩⟩

theorem emitGoto_emits (hgo : Walks c fuel go) (hs : Bounded c s)
    (hfuel : 2 * c.left s + 1 ≤ fuel) {target : Nat} (stop : Nat) (reason : String)
    (htarget : target ∉ s.emitted → Offered c target) :
    ∃ s', c.emitGoto go s target stop reason = some s' ∧ Emits c s s' := by
  obtain ⟨taken, s', htry, hemits, -⟩ := tryEmitGotoAlternative_emits hgo hs hfuel stop htarget
  unfold emitGoto
  rw [htry]
  cases taken with
  | true => exact ⟨s', rfl, hemits⟩
  | false => exact ⟨_, rfl, hemits.trans (Emits.emitGotoWithReason s' target reason)⟩

theorem emitRejoin_emits (hgo : Walks c fuel go) (hs : Bounded c s)
    (hfuel : 2 * c.left s + 1 ≤ fuel) (stop : Nat) (hmem : b ∈ s.emitted) (hb : Entered c b) :
    ∃ s', c.emitRejoin go s b stop = some s' ∧ Emits c s s' := by
  unfold emitRejoin
  dsimp only
  split
  · exact ⟨_, rfl, Emits.sayKw s _⟩
  · refine emitGoto_emits hgo hs hfuel stop _ fun hfresh => .jump hb ?_
    intro heq
    exact hfresh (heq ▸ hmem)

theorem ctxIndentEmitEdge_emits (hgo : Walks c fuel go) (hs : Ready c fuel s)
    {edge : Nat} (stop : Nat) (hedge : Offered c (c.resolve edge)) :
    ∃ s', c.ctxIndentEmitEdge go s edge stop = some s' ∧ Emits c s s' := by
  have hrestore : ∀ {s₁ : EmitState}, Emits c s.deeper s₁ → Emits c s { s₁ with indent := s.indent } :=
    fun h => ((Emits.deeper s).trans h).trans (Emits.of_eq rfl rfl rfl)
  have henough := hs.enough
  unfold ctxIndentEmitEdge
  dsimp only
  split
  · exact ⟨s, rfl, Emits.refl s⟩
  split
  · exact ⟨_, rfl, hrestore (Emits.sayKw _ _)⟩
  split
  · rename_i hmem
    rw [List.getElem?_eq_getElem (hs.bounded _ hmem)]
    exact ⟨_, rfl, Emits.push s _⟩
  obtain ⟨taken, s₁, htry, hemits, hrest⟩ := tryEmitGotoAlternative_emits hgo (s := s.deeper) hs.bounded
    (show 2 * c.left s + 1 ≤ fuel by omega) stop fun _ => hedge
  rw [htry]
  cases taken with
  | true => exact ⟨_, rfl, hrestore hemits⟩
  | false =>
    rename_i hfresh
    obtain ⟨rfl, hbound⟩ := hrest rfl
    have hblock := List.getElem?_eq_getElem hbound
    simp only [hblock]
    split
    · -- a linear block in the arm
      refine ⟨_, rfl, hrestore ?_⟩
      have hprinted := Emits.print (s := s.deeper) hblock hfresh
      split
      · exact hprinted.trans (Emits.sayKw _ _)
      · exact hprinted
    · exact ⟨_, rfl, hrestore (Emits.refl _)⟩

theorem emitWay_emits (hgo : Walks c fuel go) (stop : Nat) (ways : List Nat)
    (hways : ∀ x ∈ ways, Offered c x) (hs : Ready c fuel s) :
    ∃ s', ways.foldlM (c.emitWay go stop) s = some s' ∧ Emits c s s' := by
  induction ways generalizing s with
  | nil => exact ⟨s, rfl, Emits.refl s⟩
  | cons x rest ih =>
    have henough := hs.enough
    obtain ⟨s₁, hway, hemits⟩ : ∃ s₁, c.emitWay go stop s x = some s₁ ∧ Emits c s s₁ := by
      unfold emitWay
      split
      · exact ⟨s, rfl, Emits.refl s⟩
      split
      · exact ⟨_, rfl, Emits.say s _⟩
      · exact emitGoto_emits hgo hs.bounded (by omega) stop _ fun _ => hways x List.mem_cons_self
    obtain ⟨s₂, hrest, hemits'⟩ := ih (fun y hy => hways y (List.mem_cons_of_mem _ hy)) (hemits.ready hs)
    exact ⟨s₂, by rw [List.foldlM_cons, hway]; exact hrest, hemits.trans hemits'⟩

theorem emitUnstructuredTerm_emits (hgo : Walks c fuel go) (hs : Ready c fuel s)
    (hb : c.ssa.blocks[b]? = some block) (hregion : c.regions b = none) (stop : Nat) :
    ∃ s' next, c.emitUnstructuredTerm go s block stop = some (s', next) ∧ Emits c s s' ∧
      ∀ x, next = some x → Entered c x := by
  have hlength : (presentationSuccessors c.ssa block).length = block.successorIds.length := List.length_map _
  have hnext : ∀ x ∈ presentationSuccessors c.ssa block, Entered c x := fun x hx => .next hregion hb hx
  have henough := hs.enough
  unfold emitUnstructuredTerm
  split
  · exact ⟨_, none, rfl, Emits.ret s block, by simp⟩
  split
  · exact ⟨s, none, rfl, Emits.refl s, by simp⟩
  · rename_i next hsuccs
    split
    · exact ⟨s, none, rfl, Emits.refl s, by simp⟩
    split
    · exact ⟨_, none, rfl, Emits.sayKw s _, by simp⟩
    split
    · rename_i hmem
      obtain ⟨s', hgoto, hemits⟩ := emitGoto_emits hgo hs.bounded (show 2 * c.left s + 1 ≤ fuel by omega) stop
        "single_succ_rejoin" fun hfresh => absurd hmem hfresh
      exact ⟨s', none, by rw [hgoto]; rfl, hemits, by simp⟩
    · refine ⟨s, some next, rfl, Emits.refl s, ?_⟩
      intro x hx
      cases hx
      exact hnext next (by rw [hsuccs]; exact List.mem_cons_self)
  · rename_i fall taken hsuccs
    have htwo : block.successorIds.length = 2 := by rw [← hlength, hsuccs]; rfl
    have harm : ∀ x ∈ presentationSuccessors c.ssa block, Offered c (c.resolve x) :=
      fun x hx => .arm hregion hb htwo hx
    have hfall : fall ∈ presentationSuccessors c.ssa block := by rw [hsuccs]; exact List.mem_cons_self
    have htaken : taken ∈ presentationSuccessors c.ssa block := by
      rw [hsuccs]
      exact List.mem_cons_of_mem _ List.mem_cons_self
    have hopen := Emits.say (c := c) s ("if (" ++ c.rendering.simplifyPredicateExpr ((c.condOfBlock block).getD "/*cond*/") ++ ") \x7b")
    obtain ⟨s₁, hrun₁, hemits₁⟩ := ctxIndentEmitEdge_emits hgo (hopen.ready hs) stop (harm taken htaken)
    have helse := (hopen.trans hemits₁).trans (Emits.say s₁ "\x7d else \x7b")
    obtain ⟨s₂, hrun₂, hemits₂⟩ := ctxIndentEmitEdge_emits hgo (helse.ready hs) stop (harm fall hfall)
    have hall := (helse.trans hemits₂).trans (Emits.say s₂ "\x7d")
    simp only [hrun₁, hrun₂, bind, Option.bind, pure]
    -- whichever way the walk goes on, it is one of the two successors
    have hgoes : ∀ y ∈ presentationSuccessors c.ssa block, ∀ x, some y = some x → Entered c x := by
      intro y hy x hx
      cases hx
      exact hnext y hy
    split
    · split
      · exact ⟨_, _, rfl, hall, hgoes fall hfall⟩
      · exact ⟨_, _, rfl, hall, by simp⟩
    split
    · exact ⟨_, _, rfl, hall, hgoes taken htaken⟩
    split
    · exact ⟨_, _, rfl, hall, hgoes fall hfall⟩
    · exact ⟨_, _, rfl, hall, by simp⟩
  · rename_i hnil hone htwo
    have hmany : 2 < block.successorIds.length := by
      rw [← hlength]
      match hsuccs : presentationSuccessors c.ssa block with
      | [] => exact absurd hsuccs hnil
      | [x] => exact absurd hsuccs (hone x)
      | [x, y] => exact absurd hsuccs (htwo x y)
      | _ :: _ :: _ :: _ => simp
    obtain ⟨s', hrun, hemits⟩ := emitWay_emits hgo stop (presentationSuccessors c.ssa block)
      (fun x hx => .way hregion hb hmany hx) hs
    exact ⟨s', none, by rw [hrun]; rfl, hemits, by simp⟩

/-! ## Regions -/

theorem nextAfterMerge_eq {merge x : Nat} (h : c.nextAfterMerge merge = some x) : x = merge := by
  unfold nextAfterMerge at h
  split at h
  · cases h
  · exact (Option.some.inj h).symm

theorem emitArm_emits (hgo : Walks c fuel go) (hs : Ready c fuel s) {entry : Nat} (merge : Nat)
    (hentry : Entered c entry) : ∃ s', emitArm go s entry merge = some s' ∧ Emits c s s' := by
  unfold emitArm
  split
  · exact ⟨s, rfl, Emits.refl s⟩
  · exact hgo.run hs merge fun _ => hentry

theorem emitCase_emits (hgo : Walks c fuel go) (merge : Nat) (cases : List (Int × Nat))
    (hcases : ∀ entry ∈ cases, Entered c (c.resolve entry.2)) (hs : Ready c fuel s) :
    ∃ s', cases.foldlM (c.emitCase go merge) s = some s' ∧ Emits c s s' := by
  induction cases generalizing s with
  | nil => exact ⟨s, rfl, Emits.refl s⟩
  | cons entry rest ih =>
    have hopen : Emits c s (s.say ("case " ++ toString entry.1 ++ ":")).deeper :=
      (Emits.say s _).trans (Emits.deeper _)
    have hready := hopen.ready hs
    have henough := hready.enough
    obtain ⟨s₁, hcase, hemits⟩ : ∃ s₁, c.emitCase go merge s entry = some s₁ ∧ Emits c s s₁ := by
      have hclose : ∀ {s₂ : EmitState}, Emits c (s.say ("case " ++ toString entry.1 ++ ":")).deeper s₂ →
          Emits c s (s₂.say "break;").back :=
        fun h => ((hopen.trans h).trans (Emits.say _ _)).trans (Emits.back _)
      unfold emitCase
      dsimp only
      split
      · obtain ⟨s₂, hrun, h⟩ := hgo.run hready merge fun _ => hcases entry List.mem_cons_self
        exact ⟨_, by rw [hrun]; rfl, hclose h⟩
      split
      · rename_i hmem
        split
        · exact ⟨_, rfl, hclose (Emits.sayKw _ _)⟩
        · obtain ⟨s₂, hrun, h⟩ := emitGoto_emits hgo hready.bounded (by omega) merge "shared_case_body"
            fun hfresh => absurd hmem hfresh
          exact ⟨_, by rw [hrun]; rfl, hclose h⟩
      · exact ⟨_, rfl, hclose (Emits.refl _)⟩
    obtain ⟨s₂, hrest, hemits'⟩ := ih (fun e he => hcases e (List.mem_cons_of_mem _ he)) (hemits.ready hs)
    exact ⟨s₂, by rw [List.foldlM_cons, hcase]; exact hrest, hemits.trans hemits'⟩

/-- The region of a block that was printed before. -/
theorem emitShape_emits (hgo : Walks c fuel go) (hs : Ready c fuel s)
    (hb : c.ssa.blocks[b]? = some block) (hdefers : c.defers b = false) (stop : Nat) :
    ∃ s' next, c.emitShape go s b block stop = some (s', next) ∧ Emits c s s' ∧
      ∀ x, next = some x → Entered c x := by
  have hopen : ∀ text, Emits c s (s.say text).deeper := fun text => (Emits.say s text).trans (Emits.deeper _)
  have hclose : ∀ {s₁ : EmitState} (text : String), Emits c s s₁ → Emits c s (s₁.back.say text) :=
    fun text h => (h.trans (Emits.back _)).trans (Emits.say _ text)
  have hmerge : ∀ {region : Region} {merge : Nat}, c.regions b = some region → merge ∈ region.targets →
      ∀ x, c.nextAfterMerge merge = some x → Entered c x :=
    fun hregion hmem x hx => nextAfterMerge_eq hx ▸ Entered.target hregion hmem
  unfold emitShape
  split
  · exact ⟨_, none, rfl, Emits.ret s block, by simp⟩
  · rename_i thenEntry elseEntry merge invert hregion
    obtain ⟨s₁, hrun₁, h₁⟩ := emitArm_emits hgo ((hopen ("if (" ++ c.condText block invert ++ ") \x7b")).ready hs) merge
      (Entered.target hregion (x := thenEntry) (by simp [Region.targets]))
    have hmid := (hclose "\x7d else \x7b" ((hopen _).trans h₁)).trans (Emits.deeper _)
    obtain ⟨s₂, hrun₂, h₂⟩ := emitArm_emits hgo (hmid.ready hs) merge
      (Entered.target hregion (x := elseEntry) (by simp [Region.targets]))
    simp only [hrun₁, hrun₂, bind, Option.bind, pure]
    exact ⟨_, _, rfl, hclose _ (hmid.trans h₂), hmerge hregion (by simp [Region.targets])⟩
  · rename_i thenEntry contEntry merge invert hregion
    obtain ⟨s₁, hrun₁, h₁⟩ := emitArm_emits hgo ((hopen ("if (" ++ c.condText block invert ++ ") \x7b")).ready hs) merge
      (Entered.target hregion (x := thenEntry) (by simp [Region.targets]))
    have hmid := hclose "\x7d" ((hopen _).trans h₁)
    simp only [hrun₁, bind, Option.bind, pure]
    split
    · exact ⟨_, _, rfl, hmid, hmerge hregion (by simp [Region.targets])⟩
    · obtain ⟨s₂, hrun₂, h₂⟩ := emitArm_emits hgo (hmid.ready hs) merge
        (Entered.target hregion (x := contEntry) (by simp [Region.targets]))
      simp only [hrun₂]
      exact ⟨_, _, rfl, hmid.trans h₂, hmerge hregion (by simp [Region.targets])⟩
  · rename_i bodyEntry merge invert hregion
    obtain ⟨s₁, hrun₁, h₁⟩ := emitArm_emits hgo ((hopen ("if (" ++ c.condText block invert ++ ") \x7b")).ready hs) merge
      (Entered.target hregion (x := bodyEntry) (by simp [Region.targets]))
    simp only [hrun₁, bind, Option.bind, pure]
    exact ⟨_, _, rfl, hclose _ ((hopen _).trans h₁), hmerge hregion (by simp [Region.targets])⟩
  · rename_i bodyEntry exit hregion
    have hbody : bodyEntry ≠ b := by
      intro heq
      simp [defers, hregion, heq] at hdefers
    have hloop := hopen ("while (" ++ c.whileCond block bodyEntry ++ ") \x7b")
    have hready : Ready c fuel ((s.say ("while (" ++ c.whileCond block bodyEntry ++ ") \x7b")).deeper.enterLoop ⟨b, exit⟩) :=
      ⟨(hloop.ready hs).bounded, (hloop.ready hs).enough⟩
    obtain ⟨s₁, hrun₁, h₁⟩ := hgo.run hready b fun _ => Entered.target hregion (x := bodyEntry) (by simp [Region.targets])
    simp only [if_neg hbody, hrun₁, bind, Option.bind, pure]
    exact ⟨_, _, rfl, hclose _ (hloop.trans h₁.loop), hmerge hregion (by simp [Region.targets])⟩
  · rename_i bodyEntry condBlock exit hregion
    -- a do-while region is rooted at its body
    simp [defers, hregion, (c.rooted b bodyEntry condBlock exit hregion).1] at hdefers
  · rename_i cases merge hregion
    obtain ⟨s₁, hrun₁, h₁⟩ := emitCase_emits hgo merge cases (fun entry hentry => .case hregion hentry)
      ((Emits.say s ("switch (" ++ c.switchVal block ++ ") \x7b")).ready hs)
    simp only [hrun₁, bind, Option.bind, pure]
    exact ⟨_, _, rfl, ((Emits.say s _).trans h₁).trans (Emits.say s₁ _), hmerge hregion (by simp [Region.targets])⟩
  · rename_i hregion
    exact emitUnstructuredTerm_emits hgo hs hb hregion stop

theorem enter_out (s : EmitState) (b : Nat) (block : SsaBlock) :
    ∃ before, (enter s b block).out = s.out ++ before ∧ (∀ line ∈ before, line.source = none) ∧
      (enter s b block).emitted = insert b s.emitted ∧ (enter s b block).loopStack = s.loopStack := by
  unfold enter
  dsimp only
  split
  · exact ⟨[_], rfl, by simp, rfl, rfl⟩
  · exact ⟨[], by simp [EmitState.mark], by simp, rfl, rfl⟩

/-- A block that is printed inside of the loop it heads. -/
def printLoop (c : Emitter) (s : EmitState) (b : Nat) (block : SsaBlock) (frame : LoopFrame) (text : String) : EmitState :=
  (c.print (((enter s b block).say text).deeper.enterLoop frame) block).leaveLoop.back.say "\x7d"

theorem Emits.printLoop (hb : c.ssa.blocks[b]? = some block) (hfresh : b ∉ s.emitted)
    (frame : LoopFrame) (text : String) : Emits c s (c.printLoop s b block frame text) := by
  obtain ⟨before, hout, hbefore, hemitted, hstack⟩ := enter_out s b block
  refine Emits.enter ((Emitter.enter s b block).indent + 1)
    (before ++ [⟨ind (Emitter.enter s b block).indent ++ text ++ "\n", none⟩])
    [⟨ind (Emitter.enter s b block).indent ++ "\x7d" ++ "\n", none⟩] hb hfresh hemitted hstack ?_ ?_ ?_
  · simp [Emitter.printLoop, EmitState.say, EmitState.push, EmitState.back, EmitState.leaveLoop, EmitState.enterLoop,
      EmitState.deeper, Emitter.print, hout]
  · intro line hline
    rcases List.mem_append.mp hline with hline | hline
    · exact hbefore line hline
    · rw [List.mem_singleton.mp hline]
  · intro line hline
    rw [List.mem_singleton.mp hline]

/-- A self-headed loop: the latch is lost here. -/
theorem emitShape_emits_deferred (go : Walk) (hb : c.ssa.blocks[b]? = some block)
    (hfresh : b ∉ s.emitted) (hdefers : c.defers b) (stop : Nat) :
    ∃ s' next, c.emitShape go (enter s b block) b block stop = some (s', next) ∧ Emits c s s' ∧ b ∈ s'.emitted ∧
      ∀ x, next = some x → Entered c x := by
  have hmerge : ∀ {region : Region} {merge : Nat}, c.regions b = some region → merge ∈ region.targets →
      ∀ x, c.nextAfterMerge merge = some x → Entered c x :=
    fun hregion hmem x hx => nextAfterMerge_eq hx ▸ Entered.target hregion hmem
  have hbound := (List.getElem?_eq_some_iff.mp hb).1
  have hmem : ∀ frame text, b ∈ (c.printLoop s b block frame text).emitted := by
    intro frame text
    obtain ⟨-, -, -, hemitted, -⟩ := enter_out s b block
    show b ∈ (enter s b block).emitted
    rw [hemitted]
    exact Finset.mem_insert_self _ _
  unfold defers at hdefers
  unfold emitShape
  split at hdefers
  · rename_i bodyEntry condBlock exit hregion
    obtain ⟨rfl, hcond⟩ := c.rooted b bodyEntry condBlock exit hregion
    simp only [hregion, List.getElem?_eq_getElem hcond, hb, true_or, if_true, bind, Option.bind, pure]
    refine ⟨_, _, rfl, ?_, Finset.mem_insert_of_mem (Finset.mem_insert_self _ _), hmerge hregion (by simp [Region.targets])⟩
    have hloop := Emits.printLoop hb hfresh ⟨bodyEntry, exit⟩
      ("while (" ++ c.doWhileCondStr c.ssa.blocks[condBlock] bodyEntry ++ ") \x7b")
    refine (hloop.trans (Emits.mark _ hbound (.inl (hmem _ _)))).trans (Emits.mark _ hcond ?_)
    by_cases hself : condBlock = bodyEntry
    · exact .inl (Finset.mem_insert.mpr (.inl hself))
    · exact .inr (.inl (.latch hregion hself))
  · rename_i bodyEntry exit hregion
    obtain rfl : bodyEntry = b := by simpa using hdefers
    simp only [hregion, if_true, bind, Option.bind, pure]
    exact ⟨_, _, rfl, Emits.printLoop hb hfresh _ _, hmem ⟨bodyEntry, exit⟩ "", hmerge hregion (by simp [Region.targets])⟩
  · cases hdefers

theorem detectShortCircuit_second {ssa : SsaFunction} {found : ShortCircuit × Nat × Nat × Nat}
    (h : detectShortCircuit ssa block = some found) : found.2.1 ≠ block.id ∧ found.2.1 < ssa.blocks.length := by
  have hsecond : ∀ {x : Nat} {arms : Nat × Nat},
      (if x = block.id then none else (ssa.blocks[x]?).bind SsaBlock.cbranchArms) = some arms →
        x ≠ block.id ∧ x < ssa.blocks.length := by
    intro x arms hx
    split at hx
    · cases hx
    · rename_i hne
      obtain ⟨b, hb, -⟩ := Option.bind_eq_some_iff.mp hx
      exact ⟨hne, (List.getElem?_eq_some_iff.mp hb).1⟩
  unfold detectShortCircuit at h
  split at h
  · cases h
  rename_i f1 t1 _
  dsimp only at h
  rcases Option.or_eq_some_iff.mp h with hfall | ⟨-, htaken⟩
  · split at hfall
    · rename_i hx
      split at hfall
      · cases hfall
        exact hsecond hx
      · cases hfall
    · cases hfall
  · split at htaken
    · rename_i hx
      split at htaken
      · cases htaken
        exact hsecond hx
      · cases htaken
    · cases htaken

theorem shortCircuit_second {folded : String × ShortCircuit × Nat × Nat}
    (hb : c.ssa.blocks[b]? = some block) (h : c.shortCircuit block = some folded) :
    folded.2.2.1 ≠ b ∧ folded.2.2.1 < c.ssa.blocks.length := by
  unfold shortCircuit at h
  obtain ⟨found, hfound, hcond⟩ := Option.bind_eq_some_iff.mp h
  obtain ⟨cond, -, heq⟩ := Option.bind_eq_some_iff.mp hcond
  have hsecond := detectShortCircuit_second hfound
  rw [c.ssa.id_eq b block hb] at hsecond
  cases heq
  exact hsecond

/-- A folded pair of branches: the second block is lost here. -/
theorem emitFolded_emits (hgo : Walks c fuel go) (hs : Ready c fuel s)
    {folded : String × ShortCircuit × Nat × Nat} (hb : c.ssa.blocks[b]? = some block)
    (hfolded : c.shortCircuit block = some folded) :
    ∃ s' next text, c.emitFolded go s b folded = some (s', next) ∧ Emits c s ((s.say text).mark folded.2.2.1) ∧
      Emits c ((s.say text).mark folded.2.2.1) s' ∧ ∀ x, next = some x → Entered c x := by
  have hbound := (shortCircuit_second hb hfolded).2
  obtain ⟨cond, op, second, target⟩ := folded
  have hmerge : ∀ x, c.nextAfterMerge (c.foldedMerge b target) = some x → Entered c x := by
    intro x hx
    rw [nextAfterMerge_eq hx]
    unfold foldedMerge
    split
    · rename_i hregion
      exact Entered.target hregion (by simp [Region.targets])
    · rename_i hregion
      exact Entered.target hregion (by simp [Region.targets])
    · rename_i hregion
      exact Entered.target hregion (by simp [Region.targets])
    · exact Entered.folded hb hfolded
  let text := "if (" ++ c.foldedText cond op second ++ ") \x7b"
  have hmark : Emits c s ((s.say text).mark second) :=
    (Emits.say s text).trans (Emits.mark _ hbound (.inr (.inl (.second hb hfolded))))
  have hdeeper := Emits.deeper (c := c) ((s.say text).mark second)
  unfold emitFolded
  dsimp only
  split
  · obtain ⟨s₁, hrun, h₁⟩ := hgo.run ((hmark.trans hdeeper).ready hs) (c.foldedMerge b target)
      (b := target) fun _ => Entered.folded hb hfolded
    simp only [bind, Option.bind, pure]
    rw [hrun]
    exact ⟨_, _, text, rfl, hmark, ((hdeeper.trans h₁).trans (Emits.back _)).trans (Emits.say _ _), hmerge⟩
  · exact ⟨_, _, text, rfl, hmark, (hdeeper.trans (Emits.back _)).trans (Emits.say _ _), hmerge⟩

/-! ## The walk -/

/-- A block that the walk enters. Deferred statements are lost if the branch is folded. -/
theorem visit_emits (hb : c.ssa.blocks[b]? = some block) (hfresh : b ∉ s.emitted)
    (hdefers : c.defers b → (c.shortCircuit block).isSome) :
    Emits c s (c.visit s b block) ∧ b ∈ (c.visit s b block).emitted ∧
      ∀ line ∈ (c.visit s b block).out, line ∈ s.out ∨ ∀ x i, line.source = some (x, i) → x = b := by
  obtain ⟨before, hout, hbefore, hemitted, hstack⟩ := enter_out s b block
  have hmem : b ∈ (enter s b block).emitted := by
    rw [hemitted]
    exact Finset.mem_insert_self _ _
  have hlabel : ∀ line ∈ (enter s b block).out, line ∈ s.out ∨ ∀ x i, line.source = some (x, i) → x = b := by
    intro line hline
    rw [hout] at hline
    rcases List.mem_append.mp hline with hline | hline
    · exact .inl hline
    · exact .inr fun x i hsource => by simp [hbefore line hline] at hsource
  unfold visit
  split
  · rename_i hself
    refine ⟨⟨hstack, hemitted ▸ Finset.subset_insert _ _, ⟨before, hout, ?_⟩, ?_⟩, hmem, hlabel⟩
    · intro line hline x i hsource
      rw [hbefore line hline] at hsource
      cases hsource
    · intro x hx
      rw [hemitted, Finset.mem_insert] at hx
      rcases hx with rfl | hx
      · exact .inr ⟨(List.getElem?_eq_some_iff.mp hb).1, .inl (.header hb hself (hdefers hself))⟩
      · exact .inl hx
  · refine ⟨Emits.enter (enter s b block).indent before [] hb hfresh hemitted hstack (by simp [print, hout]) hbefore
      (by simp), hmem, ?_⟩
    intro line hline
    rcases List.mem_append.mp hline with hline | hline
    · exact hlabel line hline
    · refine .inr fun x i hsource => ?_
      obtain ⟨j, hj⟩ := mem_emitBlockStatements hline
      rw [hj, Option.some.injEq, Prod.mk.injEq, c.ssa.id_eq b block hb] at hsource
      exact hsource.1.symm

section Enter

variable {fuel : Nat} {go : Walk} (hgo : Walks c fuel go) (hs : Bounded c s) {b : Nat} {block : SsaBlock} {stop : Nat}
  (hb : c.ssa.blocks[b]? = some block) (hfresh : b ∉ s.emitted) (hstop : ¬ (b = stop ∨ b = c.ve))
  (hexit : ¬ s.loopStack.head?.any fun frame => frame.exit = b) (hfuel : 2 * c.left s ≤ fuel)
include hgo hs hb hfresh hstop hexit hfuel

/-- A block whose branch is folded with the next one. -/
theorem round_folds {folded : String × ShortCircuit × Nat × Nat} (hfolded : c.shortCircuit block = some folded) :
    ∃ s' next text, c.round go s b stop = some (s', next) ∧ Emits c s (c.visit s b block) ∧ b ∈ s'.emitted ∧
      Emits c (c.visit s b block) (((c.visit s b block).say text).mark folded.2.2.1) ∧
      Emits c (((c.visit s b block).say text).mark folded.2.2.1) s' ∧ ∀ x, next = some x → Entered c x := by
  obtain ⟨hvisit, hmem, -⟩ := visit_emits hb hfresh fun _ => by rw [hfolded]; rfl
  have hlt := hvisit.left_lt hs hfresh hmem
  have hready : Ready c fuel (c.visit s b block) := ⟨hvisit.bounded hs, by omega⟩
  obtain ⟨s', next, text, hrun, hmark, hrest, hnext⟩ := emitFolded_emits hgo hready hb hfolded
  refine ⟨s', next, text, ?_, hvisit, (hmark.trans hrest).marked hmem, hmark, hrest, hnext⟩
  unfold round
  simp only [if_neg hstop, hb, if_neg hexit, if_neg hfresh, hfolded, hrun]

/-- One round at a block that was not emitted before. -/
theorem round_enters :
    ∃ s' next, c.round go s b stop = some (s', next) ∧ Emits c s s' ∧ b ∈ s'.emitted ∧
      ∀ x, next = some x → Entered c x := by
  cases hfolded : c.shortCircuit block with
  | some folded =>
    obtain ⟨s', next, text, hrun, hvisit, hmem, hmark, hrest, hnext⟩ :=
      round_folds hgo hs hb hfresh hstop hexit hfuel hfolded
    exact ⟨s', next, hrun, (hvisit.trans hmark).trans hrest, hmem, hnext⟩
  | none =>
    unfold round
    simp only [if_neg hstop, hb, if_neg hexit, if_neg hfresh, hfolded]
    cases hdefers : c.defers b with
    | true =>
      obtain ⟨s', next, hrun, h⟩ := emitShape_emits_deferred go hb hfresh hdefers stop
      exact ⟨s', next, by unfold visit; rw [if_pos hdefers]; exact hrun, h⟩
    | false =>
      obtain ⟨hvisit, hmem, -⟩ := visit_emits (s := s) hb hfresh fun h => by rw [hdefers] at h; cases h
      have hlt := hvisit.left_lt hs hfresh hmem
      obtain ⟨s', next, hrun, hall, hnext⟩ := emitShape_emits hgo ⟨hvisit.bounded hs, by omega⟩ hb hdefers stop
      exact ⟨s', next, hrun, hvisit.trans hall, hall.marked hmem, hnext⟩

end Enter

/-- One round: the walk goes on only behind a block it has entered. -/
theorem round_emits {fuel : Nat} {go : Walk} (hgo : Walks c fuel go) (hs : Bounded c s) (b stop : Nat)
    (hfuel : if b ∈ s.emitted then Entered c b ∧ 2 * c.left s + 2 ≤ fuel + 1 else 2 * c.left s + 1 ≤ fuel + 1) :
    ∃ s' next, c.round go s b stop = some (s', next) ∧ Emits c s s' ∧
      ∀ x, next = some x → Entered c x ∧ Ready c fuel s' := by
  have hends : ∀ {s₁ : EmitState}, Emits c s s₁ →
      Emits c s s₁ ∧ ∀ x, none = some x → Entered c x ∧ Ready c fuel s₁ :=
    fun h => ⟨h, by simp⟩
  by_cases hstop : b = stop ∨ b = c.ve
  · exact ⟨s, none, by unfold round; rw [if_pos hstop], hends (Emits.refl s)⟩
  cases hb : c.ssa.blocks[b]? with
  | none => exact ⟨s, none, by unfold round; simp only [if_neg hstop, hb], hends (Emits.refl s)⟩
  | some block =>
    by_cases hexit : s.loopStack.head?.any fun frame => frame.exit = b
    · refine ⟨s.say LoopKw.break.text, none, ?_, hends (Emits.say s _)⟩
      unfold round
      simp only [if_neg hstop, hb, if_pos hexit]
    by_cases hmem : b ∈ s.emitted
    · rw [if_pos hmem] at hfuel
      obtain ⟨s', hrun, hemits⟩ := emitRejoin_emits hgo hs (by omega) stop hmem hfuel.1
      refine ⟨s', none, ?_, hends hemits⟩
      unfold round
      simp only [if_neg hstop, hb, if_neg hexit, if_pos hmem, hrun, Option.map_some]
    · rw [if_neg hmem] at hfuel
      obtain ⟨s', next, hrun, hemits, hentered, hnext⟩ :=
        round_enters hgo hs hb hmem hstop hexit (show 2 * c.left s ≤ fuel by omega)
      have hlt := hemits.left_lt hs hmem hentered
      exact ⟨s', next, hrun, hemits, fun x hx => ⟨hnext x hx, hemits.bounded hs, by omega⟩⟩

variable (c)

/-- The walk ends, with two rounds of fuel for every block not yet emitted. -/
theorem emitRegion_walks (fuel : Nat) : Walks c fuel (c.emitRegion fuel) := by
  induction fuel with
  | zero =>
    intro s b stop _ hfuel
    split at hfuel <;> omega
  | succ fuel ih =>
    intro s b stop hs hfuel
    obtain ⟨s₁, next, hround, hemits, hnext⟩ := round_emits ih hs b stop hfuel
    unfold emitRegion
    rw [hround]
    cases next with
    | none => exact ⟨s₁, rfl, hemits⟩
    | some x =>
      obtain ⟨hentered, hready⟩ := hnext x rfl
      obtain ⟨s₂, hrun, hemits'⟩ := ih.run hready stop fun _ => hentered
      exact ⟨s₂, hrun, hemits.trans hemits'⟩

variable {c}

/-- A walk that starts at a block not yet emitted, outside of loops, emits it. -/
theorem emitRegion_enters {b : Nat} {block : SsaBlock} (hs : Bounded c s) (hstack : s.loopStack = [])
    (hb : c.ssa.blocks[b]? = some block) (hfresh : b ∉ s.emitted) :
    ∃ s', c.emitRegion (2 * c.ssa.blocks.length + 2) s b c.ve = some s' ∧ Emits c s s' ∧ b ∈ s'.emitted := by
  have hbound := (List.getElem?_eq_some_iff.mp hb).1
  have hleft : c.left s ≤ c.ssa.blocks.length := Nat.sub_le _ _
  have hve : ¬ (b = c.ve ∨ b = c.ve) := by
    unfold ve
    omega
  obtain ⟨s₁, next, hround, hemits, hmem, hnext⟩ :=
    round_enters (c.emitRegion_walks (2 * c.ssa.blocks.length + 1)) hs hb hfresh hve (by simp [hstack])
      (show 2 * c.left s ≤ 2 * c.ssa.blocks.length + 1 by omega)
  unfold emitRegion
  rw [hround]
  cases next with
  | none => exact ⟨s₁, rfl, hemits, hmem⟩
  | some x =>
    have hlt := hemits.left_lt hs hfresh hmem
    have hready : Ready c (2 * c.ssa.blocks.length + 1) s₁ := ⟨hemits.bounded hs, by omega⟩
    obtain ⟨s₂, hrun, hemits'⟩ := (c.emitRegion_walks _).run hready c.ve fun _ => hnext x rfl
    exact ⟨s₂, hrun, hemits.trans hemits', hemits'.marked hmem⟩

/-! ## The function -/

theorem isControl_eq (op : SsaOp) : op.isControl = (op.isTerminator || op.isPhi) := by
  unfold SsaOp.isControl SsaOp.isTerminator SsaOp.isPhi
  cases op.kind with
  | phi out args => rfl
  | pcode pcode => cases pcode <;> rfl

theorem hasSurface_of_not_forwarding {block : SsaBlock} (h : ¬ block.isForwarding) : hasSurface block := by
  unfold SsaBlock.isForwarding at h
  rw [List.all_eq_true] at h
  push Not at h
  obtain ⟨op, hop, hshown⟩ := h
  rw [isControl_eq] at hshown
  refine List.any_eq_true.mpr ⟨op, hop, ?_⟩
  simp only [ne_eq, Bool.or_eq_true, not_or, Bool.not_eq_true] at hshown
  simp [hshown]

theorem sweepBlock_emits (hs : Bounded c s) (hstack : s.loopStack = []) {b : Nat} (hbound : b < c.ssa.blocks.length) :
    ∃ s', c.sweepBlock s b = some s' ∧ Emits c s s' ∧ b ∈ s'.emitted := by
  have hb := List.getElem?_eq_getElem hbound
  have hskip : c.ssa.blocks[b].isForwarding → Emits c s (s.mark b) := fun h =>
    Emits.mark s hbound (.inr (.inr (printed_of_forwarding hb h _)))
  unfold sweepBlock
  split
  · rename_i hmem
    exact ⟨s, rfl, Emits.refl s, hmem⟩
  rename_i hfresh
  simp only [hb]
  split
  · rename_i hjump
    have hforwarding : c.ssa.blocks[b].isForwarding := by
      unfold SsaBlock.isJumpOnly at hjump
      exact (Bool.and_eq_true_iff.mp hjump).2
    exact ⟨_, rfl, hskip hforwarding, Finset.mem_insert_self _ _⟩
  split
  · rename_i hforwarding
    exact ⟨_, rfl, hskip hforwarding, Finset.mem_insert_self _ _⟩
  rename_i hforwarding
  have hsurface := hasSurface_of_not_forwarding hforwarding
  rw [if_pos hsurface]
  unfold emitFlatBlock
  rw [if_neg hfresh]
  exact emitRegion_enters hs hstack hb hfresh

theorem sweep_emits (bs : List Nat) (hbs : ∀ b ∈ bs, b < c.ssa.blocks.length) (hs : Bounded c s)
    (hstack : s.loopStack = []) :
    ∃ s', bs.foldlM c.sweepBlock s = some s' ∧ Emits c s s' ∧ ∀ b ∈ bs, b ∈ s'.emitted := by
  induction bs generalizing s with
  | nil => exact ⟨s, rfl, Emits.refl s, by simp⟩
  | cons b rest ih =>
    obtain ⟨s₁, hrun, hemits, hmem⟩ := sweepBlock_emits hs hstack (hbs b List.mem_cons_self)
    obtain ⟨s₂, hrest, hemits', hall⟩ := ih (fun x hx => hbs x (List.mem_cons_of_mem _ hx)) (hemits.bounded hs)
      (hemits.stack.trans hstack)
    refine ⟨s₂, by rw [List.foldlM_cons, hrun]; exact hrest, hemits.trans hemits', ?_⟩
    intro x hx
    rcases List.mem_cons.mp hx with rfl | hx
    · exact hemits'.marked hmem
    · exact hall x hx

variable (c)

theorem bounded_opened : Bounded c c.opened := by
  intro b hb
  simp [opened] at hb

variable {c}

/-- The residual blocks and the last brace. -/
theorem emitLines_of_walk {s₁ : EmitState} (hwalk : c.emitWalk = some s₁) (hs : Bounded c s₁)
    (hstack : s₁.loopStack = []) :
    ∃ s₂, c.emitLines = some s₂.out ∧ Emits c s₁ s₂ ∧ ∀ b < c.ssa.blocks.length, b ∈ s₂.emitted := by
  obtain ⟨s₂, hsweep, hemits, hall⟩ := sweep_emits (List.range c.ssa.blocks.length)
    (fun b hb => List.mem_range.mp hb) hs hstack
  refine ⟨s₂.push "\x7d\n", ?_, hemits.trans (Emits.push s₂ _), fun b hb => hall b (List.mem_range.mpr hb)⟩
  unfold emitLines
  simp only [hwalk, hsweep, bind, Option.bind, pure]

variable (c)

/-- The emitter ends, and in the end every block is printed or swallowed. -/
theorem emitLines_settled :
    ∃ lines, c.emitLines = some lines ∧ ∀ b < c.ssa.blocks.length, Swallows c b ∨ Printed c lines b := by
  obtain ⟨s₁, hwalk, hemits₁⟩ : ∃ s₁, c.emitWalk = some s₁ ∧ Emits c c.opened s₁ := by
    unfold emitWalk
    split
    · exact ⟨_, rfl, Emits.refl _⟩
    · refine c.emitRegion_walks _ c.opened c.ssa.start c.ve c.bounded_opened ?_
      have hleft : c.left c.opened = c.ssa.blocks.length := rfl
      rw [if_neg (by simp [opened])]
      omega
  obtain ⟨s₂, hlines, hemits₂, hall⟩ := emitLines_of_walk hwalk (hemits₁.bounded c.bounded_opened) hemits₁.stack
  refine ⟨s₂.out, hlines, fun b hb => ?_⟩
  rcases (hemits₁.trans hemits₂).settled b (hall b hb) with hmem | hdone
  · simp [opened] at hmem
  · exact hdone.2

/-- A function from the operations, the predecessors and the successors of its blocks. -/
def functionOf (shapes : List (List SsaOpKind × List Nat × List Nat)) : SsaFunction where
  entryVa := 0x1000
  bitness := 64
  blocks := shapes.mapIdx fun i shape =>
    { id := i
      entryVa := 0x1000 + 16 * i
      ops := shape.1.map fun kind => ⟨0x1000 + 16 * i, kind, none, [], by simp⟩
      predecessorIds := shape.2.1
      successorIds := shape.2.2 }
  imageBase := 0
  id_eq := by
    intro i b hb
    rw [List.getElem?_mapIdx] at hb
    obtain ⟨shape, -, rfl⟩ := Option.map_eq_some_iff.mp hb
    rfl

/-- A rendering that shows no names. -/
def bareRendering : Rendering where
  header := ["void f() \x7b\n"]
  inlineExprs := fun _ => none
  renderVarnode := fun _ _ _ => "v"
  renderStackPtr := fun _ _ _ => "p"
  renderCallTarget := fun _ _ _ => "t"
  stackSlotName := fun _ => "local"
  callArguments := fun _ _ => none
  renderOpExpr := fun _ => "e"
  exprIsBareName := fun _ => true
  typedLhs := fun _ _ => "x"
  simplifyPredicateExpr := id
  emitReturn := fun _ indent => ind indent ++ "return;\n"

/-- The target of a branch or a call. -/
def codeAt (offset : Nat) : Varnode := ⟨.ram, offset, 8⟩

def flagAt (offset : Nat) : Varnode := ⟨.register, offset, 1⟩

/-- `if (v) { } else { call(t); } return;` -/
def branchedCall : Emitter where
  ssa := functionOf [([.pcode (.cbranch (codeAt 0x1020) (flagAt 0x200))], [], [1, 2]),
    ([.pcode (.call (codeAt 0x2000)), .pcode (.branch (codeAt 0x1030))], [0], [3]),
    ([.pcode (.branch (codeAt 0x1030))], [0], [3]), ([.pcode (.ret (codeAt 0))], [1, 2], [])]
  regions := fun b => if b = 0 then some (.ifThen 1 3 true) else if b = 3 then some .ret else none
  rendering := bareRendering
  rooted := by
    intro b body cond exit h
    split at h
    · cases h
    split at h
    · cases h
    · cases h

theorem branchedCall_keeps {b : Nat} (hone : b = 1) : ¬ Swallows branchedCall b := by
  intro hswallows
  have hblock : ∀ (x : Nat) (block : SsaBlock), branchedCall.ssa.blocks[x]? = some block → branchedCall.shortCircuit block = none := by
    intro x block hx
    match x with
    | 0 => cases hx; rfl
    | 1 => cases hx; rfl
    | 2 => cases hx; rfl
    | 3 => cases hx; rfl
    | _ + 4 => cases hx
  cases hswallows with
  | second hb hfolded => rw [hblock _ _ hb] at hfolded; cases hfolded
  | latch hregion =>
    unfold branchedCall at hregion
    dsimp only at hregion
    split at hregion
    · cases hregion
    split at hregion
    · cases hregion
    · cases hregion
  | header hb hdefers => subst hone; cases hdefers
  | returns hb hreturn =>
    subst hone
    cases hb
    cases hreturn

/-- Marked as emitted, and not printed. -/
def Lost (s : EmitState) (b : Nat) : Prop := b ∈ s.emitted ∧ ∀ line ∈ s.out, ∀ i, line.source ≠ some (b, i)

variable {c}

/-- What is lost stays lost. -/
theorem Emits.lost {b : Nat} (h : Emits c s s') (hlost : Lost s b) : Lost s' b := by
  refine ⟨h.marked hlost.1, ?_⟩
  obtain ⟨new, hout, hnew⟩ := h.lines
  intro line hline i hsource
  rw [hout] at hline
  rcases List.mem_append.mp hline with hline | hline
  · exact hlost.2 line hline i hsource
  · exact hnew line hline b i hsource hlost.1

/-- Of a pair of branches folded at the start of the function, the second block is never
printed. -/
theorem emitLines_folds_start {block : SsaBlock} {folded : String × ShortCircuit × Nat × Nat}
    (hb : c.ssa.blocks[c.ssa.start]? = some block) (hfolded : c.shortCircuit block = some folded) :
    ∃ lines, c.emitLines = some lines ∧ ∀ line ∈ lines, ∀ i, line.source ≠ some (folded.2.2.1, i) := by
  have hbound := (List.getElem?_eq_some_iff.mp hb).1
  have hfresh : c.ssa.start ∉ c.opened.emitted := by simp [opened]
  have hve : ¬ (c.ssa.start = c.ve ∨ c.ssa.start = c.ve) := by
    unfold ve
    omega
  have hleft : c.left c.opened = c.ssa.blocks.length := rfl
  obtain ⟨-, hmem, hlines⟩ := visit_emits (s := c.opened) hb hfresh fun _ => by rw [hfolded]; rfl
  obtain ⟨s₁, next, text, hround, hvisit, hstart, hmark, hrest, hnext⟩ :=
    round_folds (c.emitRegion_walks (2 * c.ssa.blocks.length + 1)) c.bounded_opened hb hfresh hve (by simp [opened])
      (show 2 * c.left c.opened ≤ 2 * c.ssa.blocks.length + 1 by omega) hfolded
  have hemits := (hvisit.trans hmark).trans hrest
  -- until the second block is marked, only the first one is printed
  have hlost : Lost (((c.visit c.opened c.ssa.start block).say text).mark folded.2.2.1) folded.2.2.1 := by
    refine ⟨Finset.mem_insert_self _ _, ?_⟩
    intro line hline i hsource
    rcases List.mem_append.mp hline with hline | hline
    · rcases hlines line hline with hopened | hself
      · obtain ⟨text, -, rfl⟩ := List.mem_map.mp hopened
        cases hsource
      · exact (shortCircuit_second hb hfolded).1 (hself _ _ hsource)
    · rw [List.mem_singleton.mp hline] at hsource
      cases hsource
  obtain ⟨s₂, hwalk, hemits₂⟩ : ∃ s₂, c.emitWalk = some s₂ ∧ Emits c s₁ s₂ := by
    have hnonempty : ¬ c.ssa.blocks.isEmpty := by
      intro hempty
      rw [List.isEmpty_iff.mp hempty] at hbound
      simp at hbound
    unfold emitWalk
    rw [if_neg hnonempty]
    unfold emitRegion
    rw [hround]
    cases next with
    | none => exact ⟨s₁, rfl, Emits.refl s₁⟩
    | some x =>
      have hlt := hemits.left_lt c.bounded_opened hfresh hstart
      exact (c.emitRegion_walks _).run ⟨hemits.bounded c.bounded_opened, by omega⟩ c.ve fun _ => hnext x rfl
  have hall := hemits.trans hemits₂
  obtain ⟨s₃, hemitted, hemits₃, -⟩ := emitLines_of_walk hwalk (hall.bounded c.bounded_opened) hall.stack
  exact ⟨s₃.out, hemitted, (((hrest.trans hemits₂).trans hemits₃).lost hlost).2⟩

/-- `if (!v) { call(t); if (!w) return; } return;`, a call between two branches. -/
def foldedCall : Emitter where
  ssa := functionOf [([.pcode (.cbranch (codeAt 0x1030) (flagAt 0x200))], [], [1, 3]),
    ([.pcode (.call (codeAt 0x2000)), .pcode (.cbranch (codeAt 0x1030) (flagAt 0x201))], [0], [2, 3]),
    ([.pcode (.ret (codeAt 0))], [1], []), ([.pcode (.ret (codeAt 0))], [0, 1], [])]
  regions := fun b =>
    if b = 0 then some (.ifThenFallthrough 3 1 4 false)
    else if b = 1 then some (.ifThenFallthrough 3 2 4 false)
    else if b < 4 then some .ret
    else none
  rendering := bareRendering
  rooted := by
    intro b body cond exit h
    split at h
    · cases h
    split at h
    · cases h
    split at h
    · cases h
    · cases h

end Structure.Emitter

end Windy.Decompiler
