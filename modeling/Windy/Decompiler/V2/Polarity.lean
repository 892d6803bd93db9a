import Windy.Decompiler.Structure.DualModel
import Windy.Decompiler.Structure.Effects
import Windy.Decompiler.V2.RegionAst

/- The polarity of the conditions that are extracted (`v2/region_ast.rs`, `walk_region`).

   A branch becomes the condition of an if or of a loop. The walk reads the condition of the
   block it is at, and puts a `!` before it or not. It keeps its polarity if it is true
   exactly when the branch leads into the then-body or back into the loop.

   What is proved:
     1. `applyMoves_regionFits`: a classified region says which arm of the branch is its
        body, and moves keep that.
     2. `polarity_iff`: the polarity is kept exactly if the arms differ, for an if; if a `!`
        is there just when the body is the arm of the false condition, for a while; and if
        the header itself branches back when its condition is true, for a do-while.

   Correspondence:
     `while_continue_is_not_cond` && `is_eq_zero_style_cond` ↔ `whileNegated`
     the conditions of `walk_region` ↔ `turned` -/
namespace Windy.Decompiler.V2

/-! ## Regions and arms -/

/-- The blocks a branch leads to when its condition is false and when it is true. -/
def branchTargets (ssa : SsaFunction) (block : SsaBlock) : Option (Nat × Nat) :=
  block.cbranchArms.map fun arms => (resolveJumpTarget ssa arms.1 16, resolveJumpTarget ssa arms.2 16)

/-- The entries of a region are the arms of the branch, the then-body that of the true
condition unless it is inverted. -/
def RegionFits (ssa : SsaFunction) (b : Nat) (block : SsaBlock) : Region → Prop
  | .ifElse thenEntry elseEntry _ invert | .ifThenFallthrough thenEntry elseEntry _ invert =>
    branchTargets ssa block = some (if invert then (thenEntry, elseEntry) else (elseEntry, thenEntry))
  | .ifThen bodyEntry _ invert =>
    ∃ other, branchTargets ssa block = some (if invert then (bodyEntry, other) else (other, bodyEntry))
  | .while bodyEntry exit =>
    bodyEntry ≠ exit ∧
      (branchTargets ssa block = some (exit, bodyEntry) ∨ branchTargets ssa block = some (bodyEntry, exit))
  | .doWhile bodyEntry condBlock _ =>
    bodyEntry = b ∧ ∃ latch, ssa.blocks[condBlock]? = some latch ∧ (branchTargets ssa latch).isSome
  | .switch _ _ | .ret => True

section Classified
variable {c : Classifier} {b : Nat} {block : SsaBlock} {r : Region}

theorem arms_eq (hresolve : c.resolveArms = true) : c.arms block = branchTargets c.ssa block := by
  simp [Classifier.arms, Classifier.mapArm, hresolve, branchTargets]

theorem selfLoop_fits (hresolve : c.resolveArms = true) (hb : c.ssa.blocks[b]? = some block)
    (h : c.selfLoop b block = some r) : RegionFits c.ssa b block r := by
  unfold Classifier.selfLoop at h
  split at h
  · rename_i fall taken harms
    split at h
    · obtain rfl := Option.some.inj h
      rw [arms_eq hresolve] at harms
      exact ⟨rfl, block, hb, by rw [harms]; rfl⟩
    · cases h
  · cases h

theorem whileLoop_fits (hresolve : c.resolveArms = true) {ls : List Nat} (h : c.whileLoop b ls block = some r) :
    RegionFits c.ssa b block r := by
  unfold Classifier.whileLoop at h
  split at h
  · rename_i fall taken harms
    rw [arms_eq hresolve] at harms
    -- one test tells the arms apart, so they are two
    have hbody : ∀ (test : Nat → Bool), test fall ≠ test taken →
        (if test taken then some (.while taken fall) else some (.while fall taken)) = some r →
          RegionFits c.ssa b block r := by
      intro test htest h
      have hne : fall ≠ taken := fun heq => htest (by rw [heq])
      split at h
      · obtain rfl := Option.some.inj h
        exact ⟨hne.symm, .inl harms⟩
      · obtain rfl := Option.some.inj h
        exact ⟨hne, .inr harms⟩
    dsimp only at h
    split at h
    · rename_i htest
      exact hbody (fun arm => (naturalLoopNodes c.graph b ls).contains arm || arm = b) htest h
    · split at h
      · rename_i htest
        exact hbody (fun arm => ls.any fun l => canReach c.graph arm l b) htest.2.2 h
      · cases h
  · cases h

theorem latch_fits {latch : Nat} {fall taken exit : Nat} (h : c.latchArms latch = some (fall, taken)) :
    RegionFits c.ssa b block (.doWhile b latch exit) := by
  obtain ⟨lblock, hlatch, harms⟩ := Option.bind_eq_some_iff.mp h
  exact ⟨rfl, lblock, hlatch, by rw [branchTargets, harms]; rfl⟩

theorem doWhileLoop_fits {ls : List Nat} (h : c.doWhileLoop b ls = some r) : RegionFits c.ssa b block r := by
  obtain ⟨latch, -, h⟩ := List.exists_of_findSome?_eq_some h
  split at h
  · cases h
  · split at h
    · rename_i fall taken harms
      split at h
      · obtain rfl := Option.some.inj h
        exact latch_fits harms
      · cases h
    · cases h

theorem residualLoop_fits {ls : List Nat} (h : c.residualLoop b ls = some r) : RegionFits c.ssa b block r := by
  obtain ⟨latch, -, h⟩ := List.exists_of_findSome?_eq_some h
  split at h
  · rename_i fall taken harms
    obtain rfl := Option.some.inj h
    exact latch_fits harms
  · cases h

theorem ifRegion_fits (hresolve : c.resolveArms = true) (h : c.ifRegion b block = some r) : RegionFits c.ssa b block r := by
  unfold Classifier.ifRegion at h
  split at h
  · rename_i fall taken harms
    rw [arms_eq hresolve] at harms
    dsimp only at h
    split at h
    · obtain rfl := Option.some.inj h
      exact harms
    · split at h
      · obtain rfl := Option.some.inj h
        exact ⟨fall, harms⟩
      · split at h
        · obtain rfl := Option.some.inj h
          exact ⟨taken, harms⟩
        · cases h
  · cases h

/-- What a block has before loops and branches are looked at. -/
theorem before_fits (h : (c.switchRegion b block).or (Classifier.returnRegion block) = some r) :
    RegionFits c.ssa b block r := by
  rcases Option.or_eq_some_iff.mp h with h | ⟨-, h⟩
  · unfold Classifier.switchRegion at h
    split at h
    · obtain rfl := Option.some.inj h
      trivial
    · cases h
  · unfold Classifier.returnRegion at h
    split at h
    · obtain rfl := Option.some.inj h
      trivial
    · cases h

theorem loopRegion_fits (hresolve : c.resolveArms = true) (hb : c.ssa.blocks[b]? = some block)
    {before : Option Region} (hbefore : ∀ r, before = some r → RegionFits c.ssa b block r)
    (h : c.loopRegion b block before = some r) : RegionFits c.ssa b block r := by
  unfold Classifier.loopRegion at h
  split at h
  · exact hbefore r h
  · rename_i ls _
    rcases Option.or_eq_some_iff.mp h with h | ⟨-, h⟩
    · exact selfLoop_fits hresolve hb h
    rcases Option.or_eq_some_iff.mp h with h | ⟨-, h⟩
    · exact whileLoop_fits hresolve h
    rcases Option.or_eq_some_iff.mp h with h | ⟨-, h⟩
    · exact doWhileLoop_fits h
    rcases Option.or_eq_some_iff.mp h with h | ⟨-, h⟩
    · exact hbefore r h
    · exact residualLoop_fits h

theorem classify_fits (hresolve : c.resolveArms = true) (hb : c.ssa.blocks[b]? = some block)
    (h : classifyWithAdj c b = some r) : RegionFits c.ssa b block r := by
  simp only [classifyWithAdj, hb] at h
  rcases Option.or_eq_some_iff.mp h with h | ⟨-, h⟩
  · exact loopRegion_fits hresolve hb (fun r => before_fits) h
  · exact ifRegion_fits hresolve h

end Classified

/-! ## Moves -/

section Moves
variable {ssa : SsaFunction}

/-- Swapping the arms and inverting the condition goes together. -/
theorem invertBranch_fits {b : Nat} {block : SsaBlock} {thenEntry elseEntry merge : Nat} {invert : Bool}
    (h : RegionFits ssa b block (.ifElse thenEntry elseEntry merge invert)) :
    RegionFits ssa b block (.ifElse elseEntry thenEntry merge !invert) := by
  cases invert <;> exact h

theorem extractReturn_fits {b : Nat} {block : SsaBlock} {thenEntry elseEntry merge : Nat} {invert : Bool}
    (h : RegionFits ssa b block (.ifElse thenEntry elseEntry merge invert)) :
    RegionFits ssa b block (extractReturn ssa thenEntry elseEntry merge invert) := by
  unfold extractReturn
  split
  · exact h
  · split
    · exact invertBranch_fits h
    · exact h

/-- All regions fit their blocks. -/
def RegionsFit (ssa : SsaFunction) (regions : RegionMap) : Prop :=
  ∀ b block r, ssa.blocks[b]? = some block → regions b = some r → RegionFits ssa b block r

theorem RegionsFit.update {regions : RegionMap} (h : RegionsFit ssa regions) {header : Nat} {r r' : Region}
    (hr : regions header = some r)
    (hnew : ∀ block, RegionFits ssa header block r → RegionFits ssa header block r') :
    RegionsFit ssa (Function.update regions header (some r')) := by
  intro b block q hb hq
  by_cases heq : b = header
  · rw [heq, Function.update_self] at hq
    rw [heq] at hb ⊢
    rw [← Option.some.inj hq]
    exact hnew block (h header block r hb hr)
  · rw [Function.update_of_ne heq] at hq
    exact h b block q hb hq

theorem applyMove_regionFits {regions : RegionMap} (h : RegionsFit ssa regions) (move : RewriteMove × RewriteOutcome) :
    RegionsFit ssa (applyMove ssa regions move) := by
  unfold applyMove
  split
  · exact h
  · split
    · rename_i hr
      exact h.update hr fun _ => invertBranch_fits
    · exact h
  · split
    · rename_i hr
      exact h.update hr fun _ => extractReturn_fits
    · exact h
  · exact h
  · exact h

theorem applyMoves_regionFits {regions : RegionMap} (h : RegionsFit ssa regions)
    (selected : List (RewriteMove × RewriteOutcome)) : RegionsFit ssa (applyMoves ssa regions selected) := by
  induction selected generalizing regions with
  | nil => exact h
  | cons move rest ih => exact ih (applyMove_regionFits h move)

theorem dualRegions_fit (hclosed : ssa.Closed) (switches : List Decompiler.SwitchInfo) :
    RegionsFit ssa (dualRegions ssa hclosed switches) :=
  fun _ _ _ hb hr => classify_fits rfl hb hr

end Moves

/-! ## Conditions -/

/-- What became of a branch: the block whose branch it is, the entry of the then-body or of
the loop body, and whether the condition that is emitted has a `!`. -/
structure Turned where
  branch : Nat
  entry : Nat
  negated : Bool

namespace Extractor
variable (c : Extractor)

/-- Whether the condition of a while gets a `!`. -/
def whileNegated (block : SsaBlock) (bodyEntry exit : Nat) : Bool :=
  (match block.successorIds with
    | fall :: taken :: _ => fall = bodyEntry && taken = exit
    | _ => false) && isEqZeroStyleCond (c.recovery.condExprOfBlock block)

/-- The branch that the walk turns into a condition at a block. A do-while has the branch of
its latch. Without a region, a block with two arms becomes an if. -/
def turned (b : Nat) (block : SsaBlock) : Option Turned :=
  match c.regions b with
  | some (.ifElse thenEntry _ _ invert) | some (.ifThenFallthrough thenEntry _ _ invert) => some ⟨b, thenEntry, invert⟩
  | some (.ifThen bodyEntry _ invert) => some ⟨b, bodyEntry, invert⟩
  | some (.while bodyEntry exit) => some ⟨b, bodyEntry, c.whileNegated block bodyEntry exit⟩
  | some (.doWhile bodyEntry condBlock _) => some ⟨condBlock, bodyEntry, false⟩
  | some (.switch _ _) | some .ret => none
  | none =>
    if block.isCbranch ∧ ¬ block.hasReturn then
      match presentationSuccessors c.ssa block with
      | [_, taken] => some ⟨b, taken, false⟩
      | _ => none
    else none

/-- The condition that is read at a block, before it is normalized. -/
def readCond (block : SsaBlock) (negated : Bool) : Expr :=
  if negated then .unaryOp "!" (c.recovery.condExprOfBlock block) else c.recovery.condExprOfBlock block

end Extractor

/-- The condition of an if or a loop. -/
def Stmt.cond? : Stmt → Option Expr
  | .ifThenElse cond _ _ => some cond
  | .while cond _ => some cond
  | _ => none

namespace Extractor
variable {c : Extractor}

/-- What the walk emits at a block is the condition of that block, normalized or not. -/
theorem walk_cond {fuel depth b stop : Nat} {s s' : WalkState} {stmts : List Stmt} {block : SsaBlock} {t : Turned}
    (hb : c.ssa.blocks[b]? = some block) (hnew : ¬ (b = stop ∨ b ∈ s.emitted))
    (h : c.walk (fuel + 1) depth b stop s = some (stmts, s')) (ht : c.turned b block = some t) :
    ∃ stmt ∈ stmts, stmt.cond? = some (c.readCond block t.negated) ∨
      stmt.cond? = some (c.recovery.normalizeCondExpr (c.readCond block t.negated)) := by
  have hcondOf : ∀ invert, c.condOf block invert = c.recovery.normalizeCondExpr (c.readCond block invert) := fun _ => rfl
  rw [walk, if_neg hnew] at h
  simp only [hb] at h
  unfold turned at ht
  split at h
  · rename_i thenEntry elseEntry merge invert hr
    simp only [hr, Option.some.injEq] at ht
    obtain ⟨⟨thenBody, s₁⟩, -, h⟩ := Option.bind_eq_some_iff.mp h
    obtain ⟨⟨elseBody, s₂⟩, -, h⟩ := Option.bind_eq_some_iff.mp h
    obtain ⟨⟨rest, s₃⟩, -, h⟩ := Option.bind_eq_some_iff.mp h
    obtain ⟨rfl, -⟩ := Prod.mk.inj (Option.some.inj h)
    exact ⟨_, List.mem_append_right _ List.mem_cons_self, .inr (by rw [← ht, ← hcondOf]; rfl)⟩
  · rename_i bodyEntry merge invert hr
    simp only [hr, Option.some.injEq] at ht
    obtain ⟨⟨thenBody, s₁⟩, -, h⟩ := Option.bind_eq_some_iff.mp h
    obtain ⟨⟨rest, s₂⟩, -, h⟩ := Option.bind_eq_some_iff.mp h
    obtain ⟨rfl, -⟩ := Prod.mk.inj (Option.some.inj h)
    exact ⟨_, List.mem_append_right _ List.mem_cons_self, .inr (by rw [← ht, ← hcondOf]; rfl)⟩
  · rename_i bodyEntry merge _ invert hr
    simp only [hr, Option.some.injEq] at ht
    obtain ⟨⟨thenBody, s₁⟩, -, h⟩ := Option.bind_eq_some_iff.mp h
    obtain ⟨⟨rest, s₂⟩, -, h⟩ := Option.bind_eq_some_iff.mp h
    obtain ⟨rfl, -⟩ := Prod.mk.inj (Option.some.inj h)
    exact ⟨_, List.mem_append_right _ List.mem_cons_self, .inr (by rw [← ht, ← hcondOf]; rfl)⟩
  · rename_i bodyEntry exit hr
    simp only [hr, Option.some.injEq] at ht
    obtain ⟨⟨body, s₁⟩, -, h⟩ := Option.bind_eq_some_iff.mp h
    obtain ⟨⟨rest, s₂⟩, -, h⟩ := Option.bind_eq_some_iff.mp h
    obtain ⟨rfl, -⟩ := Prod.mk.inj (Option.some.inj h)
    exact ⟨_, List.mem_cons_self, .inr (by rw [← ht]; rfl)⟩
  · rename_i bodyEntry condBlock exit hr
    simp only [hr, Option.some.injEq] at ht
    obtain ⟨⟨body, s₁⟩, -, h⟩ := Option.bind_eq_some_iff.mp h
    obtain ⟨⟨rest, s₂⟩, -, h⟩ := Option.bind_eq_some_iff.mp h
    obtain ⟨rfl, -⟩ := Prod.mk.inj (Option.some.inj h)
    exact ⟨_, List.mem_cons_self, .inl (by rw [← ht]; rfl)⟩
  · rename_i hr
    simp [hr] at ht
  · rename_i hr
    simp [hr] at ht
  · rename_i hr
    simp only [hr] at ht
    split at ht
    · rename_i hbranch
      rw [if_neg hbranch.2] at h
      split at ht
      · rename_i fall taken hsuccs
        simp only [hsuccs] at h
        obtain ⟨⟨thenBody, s₁⟩, -, h⟩ := Option.bind_eq_some_iff.mp h
        obtain ⟨⟨elseBody, s₂⟩, -, h⟩ := Option.bind_eq_some_iff.mp h
        obtain ⟨rfl, -⟩ := Prod.mk.inj (Option.some.inj h)
        refine ⟨_, List.mem_append_right _ (List.mem_singleton_self _), .inl ?_⟩
        rw [← Option.some.inj ht]
        rfl
      · cases ht
    · cases ht

end Extractor

/-! ## Polarity -/

/-- Where a branch goes if its condition has this outcome. -/
def armOf (targets : Nat × Nat) (outcome : Bool) : Nat := if outcome then targets.2 else targets.1

def LeadsTo (ssa : SsaFunction) (branch entry : Nat) (outcome : Bool) : Prop :=
  ∃ block targets, ssa.blocks[branch]? = some block ∧ branchTargets ssa block = some targets ∧
    armOf targets outcome = entry

/-- Whatever the conditions of the branches are, that of block `b`, with its `!`, is true
exactly if the branch leads to the entry. -/
def PolarityKept (ssa : SsaFunction) (b : Nat) (t : Turned) : Prop :=
  ∀ outcome : Nat → Bool, (outcome b ^^ t.negated) = true ↔ LeadsTo ssa t.branch t.entry (outcome t.branch)

section Kept
variable {ssa : SsaFunction} {b : Nat} {block : SsaBlock} {fall taken : Nat}

theorem leadsTo_iff (hb : ssa.blocks[b]? = some block) (htargets : branchTargets ssa block = some (fall, taken))
    {entry : Nat} {outcome : Bool} : LeadsTo ssa b entry outcome ↔ armOf (fall, taken) outcome = entry := by
  constructor
  · rintro ⟨block', targets, hb', htargets', harm⟩
    rw [hb] at hb'
    obtain rfl := Option.some.inj hb'
    rw [htargets] at htargets'
    rwa [← Option.some.inj htargets'] at harm
  · exact fun h => ⟨block, (fall, taken), hb, htargets, h⟩

/-- A condition of the block's own branch: it is true on the arm to the entry, and the
other arm goes elsewhere. -/
theorem kept_own_iff (hb : ssa.blocks[b]? = some block) (htargets : branchTargets ssa block = some (fall, taken))
    (entry : Nat) (negated : Bool) :
    PolarityKept ssa b ⟨b, entry, negated⟩ ↔
      armOf (fall, taken) (!negated) = entry ∧ armOf (fall, taken) negated ≠ entry := by
  constructor
  · intro h
    have hbranch : ∀ outcome : Bool, (outcome ^^ negated) = true ↔ armOf (fall, taken) outcome = entry := fun outcome =>
      (h fun _ => outcome).trans (leadsTo_iff hb htargets)
    exact ⟨(hbranch (!negated)).mp (by cases negated <;> rfl),
      fun harm => by simpa using (hbranch negated).mpr harm⟩
  · rintro ⟨hentry, hother⟩ outcome
    rw [leadsTo_iff hb htargets]
    show (outcome b ^^ negated) = true ↔ armOf (fall, taken) (outcome b) = entry
    by_cases heq : outcome b = negated
    · simp [heq, hother]
    · rw [Bool.eq_not_of_ne heq]
      simp [hentry]

/-- The arms differ. -/
def Branches (ssa : SsaFunction) (block : SsaBlock) : Prop :=
  ∃ fall taken, fall ≠ taken ∧ branchTargets ssa block = some (fall, taken)

theorem branches_iff (htargets : branchTargets ssa block = some (fall, taken)) : Branches ssa block ↔ fall ≠ taken := by
  constructor
  · rintro ⟨fall', taken', hne, htargets'⟩
    rw [htargets] at htargets'
    obtain ⟨rfl, rfl⟩ := Prod.mk.inj (Option.some.inj htargets')
    exact hne
  · exact fun hne => ⟨fall, taken, hne, htargets⟩

/-- With the `!` on the arm of the false condition it is enough that the arms differ. -/
theorem kept_if_iff (hb : ssa.blocks[b]? = some block) {entry other : Nat} {invert : Bool}
    (htargets : branchTargets ssa block = some (if invert then (entry, other) else (other, entry))) :
    PolarityKept ssa b ⟨b, entry, invert⟩ ↔ Branches ssa block := by
  cases invert with
  | false =>
    rw [kept_own_iff hb htargets, branches_iff htargets]
    simp [armOf]
  | true =>
    rw [kept_own_iff hb htargets, branches_iff htargets]
    simp [armOf, eq_comm]

/-- The body of a while is one of two arms: a `!` belongs there just when it is the arm of
the false condition. -/
theorem kept_while_iff (hb : ssa.blocks[b]? = some block) {entry exit : Nat} (hne : entry ≠ exit)
    (htargets : branchTargets ssa block = some (exit, entry) ∨ branchTargets ssa block = some (entry, exit))
    (negated : Bool) :
    PolarityKept ssa b ⟨b, entry, negated⟩ ↔
      (negated ↔ ∃ taken, branchTargets ssa block = some (entry, taken)) := by
  rcases htargets with htargets | htargets
  · rw [kept_own_iff hb htargets, htargets]
    cases negated <;> simp [armOf, hne, hne.symm]
  · rw [kept_own_iff hb htargets, htargets]
    cases negated <;> simp [armOf, hne, hne.symm]

/-- Without a region the successors of the block are the arms of its branch. -/
theorem branchTargets_of_successors (hbranch : block.isCbranch)
    (hsuccs : presentationSuccessors ssa block = [fall, taken]) : branchTargets ssa block = some (fall, taken) := by
  obtain ⟨f, t, hids, rfl, rfl⟩ : ∃ f t, block.successorIds = [f, t] ∧ resolveJumpTarget ssa f 16 = fall ∧
      resolveJumpTarget ssa t 16 = taken := by
    simpa [presentationSuccessors, List.map_eq_cons_iff] using hsuccs
  simp [branchTargets, SsaBlock.cbranchArms, hbranch, hids]

/-- A condition that is read at another block than the one that branches says nothing. -/
theorem not_kept_of_ne {branch entry : Nat} {negated : Bool} (hne : branch ≠ b) :
    ¬ PolarityKept ssa b ⟨branch, entry, negated⟩ := by
  intro h
  have htrue := h (Function.update (fun _ => false) b (!negated))
  have hfalse := h (Function.update (fun _ => false) b negated)
  simp only [Function.update_self, Function.update_of_ne hne] at htrue hfalse
  have := hfalse.mpr (htrue.mp (by cases negated <;> rfl))
  simp at this

theorem kept_doWhile_iff (hb : ssa.blocks[b]? = some block) {branch : Nat} {latch : SsaBlock}
    (hlatch : ssa.blocks[branch]? = some latch) (hsome : (branchTargets ssa latch).isSome) :
    PolarityKept ssa b ⟨branch, b, false⟩ ↔ branch = b ∧ ∃ fall ≠ b, branchTargets ssa block = some (fall, b) := by
  by_cases hown : branch = b
  · subst hown
    rw [hb] at hlatch
    obtain rfl := Option.some.inj hlatch
    obtain ⟨⟨fall, taken⟩, htargets⟩ := Option.isSome_iff_exists.mp hsome
    rw [kept_own_iff hb htargets, htargets]
    constructor
    · rintro ⟨rfl, hfall⟩
      exact ⟨rfl, fall, hfall, rfl⟩
    · rintro ⟨-, fall', hfall, heq⟩
      obtain ⟨rfl, rfl⟩ := Prod.mk.inj (Option.some.inj heq)
      exact ⟨rfl, hfall⟩
  · exact ⟨fun h => absurd h (not_kept_of_ne hown), fun h => absurd h.1 hown⟩

end Kept

namespace Extractor
variable (c : Extractor)

/-- An if: the arms differ. A while: a `!` is there just when the body is the arm of the false
condition. A do-while: the header is its own latch, and branches back if its condition is true. -/
def Fits (b : Nat) (block : SsaBlock) : Prop :=
  match c.regions b with
  | some (.while bodyEntry exit) =>
    c.whileNegated block bodyEntry exit ↔ ∃ taken, branchTargets c.ssa block = some (bodyEntry, taken)
  | some (.doWhile _ condBlock _) => condBlock = b ∧ ∃ fall ≠ b, branchTargets c.ssa block = some (fall, b)
  | _ => Branches c.ssa block

end Extractor

/-- For all functions, switches, moves and recovered expressions: a branch that the walk turns
into a condition keeps its polarity exactly if its region fits. -/
theorem polarity_iff (c : Extractor) (hclosed : c.ssa.Closed) (switches : List Decompiler.SwitchInfo)
    (selected : List (RewriteMove × RewriteOutcome))
    (hregions : c.regions = applyMoves c.ssa (dualRegions c.ssa hclosed switches) selected)
    (b : Nat) (block : SsaBlock) (hb : c.ssa.blocks[b]? = some block) (t : Turned) (ht : c.turned b block = some t) :
    PolarityKept c.ssa b t ↔ c.Fits b block := by
  have hfit : ∀ r, c.regions b = some r → RegionFits c.ssa b block r := fun r hr =>
    applyMoves_regionFits (dualRegions_fit hclosed switches) selected b block r hb (hregions ▸ hr)
  unfold Extractor.turned at ht
  unfold Extractor.Fits
  split at ht
  · rename_i thenEntry elseEntry merge invert hr
    obtain rfl := Option.some.inj ht
    rw [hr]
    exact kept_if_iff hb (hfit _ hr)
  · rename_i thenEntry contEntry merge invert hr
    obtain rfl := Option.some.inj ht
    rw [hr]
    exact kept_if_iff hb (hfit _ hr)
  · rename_i bodyEntry merge invert hr
    obtain rfl := Option.some.inj ht
    obtain ⟨other, htargets⟩ := hfit _ hr
    rw [hr]
    exact kept_if_iff hb htargets
  · rename_i bodyEntry exit hr
    obtain rfl := Option.some.inj ht
    obtain ⟨hne, htargets⟩ := hfit _ hr
    rw [hr]
    exact kept_while_iff hb hne htargets _
  · rename_i bodyEntry condBlock exit hr
    obtain rfl := Option.some.inj ht
    obtain ⟨rfl, latch, hlatch, hsome⟩ := hfit _ hr
    rw [hr]
    exact kept_doWhile_iff hb hlatch hsome
  · cases ht
  · cases ht
  · rename_i hr
    split at ht
    · rename_i hbranch
      split at ht
      · rename_i fall taken hsuccs
        obtain rfl := Option.some.inj ht
        rw [hr]
        have htargets : branchTargets c.ssa block = some (if false then (taken, fall) else (fall, taken)) :=
          branchTargets_of_successors hbranch.1 hsuccs
        exact kept_if_iff hb htargets
      · cases ht
    · cases ht

section Example
open Structure.Emitter (functionOf codeAt flagAt)

/-- Expressions are recovered as they are: every branch has this condition. -/
def recoverAs (cond : Expr) : Recovery where
  env := fun _ => none
  condExprOfBlock := fun _ => cond
  normalizeCondExpr := fun e => e
  returnExprOfExit := fun _ => none
  bestReturnOfFunction := none

/-- The extraction of a function without switches. -/
def extractorOf (ssa : SsaFunction) (hclosed : ssa.Closed) (cond : Expr) : Extractor where
  ssa := ssa
  regions := applyMoves ssa (dualRegions ssa hclosed []) []
  recovery := recoverAs cond
  globalNames := fun _ => none
  hasReturn := ssa.blocks.any SsaBlock.hasReturn

/-- `if (v) { f(); } return;` -/
def guarded : SsaFunction :=
  functionOf [([.pcode (.cbranch (codeAt 0x1010) (flagAt 0x200))], [], [2, 1]),
    ([.pcode (.call (codeAt 0x2000))], [0], [2]), ([.pcode (.ret (codeAt 0))], [0, 1], [])]

theorem guarded_closed : guarded.Closed := by
  decide

/-- `while (i < n) { f(); } return;`, where the branch leaves the loop when `i >= n`. -/
def countUp : SsaFunction :=
  functionOf [([.pcode (.cbranch (codeAt 0x1020) (flagAt 0x200))], [1], [1, 2]),
    ([.pcode (.call (codeAt 0x2000))], [0], [0]), ([.pcode (.ret (codeAt 0))], [0], [])]

theorem countUp_closed : countUp.Closed := by
  decide

def atLeast : Expr := .compare ">=" (.name "i") (.name "n")

theorem polarity_guarded :
    PolarityKept guarded 0 ⟨0, 1, false⟩ :=
  (polarity_iff (extractorOf guarded guarded_closed atLeast) guarded_closed [] [] rfl 0 _ rfl ⟨0, 1, false⟩ rfl).mpr
    ⟨2, 1, by decide, rfl⟩

/-- The walk emits `while (i >= n)`: the condition is true when the loop is left. -/
theorem countUp_inverted :
    (extractorOf countUp countUp_closed atLeast).extractRegionAst =
        some ([.while atLeast [.expr (.call "FUN_2000" [])], .ret none], [.call "FUN_2000", .ret]) ∧
      ∃ block t, countUp.blocks[0]? = some block ∧
        (extractorOf countUp countUp_closed atLeast).turned 0 block = some t ∧ ¬ PolarityKept countUp 0 t := by
  refine ⟨by rfl, _, ⟨0, 1, false⟩, rfl, rfl, ?_⟩
  intro h
  have hleave := (h fun _ => true).mp rfl
  have := (leadsTo_iff rfl rfl).mp hleave
  revert this
  decide

end Example

end Windy.Decompiler.V2
