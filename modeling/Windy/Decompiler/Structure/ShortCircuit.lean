import Windy.Decompiler.Structure.Effects

/- The condition of two branches that are folded into one `if` (`structure/region.rs`,
   `detect_short_circuit`, and its use in `emit_region`).

   Two branches are folded when one arm of the first is the second and the other arm is an arm of
   the second as well: both branches share a block. What is printed is `if (c1 && c2)` or `if (c1 ||
   c2)`, and what is walked below it is the arm that the second branch has for itself.

   What is proved:
     1. `detectShortCircuit_folds`: what the detection has checked of the arms.
     2. `Folds.behindBranches_eq`: which truth values lead to which of the two blocks. With `&&`
        the target is behind two false conditions, with `||` behind two true ones.
     3. `shortCircuit_inverted`: so the printed condition is never the right one. -/
namespace Windy.Decompiler

/-- Where the branch at the end of a block leads, by the truth of its condition. -/
def SsaBlock.branchTo (block : SsaBlock) (cond : Bool) : Option Nat :=
  block.cbranchArms.map fun arms => if cond then arms.2 else arms.1

def ShortCircuit.eval : ShortCircuit → Bool → Bool → Bool
  | .and, c1, c2 => c1 && c2
  | .or, c1, c2 => c1 || c2

/-- The block behind the branch of a block and, if that leads to the second block, behind
the branch of this one too; and whether control has come through the second. -/
def behindBranches (ssa : SsaFunction) (b1 : SsaBlock) (second : Nat) (c1 c2 : Bool) : Option (Bool × Nat) := do
  let next ← b1.branchTo c1
  if next = second then
    let b2 ← ssa.blocks[second]?
    let last ← b2.branchTo c2
    pure (true, last)
  else pure (false, next)

/-- The folded condition is right: it holds exactly when control comes through the second
block to the target, and fails exactly when control comes to the shared block. -/
def FoldedRight (ssa : SsaFunction) (b1 : SsaBlock) (op : ShortCircuit) (second shared target : Nat) : Prop :=
  ∀ c1 c2, (behindBranches ssa b1 second c1 c2 = some (true, target) ↔ op.eval c1 c2) ∧
    ((∃ through, behindBranches ssa b1 second c1 c2 = some (through, shared)) ↔ ¬ op.eval c1 c2)

/-! ## What is folded -/

/-- Two branches that share an arm, the false one of the first leading to the second or
the true one. -/
inductive Folds (ssa : SsaFunction) (b1 : SsaBlock) : ShortCircuit → Nat → Nat → Nat → Prop
  | and {second shared target : Nat} {b2 : SsaBlock} (hfirst : b1.cbranchArms = some (second, shared))
      (hb2 : ssa.blocks[second]? = some b2) (hsecond : b2.cbranchArms = some (target, shared))
      (hne : shared ≠ second) : Folds ssa b1 .and second shared target
  | or {second shared target : Nat} {b2 : SsaBlock} (hfirst : b1.cbranchArms = some (shared, second))
      (hb2 : ssa.blocks[second]? = some b2) (hsecond : b2.cbranchArms = some (shared, target))
      (hne : shared ≠ second) : Folds ssa b1 .or second shared target

theorem detectShortCircuit_folds {ssa : SsaFunction} {b1 : SsaBlock} {op : ShortCircuit} {second shared target : Nat}
    (h : detectShortCircuit ssa b1 = some (op, second, shared, target)) : Folds ssa b1 op second shared target := by
  have hsecond : ∀ {x : Nat} {arms : Nat × Nat},
      (if x = b1.id then none else (ssa.blocks[x]?).bind SsaBlock.cbranchArms) = some arms →
        ∃ b2, ssa.blocks[x]? = some b2 ∧ b2.cbranchArms = some arms := by
    intro x arms hx
    split at hx
    · cases hx
    · exact Option.bind_eq_some_iff.mp hx
  unfold detectShortCircuit at h
  split at h
  · cases h
  rename_i f1 t1 hfirst
  dsimp only at h
  rcases Option.or_eq_some_iff.mp h with hfall | ⟨-, htaken⟩
  · split at hfall
    · rename_i f2 t2 hx
      split at hfall
      · rename_i hcond
        cases hfall
        obtain ⟨b2, hb2, harms⟩ := hsecond hx
        obtain ⟨rfl, hne, -⟩ := hcond
        exact .and hfirst hb2 harms (Ne.symm hne)
      · cases hfall
    · cases hfall
  · split at htaken
    · rename_i f2 t2 hx
      split at htaken
      · rename_i hcond
        cases htaken
        obtain ⟨b2, hb2, harms⟩ := hsecond hx
        obtain ⟨rfl, hne, -⟩ := hcond
        exact .or hfirst hb2 harms (Ne.symm hne)
      · cases htaken
    · cases htaken

/-! ## Where control goes -/

section Behind
variable {ssa : SsaFunction} {b1 : SsaBlock} {op : ShortCircuit} {second shared target : Nat}

/-- The first branch decides alone where it leads to the shared block. -/
theorem Folds.behindBranches_eq (h : Folds ssa b1 op second shared target) (c1 c2 : Bool) :
    behindBranches ssa b1 second c1 c2 =
      match op with
      | .and => if c1 then some (false, shared) else some (true, if c2 then shared else target)
      | .or => if c1 then some (true, if c2 then target else shared) else some (false, shared) := by
  cases h with
  | and hfirst hb2 hsecond hne =>
    cases c1 <;> simp [behindBranches, SsaBlock.branchTo, hfirst, hb2, hsecond, hne]
  | or hfirst hb2 hsecond hne =>
    cases c1 <;> simp [behindBranches, SsaBlock.branchTo, hfirst, hb2, hsecond, hne]

/-- Truth values that make the printed condition true and lead to the shared block. -/
theorem Folds.shared_of_true (h : Folds ssa b1 op second shared target) :
    ∃ c1 c2 through, op.eval c1 c2 ∧ behindBranches ssa b1 second c1 c2 = some (through, shared) := by
  have heq := h.behindBranches_eq
  cases op with
  | and => exact ⟨true, true, false, rfl, heq true true⟩
  | or => exact ⟨false, true, false, rfl, heq false true⟩

end Behind

/-- The condition of two folded branches is never right. -/
theorem shortCircuit_inverted (ssa : SsaFunction) (b1 : SsaBlock) (op : ShortCircuit) (second shared target : Nat)
    (h : detectShortCircuit ssa b1 = some (op, second, shared, target)) :
    ¬ FoldedRight ssa b1 op second shared target := by
  intro hright
  obtain ⟨c1, c2, through, heval, hshared⟩ := (detectShortCircuit_folds h).shared_of_true
  exact (hright c1 c2).2.mp ⟨through, hshared⟩ heval

section Example
open Structure.Emitter (functionOf codeAt flagAt)

/-- `if (c1) goto L; if (c2) goto L; t(); L: return;` -/
def guardedCall : SsaFunction :=
  functionOf [([.pcode (.cbranch (codeAt 0x1030) (flagAt 0x200))], [], [1, 3]),
    ([.pcode (.cbranch (codeAt 0x1030) (flagAt 0x206))], [0], [2, 3]),
    ([.pcode (.call (codeAt 0x2000))], [1], [3]), ([.pcode (.ret (codeAt 0))], [0, 1, 2], [])]

theorem shortCircuit_inverted_guardedCall :
    ∃ b1, guardedCall.blocks[0]? = some b1 ∧ ¬ FoldedRight guardedCall b1 .and 1 3 2 :=
  ⟨_, rfl, shortCircuit_inverted guardedCall _ .and 1 3 2 rfl⟩

/-- The call is printed below `if (c1 && c2)` and made when both conditions are false. -/
theorem guardedCall_folded :
    ∃ b1, guardedCall.blocks[0]? = some b1 ∧ detectShortCircuit guardedCall b1 = some (.and, 1, 3, 2) ∧
      behindBranches guardedCall b1 1 false false = some (true, 2) ∧ ¬ FoldedRight guardedCall b1 .and 1 3 2 := by
  refine ⟨_, rfl, rfl, rfl, fun hright => ?_⟩
  have hprinted := (hright false false).1.mp rfl
  exact absurd hprinted (by decide)

end Example

end Windy.Decompiler
