import Mathlib

/- Machines that stop: a step function `σ → Option σ` that gives nothing in a last state.

   `StateTransition.Reaches step s t` says that steps lead from `s` to `t`. `runFor` takes
   the steps, at most a given number of them.

   What is proved:
     1. `inv_of_reaches`: what every step of a run keeps holds in every state of it. The
        step may use that its state is reached, so a guard on the run is a hypothesis about
        the reached states.
     2. `runFor_halts`: where a measure falls with every step, it bounds their number.
     3. `reaches_halted`: a machine has one run, so every state of it lies before the last. -/
namespace Machine

open StateTransition

variable {σ : Type*} (step : σ → Option σ)

/-- Steps until there is none, at most this many. -/
def runFor : Nat → σ → σ
  | 0, s => s
  | n + 1, s =>
    match step s with
    | some t => runFor n t
    | none => s

variable {step}

theorem reaches_trans {s t u : σ} (h : Reaches step s t) (h' : Reaches step t u) : Reaches step s u :=
  Relation.ReflTransGen.trans h h'

theorem reaches_step {s t u : σ} (h : Reaches step s t) (hstep : step t = some u) : Reaches step s u :=
  Relation.ReflTransGen.tail h hstep

theorem reaches_runFor (n : Nat) (s : σ) : Reaches step s (runFor step n s) := by
  induction n generalizing s with
  | zero => exact Relation.ReflTransGen.refl
  | succ n ih =>
    unfold runFor
    split
    · next t ht => exact Relation.ReflTransGen.head ht (ih t)
    · exact Relation.ReflTransGen.refl

/-- An invariant of the run from `s`. -/
theorem inv_of_reaches {P : σ → Prop} {s : σ} (hs : P s)
    (hkeep : ∀ t u, Reaches step s t → P t → step t = some u → P u) {t : σ} (h : Reaches step s t) : P t := by
  induction h with
  | refl => exact hs
  | tail hrun hstep ih => exact hkeep _ _ hrun ih hstep

/-- As many steps as the measure says are enough. -/
theorem runFor_halts {P : σ → Prop} (μ : σ → Nat) (hkeep : ∀ t u, P t → step t = some u → P u ∧ μ u < μ t)
    (n : Nat) {s : σ} (hs : P s) (hn : μ s ≤ n) : step (runFor step n s) = none := by
  induction n generalizing s with
  | zero =>
    cases hstep : step s with
    | none => exact hstep
    | some t => exact absurd (hkeep s t hs hstep).2 (by omega)
  | succ n ih =>
    unfold runFor
    split
    · next t ht =>
      obtain ⟨hPt, hlt⟩ := hkeep s t hs ht
      exact ih hPt (by omega)
    · assumption

/-- The last state is reached from every state of the run. -/
theorem reaches_halted {s t u : σ} (h : Reaches step s t) (hu : Reaches step s u) (hend : step u = none) :
    Reaches step t u := by
  rcases reaches_total h hu with htu | hut
  · exact htu
  · rcases Relation.ReflTransGen.cases_head hut with rfl | ⟨v, hv, -⟩
    · exact Relation.ReflTransGen.refl
    · have hnone : v ∈ (none : Option σ) := hend ▸ hv
      cases hnone

/-- A count falls where one element no longer counts and none begins to. -/
theorem countP_lt_countP {α : Type*} {p q : α → Bool} {xs : List α} {x : α} (hle : ∀ y, p y = true → q y = true)
    (hx : x ∈ xs) (hq : q x = true) (hp : p x = false) : xs.countP p < xs.countP q := by
  induction xs with
  | nil => cases hx
  | cons y ys ih =>
    have hys : ys.countP p ≤ ys.countP q := List.countP_mono_left fun z _ => hle z
    simp only [List.countP_cons]
    rcases List.mem_cons.mp hx with rfl | hmem
    · simp only [hp, hq, Bool.false_eq_true, if_false, if_true]
      omega
    · have hlt := ih hmem
      by_cases hy : p y = true
      · simp only [hy, hle y hy, if_true]
        omega
      · simp only [hy, Bool.false_eq_true, if_false]
        omega

end Machine
