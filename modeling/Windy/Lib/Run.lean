import Mathlib

/- Runs of a step function that may refuse an action.

   `Guarded step ok s as s'`: from `s` the actions `as` lead to `s'`, each taken in a state where
   `ok` allows it. An invariant is shown once per action and holds after every guarded run
   (`Guarded.inv`). `exec` is the same run as a function, without the guard. -/
namespace Run

variable {σ α : Type*}

/-- A run whose every action is allowed where it is taken. -/
inductive Guarded (step : σ → α → Option σ) (ok : σ → α → Prop) : σ → List α → σ → Prop
  | nil (s : σ) : Guarded step ok s [] s
  | cons {s s' s'' : σ} {a : α} {as : List α} (hok : ok s a) (hstep : step s a = some s')
      (hrest : Guarded step ok s' as s'') : Guarded step ok s (a :: as) s''

/-- The state after the actions, if every one of them can be taken. -/
def exec (step : σ → α → Option σ) : σ → List α → Option σ
  | s, [] => some s
  | s, a :: as => (step s a).bind fun s' => exec step s' as

variable {step : σ → α → Option σ} {ok : σ → α → Prop}

/-- What every allowed action keeps holds after every run. -/
theorem Guarded.inv {P : σ → Prop} (hkeep : ∀ s a s', P s → ok s a → step s a = some s' → P s')
    {s s' : σ} {as : List α} (hrun : Guarded step ok s as s') (hs : P s) : P s' := by
  induction hrun with
  | nil s => exact hs
  | cons hok hstep _ ih => exact ih (hkeep _ _ _ hs hok hstep)

/-- What an invariant shows of an allowed action holds of all of them. -/
theorem Guarded.forall_mem {P : σ → Prop} {Q : α → Prop}
    (hkeep : ∀ s a s', P s → ok s a → step s a = some s' → P s' ∧ Q a) {s s' : σ} {as : List α}
    (hrun : Guarded step ok s as s') (hs : P s) : ∀ a ∈ as, Q a := by
  induction hrun with
  | nil s => exact fun a ha => absurd ha List.not_mem_nil
  | cons hok hstep _ ih =>
    obtain ⟨hs', hq⟩ := hkeep _ _ _ hs hok hstep
    intro a ha
    cases ha with
    | head => exact hq
    | tail _ ha => exact ih hs' a ha

/-- The same without a guard. -/
theorem exec_inv {P : σ → Prop} (hkeep : ∀ s a s', P s → step s a = some s' → P s') {s s' : σ} {as : List α}
    (h : exec step s as = some s') (hs : P s) : P s' := by
  induction as generalizing s with
  | nil =>
    obtain rfl : s = s' := Option.some.inj h
    exact hs
  | cons a as ih =>
    obtain ⟨t, ht, hrest⟩ := Option.bind_eq_some_iff.mp h
    exact ih hrest (hkeep _ _ _ hs ht)

end Run
