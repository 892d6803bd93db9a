import Mathlib

/- Computations under a deadline.

   The clock is asked every `interval` iterations whether the deadline has passed;
   when it answers yes, the budget is spent and every later `tick` fails at once.
   What the clock answers is arbitrary, so a computation has one outcome for each
   clock, and one more: its `value`, where no tick ever fails.

   A `Timed` computation carries what ties the two together. A spent budget stays
   spent; a run that ends with the budget unspent has returned the value; and with a
   clock that is never late the budget is not spent. So a program written with
   `pure`, `>>=` and `tick` has these properties by construction, and what is proved
   about its value holds of every run that met the deadline (`Timed.run_fst`). -/
namespace Budget

structure Clock where
  late : Nat → Bool
  interval : Nat

structure Meter where
  iterations : Nat
  timedOut : Bool
  deriving DecidableEq

/-- A clock that never reports the deadline. -/
def Clock.Patient (c : Clock) : Prop := ∀ n, c.late n = false

structure Timed (α : Type) where
  run : Clock → Meter → α × Meter
  value : α
  sticky : ∀ c m, m.timedOut = true → (run c m).2.timedOut = true
  calm : ∀ c m, (run c m).2.timedOut = false → (run c m).1 = value
  quiet : ∀ c m, c.Patient → m.timedOut = false → (run c m).2.timedOut = false

namespace Timed
variable {α β : Type} {f : α → β → Timed (ForInStep β)} {x : Timed α}

protected def pure (a : α) : Timed α where
  run _ m := (a, m)
  value := a
  sticky _ _ h := h
  calm _ _ _ := rfl
  quiet _ _ _ h := h

protected def bind (x : Timed α) (f : α → Timed β) : Timed β where
  run c m := (f (x.run c m).1).run c (x.run c m).2
  value := (f x.value).value
  sticky c m h := (f _).sticky c _ (x.sticky c m h)
  calm c m h := by
    -- The second part was not started on a spent budget.
    have hmid : (x.run c m).2.timedOut = false := by
      by_contra hspent
      rw [(f (x.run c m).1).sticky c _ (by simpa using hspent)] at h
      cases h
    rw [(f _).calm c _ h, x.calm c m hmid]
  quiet c m hc h := (f _).quiet c _ hc (x.quiet c m hc h)

instance : Monad Timed where
  pure := Timed.pure
  bind := Timed.bind

/-- One iteration: asks the clock when it is time to, and says whether to go on. -/
def tick : Timed Bool where
  run c m :=
    if m.timedOut then (false, m)
    else if m.iterations % c.interval = 0 ∧ c.late m.iterations = true then
      (false, { iterations := m.iterations + 1, timedOut := true })
    else (true, { m with iterations := m.iterations + 1 })
  value := true
  sticky c m h := by simp [h]
  calm c m h := by
    split at h
    · next hspent =>
      rw [hspent] at h
      cases h
    · next hfresh =>
      split at h
      · cases h
      · next hearly => simp [hfresh, hearly]
  quiet c m hc h := by simp [h, hc m.iterations]

/-- Whether the budget is spent. -/
def timedOut : Timed Bool where
  run _ m := (m.timedOut, m)
  value := false
  sticky _ _ h := h
  calm _ _ h := h
  quiet _ _ _ h := h

@[simp] theorem value_pure (a : α) : (pure a : Timed α).value = a := rfl

@[simp] theorem value_bind (x : Timed α) (f : α → Timed β) : (x >>= f).value = (f x.value).value := rfl

@[simp] theorem value_tick : tick.value = true := rfl

@[simp] theorem value_timedOut : timedOut.value = false := rfl

@[simp] theorem value_map (f : α → β) (x : Timed α) : (f <$> x).value = f x.value := rfl

@[simp] theorem run_pure (a : α) (c : Clock) (m : Meter) : (pure a : Timed α).run c m = (a, m) := rfl

@[simp] theorem run_bind (x : Timed α) (f : α → Timed β) (c : Clock) (m : Meter) :
    (x >>= f).run c m = (f (x.run c m).1).run c (x.run c m).2 := rfl

/-- A run that met the deadline returned the value. -/
theorem run_fst {c : Clock} {m : Meter} (h : (x.run c m).2.timedOut = false) :
    (x.run c m).1 = x.value :=
  x.calm c m h

/-! ## Loops -/

/-- A loop that asks the budget before every element and stops when it is spent.
The flag says whether the budget lasted; the body may also leave the loop. -/
def each (f : α → β → Timed (ForInStep β)) : List α → β → Timed (β × Bool)
  | [], s => pure (s, true)
  | x :: xs, s => do
    if ← tick then
      match ← f x s with
      | .done s' => return (s', true)
      | .yield s' => each f xs s'
    else return (s, false)

/-- The state in which a loop that may be left ends. -/
def scan (f : α → β → ForInStep β) : List α → β → β
  | [], s => s
  | x :: xs, s =>
    match f x s with
    | .done s' => s'
    | .yield s' => scan f xs s'

/-- Without a deadline the loop runs through. -/
@[simp] theorem value_each (f : α → β → Timed (ForInStep β)) (xs : List α) (s : β) :
    (each f xs s).value = (scan (fun x s => (f x s).value) xs s, true) := by
  induction xs generalizing s with
  | nil => rfl
  | cons x xs ih =>
    simp only [each, scan, value_bind, value_tick, if_true]
    cases (f x s).value with
    | done s' => rfl
    | yield s' => exact ih s'

theorem value_each_snd (f : α → β → Timed (ForInStep β)) (xs : List α) (s : β) : (each f xs s).value.2 = true := by
  rw [value_each]

/-- A loop that is never left is a fold. -/
theorem scan_yield (f : α → β → β) (xs : List α) (s : β) :
    scan (fun x s => .yield (f x s)) xs s = xs.foldl (fun s x => f x s) s := by
  induction xs generalizing s with
  | nil => rfl
  | cons x xs ih => exact ih (f x s)

theorem scan_map {γ : Type} (g : γ → α) (f : α → β → ForInStep β) (xs : List γ) (s : β) :
    scan f (xs.map g) s = scan (fun x s => f (g x) s) xs s := by
  induction xs generalizing s with
  | nil => rfl
  | cons x xs ih =>
    simp only [List.map_cons, scan]
    cases f (g x) s with
    | done s' => rfl
    | yield s' => exact ih s'

/-- Two rounds that end alike, in related states. -/
inductive StepRel {β γ : Type} (R : β → γ → Prop) : ForInStep β → ForInStep γ → Prop
  | done {s : β} {t : γ} (h : R s t) : StepRel R (.done s) (.done t)
  | yield {s : β} {t : γ} (h : R s t) : StepRel R (.yield s) (.yield t)

/-- Loops over related lists whose rounds keep a relation end in related states. -/
theorem value_each_rel {α' β' : Type} {P : α → α' → Prop} {R : β → β' → Prop}
    {g : α' → β' → Timed (ForInStep β')}
    (hstep : ∀ x y s t, P x y → R s t → StepRel R (f x s).value (g y t).value)
    {xs : List α} {ys : List α'} (hxs : List.Forall₂ P xs ys) :
    ∀ {s : β} {t : β'}, R s t → R (each f xs s).value.1 (each g ys t).value.1 := by
  simp only [value_each]
  induction hxs with
  | nil => exact fun h => h
  | @cons x y _ _ hxy _ ih =>
    intro s t h
    have hround := hstep x y s t hxy h
    simp only [scan]
    generalize (f x s).value = left at hround ⊢
    generalize (g y t).value = right at hround ⊢
    cases hround with
    | done h' => exact h'
    | yield h' => exact ih h'

/-- The same, over one list. -/
theorem value_each_same {β' : Type} {R : β → β' → Prop}
    {g : α → β' → Timed (ForInStep β')} (hstep : ∀ x s t, R s t → StepRel R (f x s).value (g x t).value)
    (xs : List α) {s : β} {t : β'} (h : R s t) : R (each f xs s).value.1 (each g xs t).value.1 := by
  refine value_each_rel (P := Eq) ?_ (List.forall₂_same.mpr fun _ _ => rfl) h
  rintro x _ s t rfl hst
  exact hstep x s t hst

/-- Without a deadline, what every round keeps holds at the end of a loop. -/
theorem value_each_inv {P : β → Prop}
    (hstep : ∀ x s, P s → P (f x s).value.value) (xs : List α) {s : β} (h : P s) : P (each f xs s).value.1 := by
  rw [value_each]
  induction xs generalizing s with
  | nil => exact h
  | cons x xs ih =>
    have hround := hstep x s h
    simp only [scan]
    cases hbody : (f x s).value with
    | done s' =>
      rw [hbody] at hround
      exact hround
    | yield s' =>
      rw [hbody] at hround
      exact ih hround

/-- What the rounds of a loop add is there at its end, and no more than that. -/
theorem scan_collects {ι : Type} (M : β → ι → Prop) (A : α → ι → Prop) {f : α → β → ForInStep β}
    (hround : ∀ x s, ∃ s', f x s = .yield s' ∧ ∀ i, M s' i ↔ M s i ∨ A x i) (xs : List α) (s : β) (i : ι) :
    M (scan f xs s) i ↔ M s i ∨ ∃ x ∈ xs, A x i := by
  induction xs generalizing s with
  | nil => simp [scan]
  | cons x xs ih =>
    obtain ⟨s', hvalue, hadd⟩ := hround x s
    simp only [scan, hvalue]
    rw [ih, hadd, List.exists_mem_cons_iff, or_assoc]

theorem value_each_collects {ι : Type} (M : β → ι → Prop) (A : α → ι → Prop)
    (hround : ∀ x s, ∃ s', (f x s).value = .yield s' ∧ ∀ i, M s' i ↔ M s i ∨ A x i) (xs : List α) (s : β) (i : ι) :
    M (each f xs s).value.1 i ↔ M s i ∨ ∃ x ∈ xs, A x i := by
  rw [value_each]
  exact scan_collects M A hround xs s i

/-! ## What holds of every run -/

/-- Whatever the clock says, the result has the property. -/
def Always (x : Timed α) (Q : α → Prop) : Prop := ∀ c m, Q (x.run c m).1

theorem Always.mono {Q R : α → Prop} (h : Always x Q) (hQR : ∀ a, Q a → R a) : Always x R :=
  fun c m => hQR _ (h c m)

/-- In particular the value has it. -/
theorem Always.value {Q : α → Prop} (h : Always x Q) : Q x.value := by
  have hmet := x.quiet { late := fun _ => false, interval := 1 } { iterations := 0, timedOut := false }
    (fun _ => rfl) rfl
  rw [← run_fst hmet]
  exact h _ _

theorem always_pure {a : α} {Q : α → Prop} (h : Q a) : Always (pure a) Q := fun _ _ => h

theorem always_bind {f : α → Timed β} {Q : β → Prop} (h : Always x fun a => Always (f a) Q) :
    Always (x >>= f) Q :=
  fun c m => h c m c _

theorem always_map {f : α → β} {Q : β → Prop} (h : Always x fun a => Q (f a)) : Always (f <$> x) Q :=
  h

theorem always_ite {p : Prop} [Decidable p] {x y : Timed α} {Q : α → Prop} (hx : p → Always x Q)
    (hy : ¬ p → Always y Q) : Always (if p then x else y) Q := by
  split
  · next h => exact hx h
  · next h => exact hy h

/-- A loop keeps what its rounds keep of the state and of the elements still to come. It
ends with none left, it is left by a round, or the budget is spent. -/
theorem always_each {I : List α → β → Prop} {Q : β × Bool → Prop}
    (hround : ∀ x rest s, I (x :: rest) s → Always (f x s) fun r => match r with
      | .done s' => Q (s', true)
      | .yield s' => I rest s')
    (hspent : ∀ rest s, I rest s → Q (s, false)) (hend : ∀ s, I [] s → Q (s, true)) :
    ∀ {xs : List α} {s : β}, I xs s → Always (each f xs s) Q := by
  intro xs
  induction xs with
  | nil =>
    intro s hs
    exact always_pure (hend s hs)
  | cons x rest ih =>
    intro s hs
    rw [each]
    refine always_bind fun c m => ?_
    refine always_ite (fun _ => ?_) fun _ => always_pure (hspent _ s hs)
    refine always_bind fun c' m' => ?_
    have hnext := hround x rest s hs c' m'
    revert hnext
    cases ((f x s).run c' m').1 with
    | done s' => exact fun h => always_pure h
    | yield s' => exact fun h => ih h

/-! ## Deadlines that were met -/

/-- A loop whose flag says that the budget lasted, and whose rounds left nothing undone,
has met the deadline. -/
theorem each_met {P : β → Prop} {c : Clock}
    (hround : ∀ x s m, m.timedOut = false → ((f x s).run c m).2.timedOut = true →
      ∃ s', ((f x s).run c m).1 = .done s' ∧ ¬ P s') :
    ∀ {xs : List α} {s : β} {m : Meter}, m.timedOut = false → ((each f xs s).run c m).1.2 = true →
      P ((each f xs s).run c m).1.1 → ((each f xs s).run c m).2.timedOut = false := by
  intro xs
  induction xs with
  | nil => exact fun hm _ _ => hm
  | cons x rest ih =>
    intro s m hm
    have htick : (tick.run c m).1 = true → (tick.run c m).2.timedOut = false := by
      simp only [tick, hm, Bool.false_eq_true, if_false]
      split <;> simp
    simp only [each, run_bind]
    cases hgo : (tick.run c m).1 with
    | false => exact fun hlasted _ => absurd hlasted (by simp)
    | true =>
      simp only [if_true, run_bind]
      have hmet := htick hgo
      have hbad := hround x s _ hmet
      cases hbody : ((f x s).run c (tick.run c m).2).1 with
      | done s' =>
        intro _ hP
        by_contra hspent
        obtain ⟨s'', hdone, hnot⟩ := hbad (by simpa using hspent)
        rw [hbody] at hdone
        cases hdone
        exact hnot hP
      | yield s' =>
        have hnext : ((f x s).run c (tick.run c m).2).2.timedOut = false := by
          by_contra hspent
          obtain ⟨s'', hdone, -⟩ := hbad (by simpa using hspent)
          rw [hbody] at hdone
          cases hdone
        exact ih hnext

end Timed

end Budget
