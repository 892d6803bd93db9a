import Mathlib

/- Computations that may panic.

   A function of a program with checked arithmetic returns a value, returns nothing, or
   panics: at a sum that does not fit its type, or at an access out of range. An `Outcome`
   is one of the three; `do` goes on with a value and stops at the other two, as `?` does.

   1. a computation has a value exactly when all of its parts have one (`bind_eq_some`),
      and does not panic exactly when none of the parts it comes to panics
      (`bind_ne_panic`);
   2. the elements before the first that does not pass a test, where the test may panic
      (`takeWhile_append_iff`);
   3. the first element that passes a test (`find_eq`, `find_ne_panic_iff`). -/

/-- What a function of a checked program ends with. -/
inductive Outcome (α : Type) where
  | panic
  | none
  | some (a : α)
  deriving DecidableEq, Repr

namespace Outcome

variable {α β : Type} {test : α → Outcome Bool} {xs : List α}

protected def bind : Outcome α → (α → Outcome β) → Outcome β
  | panic, _ => panic
  | none, _ => none
  | some a, f => f a

instance : Monad Outcome where
  pure := some
  bind := Outcome.bind

@[simp] theorem pure_eq (a : α) : (pure a : Outcome α) = some a := rfl

@[simp] theorem panic_bind (f : α → Outcome β) : panic >>= f = panic := rfl

@[simp] theorem none_bind (f : α → Outcome β) : none >>= f = none := rfl

@[simp] theorem some_bind (a : α) (f : α → Outcome β) : some a >>= f = f a := rfl

instance : LawfulMonad Outcome := LawfulMonad.mk' Outcome
  (fun x => by cases x <;> rfl) (fun _ _ => rfl) (fun x _ _ => by cases x <;> rfl)

theorem bind_eq_some {x : Outcome α} {f : α → Outcome β} {b : β} :
    x >>= f = some b ↔ ∃ a, x = some a ∧ f a = some b := by
  cases x with
  | panic => simp
  | none => simp
  | some a => simp

theorem bind_ne_panic {x : Outcome α} {f : α → Outcome β} :
    x >>= f ≠ panic ↔ x ≠ panic ∧ ∀ a, x = some a → f a ≠ panic := by
  cases x with
  | panic => simp
  | none => simp
  | some a => simp

/-- A value that is there or not, without a panic. -/
def ofOption : Option α → Outcome α
  | .none => none
  | .some a => some a

@[simp] theorem ofOption_none : ofOption (.none : Option α) = none := rfl

@[simp] theorem ofOption_some (a : α) : ofOption (.some a) = some a := rfl

@[simp] theorem ofOption_ne_panic (x : Option α) : ofOption x ≠ panic := by
  cases x <;> simp

theorem ofOption_eq_some {x : Option α} {a : α} : ofOption x = some a ↔ x = .some a := by
  cases x <;> simp

/-- What `match` sees of a call: a value or nothing, unless it panics. -/
def attempt : Outcome α → Outcome (Option α)
  | panic => panic
  | none => some .none
  | some a => some (.some a)

theorem attempt_eq_some {x : Outcome α} {a : α} : attempt x = some (.some a) ↔ x = some a := by
  cases x <;> simp [attempt]

/-! ## Sums -/

/-- `a + b` in a type of so many bits. -/
def add (bits a b : Nat) : Outcome Nat := if a + b < 2 ^ bits then some (a + b) else panic

/-- `a.checked_add(b)`. -/
def checkedAdd (bits a b : Nat) : Option Nat := if a + b < 2 ^ bits then .some (a + b) else .none

/-- `a.saturating_add(b)`. -/
def saturatingAdd (bits a b : Nat) : Nat := min (a + b) (2 ^ bits - 1)

theorem add_eq {bits a b : Nat} (h : a + b < 2 ^ bits) : add bits a b = some (a + b) := if_pos h

theorem add_eq_some {bits a b n : Nat} : add bits a b = some n ↔ a + b < 2 ^ bits ∧ a + b = n := by
  unfold add
  split <;> simp [*]

theorem add_ne_panic {bits a b : Nat} : add bits a b ≠ panic ↔ a + b < 2 ^ bits := by
  unfold add
  split <;> simp [*]

/-- `a * b` in a type of so many bits. -/
def mul (bits a b : Nat) : Outcome Nat := if a * b < 2 ^ bits then some (a * b) else panic

theorem mul_eq {bits a b : Nat} (h : a * b < 2 ^ bits) : mul bits a b = some (a * b) := if_pos h

theorem mul_ne_panic {bits a b : Nat} : mul bits a b ≠ panic ↔ a * b < 2 ^ bits := by
  unfold mul
  split <;> simp [*]

/-! ## Parts of lists -/

/-- `&xs[start..stop]`. -/
def slice (xs : List α) (start stop : Nat) : Outcome (List α) :=
  if start ≤ stop ∧ stop ≤ xs.length then some ((xs.take stop).drop start) else panic

/-- `xs.get(start..stop)`. -/
def get (xs : List α) (start stop : Nat) : Option (List α) :=
  if start ≤ stop ∧ stop ≤ xs.length then .some ((xs.take stop).drop start) else .none

/-! ## The elements before the first that does not pass -/

/-- `xs.iter().take_while(test)`. -/
def takeWhile (test : α → Outcome Bool) : List α → Outcome (List α)
  | [] => some []
  | x :: xs => do
    if ← test x then do
      let rest ← takeWhile test xs
      return x :: rest
    else return []

theorem takeWhile_eq_nil :
    takeWhile test xs = some [] ↔ ∀ x, xs.head? = .some x → test x = some false := by
  cases xs with
  | nil => simp [takeWhile]
  | cons x xs =>
    rw [takeWhile]
    cases htest : test x with
    | panic => simp [htest]
    | none => simp [htest]
    | some passed =>
      cases passed with
      | true => cases takeWhile test xs <;> simp [htest]
      | false => simp [htest]

/-- More elements make no difference if one of the first stops the search, or the first of
the new ones does. -/
theorem takeWhile_append_iff {xs ys : List α} :
    takeWhile test (xs ++ ys) = takeWhile test xs ↔ (∃ x ∈ xs, test x ≠ some true) ∨ takeWhile test ys = some [] := by
  induction xs with
  | nil => simp [takeWhile]
  | cons x xs ih =>
    rw [List.cons_append, takeWhile, takeWhile]
    by_cases htest : test x = some true
    · have hmore : (takeWhile test (xs ++ ys) >>= fun rest => some (x :: rest)) =
          (takeWhile test xs >>= fun rest => some (x :: rest)) ↔ takeWhile test (xs ++ ys) = takeWhile test xs := by
        cases takeWhile test (xs ++ ys) <;> cases takeWhile test xs <;> simp
      simpa [htest, ih] using hmore.trans ih
    · cases hcase : test x with
      | panic => simp [hcase]
      | none => simp [hcase]
      | some passed =>
        cases passed with
        | true => exact absurd hcase htest
        | false => simp [hcase]

/-! ## The first element that passes -/

/-- `xs.iter().find(test)`. -/
def find (test : α → Outcome Bool) : List α → Outcome α
  | [] => none
  | x :: xs => do
    if ← test x then return x else find test xs

/-- Where no test panics this is the first element of the list that passes. -/
theorem find_eq {passes : α → Bool} (h : ∀ x ∈ xs, test x = some (passes x)) :
    find test xs = ofOption (xs.find? passes) := by
  induction xs with
  | nil => rfl
  | cons x xs ih =>
    rw [find, h x List.mem_cons_self, some_bind, List.find?_cons]
    cases passes x with
    | true => rfl
    | false => exact ih fun y hy => h y (List.mem_cons_of_mem x hy)

theorem find_map (f : β → α) (xs : List β) :
    find test (xs.map f) = find (fun x => test (f x)) xs >>= fun x => some (f x) := by
  induction xs with
  | nil => rfl
  | cons x xs ih =>
    rw [List.map_cons, find, find]
    cases test (f x) with
    | panic => rfl
    | none => rfl
    | some passed =>
      cases passed with
      | true => rfl
      | false => exact ih

/-- What is found passes, and nothing before it does. -/
theorem find_eq_some {x : α} :
    find test xs = some x ↔ ∃ before after, xs = before ++ x :: after ∧ test x = some true ∧
      ∀ y ∈ before, test y = some false := by
  induction xs with
  | nil => simp [find]
  | cons y ys ih =>
    rw [find, bind_eq_some]
    constructor
    · rintro ⟨passed, hpassed, hrest⟩
      cases passed with
      | true =>
        obtain rfl : y = x := by simpa using hrest
        exact ⟨[], ys, rfl, hpassed, by simp⟩
      | false =>
        obtain ⟨before, after, rfl, hx, hbefore⟩ := ih.mp hrest
        refine ⟨y :: before, after, rfl, hx, fun z hz => ?_⟩
        rcases List.mem_cons.mp hz with rfl | hz
        · exact hpassed
        · exact hbefore z hz
    · rintro ⟨before, after, heq, hx, hbefore⟩
      cases before with
      | nil =>
        obtain ⟨rfl, rfl⟩ := List.cons.inj heq
        exact ⟨true, hx, rfl⟩
      | cons z before =>
        obtain ⟨rfl, rfl⟩ := List.cons.inj heq
        refine ⟨false, hbefore y List.mem_cons_self, ih.mpr ⟨before, after, rfl, hx, fun w hw => ?_⟩⟩
        exact hbefore w (List.mem_cons_of_mem y hw)

/-- Where one of the first elements passes, the search ends with one of them. -/
theorem find_mem_before {before : List α} (after : List α)
    (htest : ∀ x ∈ before, ∃ passed, test x = some passed) (hpass : ∃ x ∈ before, test x = some true) :
    ∃ x ∈ before, find test (before ++ after) = some x := by
  induction before with
  | nil => simp at hpass
  | cons y ys ih =>
    obtain ⟨passed, hy⟩ := htest y List.mem_cons_self
    rw [List.cons_append, find, hy, some_bind]
    cases passed with
    | true => exact ⟨y, List.mem_cons_self, rfl⟩
    | false =>
      obtain ⟨x, hx, hxpass⟩ := hpass
      have hys : x ∈ ys := by
        rcases List.mem_cons.mp hx with rfl | hys
        · rw [hy] at hxpass
          cases hxpass
        · exact hys
      obtain ⟨z, hz, hfound⟩ := ih (fun w hw => htest w (List.mem_cons_of_mem y hw)) ⟨x, hys, hxpass⟩
      exact ⟨z, List.mem_cons_of_mem y hz, hfound⟩

/-- A search that finds nothing comes to every element. -/
theorem find_ne_panic (h : find test xs ≠ panic)
    (hpass : ∀ x ∈ xs, test x ≠ some true) (hstop : ∀ x ∈ xs, test x ≠ none) : ∀ x ∈ xs, test x ≠ panic := by
  induction xs with
  | nil => simp
  | cons y ys ih =>
    rw [find, bind_ne_panic] at h
    have hy : test y = some false := by
      cases hcase : test y with
      | panic => exact absurd hcase h.1
      | none => exact absurd hcase (hstop y List.mem_cons_self)
      | some passed =>
        cases passed with
        | true => exact absurd hcase (hpass y List.mem_cons_self)
        | false => rfl
    intro x hx
    rcases List.mem_cons.mp hx with rfl | hx
    · exact h.1
    · exact ih (h.2 false hy) (fun z hz => hpass z (List.mem_cons_of_mem y hz))
        (fun z hz => hstop z (List.mem_cons_of_mem y hz)) x hx

/-- A search panics only at an element that it comes to. -/
theorem find_ne_panic_iff (hstop : ∀ x ∈ xs, test x ≠ none) :
    find test xs ≠ panic ↔ ∀ before x after, xs = before ++ x :: after → (∀ y ∈ before, test y = some false) →
      test x ≠ panic := by
  induction xs with
  | nil => simp [find]
  | cons y ys ih =>
    have hrest := ih fun x hx => hstop x (List.mem_cons_of_mem y hx)
    rw [find, bind_ne_panic]
    constructor
    · rintro ⟨hy, hys⟩ before x after heq hbefore
      cases before with
      | nil =>
        obtain ⟨rfl, -⟩ := List.cons.inj heq
        exact hy
      | cons b before =>
        obtain ⟨rfl, htail⟩ := List.cons.inj heq
        have hfalse := hbefore y List.mem_cons_self
        exact hrest.mp (hys false hfalse) before x after htail fun z hz => hbefore z (List.mem_cons_of_mem y hz)
    · intro h
      refine ⟨h [] y ys rfl (by simp), fun passed hy => ?_⟩
      cases passed with
      | true => simp
      | false =>
        refine hrest.mpr fun before x after heq hbefore => h (y :: before) x after (by rw [heq]; rfl) fun z hz => ?_
        rcases List.mem_cons.mp hz with rfl | hz
        · exact hy
        · exact hbefore z hz

end Outcome
