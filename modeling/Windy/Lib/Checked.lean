import Mathlib.Data.List.TakeWhile
import Windy.Lib.Bisect
import Windy.Lib.Budget

/- Computations that read lists by position.

   A computation under a deadline may also end at an access out of range: at an element its list
   does not have, a range that does not lie in its list, or a binary search whose test makes such an
   access. Then it has no result.

   `Safe` says that it has one whatever the clock says, and what holds of it; there is one rule for
   each way to build a computation. Where every access is in range, the computation is the one
   without the checks (`read_eq`, `slice_eq`, `partitionPoint_eq`, `each_eq`). -/
namespace Budget

open Bisect Timed

namespace Timed

instance : LawfulMonad Timed := LawfulMonad.mk' Timed
  (fun _ => rfl) (fun _ _ => rfl) (fun _ _ _ => rfl)

end Timed

/-- A computation that ends without a result at an access out of range. -/
abbrev Checked (α : Type) := OptionT Timed α

namespace Checked
variable {α β : Type}

/-- `xs[i]`. -/
def read (xs : List α) (i : Nat) : Checked α := OptionT.mk (pure xs[i]?)

/-- `&xs[start..stop]`. -/
def slice (xs : List α) (start stop : Nat) : Checked (List α) :=
  OptionT.mk (pure (if start ≤ stop ∧ stop ≤ xs.length then some ((xs.take stop).drop start) else none))

/-- `xs.partition_point(below)`. -/
def partitionPoint (search : Bisection) (below : α → Option Bool) (xs : List α) : Checked Nat :=
  OptionT.mk (pure (Bisect.partitionPoint search below xs))

/-- The loop of `Timed.each`, with a body that may end the computation. -/
def each (f : α → β → Checked (ForInStep β)) : List α → β → Checked (β × Bool)
  | [], s => pure (s, true)
  | x :: xs, s => do
    if ← tick then
      match ← f x s with
      | .done s' => return (s', true)
      | .yield s' => each f xs s'
    else return (s, false)

/-- A computation goes on where the first part has a result. -/
theorem run_bind_checked (x : Checked α) (f : α → Checked β) (clock : Clock) (meter : Meter) :
    ((x >>= f).run.run clock meter).1 =
    match (x.run.run clock meter).1 with
    | some a => ((f a).run.run clock (x.run.run clock meter).2).1
    | none => none := by
  rw [OptionT.run_bind]
  show ((x.run >>= _ : Timed (Option β)).run clock meter).1 = _
  rw [run_bind]
  cases (x.run.run clock meter).1 with
  | some a => rfl
  | none => rfl

/-! ## Computations that stay in range -/

/-- Whatever the clock says, there is a result, and it has the property. -/
def Safe (x : Checked α) (Q : α → Prop) : Prop := Always x.run fun result => ∃ a, result = some a ∧ Q a

section Rules
variable {x : Checked α} {f : α → Checked β}

theorem Safe.mono {Q R : α → Prop} (h : Safe x Q) (hQR : ∀ a, Q a → R a) : Safe x R := by
  intro clock meter
  obtain ⟨a, ha, hQ⟩ := h clock meter
  exact ⟨a, ha, hQR a hQ⟩

theorem safe_pure {a : α} {Q : α → Prop} (h : Q a) : Safe (pure a) Q := fun _ _ => ⟨a, rfl, h⟩

theorem safe_bind {Q : β → Prop} (h : Safe x fun a => Safe (f a) Q) : Safe (x >>= f) Q := by
  intro clock meter
  obtain ⟨a, ha, hf⟩ := h clock meter
  rw [run_bind_checked, ha]
  exact hf clock _

theorem safe_lift {y : Timed α} {Q : α → Prop} (h : Always y Q) : Safe (liftM y) Q :=
  fun clock meter => ⟨_, rfl, h clock meter⟩

theorem safe_ite {p : Prop} [Decidable p] {y : Checked α} {Q : α → Prop} (hx : p → Safe x Q) (hy : ¬ p → Safe y Q) :
    Safe (if p then x else y) Q := by
  split
  · next h => exact hx h
  · next h => exact hy h

theorem safe_then {Q : β → Prop} (hx : Safe x fun _ => True) (h : ∀ a, Safe (f a) Q) : Safe (x >>= f) Q :=
  safe_bind (hx.mono fun a _ => h a)

/-- What has no accesses of its own may come first. -/
theorem safe_after {y : Timed α} {Q : β → Prop} (h : ∀ a, Safe (f a) Q) : Safe (liftM y >>= f) Q :=
  safe_bind (safe_lift fun _ _ => h _)

theorem safe_read {xs : List α} {i : Nat} {a : α} {Q : α → Prop} (ha : xs[i]? = some a) (h : Q a) :
    Safe (read xs i) Q :=
  fun _ _ => ⟨a, ha, h⟩

theorem safe_slice {xs : List α} {start stop : Nat} {Q : List α → Prop} (hstart : start ≤ stop)
    (hstop : stop ≤ xs.length) (h : Q ((xs.take stop).drop start)) : Safe (slice xs start stop) Q :=
  fun _ _ => ⟨_, if_pos ⟨hstart, hstop⟩, h⟩

theorem safe_partitionPoint {search : Bisection} {below : α → Option Bool} {xs : List α} {Q : Nat → Prop}
    (hbelow : ∀ x ∈ xs, (below x).isSome)
    (h : ∀ point, Bisect.partitionPoint search below xs = some point → Q point) :
    Safe (partitionPoint search below xs) Q := by
  intro clock meter
  have hfound : ∃ point, Bisect.partitionPoint search below xs = some point := exists_partitionPoint hbelow
  obtain ⟨point, hpoint⟩ := hfound
  exact ⟨point, hpoint, h point hpoint⟩

theorem safe_each {f : α → β → Checked (ForInStep β)} {xs : List α} {s : β}
    (h : ∀ x ∈ xs, ∀ s, Safe (f x s) fun _ => True) : Safe (each f xs s) fun _ => True := by
  induction xs generalizing s with
  | nil => exact safe_pure trivial
  | cons x xs ih =>
    rw [each]
    apply safe_bind
    apply safe_lift
    intro clock meter
    split
    · apply safe_bind
      apply Safe.mono (h x List.mem_cons_self s)
      intro r _
      cases r with
      | done s' => exact safe_pure trivial
      | yield s' => exact ih fun y hy => h y (List.mem_cons_of_mem x hy)
    · exact safe_pure trivial

end Rules

/-! ## Computations that leave the range -/

/-- Whatever the clock says, the computation ends without a result. -/
def Fails (x : Checked α) : Prop := Always x.run (· = none)

section Fails
variable {x : Checked α} {f : α → Checked β}

theorem fails_read {xs : List α} {i : Nat} (h : xs.length ≤ i) : Fails (read xs i) :=
  fun _ _ => List.getElem?_eq_none h

theorem fails_partitionPoint {search : Bisection} {below : α → Option Bool} {xs : List α}
    (h : Bisect.partitionPoint search below xs = none) : Fails (partitionPoint search below xs) :=
  fun _ _ => h

theorem fails_bind (h : Fails x) : Fails (x >>= f) := by
  intro clock meter
  rw [run_bind_checked, h clock meter]

theorem fails_map {g : α → β} (h : Fails x) : Fails (g <$> x) := by
  rw [map_eq_pure_bind]
  exact fails_bind h

theorem fails_after (h : ∀ a, Fails (f a)) : Fails (x >>= f) := by
  intro clock meter
  rw [run_bind_checked]
  split
  · exact h _ clock _
  · rfl

theorem Fails.not_safe {Q : α → Prop} (h : Fails x) : ¬ Safe x Q := by
  intro hsafe
  obtain ⟨a, ha, -⟩ := hsafe { late := fun _ => false, interval := 1 } { iterations := 0, timedOut := false }
  rw [h] at ha
  cases ha

end Fails

/-! ## Without the checks -/

theorem read_eq {xs : List α} {i : Nat} {a : α} (h : xs[i]? = some a) : read xs i = pure a := by
  rw [read, h]
  rfl

theorem slice_eq {xs : List α} {start stop : Nat} (hstart : start ≤ stop) (hstop : stop ≤ xs.length) :
    slice xs start stop = pure ((xs.take stop).drop start) := by
  rw [slice, if_pos ⟨hstart, hstop⟩]
  rfl

/-- On a partitioned list the partition point is the length of the part in front. -/
theorem partitionPoint_eq {search : Bisection} {below : α → Option Bool} {test : α → Bool} {xs : List α}
    (hbelow : ∀ x ∈ xs, below x = some (test x)) (h : xs.Pairwise fun a b => test b = true → test a = true) :
    partitionPoint search below xs = pure (xs.takeWhile test).length := by
  rw [partitionPoint, Bisect.partitionPoint_eq hbelow h]
  rfl

/-- What comes behind the partition point. -/
theorem slice_takeWhile (test : α → Bool) (xs : List α) :
    slice xs (xs.takeWhile test).length xs.length = pure (xs.dropWhile test) := by
  have hdrop : xs.drop (xs.takeWhile test).length = xs.dropWhile test := by
    calc xs.drop (xs.takeWhile test).length
        = (xs.takeWhile test ++ xs.dropWhile test).drop (xs.takeWhile test).length := by
          rw [List.takeWhile_append_dropWhile]
      _ = xs.dropWhile test := List.drop_left
  rw [slice_eq (List.takeWhile_prefix test).length_le le_rfl, List.take_length, hdrop]

/-- What lies between the partition points of two tests, the second of which holds of more. -/
theorem slice_between {test wider : α → Bool} (h : ∀ x, test x = true → wider x = true) (xs : List α) :
    slice xs (xs.takeWhile test).length (xs.takeWhile wider).length = pure ((xs.takeWhile wider).dropWhile test) := by
  have htake : xs.take (xs.takeWhile wider).length = xs.takeWhile wider :=
    (List.prefix_iff_eq_take.mp (List.takeWhile_prefix wider)).symm
  have hshort : (xs.takeWhile wider).takeWhile test = xs.takeWhile test := by
    rw [List.takeWhile_takeWhile]
    congr 1
    funext x
    cases hx : test x with
    | false => simp
    | true => simp [h x hx]
  have hle : (xs.takeWhile test).length ≤ (xs.takeWhile wider).length := by
    rw [← hshort]
    exact (List.takeWhile_prefix test).length_le
  have hrest := slice_takeWhile test (xs.takeWhile wider)
  rw [hshort, slice_eq hle le_rfl, List.take_length] at hrest
  rw [slice_eq hle (List.takeWhile_prefix wider).length_le, htake, hrest]

theorem each_eq {f : α → β → Checked (ForInStep β)} {g : α → β → Timed (ForInStep β)} {xs : List α} {s : β}
    (h : ∀ x ∈ xs, ∀ s, f x s = liftM (g x s)) : each f xs s = liftM (Timed.each g xs s) := by
  induction xs generalizing s with
  | nil => rfl
  | cons x xs ih =>
    rw [each, Timed.each, liftM_bind]
    congr 1
    funext go
    split
    · rw [h x List.mem_cons_self, liftM_bind]
      congr 1
      funext r
      cases r with
      | done s' => rfl
      | yield s' => exact ih fun y hy => h y (List.mem_cons_of_mem x hy)
    · rfl

end Checked

end Budget
