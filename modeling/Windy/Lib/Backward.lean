import Mathlib

/- Searching a list from its end.

   A scan that goes forward and keeps the last element with a property, and one that goes
   backward and gives up at a stop, are both described by where the element stands: what is in
   front of it, and what of the list is behind it (`last_eq_some_iff`, `search_eq_some_iff`). -/
namespace Backward

variable {α β : Type*}

/-- The value of the last element that has one, kept by a scan from the front. -/
def last (value : α → Option β) (xs : List α) : Option β :=
  xs.foldl (fun found x => (value x).or found) none

/-- The first element from behind with `p`, none when one with `stop` is met before. -/
def search (stop p : α → Bool) (xs : List α) : Option α :=
  (xs.reverse.takeWhile fun x => !stop x).find? p

theorem last_append_singleton (value : α → Option β) (xs : List α) (x : α) :
    last value (xs ++ [x]) = (value x).or (last value xs) := by
  simp [last, List.foldl_append]

theorem last_eq_some_iff {value : α → Option β} {xs : List α} {y : β} :
    last value xs = some y ↔
      ∃ early x late, xs = early ++ x :: late ∧ value x = some y ∧ ∀ z ∈ late, value z = none := by
  induction xs using List.reverseRecOn with
  | nil => simp [last]
  | append_singleton xs x ih =>
    rw [last_append_singleton]
    constructor
    · intro h
      cases hx : value x with
      | some y' =>
        rw [hx] at h
        exact ⟨xs, x, [], rfl, hx.trans h, by simp⟩
      | none =>
        rw [hx] at h
        obtain ⟨early, x', late, rfl, hvalue, hlate⟩ := ih.mp h
        refine ⟨early, x', late ++ [x], by simp, hvalue, fun z hz => ?_⟩
        rcases List.mem_append.mp hz with hz | hz
        · exact hlate z hz
        · rw [List.mem_singleton.mp hz]; exact hx
    · rintro ⟨early, x', late, heq, hvalue, hlate⟩
      rcases List.eq_nil_or_concat late with rfl | ⟨late', z, rfl⟩
      · obtain ⟨rfl, hx⟩ := List.append_inj' heq rfl
        rw [List.cons.inj hx |>.1, hvalue]
        rfl
      · have heq' : xs ++ [x] = (early ++ x' :: late') ++ [z] := by simpa using heq
        obtain ⟨rfl, hx⟩ := List.append_inj' heq' rfl
        obtain rfl := (List.cons.inj hx).1
        rw [hlate x (by simp)]
        exact ih.mpr ⟨early, x', late', rfl, hvalue, fun z hz => hlate z (by simp [hz])⟩

theorem exists_last {p : α → Bool} {xs : List α} (h : ∃ x ∈ xs, p x) :
    ∃ early x late, xs = early ++ x :: late ∧ p x ∧ ∀ z ∈ late, p z = false := by
  obtain ⟨x, hx, hp⟩ := h
  induction xs using List.reverseRecOn with
  | nil => cases hx
  | append_singleton xs w ih =>
    cases hw : p w with
    | true => exact ⟨xs, w, [], rfl, hw, by simp⟩
    | false =>
      have hmem : x ∈ xs := by
        rcases List.mem_append.mp hx with hx | hx
        · exact hx
        · rw [List.mem_singleton.mp hx, hw] at hp; cases hp
      obtain ⟨early, y, late, rfl, hy, hlate⟩ := ih hmem
      refine ⟨early, y, late ++ [w], by simp, hy, fun z hz => ?_⟩
      rcases List.mem_append.mp hz with hz | hz
      · exact hlate z hz
      · rw [List.mem_singleton.mp hz]; exact hw

theorem search_append_singleton (stop p : α → Bool) (xs : List α) (x : α) :
    search stop p (xs ++ [x]) = if stop x then none else if p x then some x else search stop p xs := by
  cases hstop : stop x <;> cases hp : p x <;> simp [search, hstop, hp]

theorem search_eq_some_iff {stop p : α → Bool} {xs : List α} {x : α} :
    search stop p xs = some x ↔
      ∃ early late, xs = early ++ x :: late ∧ p x ∧ stop x = false ∧ ∀ z ∈ late, stop z = false ∧ p z = false := by
  induction xs using List.reverseRecOn with
  | nil => simp [search]
  | append_singleton xs w ih =>
    rw [search_append_singleton]
    constructor
    · intro h
      cases hstop : stop w with
      | true => simp [hstop] at h
      | false =>
        cases hp : p w with
        | true =>
          obtain rfl : w = x := by simpa [hstop, hp] using h
          exact ⟨xs, [], rfl, hp, hstop, by simp⟩
        | false =>
          obtain ⟨early, late, rfl, hx, hgo, hlate⟩ := ih.mp (by simpa [hstop, hp] using h)
          refine ⟨early, late ++ [w], by simp, hx, hgo, fun z hz => ?_⟩
          rcases List.mem_append.mp hz with hz | hz
          · exact hlate z hz
          · rw [List.mem_singleton.mp hz]; exact ⟨hstop, hp⟩
    · rintro ⟨early, late, heq, hx, hgo, hlate⟩
      rcases List.eq_nil_or_concat late with rfl | ⟨late', z, rfl⟩
      · obtain ⟨-, hw⟩ := List.append_inj' heq rfl
        obtain rfl := (List.cons.inj hw).1
        simp [hgo, hx]
      · have heq' : xs ++ [w] = (early ++ x :: late') ++ [z] := by simpa using heq
        obtain ⟨rfl, hw⟩ := List.append_inj' heq' rfl
        obtain rfl := (List.cons.inj hw).1
        obtain ⟨hstop, hp⟩ := hlate w (by simp)
        rw [if_neg (by simp [hstop]), if_neg (by simp [hp])]
        exact ih.mpr ⟨early, late', rfl, hx, hgo, fun y hy => hlate y (by simp [hy])⟩

end Backward
