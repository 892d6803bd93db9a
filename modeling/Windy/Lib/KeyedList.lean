import Mathlib

/- Ordered maps whose values carry their key, as lists in the order of the keys.

   `put` replaces the value of a key or inserts it in its place; `get` looks a key up. What a lookup
   returns after a `put` needs no order (`get_put`). In an ordered list the members are the values
   (`get_eq_some_iff`), and the order is kept (`ordered_put`, `ordered_filter`). -/
namespace KeyedList

variable {α κ : Type*} [LinearOrder κ] (key : α → κ)

/-- The value under its own key, in its place. -/
def put (x : α) : List α → List α
  | [] => [x]
  | y :: ys => if key x < key y then x :: y :: ys else if key y < key x then y :: put x ys else x :: ys

/-- The value of a key. -/
def get (k : κ) (xs : List α) : Option α := xs.find? fun x => key x = k

/-- The map without a key. -/
def remove (k : κ) (xs : List α) : List α := xs.filter fun x => key x ≠ k

/-- The keys ascend. -/
abbrev Ordered (xs : List α) : Prop := xs.Pairwise fun a b => key a < key b

variable {key} {xs : List α} {x : α}

@[simp] theorem get_nil (k : κ) : get key k [] = none := rfl

theorem get_put (x : α) (k : κ) (xs : List α) :
    get key k (put key x xs) = if key x = k then some x else get key k xs := by
  unfold get
  induction xs with
  | nil => by_cases h : key x = k <;> simp [put, h]
  | cons y ys ih =>
    simp only [put]
    split
    · by_cases h : key x = k <;> simp [h]
    · next hxy =>
      split
      · next hyx =>
        rw [List.find?_cons, ih]
        by_cases h : key x = k
        · have hne : key y ≠ k := fun hy => absurd hyx (by rw [hy, h]; exact lt_irrefl k)
          simp [h, hne]
        · simp only [if_neg h, List.find?_cons]
      · next hyx =>
        have heq : key x = key y := le_antisymm (le_of_not_gt hyx) (le_of_not_gt hxy)
        by_cases h : key x = k
        · simp [h]
        · have hne : key y ≠ k := heq ▸ h
          simp [h, hne]

theorem get_put_self (x : α) (xs : List α) : get key (key x) (put key x xs) = some x := by
  rw [get_put, if_pos rfl]

theorem get_put_ne {k : κ} (h : key x ≠ k) (xs : List α) : get key k (put key x xs) = get key k xs := by
  rw [get_put, if_neg h]

theorem key_of_get {k : κ} (h : get key k xs = some x) : key x = k := by
  simpa using List.find?_some h

theorem mem_of_get {k : κ} (h : get key k xs = some x) : x ∈ xs :=
  List.mem_of_find?_eq_some h

/-- In an ordered list every member is the value of its key. -/
theorem get_of_mem (hord : Ordered key xs) (hx : x ∈ xs) : get key (key x) xs = some x := by
  induction xs with
  | nil => cases hx
  | cons y ys ih =>
    obtain ⟨hy, hys⟩ := List.pairwise_cons.mp hord
    rcases List.mem_cons.mp hx with rfl | hmem
    · simp [get]
    · have hne : key y ≠ key x := (hy x hmem).ne
      have hget : get key (key x) (y :: ys) = get key (key x) ys := by simp [get, hne]
      rw [hget, ih hys hmem]

theorem get_eq_some_iff (hord : Ordered key xs) {k : κ} :
    get key k xs = some x ↔ x ∈ xs ∧ key x = k := by
  constructor
  · intro h
    exact ⟨mem_of_get h, key_of_get h⟩
  · rintro ⟨hmem, rfl⟩
    exact get_of_mem hord hmem

theorem get_isSome_iff {k : κ} : (get key k xs).isSome ↔ ∃ x ∈ xs, key x = k := by
  simp [get, List.find?_isSome]

theorem mem_of_mem_put {x a : α} (h : a ∈ put key x xs) : a = x ∨ a ∈ xs := by
  induction xs with
  | nil => exact .inl (List.mem_singleton.mp h)
  | cons y ys ih =>
    simp only [put] at h
    split at h
    · exact List.mem_cons.mp h
    · split at h
      · rcases List.mem_cons.mp h with rfl | hmem
        · exact .inr List.mem_cons_self
        · exact (ih hmem).imp_right (List.mem_cons_of_mem _)
      · exact (List.mem_cons.mp h).imp_right (List.mem_cons_of_mem _)

theorem ordered_put (x : α) (hord : Ordered key xs) : Ordered key (put key x xs) := by
  induction xs with
  | nil => exact List.pairwise_singleton _ _
  | cons y ys ih =>
    obtain ⟨hy, hys⟩ := List.pairwise_cons.mp hord
    simp only [put]
    split
    · next hxy =>
      refine List.pairwise_cons.mpr ⟨fun a ha => ?_, hord⟩
      rcases List.mem_cons.mp ha with rfl | hmem
      · exact hxy
      · exact hxy.trans (hy a hmem)
    · next hxy =>
      split
      · next hyx =>
        refine List.pairwise_cons.mpr ⟨fun a ha => ?_, ih hys⟩
        rcases mem_of_mem_put ha with rfl | hmem
        · exact hyx
        · exact hy a hmem
      · next hyx =>
        have heq : key x = key y := le_antisymm (le_of_not_gt hyx) (le_of_not_gt hxy)
        exact List.pairwise_cons.mpr ⟨fun a ha => heq ▸ hy a ha, hys⟩

/-- With a new key the list gains one member and loses none. -/
theorem mem_put_iff (hord : Ordered key xs) (hnew : get key (key x) xs = none) {a : α} :
    a ∈ put key x xs ↔ a = x ∨ a ∈ xs := by
  refine ⟨mem_of_mem_put, fun h => ?_⟩
  have hput := ordered_put x hord
  rcases h with rfl | hmem
  · exact ((get_eq_some_iff hput).mp (get_put_self a xs)).1
  · have hne : key x ≠ key a := by
      intro heq
      rw [heq, get_of_mem hord hmem] at hnew
      cases hnew
    have hget : get key (key a) (put key x xs) = some a := by
      rw [get_put_ne hne, get_of_mem hord hmem]
    exact ((get_eq_some_iff hput).mp hget).1

theorem mem_put (hord : Ordered key xs) {x a : α} :
    a ∈ put key x xs ↔ a = x ∨ a ∈ xs ∧ key a ≠ key x := by
  have hget := get_eq_some_iff (ordered_put x hord) (k := key a) (x := a)
  rw [and_iff_left rfl, get_put] at hget
  rw [← hget]
  split
  · next h => simp [h, eq_comm]
  · next h =>
    rw [get_eq_some_iff hord, and_iff_left rfl]
    have hne : a ≠ x := fun heq => h (heq ▸ rfl)
    simp [hne, Ne.symm h]

/-- With a new key the list is the old one with a member more. -/
theorem perm_put (hnew : get key (key x) xs = none) : (put key x xs).Perm (x :: xs) := by
  induction xs with
  | nil => exact List.Perm.refl _
  | cons y ys ih =>
    rw [get, List.find?_eq_none] at hnew
    have hys : get key (key x) ys = none := List.find?_eq_none.mpr fun z hz => hnew z (List.mem_cons_of_mem y hz)
    have hne : key y ≠ key x := by simpa using hnew y List.mem_cons_self
    rw [put]
    split
    · exact List.Perm.refl _
    · next hxy =>
      rw [if_pos (lt_of_le_of_ne (le_of_not_gt hxy) hne)]
      exact ((ih hys).cons y).trans (List.Perm.swap x y ys)

/-- With an old key the list has the same keys. -/
theorem map_put (hord : Ordered key xs) (hold : ∃ y ∈ xs, key y = key x) :
    (put key x xs).map key = xs.map key := by
  induction xs with
  | nil =>
    obtain ⟨y, hy, -⟩ := hold
    cases hy
  | cons y ys ih =>
    obtain ⟨hy, hys⟩ := List.pairwise_cons.mp hord
    obtain ⟨z, hz, hkey⟩ := hold
    rw [put]
    split
    · next hxy =>
      have hle : key y ≤ key z := by
        rcases List.mem_cons.mp hz with rfl | hmem
        · exact le_refl _
        · exact (hy z hmem).le
      exact absurd hxy (not_lt_of_ge (hkey ▸ hle))
    · split
      · next hyx =>
        have hmem : z ∈ ys := by
          rcases List.mem_cons.mp hz with rfl | hmem
          · exact absurd hyx (by rw [hkey]; exact lt_irrefl _)
          · exact hmem
        rw [List.map_cons, List.map_cons, ih hys ⟨z, hmem, hkey⟩]
      · next hxy hyx =>
        rw [List.map_cons, List.map_cons, le_antisymm (le_of_not_gt hyx) (le_of_not_gt hxy)]

theorem ordered_filter (p : α → Bool) (hord : Ordered key xs) : Ordered key (xs.filter p) :=
  hord.filter p

theorem ordered_remove (k : κ) (hord : Ordered key xs) : Ordered key (remove key k xs) :=
  ordered_filter _ hord

theorem mem_remove {k : κ} : x ∈ remove key k xs ↔ x ∈ xs ∧ key x ≠ k := by
  simp [remove]

theorem get_remove (k k' : κ) (xs : List α) : get key k' (remove key k xs) = if k' = k then none else get key k' xs := by
  rw [get, remove, List.find?_filter]
  split
  · next h =>
    subst h
    exact List.find?_eq_none.mpr fun x _ => by simp
  · next h =>
    refine List.find?_congr fun x _ => ?_
    by_cases hx : key x = k'
    · simp [hx, h]
    · simp [hx]

/-- What a map that keeps the keys does to a lookup. -/
theorem get_map (f : α → α) (hf : ∀ x, key (f x) = key x) (k : κ) (xs : List α) :
    get key k (xs.map f) = (get key k xs).map f := by
  induction xs with
  | nil => rfl
  | cons x xs ih =>
    unfold get at ih ⊢
    by_cases h : key x = k
    · simp [hf, h]
    · simpa [hf, h] using ih

theorem ordered_map (f : α → α) (hf : ∀ x, key (f x) = key x) (hord : Ordered key xs) :
    Ordered key (xs.map f) := by
  refine List.pairwise_map.mpr (hord.imp fun h => ?_)
  rwa [hf, hf]

end KeyedList
