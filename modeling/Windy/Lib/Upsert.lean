import Mathlib

/- Writes that can be done in any order.

   `foldl_perm`: steps that commute wherever an invariant holds give one result in every order.

   `upsert` changes the first entry with a key or, where there is none, adds an entry and sorts by
   key, keeping the order of entries with the same key. Two of them at different keys commute
   (`upsert_comm`): a change passes through the sort (`modifyFirst_sort`), and an entry whose key is
   new has one place in it (`sort_concat`). -/
namespace Upsert

/-! ## Steps in any order -/

theorem foldl_perm {α β : Type*} {step : β → α → β} {I : β → Prop} {xs ys : List α} (hperm : xs.Perm ys)
    (hkeep : ∀ b, I b → ∀ x ∈ xs, I (step b x))
    (hcomm : ∀ b, I b → ∀ x ∈ xs, ∀ y ∈ xs, step (step b x) y = step (step b y) x) {b : β} (hb : I b) :
    xs.foldl step b = ys.foldl step b := by
  induction hperm generalizing b with
  | nil => rfl
  | @cons x xs ys _ ih =>
    rw [List.foldl_cons, List.foldl_cons]
    exact ih (fun b hb z hz => hkeep b hb z (List.mem_cons_of_mem x hz))
      (fun b hb z hz w hw => hcomm b hb z (List.mem_cons_of_mem x hz) w (List.mem_cons_of_mem x hw))
      (hkeep b hb x List.mem_cons_self)
  | swap x y xs =>
    simp only [List.foldl_cons]
    rw [hcomm b hb y List.mem_cons_self x (List.mem_cons_of_mem y List.mem_cons_self)]
  | trans hxy _ ih ih' =>
    rw [ih hkeep hcomm hb]
    refine ih' (fun b hb z hz => hkeep b hb z (hxy.mem_iff.mpr hz)) (fun b hb z hz w hw => ?_) hb
    exact hcomm b hb z (hxy.mem_iff.mpr hz) w (hxy.mem_iff.mpr hw)

/-! ## Lists with a key -/

section Keyed
variable {α κ : Type*} [LinearOrder κ] (key : α → κ)

/-- Changes the first entry with the key. -/
def modifyFirst (k : κ) (f : α → α) : List α → List α
  | [] => []
  | x :: xs => if key x = k then f x :: xs else x :: modifyFirst k f xs

/-- Stable. -/
abbrev sort (xs : List α) : List α := xs.insertionSort fun a b => key a ≤ key b

/-- Changes the first entry with the key, or adds `new`. -/
def upsert (k : κ) (f : α → α) (new : α) (xs : List α) : List α :=
  if k ∈ xs.map key then modifyFirst key k f xs else sort key (xs ++ [new])

variable {key} {k k' : κ} {f f' : α → α} {x y : α}

theorem sort_cons (x : α) (xs : List α) :
    sort key (x :: xs) = (sort key xs).orderedInsert (fun a b => key a ≤ key b) x := rfl

theorem modify_findIdx? {xs : List α} {i : Nat} (h : xs.findIdx? (fun x => key x = k) = some i) :
    xs.modify i f = modifyFirst key k f xs := by
  induction xs generalizing i with
  | nil => cases h
  | cons x xs ih =>
    rw [List.findIdx?_cons] at h
    by_cases hx : key x = k
    · rw [decide_eq_true hx, if_pos rfl] at h
      rw [← Option.some.inj h, List.modify_zero_cons, modifyFirst, if_pos hx]
    · rw [decide_eq_false hx, if_neg Bool.false_ne_true] at h
      obtain ⟨j, hj, rfl⟩ := Option.map_eq_some_iff.mp h
      rw [List.modify_succ_cons, modifyFirst, if_neg hx, ih hj]

section Changes
variable (hf : ∀ x, key (f x) = key x)
include hf

theorem map_modifyFirst (xs : List α) : (modifyFirst key k f xs).map key = xs.map key := by
  induction xs with
  | nil => rfl
  | cons x xs ih =>
    rw [modifyFirst]
    split
    · rw [List.map_cons, List.map_cons, hf]
    · rw [List.map_cons, List.map_cons, ih]

theorem modifyFirst_comm (hf' : ∀ x, key (f' x) = key x) (hne : k ≠ k') (xs : List α) :
    modifyFirst key k f (modifyFirst key k' f' xs) = modifyFirst key k' f' (modifyFirst key k f xs) := by
  induction xs with
  | nil => rfl
  | cons x xs ih =>
    by_cases hx : key x = k
    · have hx' : ¬ key x = k' := fun h => hne (hx.symm.trans h)
      have hfx' : ¬ key (f x) = k' := by rwa [hf]
      simp only [modifyFirst, if_pos hx, if_neg hx', if_neg hfx']
    · by_cases hx' : key x = k'
      · have hfx : ¬ key (f' x) = k := by rwa [hf']
        simp only [modifyFirst, if_neg hx, if_pos hx', if_neg hfx]
      · simp only [modifyFirst, if_neg hx, if_neg hx', ih]

/-- The entry goes in before those with its key, so it is the first of them. -/
theorem modifyFirst_orderedInsert_self (hx : key x = k) (xs : List α) :
    modifyFirst key k f (xs.orderedInsert (fun a b => key a ≤ key b) x) =
      xs.orderedInsert (fun a b => key a ≤ key b) (f x) := by
  induction xs with
  | nil => simp only [List.orderedInsert_nil, modifyFirst, if_pos hx]
  | cons y ys ih =>
    simp only [List.orderedInsert_cons, hf]
    by_cases hle : key x ≤ key y
    · simp only [if_pos hle, modifyFirst, if_pos hx]
    · have hy : ¬ key y = k := fun h => hle (le_of_eq (hx.trans h.symm))
      simp only [if_neg hle, modifyFirst, if_neg hy, ih]

theorem modifyFirst_orderedInsert_of_ne (hx : key x ≠ k) (xs : List α) :
    modifyFirst key k f (xs.orderedInsert (fun a b => key a ≤ key b) x) =
      (modifyFirst key k f xs).orderedInsert (fun a b => key a ≤ key b) x := by
  induction xs with
  | nil => simp only [List.orderedInsert_nil, modifyFirst, if_neg hx]
  | cons y ys ih =>
    by_cases hle : key x ≤ key y
    · by_cases hy : key y = k
      · have hle' : key x ≤ key (f y) := by rwa [hf]
        simp only [List.orderedInsert_cons, if_pos hle, modifyFirst, if_neg hx, if_pos hy, if_pos hle']
      · simp only [List.orderedInsert_cons, if_pos hle, modifyFirst, if_neg hx, if_neg hy]
    · by_cases hy : key y = k
      · have hle' : ¬ key x ≤ key (f y) := by rwa [hf]
        simp only [List.orderedInsert_cons, if_neg hle, modifyFirst, if_pos hy, if_neg hle']
      · simp only [List.orderedInsert_cons, if_neg hle, modifyFirst, if_neg hy, ih]

/-- A change of the first entry passes through the sort. -/
theorem modifyFirst_sort (xs : List α) : modifyFirst key k f (sort key xs) = sort key (modifyFirst key k f xs) := by
  induction xs with
  | nil => rfl
  | cons x xs ih =>
    by_cases hx : key x = k
    · rw [sort_cons, modifyFirst_orderedInsert_self hf hx, modifyFirst, if_pos hx, sort_cons]
    · rw [sort_cons, modifyFirst_orderedInsert_of_ne hf hx, ih, modifyFirst, if_neg hx, sort_cons]

end Changes

variable {xs : List α}

theorem modifyFirst_concat (hk : k ∈ xs.map key) (x : α) :
    modifyFirst key k f (xs ++ [x]) = modifyFirst key k f xs ++ [x] := by
  induction xs with
  | nil => cases hk
  | cons y ys ih =>
    by_cases hy : key y = k
    · simp only [List.cons_append, modifyFirst, if_pos hy]
    · have hmem : k ∈ ys.map key := (List.mem_cons.mp hk).resolve_left (Ne.symm hy)
      simp only [List.cons_append, modifyFirst, if_neg hy, ih hmem]

theorem orderedInsert_comm (hne : key x ≠ key y) (xs : List α) :
    (xs.orderedInsert (fun a b => key a ≤ key b) y).orderedInsert (fun a b => key a ≤ key b) x =
      (xs.orderedInsert (fun a b => key a ≤ key b) x).orderedInsert (fun a b => key a ≤ key b) y := by
  induction xs with
  | nil =>
    rcases lt_or_gt_of_ne hne with h | h
    · simp [List.orderedInsert_cons, le_of_lt h, not_le_of_gt h]
    · simp [List.orderedInsert_cons, le_of_lt h, not_le_of_gt h]
  | cons z zs ih =>
    -- the smaller of the two goes before the other, and before `z` if the other does
    rcases lt_or_gt_of_ne hne with h | h
    · by_cases hy : key y ≤ key z
      · have hx : key x ≤ key z := le_trans (le_of_lt h) hy
        simp only [List.orderedInsert_cons, if_pos hx, if_pos hy, if_pos (le_of_lt h), if_neg (not_le_of_gt h)]
      · by_cases hx : key x ≤ key z
        · simp only [List.orderedInsert_cons, if_pos hx, if_neg hy, if_neg (not_le_of_gt h)]
        · simp only [List.orderedInsert_cons, if_neg hx, if_neg hy, ih]
    · by_cases hx : key x ≤ key z
      · have hy : key y ≤ key z := le_trans (le_of_lt h) hx
        simp only [List.orderedInsert_cons, if_pos hx, if_pos hy, if_pos (le_of_lt h), if_neg (not_le_of_gt h)]
      · by_cases hy : key y ≤ key z
        · simp only [List.orderedInsert_cons, if_neg hx, if_pos hy, if_neg (not_le_of_gt h)]
        · simp only [List.orderedInsert_cons, if_neg hx, if_neg hy, ih]

/-- An entry with a new key has its place, wherever it stood before. -/
theorem sort_concat (hx : key x ∉ xs.map key) :
    sort key (xs ++ [x]) = (sort key xs).orderedInsert (fun a b => key a ≤ key b) x := by
  induction xs with
  | nil => rfl
  | cons y ys ih =>
    have hne : key y ≠ key x := fun h => hx (h ▸ List.mem_cons_self)
    rw [List.cons_append, sort_cons, ih fun h => hx (List.mem_cons_of_mem _ h), orderedInsert_comm hne, ← sort_cons]

theorem sort_sort (xs : List α) : sort key (sort key xs) = sort key xs :=
  (List.pairwise_insertionSort (fun a b => key a ≤ key b) xs).insertionSort_eq

theorem mem_map_sort : k ∈ (sort key xs).map key ↔ k ∈ xs.map key :=
  ((List.perm_insertionSort (fun a b => key a ≤ key b) xs).map key).mem_iff

theorem mem_map_upsert (hf : ∀ x, key (f x) = key x) (hx : key x = k) :
    k' ∈ (upsert key k f x xs).map key ↔ k' ∈ xs.map key ∨ k' = k := by
  unfold upsert
  split
  · rename_i hmem
    rw [map_modifyFirst hf]
    exact ⟨Or.inl, fun h => h.elim id fun heq => heq ▸ hmem⟩
  · rw [mem_map_sort, List.map_append, List.mem_append, List.map_cons, List.map_nil, List.mem_singleton, hx]

/-- The entry at `k'` is there, that at `k` is not. -/
theorem upsert_comm_of_mem (hf' : ∀ x, key (f' x) = key x) (hx : key x = k)
    (hf : ∀ x, key (f x) = key x) (hk : k ∉ xs.map key) (hk' : k' ∈ xs.map key) :
    upsert key k f x (upsert key k' f' y xs) = upsert key k' f' y (upsert key k f x xs) := by
  have hadd : k' ∈ (upsert key k f x xs).map key := (mem_map_upsert hf hx).mpr (Or.inl hk')
  unfold upsert at hadd ⊢
  rw [if_neg hk] at hadd ⊢
  rw [if_pos hk', map_modifyFirst hf', if_neg hk, if_pos hadd, modifyFirst_sort hf', modifyFirst_concat hk']

theorem upsert_comm (hf : ∀ x, key (f x) = key x) (hf' : ∀ x, key (f' x) = key x) (hx : key x = k) (hy : key y = k')
    (hne : k ≠ k') (xs : List α) :
    upsert key k f x (upsert key k' f' y xs) = upsert key k' f' y (upsert key k f x xs) := by
  by_cases hk : k ∈ xs.map key
  · by_cases hk' : k' ∈ xs.map key
    · unfold upsert
      rw [if_pos hk, if_pos hk', map_modifyFirst hf', if_pos hk, map_modifyFirst hf, if_pos hk',
        modifyFirst_comm hf hf' hne]
    · exact (upsert_comm_of_mem hf hy hf' hk' hk).symm
  · by_cases hk' : k' ∈ xs.map key
    · exact upsert_comm_of_mem hf' hx hf hk hk'
    · have hk₁ : k ∉ (sort key (xs ++ [y])).map key := by
        rw [mem_map_sort]
        simp [hy, hne, hk]
      have hk₂ : k' ∉ (sort key (xs ++ [x])).map key := by
        rw [mem_map_sort]
        simp [hx, hne.symm, hk']
      have hsort : ∀ {u v : α}, key u ∉ (sort key (xs ++ [v])).map key → key v ∉ xs.map key →
          sort key (sort key (xs ++ [v]) ++ [u]) =
            ((sort key xs).orderedInsert (fun a b => key a ≤ key b) v).orderedInsert (fun a b => key a ≤ key b) u := by
        intro u v hu hv
        rw [sort_concat hu, sort_sort, sort_concat hv]
      unfold upsert
      rw [if_neg hk, if_neg hk', if_neg hk₁, if_neg hk₂, hsort (hx ▸ hk₁) (hy ▸ hk'), hsort (hy ▸ hk₂) (hx ▸ hk)]
      exact orderedInsert_comm (by rw [hx, hy]; exact hne) _

end Keyed

end Upsert
