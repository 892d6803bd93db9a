import Mathlib

/- Numbers given out one after the other.

   A table gives each key it has seen a number, the next free one. `Dense m n`: the numbers
   below `n` are each given to exactly one key, and no others are given. It holds of the empty
   table and is kept by a key that is new (`Dense.insert`); what was looked up before stays. -/
namespace Numbering

variable {α : Type*} [DecidableEq α]

abbrev Table (α : Type*) := Finmap fun _ : α => Nat

structure Dense (m : Table α) (n : Nat) : Prop where
  lt : ∀ k i, m.lookup k = some i → i < n
  injective : ∀ k k' i, m.lookup k = some i → m.lookup k' = some i → k = k'
  onto : ∀ i, i < n → ∃ k, m.lookup k = some i

variable {m : Table α} {n : Nat}

theorem dense_empty : Dense (∅ : Table α) 0 :=
  ⟨fun k i h => by simp at h, fun k k' i h => by simp at h, fun i h => absurd h (Nat.not_lt_zero i)⟩

theorem lookup_insert_eq_some {k k' : α} {i : Nat} (h : m.lookup k = none) :
    (m.insert k n).lookup k' = some i ↔ m.lookup k' = some i ∨ k' = k ∧ i = n := by
  by_cases hk : k' = k
  · subst hk
    rw [Finmap.lookup_insert, h]
    simp [eq_comm]
  · rw [Finmap.lookup_insert_of_ne _ hk]
    simp [hk]

/-- A new key gets the next number. -/
theorem Dense.insert (hm : Dense m n) {k : α} (h : m.lookup k = none) : Dense (m.insert k n) (n + 1) := by
  refine ⟨fun k' i hi => ?_, fun k' k'' i hi hi' => ?_, fun i hi => ?_⟩
  · rcases (lookup_insert_eq_some h).mp hi with hold | ⟨-, rfl⟩
    · exact Nat.lt_succ_of_lt (hm.lt k' i hold)
    · exact Nat.lt_succ_self i
  · rcases (lookup_insert_eq_some h).mp hi with hold | ⟨rfl, rfl⟩
    · rcases (lookup_insert_eq_some h).mp hi' with hold' | ⟨-, heq⟩
      · exact hm.injective k' k'' i hold hold'
      · exact absurd (hm.lt k' i hold) (by omega)
    · rcases (lookup_insert_eq_some h).mp hi' with hold' | ⟨rfl, -⟩
      · exact absurd (hm.lt k'' i hold') (Nat.lt_irrefl i)
      · rfl
  · rcases Nat.lt_succ_iff_lt_or_eq.mp hi with hlt | rfl
    · obtain ⟨k', hk'⟩ := hm.onto i hlt
      exact ⟨k', (lookup_insert_eq_some h).mpr (Or.inl hk')⟩
    · exact ⟨k, (lookup_insert_eq_some h).mpr (Or.inr ⟨rfl, rfl⟩)⟩

/-- Nothing that was found is lost. -/
theorem lookup_insert_of_lookup {k k' : α} {i : Nat} (h : m.lookup k = none) (hk' : m.lookup k' = some i) :
    (m.insert k n).lookup k' = some i := (lookup_insert_eq_some h).mpr (Or.inl hk')

end Numbering
