import Mathlib

/- Closing a finite set under successors with a worklist.

   An element is marked when it is put on the list, so it is put there once. As many
   rounds as there are elements are enough: each of them takes one off the list. The list may
   begin with elements that are not marked; their successors are. -/
namespace Worklist

variable {α : Type*} [DecidableEq α]

structure Work (α : Type*) where
  marked : List α
  pending : List α

/-- An element that is not marked is marked and put on the list. -/
def Work.add (w : Work α) (a : α) : Work α :=
  if a ∈ w.marked then w else ⟨a :: w.marked, a :: w.pending⟩

def Work.addAll (w : Work α) (as : List α) : Work α := as.foldl Work.add w

/-- At most so many rounds of taking an element off the list and adding its successors. -/
def close (next : α → List α) : Nat → Work α → Work α
  | 0, w => w
  | n + 1, w =>
    match w.pending with
    | [] => w
    | a :: rest => close next n (Work.addAll ⟨w.marked, rest⟩ (next a))

/-! ## Adding -/

section Add
variable (w : Work α) (as : List α)

theorem subset_add (a : α) : w.marked ⊆ (w.add a).marked ∧ w.pending ⊆ (w.add a).pending := by
  unfold Work.add
  split
  · exact ⟨List.Subset.refl _, List.Subset.refl _⟩
  · exact ⟨List.subset_cons_self a w.marked, List.subset_cons_self a w.pending⟩

theorem marked_addAll : w.marked ⊆ (w.addAll as).marked := by
  induction as generalizing w with
  | nil => exact List.Subset.refl _
  | cons a as ih => exact List.Subset.trans (subset_add w a).1 (ih (w.add a))

theorem mem_addAll {a : α} (h : a ∈ as) : a ∈ (w.addAll as).marked := by
  induction as generalizing w with
  | nil => cases h
  | cons b as ih =>
    rcases List.mem_cons.mp h with rfl | htail
    · refine marked_addAll (w.add a) as ?_
      unfold Work.add
      split
      · assumption
      · exact List.mem_cons_self
    · exact ih (w.add b) htail

theorem pending_addAll : w.pending ⊆ (w.addAll as).pending := by
  induction as generalizing w with
  | nil => exact List.Subset.refl _
  | cons a as ih => exact List.Subset.trans (subset_add w a).2 (ih (w.add a))

end Add

/-! ## Closing -/

/-- Everything marked or on the list lies in the set, and is marked once; and what is marked and neither
on the list nor just taken off it has been dealt with. -/
structure Invariant (next : α → List α) (all : Finset α) (busy : List α) (w : Work α) : Prop where
  nodup : w.marked.Nodup
  bounded : ∀ a ∈ w.marked, a ∈ all
  pending_bounded : ∀ a ∈ w.pending, a ∈ all
  settled : ∀ a ∈ w.marked, a ∈ w.pending ∨ a ∈ busy ∨ ∀ b ∈ next a, b ∈ w.marked

variable {next : α → List α} {all : Finset α} {busy : List α} {w : Work α}

theorem Invariant.add (h : Invariant next all busy w) {a : α} (ha : a ∈ all) : Invariant next all busy (w.add a) := by
  unfold Work.add
  split
  · exact h
  rename_i hfresh
  refine ⟨List.nodup_cons.mpr ⟨hfresh, h.nodup⟩, ?_, ?_, ?_⟩
  · exact List.forall_mem_cons.mpr ⟨ha, h.bounded⟩
  · exact List.forall_mem_cons.mpr ⟨ha, h.pending_bounded⟩
  · refine List.forall_mem_cons.mpr ⟨.inl List.mem_cons_self, fun b hb => ?_⟩
    rcases h.settled b hb with hpending | hbusy | hnext
    · exact .inl (List.mem_cons_of_mem a hpending)
    · exact .inr (.inl hbusy)
    · exact .inr (.inr fun c hc => List.mem_cons_of_mem a (hnext c hc))

theorem Invariant.addAll (h : Invariant next all busy w) {as : List α} (has : ∀ a ∈ as, a ∈ all) :
    Invariant next all busy (w.addAll as) := by
  induction as generalizing w with
  | nil => exact h
  | cons a as ih => exact ih (h.add (has a (by simp))) fun b hb => has b (by simp [hb])

/-- What is on the list, and what may still come onto it. -/
def left (all : Finset α) (w : Work α) : Nat := all.card - w.marked.length + w.pending.length

theorem Invariant.length_le (h : Invariant next all busy w) : w.marked.length ≤ all.card := by
  rw [← List.toFinset_card_of_nodup h.nodup]
  exact Finset.card_le_card fun a ha => h.bounded a (List.mem_toFinset.mp ha)

theorem Invariant.left_add (h : Invariant next all busy w) {a : α} (ha : a ∈ all) : left all (w.add a) = left all w := by
  have hle := (h.add ha).length_le
  unfold left
  unfold Work.add at hle ⊢
  split
  · rfl
  · rename_i hfresh
    rw [if_neg hfresh] at hle
    simp only [List.length_cons] at hle ⊢
    omega

theorem Invariant.left_addAll (h : Invariant next all busy w) {as : List α} (has : ∀ a ∈ as, a ∈ all) :
    left all (w.addAll as) = left all w := by
  induction as generalizing w with
  | nil => rfl
  | cons a as ih =>
    have ha := has a (by simp)
    calc left all ((w.add a).addAll as) = left all (w.add a) := ih (h.add ha) fun b hb => has b (by simp [hb])
      _ = left all w := h.left_add ha

/-- Taking an element off the list and adding its successors. -/
theorem Invariant.round (hnext : ∀ a ∈ all, ∀ b ∈ next a, b ∈ all) {marked rest : List α} {a : α}
    (h : Invariant next all [] ⟨marked, a :: rest⟩) :
    Invariant next all [] (Work.addAll ⟨marked, rest⟩ (next a)) ∧
      left all (Work.addAll ⟨marked, rest⟩ (next a)) + 1 = left all ⟨marked, a :: rest⟩ := by
  have hall : ∀ b ∈ next a, b ∈ all := hnext a (h.pending_bounded a List.mem_cons_self)
  have hbusy : Invariant next all [a] ⟨marked, rest⟩ := by
    refine ⟨h.nodup, h.bounded, fun b hb => h.pending_bounded b (List.mem_cons_of_mem a hb), fun b hb => ?_⟩
    rcases h.settled b hb with hpending | hnone | hclosed
    · rcases List.mem_cons.mp hpending with rfl | hrest
      · exact .inr (.inl List.mem_cons_self)
      · exact .inl hrest
    · cases hnone
    · exact .inr (.inr hclosed)
  have hadded := hbusy.addAll hall
  refine ⟨⟨hadded.nodup, hadded.bounded, hadded.pending_bounded, fun b hb => ?_⟩, ?_⟩
  · rcases hadded.settled b hb with hpending | hsame | hclosed
    · exact .inl hpending
    · rw [List.mem_singleton.mp hsame]
      exact .inr (.inr fun c hc => mem_addAll _ _ hc)
    · exact .inr (.inr hclosed)
  · rw [hbusy.left_addAll hall]
    rfl

omit [DecidableEq α] in
/-- With nothing on the list, what is marked is closed. -/
theorem Invariant.closed (h : Invariant next all [] w) (hempty : w.pending = []) :
    ∀ a ∈ w.marked, ∀ b ∈ next a, b ∈ w.marked := by
  intro a ha
  rcases h.settled a ha with hpending | hnone | hclosed
  · rw [hempty] at hpending
    cases hpending
  · cases hnone
  · exact hclosed

/-- With enough rounds what is marked in the end is closed. -/
theorem close_closed (hnext : ∀ a ∈ all, ∀ b ∈ next a, b ∈ all) {rounds : Nat} (h : Invariant next all [] w)
    (hleft : left all w ≤ rounds) :
    (∀ a ∈ (close next rounds w).marked, a ∈ all) ∧
      ∀ a ∈ (close next rounds w).marked, ∀ b ∈ next a, b ∈ (close next rounds w).marked := by
  induction rounds generalizing w with
  | zero =>
    have hempty : w.pending = [] := List.length_eq_zero_iff.mp (by unfold left at hleft; omega)
    exact ⟨h.bounded, h.closed hempty⟩
  | succ rounds ih =>
    obtain ⟨marked, pending⟩ := w
    cases pending with
    | nil => exact ⟨h.bounded, h.closed rfl⟩
    | cons a rest =>
      obtain ⟨hround, hless⟩ := Invariant.round hnext h
      have hfewer : left all (Work.addAll ⟨marked, rest⟩ (next a)) ≤ rounds := by omega
      exact ih hround hfewer

theorem marked_close (rounds : Nat) (w : Work α) : w.marked ⊆ (close next rounds w).marked := by
  induction rounds generalizing w with
  | zero => exact List.Subset.refl _
  | succ rounds ih =>
    obtain ⟨marked, pending⟩ := w
    cases pending with
    | nil => exact List.Subset.refl _
    | cons a rest => exact List.Subset.trans (marked_addAll ⟨marked, rest⟩ (next a)) (ih _)

/-- With enough rounds all that was on the list is dealt with. -/
theorem close_pending (hnext : ∀ a ∈ all, ∀ b ∈ next a, b ∈ all) {rounds : Nat} (h : Invariant next all [] w)
    (hleft : left all w ≤ rounds) : ∀ a ∈ w.pending, ∀ b ∈ next a, b ∈ (close next rounds w).marked := by
  induction rounds generalizing w with
  | zero =>
    have hempty : w.pending = [] := List.length_eq_zero_iff.mp (by unfold left at hleft; omega)
    simp [hempty]
  | succ rounds ih =>
    obtain ⟨marked, pending⟩ := w
    cases pending with
    | nil => exact fun a ha => absurd ha List.not_mem_nil
    | cons a rest =>
      obtain ⟨hround, hless⟩ := Invariant.round hnext h
      intro c hc b hb
      rcases List.mem_cons.mp hc with rfl | hrest
      · exact marked_close rounds _ (mem_addAll _ _ hb)
      · exact ih hround (by omega) c (pending_addAll ⟨marked, rest⟩ (next a) hrest) b hb

end Worklist
