import Mathlib

/- Depth-first search with a stack, where an element is marked when it is taken off.

   `Found` is what the search is for: what can be reached from the stack without passing
   anything that is marked already or not to be entered. `mem_search` says that the search
   marks just that, given a round for each element of the stack and for each edge. -/
namespace Search

variable {α : Type*} [DecidableEq α]

/-- At most so many rounds of taking an element off the stack. One that is marked or not to
be entered is dropped; any other is marked and its successors are pushed, the last on top. -/
def search (next : α → List α) (skip : α → Bool) : Nat → List α → List α → List α
  | 0, _, seen => seen
  | _ + 1, [], seen => seen
  | n + 1, a :: rest, seen =>
    if skip a || a ∈ seen then search next skip n rest seen
    else search next skip n ((next a).reverse ++ rest) (a :: seen)

/-- Reached from the stack around what is marked or not to be entered. -/
inductive Found (next : α → List α) (skip : α → Bool) (seen stack : List α) : α → Prop
  | start {a : α} (h : a ∈ stack) (hskip : skip a = false) (hseen : a ∉ seen) : Found next skip seen stack a
  | step {a b : α} (ha : Found next skip seen stack a) (h : b ∈ next a) (hskip : skip b = false) (hseen : b ∉ seen) :
    Found next skip seen stack b

section Found
variable {next : α → List α} {skip : α → Bool} {seen stack : List α} {a b : α}

omit [DecidableEq α] in
theorem Found.mono {stack' : List α} (h : Found next skip seen stack b) (hsub : ∀ a ∈ stack, a ∈ stack') :
    Found next skip seen stack' b := by
  induction h with
  | start h hskip hseen => exact .start (hsub _ h) hskip hseen
  | step _ h hskip hseen ih => exact .step ih h hskip hseen

omit [DecidableEq α] in
/-- An element that is dropped leads nowhere. -/
theorem found_drop (h : skip a = true ∨ a ∈ seen) :
    Found next skip seen (a :: stack) b ↔ Found next skip seen stack b := by
  constructor
  · intro hb
    induction hb with
    | start hmem hskip hseen =>
      rcases List.mem_cons.mp hmem with rfl | hmem
      · rcases h with h | h
        · rw [h] at hskip
          cases hskip
        · exact absurd h hseen
      · exact .start hmem hskip hseen
    | step _ hnext hskip hseen ih => exact .step ih hnext hskip hseen
  · exact fun hb => hb.mono fun c hc => List.mem_cons_of_mem a hc

/-- What is found is the element on top, or found once that is marked. -/
theorem found_mark (hskip : skip a = false) (hseen : a ∉ seen) :
    Found next skip seen (a :: stack) b ↔ b = a ∨ Found next skip (a :: seen) ((next a).reverse ++ stack) b := by
  have ha : Found next skip seen (a :: stack) a := .start List.mem_cons_self hskip hseen
  constructor
  · intro hb
    induction hb with
    | @start c hmem hskip' hseen' =>
      by_cases hca : c = a
      · exact .inl hca
      · refine .inr (.start (List.mem_append_right _ ?_) hskip' (List.not_mem_cons_of_ne_of_not_mem hca hseen'))
        exact (List.mem_cons.mp hmem).resolve_left hca
    | @step c d _ hnext hskip' hseen' ih =>
      by_cases hda : d = a
      · exact .inl hda
      · have hseen'' : d ∉ a :: seen := List.not_mem_cons_of_ne_of_not_mem hda hseen'
        rcases ih with rfl | ih
        · exact .inr (.start (List.mem_append_left _ (List.mem_reverse.mpr hnext)) hskip' hseen'')
        · exact .inr (.step ih hnext hskip' hseen'')
  · rintro (rfl | hb)
    · exact ha
    · induction hb with
      | start hmem hskip' hseen' =>
        have hseen'' := fun h => hseen' (List.mem_cons_of_mem a h)
        rcases List.mem_append.mp hmem with hmem | hmem
        · exact .step ha (List.mem_reverse.mp hmem) hskip' hseen''
        · exact .start (List.mem_cons_of_mem a hmem) hskip' hseen''
      | step _ hnext hskip' hseen' ih => exact .step ih hnext hskip' fun h => hseen' (List.mem_cons_of_mem a h)

end Found

/-- The rounds that are left: those for the stack, and for the edges out of what is not
marked. -/
def left (next : α → List α) (all : Finset α) (stack seen : List α) : Nat :=
  stack.length + ∑ a ∈ all.filter (· ∉ seen), (next a).length

variable {next : α → List α}

theorem left_mark {all : Finset α} (hall : ∀ a ∉ all, next a = []) {a : α} {stack seen : List α}
    (hseen : a ∉ seen) : left next all ((next a).reverse ++ stack) (a :: seen) + 1 = left next all (a :: stack) seen := by
  have hsum : ∑ b ∈ all.filter (· ∉ seen), (next b).length =
      (next a).length + ∑ b ∈ all.filter (· ∉ a :: seen), (next b).length := by
    by_cases ha : a ∈ all
    · have hsplit : all.filter (· ∉ seen) = insert a (all.filter (· ∉ a :: seen)) := by
        ext b
        by_cases hb : b = a
        · simp [hb, ha, hseen]
        · simp [hb]
      rw [hsplit, Finset.sum_insert (by simp)]
    · have hsame : all.filter (· ∉ seen) = all.filter (· ∉ a :: seen) := by
        apply Finset.filter_congr
        intro b hb
        have hne : b ≠ a := fun h => ha (h ▸ hb)
        simp [hne]
      rw [hall a ha, hsame, List.length_nil, Nat.zero_add]
  rw [left, left, hsum, List.length_append, List.length_reverse, List.length_cons]
  omega

omit [DecidableEq α] in
theorem not_found_nil {skip : α → Bool} {seen : List α} {b : α} : ¬ Found next skip seen [] b := by
  intro h
  induction h with
  | start h _ _ => cases h
  | step _ _ _ _ ih => exact ih

/-- The search marks what is found, and nothing else. -/
theorem mem_search {skip : α → Bool} {all : Finset α} (hall : ∀ a ∉ all, next a = []) {fuel : Nat}
    {stack seen : List α} (hfuel : left next all stack seen ≤ fuel) {b : α} :
    b ∈ search next skip fuel stack seen ↔ b ∈ seen ∨ Found next skip seen stack b := by
  induction fuel generalizing stack seen with
  | zero =>
    have hnil : stack = [] := by
      rw [left] at hfuel
      exact List.length_eq_zero_iff.mp (by omega)
    simp [search, hnil, not_found_nil]
  | succ n ih =>
    cases stack with
    | nil => simp [search, not_found_nil]
    | cons a rest =>
      rw [search]
      split
      · rename_i hdrop
        have hdrop' : skip a = true ∨ a ∈ seen := by simpa using hdrop
        have hleft : left next all rest seen + 1 = left next all (a :: rest) seen := by
          simp only [left, List.length_cons]
          omega
        rw [ih (by omega), found_drop hdrop']
      · rename_i hfresh
        obtain ⟨hskip, hseen⟩ : skip a = false ∧ a ∉ seen := by simpa using hfresh
        have hleft : left next all ((next a).reverse ++ rest) (a :: seen) + 1 = left next all (a :: rest) seen :=
          left_mark hall hseen
        rw [ih (by omega), found_mark hskip hseen, List.mem_cons]
        tauto

/-- A round for each element of the stack and for each edge. -/
def rounds (next : α → List α) (all stack : List α) : Nat := stack.length + (all.map fun a => (next a).length).sum

theorem mem_search_rounds {skip : α → Bool} {all : List α} (hnodup : all.Nodup)
    (hall : ∀ a ∉ all, next a = []) {stack seen : List α} {b : α} :
    b ∈ search next skip (rounds next all stack) stack seen ↔ b ∈ seen ∨ Found next skip seen stack b := by
  have hall' : ∀ a ∉ all.toFinset, next a = [] := fun a ha => hall a fun h => ha (List.mem_toFinset.mpr h)
  apply mem_search hall'
  · apply Nat.add_le_add_left
    calc ∑ a ∈ all.toFinset.filter (· ∉ seen), (next a).length
        ≤ ∑ a ∈ all.toFinset, (next a).length := Finset.sum_le_sum_of_subset (Finset.filter_subset _ _)
      _ = (all.map fun a => (next a).length).sum := List.sum_toFinset _ hnodup

/-! ## Renaming -/

section Renaming
variable {β : Type*} [DecidableEq β] {next : α → List α} {next' : β → List β} {skip : α → Bool} {skip' : β → Bool}
  {seen stack : List α} {seen' stack' : List β} {b : α}

omit [DecidableEq α] [DecidableEq β] in
theorem Found.map {f : α → β} (hnext : ∀ a b, b ∈ next a → f b ∈ next' (f a)) (hskip : ∀ a, skip' (f a) = skip a)
    (hseen : ∀ a, f a ∈ seen' → a ∈ seen) (hstack : ∀ a ∈ stack, f a ∈ stack') (h : Found next skip seen stack b) :
    Found next' skip' seen' stack' (f b) := by
  induction h with
  | start hmem hs hfresh => exact .start (hstack _ hmem) ((hskip _).trans hs) fun h => hfresh (hseen _ h)
  | step _ hmem hs hfresh ih => exact .step ih (hnext _ _ hmem) ((hskip _).trans hs) fun h => hfresh (hseen _ h)

omit [DecidableEq α] [DecidableEq β] in
/-- What is found does not depend on the names of the elements. -/
theorem found_rename (e : α ≃ β) (hnext : ∀ a b, b ∈ next a ↔ e b ∈ next' (e a)) (hskip : ∀ a, skip' (e a) = skip a)
    (hseen : ∀ a, a ∈ seen ↔ e a ∈ seen') (hstack : ∀ a, a ∈ stack ↔ e a ∈ stack') :
    Found next skip seen stack b ↔ Found next' skip' seen' stack' (e b) := by
  constructor
  · exact Found.map (fun a b => (hnext a b).mp) hskip (fun a => (hseen a).mpr) fun a => (hstack a).mp
  · intro h
    have hback : Found next skip seen stack (e.symm (e b)) := h.map
      (fun x y hy => (hnext _ _).mpr (by rw [e.apply_symm_apply, e.apply_symm_apply]; exact hy))
      (fun x => by rw [← hskip, e.apply_symm_apply])
      (fun x hx => by rw [hseen, e.apply_symm_apply] at hx; exact hx)
      (fun x hx => (hstack _).mpr (by rw [e.apply_symm_apply]; exact hx))
    rwa [e.symm_apply_apply] at hback

end Renaming

end Search
