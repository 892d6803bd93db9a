import Mathlib

/- The best elements of a stream in a bounded heap, and paging through a ranking.

   The heap is the list of what it holds, worst first, so its root is the head. An element is
   offered to it: it is pushed while there is room, and replaces the root when it is better.
   Elements are ordered by a key; where no two of the stream share one, the heap ends up with the
   first `limit` elements of the sorted stream (`sort_foldl_offer`).

   The first element of the sorted stream that passes a test is the first of the best that pass
   (`find?_sort`).

   A page is the beginning of what lies behind a cursor, and the key of its last element is the next
   cursor: what lies behind that is the remainder (`behind_last`). -/
namespace TopK

variable {α κ : Type*}

/-- Puts an element into a list that is ordered worst first. -/
def push (before : α → α → Bool) (x : α) : List α → List α
  | [] => [x]
  | worst :: rest => if before x worst then worst :: push before x rest else x :: worst :: rest

/-- `if heap.len() < limit { push } else if x is better than the root { pop; push }`. -/
def offer (before : α → α → Bool) (limit : Nat) (heap : List α) (x : α) : List α :=
  if heap.length < limit then push before x heap
  else match heap with
    | worst :: rest => if before x worst then push before x rest else heap
    | [] => heap

section Heap
variable [LinearOrder κ] {key : α → κ} {before : α → α → Bool}

theorem push_perm (x : α) (heap : List α) : (push before x heap).Perm (x :: heap) := by
  induction heap with
  | nil => exact .refl _
  | cons worst rest ih =>
    unfold push
    split
    · exact (ih.cons worst).trans (.swap x worst rest)
    · exact .refl _

theorem pairwise_push (hbefore : ∀ a b, before a b = true ↔ key a < key b) {x : α} {heap : List α}
    (h : heap.Pairwise fun a b => key b ≤ key a) :
    (push before x heap).Pairwise fun a b => key b ≤ key a := by
  induction heap with
  | nil => exact List.pairwise_singleton _ x
  | cons worst rest ih =>
    obtain ⟨hworst, hrest⟩ := List.pairwise_cons.mp h
    unfold push
    split
    · next hx =>
      refine List.pairwise_cons.mpr ⟨fun y hy => ?_, ih hrest⟩
      rcases List.mem_cons.mp ((push_perm x rest).mem_iff.mp hy) with rfl | hy
      · exact ((hbefore _ _).mp hx).le
      · exact hworst y hy
    · next hx =>
      have hle : key worst ≤ key x := not_lt.mp fun hlt => hx ((hbefore _ _).mpr hlt)
      refine List.pairwise_cons.mpr ⟨fun y hy => ?_, h⟩
      rcases List.mem_cons.mp hy with rfl | hy
      · exact hle
      · exact (hworst y hy).trans hle

/-- The heap holds the best of the stream; `rest` is what was turned away or dropped. -/
structure Best (key : α → κ) (limit : Nat) (heap rest xs : List α) : Prop where
  sorted : heap.Pairwise fun a b => key b ≤ key a
  perm : (heap ++ rest).Perm xs
  length_le : heap.length ≤ limit
  full : rest ≠ [] → heap.length = limit
  best : ∀ a ∈ heap, ∀ b ∈ rest, key a ≤ key b

theorem Best.offer (hbefore : ∀ a b, before a b = true ↔ key a < key b) {limit : Nat}
    {heap rest xs : List α} (h : Best key limit heap rest xs) (x : α) :
    ∃ rest', Best key limit (offer before limit heap x) rest' (xs ++ [x]) := by
  have hperm : (x :: (heap ++ rest)).Perm (xs ++ [x]) :=
    (h.perm.cons x).trans (List.perm_append_singleton x xs).symm
  unfold TopK.offer
  split
  · -- There is room, so nothing was turned away before.
    next hroom =>
    have hrest : rest = [] := by
      by_contra hne
      have := h.full hne
      omega
    subst hrest
    refine ⟨[], pairwise_push hbefore h.sorted, ?_, ?_, by simp, by simp⟩
    · simpa using (push_perm x heap).trans (by simpa using hperm)
    · rw [(push_perm x heap).length_eq, List.length_cons]
      omega
  · next hroom =>
    have hlimit : heap.length = limit := le_antisymm h.length_le (not_lt.mp hroom)
    cases heap with
    | nil =>
      exact ⟨x :: rest, h.sorted, hperm, h.length_le, fun _ => hlimit, by simp⟩
    | cons worst kept =>
      obtain ⟨hworst, hkept⟩ := List.pairwise_cons.mp h.sorted
      dsimp only
      split
      · next hx =>
        have hlt : key x < key worst := (hbefore _ _).mp hx
        have hlength : (push before x kept).length = limit := by
          rw [(push_perm x kept).length_eq, ← hlimit]
          rfl
        refine ⟨worst :: rest, pairwise_push hbefore hkept, ?_, hlength.le, fun _ => hlength, ?_⟩
        · have hswap : (push before x kept ++ worst :: rest).Perm (x :: (kept ++ worst :: rest)) :=
            (push_perm x kept).append_right _
          have hmiddle : (kept ++ worst :: rest).Perm (worst :: (kept ++ rest)) := List.perm_middle
          exact (hswap.trans (hmiddle.cons x)).trans hperm
        · intro a ha b hb
          have ha : key a ≤ key worst := by
            rcases List.mem_cons.mp ((push_perm x kept).mem_iff.mp ha) with rfl | ha
            · exact hlt.le
            · exact hworst a ha
          rcases List.mem_cons.mp hb with rfl | hb
          · exact ha
          · exact ha.trans (h.best worst (by simp) b hb)
      · next hx =>
        have hle : key worst ≤ key x := not_lt.mp fun hlt => hx ((hbefore _ _).mpr hlt)
        refine ⟨x :: rest, h.sorted, List.perm_middle.trans hperm, h.length_le, fun _ => hlimit, ?_⟩
        intro a ha b hb
        rcases List.mem_cons.mp hb with rfl | hb
        · rcases List.mem_cons.mp ha with rfl | ha
          · exact hle
          · exact (hworst a ha).trans hle
        · exact h.best a ha b hb

theorem Best.foldl (hbefore : ∀ a b, before a b = true ↔ key a < key b) {limit : Nat} (xs : List α) :
    ∀ {heap rest ys : List α}, Best key limit heap rest ys →
      ∃ rest', Best key limit (xs.foldl (TopK.offer before limit) heap) rest' (ys ++ xs) := by
  induction xs with
  | nil =>
    intro heap rest ys h
    exact ⟨rest, by simpa using h⟩
  | cons x xs ih =>
    intro heap rest ys h
    obtain ⟨rest', h'⟩ := h.offer hbefore x
    obtain ⟨rest'', h''⟩ := ih h'
    exact ⟨rest'', by simpa using h''⟩

/-- Sorted by key, the best first. -/
def sort (key : α → κ) (xs : List α) : List α := xs.insertionSort fun a b => key a ≤ key b

theorem sort_perm (xs : List α) : (sort key xs).Perm xs := List.perm_insertionSort _ xs

theorem pairwise_sort (xs : List α) : (sort key xs).Pairwise fun a b => key a ≤ key b := by
  have : IsTrans α fun a b => key a ≤ key b := ⟨fun _ _ _ hab hbc => hab.trans hbc⟩
  have : Std.Total fun a b : α => key a ≤ key b := ⟨fun a b => le_total (key a) (key b)⟩
  exact List.pairwise_insertionSort _ xs

/-- Where the key names the element, a sorted arrangement is the sorted list. -/
theorem eq_sort {xs ys : List α} (hinj : ∀ a ∈ xs, ∀ b ∈ xs, key a = key b → a = b) (hperm : ys.Perm xs)
    (hsorted : ys.Pairwise fun a b => key a ≤ key b) : ys = sort key xs := by
  refine List.Perm.eq_of_pairwise ?_ hsorted (pairwise_sort xs) (hperm.trans (sort_perm xs).symm)
  intro a b ha hb hab hba
  exact hinj a (hperm.mem_iff.mp ha) b ((sort_perm xs).mem_iff.mp hb) (le_antisymm hab hba)

omit [LinearOrder κ] in
/-- Distinct keys name their elements. -/
theorem eq_of_key_eq {xs : List α} (h : xs.Pairwise fun a b => key a ≠ key b) :
    ∀ a ∈ xs, ∀ b ∈ xs, key a = key b → a = b := by
  intro a ha b hb heq
  by_contra hne
  have : Std.Symm fun a b : α => key a ≠ key b := ⟨fun _ _ h => h.symm⟩
  exact h.forall ha hb hne heq

theorem pairwise_sort_lt {xs : List α} (h : xs.Pairwise fun a b => key a ≠ key b) :
    (sort key xs).Pairwise fun a b => key a < key b := by
  have hne : (sort key xs).Pairwise fun a b => key a ≠ key b :=
    ((sort_perm xs).pairwise_iff fun h => h.symm).mpr h
  exact ((pairwise_sort xs).and hne).imp fun h => lt_of_le_of_ne h.1 h.2

/-- What the heap has kept, once sorted, is the beginning of the sorted stream. -/
theorem sort_foldl_offer (hbefore : ∀ a b, before a b = true ↔ key a < key b) {xs : List α}
    (h : xs.Pairwise fun a b => key a ≠ key b) (limit : Nat) :
    sort key (xs.foldl (TopK.offer before limit) []) = (sort key xs).take limit := by
  have hinj := eq_of_key_eq h
  clear h
  have hstart : Best key limit [] [] ([] : List α) :=
    ⟨.nil, .refl _, Nat.zero_le _, by simp, by simp⟩
  obtain ⟨rest, h⟩ := Best.foldl hbefore xs hstart
  set heap := xs.foldl (TopK.offer before limit) []
  have hperm : (heap ++ rest).Perm xs := h.perm
  have hheap : ∀ a ∈ heap, a ∈ xs := fun a ha => hperm.mem_iff.mp (List.mem_append_left _ ha)
  have hsorted : heap.reverse = sort key heap :=
    eq_sort (fun a ha b hb => hinj a (hheap a ha) b (hheap b hb)) (List.reverse_perm heap)
      (List.pairwise_reverse.mpr h.sorted)
  have hall : heap.reverse ++ sort key rest = sort key xs := by
    refine eq_sort hinj (((List.reverse_perm heap).append (sort_perm rest)).trans hperm) ?_
    refine List.pairwise_append.mpr ⟨List.pairwise_reverse.mpr h.sorted, pairwise_sort rest, ?_⟩
    intro a ha b hb
    exact h.best a (List.mem_reverse.mp ha) b ((sort_perm rest).mem_iff.mp hb)
  rw [← hsorted, ← hall]
  by_cases hrest : rest = []
  · have hnil : sort key rest = [] := by
      rw [hrest]
      rfl
    rw [hnil, List.append_nil, List.take_of_length_le (by simpa using h.length_le)]
  · have hlength : heap.reverse.length = limit := by simpa using h.full hrest
    rw [← hlength, List.take_left]

end Heap

section First
variable [LinearOrder κ] (key : α → κ) (p : α → Bool)

/-- Of the elements that pass, the one with the least key, and the first of these. -/
def firstBest : List α → Option α
  | [] => none
  | a :: xs =>
    if p a then
      match firstBest xs with
      | some b => if key a ≤ key b then some a else some b
      | none => some a
    else firstBest xs

variable {key p} {xs : List α}

theorem find?_orderedInsert (a : α) (hsorted : xs.Pairwise fun a b => key a ≤ key b) :
    (xs.orderedInsert (fun a b => key a ≤ key b) a).find? p =
      if p a then
        match xs.find? p with
        | some b => if key a ≤ key b then some a else some b
        | none => some a
      else xs.find? p := by
  induction xs with
  | nil => cases hp : p a <;> simp [hp]
  | cons x xs ih =>
    obtain ⟨hx, hrest⟩ := List.pairwise_cons.mp hsorted
    have ih := ih hrest
    by_cases hle : key a ≤ key x
    · have hleast : ∀ b, (x :: xs).find? p = some b → key a ≤ key b := by
        intro b hb
        rcases List.mem_cons.mp (List.mem_of_find?_eq_some hb) with rfl | hmem
        · exact hle
        · exact hle.trans (hx b hmem)
      rw [List.orderedInsert_cons, if_pos hle, List.find?_cons]
      cases hp : p a with
      | false => simp
      | true =>
        cases hb : (x :: xs).find? p with
        | none => simp
        | some b => simp [hleast b hb]
    · rw [List.orderedInsert_cons, if_neg hle, List.find?_cons, List.find?_cons]
      cases hpx : p x with
      | true => cases hp : p a <;> simp [hle]
      | false => exact ih

/-- A stable sort finds the first of the best. -/
theorem find?_sort (xs : List α) : (sort key xs).find? p = firstBest key p xs := by
  induction xs with
  | nil => rfl
  | cons a xs ih =>
    have hsorted : (sort key xs).Pairwise fun a b => key a ≤ key b := pairwise_sort xs
    rw [firstBest, ← ih]
    exact find?_orderedInsert a hsorted

theorem firstBest_mem {a : α} (h : firstBest key p xs = some a) : a ∈ xs ∧ p a = true := by
  rw [← find?_sort] at h
  exact ⟨(sort_perm xs).mem_iff.mp (List.mem_of_find?_eq_some h), List.find?_some h⟩

theorem firstBest_isSome {a : α} (ha : a ∈ xs) (hp : p a = true) : (firstBest key p xs).isSome := by
  rw [← find?_sort, List.find?_isSome]
  exact ⟨a, (sort_perm xs).mem_iff.mpr ha, hp⟩

theorem firstBest_le {a b : α} (h : firstBest key p xs = some a) (hb : b ∈ xs) (hp : p b = true) :
    key a ≤ key b := by
  induction xs generalizing a with
  | nil => cases hb
  | cons x xs ih =>
    simp only [firstBest] at h
    rcases List.mem_cons.mp hb with rfl | hmem
    · rw [if_pos hp] at h
      split at h
      · split at h
        · exact Option.some.inj h ▸ le_refl _
        · next hlt => exact Option.some.inj h ▸ le_of_not_ge hlt
      · exact Option.some.inj h ▸ le_refl _
    · cases hfirst : firstBest key p xs with
      | none =>
        have hsome : (firstBest key p xs).isSome := firstBest_isSome hmem hp
        simp [hfirst] at hsome
      | some c =>
        have hc := ih hfirst hmem
        simp only [hfirst] at h
        split at h
        · split at h
          · next hle => exact Option.some.inj h ▸ hle.trans hc
          · exact Option.some.inj h ▸ hc
        · exact Option.some.inj h ▸ hc

/-- The last element is chosen only if it beats all others. -/
theorem firstBest_append_last {x a : α} (h : firstBest key p (xs ++ [x]) = some a) :
    a ∈ xs ∨ (a = x ∧ p x = true ∧ ∀ b ∈ xs, p b = true → key x < key b) := by
  induction xs generalizing a with
  | nil =>
    obtain ⟨hmem, hp⟩ := firstBest_mem h
    obtain rfl := List.mem_singleton.mp hmem
    exact .inr ⟨rfl, hp, by simp⟩
  | cons y xs ih =>
    simp only [List.cons_append, firstBest] at h
    have hold : ∀ b, firstBest key p (xs ++ [x]) = some b → (p y = true → key b < key y) →
        b ∈ y :: xs ∨ (b = x ∧ p x = true ∧ ∀ c ∈ y :: xs, p c = true → key x < key c) := by
      intro b hb hy
      rcases ih hb with hmem | ⟨rfl, hpx, hbeats⟩
      · exact .inl (List.mem_cons_of_mem _ hmem)
      · refine .inr ⟨rfl, hpx, fun c hc hpc => ?_⟩
        rcases List.mem_cons.mp hc with rfl | hmem
        · exact hy hpc
        · exact hbeats c hmem hpc
    split at h
    · split at h
      · next hpy b hb =>
        split at h
        · exact .inl (Option.some.inj h ▸ List.mem_cons_self)
        · next hlt => exact Option.some.inj h ▸ hold b hb fun _ => lt_of_not_ge hlt
      · exact .inl (Option.some.inj h ▸ List.mem_cons_self)
    · next hpy => exact hold a h fun hp => absurd hp hpy

/-- It is chosen if it does. -/
theorem firstBest_append_of_beats {x : α} (hp : p x = true)
    (hbeats : ∀ b ∈ xs, p b = true → key x < key b) : firstBest key p (xs ++ [x]) = some x := by
  have hx : x ∈ xs ++ [x] := List.mem_append_right _ (List.mem_singleton_self x)
  obtain ⟨a, ha⟩ : ∃ a, firstBest key p (xs ++ [x]) = some a := Option.isSome_iff_exists.mp (firstBest_isSome hx hp)
  obtain ⟨hmem, hpa⟩ := firstBest_mem ha
  rcases List.mem_append.mp hmem with hin | hlast
  · exact absurd (firstBest_le ha hx hp) (not_le_of_gt (hbeats a hin hpa))
  · rw [ha, List.mem_singleton.mp hlast]

end First

section Pages
variable [LinearOrder κ] {key : α → κ}

/-- What ranks behind a cursor; everything does without one. -/
def behind (key : α → κ) (cursor : Option κ) (xs : List α) : List α :=
  xs.filter fun a => cursor.all fun c => decide (c < key a)

@[simp] theorem behind_none (xs : List α) : behind key none xs = xs := by
  simp [behind]

theorem distinct_behind {xs : List α} (h : xs.Pairwise fun a b => key a ≠ key b) (cursor : Option κ) :
    (behind key cursor xs).Pairwise fun a b => key a ≠ key b :=
  h.filter _

/-- Sorting what lies behind a cursor. -/
theorem sort_behind {xs : List α} (h : xs.Pairwise fun a b => key a ≠ key b) (cursor : Option κ) :
    sort key (behind key cursor xs) = behind key cursor (sort key xs) := by
  refine (eq_sort (eq_of_key_eq (distinct_behind h cursor)) ?_ ((pairwise_sort xs).filter _)).symm
  exact (sort_perm xs).filter _

/-- Behind the last element of a page lies what the page left over. -/
theorem behind_last {xs : List α} (hsorted : xs.Pairwise fun a b => key a < key b) {cursor : Option κ}
    {limit : Nat} {last : α} (hlast : ((behind key cursor xs).take limit).getLast? = some last) :
    behind key (some (key last)) xs = (behind key cursor xs).drop limit := by
  set rest := behind key cursor xs with hrest
  have hmem : last ∈ rest := List.mem_of_mem_take (List.mem_of_getLast? hlast)
  have hafter : ∀ c, cursor = some c → c < key last := by
    intro c hc
    have hkeep := (List.mem_filter.mp hmem).2
    simpa [hc] using hkeep
  -- What lies behind the last element lay behind the old cursor.
  have hsub : behind key (some (key last)) xs = behind key (some (key last)) rest := by
    rw [hrest, behind, behind, behind, List.filter_filter]
    refine List.filter_congr fun a _ => ?_
    cases hcursor : cursor with
    | none => simp
    | some c =>
      have hc : c < key last := hafter c hcursor
      simp only [Option.all_some, ← Bool.decide_and, decide_eq_decide]
      exact ⟨fun h => ⟨h, hc.trans h⟩, fun h => h.1⟩
  have hrestSorted : rest.Pairwise fun a b => key a < key b := hsorted.filter _
  obtain ⟨init, hinit⟩ := List.getLast?_eq_some_iff.mp hlast
  have hsplit : rest = init ++ [last] ++ rest.drop limit := by
    rw [← hinit, List.take_append_drop]
  have hpair := hsplit ▸ hrestSorted
  obtain ⟨hfront, -, hcross⟩ := List.pairwise_append.mp hpair
  rw [hsub]
  nth_rewrite 1 [hsplit]
  rw [behind, List.filter_append]
  have hnone : (init ++ [last]).filter (fun a => (some (key last)).all fun c => decide (c < key a)) = [] := by
    rw [List.filter_eq_nil_iff]
    intro a ha
    have hle : key a ≤ key last := by
      rcases List.mem_append.mp ha with ha | ha
      · exact ((List.pairwise_append.mp hfront).2.2 a ha last (by simp)).le
      · rw [List.mem_singleton.mp ha]
    simpa using hle
  have hall : (rest.drop limit).filter (fun a => (some (key last)).all fun c => decide (c < key a)) =
      rest.drop limit := by
    rw [List.filter_eq_self]
    intro a ha
    simpa using hcross last (by simp) a ha
  rw [hnone, hall, List.nil_append]

end Pages

end TopK
