import Mathlib

/- Binary searches.

   A binary search looks for the point between the elements that lie below something and the ones
   behind them. It keeps a window in which the point can still be, looks at a position of the window
   and goes on in one of its two parts. Which position it looks at is left open: a `Bisection` is
   any way of choosing them, `halving` is the one of a library that halves the window, and
   `startingAt` one that begins where it is told to.

   Looking at an element may fail, and then the search fails. It does not fail where every element
   can be looked at (`exists_partitionPoint`); its answer is a position of the list or its end
   (`partitionPoint_le_length`), in order with the answers for other tests
   (`partitionPoint_le_partitionPoint`), and on a list that is partitioned it is the partition point
   (`partitionPoint_eq`). -/
namespace Bisect

/-- The positions a search looks at, and where it goes on from each. -/
inductive Probing where
  | found (point : Nat)
  | probe (position : Nat) (here above : Probing)

namespace Probing

/-- The point is in the window from `lo` to `hi`, and every probe divides the window. -/
def Narrows : Probing → Nat → Nat → Prop
  | found point, lo, hi => lo = point ∧ hi = point
  | probe position here above, lo, hi =>
    lo ≤ position ∧ position < hi ∧ here.Narrows lo position ∧ above.Narrows (position + 1) hi

/-- The point that is found, unless a position cannot be looked at. -/
def run (below : Nat → Option Bool) : Probing → Option Nat
  | found point => some point
  | probe position here above =>
    match below position with
    | none => none
    | some true => above.run below
    | some false => here.run below

section Window
variable {below : Nat → Option Bool} {search : Probing} {lo hi point : Nat}

theorem run_probe (position : Nat) (here above : Probing) : (probe position here above).run below =
    (below position).bind fun answer => bif answer then above.run below else here.run below := by
  rw [run]
  rcases below position with _ | _ | _ <;> rfl

theorem run_mem_window (h : search.Narrows lo hi) (hrun : search.run below = some point) :
    lo ≤ point ∧ point ≤ hi := by
  induction search generalizing lo hi with
  | found k =>
    obtain ⟨rfl, rfl⟩ := h
    obtain rfl := Option.some.inj hrun
    omega
  | probe position here above ihhere ihabove =>
    obtain ⟨hlo, hhi, hhere, habove⟩ := h
    rw [run_probe] at hrun
    obtain ⟨answer, -, hrun⟩ := Option.bind_eq_some_iff.mp hrun
    cases answer with
    | true =>
      have := ihabove habove hrun
      omega
    | false =>
      have := ihhere hhere hrun
      omega

theorem exists_run (h : search.Narrows lo hi)
    (hread : ∀ position, lo ≤ position → position < hi → (below position).isSome) :
    ∃ point, search.run below = some point := by
  induction search generalizing lo hi with
  | found k => exact ⟨k, rfl⟩
  | probe position here above ihhere ihabove =>
    obtain ⟨hlo, hhi, hhere, habove⟩ := h
    obtain ⟨answer, hanswer⟩ := Option.isSome_iff_exists.mp (hread position hlo hhi)
    rw [run_probe, hanswer, Option.bind_some]
    cases answer with
    | true =>
      apply ihabove habove
      intro i hi' hi''
      apply hread <;> omega
    | false =>
      apply ihhere hhere
      intro i hi' hi''
      apply hread <;> omega

/-- A search for a test that holds of more elements ends no earlier. -/
theorem run_le_run {wider : Nat → Option Bool} {widerPoint : Nat} (h : search.Narrows lo hi)
    (hwider : ∀ position, below position = some true → wider position = some true)
    (hrun : search.run below = some point) (hwide : search.run wider = some widerPoint) : point ≤ widerPoint := by
  induction search generalizing lo hi with
  | found k =>
    obtain rfl := Option.some.inj hrun
    obtain rfl := Option.some.inj hwide
    omega
  | probe position here above ihhere ihabove =>
    obtain ⟨hlo, hhi, hhere, habove⟩ := h
    rw [run_probe] at hrun hwide
    obtain ⟨answer, hanswer, hrun⟩ := Option.bind_eq_some_iff.mp hrun
    obtain ⟨wide, hwideAnswer, hwide⟩ := Option.bind_eq_some_iff.mp hwide
    cases answer with
    | true =>
      obtain rfl : true = wide := Option.some.inj ((hwider position hanswer).symm.trans hwideAnswer)
      exact ihabove habove hrun hwide
    | false =>
      cases wide with
      | true =>
        -- The searches part here, and the point is between their windows.
        have hfirst := run_mem_window hhere hrun
        have hsecond := run_mem_window habove hwide
        omega
      | false => exact ihhere hhere hrun hwide

theorem run_of_partitioned (h : search.Narrows lo hi) (hlo : lo ≤ point) (hhi : point ≤ hi)
    (hbelow : ∀ position, lo ≤ position → position < hi → below position = some (decide (position < point))) :
    search.run below = some point := by
  induction search generalizing lo hi with
  | found k =>
    obtain ⟨rfl, rfl⟩ := h
    rw [run, Nat.le_antisymm hlo hhi]
  | probe position here above ihhere ihabove =>
    obtain ⟨hle, hlt, hhere, habove⟩ := h
    rw [run_probe, hbelow position hle hlt, Option.bind_some]
    by_cases hpoint : position < point
    · rw [decide_eq_true hpoint]
      apply ihabove habove (by omega) hhi
      intro i hi' hi''
      apply hbelow <;> omega
    · rw [decide_eq_false hpoint]
      apply ihhere hhere hlo (by omega)
      intro i hi' hi''
      apply hbelow <;> omega

/-- In front of the point something lies below, unless the window begins there; and at the
point nothing does, unless the window ends there. -/
theorem run_cuts (h : search.Narrows lo hi) (hrun : search.run below = some point) :
    (lo < point → below (point - 1) = some true) ∧ (point < hi → below point = some false) := by
  induction search generalizing lo hi with
  | found k =>
    obtain ⟨rfl, rfl⟩ := h
    obtain rfl := Option.some.inj hrun
    omega
  | probe position here above ihhere ihabove =>
    obtain ⟨hlo, hhi, hhere, habove⟩ := h
    rw [run_probe] at hrun
    obtain ⟨answer, hanswer, hrun⟩ := Option.bind_eq_some_iff.mp hrun
    cases answer with
    | true =>
      obtain ⟨hbefore, hat⟩ := ihabove habove hrun
      have hle := (run_mem_window habove hrun).1
      refine ⟨fun _ => ?_, hat⟩
      by_cases hfirst : position + 1 < point
      · exact hbefore hfirst
      · obtain rfl : position + 1 = point := by omega
        exact hanswer
    | false =>
      obtain ⟨hbefore, hat⟩ := ihhere hhere hrun
      have hle := (run_mem_window hhere hrun).2
      refine ⟨hbefore, fun _ => ?_⟩
      by_cases hlast : point < position
      · exact hat hlast
      · obtain rfl : point = position := by omega
        exact hanswer

end Window

/-- Looks at one position after the other. -/
def linear : Nat → Nat → Probing
  | lo, 0 => found lo
  | lo, count + 1 => probe lo (found lo) (linear (lo + 1) count)

theorem linear_narrows (lo count : Nat) : (linear lo count).Narrows lo (lo + count) := by
  induction count generalizing lo with
  | zero => exact ⟨rfl, rfl⟩
  | succ count ih =>
    have hrest := ih (lo + 1)
    rw [Nat.add_assoc, Nat.add_comm 1 count] at hrest
    exact ⟨Nat.le_refl lo, by omega, ⟨rfl, rfl⟩, hrest⟩

/-- Halves a window of the given size at `base`. The window may take in the position
`hi`, which is known not to lie below, and is then not looked at again; `above` tells
that `base` is known to lie below. -/
def halve (size base hi : Nat) (above : Bool) : Probing :=
  if size ≤ 1 then
    if above then found (base + 1)
    else if base < hi then probe base (found base) (found (base + 1))
    else found base
  else
    let mid := base + size / 2
    if mid < hi then
      probe mid (halve (size - size / 2) base mid above) (halve (size - size / 2) mid hi true)
    else halve (size - size / 2) base hi above
termination_by size

theorem halve_narrows (size base hi : Nat) (above : Bool) (hlo : base + above.toNat ≤ hi)
    (hhi : hi ≤ base + size) (hsize : base + size ≤ hi + 1) :
    (halve size base hi above).Narrows (base + above.toNat) hi := by
  fun_induction halve size base hi above with
  | case1 size base hi hsmall =>
    simp only [Bool.toNat_true] at hlo ⊢
    exact ⟨rfl, by omega⟩
  | case2 size base hi above hsmall hbase hlt =>
    rw [Bool.not_eq_true] at hbase
    simp only [hbase, Bool.toNat_false] at hlo ⊢
    exact ⟨by omega, hlt, ⟨rfl, rfl⟩, ⟨rfl, by omega⟩⟩
  | case3 size base hi above hsmall hbase hlt =>
    rw [Bool.not_eq_true] at hbase
    simp only [hbase, Bool.toNat_false] at hlo ⊢
    exact ⟨rfl, by omega⟩
  | case4 size base hi above hlarge mid hmid ihhere ihabove =>
    have hle : above.toNat ≤ 1 := Bool.toNat_le above
    refine ⟨by omega, hmid, ihhere (by omega) (by omega) (by omega), ?_⟩
    have hrest := ihabove (by simp only [Bool.toNat_true]; omega) (by omega) (by omega)
    exact hrest
  | case5 size base hi above hlarge mid hmid ih => exact ih hlo (by omega) (by omega)

end Probing

/-- A way to search a list of any length. -/
structure Bisection where
  probing : Nat → Probing
  narrows : ∀ length, (probing length).Narrows 0 length

namespace Bisection

/-- The window is halved until one position is left. -/
def halving : Bisection where
  probing length := Probing.halve length 0 length false
  narrows length := Probing.halve_narrows length 0 length false (by simp) (by simp) (by simp)

/-- The position is looked at first, if the list has it. -/
def startingAt (position : Nat) : Bisection where
  probing length :=
    if position < length then
      .probe position (.linear 0 position) (.linear (position + 1) (length - (position + 1)))
    else .linear 0 length
  narrows length := by
    split
    · next hlt =>
      have hhere := Probing.linear_narrows 0 position
      have habove := Probing.linear_narrows (position + 1) (length - (position + 1))
      rw [Nat.zero_add] at hhere
      rw [Nat.add_sub_cancel' hlt] at habove
      exact ⟨Nat.zero_le _, hlt, hhere, habove⟩
    · simpa using Probing.linear_narrows 0 length

/-- The positions on both sides of a place are looked at first, if the list has the place. -/
def cuttingAt (place : Nat) : Bisection where
  probing length :=
    if place ≤ length then
      let behind := if place < length then .probe place (.found place) (.linear (place + 1) (length - (place + 1)))
        else .found place
      if 0 < place then .probe (place - 1) (.linear 0 (place - 1)) behind else behind
    else .linear 0 length
  narrows length := by
    split
    · next hle =>
      have hbehind : (if place < length then Probing.probe place (.found place)
          (.linear (place + 1) (length - (place + 1))) else .found place).Narrows place length := by
        split
        · next hlt =>
          have habove := Probing.linear_narrows (place + 1) (length - (place + 1))
          rw [Nat.add_sub_cancel' hlt] at habove
          exact ⟨Nat.le_refl _, hlt, ⟨rfl, rfl⟩, habove⟩
        · exact ⟨rfl, by omega⟩
      dsimp only
      split
      · next hpos =>
        have hhere := Probing.linear_narrows 0 (place - 1)
        rw [Nat.zero_add] at hhere
        refine ⟨Nat.zero_le _, by omega, hhere, ?_⟩
        rwa [Nat.sub_add_cancel hpos]
      · next hzero =>
        obtain rfl : place = 0 := by omega
        exact hbehind
    · simpa using Probing.linear_narrows 0 length

end Bisection

/-! ## Lists -/

section Lists
variable {α : Type*} {search : Bisection} {below : α → Option Bool} {xs : List α} {point : Nat}

/-- The number of elements that lie below, as the search finds it. -/
def partitionPoint (search : Bisection) (below : α → Option Bool) (xs : List α) : Option Nat :=
  (search.probing xs.length).run fun position => xs[position]?.bind below

theorem partitionPoint_le_length (h : partitionPoint search below xs = some point) : point ≤ xs.length :=
  (Probing.run_mem_window (search.narrows xs.length) h).2

theorem exists_partitionPoint (h : ∀ x ∈ xs, (below x).isSome) :
    ∃ point, partitionPoint search below xs = some point := by
  apply Probing.exists_run (search.narrows xs.length)
  intro position _ hlt
  rw [List.getElem?_eq_getElem hlt, Option.bind_some]
  exact h _ (List.getElem_mem hlt)

theorem partitionPoint_le_partitionPoint {wider : α → Option Bool} {widerPoint : Nat}
    (hwider : ∀ x, below x = some true → wider x = some true)
    (h : partitionPoint search below xs = some point)
    (hwide : partitionPoint search wider xs = some widerPoint) : point ≤ widerPoint := by
  refine Probing.run_le_run (search.narrows xs.length) ?_ h hwide
  intro position hbelow
  obtain ⟨x, hx, htrue⟩ := Option.bind_eq_some_iff.mp hbelow
  rw [hx, Option.bind_some]
  exact hwider x htrue

/-- On a partitioned list every search finds the partition point. -/
theorem partitionPoint_eq {test : α → Bool} (hbelow : ∀ x ∈ xs, below x = some (test x))
    (h : xs.Pairwise fun a b => test b = true → test a = true) :
    partitionPoint search below xs = some (xs.takeWhile test).length := by
  have hle : (xs.takeWhile test).length ≤ xs.length := (List.takeWhile_prefix test).length_le
  apply Probing.run_of_partitioned (search.narrows xs.length) (Nat.zero_le _) hle
  intro position _ hlt
  rw [List.getElem?_eq_getElem hlt, Option.bind_some, hbelow _ (List.getElem_mem hlt)]
  congr 1
  induction xs generalizing position with
  | nil => cases hlt
  | cons x xs ih =>
    obtain ⟨hhead, htail⟩ := List.pairwise_cons.mp h
    rw [List.takeWhile_cons]
    cases hx : test x with
    | false =>
      -- Nothing behind a failed test passes.
      simp only [Bool.false_eq_true, if_false, List.length_nil, Nat.not_lt_zero, decide_false]
      cases position with
      | zero => exact hx
      | succ position =>
        rw [List.getElem_cons_succ, Bool.eq_false_iff]
        intro htest
        rw [hhead _ (List.getElem_mem _) htest] at hx
        cases hx
    | true =>
      cases position with
      | zero => simpa using hx
      | succ position =>
        have hrest := ih (fun y hy => hbelow y (List.mem_cons_of_mem x hy)) htail
          (List.takeWhile_prefix test).length_le position (Nat.zero_le _) (Nat.lt_of_succ_lt_succ hlt)
        simpa using hrest

/-- The answer on any list. -/
theorem cut_of_partitionPoint (h : partitionPoint search below xs = some point) :
    (0 < point → xs[point - 1]?.bind below = some true) ∧ (point < xs.length → xs[point]?.bind below = some false) :=
  Probing.run_cuts (search.narrows xs.length) h

/-- Each place of this kind is an answer. -/
theorem partitionPoint_cuttingAt (hle : point ≤ xs.length) (hbefore : 0 < point → xs[point - 1]?.bind below = some true)
    (hat : point < xs.length → xs[point]?.bind below = some false) :
    partitionPoint (Bisection.cuttingAt point) below xs = some point := by
  have hbehind : (if point < xs.length then Probing.probe point (.found point)
      (.linear (point + 1) (xs.length - (point + 1))) else .found point).run (fun i => xs[i]?.bind below) = some point := by
    split
    · next hlt => simp only [Probing.run, hat hlt]
    · rfl
  simp only [partitionPoint, Bisection.cuttingAt, if_pos hle]
  split
  · next hpos => simpa only [Probing.run, hbefore hpos] using hbehind
  · exact hbehind

/-- Every search of a single element looks at it. -/
theorem partitionPoint_singleton (x : α) (hx : below x = none) : partitionPoint search below [x] = none := by
  have hnarrows := search.narrows 1
  unfold partitionPoint
  rw [List.length_singleton]
  cases hprobing : search.probing 1 with
  | found k =>
    rw [hprobing] at hnarrows
    obtain ⟨rfl, hk⟩ := hnarrows
    cases hk
  | probe position here above =>
    rw [hprobing] at hnarrows
    obtain rfl : position = 0 := by
      have := hnarrows.2.1
      omega
    simp [Probing.run, hx]

/-- A search that starts where an element cannot be looked at fails. -/
theorem partitionPoint_startingAt {position : Nat} {x : α} (hx : xs[position]? = some x) (hbelow : below x = none) :
    partitionPoint (Bisection.startingAt position) below xs = none := by
  obtain ⟨hlt, -⟩ := List.getElem?_eq_some_iff.mp hx
  simp only [partitionPoint, Bisection.startingAt, if_pos hlt, Probing.run, hx, Option.bind_some, hbelow]

end Lists

end Bisect
