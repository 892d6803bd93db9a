import Mathlib

/- Lists that are cut: the beginning of a list without repetitions.

   Three ways to leave repetitions out. `destutter` (Mathlib) drops an element that equals the one
   before it. `pushNew` adds an element that is not there yet. `collectFirst` tries an address once
   and keeps what is found there. Each comes with what a cut at a limit keeps of it. -/
namespace Listing

/-! ## Runs -/

section Runs
variable {α : Type*} [DecidableEq α]

theorem destutter'_split {t : α} {pre : List α} (post : List α) {a : α} (ha : a ≠ t) (hpre : t ∉ pre) :
    (pre ++ t :: post).destutter' (· ≠ ·) a = pre.destutter' (· ≠ ·) a ++ post.destutter' (· ≠ ·) t := by
  induction pre generalizing a with
  | nil => simp [ha]
  | cons b pre ih =>
    obtain ⟨hb, hrest⟩ := not_or.mp (mt List.mem_cons.mpr hpre)
    by_cases hab : a = b
    · subst hab
      simp [ih ha hrest]
    · simp [hab, ih (Ne.symm hb) hrest]

/-- The runs up to the first place of an element, and those from there on. -/
theorem destutter_split {t : α} {pre : List α} (post : List α) (hpre : t ∉ pre) :
    (pre ++ t :: post).destutter (· ≠ ·) = pre.destutter (· ≠ ·) ++ post.destutter' (· ≠ ·) t := by
  cases pre with
  | nil => rfl
  | cons a pre =>
    obtain ⟨ha, hrest⟩ := not_or.mp (mt List.mem_cons.mpr hpre)
    exact destutter'_split post (Ne.symm ha) hrest

theorem destutter'_head (t : α) (post : List α) : ∃ rest, post.destutter' (· ≠ ·) t = t :: rest := by
  induction post with
  | nil => exact ⟨[], rfl⟩
  | cons b post ih =>
    by_cases hb : t = b
    · subst hb
      simpa using ih
    · exact ⟨_, List.destutter'_cons_pos _ hb⟩

/-- An element is among the first `n` runs if fewer than `n` runs come before it. -/
theorem mem_take_destutter_iff (t : α) (n : Nat) (xs : List α) :
    t ∈ (xs.destutter (· ≠ ·)).take n ↔ t ∈ xs ∧ ((xs.takeWhile (· ≠ t)).destutter (· ≠ ·)).length < n := by
  by_cases hmem : t ∈ xs
  · obtain ⟨pre, post, rfl, hpre⟩ := List.eq_append_cons_of_mem hmem
    have hwhile : (pre ++ t :: post).takeWhile (· ≠ t) = pre := by
      rw [List.takeWhile_append_of_pos fun a ha => by simpa using ne_of_mem_of_not_mem ha hpre]
      simp
    have hbefore : t ∉ pre.destutter (· ≠ ·) := fun h => hpre ((List.destutter_sublist _ _).subset h)
    obtain ⟨rest, hrest⟩ := destutter'_head t post
    rw [hwhile, destutter_split post hpre, hrest, List.take_append, List.mem_append]
    refine (or_iff_right fun h => hbefore (List.mem_of_mem_take h)).trans ?_
    refine Iff.trans ?_ (and_iff_right hmem).symm
    constructor
    · intro h
      by_contra hle
      rw [Nat.sub_eq_zero_of_le (Nat.le_of_not_lt hle), List.take_zero] at h
      cases h
    · intro hlt
      obtain ⟨k, hk⟩ := Nat.exists_eq_add_of_lt hlt
      rw [show n - (pre.destutter (· ≠ ·)).length = k + 1 by omega, List.take_succ_cons]
      exact List.mem_cons_self
  · refine iff_of_false (fun h => hmem ?_) fun h => hmem h.1
    exact (List.destutter_sublist _ _).subset (List.mem_of_mem_take h)

end Runs

/-! ## Distinct elements -/

section Distinct
variable {α : Type*} [DecidableEq α]

/-- Once each, in the order in which they come. -/
def pushNew (out : List α) (a : α) : List α := if a ∈ out then out else out ++ [a]

theorem prefix_pushNew (out : List α) (a : α) : out <+: pushNew out a := by
  unfold pushNew
  split
  · exact List.prefix_refl out
  · exact List.prefix_append out [a]

theorem prefix_foldl_pushNew (out xs : List α) : out <+: xs.foldl pushNew out := by
  induction xs generalizing out with
  | nil => exact List.prefix_refl out
  | cons a xs ih => exact (prefix_pushNew out a).trans (ih _)

/-- The elements that are new, until the list gets its last element. -/
def collectNew (limit : Nat) : List α → List α → List α
  | out, [] => out
  | out, a :: xs =>
    if a ∈ out then collectNew limit out xs
    else if (out ++ [a]).length = limit then out ++ [a]
    else collectNew limit (out ++ [a]) xs

/-- At least the first `limit` distinct elements are collected, and no others. -/
theorem collectNew_prefix (limit : Nat) (out xs : List α) :
    (xs.foldl pushNew out).take limit <+: collectNew limit out xs ∧ collectNew limit out xs <+: xs.foldl pushNew out := by
  fun_induction collectNew limit out xs with
  | case1 out => exact ⟨List.take_prefix _ _, List.prefix_refl _⟩
  | case2 out a xs hmem ih => simpa [pushNew, hmem] using ih
  | case3 out a xs hmem hfull =>
    have hout : out ++ [a] <+: (a :: xs).foldl pushNew out := by
      simpa [pushNew, hmem] using prefix_foldl_pushNew (out ++ [a]) xs
    refine ⟨?_, hout⟩
    have htake := List.prefix_iff_eq_take.mp hout
    rw [hfull] at htake
    exact ⟨[], by rw [List.append_nil, ← htake]⟩
  | case4 out a xs hmem hfull ih => simpa [pushNew, hmem] using ih

end Distinct

/-! ## What is found at distinct addresses -/

section Found
variable {α β : Type*} [DecidableEq α] (read : α → Option β)

/-- Each address is tried once; what is found there is kept, up to a limit. -/
def collectFirst (limit : Nat) : List α → List β → List α → List β
  | _, out, [] => out
  | seen, out, a :: addrs =>
    if a ∈ seen then collectFirst limit seen out addrs
    else match read a with
      | none => collectFirst limit (a :: seen) out addrs
      | some b =>
        if limit ≤ (out ++ [b]).length then out ++ [b] else collectFirst limit (a :: seen) (out ++ [b]) addrs

/-- Everything that is found, in the order of the addresses. -/
def found (addrs : List α) : List β := addrs.eraseDups.filterMap read

theorem collectFirst_eq {limit : Nat} (seen : List α) (out : List β) (addrs : List α) (hroom : out.length < limit) :
    collectFirst read limit seen out addrs = (out ++ found read (addrs.filter (· ∉ seen))).take limit := by
  induction addrs generalizing seen out with
  | nil => simp [collectFirst, found, List.take_of_length_le hroom.le]
  | cons a addrs ih =>
    by_cases ha : a ∈ seen
    · simp [collectFirst, ha, ih seen out hroom]
    · have hrest : found read ((a :: addrs).filter (· ∉ seen)) =
          (read a).toList ++ found read (addrs.filter (· ∉ a :: seen)) := by
        have hfilter : (addrs.filter (· ∉ seen)).filter (fun b => !b == a) = addrs.filter (· ∉ a :: seen) := by
          rw [List.filter_filter]
          refine List.filter_congr fun b _ => ?_
          by_cases hb : b = a <;> simp [hb]
        simp only [found, List.filter_cons, ha, not_false_eq_true, decide_true, if_true, List.eraseDups_cons, hfilter]
        cases h : read a <;> simp [h]
      simp only [collectFirst, if_neg ha, hrest]
      cases hread : read a with
      | none => simp [ih (a :: seen) out hroom]
      | some b =>
        simp only
        by_cases hfull : limit ≤ (out ++ [b]).length
        · have hlength : (out ++ [b]).length = limit := by
            simp only [List.length_append, List.length_singleton] at hfull ⊢
            omega
          rw [if_pos hfull, Option.toList_some, ← List.append_assoc, ← hlength, List.take_left]
        · rw [if_neg hfull, ih (a :: seen) (out ++ [b]) (Nat.lt_of_not_le hfull), Option.toList_some,
            List.append_assoc]

/-- The first `limit` of everything that is found. -/
theorem collectFirst_start {limit : Nat} (hlimit : 0 < limit) (addrs : List α) :
    collectFirst read limit [] [] addrs = (found read addrs).take limit := by
  simpa using collectFirst_eq read [] [] addrs hlimit

end Found

end Listing
