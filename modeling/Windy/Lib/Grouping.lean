import Mathlib

/- Lists that are grouped by a key, sorted within a group and cut into runs.

   A group is cut wherever two neighbours are not near each other, and the runs worth keeping
   are filed under the key of their group.

   What is proved:
     `runsBy_subperm`: no element is in two runs;
     `nodup_keys_runsBy`: the runs have different keys just if no group has two of them;
     `findFirst_eq_some_iff`: the first place of a sorted list with a property is the least. -/
namespace Grouping

variable {α κ : Type} [LinearOrder κ] (key : α → κ) (le near : α → α → Prop) [DecidableRel le] [DecidableRel near]
  (keep : List α → Bool)

/-- The keys that occur, in order. -/
def keys (l : List α) : List κ := (l.map key).dedup.insertionSort (· ≤ ·)

/-- The elements under a key, sorted. -/
def group (l : List α) (k : κ) : List α := (l.filter fun x => key x = k).insertionSort le

/-- The stretches of a list in which neighbours are near each other. -/
def runs (l : List α) : List (List α) := l.splitBy fun a b => decide (near a b)

/-- The runs of one group that are worth keeping. -/
def keptRuns (l : List α) (k : κ) : List (List α) := (runs near (group key le l k)).filter keep

/-- All runs worth keeping, each with the key of its group. -/
def runsBy (l : List α) : List (κ × List α) :=
  (keys key l).flatMap fun k => (keptRuns key le near keep l k).map (Prod.mk k)

theorem nodup_keys (l : List α) : (keys key l).Nodup :=
  (List.perm_insertionSort _ _).nodup_iff.mpr (List.nodup_dedup _)

theorem mem_keys {l : List α} {k : κ} : k ∈ keys key l ↔ ∃ x ∈ l, key x = k := by
  rw [keys, List.mem_insertionSort, List.mem_dedup, List.mem_map]

theorem flatten_runs (l : List α) : (runs near l).flatten = l := List.flatten_splitBy _ l

theorem flatten_keptRuns (l : List α) (k : κ) : (keptRuns key le near keep l k).flatten.Sublist (group key le l k) := by
  have hsub : (keptRuns key le near keep l k).flatten.Sublist (runs near (group key le l k)).flatten :=
    List.Sublist.flatten List.filter_sublist
  rwa [flatten_runs] at hsub

/-- A run is a stretch of its group. -/
theorem sublist_of_mem_keptRuns {l : List α} {k : κ} {run : List α} (h : run ∈ keptRuns key le near keep l k) :
    run.Sublist (group key le l k) :=
  (List.sublist_flatten_of_mem h).trans (flatten_keptRuns key le near keep l k)

theorem mem_runsBy {l : List α} {r : κ × List α} :
    r ∈ runsBy key le near keep l ↔ r.2 ∈ keptRuns key le near keep l r.1 := by
  obtain ⟨k, run⟩ := r
  constructor
  · intro h
    obtain ⟨k', -, hmem⟩ := List.mem_flatMap.mp h
    obtain ⟨run', hrun, heq⟩ := List.mem_map.mp hmem
    obtain ⟨rfl, rfl⟩ := Prod.mk.inj heq
    exact hrun
  · intro h
    refine List.mem_flatMap.mpr ⟨k, ?_, List.mem_map.mpr ⟨run, h, rfl⟩⟩
    -- a run has an element, and that has the key
    have hne : run ≠ [] := List.ne_nil_of_mem_splitBy (List.mem_of_mem_filter h)
    obtain ⟨x, hx⟩ := List.exists_mem_of_ne_nil run hne
    have hgroup := (sublist_of_mem_keptRuns key le near keep h).mem hx
    rw [group, List.mem_insertionSort, List.mem_filter, decide_eq_true_eq] at hgroup
    exact (mem_keys key).mpr ⟨x, hgroup⟩

/-! ## Each element is in one run at most -/

/-- The groups of different keys hold no element twice. -/
theorem flatMap_filter_subperm {ks : List κ} (hks : ks.Nodup) (l : List α) :
    (ks.flatMap fun k => l.filter fun x => key x = k).Subperm l := by
  induction ks generalizing l with
  | nil => exact List.nil_subperm
  | cons k ks ih =>
    obtain ⟨hk, hks⟩ := List.nodup_cons.mp hks
    have hothers : ∀ k' ∈ ks, (l.filter fun x => key x = k') =
        (l.filter fun x => !decide (key x = k)).filter fun x => key x = k' := by
      intro k' hk'
      rw [List.filter_filter]
      apply List.filter_congr
      intro x _
      by_cases hx : key x = k'
      · have hne : key x ≠ k := fun heq => hk (by rwa [← heq, hx])
        simp [hx, hx ▸ hne]
      · simp [hx]
    have hrest : (ks.flatMap fun k => l.filter fun x => key x = k).Subperm (l.filter fun x => !decide (key x = k)) := by
      rw [List.flatMap_congr hothers]
      exact ih hks _
    rw [List.flatMap_cons]
    exact ((List.subperm_append_left _).mpr hrest).trans (List.filter_append_perm _ l).subperm

theorem runsBy_subperm (l : List α) : ((runsBy key le near keep l).flatMap Prod.snd).Subperm l := by
  have hflat : (runsBy key le near keep l).flatMap Prod.snd =
      (keys key l).flatMap fun k => (keptRuns key le near keep l k).flatten := by
    rw [runsBy, List.flatMap_assoc]
    simp only [List.flatMap_map, List.flatMap_id']
  have hgroups : ((keys key l).flatMap fun k => (keptRuns key le near keep l k).flatten).Sublist
      ((keys key l).flatMap fun k => group key le l k) :=
    List.Sublist.flatMap_right _ fun k _ => flatten_keptRuns key le near keep l k
  have hperm : ((keys key l).flatMap fun k => group key le l k).Perm
      ((keys key l).flatMap fun k => l.filter fun x => key x = k) :=
    List.Perm.flatMap_left _ fun k _ => List.perm_insertionSort _ _
  rw [hflat]
  exact (hgroups.subperm.trans hperm.subperm).trans (flatMap_filter_subperm key (nodup_keys key l) l)

/-! ## Different keys -/

theorem nodup_keys_runsBy (l : List α) :
    ((runsBy key le near keep l).map Prod.fst).Nodup ↔ ∀ k, (keptRuns key le near keep l k).length ≤ 1 := by
  have hmap : (runsBy key le near keep l).map Prod.fst =
      (keys key l).flatMap fun k => List.replicate (keptRuns key le near keep l k).length k := by
    rw [runsBy, List.map_flatMap]
    apply List.flatMap_congr
    intro k _
    rw [List.map_map]
    exact List.map_const
  rw [hmap, List.nodup_flatMap]
  constructor
  · intro h k
    by_cases hk : k ∈ keys key l
    · exact List.nodup_replicate.mp (h.1 k hk)
    · have hnil : keptRuns key le near keep l k = [] := by
        rw [List.eq_nil_iff_forall_not_mem]
        intro run hrun
        obtain ⟨k', hk', hmem⟩ := List.mem_flatMap.mp ((mem_runsBy key le near keep (r := (k, run))).mpr hrun)
        obtain ⟨run', -, heq⟩ := List.mem_map.mp hmem
        rw [← (Prod.mk.inj heq).1] at hk
        exact hk hk'
      rw [hnil]
      exact Nat.zero_le 1
  · intro h
    refine ⟨fun k _ => List.nodup_replicate.mpr (h k), ?_⟩
    apply (nodup_keys key l).imp
    intro k k' hne x hx hx'
    exact hne ((List.eq_of_mem_replicate hx).symm.trans (List.eq_of_mem_replicate hx'))

/-! ## The first place with a property -/

/-- The value at the first place below `n` with the property. -/
def findFirst (n : Nat) (at? : Nat → Option κ) : Option κ := (List.range n).findSome? at?

/-- Where the values grow with the place, the first value is the least. -/
theorem findFirst_eq_some_iff {n : Nat} {at? : Nat → Option κ}
    (hmono : ∀ i j a b, i ≤ j → j < n → at? i = some a → at? j = some b → a ≤ b) (a : κ) :
    findFirst n at? = some a ↔ IsLeast {b | ∃ i < n, at? i = some b} a := by
  have hleast : ∀ a, findFirst n at? = some a → IsLeast {b | ∃ i < n, at? i = some b} a := by
    intro a h
    obtain ⟨l₁, i, l₂, heq, ha, hnone⟩ := List.findSome?_eq_some_iff.mp h
    have hi : i < n := List.mem_range.mp (by rw [heq]; simp)
    refine ⟨⟨i, hi, ha⟩, ?_⟩
    intro b hb
    obtain ⟨j, hj, hjb⟩ := hb
    -- a place before the first one has no value
    have hle : i ≤ j := by
      by_contra hlt
      have hlen : l₁.length = i := by
        have hget : (List.range n)[l₁.length]? = some i := by rw [heq]; simp
        rw [List.getElem?_range (by rw [List.getElem?_eq_some_iff] at hget; simpa using hget.1)] at hget
        exact Option.some.inj hget
      have hmem : j ∈ l₁ := by
        have hget : (List.range n)[j]? = some j := List.getElem?_range hj
        rw [heq, List.getElem?_append_left (by omega)] at hget
        exact List.mem_of_getElem? hget
      rw [hnone j hmem] at hjb
      cases hjb
    exact hmono i j a b hle hj ha hjb
  constructor
  · exact hleast a
  · intro h
    obtain ⟨⟨i, hi, ha⟩, -⟩ := id h
    have hsome : (findFirst n at?).isSome := by
      rw [findFirst, List.findSome?_isSome_iff]
      exact ⟨i, List.mem_range.mpr hi, by rw [ha]; rfl⟩
    obtain ⟨b, hb⟩ := Option.isSome_iff_exists.mp hsome
    rw [hb, (hleast b hb).unique h]

end Grouping
