import Mathlib

/- Maps as lists of pairs.

   A hash map is a lookup. What goes through its entries meets them in some order, which is
   a list that enumerates the lookup. -/
namespace Windy.Bel

variable {κ ν : Type} {entries : List (κ × ν)} {lookup : κ → Option ν}

/-- The pairs of a map with the given lookup, in any order. -/
structure Enumerates (entries : List (κ × ν)) (lookup : κ → Option ν) : Prop where
  distinct : entries.Pairwise fun a b => a.1 ≠ b.1
  mem_iff : ∀ key value, (key, value) ∈ entries ↔ lookup key = some value

theorem Enumerates.nodup (h : Enumerates entries lookup) : entries.Nodup :=
  h.distinct.imp fun hne heq => hne (congrArg Prod.fst heq)

/-- What goes through the entries meets the same ones in any order. -/
theorem Enumerates.perm {entries others : List (κ × ν)} (h : Enumerates entries lookup)
    (h' : Enumerates others lookup) : entries.Perm others := by
  rw [List.perm_ext_iff_of_nodup h.nodup h'.nodup]
  intro entry
  rw [h.mem_iff, h'.mem_iff]

theorem Enumerates.reverse (h : Enumerates entries lookup) :
    Enumerates entries.reverse lookup := by
  constructor
  · exact List.pairwise_reverse.mpr (h.distinct.imp Ne.symm)
  · intro key value
    rw [List.mem_reverse, h.mem_iff]

/-- `into_iter().collect()`: a later pair replaces an earlier one. -/
def collect [DecidableEq κ] (entries : List (κ × ν)) (key : κ) : Option ν :=
  (entries.reverse.find? fun entry => entry.1 = key).map Prod.snd

theorem collect_eq [DecidableEq κ]
    (h : Enumerates entries lookup) : collect entries = lookup := by
  funext key
  rw [collect]
  cases hfind : entries.reverse.find? fun entry => entry.1 = key with
  | none =>
    cases hlookup : lookup key with
    | none => rfl
    | some value =>
      have hmem := List.mem_reverse.mpr ((h.mem_iff key value).mpr hlookup)
      simpa using List.find?_eq_none.mp hfind _ hmem
  | some entry =>
    have hkey : entry.1 = key := by simpa using List.find?_some hfind
    have hmem := List.mem_reverse.mp (List.mem_of_find?_eq_some hfind)
    rw [Option.map_some, ← hkey]
    exact ((h.mem_iff entry.1 entry.2).mp hmem).symm

theorem ofList_eq [DecidableEq κ] [Ord κ] [Std.TransOrd κ] [Std.LawfulEqOrd κ]
    {map : Std.ExtTreeMap κ ν} (h : Enumerates entries fun key => map[key]?) :
    Std.ExtTreeMap.ofList entries compare = map := by
  have hdistinct : entries.Pairwise fun a b => ¬ compare a.1 b.1 = .eq :=
    h.distinct.imp fun hne heq => hne (Std.LawfulEqOrd.eq_of_compare heq)
  apply Std.ExtTreeMap.ext_getElem?
  intro key
  cases hvalue : map[key]? with
  | some value =>
    exact Std.ExtTreeMap.getElem?_ofList_of_mem Std.ReflOrd.compare_self hdistinct
      ((h.mem_iff key value).mpr hvalue)
  | none =>
    apply Std.ExtTreeMap.getElem?_ofList_of_contains_eq_false
    simp only [List.contains_eq_mem, List.mem_map, decide_eq_false_iff_not]
    rintro ⟨entry, hentry, rfl⟩
    have hsome := (h.mem_iff entry.1 entry.2).mp hentry
    rw [hvalue] at hsome
    cases hsome

theorem enumerates_toList [Ord κ] [Std.TransOrd κ] [Std.LawfulEqOrd κ] (map : Std.ExtTreeMap κ ν) :
    Enumerates map.toList fun key => map[key]? := by
  constructor
  · apply map.distinct_keys_toList.imp
    intro a b hne heq
    apply hne
    rw [heq, Std.ReflOrd.compare_self]
  · intro key value
    exact Std.ExtTreeMap.mem_toList_iff_getElem?_eq_some

/-- A lookup whose keys are in a list can be listed. -/
theorem exists_enumerates [DecidableEq κ] (lookup : κ → Option ν) (keys : List κ)
    (h : ∀ key value, lookup key = some value → key ∈ keys) : ∃ entries, Enumerates entries lookup := by
  refine ⟨keys.dedup.filterMap fun key => (lookup key).map fun value => (key, value), ?_, ?_⟩
  · rw [List.pairwise_filterMap]
    apply keys.nodup_dedup.imp
    intro a b hne x hx y hy
    obtain ⟨v, -, rfl⟩ := Option.map_eq_some_iff.mp hx
    obtain ⟨w, -, rfl⟩ := Option.map_eq_some_iff.mp hy
    exact hne
  · intro key value
    rw [List.mem_filterMap]
    constructor
    · rintro ⟨other, -, hother⟩
      obtain ⟨v, hv, heq⟩ := Option.map_eq_some_iff.mp hother
      obtain ⟨rfl, rfl⟩ := Prod.mk.inj heq
      exact hv
    · intro hvalue
      exact ⟨key, List.mem_dedup.mpr (h key value hvalue), by rw [hvalue]; rfl⟩

end Windy.Bel
