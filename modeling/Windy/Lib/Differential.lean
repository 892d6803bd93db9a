import Mathlib

/- A list of keyed records seen as a difference to an older one.

   Both lists have one record for a key. The view keeps an old record unless the new
   list has another one under its key, and adds every new record that the old list does
   not have as it is. What an old key that is gone leaves behind is not taken out.

   What is proved:
     `view_perm`: where no key is gone and equal records look alike, the view looks like
       the new list;
     `key_of_view_length`: where the view is as long as the new list, no key is gone. -/
namespace Windy.Differential

variable {α κ ε : Type} [DecidableEq κ] (key : α → κ) (same : α → α → Bool)

/-- The old records that no new one replaces. -/
def kept (base current : List α) : List α :=
  base.filter fun s => current.all fun t => key t ≠ key s || same s t

/-- The new records that the old list does not have. -/
def fresh (base current : List α) : List α :=
  current.filter fun t => base.all fun s => key s ≠ key t || !same s t

/-- The new records that the old list has. -/
def common (base current : List α) : List α :=
  current.filter fun t => base.any fun s => key s = key t && same s t

def view (base current : List α) : List α := kept key same base current ++ fresh key same base current

variable {key same} {base current : List α}

theorem mem_kept {s : α} : s ∈ kept key same base current ↔
    s ∈ base ∧ ∀ t ∈ current, key t = key s → same s t := by
  simp only [kept, List.mem_filter, List.all_eq_true, ne_eq, Bool.or_eq_true, decide_eq_true_eq]
  refine and_congr_right fun _ => forall₂_congr fun t _ => ?_
  tauto

theorem mem_common {t : α} : t ∈ common key same base current ↔
    t ∈ current ∧ ∃ s ∈ base, key s = key t ∧ same s t := by
  simp [common, List.mem_filter, List.any_eq_true]

theorem fresh_eq : fresh key same base current =
    current.filter fun t => !(base.any fun s => key s = key t && same s t) := by
  unfold fresh
  congr 1
  funext t
  simp [List.not_any_eq_all_not]

/-- The common and the fresh records are the new list. -/
theorem common_append_fresh_perm :
    (common key same base current ++ fresh key same base current).Perm current := by
  rw [fresh_eq]
  exact List.filter_append_perm _ _

variable (hbase : (base.map key).Nodup) (hcurrent : (current.map key).Nodup)
include hcurrent

theorem mem_kept_of_same {s t : α} (hs : s ∈ base) (ht : t ∈ current) (hkey : key t = key s)
    (hsame : same s t) : s ∈ kept key same base current := by
  refine mem_kept.mpr ⟨hs, ?_⟩
  intro t' ht' hkey'
  obtain rfl := List.inj_on_of_nodup_map hcurrent ht' ht (hkey'.trans hkey.symm)
  exact hsame

include hbase

/-- Where no key is gone and equal records look alike, the view looks like the new list. -/
theorem view_perm {f : α → ε} (hgone : ∀ s ∈ base, ∃ t ∈ current, key t = key s)
    (hlike : ∀ s ∈ base, ∀ t ∈ current, key t = key s → same s t → f s = f t) :
    ((view key same base current).map f).Perm (current.map f) := by
  -- compared together with their keys, the kept and the common records are one set
  have hpairs : ((kept key same base current).map fun s => (key s, f s)).Perm
      ((common key same base current).map fun t => (key t, f t)) := by
    have hnodup : ∀ l : List α, (l.map key).Nodup → (l.map fun s => (key s, f s)).Nodup := by
      intro l hl
      refine List.Nodup.of_map Prod.fst ?_
      rw [List.map_map]
      exact hl
    refine (List.perm_ext_iff_of_nodup (hnodup _ (hbase.sublist (List.filter_sublist.map key)))
      (hnodup _ (hcurrent.sublist (List.filter_sublist.map key)))).mpr ?_
    intro pair
    simp only [List.mem_map]
    constructor
    · rintro ⟨s, hs, rfl⟩
      obtain ⟨hbase', hall⟩ := mem_kept.mp hs
      obtain ⟨t, ht, hkey⟩ := hgone s hbase'
      have hsame := hall t ht hkey
      exact ⟨t, mem_common.mpr ⟨ht, s, hbase', hkey.symm, hsame⟩,
        by rw [hkey, hlike s hbase' t ht hkey hsame]⟩
    · rintro ⟨t, ht, rfl⟩
      obtain ⟨ht, s, hs, hkey, hsame⟩ := mem_common.mp ht
      exact ⟨s, mem_kept_of_same hcurrent hs ht hkey.symm hsame,
        by rw [hkey, hlike s hs t ht hkey.symm hsame]⟩
  have hkept : ((kept key same base current).map f).Perm ((common key same base current).map f) := by
    have h := hpairs.map Prod.snd
    simpa [List.map_map, Function.comp_def] using h
  rw [view, List.map_append]
  refine (hkept.append_right _).trans ?_
  rw [← List.map_append]
  exact common_append_fresh_perm.map f

omit hbase in
/-- Where the view is as long as the new list, no key is gone. -/
theorem key_of_view_length (hlength : (view key same base current).length = current.length) :
    ∀ s ∈ base, ∃ t ∈ current, key t = key s := by
  have hsubset : (common key same base current).map key ⊆ (kept key same base current).map key := by
    intro k hk
    obtain ⟨t, ht, rfl⟩ := List.mem_map.mp hk
    obtain ⟨ht, s, hs, hkey, hsame⟩ := mem_common.mp ht
    exact List.mem_map.mpr ⟨s, mem_kept_of_same hcurrent hs ht hkey.symm hsame, hkey⟩
  have hnodup : ((common key same base current).map key).Nodup :=
    hcurrent.sublist (List.filter_sublist.map key)
  have hcommon : (kept key same base current).length = (common key same base current).length := by
    have h := (@common_append_fresh_perm _ _ _ key same base current).length_eq
    simp only [view, List.length_append] at hlength h
    omega
  have hperm : ((common key same base current).map key).Perm ((kept key same base current).map key) :=
    (hnodup.subperm hsubset).perm_of_length_le (by simp [hcommon])
  intro s hs
  by_contra hnone
  push Not at hnone
  have hkept : s ∈ kept key same base current :=
    mem_kept.mpr ⟨hs, fun t ht hkey => absurd hkey (hnone t ht)⟩
  obtain ⟨t, ht, hkey⟩ := List.mem_map.mp (hperm.mem_iff.mpr (List.mem_map_of_mem hkept))
  exact hnone t (mem_common.mp ht).1 hkey

end Windy.Differential
