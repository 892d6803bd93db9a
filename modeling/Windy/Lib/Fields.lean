import Mathlib

/- Texts that are put together from fields with a separator.

   Where no field has the separator in it, the text determines the fields (`join_inj`). Of
   numbers it is enough to know which characters their texts cannot have.

   A list that is the same backwards and repeats nothing has at most one element, and lists of
   at most one element are the same if their elements are (`eq_of_short`). -/
namespace Fields

variable {sep : Char}

/-! ## Separators -/

theorem joinList_inj {ls ms : List (List Char)} (hl : ∀ l ∈ ls, sep ∉ l) (hm : ∀ m ∈ ms, sep ∉ m) (hls : ls ≠ [])
    (hms : ms ≠ []) (h : [sep].intercalate ls = [sep].intercalate ms) : ls = ms := by
  rw [← List.splitOn_intercalate sep hl hls, h, List.splitOn_intercalate sep hm hms]

/-- Fields without the separator can be read off the text they are joined to. -/
theorem join_inj {ls ms : List String} (hl : ∀ l ∈ ls, sep ∉ l.toList) (hm : ∀ m ∈ ms, sep ∉ m.toList) (hls : ls ≠ [])
    (hms : ms ≠ []) (h : (String.singleton sep).intercalate ls = (String.singleton sep).intercalate ms) : ls = ms := by
  have htext := congrArg String.toList h
  rw [String.toList_intercalate, String.toList_intercalate, String.toList_singleton] at htext
  have hlists : ls.map String.toList = ms.map String.toList := by
    refine joinList_inj ?_ ?_ ?_ ?_ htext
    · simpa using hl
    · simpa using hm
    · simpa using hls
    · simpa using hms
  exact List.map_injective_iff.mpr (fun _ _ => String.toList_injective) hlists

theorem not_mem_intercalate {glue : List Char} {ls : List (List Char)} (hglue : sep ∉ glue) (h : ∀ l ∈ ls, sep ∉ l) :
    sep ∉ glue.intercalate ls := by
  induction ls with
  | nil => simp
  | cons l ls ih =>
    cases ls with
    | nil => simpa using h
    | cons m ms =>
      rw [List.intercalate_cons_cons, List.mem_append, List.mem_append, not_or, not_or]
      exact ⟨⟨h l List.mem_cons_self, hglue⟩, ih fun k hk => h k (List.mem_cons_of_mem l hk)⟩

/-! ## Numbers -/

theorem nat_inj {m n : Nat} (h : (toString m).toList = (toString n).toList) : m = n := by
  have hdigits : Nat.toDigits 10 m = Nat.toDigits 10 n := by simpa using h
  rw [← Nat.ofDigitChars_ten_toDigits (n := m), hdigits, Nat.ofDigitChars_ten_toDigits]

theorem digitChar_inj : ∀ a < 16, ∀ b < 16, Nat.digitChar a = Nat.digitChar b → a = b := by decide

/-- Digits up to those of base 16 determine the number. -/
theorem toDigits_inj {b : Nat} (hb : 1 < b) (hle : b ≤ 16) {m n : Nat} (h : Nat.toDigits b m = Nat.toDigits b n) :
    m = n := by
  have hshort : ∀ (c d : Char) (k : Nat), [c] ≠ Nat.toDigits b k ++ [d] := by
    intro c d k heq
    have hpos := Nat.length_toDigits_pos (b := b) (n := k)
    have hlength := congrArg List.length heq
    simp only [List.length_append, List.length_singleton] at hlength
    omega
  have hmod : ∀ k, k % b < 16 := by
    intro k
    have := Nat.mod_lt k (Nat.zero_lt_of_lt hb)
    omega
  induction m using Nat.strongRecOn generalizing n with
  | ind m ih =>
    rw [Nat.toDigits_eq_if hb, Nat.toDigits_eq_if (n := n) hb] at h
    split at h <;> split at h
    · exact digitChar_inj m (by omega) n (by omega) (List.cons.inj h).1
    · exact absurd h (hshort _ _ _)
    · exact absurd h.symm (hshort _ _ _)
    · obtain ⟨hinit, hlast⟩ := List.append_inj' h rfl
      have hdiv := ih (m / b) (Nat.div_lt_self (by omega) hb) hinit
      have hrest := digitChar_inj _ (hmod m) _ (hmod n) (List.cons.inj hlast).1
      rw [← Nat.div_add_mod m b, ← Nat.div_add_mod n b, hdiv, hrest]

theorem not_mem_nat (hsep : sep.isDigit = false) (n : Nat) : sep ∉ (toString n).toList := by
  intro h
  have hmem : sep ∈ Nat.toDigits 10 n := by simpa using h
  rw [Nat.isDigit_of_mem_toDigits (by decide) (by decide) hmem] at hsep
  cases hsep

theorem not_mem_int (hsep : sep.isDigit = false) (hminus : sep ≠ '-') (n : Int) : sep ∉ (toString n).toList := by
  cases n with
  | ofNat n => simpa [toString, Int.repr] using not_mem_nat hsep n
  | negSucc n => simpa [toString, Int.repr, hminus] using not_mem_nat hsep (n + 1)

/-! ## Lists of at most one element -/

variable {α : Type}

theorem short_of_reverse {l : List α} (hnodup : l.Nodup) (h : l.reverse = l) : l.length ≤ 1 := by
  match l with
  | [] => exact Nat.zero_le 1
  | [x] => exact Nat.le_refl 1
  | x :: y :: rest =>
    -- the first element is also the last one, and occurs again
    have hlast : (y :: rest).getLast? = some x := by
      have := congrArg List.head? h
      rwa [List.head?_reverse, List.getLast?_cons_cons] at this
    exact absurd (List.mem_of_getLast? hlast) (List.nodup_cons.mp hnodup).1

theorem eq_of_mem_short {l : List α} (hl : l.length ≤ 1) {x y : α} (hx : x ∈ l) (hy : y ∈ l) : x = y := by
  match l, hl with
  | [z], _ => rw [List.mem_singleton.mp hx, List.mem_singleton.mp hy]

theorem short_of_nodup {l : List α} (hnodup : l.Nodup) (h : ∀ x ∈ l, ∀ y ∈ l, x = y) : l.length ≤ 1 := by
  match l with
  | [] => exact Nat.zero_le 1
  | [x] => exact Nat.le_refl 1
  | x :: y :: rest =>
    have hne := (List.nodup_cons.mp hnodup).1
    rw [h x (by simp) y (by simp)] at hne
    exact absurd List.mem_cons_self hne

theorem eq_of_short {l m : List α} (hl : l.length ≤ 1) (hm : m.length ≤ 1) (h : ∀ x, x ∈ l ↔ x ∈ m) : l = m := by
  cases l with
  | nil =>
    symm
    rw [List.eq_nil_iff_forall_not_mem]
    intro x hx
    exact absurd ((h x).mpr hx) List.not_mem_nil
  | cons x rest =>
    have hrest : rest = [] := List.eq_nil_of_length_eq_zero (by rw [List.length_cons] at hl; omega)
    cases m with
    | nil => exact absurd ((h x).mp List.mem_cons_self) List.not_mem_nil
    | cons y rest' =>
      have hrest' : rest' = [] := List.eq_nil_of_length_eq_zero (by rw [List.length_cons] at hm; omega)
      rw [hrest, hrest'] at h ⊢
      rw [List.mem_singleton.mp ((h x).mp List.mem_cons_self)]

/-- Elements with different keys that are printed the same backwards are at most one. -/
theorem short_of_printed {β γ : Type} {key : α → β} {print : α → γ} (hprint : ∀ x y, print x = print y → key x = key y)
    {l : List α} (hnodup : (l.map key).Nodup) (h : l.reverse.map print = l.map print) : l.length ≤ 1 := by
  have hkeys : ∀ {xs ys : List α}, xs.map print = ys.map print → xs.map key = ys.map key := by
    intro xs
    induction xs with
    | nil =>
      intro ys heq
      rw [List.map_nil, eq_comm, List.map_eq_nil_iff] at heq
      rw [heq]
    | cons x xs ih =>
      intro ys heq
      cases ys with
      | nil => cases heq
      | cons y ys =>
        rw [List.map_cons, List.map_cons, List.cons.injEq] at heq
        rw [List.map_cons, List.map_cons, hprint x y heq.1, ih heq.2]
  have hreverse := hkeys h
  rw [List.map_reverse] at hreverse
  have hshort := short_of_reverse hnodup hreverse
  rwa [List.length_map] at hshort

/-- Lists of the same elements are the same, if all elements are. -/
theorem eq_of_perm_of_forall {l m : List α} (h : l.Perm m) (hsame : ∀ x ∈ l, ∀ y ∈ l, x = y) : l = m := by
  cases l with
  | nil => exact (List.nil_perm.mp h).symm
  | cons x rest =>
    have hl : x :: rest = List.replicate (x :: rest).length x :=
      List.eq_replicate_of_mem fun y hy => hsame y hy x List.mem_cons_self
    rw [hl] at h ⊢
    exact List.replicate_perm.mp h

end Fields
