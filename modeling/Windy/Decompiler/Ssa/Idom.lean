import Windy.Decompiler.Ssa.Postorder

/- `build_idom` computes the immediate dominators.

   The table is a parent map; `Above idom c d` says that `d` is on the way from `c`
   up to the entry. A sweep moves parents up. Three facts carry the proof:
     * every dominator of a block stays above it (`Bounds.dom`), because what a move
       takes away from the blocks below is reached around it (`Bounds.avoid`);
     * a move never goes down (`Mid.above_new`). Blocks are visited from high to low
       numbers, so within a sweep a block loses no ancestor that is still to come
       (`Mid.keep`), and what stays above a block stays above everything that was
       between them (`Mid.between`);
     * so each sweep that changes something raises the sum of the parents' numbers,
       and there are enough sweeps (`sweeps_settled`).
   When a sweep changes nothing, each parent is above all predecessors, and what is
   above a block dominates it (`above_iff_dominates`). -/
namespace Windy.Ssa

open Dominance

/-- A numbering of the reachable blocks in which every block but the entry has a
predecessor with a higher number. -/
structure Numbering (g : Cfg) (entry : Nat) (po : Nat → Nat) : Prop where
  lt : ∀ b, g.Reachable entry b → po b < g.size
  inj : ∀ a b, g.Reachable entry a → g.Reachable entry b → po a = po b → a = b
  parent : ∀ b, g.Reachable entry b → b ≠ entry → ∃ p, g.Edge p b ∧ g.Reachable entry p ∧ po b < po p

theorem dfs_numbering {g : Cfg} {entry : Nat} (hentry : entry < g.size) :
    Numbering g entry (dfs g entry).postorder :=
  ⟨fun _ hb => postorder_lt hentry hb, fun _ _ ha hb => postorder_inj hentry ha hb,
    fun _ hb hne => exists_parent hentry hb hne⟩

section Chk
variable {g : Cfg} {entry : Nat} {po : Nat → Nat} {idom idom₀ : Nat → Option Nat}

/-- The entry has the highest number. -/
theorem Numbering.lt_entry (h : Numbering g entry po) {b : Nat} (hb : g.Reachable entry b) (hne : b ≠ entry) :
    po b < po entry := by
  have hall : ∀ k b, g.Reachable entry b → b ≠ entry → g.size - po b ≤ k → po b < po entry := by
    intro k
    induction k with
    | zero =>
      intro b hb _ hk
      have := h.lt b hb
      omega
    | succ k ih =>
      intro b hb hne hk
      obtain ⟨p, -, hp, hlt⟩ := h.parent b hb hne
      by_cases heq : p = entry
      · rw [← heq]
        exact hlt
      · have hbound := h.lt p hp
        exact Nat.lt_trans hlt (ih p hp heq (by omega))
  exact hall (g.size - po b) b hb hne (Nat.le_refl _)

/-- A table whose parents are reachable blocks with a table entry and a higher
number. -/
structure Valid (g : Cfg) (entry : Nat) (po : Nat → Nat) (idom : Nat → Option Nat) : Prop where
  ranked : Ranked idom entry po
  reach : ∀ c, (idom c).isSome → g.Reachable entry c
  closed : ∀ c y, idom c = some y → (idom y).isSome

theorem Valid.above (h : Valid g entry po idom) {a b : Nat} (ha : (idom a).isSome) (hab : Above idom a b) :
    (idom b).isSome := by
  unfold Above at hab
  induction hab with
  | refl => exact ha
  | tail _ hstep _ => exact h.closed _ _ hstep

/-- A proper ancestor has a higher number, and the numbers tell them apart. -/
theorem Valid.not_above (h : Valid g entry po idom) {a b : Nat} (hlt : po b < po a) : ¬ Above idom a b := by
  intro hab
  have := h.ranked.le hab
  omega

/-! ## The meeting point of two blocks -/

/-- The lower of two blocks is not the entry, so it has a proper parent. -/
theorem Valid.lower (h : Valid g entry po idom) (hnum : Numbering g entry po) {a b : Nat} (ha : (idom a).isSome)
    (hb : (idom b).isSome) (hlt : po a < po b) : ∃ p, idom a = some p ∧ po a < po p ∧ (idom p).isSome := by
  obtain ⟨p, hp⟩ := Option.isSome_iff_exists.mp ha
  have hne : a ≠ entry := by
    intro hae
    rw [hae] at hlt
    by_cases hbe : b = entry
    · rw [hbe] at hlt
      omega
    · have := hnum.lt_entry (h.reach b hb) hbe
      omega
  exact ⟨p, hp, h.ranked.lt a p hp hne, h.closed a p hp⟩

theorem intersect_spec (hnum : Numbering g entry po) (h : Valid g entry po idom) (fuel : Nat) {a b : Nat}
    (ha : (idom a).isSome) (hb : (idom b).isSome) (hfuel : (g.size - po a) + (g.size - po b) ≤ fuel) :
    Above idom a (intersect po idom fuel a b) ∧ Above idom b (intersect po idom fuel a b) ∧
      ∀ z, Above idom a z → Above idom b z → Above idom (intersect po idom fuel a b) z := by
  induction fuel generalizing a b with
  | zero =>
    have := hnum.lt a (h.reach a ha)
    omega
  | succ fuel ih =>
    by_cases heq : a = b
    · rw [intersect, if_pos heq, ← heq]
      exact ⟨Relation.ReflTransGen.refl, Relation.ReflTransGen.refl, fun z hz _ => hz⟩
    · have hne : po a ≠ po b := fun hpo => heq (hnum.inj a b (h.reach a ha) (h.reach b hb) hpo)
      by_cases hlt : po a < po b
      · obtain ⟨p, hp, hpo, hsome⟩ := h.lower hnum ha hb hlt
        have hpsize := hnum.lt p (h.reach p hsome)
        obtain ⟨h1, h2, h3⟩ := ih hsome hb (by omega)
        rw [intersect, if_neg heq, if_pos hlt, hp, Option.getD_some]
        refine ⟨h1.head hp, h2, fun z haz hbz => ?_⟩
        rcases haz.cases_head with rfl | ⟨q, hq, hqz⟩
        · exact absurd hbz (h.not_above hlt)
        · obtain rfl := Option.some.inj (hp.symm.trans hq)
          exact h3 z hqz hbz
      · have hgt : po b < po a := by omega
        obtain ⟨p, hp, hpo, hsome⟩ := h.lower hnum hb ha hgt
        have hpsize := hnum.lt p (h.reach p hsome)
        obtain ⟨h1, h2, h3⟩ := ih ha hsome (by omega)
        rw [intersect, if_neg heq, if_neg hlt, if_pos hgt, hp, Option.getD_some]
        refine ⟨h1, h2.head hp, fun z haz hbz => ?_⟩
        rcases hbz.cases_head with rfl | ⟨q, hq, hqz⟩
        · exact absurd haz (h.not_above hgt)
        · obtain rfl := Option.some.inj (hp.symm.trans hq)
          exact h3 z haz hqz

/-- `m` is above all blocks of the list that have a table entry, and below
everything else that is. -/
def Meets (idom : Nat → Option Nat) (ps : List Nat) (m : Nat) : Prop :=
  (∀ p ∈ ps, (idom p).isSome → Above idom p m) ∧
    ∀ z, (∀ p ∈ ps, (idom p).isSome → Above idom p z) → Above idom m z

theorem newIdom_spec (hnum : Numbering g entry po) (h : Valid g entry po idom) (ps : List Nat) :
    match newIdom po idom (2 * g.size) ps with
    | none => ∀ p ∈ ps, idom p = none
    | some m => Meets idom ps m ∧ ∃ p ∈ ps, (idom p).isSome := by
  induction ps using List.reverseRecOn with
  | nil => exact fun p hp => absurd hp List.not_mem_nil
  | append_singleton ps p ih =>
    have hsnoc : newIdom po idom (2 * g.size) (ps ++ [p]) =
        if (idom p).isSome then
          some (match newIdom po idom (2 * g.size) ps with
            | none => p
            | some cur => intersect po idom (2 * g.size) p cur)
        else newIdom po idom (2 * g.size) ps := by
      unfold newIdom
      rw [List.foldl_append]
      rfl
    rw [hsnoc]
    by_cases hp : (idom p).isSome
    · rw [if_pos hp]
      cases hnew : newIdom po idom (2 * g.size) ps with
      | none =>
        rw [hnew] at ih
        have honly : ∀ q ∈ ps ++ [p], (idom q).isSome → q = p := by
          intro q hq hsome
          rcases List.mem_append.mp hq with hq | hq
          · rw [ih q hq] at hsome
            cases hsome
          · exact List.mem_singleton.mp hq
        refine ⟨⟨fun q hq hsome => ?_, fun z hz => ?_⟩, p, List.mem_append_right _ (List.mem_singleton_self _), hp⟩
        · rw [honly q hq hsome]
          exact Relation.ReflTransGen.refl
        · exact hz p (List.mem_append_right _ (List.mem_singleton_self _)) hp
      | some cur =>
        rw [hnew] at ih
        obtain ⟨⟨hall, hleast⟩, q₀, hq₀, hsome₀⟩ := ih
        have hcur : (idom cur).isSome := h.above hsome₀ (hall q₀ hq₀ hsome₀)
        obtain ⟨h1, h2, h3⟩ := intersect_spec hnum h (2 * g.size) hp hcur (by omega)
        refine ⟨⟨fun q hq hsome => ?_, fun z hz => ?_⟩, p, List.mem_append_right _ (List.mem_singleton_self _), hp⟩
        · rcases List.mem_append.mp hq with hq | hq
          · exact (hall q hq hsome).trans h2
          · rw [List.mem_singleton.mp hq]
            exact h1
        · refine h3 z (hz p (List.mem_append_right _ (List.mem_singleton_self _)) hp) (hleast z ?_)
          exact fun q hq hsome => hz q (List.mem_append_left _ hq) hsome
    · rw [if_neg hp]
      have hnone : idom p = none := by simpa using hp
      cases hnew : newIdom po idom (2 * g.size) ps with
      | none =>
        rw [hnew] at ih
        intro q hq
        rcases List.mem_append.mp hq with hq | hq
        · exact ih q hq
        · rw [List.mem_singleton.mp hq]
          exact hnone
      | some cur =>
        rw [hnew] at ih
        obtain ⟨⟨hall, hleast⟩, q₀, hq₀, hsome₀⟩ := ih
        refine ⟨⟨fun q hq hsome => ?_, fun z hz => ?_⟩, q₀, List.mem_append_left _ hq₀, hsome₀⟩
        · rcases List.mem_append.mp hq with hq | hq
          · exact hall q hq hsome
          · rw [List.mem_singleton.mp hq] at hsome
            exact absurd hsome hp
        · exact hleast z fun q hq hsome => hz q (List.mem_append_left _ hq) hsome

/-! ## One move -/

/-- Bounds on the ancestors that no move breaks: the dominators of a block are
above it, and a block is reached from each block above it around what is higher. -/
structure Bounds (g : Cfg) (entry : Nat) (idom : Nat → Option Nat) : Prop where
  dom : ∀ c d, (idom c).isSome → Dominates g.Edge entry d c → Above idom c d
  avoid : ∀ c u d, (idom c).isSome → Above idom c u → Above idom u d → d ≠ u → Avoids g.Edge d u c

/-- The predecessors that a block's new parent is computed from. -/
theorem meets_pred {c m : Nat} (h : Meets idom (g.pred c) m) :
    (∀ p, g.Edge p c → (idom p).isSome → Above idom p m) ∧
      ∀ z, (∀ p, g.Edge p c → (idom p).isSome → Above idom p z) → Above idom m z :=
  ⟨fun p hp => h.1 p (Cfg.mem_pred_iff.mpr hp), fun z hz => h.2 z fun p hp => hz p (Cfg.mem_pred_iff.mp hp)⟩

/-- Blocks other than `c` do not have `c` above them while it has no parent. -/
theorem Valid.not_above_none (h : Valid g entry po idom) {a c : Nat} (ha : (idom a).isSome) (hc : idom c = none) :
    ¬ Above idom a c := by
  intro hac
  have hsome := h.above ha hac
  rw [hc] at hsome
  cases hsome

section Move
variable {c m x : Nat}

theorem isSome_update {b : Nat} (hb : (idom b).isSome) : (Function.update idom c (some m) b).isSome := by
  by_cases heq : b = c
  · rw [heq, Function.update_self]
    rfl
  · rw [Function.update_of_ne heq]
    exact hb

theorem Valid.update (h : Valid g entry po idom) (hc : c ≠ entry) (hreach : g.Reachable entry c)
    (hm : (idom m).isSome) (hlt : po c < po m) : Valid g entry po (Function.update idom c (some m)) := by
  refine ⟨⟨?_, ?_⟩, ?_, ?_⟩
  · rw [Function.update_of_ne hc.symm]
    exact h.ranked.self
  · intro a b hab ha
    by_cases heq : a = c
    · subst heq
      rw [Function.update_self] at hab
      rw [← Option.some.inj hab]
      exact hlt
    · rw [Function.update_of_ne heq] at hab
      exact h.ranked.lt a b hab ha
  · intro a ha
    by_cases heq : a = c
    · rw [heq]
      exact hreach
    · rw [Function.update_of_ne heq] at ha
      exact h.reach a ha
  · intro a y hay
    by_cases heq : a = c
    · subst heq
      rw [Function.update_self] at hay
      rw [← Option.some.inj hay]
      exact isSome_update hm
    · rw [Function.update_of_ne heq] at hay
      exact isSome_update (h.closed a y hay)

/-- A parent is moved up to the meeting point of the predecessors. -/
theorem Bounds.move (hb : Bounds g entry idom) (h : Valid g entry po idom) (hc : c ≠ entry)
    (hx : idom c = some x) (hxm : Above idom x m) (hmeets : Meets idom (g.pred c) m) :
    Bounds g entry (Function.update idom c (some m)) := by
  have hlt : po c < po x := h.ranked.lt c x hx hc
  have hcm : Above idom c m := hxm.head hx
  have hmc : ¬ Above idom m c := h.not_above (Nat.lt_of_lt_of_le hlt (h.ranked.le hxm))
  have hcsome : (idom c).isSome := by rw [hx]; rfl
  have hold : ∀ a, (Function.update idom c (some m) a).isSome → (idom a).isSome := by
    intro a ha
    by_cases heq : a = c
    · rw [heq]
      exact hcsome
    · rwa [Function.update_of_ne heq] at ha
  obtain ⟨-, hleast⟩ := meets_pred hmeets
  refine ⟨?_, ?_⟩
  · intro a d ha hdom
    have hsome := hold a ha
    rcases above_update_or hx hmc (hb.dom a d hsome hdom) with hnew | ⟨hac, hxd, hmd⟩
    · exact hnew
    · -- `d` dominates `c` as well, hence its predecessors, and is above where they meet.
      have hdc : d ≠ c := by
        intro heq
        rw [heq] at hxd
        exact h.not_above hlt hxd
      have hdomc := hdom.of_avoids (hb.avoid a c d hsome hac (hxd.head hx) hdc) (h.reach c hcsome)
      refine absurd (hleast d fun p hp hpsome => ?_) hmd
      exact hb.dom p d hpsome (hdomc.of_edge hdc hp (h.reach p hpsome))
  · intro a u d ha hau hud hne
    exact hb.avoid a u d (hold a ha) (above_of_update hcm hau) (above_of_update hcm hud) hne

/-- The block's first parent does not touch the other blocks. -/
theorem above_fresh (h : Valid g entry po idom) (hc : idom c = none) {a b : Nat} (ha : (idom a).isSome) :
    Above (Function.update idom c (some m)) a b ↔ Above idom a b :=
  above_update_iff (h.not_above_none ha hc)

theorem Bounds.fresh (hb : Bounds g entry idom) (h : Valid g entry po idom) (hc : idom c = none)
    (hm : (idom m).isSome) (hmeets : Meets idom (g.pred c) m) {p₀ : Nat} (hp₀ : g.Edge p₀ c)
    (hsome₀ : (idom p₀).isSome) : Bounds g entry (Function.update idom c (some m)) := by
  obtain ⟨hall, hleast⟩ := meets_pred hmeets
  have hnew : ∀ {b}, Above (Function.update idom c (some m)) c b → b = c ∨ Above idom m b := by
    intro b hcb
    rcases hcb.cases_head with heq | ⟨p, hp, hpb⟩
    · exact Or.inl heq.symm
    · rw [Function.update_self] at hp
      rw [← Option.some.inj hp] at hpb
      exact Or.inr ((above_fresh h hc hm).mp hpb)
  refine ⟨?_, ?_⟩
  · intro a d ha hdom
    by_cases heq : a = c
    · subst heq
      by_cases hda : d = a
      · rw [hda]
        exact Relation.ReflTransGen.refl
      · refine Above.head (Function.update_self _ _ _) ((above_fresh h hc hm).mpr (hleast d ?_))
        exact fun p hp hpsome => hb.dom p d hpsome (hdom.of_edge hda hp (h.reach p hpsome))
    · rw [Function.update_of_ne heq] at ha
      exact (above_fresh h hc ha).mpr (hb.dom a d ha hdom)
  · intro a u d ha hau hud hne
    by_cases heq : a = c
    · subst heq
      rcases hnew hau with rfl | hmu
      · exact .refl hne.symm
      · -- Down to a predecessor and over the edge.
        have husome := h.above hm hmu
        have hud' := (above_fresh h hc husome).mp hud
        have hda : d ≠ a := by
          intro hda
          rw [hda] at hud'
          exact h.not_above_none husome hc hud'
        exact .tail (hb.avoid p₀ u d hsome₀ ((hall p₀ hp₀ hsome₀).trans hmu) hud' hne) hp₀ hda.symm
    · rw [Function.update_of_ne heq] at ha
      have hau' := (above_fresh h hc ha).mp hau
      have hud' := (above_fresh h hc (h.above ha hau')).mp hud
      exact hb.avoid a u d ha hau' hud' hne

end Move

/-! ## Sweeps -/

/-- The reachable blocks from high to low numbers. -/
structure Rpo (g : Cfg) (entry : Nat) (po : Nat → Nat) (rpo : List Nat) : Prop where
  mem : ∀ b, b ∈ rpo ↔ g.Reachable entry b
  sorted : rpo.Pairwise fun a b => po b < po a

theorem Rpo.nodup {rpo : List Nat} (h : Rpo g entry po rpo) : rpo.Nodup := by
  refine h.sorted.imp ?_
  intro a b hlt heq
  rw [heq] at hlt
  omega

/-- Before a block come the blocks with a higher number. -/
theorem Rpo.before {rpo done rest : List Nat} (h : Rpo g entry po rpo) {c : Nat} (hsplit : rpo = done ++ c :: rest)
    {b : Nat} (hb : g.Reachable entry b) : b ∈ done ↔ po c < po b := by
  have hsorted := h.sorted
  rw [hsplit, List.pairwise_append, List.pairwise_cons] at hsorted
  obtain ⟨-, ⟨hrest, -⟩, hcross⟩ := hsorted
  constructor
  · exact fun hdone => hcross b hdone c List.mem_cons_self
  · intro hlt
    have hmem := (h.mem b).mpr hb
    rw [hsplit] at hmem
    rcases List.mem_append.mp hmem with hdone | hmem
    · exact hdone
    · rcases List.mem_cons.mp hmem with rfl | hmem
      · omega
      · have := hrest b hmem
        omega

/-- Processing a block sets its parent to the meeting point, if there is one. -/
theorem processNode_fst (state : (Nat → Option Nat) × Bool) {c : Nat} (hc : c ≠ entry) :
    (processNode g entry po state c).1 =
      match newIdom po state.1 (2 * g.size) (g.pred c) with
      | none => state.1
      | some m => Function.update state.1 c (some m) := by
  unfold processNode
  rw [if_neg hc]
  cases newIdom po state.1 (2 * g.size) (g.pred c) with
  | none => rfl
  | some m =>
    by_cases heq : state.1 c = some m
    · simp only [ne_eq, heq, not_true_eq_false, if_false]
      rw [← heq, Function.update_eq_self]
    · simp only [ne_eq, heq, not_false_eq_true, if_true]

/-- What the flag of a sweep means. -/
theorem fold_flag (idom₀ : Nat → Option Nat) {done : List Nat} (hnodup : done.Nodup) :
    let result := done.foldl (processNode g entry po) (idom₀, false)
    (∀ c ∉ done, result.1 c = idom₀ c) ∧ (result.2 = true → ∃ c ∈ done, result.1 c ≠ idom₀ c) ∧
      (result.2 = false → result.1 = idom₀ ∧ ∀ c ∈ done, c ≠ entry → ∀ m,
        newIdom po idom₀ (2 * g.size) (g.pred c) = some m → idom₀ c = some m) := by
  induction done using List.reverseRecOn with
  | nil =>
    refine ⟨fun _ _ => rfl, ?_, ?_⟩
    · intro hflag
      cases hflag
    · refine fun _ => ⟨rfl, fun c hc => ?_⟩
      cases hc
  | append_singleton done c ih =>
    have hne : c ∉ done := by
      intro hc
      exact (List.nodup_append.mp hnodup).2.2 c hc c (List.mem_singleton_self c) rfl
    obtain ⟨hsame, htrue, hfalse⟩ := ih (List.nodup_append.mp hnodup).1
    simp only [List.foldl_append, List.foldl_cons, List.foldl_nil]
    generalize done.foldl (processNode g entry po) (idom₀, false) = state at hsame htrue hfalse ⊢
    -- An earlier change is not undone: this block was not among the earlier ones.
    have hearlier : ∀ {idom' : Nat → Option Nat}, (∀ b ≠ c, idom' b = state.1 b) → state.2 = true →
        ∃ b ∈ done ++ [c], idom' b ≠ idom₀ b := by
      intro idom' hothers hflag
      obtain ⟨b, hb, hchanged⟩ := htrue hflag
      refine ⟨b, List.mem_append_left _ hb, ?_⟩
      rw [hothers b (fun heq => hne (heq ▸ hb))]
      exact hchanged
    have hold : ∀ b ∉ done ++ [c], b ≠ c ∧ state.1 b = idom₀ b := by
      intro b hb
      exact ⟨fun heq => hb (by rw [heq]; exact List.mem_append_right _ (List.mem_singleton_self c)),
        hsame b fun hd => hb (List.mem_append_left _ hd)⟩
    -- Where the block is left alone, its parent is where its predecessors meet.
    have hquiet : state.2 = false → (c ≠ entry → ∀ m, newIdom po idom₀ (2 * g.size) (g.pred c) = some m →
        idom₀ c = some m) → state.1 = idom₀ ∧ ∀ b ∈ done ++ [c], b ≠ entry → ∀ m,
          newIdom po idom₀ (2 * g.size) (g.pred b) = some m → idom₀ b = some m := by
      intro hflag hc
      obtain ⟨heq, hdone⟩ := hfalse hflag
      refine ⟨heq, fun b hb => ?_⟩
      rcases List.mem_append.mp hb with hb | hb
      · exact hdone b hb
      · rw [List.mem_singleton.mp hb]
        exact hc
    unfold processNode
    split
    · next hentry =>
      exact ⟨fun b hb => (hold b hb).2, hearlier fun _ _ => rfl,
        fun hflag => hquiet hflag fun h => absurd hentry h⟩
    · split
      · next hnone =>
        refine ⟨fun b hb => (hold b hb).2, hearlier fun _ _ => rfl, fun hflag => hquiet hflag fun _ m hm => ?_⟩
        rw [(hfalse hflag).1, hm] at hnone
        cases hnone
      · next ni hsome =>
        split
        · next hchange =>
          refine ⟨fun b hb => ?_, fun _ => ?_, fun hflag => by cases hflag⟩
          · show Function.update state.1 c (some ni) b = idom₀ b
            rw [Function.update_of_ne (hold b hb).1]
            exact (hold b hb).2
          · refine ⟨c, List.mem_append_right _ (List.mem_singleton_self c), ?_⟩
            show Function.update state.1 c (some ni) c ≠ idom₀ c
            rw [Function.update_self, ← hsame c hne]
            exact fun heq => hchange heq.symm
        · next hkept =>
          refine ⟨fun b hb => (hold b hb).2, hearlier fun _ _ => rfl, fun hflag => hquiet hflag fun _ m hm => ?_⟩
          have hsame' := (hfalse hflag).1
          rw [hsame'] at hsome hkept
          rw [hm] at hsome
          rw [Option.some.inj hsome]
          exact Decidable.of_not_not hkept

/-- Where the predecessors of a block with a parent meet: every block with a higher
number before it is below its parent, and what is above all predecessors is above
the parent. -/
structure Settled (g : Cfg) (entry : Nat) (po : Nat → Nat) (idom : Nat → Option Nat) : Prop where
  valid : Valid g entry po idom
  bounds : Bounds g entry idom
  total : ∀ c, g.Reachable entry c → (idom c).isSome
  forward : ∀ c x, c ≠ entry → idom c = some x →
    ∀ p, g.Edge p c → g.Reachable entry p → po c < po p → Above idom p x
  meet : ∀ c x, c ≠ entry → idom c = some x →
    ∀ z, (∀ p, g.Edge p c → g.Reachable entry p → Above idom p z) → Above idom x z

/-! ### The first sweep -/

/-- The table after the blocks `done` of the first sweep: parents are where the
predecessors with a higher number meet. -/
structure First (g : Cfg) (entry : Nat) (po : Nat → Nat) (done : List Nat) (idom : Nat → Option Nat) : Prop where
  valid : Valid g entry po idom
  bounds : Bounds g entry idom
  processed : ∀ b, (idom b).isSome ↔ b = entry ∨ b ∈ done
  forward : ∀ c x, c ≠ entry → idom c = some x →
    ∀ p, g.Edge p c → g.Reachable entry p → po c < po p → Above idom p x
  least : ∀ c x, c ≠ entry → idom c = some x →
    ∀ z, (∀ p, g.Edge p c → g.Reachable entry p → po c < po p → Above idom p z) → Above idom x z

theorem first_start : First g entry po [] (Function.update (fun _ => none) entry (some entry)) := by
  have honly : ∀ {c x}, Function.update (fun _ => none) entry (some entry) c = some x → c = entry := by
    intro c x hcx
    by_contra hne
    rw [Function.update_of_ne hne] at hcx
    cases hcx
  have hranked : Ranked (Function.update (fun _ => none) entry (some entry)) entry po :=
    ⟨Function.update_self _ _ _, fun a b hab ha => absurd (honly hab) ha⟩
  have hsome : ∀ {c}, (Function.update (fun _ => none) entry (some entry) c).isSome → c = entry := by
    intro c hc
    obtain ⟨x, hx⟩ := Option.isSome_iff_exists.mp hc
    exact honly hx
  refine ⟨⟨hranked, ?_, ?_⟩, ⟨?_, ?_⟩, ?_, ?_, ?_⟩
  · intro c hc
    rw [hsome hc]
    exact Relation.ReflTransGen.refl
  · intro c y hcy
    rw [honly hcy, Function.update_self] at hcy
    rw [← Option.some.inj hcy, Function.update_self]
    rfl
  · intro c d hc hdom
    rw [hsome hc] at hdom ⊢
    -- Only the entry itself is on the empty path.
    by_cases hd : d = entry
    · rw [hd]
      exact Relation.ReflTransGen.refl
    · exact absurd (Avoids.refl (Ne.symm hd)) hdom.2
  · intro c u d hc hcu hud hne
    rw [hsome hc] at hcu
    have hu := hranked.above_root hcu
    rw [hu] at hud
    exact absurd ((hranked.above_root hud).trans hu.symm) hne
  · intro b
    constructor
    · exact fun hb => Or.inl (hsome hb)
    · intro hb
      rcases hb with rfl | hb
      · rw [Function.update_self]
        rfl
      · cases hb
  · exact fun c x hc hcx => absurd (honly hcx) hc
  · exact fun c x hc hcx => absurd (honly hcx) hc

theorem First.step (hnum : Numbering g entry po) {done : List Nat} {c : Nat} (h : First g entry po done idom)
    (hreach : g.Reachable entry c) (hbefore : ∀ b, g.Reachable entry b → (b ∈ done ↔ po c < po b))
    (hc : c ≠ entry) : ∃ m, newIdom po idom (2 * g.size) (g.pred c) = some m ∧
      First g entry po (done ++ [c]) (Function.update idom c (some m)) := by
  have hcnone : idom c = none := by
    by_contra hsome
    rcases (h.processed c).mp (Option.isSome_iff_ne_none.mpr hsome) with heq | hdone
    · exact hc heq
    · have := (hbefore c hreach).mp hdone
      omega
  -- The predecessors that count are the ones with a higher number.
  have hpred : ∀ p, g.Reachable entry p → ((idom p).isSome ↔ po c < po p) := by
    intro p hp
    rw [h.processed p, hbefore p hp]
    constructor
    · intro hor
      rcases hor with rfl | hlt
      · exact hnum.lt_entry hreach hc
      · exact hlt
    · exact Or.inr
  obtain ⟨p₀, hedge₀, hreach₀, hlt₀⟩ := hnum.parent c hreach hc
  have hsome₀ := (hpred p₀ hreach₀).mpr hlt₀
  have hspec := newIdom_spec hnum h.valid (g.pred c)
  cases hnew : newIdom po idom (2 * g.size) (g.pred c) with
  | none =>
    rw [hnew] at hspec
    rw [hspec p₀ (Cfg.mem_pred_iff.mpr hedge₀)] at hsome₀
    cases hsome₀
  | some m =>
    rw [hnew] at hspec
    obtain ⟨hmeets, -⟩ := hspec
    obtain ⟨hall, hleast⟩ := meets_pred hmeets
    have hm₀ := hall p₀ hedge₀ hsome₀
    have hmsome := h.valid.above hsome₀ hm₀
    have hlt : po c < po m := Nat.lt_of_lt_of_le hlt₀ (h.valid.ranked.le hm₀)
    have hfresh : ∀ {a b}, (idom a).isSome → (Above (Function.update idom c (some m)) a b ↔ Above idom a b) :=
      fun ha => above_fresh h.valid hcnone ha
    -- The blocks processed before keep their ancestors.
    have hold : ∀ {b x}, b ≠ entry → b ≠ c → Function.update idom c (some m) b = some x →
        idom b = some x ∧ (idom x).isSome ∧ ∀ p, g.Reachable entry p → po b < po p → (idom p).isSome := by
      intro b x hb hbc hbx
      rw [Function.update_of_ne hbc] at hbx
      have hbsome : (idom b).isSome := by rw [hbx]; rfl
      have hbdone := ((h.processed b).mp hbsome).resolve_left hb
      have hblt := (hbefore b (h.valid.reach b hbsome)).mp hbdone
      exact ⟨hbx, h.valid.closed b x hbx, fun p hp hlt => (hpred p hp).mpr (by omega)⟩
    refine ⟨m, rfl, h.valid.update hc hreach hmsome hlt,
      h.bounds.fresh h.valid hcnone hmsome hmeets hedge₀ hsome₀, ?_, ?_, ?_⟩
    · intro b
      by_cases hbc : b = c
      · rw [hbc, Function.update_self]
        exact ⟨fun _ => Or.inr (List.mem_append_right _ (List.mem_singleton_self c)), fun _ => rfl⟩
      · rw [Function.update_of_ne hbc, h.processed b, List.mem_append, List.mem_singleton]
        simp [hbc]
    · intro b x hb hbx p hp hpreach hplt
      by_cases hbc : b = c
      · subst hbc
        rw [Function.update_self] at hbx
        rw [← Option.some.inj hbx]
        have hpsome := (hpred p hpreach).mpr hplt
        exact (hfresh hpsome).mpr (hall p hp hpsome)
      · obtain ⟨hbx', -, hpsome⟩ := hold hb hbc hbx
        exact (hfresh (hpsome p hpreach hplt)).mpr (h.forward b x hb hbx' p hp hpreach hplt)
    · intro b x hb hbx z hz
      by_cases hbc : b = c
      · subst hbc
        rw [Function.update_self] at hbx
        rw [← Option.some.inj hbx]
        refine (hfresh hmsome).mpr (hleast z fun p hp hpsome => ?_)
        have hpreach := h.valid.reach p hpsome
        exact (hfresh hpsome).mp (hz p hp hpreach ((hpred p hpreach).mp hpsome))
      · obtain ⟨hbx', hxsome, hpsome⟩ := hold hb hbc hbx
        refine (hfresh hxsome).mpr (h.least b x hb hbx' z fun p hp hpreach hplt => ?_)
        exact (hfresh (hpsome p hpreach hplt)).mp (hz p hp hpreach hplt)

theorem first_fold (hnum : Numbering g entry po) {rpo : List Nat} (hrpo : Rpo g entry po rpo) {done rest : List Nat}
    (hsplit : rpo = done ++ rest) :
    First g entry po done (done.foldl (processNode g entry po)
      (Function.update (fun _ => none) entry (some entry), false)).1 := by
  induction done using List.reverseRecOn generalizing rest with
  | nil => exact first_start
  | append_singleton done c ih =>
    have hsplit' : rpo = done ++ c :: rest := by rw [hsplit, List.append_assoc]; rfl
    have hfirst := ih hsplit'
    have hreach : g.Reachable entry c := by
      rw [← hrpo.mem c, hsplit']
      exact List.mem_append_right _ List.mem_cons_self
    rw [List.foldl_append, List.foldl_cons, List.foldl_nil]
    by_cases hc : c = entry
    · -- The entry is its own parent from the start.
      rw [processNode, if_pos hc]
      refine ⟨hfirst.valid, hfirst.bounds, fun b => ?_, hfirst.forward, hfirst.least⟩
      rw [hfirst.processed b, List.mem_append, List.mem_singleton, hc]
      tauto
    · obtain ⟨m, hnew, hnext⟩ := hfirst.step hnum hreach (fun b hb => hrpo.before hsplit' hb) hc
      rw [processNode_fst _ hc, hnew]
      exact hnext

/-- After the first sweep every reachable block has a parent. -/
theorem First.settled {rpo : List Nat} (hrpo : Rpo g entry po rpo) (h : First g entry po rpo idom) :
    Settled g entry po idom :=
  ⟨h.valid, h.bounds, fun c hc => (h.processed c).mpr (Or.inr ((hrpo.mem c).mpr hc)), h.forward,
    fun c x hc hx z hz => h.least c x hc hx z fun p hp hpreach _ => hz p hp hpreach⟩

/-! ### Later sweeps -/

/-- The table after the blocks `done` of a sweep that started with `idom₀`. -/
structure Mid (g : Cfg) (entry : Nat) (po : Nat → Nat) (idom₀ : Nat → Option Nat) (done : List Nat)
    (idom : Nat → Option Nat) : Prop where
  valid : Valid g entry po idom
  bounds : Bounds g entry idom
  total : ∀ c, g.Reachable entry c → (idom c).isSome
  same : ∀ c ∉ done, idom c = idom₀ c
  shrink : ∀ a b, Above idom a b → Above idom₀ a b
  keep : ∀ a b, (idom b).isSome → b ∉ done → Above idom₀ a b → Above idom a b
  between : ∀ u v z, Above idom₀ u v → Above idom₀ v z → Above idom u z → Above idom v z
  forward : ∀ c x, c ∈ done → c ≠ entry → idom c = some x →
    ∀ p, g.Edge p c → g.Reachable entry p → po c < po p → Above idom p x
  meet : ∀ c x, c ∈ done → c ≠ entry → idom c = some x →
    ∀ z, (∀ p, g.Edge p c → g.Reachable entry p → Above idom p z) → Above idom x z

theorem Settled.mid (h : Settled g entry po idom₀) : Mid g entry po idom₀ [] idom₀ :=
  ⟨h.valid, h.bounds, h.total, fun _ _ => rfl, fun _ _ hab => hab, fun _ _ _ _ hab => hab,
    fun _ _ _ _ hvz _ => hvz, fun _ _ hc => absurd hc List.not_mem_nil, fun _ _ hc => absurd hc List.not_mem_nil⟩

section Mid
variable {done : List Nat} {c m : Nat}

/-- The new parent of a block is above its old one. -/
theorem Mid.above_new (hnum : Numbering g entry po) (h₀ : Settled g entry po idom₀)
    (h : Mid g entry po idom₀ done idom) (hreach : g.Reachable entry c) (hc : c ≠ entry) (hnot : c ∉ done)
    (hmeets : Meets idom (g.pred c) m) {x : Nat} (hx : idom c = some x) : Above idom x m := by
  obtain ⟨hall, -⟩ := meets_pred hmeets
  have hx₀ : idom₀ c = some x := by rw [← h.same c hnot]; exact hx
  obtain ⟨p₀, hedge₀, hreach₀, hlt₀⟩ := hnum.parent c hreach hc
  -- It was above the old parent when the sweep started, and it still is above `p₀`.
  have hxm₀ : Above idom₀ x m := by
    refine h₀.meet c x hc hx₀ m fun p hp hpreach => h.shrink p m ?_
    exact hall p hp (h.total p hpreach)
  exact h.between p₀ x m (h₀.forward c x hc hx₀ p₀ hedge₀ hreach₀ hlt₀) hxm₀
    (hall p₀ hedge₀ (h.total p₀ hreach₀))

theorem Mid.step (h : Mid g entry po idom₀ done idom) (hreach : g.Reachable entry c)
    (hbefore : ∀ b, g.Reachable entry b → (b ∈ done ↔ po c < po b)) (hc : c ≠ entry)
    (hmeets : Meets idom (g.pred c) m) {x : Nat} (hx : idom c = some x) (hxm : Above idom x m) :
    Mid g entry po idom₀ (done ++ [c]) (Function.update idom c (some m)) := by
  obtain ⟨hall, hleast⟩ := meets_pred hmeets
  have hlt : po c < po x := h.valid.ranked.lt c x hx hc
  have hltm : po c < po m := Nat.lt_of_lt_of_le hlt (h.valid.ranked.le hxm)
  have hcm : Above idom c m := hxm.head hx
  have hmc : ¬ Above idom m c := h.valid.not_above hltm
  have hmsome : (idom m).isSome := h.valid.above (h.total c hreach) hcm
  have hnot : c ∉ done := fun hdone => by
    have := (hbefore c hreach).mp hdone
    omega
  have hshrink : ∀ {a b}, Above (Function.update idom c (some m)) a b → Above idom a b :=
    fun hab => above_of_update hcm hab
  -- Above a block with a higher number than `c` nothing changes.
  have hhigh : ∀ {a b}, po c < po a → (Above (Function.update idom c (some m)) a b ↔ Above idom a b) :=
    fun ha => above_update_iff (h.valid.not_above ha)
  have hlost : ∀ {a b}, Above idom a b → ¬ (Above idom a c ∧ Above idom x b ∧ ¬ Above idom m b) →
      Above (Function.update idom c (some m)) a b :=
    fun hab hno => (above_update_or hx hmc hab).resolve_right hno
  have hvalid := h.valid.update hc hreach hmsome hltm
  have hdone : ∀ b ∈ done, g.Reachable entry b → po c < po b := fun b hb hreachb => (hbefore b hreachb).mp hb
  refine ⟨hvalid, h.bounds.move h.valid hc hx hxm hmeets, fun b hb => isSome_update (h.total b hb), ?_,
    fun a b hab => h.shrink a b (hshrink hab), ?_, ?_, ?_, ?_⟩
  · intro b hb
    rw [Function.update_of_ne fun heq => hb (by rw [heq]; exact List.mem_append_right _ (List.mem_singleton_self c))]
    exact h.same b fun hd => hb (List.mem_append_left _ hd)
  · intro a b hb hnotb hab
    have hbreach := hvalid.reach b hb
    have hbdone : b ∉ done := fun hd => hnotb (List.mem_append_left _ hd)
    refine hlost (h.keep a b (h.total b hbreach) hbdone hab) ?_
    rintro ⟨-, hxb, -⟩
    have hle := h.valid.ranked.le hxb
    exact hbdone ((hbefore b hbreach).mpr (by omega))
  · intro u v z huv hvz huz
    have huz' := hshrink huz
    refine hlost (h.between u v z huv hvz huz') ?_
    rintro ⟨hvc, hxz, hmz⟩
    -- `c` is above `u` too, and `z` is above `c` there: it would be lost from `u`.
    have huc : Above idom u c := h.keep u c (h.total c hreach) hnot (huv.trans (h.shrink v c hvc))
    have hle := h.valid.ranked.le hxz
    have huc' : Above (Function.update idom c (some m)) u c :=
      hlost huc fun hno => h.valid.not_above hlt hno.2.1
    rcases huc'.total huz with hcz | hzc
    · rcases hcz.cases_head with heq | ⟨p, hp, hpz⟩
      · rw [heq] at hlt
        omega
      · rw [Function.update_self] at hp
        rw [← Option.some.inj hp] at hpz
        exact hmz (hshrink hpz)
    · have := hvalid.ranked.le hzc
      omega
  · intro b y hb hbe hby p hp hpreach hplt
    by_cases hbc : b = c
    · subst hbc
      rw [Function.update_self] at hby
      rw [← Option.some.inj hby]
      exact (hhigh hplt).mpr (hall p hp (h.total p hpreach))
    · rw [Function.update_of_ne hbc] at hby
      have hbd : b ∈ done := by simpa [hbc] using hb
      have hblt := hdone b hbd (h.valid.reach b (by rw [hby]; rfl))
      exact (hhigh (Nat.lt_trans hblt hplt)).mpr (h.forward b y hbd hbe hby p hp hpreach hplt)
  · intro b y hb hbe hby z hz
    by_cases hbc : b = c
    · subst hbc
      rw [Function.update_self] at hby
      rw [← Option.some.inj hby]
      refine (hhigh hltm).mpr (hleast z fun p hp hpsome => ?_)
      exact hshrink (hz p hp (h.valid.reach p hpsome))
    · rw [Function.update_of_ne hbc] at hby
      have hbd : b ∈ done := by simpa [hbc] using hb
      have hblt := hdone b hbd (h.valid.reach b (by rw [hby]; rfl))
      have hylt := h.valid.ranked.lt b y hby hbe
      refine (hhigh (Nat.lt_trans hblt hylt)).mpr (h.meet b y hbd hbe hby z fun p hp hpreach => ?_)
      exact hshrink (hz p hp hpreach)

end Mid

theorem mid_fold (hnum : Numbering g entry po) {rpo : List Nat} (hrpo : Rpo g entry po rpo)
    (h₀ : Settled g entry po idom₀) {done rest : List Nat} (hsplit : rpo = done ++ rest) :
    Mid g entry po idom₀ done (done.foldl (processNode g entry po) (idom₀, false)).1 := by
  induction done using List.reverseRecOn generalizing rest with
  | nil => exact h₀.mid
  | append_singleton done c ih =>
    have hsplit' : rpo = done ++ c :: rest := by rw [hsplit, List.append_assoc]; rfl
    have hmid := ih hsplit'
    have hreach : g.Reachable entry c := by
      rw [← hrpo.mem c, hsplit']
      exact List.mem_append_right _ List.mem_cons_self
    rw [List.foldl_append, List.foldl_cons, List.foldl_nil]
    by_cases hc : c = entry
    · rw [processNode, if_pos hc]
      refine ⟨hmid.valid, hmid.bounds, hmid.total, fun b hb => hmid.same b fun hd => hb (List.mem_append_left _ hd),
        hmid.shrink, fun a b hb hnot => hmid.keep a b hb fun hd => hnot (List.mem_append_left _ hd),
        hmid.between, ?_, ?_⟩
      · intro b x hb hbe
        exact hmid.forward b x (by simpa [hc, hbe] using hb) hbe
      · intro b x hb hbe
        exact hmid.meet b x (by simpa [hc, hbe] using hb) hbe
    · have hbefore := fun b hb => hrpo.before (b := b) hsplit' hb
      have hnot : c ∉ done := fun hdone => by
        have := (hbefore c hreach).mp hdone
        omega
      obtain ⟨p₀, hedge₀, hreach₀, -⟩ := hnum.parent c hreach hc
      have hspec := newIdom_spec hnum hmid.valid (g.pred c)
      rw [processNode_fst _ hc]
      cases hnew : newIdom po (done.foldl (processNode g entry po) (idom₀, false)).1 (2 * g.size) (g.pred c) with
      | none =>
        rw [hnew] at hspec
        have hsome := hmid.total p₀ hreach₀
        rw [hspec p₀ (Cfg.mem_pred_iff.mpr hedge₀)] at hsome
        cases hsome
      | some m =>
        rw [hnew] at hspec
        obtain ⟨x, hx⟩ := Option.isSome_iff_exists.mp (hmid.total c hreach)
        exact hmid.step hreach hbefore hc hspec.1 hx (hmid.above_new hnum h₀ hreach hc hnot hspec.1 hx)

theorem Mid.settled {rpo : List Nat} (hrpo : Rpo g entry po rpo) (h : Mid g entry po idom₀ rpo idom) :
    Settled g entry po idom := by
  have hmem : ∀ {c x}, idom c = some x → c ∈ rpo := by
    intro c x hx
    exact (hrpo.mem c).mpr (h.valid.reach c (by rw [hx]; rfl))
  exact ⟨h.valid, h.bounds, h.total, fun c x hc hx => h.forward c x (hmem hx) hc hx,
    fun c x hc hx => h.meet c x (hmem hx) hc hx⟩

/-! ## The end of the sweeps -/

/-- How far up the parents are. -/
def height (g : Cfg) (po : Nat → Nat) (idom : Nat → Option Nat) : Nat :=
  ∑ b ∈ Finset.range g.size, match idom b with
    | some x => po x
    | none => 0

theorem height_le (hnum : Numbering g entry po) (h : Valid g entry po idom) : height g po idom ≤ g.size * g.size := by
  calc height g po idom ≤ ∑ _ ∈ Finset.range g.size, g.size := by
        refine Finset.sum_le_sum fun b _ => ?_
        split
        · rename_i x hx
          exact Nat.le_of_lt (hnum.lt x (h.reach x (h.closed b x hx)))
        · exact Nat.zero_le _
    _ = g.size * g.size := by rw [Finset.sum_const_nat fun _ _ => rfl, Finset.card_range]

/-- A parent that a sweep has changed is higher up than the old one. -/
theorem Mid.lt_parent {done : List Nat} (h : Mid g entry po idom₀ done idom) (h₀ : Settled g entry po idom₀)
    {c x m : Nat} (hx : idom₀ c = some x) (hm : idom c = some m) (hne : x ≠ m) : po x < po m := by
  have hc : c ≠ entry := by
    intro hentry
    rw [hentry, h₀.valid.ranked.self] at hx
    rw [hentry, h.valid.ranked.self] at hm
    exact hne (Option.some.inj (hx.symm.trans hm))
  have hcm : c ≠ m := by
    intro heq
    have := h.valid.ranked.lt c m hm hc
    rw [← heq] at this
    omega
  rcases (h.shrink c m (Above.head hm Relation.ReflTransGen.refl)).cases_head with heq | ⟨y, hy, hym⟩
  · exact absurd heq hcm
  · rw [hx] at hy
    rw [← Option.some.inj hy] at hym
    exact h₀.valid.ranked.lt_of_ne hym hne

theorem height_lt {done : List Nat} (h : Mid g entry po idom₀ done idom) (h₀ : Settled g entry po idom₀)
    {c : Nat} (hc : c < g.size) (hreach : g.Reachable entry c) (hchanged : idom c ≠ idom₀ c) :
    height g po idom₀ < height g po idom := by
  have hle : ∀ {b x m}, idom₀ b = some x → idom b = some m → po x ≤ po m := by
    intro b x m hx hm
    by_cases heq : x = m
    · rw [heq]
    · exact Nat.le_of_lt (h.lt_parent h₀ hx hm heq)
  refine Finset.sum_lt_sum (fun b _ => ?_) ⟨c, Finset.mem_range.mpr hc, ?_⟩
  · cases hx : idom₀ b with
    | none => exact Nat.zero_le _
    | some x =>
      obtain ⟨m, hm⟩ := Option.isSome_iff_exists.mp (h.total b (h₀.valid.reach b (by rw [hx]; rfl)))
      rw [hm]
      exact hle hx hm
  · obtain ⟨x, hx⟩ := Option.isSome_iff_exists.mp (h₀.total c hreach)
    obtain ⟨m, hm⟩ := Option.isSome_iff_exists.mp (h.total c hreach)
    rw [hx, hm] at hchanged ⊢
    exact h.lt_parent h₀ hx hm fun heq => hchanged (by rw [heq])

/-- A sweep would change nothing. -/
def Fixed (g : Cfg) (entry : Nat) (po : Nat → Nat) (idom : Nat → Option Nat) : Prop :=
  ∀ c, g.Reachable entry c → c ≠ entry → ∀ m, newIdom po idom (2 * g.size) (g.pred c) = some m → idom c = some m

/-- A sweep that changes nothing leaves a table that is fixed. -/
theorem sweep_fixed {rpo : List Nat} (hrpo : Rpo g entry po rpo) (hflag : (sweep g entry po rpo idom₀).2 = false) :
    Fixed g entry po (sweep g entry po rpo idom₀).1 := by
  obtain ⟨heq, hdone⟩ := (fold_flag idom₀ hrpo.nodup).2.2 hflag
  intro c hc hne m hm
  rw [sweep, heq] at hm ⊢
  exact hdone c ((hrpo.mem c).mpr hc) hne m hm

/-- There are enough sweeps. -/
theorem sweeps_settled (hentry : entry < g.size) (hnum : Numbering g entry po) {rpo : List Nat}
    (hrpo : Rpo g entry po rpo) {fuel : Nat} (h₀ : Settled g entry po idom₀)
    (hfuel : g.size * g.size < fuel + height g po idom₀) :
    Settled g entry po (sweeps g entry po rpo fuel idom₀) ∧ Fixed g entry po (sweeps g entry po rpo fuel idom₀) := by
  induction fuel generalizing idom₀ with
  | zero =>
    have := height_le hnum h₀.valid
    omega
  | succ fuel ih =>
    have hmid : Mid g entry po idom₀ rpo (sweep g entry po rpo idom₀).1 := mid_fold hnum hrpo h₀ (List.append_nil _).symm
    have hnext := hmid.settled hrpo
    rw [sweeps]
    cases hflag : (sweep g entry po rpo idom₀).2 with
    | false =>
      simp only [Bool.false_eq_true, if_false]
      exact ⟨hnext, sweep_fixed hrpo hflag⟩
    | true =>
      simp only [if_true]
      obtain ⟨c, hc, hchanged⟩ := (fold_flag idom₀ hrpo.nodup).2.1 hflag
      have hreach := (hrpo.mem c).mp hc
      have hlt := height_lt hmid h₀ (hreach.lt hentry) hreach hchanged
      exact ih hnext (by omega)

theorem dfs_rpo (hentry : entry < g.size) : Rpo g entry (dfs g entry).postorder (dfs g entry).order.reverse :=
  ⟨fun b => by rw [List.mem_reverse, mem_order_iff hentry], rpo_sorted g entry⟩

theorem buildIdom_settled (hentry : entry < g.size) :
    Settled g entry (dfs g entry).postorder (buildIdom g entry) ∧
      Fixed g entry (dfs g entry).postorder (buildIdom g entry) := by
  have hnum := dfs_numbering hentry
  have hrpo := dfs_rpo hentry
  have hfirst := (first_fold hnum hrpo (List.append_nil _).symm).settled hrpo
  rw [buildIdom, sweeps]
  cases hflag : (sweep g entry (dfs g entry).postorder (dfs g entry).order.reverse
      (Function.update (fun _ => none) entry (some entry))).2 with
  | false =>
    simp only [Bool.false_eq_true, if_false]
    exact ⟨hfirst, sweep_fixed hrpo hflag⟩
  | true =>
    simp only [if_true]
    exact sweeps_settled hentry hnum hrpo hfirst (by omega)

/-! ## Dominators -/

/-- In a table that no sweep changes a parent is where the predecessors meet. -/
theorem Fixed.meets (hfixed : Fixed g entry po idom) (hnum : Numbering g entry po) (h : Settled g entry po idom)
    {c : Nat} (hreach : g.Reachable entry c) (hc : c ≠ entry) : ∃ m, idom c = some m ∧ Meets idom (g.pred c) m := by
  have hspec := newIdom_spec hnum h.valid (g.pred c)
  obtain ⟨p, hedge, hp, -⟩ := hnum.parent c hreach hc
  cases hnew : newIdom po idom (2 * g.size) (g.pred c) with
  | none =>
    rw [hnew] at hspec
    have hsome := h.total p hp
    rw [hspec p (Cfg.mem_pred_iff.mpr hedge)] at hsome
    cases hsome
  | some m =>
    rw [hnew] at hspec
    exact ⟨m, hfixed c hreach hc m hnew, hspec.1⟩

/-- Above a block in a table that no sweep changes are its dominators. -/
theorem above_iff_dominates (hnum : Numbering g entry po) (h : Settled g entry po idom) (hfixed : Fixed g entry po idom)
    {b d : Nat} (hreach : g.Reachable entry b) : Above idom b d ↔ Dominates g.Edge entry d b := by
  constructor
  · intro habove
    refine ⟨hreach, fun havoid => ?_⟩
    -- along a path around `d` no block has `d` above it
    have hnot : ∀ v, Avoids g.Edge d entry v → g.Reachable entry v → ¬ Above idom v d := by
      intro v hv
      induction hv with
      | refl hne => exact fun _ hd => hne (h.valid.ranked.above_root hd).symm
      | @tail v w hpath hedge hne ih =>
        intro hw hd
        have hv : g.Reachable entry v := hpath.reach
        have hne' : w ≠ entry := by
          intro heq
          rw [heq] at hd hne
          exact hne (h.valid.ranked.above_root hd).symm
        obtain ⟨m, hm, hmeets⟩ := hfixed.meets hnum h hw hne'
        rcases hd.cases_head with heq | ⟨m', hm', habove'⟩
        · exact hne heq
        · rw [hm] at hm'
          rw [← Option.some.inj hm'] at habove'
          exact ih hv (((meets_pred hmeets).1 v hedge (h.total v hv)).trans habove')
    exact hnot b havoid hreach habove
  · exact h.bounds.dom b d (h.total b hreach)

/-- `build_idom`: for a block that can be reached the ancestors are the dominators. -/
theorem above_buildIdom (hentry : entry < g.size) {b d : Nat} (hreach : g.Reachable entry b) :
    Above (buildIdom g entry) b d ↔ Dominates g.Edge entry d b :=
  above_iff_dominates (dfs_numbering hentry) (buildIdom_settled hentry).1 (buildIdom_settled hentry).2 hreach

/-- The table holds the immediate dominators, and nothing for a block that is not reached. -/
theorem dominatorTable_buildIdom (hentry : entry < g.size) : DominatorTable g.Edge entry (buildIdom g entry) := by
  have hsettled := (buildIdom_settled hentry).1
  have hreach : ∀ b, (buildIdom g entry b).isSome ↔ g.Reachable entry b :=
    fun b => ⟨hsettled.valid.reach b, hsettled.total b⟩
  exact hsettled.valid.ranked.dominatorTable hreach
    (fun b d hd => (hreach d).mp (hsettled.valid.closed b d hd)) fun b d hb => above_buildIdom hentry hb

end Chk

end Windy.Ssa
