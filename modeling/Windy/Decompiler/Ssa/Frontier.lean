import Windy.Decompiler.Ssa.Idom

/- Dominance frontiers and the places of phi nodes (`dominance_frontier` and `iterated_df` in
   `decompiler/ssa/cfg.rs`, `place_phis` in `decompiler/ssa/phi.rs`).

   The entry stands as its own immediate dominator, so a walk that looks for the frontiers ends
   in front of it: a loop back to the entry gets no phi node there. A location that one block
   defines gets none at all.

   What is proved:
     1. `mem_dominanceFrontier`: but for the entry the frontiers are those of the dominators.
     2. `iteratedDf_closed`: the iterated frontier has the frontiers of all its blocks.
     3. `phis_unique_iff`: when the last block that defines a location or has a phi node for it
        is the same on every path.

   Correspondence:
     `dominance_frontier`, `iterated_df`, `place_phis` ↔ the same -/
namespace Windy.Ssa

open Dominance Relation

/-! ## One runner -/

section Runner
variable {g : Cfg} {entry : Nat} {po : Nat → Nat} {idom : Nat → Option Nat} {a b p t x : Nat}

theorem mem_update_insert (df : Nat → List Nat) :
    x ∈ Function.update df p ((df p).insert b) a ↔ x ∈ df a ∨ x = b ∧ a = p := by
  by_cases h : a = p
  · rw [h, Function.update_self, List.mem_insert_iff]
    tauto
  · rw [Function.update_of_ne h]
    tauto

/-- Only the block itself is added. -/
theorem mem_runFrontier_of_ne (hne : x ≠ b) (fuel p : Nat) (df : Nat → List Nat) :
    x ∈ runFrontier idom b fuel p df a ↔ x ∈ df a := by
  induction fuel generalizing p df with
  | zero => rfl
  | succ fuel ih =>
    have hadd : x ∈ Function.update df p ((df p).insert b) a ↔ x ∈ df a := by
      rw [mem_update_insert, or_iff_left fun h => hne h.1]
    rw [runFrontier]
    split
    · rfl
    · cases idom p with
      | none => exact hadd
      | some next => exact (ih next _).trans hadd

/-- The runner takes the way up to the dominator of the block, and adds it on the way. -/
theorem mem_runFrontier (hnum : Numbering g entry po) (hv : Valid g entry po idom) (hb : idom b = some t) (fuel : Nat)
    (hp : (idom p).isSome) (habove : Above idom p t) (hfuel : g.size ≤ fuel + po p) (df : Nat → List Nat) :
    x ∈ runFrontier idom b fuel p df a ↔ x ∈ df a ∨ x = b ∧ Above idom p a ∧ ¬ Above idom t a := by
  induction fuel generalizing p df with
  | zero =>
    have hlt := hnum.lt p (hv.reach p hp)
    omega
  | succ fuel ih =>
    rw [runFrontier]
    by_cases htop : p = t
    · rw [htop, if_pos hb]
      tauto
    · have hlt : po p < po t := hv.ranked.lt_of_ne habove htop
      rcases habove.cases_head with heq | ⟨q, hq, hqt⟩
      · exact absurd heq htop
      have hentry : p ≠ entry := by
        intro heq
        rw [heq] at habove htop
        exact htop (hv.ranked.above_root habove).symm
      have hup := hv.ranked.lt p q hq hentry
      -- `p` is below `t`, so it is not above it.
      have hnot : a = p → ¬ Above idom t a := by
        rintro rfl h
        have hle := hv.ranked.le h
        omega
      rw [if_neg (by rw [hb]; exact fun h => htop (Option.some.inj h).symm), hq]
      dsimp only
      rw [ih (hv.closed p q hq) hqt (by omega), mem_update_insert, Above.iff_of_up hq]
      tauto

theorem runFrontier_unreached (hnone : idom p = none) (hne : a ≠ p) (fuel : Nat) (df : Nat → List Nat) :
    runFrontier idom b fuel p df a = df a := by
  cases fuel with
  | zero => rfl
  | succ fuel =>
    rw [runFrontier]
    split
    · rfl
    · simp only [hnone, Function.update_of_ne hne]

/-! ## All runners -/

theorem mem_joinFrontier_of_ne (hne : x ≠ b) (df : Nat → List Nat) : x ∈ joinFrontier g idom df b a ↔ x ∈ df a := by
  rw [joinFrontier]
  split
  · generalize g.pred b = ps
    induction ps generalizing df with
    | nil => rfl
    | cons p ps ih => rw [List.foldl_cons, ih, mem_runFrontier_of_ne hne]
  · rfl

/-- The runners of all predecessors. -/
theorem mem_foldl_runFrontier (hnum : Numbering g entry po) (hv : Valid g entry po idom) (hb : idom b = some t)
    (ha : (idom a).isSome) {ps : List Nat} (hps : ∀ p ∈ ps, (idom p).isSome → Above idom p t) (df : Nat → List Nat) :
    x ∈ ps.foldl (fun df p => runFrontier idom b (g.size + 1) p df) df a ↔
      x ∈ df a ∨ x = b ∧ (∃ p ∈ ps, (idom p).isSome ∧ Above idom p a) ∧ ¬ Above idom t a := by
  induction ps generalizing df with
  | nil => simp
  | cons p ps ih =>
    rw [List.foldl_cons, ih fun q hq => hps q (List.mem_cons_of_mem p hq), List.exists_mem_cons_iff]
    by_cases hp : (idom p).isSome
    · rw [mem_runFrontier hnum hv hb _ hp (hps p List.mem_cons_self hp) (by omega)]
      tauto
    · rw [runFrontier_unreached (by simpa using hp) (by rintro rfl; exact hp ha)]
      tauto

/-- Only its own predecessors bring a block into a frontier, and only where there are two of them. -/
theorem mem_foldl_joinFrontier (hnum : Numbering g entry po) (hv : Valid g entry po idom) (hb : idom b = some t)
    (ha : (idom a).isSome) (hps : ∀ p ∈ g.pred b, (idom p).isSome → Above idom p t) (bs : List Nat) (df : Nat → List Nat) :
    b ∈ bs.foldl (joinFrontier g idom) df a ↔ b ∈ df a ∨ b ∈ bs ∧ 2 ≤ (g.pred b).length ∧
      (∃ p ∈ g.pred b, (idom p).isSome ∧ Above idom p a) ∧ ¬ Above idom t a := by
  induction bs generalizing df with
  | nil => simp
  | cons c bs ih =>
    rw [List.foldl_cons, ih, List.mem_cons]
    by_cases hc : b = c
    · rw [← hc, joinFrontier]
      split
      · rename_i htwo
        rw [mem_foldl_runFrontier hnum hv hb ha hps]
        simp only [htwo, true_or, true_and]
        constructor
        · rintro ((h | h) | ⟨-, h⟩)
          · exact .inl h
          · exact .inr h
          · exact .inr h
        · rintro (h | h)
          · exact .inl (.inl h)
          · exact .inl (.inr h)
      · tauto
    · rw [mem_joinFrontier_of_ne hc]
      tauto

theorem mem_foldl_joinFrontier_of_notMem {bs : List Nat} (hb : b ∉ bs) (df : Nat → List Nat)
    (h : b ∈ bs.foldl (joinFrontier g idom) df a) : b ∈ df a := by
  induction bs generalizing df with
  | nil => exact h
  | cons c bs ih =>
    rw [List.mem_cons, not_or] at hb
    exact (mem_joinFrontier_of_ne hb.1 df).mp (ih hb.2 _ h)

theorem eq_of_pred_length {c u : Nat} (hfew : (g.pred b).length < 2) (hc : g.Edge c b) (hu : g.Edge u b) : c = u := by
  have hc' := Cfg.mem_pred_iff.mpr hc
  have hu' := Cfg.mem_pred_iff.mpr hu
  match hpred : g.pred b with
  | [] => rw [hpred] at hu'; cases hu'
  | [p] =>
    rw [hpred, List.mem_singleton] at hc' hu'
    rw [hc', hu']
  | _ :: _ :: _ => rw [hpred] at hfew; simp at hfew

end Runner

section Frontiers
variable {g : Cfg} {entry : Nat} (hentry : entry < g.size)
include hentry

/-- What dominates a block that is reached is reached itself. -/
theorem reachable_of_dominates {d u : Nat} (h : Dominates g.Edge entry d u) : g.Reachable entry d := by
  have hv := (buildIdom_settled hentry).1.valid
  exact hv.reach d (hv.above ((buildIdom_settled hentry).1.total u h.1) ((above_buildIdom hentry h.1).mpr h))

/-- Where a block has one predecessor only, what dominates this dominates the block. -/
theorem two_le_of_frontier {a b : Nat} (hb : g.Reachable entry b) (hne : b ≠ entry) (h : Frontier g.Edge entry a b) :
    2 ≤ (g.pred b).length := by
  by_contra hfew
  obtain ⟨⟨u, hedge, hdom⟩, hnot⟩ := h
  obtain ⟨q, hq, -, hlt⟩ := (dfs_numbering hentry).parent b hb hne
  have hone : ∀ c, g.Edge c b → c = u := fun c hc => eq_of_pred_length (by omega) hc hedge
  have habove := (above_buildIdom hentry hdom.1).mpr hdom
  refine hnot ⟨⟨hb, fun havoid => ?_⟩, fun heq => ?_⟩
  · cases havoid with
    | refl _ => exact hne rfl
    | tail hpath hedge' _ => exact hdom.2 (hone _ hedge' ▸ hpath)
  · have hle := (buildIdom_settled hentry).1.valid.ranked.le habove
    rw [← hone q hq, heq] at hle
    omega

/-- `dominance_frontier` over the table of `build_idom`. -/
theorem mem_dominanceFrontier {a b : Nat} (ha : g.Reachable entry a) (hb : g.Reachable entry b) (hne : b ≠ entry) :
    b ∈ dominanceFrontier g (buildIdom g entry) a ↔ Frontier g.Edge entry a b := by
  have hsettled := (buildIdom_settled hentry).1
  have hv := hsettled.valid
  obtain ⟨t, ht, himm, -⟩ := (dominatorTable_buildIdom hentry).reached b hb hne
  have htreach : g.Reachable entry t := hv.reach t (hv.closed b t ht)
  have hps : ∀ p ∈ g.pred b, (buildIdom g entry p).isSome → Above (buildIdom g entry) p t := by
    intro p hp hsome
    have hreach := hv.reach p hsome
    exact (above_buildIdom hentry hreach).mpr (himm.dominates.of_edge himm.ne (Cfg.mem_pred_iff.mp hp) hreach)
  have hpred : (∃ p ∈ g.pred b, (buildIdom g entry p).isSome ∧ Above (buildIdom g entry) p a) ↔
      ∃ u, g.Edge u b ∧ Dominates g.Edge entry a u := by
    constructor
    · rintro ⟨p, hp, hsome, habove⟩
      exact ⟨p, Cfg.mem_pred_iff.mp hp, (above_buildIdom hentry (hv.reach p hsome)).mp habove⟩
    · rintro ⟨u, hedge, hdom⟩
      exact ⟨u, Cfg.mem_pred_iff.mpr hedge, hsettled.total u hdom.1, (above_buildIdom hentry hdom.1).mpr hdom⟩
  have htop : Above (buildIdom g entry) t a ↔ Dominates g.Edge entry a b ∧ a ≠ b := by
    constructor
    · intro habove
      refine ⟨(above_buildIdom hentry hb).mp (Above.head ht habove), ?_⟩
      rintro rfl
      have hle := hv.ranked.le habove
      have hlt := hv.ranked.lt a t ht hne
      omega
    · rintro ⟨hdom, hab⟩
      exact (above_buildIdom hentry htreach).mpr (himm.last a hdom hab)
  rw [dominanceFrontier, mem_foldl_joinFrontier (dfs_numbering hentry) hv ht (hsettled.total a ha) hps, hpred, htop]
  constructor
  · rintro (h | ⟨-, -, h⟩)
    · cases h
    · exact h
  · intro h
    exact .inr ⟨List.mem_range.mpr (hb.lt hentry), two_le_of_frontier hentry hb hne h, h⟩

end Frontiers

theorem lt_of_mem_dominanceFrontier {g : Cfg} {idom : Nat → Option Nat} {a b : Nat} (h : b ∈ dominanceFrontier g idom a) :
    b < g.size := by
  by_contra hge
  cases mem_foldl_joinFrontier_of_notMem (fun hin => hge (List.mem_range.mp hin)) _ h

/-- `iterated_df`: the frontiers of the seed and of what is found are found. -/
theorem iteratedDf_closed {g : Cfg} {idom : Nat → Option Nat} {seed : List Nat} (hseed : ∀ a ∈ seed, a < g.size) {a : Nat}
    (ha : a ∈ seed ∨ a ∈ iteratedDf (dominanceFrontier g idom) g.size seed) :
    ∀ b ∈ dominanceFrontier g idom a, b ∈ iteratedDf (dominanceFrontier g idom) g.size seed := by
  have hnext : ∀ a ∈ Finset.range g.size, ∀ b ∈ dominanceFrontier g idom a, b ∈ Finset.range g.size :=
    fun _ _ b hb => Finset.mem_range.mpr (lt_of_mem_dominanceFrontier hb)
  have hinv : Worklist.Invariant (dominanceFrontier g idom) (Finset.range g.size) [] ⟨[], seed.reverse⟩ :=
    ⟨List.nodup_nil, by simp, fun a ha => Finset.mem_range.mpr (hseed a (List.mem_reverse.mp ha)), by simp⟩
  have hleft : Worklist.left (Finset.range g.size) ⟨[], seed.reverse⟩ ≤ g.size + seed.length := by simp [Worklist.left]
  rcases ha with ha | ha
  · exact Worklist.close_pending hnext hinv hleft a (List.mem_reverse.mpr ha)
  · exact (Worklist.close_closed hnext hinv hleft).2 a ha

/-! ## Phi nodes -/

/-- `place_phis`: the locations with a phi node at a block. A location is listed with the blocks that define it. -/
def placePhis {κ : Type} (defBlocks : List (κ × List Nat)) (df : Nat → List Nat) (size b : Nat) : List κ :=
  (defBlocks.filter fun e => 2 ≤ e.2.length ∧ b ∈ iteratedDf df size e.2 ∧ b < size).map Prod.fst

/-- The location gets a value in the block: from outside, by a definition or by a phi node. -/
def Sets {κ : Type} (g : Cfg) (entry : Nat) (defBlocks : List (κ × List Nat)) (loc : κ) (blocks : List Nat) (b : Nat) : Prop :=
  b = entry ∨ b ∈ blocks ∨ loc ∈ placePhis defBlocks (dominanceFrontier g (buildIdom g entry)) g.size b

section Phis
variable {κ : Type} {g : Cfg} {entry : Nat} {defBlocks : List (κ × List Nat)} {loc : κ} {blocks : List Nat}

theorem mem_placePhis {df : Nat → List Nat} {size b : Nat} (hkeys : (defBlocks.map Prod.fst).Nodup)
    (hloc : (loc, blocks) ∈ defBlocks) :
    loc ∈ placePhis defBlocks df size b ↔ 2 ≤ blocks.length ∧ b ∈ iteratedDf df size blocks ∧ b < size := by
  simp only [placePhis, List.mem_map, List.mem_filter, decide_eq_true_eq]
  constructor
  · rintro ⟨⟨loc', blocks'⟩, ⟨he, h⟩, rfl⟩
    cases List.inj_on_of_nodup_map hkeys he hloc rfl
    exact h
  · exact fun h => ⟨(loc, blocks), ⟨hloc, h⟩, rfl⟩

/-- Every path to a block has last come past the same block that sets the location, just if two blocks define it or what
the one dominates ends only at itself or at the entry. -/
theorem phis_unique_iff (hentry : entry < g.size) (hkeys : (defBlocks.map Prod.fst).Nodup) (hloc : (loc, blocks) ∈ defBlocks)
    (hlt : ∀ b ∈ blocks, b < g.size) :
    (∀ v, g.Reachable entry v → ∃! d, LastOf g.Edge (Sets g entry defBlocks loc blocks) entry v d) ↔
      2 ≤ blocks.length ∨ ∀ d ∈ blocks, ∀ v, Frontier g.Edge entry d v → v = entry ∨ v ∈ blocks := by
  have hstart : ∀ v, Frontier g.Edge entry entry v → v = entry := by
    rintro v ⟨⟨u, hedge, hdom⟩, hnot⟩
    by_contra hne
    exact hnot ⟨⟨hdom.1.tail hedge, fun havoid => havoid.ne_left rfl⟩, Ne.symm hne⟩
  have hphi := fun b => @mem_placePhis κ defBlocks loc blocks (dominanceFrontier g (buildIdom g entry)) g.size b hkeys hloc
  refine (existsUnique_lastOf_iff (.inl rfl)).trans ?_
  by_cases htwo : 2 ≤ blocks.length
  · refine iff_of_true (fun d v hd hfrontier => ?_) (.inl htwo)
    by_cases hne : v = entry
    · exact .inl hne
    obtain ⟨u, hedge, hdom⟩ := hfrontier.1
    have hin : v ∈ dominanceFrontier g (buildIdom g entry) d :=
      (mem_dominanceFrontier hentry (reachable_of_dominates hentry hdom) (hdom.1.tail hedge) hne).mpr hfrontier
    refine .inr (.inr ((hphi v).mpr ⟨htwo, iteratedDf_closed hlt ?_ v hin, lt_of_mem_dominanceFrontier hin⟩))
    rcases hd with rfl | hd | hd
    · exact absurd (hstart v hfrontier) hne
    · exact .inl hd
    · exact .inr ((hphi d).mp hd).2.1
  · have hsets : ∀ b, Sets g entry defBlocks loc blocks b ↔ b = entry ∨ b ∈ blocks := by
      intro b
      rw [Sets, hphi b]
      tauto
    simp only [hsets, htwo, false_or]
    constructor
    · exact fun h d hd v => h d v (.inr hd)
    · rintro h d v (rfl | hd) hfrontier
      · exact .inl (hstart v hfrontier)
      · exact h d hd v hfrontier

/-- A block with two successors that meet again. -/
def diamond : Cfg := Cfg.ofSuccs [[1, 2], [3], [3], []] (by decide)

/-- Two definitions meet in a phi node; one definition and the value from outside do not. -/
theorem phis_diamond :
    (∀ v, diamond.Reachable 0 v → ∃! d, LastOf diamond.Edge (Sets diamond 0 [((), [1, 2])] () [1, 2]) 0 v d) ∧
    ¬ ∀ v, diamond.Reachable 0 v → ∃! d, LastOf diamond.Edge (Sets diamond 0 [((), [1])] () [1]) 0 v d := by
  refine ⟨(phis_unique_iff (by decide) (by decide) List.mem_cons_self (by decide)).mpr (.inl (by decide)), fun h => ?_⟩
  rcases (phis_unique_iff (by decide) (by decide) List.mem_cons_self (by decide)).mp h with htwo | hends
  · exact absurd htwo (by decide)
  have hedge : ∀ i j, j ∈ diamond.succ i → diamond.Edge i j := fun _ _ h => h
  have haround : Avoids diamond.Edge 1 0 3 :=
    ((Avoids.refl (by decide)).tail (hedge 0 2 (by decide)) (by decide)).tail (hedge 2 3 (by decide)) (by decide)
  have hjoin : Frontier diamond.Edge 0 1 3 :=
    ⟨⟨1, hedge 1 3 (by decide), .single (hedge 0 1 (by decide)), fun havoid => havoid.ne_right rfl⟩,
      fun hdom => hdom.1.2 haround⟩
  exact absurd (hends 1 List.mem_cons_self 3 hjoin) (by decide)

end Phis

end Windy.Ssa
