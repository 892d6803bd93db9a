import Mathlib

/- Dominators of a directed graph, and forests given by a parent map.

   `Dominates E entry d v`: every path from `entry` to `v` goes through `d`. Of the others that
   dominate `v` the last one is its immediate dominator. `PostDominates` is the same of the
   paths from `v` to an exit, which are those of the graph turned around. A `Trail` is a path
   together with all it has come past, so that it can be asked what came last. What came
   last of a set is the same on all paths, just if it has all its `Frontier`s.
   `Above up a b`: `b` is `a` or one of its ancestors under the parent map `up`. A
   dominator tree is such a map, computed by moving the parents up step by step; the
   `update` lemmas say what one such move does to the ancestors of every vertex. -/
namespace Dominance

open Relation

variable {V : Type*}

/-! ## Paths and dominators -/

/-- A path from `a` to `b` that stays away from `d`. -/
inductive Avoids (E : V → V → Prop) (d : V) : V → V → Prop
  | refl {a : V} (h : a ≠ d) : Avoids E d a a
  | tail {a b c : V} (hpath : Avoids E d a b) (hedge : E b c) (h : c ≠ d) : Avoids E d a c

/-- `v` can be reached, and only through `d`. -/
def Dominates (E : V → V → Prop) (entry d v : V) : Prop :=
  ReflTransGen E entry v ∧ ¬ Avoids E d entry v

section Paths
variable {E : V → V → Prop} {entry d a b c : V}

theorem Avoids.trans (h : Avoids E d a b) (h' : Avoids E d b c) : Avoids E d a c := by
  induction h' with
  | refl _ => exact h
  | tail _ hedge hne ih => exact .tail ih hedge hne

theorem Avoids.ne_left (h : Avoids E d a b) : a ≠ d := by
  induction h with
  | refl hne => exact hne
  | tail _ _ _ ih => exact ih

theorem Avoids.ne_right (h : Avoids E d a b) : b ≠ d := by
  cases h with
  | refl hne => exact hne
  | tail _ _ hne => exact hne

theorem Avoids.reach (h : Avoids E d a b) : ReflTransGen E a b := by
  induction h with
  | refl _ => exact .refl
  | tail _ hedge _ ih => exact ih.tail hedge

/-- What dominates a vertex dominates each predecessor it is not itself. -/
theorem Dominates.of_edge (h : Dominates E entry d c) (hne : d ≠ c) (hedge : E b c)
    (hreach : ReflTransGen E entry b) : Dominates E entry d b :=
  ⟨hreach, fun havoid => h.2 (.tail havoid hedge hne.symm)⟩

/-- What dominates the end of a path that avoids it dominates its start. -/
theorem Dominates.of_avoids (h : Dominates E entry d c) (havoid : Avoids E d b c)
    (hreach : ReflTransGen E entry b) : Dominates E entry d b :=
  ⟨hreach, fun hstart => h.2 (hstart.trans havoid)⟩

/-- A path that stays away from `a` also stays away from `d`, or reaches `d` so. -/
theorem Avoids.or_through (h : Avoids E a entry b) : Avoids E d entry b ∨ Avoids E a entry d := by
  induction h with
  | refl hne =>
    by_cases hentry : entry = d
    · exact Or.inr (hentry ▸ .refl hne)
    · exact Or.inl (.refl hentry)
  | @tail b c hpath hedge hne ih =>
    rcases ih with havoid | hthrough
    · by_cases hc : c = d
      · exact Or.inr (hc ▸ .tail hpath hedge hne)
      · exact Or.inl (.tail havoid hedge hc)
    · exact Or.inr hthrough

end Paths

/-! ## Immediate dominators -/

/-- The last of the vertices other than `v` that dominate `v`. -/
structure ImmediatelyDominates (E : V → V → Prop) (entry d v : V) : Prop where
  dominates : Dominates E entry d v
  ne : d ≠ v
  last : ∀ c, Dominates E entry c v → c ≠ v → Dominates E entry c d

section Immediate
variable {E : V → V → Prop} {entry c d v : V}

/-- The way to a vertex comes past one of two others first, or past neither. -/
theorem avoids_or (hne : c ≠ d) (h : ReflTransGen E entry v) :
    Avoids E d entry c ∨ Avoids E c entry d ∨ Avoids E c entry v ∧ Avoids E d entry v := by
  induction h with
  | refl =>
    by_cases hc : entry = c
    · exact Or.inl (hc ▸ .refl (hc ▸ hne))
    · by_cases hd : entry = d
      · exact Or.inr (Or.inl (hd ▸ .refl (hd ▸ hne.symm)))
      · exact Or.inr (Or.inr ⟨.refl hc, .refl hd⟩)
  | @tail u v _ hedge ih =>
    rcases ih with hfirst | hfirst | ⟨hcu, hdu⟩
    · exact Or.inl hfirst
    · exact Or.inr (Or.inl hfirst)
    · by_cases hc : v = c
      · exact Or.inl (hc ▸ .tail hdu hedge (hc ▸ hne))
      · by_cases hd : v = d
        · exact Or.inr (Or.inl (hd ▸ .tail hcu hedge (hd ▸ hne.symm)))
        · exact Or.inr (Or.inr ⟨.tail hcu hedge hc, .tail hdu hedge hd⟩)

theorem Dominates.antisymm (h : Dominates E entry c d) (h' : Dominates E entry d c) : c = d := by
  by_contra hne
  rcases avoids_or hne h.1 with havoid | havoid | ⟨havoid, -⟩
  · exact h'.2 havoid
  · exact h.2 havoid
  · exact h.2 havoid

theorem ImmediatelyDominates.unique (h : ImmediatelyDominates E entry c v) (h' : ImmediatelyDominates E entry d v) :
    c = d :=
  (h'.last c h.dominates h.ne).antisymm (h.last d h'.dominates h'.ne)

end Immediate

/-- The entry is its own, every other vertex that can be reached has its immediate dominator,
and no other vertex has one. -/
structure DominatorTable (E : V → V → Prop) (entry : V) (idom : V → Option V) : Prop where
  self : idom entry = some entry
  reached : ∀ v, ReflTransGen E entry v → v ≠ entry →
    ∃ d, idom v = some d ∧ ImmediatelyDominates E entry d v ∧ ∀ c, ImmediatelyDominates E entry c v → c = d
  unreached : ∀ v, ¬ ReflTransGen E entry v → idom v = none

/-! ## Postdominators -/

/-- `v` gets to the exit, and only through `d`. -/
def PostDominates (E : V → V → Prop) (exit d v : V) : Prop :=
  ReflTransGen E v exit ∧ ¬ Avoids E d v exit

/-- The next of the vertices other than `v` that postdominate `v`. -/
structure ImmediatelyPostDominates (E : V → V → Prop) (exit d v : V) : Prop where
  dominates : PostDominates E exit d v
  ne : d ≠ v
  next : ∀ c, PostDominates E exit c v → c ≠ v → PostDominates E exit c d

structure PostDominatorTable (E : V → V → Prop) (exit : V) (ipdom : V → Option V) : Prop where
  self : ipdom exit = some exit
  reaching : ∀ v, ReflTransGen E v exit → v ≠ exit →
    ∃ d, ipdom v = some d ∧ ImmediatelyPostDominates E exit d v ∧ ∀ c, ImmediatelyPostDominates E exit c v → c = d
  others : ∀ v, ¬ ReflTransGen E v exit → ipdom v = none

section Turned
variable {E E' : V → V → Prop} {exit c d v a b : V}

theorem Avoids.head (hne : a ≠ d) (hedge : E a b) (h : Avoids E d b c) : Avoids E d a c :=
  Avoids.trans (.tail (.refl hne) hedge h.ne_left) h

/-- A path of the graph turned around is a path backwards. -/
theorem Avoids.turn (hturn : ∀ a b, E a b → E' b a) (h : Avoids E d a b) : Avoids E' d b a := by
  induction h with
  | refl hne => exact .refl hne
  | tail _ hedge hne ih => exact ih.head hne (hturn _ _ hedge)

variable (hturn : ∀ a b, E' a b ↔ E b a)
include hturn

theorem reach_turn : ReflTransGen E' exit v ↔ ReflTransGen E v exit := by
  have heq : E' = Function.swap E := funext fun a => funext fun b => propext (hturn a b)
  rw [heq]
  exact reflTransGen_swap

theorem dominates_turn : Dominates E' exit d v ↔ PostDominates E exit d v :=
  and_congr (reach_turn hturn) (not_congr
    ⟨fun h => h.turn fun a b => (hturn a b).mp, fun h => h.turn fun a b => (hturn b a).mpr⟩)

theorem immediatelyDominates_turn : ImmediatelyDominates E' exit d v ↔ ImmediatelyPostDominates E exit d v := by
  constructor
  · intro h
    refine ⟨(dominates_turn hturn).mp h.dominates, h.ne, fun c hc hne => (dominates_turn hturn).mp ?_⟩
    exact h.last c ((dominates_turn hturn).mpr hc) hne
  · intro h
    refine ⟨(dominates_turn hturn).mpr h.dominates, h.ne, fun c hc hne => (dominates_turn hturn).mpr ?_⟩
    exact h.next c ((dominates_turn hturn).mp hc) hne

/-- The dominators of the graph turned around are the postdominators. -/
theorem DominatorTable.turn {idom : V → Option V} (h : DominatorTable E' exit idom) :
    PostDominatorTable E exit idom := by
  refine ⟨h.self, fun v hv hne => ?_, fun v hv => h.unreached v fun hreach => hv ((reach_turn hturn).mp hreach)⟩
  obtain ⟨d, hd, himm, honly⟩ := h.reached v ((reach_turn hturn).mpr hv) hne
  exact ⟨d, hd, (immediatelyDominates_turn hturn).mp himm, fun c hc => honly c ((immediatelyDominates_turn hturn).mpr hc)⟩

end Turned

/-! ## Trails -/

/-- The vertices of a path from `entry`, the last one first. -/
inductive Trail (E : V → V → Prop) (entry : V) : List V → Prop
  | start : Trail E entry [entry]
  | step {a b : V} {past : List V} (htrail : Trail E entry (a :: past)) (hedge : E a b) : Trail E entry (b :: a :: past)

section Trails
variable {E : V → V → Prop} {entry d r b c : V} {recent past : List V}

theorem Trail.avoids (h : Trail E entry (b :: past)) (hd : d ∉ b :: past) : Avoids E d entry b := by
  generalize htrail : b :: past = trail at h hd
  induction h generalizing b past with
  | start =>
    obtain ⟨rfl, -⟩ := List.cons.inj htrail
    exact .refl fun heq => hd (by simp [heq])
  | @step a b' past' hprev hedge ih =>
    obtain ⟨rfl, -⟩ := List.cons.inj htrail
    exact .tail (ih rfl fun hmem => hd (List.mem_cons_of_mem _ hmem)) hedge fun heq => hd (by simp [heq])

/-- What came before the last vertices is a trail. -/
theorem Trail.drop (h : Trail E entry (recent ++ b :: past)) : Trail E entry (b :: past) := by
  induction recent with
  | nil => exact h
  | cons c recent ih =>
    apply ih
    generalize htrail : c :: recent ++ b :: past = trail at h
    cases h with
    | start => simp at htrail
    | step hprev _ =>
      rw [← (List.cons.inj htrail).2] at hprev
      exact hprev

/-- From each of the last vertices the trail goes on among them. -/
theorem Trail.avoids_since (h : Trail E entry (b :: recent ++ past)) (hd : d ∉ b :: recent) (hc : c ∈ b :: recent) :
    Avoids E d c b := by
  induction recent generalizing b with
  | nil =>
    obtain rfl : c = b := by simpa using hc
    exact .refl fun heq => hd (by simp [heq])
  | cons a recent ih =>
    have hb : b ≠ d := fun heq => hd (by simp [heq])
    rcases List.mem_cons.mp hc with rfl | hc
    · exact .refl hb
    · cases h with
      | step hprev hedge => exact .tail (ih hprev (fun hmem => hd (List.mem_cons_of_mem _ hmem)) hc) hedge hb

/-- There is a trail that ends when it first comes to a vertex. -/
theorem Trail.first (h : Trail E entry (b :: past)) : ∃ past', Trail E entry (b :: past') ∧ b ∉ past' := by
  induction hlen : past.length using Nat.strongRecOn generalizing past with
  | _ n ih =>
    by_cases hb : b ∈ past
    · obtain ⟨front, back, rfl⟩ := List.append_of_mem hb
      have hback : back.length < n := by
        simp at hlen
        omega
      have htrail : Trail E entry ((b :: front) ++ b :: back) := h
      exact ih _ hback htrail.drop rfl
    · exact ⟨past, h, hb⟩

/-- Where `d` cannot be avoided, a vertex without which `d` is not reached does not come again
after the last `d`. -/
theorem Trail.not_mem_since (h : Trail E entry (b :: recent ++ d :: past)) (hd : d ∉ b :: recent)
    (hb : ¬ Avoids E d entry b) (hr : ¬ Avoids E r entry d) (hne : r ≠ d) : r ∉ b :: recent := by
  intro hmem
  have hsince : Avoids E d r b := h.avoids_since hd hmem
  -- the first way to `r` does not come past `d`, which is only reached behind it
  obtain ⟨front, back, hsplit⟩ := List.append_of_mem hmem
  rw [hsplit, List.append_assoc] at h
  obtain ⟨past', hfirst, hnot⟩ := (Trail.drop h).first
  have hbefore : d ∉ r :: past' := by
    intro hin
    rcases List.mem_cons.mp hin with heq | hin
    · exact hne heq.symm
    · obtain ⟨front', back', rfl⟩ := List.append_of_mem hin
      have htrail : Trail E entry ((r :: front') ++ d :: back') := hfirst
      refine hr (htrail.drop.avoids fun hin => hnot ?_)
      rcases List.mem_cons.mp hin with heq | hin
      · exact absurd heq hne
      · simp [hin]
  exact hb ((hfirst.avoids hbefore).trans hsince)

end Trails

/-! ## Frontiers -/

section Frontiers
variable {E : V → V → Prop} {S : V → Prop} {entry a b d v x y : V}

/-- Where what `d` dominates ends: it dominates a predecessor, but of the vertices behind it not this one. -/
def Frontier (E : V → V → Prop) (entry d v : V) : Prop :=
  (∃ u, E u v ∧ Dominates E entry d u) ∧ ¬ (Dominates E entry d v ∧ d ≠ v)

/-- A path from `a` that does not come into the set again. -/
inductive Leaves (E : V → V → Prop) (S : V → Prop) (a : V) : V → Prop
  | refl : Leaves E S a a
  | tail {b c : V} (hpath : Leaves E S a b) (hedge : E b c) (h : ¬ S c) : Leaves E S a c

theorem Leaves.avoids (h : Leaves E S a b) (hd : S d) (hne : a ≠ d) : Avoids E d a b := by
  induction h with
  | refl => exact .refl hne
  | tail _ hedge hc ih => exact .tail ih hedge fun heq => hc (heq ▸ hd)

/-- In a set with all its frontiers, a vertex dominates what comes before the next one. -/
theorem Leaves.dominates (hclosed : ∀ d v, S d → Frontier E entry d v → S v) (hd : S d) (hreach : ReflTransGen E entry d)
    (h : Leaves E S d v) : Dominates E entry d v := by
  induction h with
  | refl => exact ⟨hreach, fun havoid => havoid.ne_right rfl⟩
  | tail _ hedge hc ih =>
    by_contra hnot
    exact hc (hclosed d _ hd ⟨⟨_, hedge, ih⟩, fun h => hnot h.1⟩)

/-- What a path to `v` comes past last of the set. -/
def LastOf (E : V → V → Prop) (S : V → Prop) (entry v d : V) : Prop :=
  S d ∧ ReflTransGen E entry d ∧ Leaves E S d v

theorem exists_lastOf (hentry : S entry) (h : ReflTransGen E entry v) : ∃ d, LastOf E S entry v d := by
  induction h with
  | refl => exact ⟨entry, hentry, .refl, .refl⟩
  | @tail b c hpath hedge ih =>
    by_cases hc : S c
    · exact ⟨c, hc, hpath.tail hedge, .refl⟩
    · obtain ⟨d, hd, hreach, hleaves⟩ := ih
      exact ⟨d, hd, hreach, hleaves.tail hedge hc⟩

theorem Avoids.exists_lastOf (hentry : S entry) (h : Avoids E d entry v) : ∃ x, x ≠ d ∧ LastOf E S entry v x := by
  induction h with
  | refl hne => exact ⟨entry, hne, hentry, .refl, .refl⟩
  | @tail b c hpath hedge hne ih =>
    by_cases hc : S c
    · exact ⟨c, hne, hc, hpath.reach.tail hedge, .refl⟩
    · obtain ⟨x, hx, hS, hreach, hleaves⟩ := ih
      exact ⟨x, hx, hS, hreach, hleaves.tail hedge hc⟩

/-- What paths to a vertex come past last of a set is the same on all of them, just if the set has all its frontiers. -/
theorem existsUnique_lastOf_iff (hentry : S entry) :
    (∀ v, ReflTransGen E entry v → ∃! d, LastOf E S entry v d) ↔ ∀ d v, S d → Frontier E entry d v → S v := by
  constructor
  · intro hunique d v hd hfrontier
    by_contra hv
    obtain ⟨⟨u, hedge, hdom⟩, hnot⟩ := hfrontier
    obtain ⟨c, hc⟩ := exists_lastOf hentry hdom.1
    have hreach : ReflTransGen E entry v := hdom.1.tail hedge
    -- If `c` dominated `v`, so would `d`, which is on every path to `c`.
    have havoid : Avoids E c entry v := by
      by_contra hcv
      refine hnot ⟨⟨hreach, fun hdv => ?_⟩, fun heq => hv (heq ▸ hd)⟩
      rcases hdv.or_through with h | h
      · exact hcv h
      · exact hdom.2 (h.trans (hc.2.2.avoids hd h.ne_right))
    obtain ⟨x, hne, hx⟩ := havoid.exists_lastOf hentry
    exact hne ((hunique v hreach).unique hx ⟨hc.1, hc.2.1, hc.2.2.tail hedge hv⟩)
  · intro hclosed v hv
    have hback : ∀ {x y}, LastOf E S entry v x → LastOf E S entry v y → Dominates E entry y x := by
      rintro x y ⟨-, hx, h⟩ ⟨hy, hy', h'⟩
      refine ⟨hx, fun havoid => (h'.dominates hclosed hy hy').2 (havoid.trans ?_)⟩
      exact h.avoids hy havoid.ne_right
    obtain ⟨d, hd⟩ := exists_lastOf hentry hv
    exact ⟨d, hd, fun x hx => (hback hd hx).antisymm (hback hx hd)⟩

end Frontiers

/-! ## Renaming -/

section Renaming
variable {W : Type*} {E : V → V → Prop} {E' : W → W → Prop} {entry d a b v : V}

theorem Avoids.map {f : V → W} (hf : Function.Injective f) (hE : ∀ a b, E a b → E' (f a) (f b)) (h : Avoids E d a b) :
    Avoids E' (f d) (f a) (f b) := by
  induction h with
  | refl hne => exact .refl fun heq => hne (hf heq)
  | tail _ hedge hne ih => exact .tail ih (hE _ _ hedge) fun heq => hne (hf heq)

variable (e : V ≃ W) (hE : ∀ a b, E a b ↔ E' (e a) (e b))
include hE

theorem reach_rename : ReflTransGen E a b ↔ ReflTransGen E' (e a) (e b) := by
  constructor
  · exact fun h => h.lift e fun a b hab => (hE a b).mp hab
  · intro h
    have hback : ReflTransGen E (e.symm (e a)) (e.symm (e b)) := h.lift e.symm fun x y hxy =>
      (hE _ _).mpr (by rw [e.apply_symm_apply, e.apply_symm_apply]; exact hxy)
    rwa [e.symm_apply_apply, e.symm_apply_apply] at hback

theorem avoids_rename : Avoids E d a b ↔ Avoids E' (e d) (e a) (e b) := by
  constructor
  · exact fun h => h.map e.injective fun a b hab => (hE a b).mp hab
  · intro h
    have hback : Avoids E (e.symm (e d)) (e.symm (e a)) (e.symm (e b)) := h.map e.symm.injective fun x y hxy =>
      (hE _ _).mpr (by rw [e.apply_symm_apply, e.apply_symm_apply]; exact hxy)
    rwa [e.symm_apply_apply, e.symm_apply_apply, e.symm_apply_apply] at hback

/-- Dominance does not depend on the names of the vertices. -/
theorem dominates_rename : Dominates E entry d v ↔ Dominates E' (e entry) (e d) (e v) :=
  and_congr (reach_rename e hE) (not_congr (avoids_rename e hE))

end Renaming

/-! ## Ancestors under a parent map -/

/-- `b` is `a` or an ancestor of `a`. -/
def Above (up : V → Option V) : V → V → Prop :=
  ReflTransGen fun x y => up x = some y

/-- Parents have a higher rank; the root is its own parent. -/
structure Ranked (up : V → Option V) (root : V) (rank : V → Nat) : Prop where
  self : up root = some root
  lt : ∀ a b, up a = some b → a ≠ root → rank a < rank b

section Above
variable {up : V → Option V} {root : V} {rank : V → Nat} {a b c m x z : V}

theorem Above.head (h : up a = some b) (h' : Above up b c) : Above up a c :=
  ReflTransGen.head h h'

theorem Above.trans (h : Above up a b) (h' : Above up b c) : Above up a c :=
  ReflTransGen.trans h h'

theorem Above.cases_head (h : Above up a b) : a = b ∨ ∃ p, up a = some p ∧ Above up p b :=
  ReflTransGen.cases_head h

theorem Above.iff_of_up (h : up a = some b) : Above up a c ↔ c = a ∨ Above up b c := by
  constructor
  · intro habove
    rcases habove.cases_head with heq | ⟨p, hp, hpc⟩
    · exact .inl heq.symm
    · rw [h] at hp
      exact .inr (Option.some.inj hp ▸ hpc)
  · rintro (rfl | habove)
    · exact ReflTransGen.refl
    · exact Above.head h habove

/-- The ancestors of a vertex are in one line. -/
theorem Above.total (hb : Above up a b) (hc : Above up a c) : Above up b c ∨ Above up c b :=
  ReflTransGen.total_of_right_unique (fun _ _ _ h h' => Option.some.inj (h.symm.trans h')) hb hc

theorem Above.of_none (h : Above up a b) (hnone : up a = none) : a = b := by
  rcases h.cases_head with heq | ⟨p, hp, -⟩
  · exact heq
  · rw [hnone] at hp
    cases hp

theorem Ranked.above_root (h : Ranked up root rank) (hroot : Above up root b) : b = root := by
  unfold Above at hroot
  induction hroot with
  | refl => rfl
  | tail _ hstep ih =>
    rw [ih, h.self] at hstep
    exact (Option.some.inj hstep).symm

theorem Ranked.le (h : Ranked up root rank) (hab : Above up a b) : rank a ≤ rank b := by
  unfold Above at hab
  induction hab with
  | refl => exact Nat.le_refl _
  | @tail b c _ hstep ih =>
    by_cases hb : b = root
    · rw [hb, h.self] at hstep
      rw [← Option.some.inj hstep, ← hb]
      exact ih
    · exact Nat.le_trans ih (Nat.le_of_lt (h.lt b c hstep hb))

/-- A proper ancestor has a higher rank. -/
theorem Ranked.lt_of_ne (h : Ranked up root rank) (hab : Above up a b) (hne : a ≠ b) : rank a < rank b := by
  rcases hab.cases_head with heq | ⟨p, hp, hpb⟩
  · exact absurd heq hne
  · have ha : a ≠ root := by
      intro ha
      rw [ha] at hab hne
      exact hne (h.above_root hab).symm
    exact Nat.lt_of_lt_of_le (h.lt a p hp ha) (h.le hpb)

/-- Where the ancestors are the dominators, the parents are the immediate ones. -/
theorem Ranked.dominatorTable {E : V → V → Prop} (h : Ranked up root rank)
    (hreach : ∀ v, (up v).isSome ↔ ReflTransGen E root v) (hclosed : ∀ v d, up v = some d → ReflTransGen E root d)
    (habove : ∀ v d, ReflTransGen E root v → (Above up v d ↔ Dominates E root d v)) : DominatorTable E root up := by
  refine ⟨h.self, fun v hv hne => ?_, fun v hv => ?_⟩
  · obtain ⟨d, hd⟩ := Option.isSome_iff_exists.mp ((hreach v).mpr hv)
    have hlt := h.lt v d hd hne
    have hdom : Dominates E root d v := (habove v d hv).mp (Above.head hd ReflTransGen.refl)
    have himm : ImmediatelyDominates E root d v := by
      refine ⟨hdom, fun heq => ?_, fun c hc hcv => ?_⟩
      · rw [heq] at hlt
        omega
      · rcases ((habove v c hv).mpr hc).cases_head with heq | ⟨p, hp, hpc⟩
        · exact absurd heq.symm hcv
        · obtain rfl := Option.some.inj (hd.symm.trans hp)
          exact (habove d c (hclosed v d hd)).mp hpc
    exact ⟨d, hd, himm, fun c hc => hc.unique himm⟩
  · rw [← hreach v] at hv
    simpa using hv

/-! ## Moving a parent up -/

variable [DecidableEq V]

/-- A vertex that is not below `c` keeps its ancestors. -/
theorem above_update_iff (hc : ¬ Above up a c) :
    Above (Function.update up c (some m)) a b ↔ Above up a b := by
  constructor
  · intro h
    unfold Above at h
    induction h with
    | refl => exact ReflTransGen.refl
    | @tail x y _ hstep ih =>
      have hne : x ≠ c := fun heq => hc (heq ▸ ih)
      rw [Function.update_of_ne hne] at hstep
      exact ReflTransGen.tail ih hstep
  · intro h
    unfold Above at h
    induction h with
    | refl => exact ReflTransGen.refl
    | @tail x y hax hstep ih =>
      have hne : x ≠ c := fun heq => hc (heq ▸ hax)
      refine ReflTransGen.tail ih ?_
      rw [Function.update_of_ne hne]
      exact hstep

/-- Moving the parent of `c` to one of its ancestors adds no ancestor to any vertex. -/
theorem above_of_update (hm : Above up c m) (h : Above (Function.update up c (some m)) a b) : Above up a b := by
  unfold Above at h
  induction h with
  | refl => exact ReflTransGen.refl
  | @tail x y _ hstep ih =>
    by_cases hx : x = c
    · subst hx
      rw [Function.update_self] at hstep
      rw [← Option.some.inj hstep]
      exact ih.trans hm
    · rw [Function.update_of_ne hx] at hstep
      exact ReflTransGen.tail ih hstep

/-- What a move takes away: ancestors of the old parent that the new one does not
have, from the vertices below `c`. -/
theorem above_update_or (hx : up c = some x) (hmc : ¬ Above up m c) (h : Above up a b) :
    Above (Function.update up c (some m)) a b ∨ (Above up a c ∧ Above up x b ∧ ¬ Above up m b) := by
  unfold Above at h
  induction h using ReflTransGen.head_induction_on with
  | refl => exact Or.inl ReflTransGen.refl
  | @head a' y hstep hyb ih =>
    by_cases ha : a' = c
    · subst ha
      obtain rfl : x = y := Option.some.inj (hx.symm.trans hstep)
      by_cases hmb : Above up m b
      · exact Or.inl (Above.head (Function.update_self _ _ _) ((above_update_iff hmc).mpr hmb))
      · exact Or.inr ⟨ReflTransGen.refl, hyb, hmb⟩
    · rcases ih with hnew | ⟨hyc, hxb, hmb⟩
      · refine Or.inl (Above.head ?_ hnew)
        rw [Function.update_of_ne ha]
        exact hstep
      · exact Or.inr ⟨Above.head hstep hyc, hxb, hmb⟩

end Above

end Dominance
