import Windy.Decompiler.Ssa.Idom

/- `build_idom` ends.

   Here every loop of `reverse_postorder` and `build_idom` gets the same number of rounds, and
   a loop that is not through by then gives nothing. `buildIdomIn_eq` says that from some
   number on all of them get through, and with the table `buildIdom`. A loop of the source
   that runs for ever would give nothing whatever the number.

   The walk up the tree is what can go wrong: it ends because the table is `Valid` whenever a
   block is processed, so the sweeps are followed block by block (`first_fold`, `mid_fold`). -/
namespace Windy.Ssa

/-! ## A number of rounds for every loop -/

/-- `intersect`. -/
def intersectIn (postorder : Nat → Nat) (idom : Nat → Option Nat) : Nat → Nat → Nat → Option Nat
  | 0, _, _ => none
  | rounds + 1, a, b =>
    if a = b then some a
    else if postorder a < postorder b then intersectIn postorder idom rounds ((idom a).getD a) b
    else if postorder b < postorder a then intersectIn postorder idom rounds a ((idom b).getD b)
    else intersectIn postorder idom rounds a b

/-- One predecessor: where it meets the ones before it. -/
def meetIn (postorder : Nat → Nat) (idom : Nat → Option Nat) (rounds : Nat) (acc : Option Nat) (p : Nat) :
    Option (Option Nat) :=
  if (idom p).isSome then
    match acc with
    | none => some (some p)
    | some cur => (intersectIn postorder idom rounds p cur).map some
  else some acc

def newIdomIn (postorder : Nat → Nat) (idom : Nat → Option Nat) (rounds : Nat) (preds : List Nat) :
    Option (Option Nat) :=
  preds.foldlM (meetIn postorder idom rounds) none

/-- One block of a sweep. -/
def processNodeIn (g : Cfg) (entry : Nat) (postorder : Nat → Nat) (rounds : Nat) (state : (Nat → Option Nat) × Bool)
    (node : Nat) : Option ((Nat → Option Nat) × Bool) :=
  if node = entry then some state
  else
    (newIdomIn postorder state.1 rounds (g.pred node)).map fun
      | none => state
      | some ni => if state.1 node ≠ some ni then (Function.update state.1 node (some ni), true) else state

def sweepIn (g : Cfg) (entry : Nat) (postorder : Nat → Nat) (rpo : List Nat) (rounds : Nat) (idom : Nat → Option Nat) :
    Option ((Nat → Option Nat) × Bool) :=
  rpo.foldlM (processNodeIn g entry postorder rounds) (idom, false)

/-- `while changed`. -/
def sweepsIn (g : Cfg) (entry : Nat) (postorder : Nat → Nat) (rpo : List Nat) (rounds : Nat) :
    Nat → (Nat → Option Nat) → Option (Nat → Option Nat)
  | 0, _ => none
  | left + 1, idom =>
    match sweepIn g entry postorder rpo rounds idom with
    | none => none
    | some result => if result.2 then sweepsIn g entry postorder rpo rounds left result.1 else some result.1

/-- `reverse_postorder`. -/
def dfsIn (g : Cfg) (entry rounds : Nat) : Option Dfs :=
  let s := (Dfs.step g)^[rounds] (Dfs.start entry)
  if s.stack = [] then some s else none

def buildIdomIn (g : Cfg) (entry rounds : Nat) : Option (Nat → Option Nat) :=
  match dfsIn g entry rounds with
  | none => none
  | some s =>
    sweepsIn g entry s.postorder s.order.reverse rounds rounds (Function.update (fun _ => none) entry (some entry))

/-! ## The walk up the tree -/

section Table
variable {g : Cfg} {entry : Nat} {po : Nat → Nat} {idom : Nat → Option Nat}

theorem intersectIn_eq (hnum : Numbering g entry po) (h : Valid g entry po idom) (fuel : Nat) {a b rounds : Nat}
    (ha : (idom a).isSome) (hb : (idom b).isSome) (hfuel : (g.size - po a) + (g.size - po b) ≤ fuel)
    (hrounds : fuel < rounds) : intersectIn po idom rounds a b = some (intersect po idom fuel a b) := by
  induction fuel generalizing a b rounds with
  | zero =>
    have := hnum.lt a (h.reach a ha)
    omega
  | succ fuel ih =>
    obtain ⟨left, rfl⟩ : ∃ left, rounds = left + 1 := ⟨rounds - 1, by omega⟩
    rw [intersectIn, intersect]
    by_cases heq : a = b
    · rw [if_pos heq, if_pos heq]
    · rw [if_neg heq, if_neg heq]
      have hne : po a ≠ po b := fun hpo => heq (hnum.inj a b (h.reach a ha) (h.reach b hb) hpo)
      by_cases hlt : po a < po b
      · obtain ⟨p, hp, hpo, hsome⟩ := h.lower hnum ha hb hlt
        have hpsize := hnum.lt p (h.reach p hsome)
        rw [if_pos hlt, if_pos hlt, hp, Option.getD_some]
        exact ih hsome hb (by omega) (by omega)
      · have hgt : po b < po a := by omega
        obtain ⟨p, hp, hpo, hsome⟩ := h.lower hnum hb ha hgt
        have hpsize := hnum.lt p (h.reach p hsome)
        rw [if_neg hlt, if_neg hlt, if_pos hgt, if_pos hgt, hp, Option.getD_some]
        exact ih ha hsome (by omega) (by omega)

/-- The meeting point found so far has a parent, so the walk from it ends. -/
theorem newIdomIn_eq (hnum : Numbering g entry po) (h : Valid g entry po idom) {rounds : Nat}
    (hrounds : 2 * g.size < rounds) (ps : List Nat) :
    newIdomIn po idom rounds ps = some (newIdom po idom (2 * g.size) ps) := by
  induction ps using List.reverseRecOn with
  | nil => rfl
  | append_singleton ps p ih =>
    have hspec := newIdom_spec hnum h ps
    unfold newIdomIn at ih ⊢
    unfold newIdom at ih hspec ⊢
    rw [List.foldlM_append, ih, List.foldl_append, List.foldl_cons, List.foldl_nil]
    simp only [List.foldlM_cons, List.foldlM_nil, Option.bind_eq_bind, Option.bind_some, Option.pure_def,
      Option.bind_fun_some]
    generalize List.foldl _ none ps = acc at hspec ⊢
    unfold meetIn
    by_cases hp : (idom p).isSome
    · rw [if_pos hp, if_pos hp]
      cases acc with
      | none => rfl
      | some cur =>
        obtain ⟨⟨hall, -⟩, q, hq, hsome⟩ := hspec
        have hcur : (idom cur).isSome := h.above hsome (hall q hq hsome)
        simp only [intersectIn_eq hnum h (2 * g.size) hp hcur (by omega) hrounds, Option.map_some]
    · rw [if_neg hp, if_neg hp]

theorem processNodeIn_eq (hnum : Numbering g entry po) {rounds : Nat} (hrounds : 2 * g.size < rounds)
    {state : (Nat → Option Nat) × Bool} (h : Valid g entry po state.1) (node : Nat) :
    processNodeIn g entry po rounds state node = some (processNode g entry po state node) := by
  unfold processNodeIn processNode
  by_cases hnode : node = entry
  · rw [if_pos hnode, if_pos hnode]
  · rw [if_neg hnode, if_neg hnode, newIdomIn_eq hnum h hrounds]
    cases newIdom po state.1 (2 * g.size) (g.pred node) with
    | none => rfl
    | some ni => rfl

end Table

/-! ## The sweeps -/

/-- A fold of steps that each have a result has the result of the fold. -/
theorem foldlM_eq_some {α β : Type} {step : β → α → Option β} {f : β → α → β} {xs : List α} {b : β}
    (h : ∀ done x rest, xs = done ++ x :: rest → step (done.foldl f b) x = some (f (done.foldl f b) x)) :
    xs.foldlM step b = some (xs.foldl f b) := by
  induction xs generalizing b with
  | nil => rfl
  | cons x xs ih =>
    have hfirst : step b x = some (f b x) := h [] x xs rfl
    rw [List.foldlM_cons, hfirst, List.foldl_cons]
    exact ih fun done y rest heq => h (x :: done) y rest (by rw [heq]; rfl)

section Sweeps
variable {g : Cfg} {entry : Nat} {po : Nat → Nat} {idom : Nat → Option Nat} {rpo : List Nat} {rounds : Nat}

theorem sweepIn_eq (hnum : Numbering g entry po) (hrounds : 2 * g.size < rounds)
    (h : ∀ done rest, rpo = done ++ rest → Valid g entry po (done.foldl (processNode g entry po) (idom, false)).1) :
    sweepIn g entry po rpo rounds idom = some (sweep g entry po rpo idom) :=
  foldlM_eq_some fun done x rest heq => processNodeIn_eq hnum hrounds (h done (x :: rest) heq) x

theorem sweepsIn_eq (hentry : entry < g.size) (hnum : Numbering g entry po) (hrpo : Rpo g entry po rpo)
    (hrounds : 2 * g.size < rounds) {fuel left : Nat} (h : Settled g entry po idom)
    (hfuel : g.size * g.size < fuel + height g po idom) (hleft : fuel ≤ left) :
    sweepsIn g entry po rpo rounds left idom = some (sweeps g entry po rpo fuel idom) := by
  induction fuel generalizing idom left with
  | zero =>
    have := height_le hnum h.valid
    omega
  | succ fuel ih =>
    obtain ⟨less, rfl⟩ : ∃ less, left = less + 1 := ⟨left - 1, by omega⟩
    have hmid : Mid g entry po idom rpo (sweep g entry po rpo idom).1 := mid_fold hnum hrpo h (List.append_nil _).symm
    have hsweep : sweepIn g entry po rpo rounds idom = some (sweep g entry po rpo idom) :=
      sweepIn_eq hnum hrounds fun _ _ hsplit => (mid_fold hnum hrpo h hsplit).valid
    rw [sweepsIn, sweeps, hsweep]
    cases hflag : (sweep g entry po rpo idom).2 with
    | false => simp only [hflag, Bool.false_eq_true, if_false]
    | true =>
      simp only [hflag, if_true]
      obtain ⟨c, hc, hchanged⟩ := (fold_flag idom hrpo.nodup).2.1 hflag
      have hreach := (hrpo.mem c).mp hc
      have hlt := height_lt hmid h (hreach.lt hentry) hreach hchanged
      exact ih (hmid.settled hrpo) (by omega) (by omega)

end Sweeps

/-! ## All loops -/

/-- Once the search is over, further rounds leave it as it is. -/
theorem dfsIn_eq {g : Cfg} {entry rounds : Nat} (hentry : entry < g.size) (hrounds : g.rounds ≤ rounds) :
    dfsIn g entry rounds = some (dfs g entry) := by
  have hstack := dfs_stack g hentry
  have hstay : ∀ n, (Dfs.step g)^[n] (dfs g entry) = dfs g entry := by
    intro n
    refine Function.iterate_fixed ?_ n
    rw [Dfs.step, hstack]
  have hrun : (Dfs.step g)^[rounds] (Dfs.start entry) = dfs g entry := by
    calc (Dfs.step g)^[rounds] (Dfs.start entry)
        = (Dfs.step g)^[rounds - g.rounds] (dfs g entry) := by
          rw [dfs, ← Function.iterate_add_apply, Nat.sub_add_cancel hrounds]
      _ = dfs g entry := hstay _
  simp only [dfsIn, hrun, hstack, if_true]

/-- Rounds enough for every loop. -/
def enoughRounds (g : Cfg) : Nat := g.rounds + 2 * g.size + g.size * g.size + 2

/-- Every loop of `build_idom` ends, and the table is `buildIdom`. -/
theorem buildIdomIn_eq {g : Cfg} {entry rounds : Nat} (hentry : entry < g.size) (hrounds : enoughRounds g ≤ rounds) :
    buildIdomIn g entry rounds = some (buildIdom g entry) := by
  unfold enoughRounds at hrounds
  have hnum := dfs_numbering hentry
  have hrpo := dfs_rpo hentry
  have hwalk : 2 * g.size < rounds := by omega
  obtain ⟨left, hleft⟩ : ∃ left, rounds = left + 1 := ⟨rounds - 1, by omega⟩
  have hfirst := (first_fold hnum hrpo (List.append_nil _).symm).settled hrpo
  have hsweep : sweepIn g entry _ (dfs g entry).order.reverse rounds _ = some _ :=
    sweepIn_eq hnum hwalk fun _ _ hsplit => (first_fold hnum hrpo hsplit).valid
  rw [buildIdomIn, dfsIn_eq hentry (by omega)]
  simp only
  rw [buildIdom, sweeps]
  nth_rewrite 2 [hleft]
  rw [sweepsIn, hsweep]
  cases hflag : (sweep g entry (dfs g entry).postorder (dfs g entry).order.reverse
      (Function.update (fun _ => none) entry (some entry))).2 with
  | false => simp only [hflag, Bool.false_eq_true, if_false]
  | true =>
    simp only [hflag, if_true]
    exact sweepsIn_eq hentry hnum hrpo hwalk hfirst (by omega) (by omega)

end Windy.Ssa
