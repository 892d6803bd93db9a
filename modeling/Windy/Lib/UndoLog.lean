import Mathlib

/- Doing a list of events and undoing them in reverse order, over any state.

   An event `e` moves the state forward by `fwd e`; undoing it is `back e s`, which may use the
   state `s` the event was applied to (what was captured there). `undone s es` applies `es` from `s`
   and then undoes them, the last one first. The rules say what such a round trip does to an
   observation of the state: what it settles at (`undone_settles`, `undone_restores`), what is left
   behind by an undo (`undone_established`), and what survives every step once it holds
   (`undone_carried`). -/
namespace UndoLog

variable {σ ε γ : Type*} (fwd : ε → σ → σ) (back : ε → σ → σ → σ)

/-- Apply the events, then undo them in reverse order. -/
def undone : σ → List ε → σ
  | s, [] => s
  | s, e :: es => back e s (undone (fwd e s) es)

/-- `Inv` holds of every state a round trip passes through. -/
structure Keeps (Inv : σ → Prop) (es : List ε) : Prop where
  fwd : ∀ e ∈ es, ∀ s, Inv s → Inv (fwd e s)
  back : ∀ e ∈ es, ∀ s t, Inv s → Inv t → Inv (back e s t)

variable {fwd back} {Inv : σ → Prop} {es : List ε}

theorem Keeps.tail {e : ε} (h : Keeps fwd back Inv (e :: es)) :
    Keeps fwd back Inv es :=
  ⟨fun x hx => h.fwd x (List.mem_cons_of_mem e hx), fun x hx => h.back x (List.mem_cons_of_mem e hx)⟩

theorem Keeps.trivial (es : List ε) : Keeps fwd back (fun _ => True) es :=
  ⟨fun _ _ _ _ => True.intro, fun _ _ _ _ _ _ => True.intro⟩

theorem undone_inv (h : Keeps fwd back Inv es) {s : σ} (hs : Inv s) :
    Inv (undone fwd back s es) := by
  induction es generalizing s with
  | nil => exact hs
  | cons e es ih =>
    have he : e ∈ e :: es := List.mem_cons_self
    exact h.back e he _ _ hs (ih h.tail (h.fwd e he s hs))

/-- An observation that starts at `x` ends at `y` when every event either leaves
it alone in both directions or, applied where it is `x`, is undone to `y`, and
some event does the latter (or the two values agree). -/
theorem undone_settles (hinv : Keeps fwd back Inv es)
    (obs : σ → γ) (touch : ε → Prop) {x y : γ}
    (hfwd : ∀ e ∈ es, ∀ s, Inv s → ¬ touch e → obs (fwd e s) = obs s)
    (hback : ∀ e ∈ es, ∀ s t, Inv s → Inv t → ¬ touch e → obs (back e s t) = obs t)
    (hset : ∀ e ∈ es, ∀ s t, Inv s → Inv t → touch e → obs s = x → obs (back e s t) = y)
    (hxy : x = y ∨ ∃ e ∈ es, touch e) {s : σ} (hs : Inv s) (hx : obs s = x) :
    obs (undone fwd back s es) = y := by
  induction es generalizing s with
  | nil =>
    rcases hxy with h | ⟨e, he, -⟩
    · exact hx.trans h
    · simp at he
  | cons e es ih =>
    have he : e ∈ e :: es := List.mem_cons_self
    have hnext := hinv.fwd e he s hs
    have hdone := undone_inv hinv.tail hnext
    by_cases ht : touch e
    · exact hset e he _ _ hs hdone ht hx
    · show obs (back e s _) = y
      rw [hback e he _ _ hs hdone ht]
      refine ih hinv.tail ?_ ?_ ?_ ?_ hnext ((hfwd e he s hs ht).trans hx)
      · exact fun e' h' => hfwd e' (List.mem_cons_of_mem e h')
      · exact fun e' h' => hback e' (List.mem_cons_of_mem e h')
      · exact fun e' h' => hset e' (List.mem_cons_of_mem e h')
      · rcases hxy with h | ⟨e', he', ht'⟩
        · exact Or.inl h
        · rcases List.mem_cons.mp he' with rfl | hmem
          · exact absurd ht' ht
          · exact Or.inr ⟨e', hmem, ht'⟩

/-- An observation has its value again after the round trip when every event
either leaves it alone in both directions or restores it. -/
theorem undone_restores (hinv : Keeps fwd back Inv es)
    (obs : σ → γ) (touch : ε → Prop) (x : γ)
    (hfwd : ∀ e ∈ es, ∀ s, Inv s → ¬ touch e → obs (fwd e s) = obs s)
    (hback : ∀ e ∈ es, ∀ s t, Inv s → Inv t → ¬ touch e → obs (back e s t) = obs t)
    (hrestore : ∀ e ∈ es, ∀ s t, Inv s → Inv t → touch e → obs s = x → obs (back e s t) = x)
    {s : σ} (hs : Inv s) (hx : obs s = x) : obs (undone fwd back s es) = x :=
  undone_settles hinv obs touch hfwd hback hrestore (Or.inl rfl) hs hx

/-- What the undo of one event establishes, and the undo of every event before
it keeps, holds after the round trip. -/
theorem undone_established {pre post : List ε} {e : ε}
    (hinv : Keeps fwd back Inv (pre ++ e :: post)) (D : σ → Prop)
    (hset : ∀ s t, Inv s → Inv t → D (back e s t))
    (hkeep : ∀ e' ∈ pre, ∀ s t, Inv s → Inv t → D t → D (back e' s t))
    {s : σ} (hs : Inv s) : D (undone fwd back s (pre ++ e :: post)) := by
  induction pre generalizing s with
  | nil => exact hset _ _ hs (undone_inv hinv.tail (hinv.fwd e List.mem_cons_self s hs))
  | cons e' pre ih =>
    have he : e' ∈ (e' :: pre) ++ e :: post := by simp
    have hnext := hinv.fwd e' he s hs
    refine hkeep e' List.mem_cons_self _ _ hs (undone_inv hinv.tail hnext) ?_
    exact ih hinv.tail (fun x hx => hkeep x (List.mem_cons_of_mem e' hx)) hnext

/-- What holds before a round trip, and every step keeps, holds after it. -/
theorem undone_kept (hinv : Keeps fwd back Inv es) (D : σ → Prop)
    (hfwd : ∀ e ∈ es, ∀ s, Inv s → D s → D (fwd e s))
    (hback : ∀ e ∈ es, ∀ s t, Inv s → Inv t → D t → D (back e s t))
    {s : σ} (hs : Inv s) (hD : D s) : D (undone fwd back s es) := by
  induction es generalizing s with
  | nil => exact hD
  | cons e es ih =>
    have he : e ∈ e :: es := List.mem_cons_self
    have hnext := hinv.fwd e he s hs
    refine hback e he _ _ hs (undone_inv hinv.tail hnext) ?_
    exact ih hinv.tail (fun x hx => hfwd x (List.mem_cons_of_mem e hx))
      (fun x hx => hback x (List.mem_cons_of_mem e hx)) hnext (hfwd e he s hs hD)

/-- What one event establishes going forward, and every step keeps, holds
after the round trip. -/
theorem undone_carried (hinv : Keeps fwd back Inv es) {e : ε}
    (he : e ∈ es) (D : σ → Prop) (hset : ∀ s, Inv s → D (fwd e s))
    (hfwd : ∀ e ∈ es, ∀ s, Inv s → D s → D (fwd e s))
    (hback : ∀ e ∈ es, ∀ s t, Inv s → Inv t → D t → D (back e s t))
    {s : σ} (hs : Inv s) : D (undone fwd back s es) := by
  induction es generalizing s with
  | nil => simp at he
  | cons e' es ih =>
    have he' : e' ∈ e' :: es := List.mem_cons_self
    have hnext := hinv.fwd e' he' s hs
    have hfwd' : ∀ x ∈ es, ∀ s, Inv s → D s → D (fwd x s) :=
      fun x hx => hfwd x (List.mem_cons_of_mem e' hx)
    have hback' : ∀ x ∈ es, ∀ s t, Inv s → Inv t → D t → D (back x s t) :=
      fun x hx => hback x (List.mem_cons_of_mem e' hx)
    refine hback e' he' _ _ hs (undone_inv hinv.tail hnext) ?_
    rcases List.mem_cons.mp he with rfl | h
    · exact undone_kept hinv.tail D hfwd' hback' hnext (hset s hs)
    · exact ih hinv.tail h hfwd' hback' hnext

/-- A store that events only insert into, and whose undo inserts the value captured at the
key, or a default where there was none. -/
structure Inserts {κ β : Type*} [DecidableEq κ] (fwd : ε → σ → σ) (back : ε → σ → σ → σ)
    (store : σ → Finmap (fun _ : κ => β)) (write : ε → Option (κ × β)) (es : List ε) : Prop where
  none : ∀ e ∈ es, write e = none → ∀ s t, store (fwd e s) = store s ∧ store (back e s t) = store t
  some : ∀ e ∈ es, ∀ k v, write e = some (k, v) → ∀ s t, store (fwd e s) = (store s).insert k v ∧
    ∃ d, store (back e s t) = (store t).insert k (((store s).lookup k).getD d)

section Store
variable {κ β : Type*} [DecidableEq κ] {es : List ε} {store : σ → Finmap (fun _ : κ => β)}
  {write : ε → Option (κ × β)} (h : Inserts fwd back store write es)
include h

/-- The other keys are left alone in both directions. -/
theorem Inserts.untouched {k : κ} {e : ε} (he : e ∈ es) (ht : ¬ ∃ v, write e = Option.some (k, v)) (s t : σ) :
    (store (fwd e s)).lookup k = (store s).lookup k ∧ (store (back e s t)).lookup k = (store t).lookup k := by
  cases hw : write e with
  | none => rw [(h.none e he hw s t).1, (h.none e he hw s t).2]; exact ⟨rfl, rfl⟩
  | some kv =>
    have hne : k ≠ kv.1 := fun heq => ht ⟨kv.2, by rw [hw, heq]⟩
    obtain ⟨hfwd, d, hback⟩ := h.some e he kv.1 kv.2 hw s t
    rw [hfwd, hback]
    exact ⟨Finmap.lookup_insert_of_ne _ hne, Finmap.lookup_insert_of_ne _ hne⟩

/-- The round trip restores the store exactly when every key written was already there. -/
theorem undone_store (s : σ) :
    store (undone fwd back s es) = store s ↔ ∀ e ∈ es, ∀ k v, write e = Option.some (k, v) → k ∈ store s := by
  constructor
  · intro heq e he k v hw
    obtain ⟨pre, post, rfl⟩ := List.append_of_mem he
    have hD : k ∈ store (undone fwd back s (pre ++ e :: post)) := by
      refine undone_established (Keeps.trivial _) (fun t => k ∈ store t) ?_ ?_ True.intro
      · intro a b _ _
        obtain ⟨-, d, hd⟩ := h.some e he k v hw a b
        simp [hd]
      · intro e' he' a b _ _ hk
        have hmem : e' ∈ pre ++ e :: post := List.mem_append_left _ he'
        cases hw' : write e' with
        | none => rw [(h.none e' hmem hw' a b).2]; exact hk
        | some kv =>
          obtain ⟨-, d, hd⟩ := h.some e' hmem kv.1 kv.2 hw' a b
          rw [hd]
          exact Finmap.mem_insert.mpr (Or.inr hk)
    rwa [heq] at hD
  · intro hmem
    apply Finmap.ext_lookup
    intro k
    refine undone_restores (Keeps.trivial es) (fun t => (store t).lookup k)
      (fun e => ∃ v, write e = Option.some (k, v)) _ ?_ ?_ ?_ True.intro rfl
    · exact fun e he a _ ht => (h.untouched he ht a a).1
    · exact fun e he a b _ _ ht => (h.untouched he ht a b).2
    · rintro e he a b _ _ ⟨v, hw⟩ hx
      obtain ⟨-, d, hd⟩ := h.some e he k v hw a b
      obtain ⟨x, hx'⟩ := Finmap.mem_iff.mp (hmem e he k v hw)
      rw [hd, Finmap.lookup_insert, hx, hx', Option.getD_some]

end Store

/-! ## Doing the events once more -/

/-- The state after the events. -/
def run (fwd : ε → σ → σ) (s : σ) (es : List ε) : σ := es.foldl (fun s e => fwd e s) s

theorem run_kept (D : σ → Prop) {es : List ε} (h : ∀ e ∈ es, ∀ s, D s → D (fwd e s)) {s : σ} (hs : D s) :
    D (run fwd s es) := by
  induction es generalizing s with
  | nil => exact hs
  | cons e es ih =>
    apply ih fun x hx => h x (List.mem_cons_of_mem e hx)
    exact h e List.mem_cons_self s hs

/-- What one event establishes, and every event keeps, holds at the end. -/
theorem run_established (D : σ → Prop) {es : List ε} {e : ε} (he : e ∈ es) (hset : ∀ s, D (fwd e s))
    (hkeep : ∀ e ∈ es, ∀ s, D s → D (fwd e s)) (s : σ) : D (run fwd s es) := by
  induction es generalizing s with
  | nil => cases he
  | cons e' es ih =>
    have htail : ∀ x ∈ es, ∀ s, D s → D (fwd x s) := fun x hx => hkeep x (List.mem_cons_of_mem e' hx)
    rcases List.mem_cons.mp he with rfl | h
    · exact run_kept D htail (hset s)
    · exact ih h htail _

/-- What holds once the events are done, and every undo keeps, holds after the round trip. -/
theorem undone_kept_from_run (D : σ → Prop) {es : List ε} (h : ∀ e ∈ es, ∀ s t, D t → D (back e s t)) {s : σ}
    (hs : D (run fwd s es)) : D (undone fwd back s es) := by
  induction es generalizing s with
  | nil => exact hs
  | cons e es ih =>
    apply h e List.mem_cons_self
    exact ih (fun x hx => h x (List.mem_cons_of_mem e hx)) hs

/-- The same once the events are done again. -/
theorem redone_kept (D : σ → Prop) {es : List ε} (hfwd : ∀ e ∈ es, ∀ s, D s → D (fwd e s))
    (hback : ∀ e ∈ es, ∀ s t, D t → D (back e s t)) {s : σ} (hs : D (run fwd s es)) :
    D (run fwd (undone fwd back s es) es) :=
  run_kept D hfwd (undone_kept_from_run D hback hs)

/-- An event that gives the observation one value whatever it was. -/
def Resets (fwd : ε → σ → σ) (Inv : σ → Prop) (obs : σ → Option γ) (e : ε) : Prop :=
  ∃ v, ∀ s, Inv s → obs (fwd e s) = some v

/-- An event whose effect on the observation, where there is one, is a function of it. -/
def Acts (fwd : ε → σ → σ) (Inv : σ → Prop) (obs : σ → Option γ) (e : ε) : Prop :=
  ∃ f : γ → γ, ∀ s x, Inv s → obs s = some x → obs (fwd e s) = some (f x)

section Again
variable {Inv : σ → Prop} {obs : σ → Option γ} {es : List ε}

/-- From the last event on that resets it an observation no longer depends on the state the
events started from. -/
theorem run_settles (obs : σ → Option γ) (hinv : ∀ e ∈ es, ∀ s, Inv s → Inv (fwd e s))
    (hstep : ∀ e ∈ es, Resets fwd Inv obs e ∨ Acts fwd Inv obs e) (hreset : ∃ e ∈ es, Resets fwd Inv obs e) :
    ∃ v, ∀ s, Inv s → obs (run fwd s es) = some v := by
  have hacts : ∀ {es : List ε}, (∀ e ∈ es, ∀ s, Inv s → Inv (fwd e s)) →
      (∀ e ∈ es, Resets fwd Inv obs e ∨ Acts fwd Inv obs e) →
      ∀ x, ∃ v, ∀ s, Inv s → obs s = some x → obs (run fwd s es) = some v := by
    intro es
    induction es with
    | nil => exact fun _ _ x => ⟨x, fun _ _ h => h⟩
    | cons e es ih =>
      intro hinv hes x
      have htail := ih (fun y hy => hinv y (List.mem_cons_of_mem e hy)) fun y hy => hes y (List.mem_cons_of_mem e hy)
      have hnext := hinv e List.mem_cons_self
      obtain ⟨v, hv⟩ | ⟨f, hf⟩ := hes e List.mem_cons_self
      · obtain ⟨w, hw⟩ := htail v
        exact ⟨w, fun s hs _ => hw _ (hnext s hs) (hv s hs)⟩
      · obtain ⟨w, hw⟩ := htail (f x)
        exact ⟨w, fun s hs h => hw _ (hnext s hs) (hf s x hs h)⟩
  induction es with
  | nil =>
    obtain ⟨e, he, -⟩ := hreset
    cases he
  | cons e es ih =>
    have hinv' : ∀ y ∈ es, ∀ s, Inv s → Inv (fwd y s) := fun y hy => hinv y (List.mem_cons_of_mem e hy)
    have hes : ∀ y ∈ es, Resets fwd Inv obs y ∨ Acts fwd Inv obs y := fun y hy => hstep y (List.mem_cons_of_mem e hy)
    have hnext := hinv e List.mem_cons_self
    by_cases htail : ∃ y ∈ es, Resets fwd Inv obs y
    · obtain ⟨v, hv⟩ := ih hinv' hes htail
      exact ⟨v, fun s hs => hv _ (hnext s hs)⟩
    · -- then it is the first event that resets
      obtain ⟨y, hy, hresets⟩ := hreset
      rcases List.mem_cons.mp hy with rfl | hy
      · obtain ⟨v, hv⟩ := hresets
        obtain ⟨w, hw⟩ := hacts hinv' hes v
        exact ⟨w, fun s hs => hw _ (hnext s hs) (hv s hs)⟩
      · exact absurd ⟨y, hy, hresets⟩ htail

/-- Doing the events once more gives an observation the value it had, if some event resets
it or none touches it in either direction. -/
theorem redone_eq (obs : σ → Option γ) (hinv : Keeps fwd back Inv es) (hstep : ∀ e ∈ es, Resets fwd Inv obs e ∨ Acts fwd Inv obs e)
    (hall : (∃ e ∈ es, Resets fwd Inv obs e) ∨
      ∀ e ∈ es, (∀ s, Inv s → obs (fwd e s) = obs s) ∧ ∀ s t, Inv s → Inv t → obs (back e s t) = obs t)
    {s : σ} (hs : Inv s) : obs (run fwd (undone fwd back s es) es) = obs (run fwd s es) := by
  have hundone := undone_inv hinv hs
  rcases hall with hreset | hnone
  · obtain ⟨v, hv⟩ := run_settles obs hinv.fwd hstep hreset
    rw [hv _ hundone, hv _ hs]
  · have hrun : ∀ t, Inv t → obs (run fwd t es) = obs t := fun t ht =>
      (run_kept (fun u => Inv u ∧ obs u = obs t) (fun e he u hu =>
        ⟨hinv.fwd e he u hu.1, ((hnone e he).1 u hu.1).trans hu.2⟩) ⟨ht, rfl⟩).2
    rw [hrun _ hundone, hrun _ hs]
    exact undone_restores hinv obs (fun _ => False) (obs s) (fun e he t ht _ => (hnone e he).1 t ht)
      (fun e he t u ht hu _ => (hnone e he).2 t u ht hu) (fun _ _ _ _ _ _ h => h.elim) hs rfl

/-- A store that events only insert into has what it had once the events are done again. -/
theorem redone_store {κ β : Type*} [DecidableEq κ] {store : σ → Finmap (fun _ : κ => β)} {write : ε → Option (κ × β)}
    (h : Inserts fwd back store write es) (s : σ) :
    store (run fwd (undone fwd back s es) es) = store (run fwd s es) := by
  apply Finmap.ext_lookup
  intro k
  have hresets : ∀ e ∈ es, ∀ v, write e = some (k, v) →
      Resets fwd (fun _ => True) (fun t => some ((store t).lookup k)) e := by
    intro e he v hw
    refine ⟨some v, fun t _ => ?_⟩
    show some ((store (fwd e t)).lookup k) = some (some v)
    rw [(h.some e he k v hw t t).1, Finmap.lookup_insert]
  have heq : some ((store (run fwd (undone fwd back s es) es)).lookup k) = some ((store (run fwd s es)).lookup k) := by
    refine redone_eq (fun t => some ((store t).lookup k)) (Keeps.trivial es) ?_ ?_ True.intro
    · intro e he
      by_cases ht : ∃ v, write e = some (k, v)
      · obtain ⟨v, hw⟩ := ht
        exact .inl (hresets e he v hw)
      · exact .inr ⟨id, fun t x _ hx => (congrArg some (h.untouched he ht t t).1).trans hx⟩
    · by_cases hany : ∃ e ∈ es, ∃ v, write e = some (k, v)
      · obtain ⟨e, he, v, hw⟩ := hany
        exact .inl ⟨e, he, hresets e he v hw⟩
      · refine .inr fun e he => ?_
        have ht : ¬ ∃ v, write e = some (k, v) := fun ⟨v, hw⟩ => hany ⟨e, he, v, hw⟩
        exact ⟨fun t _ => congrArg some (h.untouched he ht t t).1, fun t u _ _ => congrArg some (h.untouched he ht t u).2⟩
  exact Option.some.inj heq

end Again

end UndoLog
