import Windy.Manager.Failure
import Windy.Project.SsaCache

/- The cache of decompiled functions (`decompile_artifact_guarded`,
   `decompile_cache_get` and `decompile_cache_put` in `project_manager.rs`).

   A call takes its key from the snapshot it loads first: the counter, the address and
   a lane that stands for its options. On a miss it waits for one of two permits, and
   the task it spawns loads the snapshot again, computes from that and stores the result
   under the key it came with. Between the two loads the writer may publish any number
   of edits, so a text of a later revision can be filed under an earlier one; a call
   that still holds the earlier snapshot is then served the later text.

   Two more things part a cached text from its key. The lane forgets some of the
   options, and the optimized SSA the text is made of comes from the session cache of
   `SsaCache`, which can serve that of another revision.

   The writer and the calls take turns in any order, one action each.

   What is proved:
     1. `Inv.step`: each allowed step keeps every cached text that of a published
        snapshot with the counter of its key.
     2. `cached_artifact_right`: in a run whose computations each run on the snapshot
        their key was taken from, every text served from the cache is the one of the
        snapshot the key names.
     3. `later_text_served`: without that, it is not.

   Correspondence:
     `decompile_cache_discriminant` ↔ `lane`
     `DecompileCacheKey` ↔ `Key`
     `decompile_cache_get`, `_put` ↔ `cacheGet`, `cachePut`
     `decompile_artifact_guarded` ↔ the actions of a call, from `call` to `store`
     `function_decompile_artifact` ↔ the same
     `writer_loop` ↔ `Action.edit`, one `Served.turn`
   How a text is made from a snapshot and the optimized SSA is a parameter. -/
namespace Windy.DecompileCache

/-! ## Options and keys -/

inductive DecompileMode where
  | legacy
  | shadowV2
  | v2
  deriving DecidableEq

structure DecompileOptions where
  mode : DecompileMode
  allowLegacyFallback : Bool
  shadowOnly : Bool
  maxCandidates : Nat
  beamWidth : Nat
  deriving DecidableEq

def DecompileMode.discriminant : DecompileMode → Nat
  | .legacy => 0
  | .shadowV2 => 1
  | .v2 => 2

/-- `decompile_cache_discriminant`. -/
def lane (options : DecompileOptions) : Nat :=
  options.mode.discriminant * 2 + options.allowLegacyFallback.toNat

structure Key where
  opSeq : Nat
  va : Nat
  lane : Nat
  deriving DecidableEq

/-- `DecompileOptions::production`. -/
def production : DecompileOptions :=
  { mode := .v2, allowLegacyFallback := true, shadowOnly := false, maxCandidates := 2048, beamWidth := 8 }

section Cache
variable {α : Type}

def decompileCacheCap : Nat := 64

/-- `decompile_cache_get`: a hit moves to the back. -/
def cacheGet (cache : List (Key × α)) (key : Key) : Option (α × List (Key × α)) :=
  (cache.find? fun entry => entry.1 = key).map fun entry =>
    (entry.2, cache.eraseP (fun entry => entry.1 = key) ++ [entry])

/-- `decompile_cache_put`: a full cache gives up its front. -/
def cachePut (cache : List (Key × α)) (key : Key) (artifact : α) : List (Key × α) :=
  let entries := cache.filter (fun entry => entry.1 ≠ key) ++ [(key, artifact)]
  entries.drop (entries.length - decompileCacheCap)

theorem mem_of_cacheGet {cache rest : List (Key × α)} {key : Key} {artifact : α}
    (h : cacheGet cache key = some (artifact, rest)) :
    (key, artifact) ∈ cache ∧ ∀ entry ∈ rest, entry ∈ cache := by
  obtain ⟨⟨k, a⟩, hfind, heq⟩ := Option.map_eq_some_iff.mp h
  obtain ⟨rfl, rfl⟩ := Prod.mk.inj heq
  have hmem := List.mem_of_find?_eq_some hfind
  have hkey : k = key := by simpa using List.find?_some hfind
  subst hkey
  refine ⟨hmem, fun entry hentry => ?_⟩
  rcases List.mem_append.mp hentry with hold | hlast
  · exact List.mem_of_mem_eraseP hold
  · rw [List.mem_singleton.mp hlast]
    exact hmem

theorem mem_cachePut {cache : List (Key × α)} {key : Key} {artifact : α} {entry : Key × α}
    (h : entry ∈ cachePut cache key artifact) : entry ∈ cache ∨ entry = (key, artifact) := by
  rcases List.mem_append.mp (List.mem_of_mem_drop h) with hold | hnew
  · exact .inl (List.mem_of_mem_filter hold)
  · exact .inr (List.mem_singleton.mp hnew)

end Cache

/-! ## Calls -/

/-- How a text is made: the image, and the rest of `function_decompile_artifact` once it
has the optimized SSA. -/
structure Engine (σ α : Type) where
  image : SsaCache.Image σ
  render : Project → Nat → DecompileOptions → σ → Option α

/-- `function_decompile_artifact` on a snapshot whose SSA nobody has computed before. -/
def Engine.functionDecompileArtifact {σ α : Type} (engine : Engine σ α) (p : Project) (va : Nat)
    (options : DecompileOptions) : Option α :=
  (SsaCache.cold engine.image p va).bind (engine.render p va options)

inductive Outcome (α : Type) where
  | notFound
  | stillRunning
  | ready (artifact : α)
  /-- ready, from the cache -/
  | cached (key : Key) (artifact : α)

/-- How far a call and the task it spawns have come. -/
inductive Phase (α : Type) where
  | started
  | loaded (snapshot : Project)
  /-- nothing cached, no permit yet -/
  | waiting (key : Key)
  | running (key : Key)
  /-- the task has loaded its own snapshot -/
  | fetched (key : Key) (snapshot : Project)
  | computed (key : Key) (artifact : α)
  | answered (outcome : Outcome α)

/-- `expired` tells whether the deadline has passed while the task ran. -/
structure Call (α : Type) where
  va : Nat
  options : DecompileOptions
  expired : Bool
  phase : Phase α

/-- The handle of one project with its writer. `published` lists the snapshots so far. -/
structure State (α : Type) where
  served : Served
  published : List Project
  cache : List (Key × α)
  permits : Nat
  calls : Nat → Option (Call α)

inductive Action (σ : Type) where
  | edit (append : Append) (request : WriteRequest) (checkpoint : Bool)
  | call (c va : Nat) (options : DecompileOptions)
  | load (c : Nat)
  | lookup (c : Nat)
  | acquire (c : Nat)
  | fetch (c : Nat)
  /-- `ssa` is what the session cache or its computation gives -/
  | compute (c : Nat) (ssa : Option σ)
  | store (c : Nat)
  | expire (c : Nat)

section Steps
variable {σ α : Type} (engine : Engine σ α)

def State.setCall (s : State α) (c : Nat) (call : Call α) : State α :=
  { s with calls := Function.update s.calls c (some call) }

def State.setCache (s : State α) (cache : List (Key × α)) : State α := { s with cache := cache }

def State.setPermits (s : State α) (permits : Nat) : State α := { s with permits := permits }

def Call.goOn (call : Call α) (phase : Phase α) : Call α := { call with phase := phase }

/-- What the caller is told when the task ends with `result`. -/
def Call.outcome (call : Call α) (result : Option α) : Outcome α :=
  if call.expired then .stillRunning
  else
    match result with
    | some artifact => .ready artifact
    | none => .notFound

/-- The call when its task has ended. -/
def Call.ended (call : Call α) (result : Option α) : Call α := call.goOn (.answered (call.outcome result))

/-- A freshly opened project. -/
def start (served : Served) : State α :=
  { served := served, published := [served.readState], cache := [], permits := 2, calls := fun _ => none }

/-- One step of the writer or of one call; `none` where it cannot be taken. -/
def step (s : State α) : Action σ → Option (State α)
  | .edit append request checkpoint =>
    let served := (s.served.turn append request checkpoint).2
    some { s with served := served, published := served.readState :: s.published }
  | .call c va options =>
    match s.calls c with
    | none => some (s.setCall c { va := va, options := options, expired := false, phase := .started })
    | some _ => none
  | .load c =>
    (s.calls c).bind fun call =>
      match call.phase with
      | .started =>
        let snapshot := s.served.readState
        some (s.setCall c
          (call.goOn (if snapshot.hasFunction call.va then .loaded snapshot else .answered .notFound)))
      | _ => none
  | .lookup c =>
    (s.calls c).bind fun call =>
      match call.phase with
      | .loaded snapshot =>
        let key := { opSeq := snapshot.opSeq, va := call.va, lane := lane call.options }
        match cacheGet s.cache key with
        | some (artifact, cache) =>
          some ((s.setCache cache).setCall c (call.goOn (.answered (.cached key artifact))))
        | none => some (s.setCall c (call.goOn (.waiting key)))
      | _ => none
  | .acquire c =>
    (s.calls c).bind fun call =>
      match call.phase with
      | .waiting key =>
        if s.permits = 0 then none
        else some ((s.setPermits (s.permits - 1)).setCall c (call.goOn (.running key)))
      | _ => none
  | .fetch c =>
    (s.calls c).bind fun call =>
      match call.phase with
      | .running key => some (s.setCall c (call.goOn (.fetched key s.served.readState)))
      | _ => none
  | .compute c ssa =>
    (s.calls c).bind fun call =>
      match call.phase with
      | .fetched key snapshot =>
        match ssa.bind (engine.render snapshot call.va call.options) with
        | some artifact => some (s.setCall c (call.goOn (.computed key artifact)))
        | none => some ((s.setPermits (s.permits + 1)).setCall c (call.ended none))
      | _ => none
  | .store c =>
    (s.calls c).bind fun call =>
      match call.phase with
      | .computed key artifact =>
        some (((s.setCache (cachePut s.cache key artifact)).setPermits (s.permits + 1)).setCall c
          (call.ended (some artifact)))
      | _ => none
  | .expire c =>
    (s.calls c).bind fun call =>
      match call.phase with
      | .running _ | .fetched _ _ | .computed _ _ => some (s.setCall c { call with expired := true })
      | _ => none

/-! ## What the steps must keep to -/

/-- The key of a call without its counter. -/
def Call.slot (call : Call α) : Nat × Nat := (call.va, lane call.options)

/-- The counter does not come around; options that share address and lane are equal; a
task loads a snapshot with the counter of its key, and is given the SSA of its snapshot. -/
def Allowed (s : State α) : Action σ → Prop
  | .edit _ _ _ => s.served.writer.project.opSeq + 1 < 2 ^ 64
  | .call _ va options => ∀ d call, s.calls d = some call → call.slot = (va, lane options) → call.options = options
  | .fetch c => ∀ call key, s.calls c = some call → call.phase = .running key → s.served.readState.opSeq = key.opSeq
  | .compute c ssa => ∀ call key snapshot, s.calls c = some call → call.phase = .fetched key snapshot →
      ssa = SsaCache.cold engine.image snapshot call.va
  | _ => True

/-! ## The invariant -/

/-- The text is the one a published snapshot with the key's counter gives. -/
def RightFor (published : List Project) (key : Key) (options : DecompileOptions) (artifact : α) : Prop :=
  ∃ p ∈ published, p.opSeq = key.opSeq ∧ engine.functionDecompileArtifact p key.va options = some artifact

/-- What holds of a call at the point it has reached. -/
def CallOk (published : List Project) (call : Call α) : Prop :=
  match call.phase with
  | .loaded snapshot => snapshot ∈ published
  | .waiting key | .running key => (key.va, key.lane) = call.slot
  | .fetched key snapshot => (key.va, key.lane) = call.slot ∧ snapshot ∈ published ∧ snapshot.opSeq = key.opSeq
  | .computed key artifact | .answered (.cached key artifact) =>
    (key.va, key.lane) = call.slot ∧ RightFor engine published key call.options artifact
  | _ => True

structure Inv (s : State α) : Prop where
  current : s.served.readState ∈ s.published
  below : ∀ p ∈ s.published, p.opSeq ≤ s.served.readState.opSeq
  unique : ∀ p ∈ s.published, ∀ q ∈ s.published, p.opSeq = q.opSeq → p = q
  options : ∀ c d call other, s.calls c = some call → s.calls d = some other → call.slot = other.slot →
    call.options = other.options
  calls : ∀ c call, s.calls c = some call → CallOk engine s.published call
  cached : ∀ key artifact, (key, artifact) ∈ s.cache → ∃ d other, s.calls d = some other ∧
    (key.va, key.lane) = other.slot ∧ RightFor engine s.published key other.options artifact

variable {engine}

theorem inv_start (served : Served) : Inv engine (start served : State α) := by
  refine ⟨List.mem_singleton_self _, ?_, ?_, ?_, ?_, ?_⟩
  · intro p hp
    exact le_of_eq (congrArg Project.opSeq (List.mem_singleton.mp hp))
  · intro p hp q hq _
    rw [List.mem_singleton.mp hp, List.mem_singleton.mp hq]
  · intro c d call other hc
    cases hc
  · intro c call hc
    cases hc
  · intro key artifact h
    cases h

/-- A call is put where another of the same address and options was, or where none was,
and what the cache gains is right for it. -/
theorem Inv.setCall {s : State α} (h : Inv engine s) {c : Nat} {call : Call α} {cache : List (Key × α)}
    {permits : Nat} (hold : ∀ old, s.calls c = some old → old.slot = call.slot ∧ old.options = call.options)
    (hnew : ∀ d other, s.calls d = some other → call.slot = other.slot → call.options = other.options)
    (hok : CallOk engine s.published call)
    (hcached : ∀ key artifact, (key, artifact) ∈ cache → (key, artifact) ∈ s.cache ∨
      ((key.va, key.lane) = call.slot ∧ RightFor engine s.published key call.options artifact)) :
    Inv engine ({ s with cache := cache, permits := permits }.setCall c call) := by
  have hself : Function.update s.calls c (some call) c = some call := Function.update_self ..
  have hother : ∀ d, d ≠ c → Function.update s.calls c (some call) d = s.calls d :=
    fun d hd => Function.update_of_ne hd ..
  refine ⟨h.current, h.below, h.unique, ?_, ?_, ?_⟩
  · intro d e first second hd he hslot
    change Function.update s.calls c (some call) d = some first at hd
    change Function.update s.calls c (some call) e = some second at he
    by_cases hdc : d = c <;> by_cases hec : e = c
    · rw [hdc, hself] at hd
      rw [hec, hself] at he
      rw [← Option.some.inj hd, ← Option.some.inj he]
    · rw [hdc, hself] at hd
      rw [hother e hec] at he
      obtain rfl := Option.some.inj hd
      exact hnew e second he hslot
    · rw [hother d hdc] at hd
      rw [hec, hself] at he
      obtain rfl := Option.some.inj he
      exact (hnew d first hd hslot.symm).symm
    · rw [hother d hdc] at hd
      rw [hother e hec] at he
      exact h.options d e first second hd he hslot
  · intro d other hd
    change Function.update s.calls c (some call) d = some other at hd
    by_cases hdc : d = c
    · rw [hdc, hself] at hd
      rw [← Option.some.inj hd]
      exact hok
    · rw [hother d hdc] at hd
      exact h.calls d other hd
  · intro key artifact hmem
    rcases hcached key artifact hmem with hbefore | ⟨hslot, hright⟩
    · obtain ⟨d, other, hd, hslot, hright⟩ := h.cached key artifact hbefore
      by_cases hdc : d = c
      · subst hdc
        obtain ⟨hsame, hopts⟩ := hold other hd
        exact ⟨d, call, hself, hslot.trans hsame, hopts ▸ hright⟩
      · exact ⟨d, other, (hother d hdc).trans hd, hslot, hright⟩
    · exact ⟨c, call, hself, hslot, hright⟩

/-- A call goes on to another phase. -/
theorem Inv.move {s : State α} (h : Inv engine s) {c : Nat} {call next : Call α} (hcall : s.calls c = some call)
    (hsame : next.va = call.va ∧ next.options = call.options) (hok : CallOk engine s.published next)
    {cache : List (Key × α)} {permits : Nat}
    (hcached : ∀ key artifact, (key, artifact) ∈ cache → (key, artifact) ∈ s.cache ∨
      ((key.va, key.lane) = next.slot ∧ RightFor engine s.published key next.options artifact)) :
    Inv engine ({ s with cache := cache, permits := permits }.setCall c next) := by
  have hslot : next.slot = call.slot := by rw [Call.slot, Call.slot, hsame.1, hsame.2]
  refine h.setCall ?_ ?_ hok hcached
  · intro old hold
    rw [hcall] at hold
    rw [← Option.some.inj hold]
    exact ⟨hslot.symm, hsame.2.symm⟩
  · intro d other hd hs
    rw [hsame.2]
    exact h.options c d call other hcall hd (hslot.symm.trans hs)

theorem callOk_ended (published : List Project) (call : Call α) (result : Option α) :
    CallOk engine published (call.ended result) := by
  cases hexpired : call.expired <;> cases result <;> simp [CallOk, Call.ended, Call.outcome, Call.goOn, hexpired]

theorem RightFor.mono {published more : List Project} {key : Key} {options : DecompileOptions} {artifact : α}
    (h : RightFor engine published key options artifact) (hsub : ∀ p ∈ published, p ∈ more) :
    RightFor engine more key options artifact := by
  obtain ⟨p, hp, hright⟩ := h
  exact ⟨p, hsub p hp, hright⟩

theorem CallOk.mono {published more : List Project} {call : Call α} (h : CallOk engine published call)
    (hsub : ∀ p ∈ published, p ∈ more) : CallOk engine more call := by
  unfold CallOk at h ⊢
  split at h
  · exact hsub _ h
  · exact h
  · exact h
  · exact ⟨h.1, hsub _ h.2.1, h.2.2⟩
  · exact ⟨h.1, h.2.mono hsub⟩
  · exact ⟨h.1, h.2.mono hsub⟩
  · trivial

/-- A request leaves the project alone or moves its counter by one. -/
theorem turn_readState (append : Append) (served : Served) (request : WriteRequest) (checkpoint : Bool) :
    (served.turn append request checkpoint).2.readState = served.readState ∨
      (served.turn append request checkpoint).2.readState.opSeq = (served.writer.project.opSeq + 1) % 2 ^ 64 := by
  have hturn : (served.turn append request checkpoint).2.readState =
      (served.writer.requestWith append request).2.project := rfl
  rw [hturn, served.current]
  cases hpending : served.writer.pending request with
  | none => exact .inl (Writer.requestWith_nothing hpending).2.1
  | some op =>
    refine .inr ?_
    rw [Writer.requestWith_project hpending]
    exact (op.applyTo_frame served.writer.project.bump).1

theorem Inv.edit {s : State α} (h : Inv engine s) {append : Append} {request : WriteRequest} {checkpoint : Bool}
    (hlow : s.served.writer.project.opSeq + 1 < 2 ^ 64) :
    Inv engine { s with
      served := (s.served.turn append request checkpoint).2
      published := (s.served.turn append request checkpoint).2.readState :: s.published } := by
  have hsub : ∀ p ∈ s.published, p ∈ (s.served.turn append request checkpoint).2.readState :: s.published :=
    fun p hp => List.mem_cons_of_mem _ hp
  have hrest : ∀ key artifact, (key, artifact) ∈ s.cache → ∃ d other, s.calls d = some other ∧
      (key.va, key.lane) = other.slot ∧ RightFor engine ((s.served.turn append request checkpoint).2.readState ::
        s.published) key other.options artifact := by
    intro key artifact hmem
    obtain ⟨d, other, hd, hslot, hright⟩ := h.cached key artifact hmem
    exact ⟨d, other, hd, hslot, hright.mono hsub⟩
  have hcalls := fun c call hcall => (h.calls c call hcall).mono hsub
  rcases turn_readState append s.served request checkpoint with hsame | hnext
  · -- the same project once more
    rw [hsame] at hsub hrest hcalls ⊢
    have hmem : ∀ p, p ∈ s.served.readState :: s.published → p ∈ s.published := by
      intro p hp
      rcases List.mem_cons.mp hp with rfl | hp
      · exact h.current
      · exact hp
    exact ⟨by rw [hsame]; exact List.mem_cons_self, by rw [hsame]; exact fun p hp => h.below p (hmem p hp),
      fun p hp q hq => h.unique p (hmem p hp) q (hmem q hq), h.options, hcalls, hrest⟩
  · -- a higher counter than any before
    have habove : ∀ p ∈ s.published, p.opSeq < (s.served.turn append request checkpoint).2.readState.opSeq := by
      intro p hp
      have hle := h.below p hp
      rw [s.served.current] at hle
      rw [hnext, Nat.mod_eq_of_lt hlow]
      omega
    refine ⟨List.mem_cons_self, ?_, ?_, h.options, hcalls, hrest⟩
    · intro p hp
      rcases List.mem_cons.mp hp with rfl | hp
      · exact le_refl _
      · exact le_of_lt (habove p hp)
    · intro p hp q hq heq
      rcases List.mem_cons.mp hp with rfl | hp <;> rcases List.mem_cons.mp hq with rfl | hq
      · rfl
      · have := habove q hq
        omega
      · have := habove p hp
        omega
      · exact h.unique p hp q hq heq

/-- What an allowed step keeps, one case for each point a call can be at. -/
theorem Inv.step {s s' : State α} {action : Action σ} (h : Inv engine s) (hok : Allowed engine s action)
    (hstep : step engine s action = some s') : Inv engine s' := by
  have hkeep : ∀ (call : Call α) key artifact, (key, artifact) ∈ s.cache → (key, artifact) ∈ s.cache ∨
      ((key.va, key.lane) = call.slot ∧ RightFor engine s.published key call.options artifact) :=
    fun _ _ _ hmem => .inl hmem
  cases action with
  | edit append request checkpoint =>
    obtain rfl := Option.some.inj hstep
    exact h.edit hok
  | call c va options =>
    simp only [DecompileCache.step] at hstep
    split at hstep
    · next hnone =>
      obtain rfl := Option.some.inj hstep
      refine h.setCall ?_ ?_ trivial (hkeep _)
      · intro old hold
        rw [hnone] at hold
        cases hold
      · intro d other hd hslot
        exact (hok d other hd hslot.symm).symm
    · cases hstep
  | load c =>
    obtain ⟨call, hcall, hnext⟩ := Option.bind_eq_some_iff.mp hstep
    split at hnext
    · obtain rfl := Option.some.inj hnext
      refine h.move hcall ?_ ?_ (hkeep _)
      · exact ⟨rfl, rfl⟩
      · by_cases hf : s.served.readState.hasFunction call.va = true
        · rw [if_pos hf]
          exact h.current
        · rw [if_neg hf]
          trivial
    · cases hnext
  | lookup c =>
    obtain ⟨call, hcall, hnext⟩ := Option.bind_eq_some_iff.mp hstep
    split at hnext
    · dsimp only at hnext
      split at hnext
      · next artifact cache hget =>
        obtain rfl := Option.some.inj hnext
        obtain ⟨hmem, hsub⟩ := mem_of_cacheGet hget
        -- the entry was filed by a call with the same options
        obtain ⟨d, other, hd, hslot, hright⟩ := h.cached _ artifact hmem
        have hopts : other.options = call.options := h.options d c other call hd hcall hslot.symm
        refine h.move hcall ?_ ?_ fun key text hin => .inl (hsub _ hin)
        · exact ⟨rfl, rfl⟩
        · exact ⟨rfl, hopts ▸ hright⟩
      · obtain rfl := Option.some.inj hnext
        refine h.move hcall ?_ ?_ (hkeep _)
        · exact ⟨rfl, rfl⟩
        · exact rfl
    · cases hnext
  | acquire c =>
    obtain ⟨call, hcall, hnext⟩ := Option.bind_eq_some_iff.mp hstep
    have hcallOk := h.calls c call hcall
    split at hnext
    · next key hphase =>
      rw [CallOk, hphase] at hcallOk
      split at hnext
      · cases hnext
      · obtain rfl := Option.some.inj hnext
        refine h.move hcall ?_ ?_ (hkeep _)
        · exact ⟨rfl, rfl⟩
        · exact hcallOk
    · cases hnext
  | fetch c =>
    obtain ⟨call, hcall, hnext⟩ := Option.bind_eq_some_iff.mp hstep
    have hcallOk := h.calls c call hcall
    split at hnext
    · next key hphase =>
      rw [CallOk, hphase] at hcallOk
      obtain rfl := Option.some.inj hnext
      refine h.move hcall ?_ ?_ (hkeep _)
      · exact ⟨rfl, rfl⟩
      · exact ⟨hcallOk, h.current, hok call key hcall hphase⟩
    · cases hnext
  | compute c ssa =>
    obtain ⟨call, hcall, hnext⟩ := Option.bind_eq_some_iff.mp hstep
    have hcallOk := h.calls c call hcall
    split at hnext
    · next key snapshot hphase =>
      rw [CallOk, hphase] at hcallOk
      obtain ⟨hslot, hpublished, hseq⟩ := hcallOk
      split at hnext
      · next artifact hartifact =>
        obtain rfl := Option.some.inj hnext
        rw [hok call key snapshot hcall hphase, ← (Prod.mk.inj hslot).1] at hartifact
        refine h.move hcall ?_ ?_ (hkeep _)
        · exact ⟨rfl, rfl⟩
        · exact ⟨hslot, snapshot, hpublished, hseq, hartifact⟩
      · obtain rfl := Option.some.inj hnext
        refine h.move hcall ?_ ?_ (hkeep _)
        · exact ⟨rfl, rfl⟩
        · exact callOk_ended _ call none
    · cases hnext
  | store c =>
    obtain ⟨call, hcall, hnext⟩ := Option.bind_eq_some_iff.mp hstep
    have hcallOk := h.calls c call hcall
    split at hnext
    · next key artifact hphase =>
      rw [CallOk, hphase] at hcallOk
      obtain rfl := Option.some.inj hnext
      refine h.move hcall ?_ ?_ fun other text hmem => ?_
      · exact ⟨rfl, rfl⟩
      · exact callOk_ended _ call (some artifact)
      · rcases mem_cachePut hmem with hbefore | hnew
        · exact .inl hbefore
        · obtain ⟨rfl, rfl⟩ := Prod.mk.inj hnew
          exact .inr hcallOk
    · cases hnext
  | expire c =>
    obtain ⟨call, hcall, hnext⟩ := Option.bind_eq_some_iff.mp hstep
    have hsame : CallOk engine s.published { call with expired := true } := h.calls c call hcall
    have hnext' : s.setCall c { call with expired := true } = s' := by
      split at hnext
      · exact Option.some.inj hnext
      · exact Option.some.inj hnext
      · exact Option.some.inj hnext
      · cases hnext
    rw [← hnext']
    refine h.move hcall ?_ hsame (hkeep _)
    exact ⟨rfl, rfl⟩

/-- In a run where every computation is made on a snapshot with the counter of its key
and on the SSA of that snapshot, options that share a lane are equal and the counter does
not come around, a text served from the cache is the one of the snapshot its key names. -/
theorem cached_artifact_right {served : Served} {actions : List (Action σ)} {s : State α}
    (hrun : Run.Guarded (step engine) (Allowed engine) (start served) actions s) {c : Nat} {call : Call α} {key : Key}
    {artifact : α} (hcall : s.calls c = some call) (hphase : call.phase = .answered (.cached key artifact)) :
    key.va = call.va ∧ key.lane = lane call.options ∧ (∃ p ∈ s.published, p.opSeq = key.opSeq) ∧
      ∀ p ∈ s.published, p.opSeq = key.opSeq →
        engine.functionDecompileArtifact p call.va call.options = some artifact := by
  have hinv : Inv engine s := hrun.inv (fun _ _ _ h hok hstep => h.step hok hstep) (inv_start served)
  have hcallOk := hinv.calls c call hcall
  rw [CallOk, hphase] at hcallOk
  obtain ⟨hslot, p, hp, hseq, hright⟩ := hcallOk
  obtain ⟨hva, hlane⟩ := Prod.mk.inj hslot
  refine ⟨hva, hlane, ⟨p, hp, hseq⟩, fun q hq hq' => ?_⟩
  rw [hinv.unique q hq p hp (hq'.trans hseq.symm), ← hva]
  exact hright

end Steps

/-! ## Runs -/

/-- The header of the text, with the name of the function. -/
def headers : Engine SsaCache.CallAbiInputs String where
  image := SsaCache.mainImage
  render p va _ _ := (p.symbolName va).map fun name => "uint64 " ++ name ++ "()"

/-- A call computes and stores its text, and a second one is served. -/
def computeThenHit : List (Action SsaCache.CallAbiInputs) :=
  [.call 0 4096 production, .call 1 4096 production, .load 0, .lookup 0, .acquire 0, .fetch 0,
    .compute 0 (SsaCache.cold SsaCache.mainImage Served.fresh.readState 4096), .store 0, .load 1, .lookup 1]

theorem computeThenHit_right : ∃ s call, Run.exec (step headers) (start Served.fresh) computeThenHit = some s ∧
    s.calls 1 = some call ∧
    ∀ p ∈ s.published, p.opSeq = 0 →
      headers.functionDecompileArtifact p call.va call.options = some "uint64 FUN_00001000()" := by
  refine ⟨_, _, rfl, rfl, (@cached_artifact_right _ _ headers Served.fresh computeThenHit _ ?_ 1 _
    { opSeq := 0, va := 4096, lane := 5 } _ rfl rfl).2.2.2⟩
  refine .cons ?_ rfl (.cons ?_ rfl (.cons trivial rfl (.cons trivial rfl (.cons trivial rfl (.cons ?_ rfl
    (.cons ?_ rfl (.cons trivial rfl (.cons trivial rfl (.cons trivial rfl (.nil _))))))))))
  · intro d call hd
    cases hd
  · intro d call hd hslot
    by_cases hzero : d = 0
    · subst hzero
      rw [← Option.some.inj hd]
    · simp [start, State.setCall, Function.update, hzero] at hd
  · intro call key hcall hphase
    obtain rfl := Option.some.inj hcall
    obtain rfl := Phase.running.inj hphase
    rfl
  · intro call key snapshot hcall hphase
    obtain rfl := Option.some.inj hcall
    obtain ⟨rfl, rfl⟩ := Phase.fetched.inj hphase
    rfl

/-- Two calls hold the snapshot before a rename. The first computes after it and files
the new text under the old counter; the second is served that text. -/
def editBetween : List (Action SsaCache.CallAbiInputs) :=
  [.call 0 4096 production, .load 0, .lookup 0, .acquire 0, .call 1 4096 production, .load 1,
    .edit .accepting (.apply "ui" (.renameSymbol 4096 "main" .user none none)) false, .fetch 0,
    .compute 0 (SsaCache.cold SsaCache.mainImage
      (Served.fresh.turn .accepting (.apply "ui" (.renameSymbol 4096 "main" .user none none)) false).2.readState 4096),
    .store 0, .lookup 1]

theorem later_text_served : ∃ s call, Run.exec (step headers) (start Served.fresh) editBetween = some s ∧
    s.calls 1 = some call ∧
    call.phase = .answered (.cached { opSeq := 0, va := 4096, lane := 5 } "uint64 main()") ∧
    (∀ p ∈ s.published, p.opSeq = 0 →
      headers.functionDecompileArtifact p call.va call.options = some "uint64 FUN_00001000()") ∧
    ∃ p ∈ s.published, p.opSeq = 0 := by
  refine ⟨_, _, rfl, rfl, rfl, ?_, Served.fresh.readState,
    List.mem_cons_of_mem _ (List.mem_singleton_self Served.fresh.readState), rfl⟩
  intro p hp hseq
  rcases List.mem_cons.mp hp with rfl | hold
  · exact absurd hseq (by decide)
  · rw [List.mem_singleton.mp hold]
    rfl

end Windy.DecompileCache
