import Windy.Analysis.RuntimeFunctions
import Windy.Analysis.SketchFacts
import Windy.Lib.KeyedList

/- The sketches of an image (`analysis/sketch.rs`, `build_from_path`).

   The ranges to sketch come from the entry point, the table of runtime functions and the targets of
   the direct calls that a linear sweep of the executable sections meets, in this order. They are
   one map from starts to ends with room for 65536 of them: a runtime function replaces the end of
   its start, a call target never does. Each range is cut at the next start and after 64 KiB.

   What is proved: the sketches ascend and share no address, and without a limit no target and no
   runtime function is left out; each runtime function of its own is summarized over its whole range
   exactly when it is among the first distinct starts, its first byte is in the file, and none of
   these starts lies inside of it (`sketchesExact_iff`).

   Correspondence:
     the loop over the runtime functions ↔ `addRuntime`
     the sweep ↔ `sweptInsns`, `sweepInsn` (`addTarget`)
     the loop over the starts ↔ `sketchesOf` (`stopOf` for `end`)
     `build_from_path` ↔ the same -/
namespace Windy.Sketch
open Unwind (RuntimeFunction RuntimeFunctionTable parseRuntimeFunctions)

structure OptionalHeader where
  imageBase : Nat
  addressOfEntryPoint : Nat
  magic : String

/-- A file with what the loader reads of its headers. The fields have the width of their types. -/
structure LoadedPe where
  image : List UInt8
  optionalHeader : Option OptionalHeader
  sections : List Section
  sized : Loader.Sized ⟨(optionalHeader.map OptionalHeader.imageBase).getD 0, sections⟩

namespace LoadedPe
variable (pe : LoadedPe)

def space : AddressSpace := ⟨(pe.optionalHeader.map OptionalHeader.imageBase).getD 0, pe.sections⟩

/-- `AddressSpace::bitness` -/
def bitness : Nat :=
  let magic := ((pe.optionalHeader.map OptionalHeader.magic).getD "PE32").toList
  if contains magic "PE32+" || contains magic "0x20b" then 64 else 32

def entryVa : Nat :=
  Outcome.saturatingAdd 64 pe.space.imageBase ((pe.optionalHeader.map OptionalHeader.addressOfEntryPoint).getD 0)

def runtime : Outcome RuntimeFunctionTable :=
  if pe.bitness = 64 then do
    let table ← Outcome.attempt (parseRuntimeFunctions pe.image pe.space)
    return table.getD ⟨[], 0⟩
  else return ⟨[], 0⟩

end LoadedPe

/-! ## Ranges -/

def maxResidentSketches : Nat := 65536

structure Candidates where
  ranges : List (Nat × Nat)
  candidateLimitReached : Bool

namespace Candidates

def holds (c : Candidates) (va : Nat) : Bool := (KeyedList.get Prod.fst va c.ranges).isSome

def start (entryVa : Nat) : Candidates := ⟨[(entryVa, Outcome.saturatingAdd 64 entryVa 4096)], false⟩

def addRuntime (c : Candidates) (entry : RuntimeFunction) : Candidates :=
  if maxResidentSketches ≤ c.ranges.length ∧ !c.holds entry.beginVa then { c with candidateLimitReached := true }
  else { c with ranges := KeyedList.put Prod.fst (entry.beginVa, entry.endVa) c.ranges }

def addTarget (c : Candidates) (target : Nat) : Candidates :=
  if c.ranges.length < maxResidentSketches ∨ c.holds target then
    if c.holds target then c
    else { c with ranges := KeyedList.put Prod.fst (target, Outcome.saturatingAdd 64 target 4096) c.ranges }
  else { c with candidateLimitReached := true }

end Candidates

def sweepInsn (space : AddressSpace) (c : Candidates) (i : Insn) : Outcome Candidates :=
  if i.flowControl = .call then do
    if ← Loader.isExecutableVa space i.nearBranchTarget then return c.addTarget i.nearBranchTarget else return c
  else return c

/-- The next start, or the last address. -/
def nextStart (after : List (Nat × Nat)) : Nat := (after.head?.map Prod.fst).getD (2 ^ 64 - 1)

/-- Where the range is cut, before these. -/
def stopOf (r : Nat × Nat) (after : List (Nat × Nat)) : Nat :=
  min (min r.2 (nextStart after)) (Outcome.saturatingAdd 64 r.1 (64 * 1024))

section Build
variable (decode : Nat → List UInt8 → Nat → Insn) (pe : LoadedPe)

/-- The instructions of the sweep, one executable section after the other. -/
def sweptInsns : List Insn :=
  (pe.sections.filter Section.isExecutable).flatMap fun s =>
    let start := s.rawAddr
    let stop := min (Outcome.saturatingAdd 64 start s.rawSize) pe.image.length
    if stop ≤ start then []
    else (decodeAll decode pe.bitness ((pe.image.take stop).drop start)
      (Outcome.saturatingAdd 64 pe.space.imageBase s.vaddr)).map Prod.snd

def sketchesOf : List (Nat × Nat) → Outcome (List WholeSketch)
  | [] => return []
  | r :: after => do
    let sketch ← Outcome.attempt (sketchRange decode pe.bitness pe.image pe.space r.1 (stopOf r after))
    let sketches ← sketchesOf after
    return sketch.toList ++ sketches

structure WholeImage where
  sketches : List WholeSketch
  decodedInstructions : Nat
  candidateLimitReached : Bool
  candidateLimit : Nat

def buildFromPath : Outcome WholeImage := do
  let runtime ← pe.runtime
  let seeded := runtime.entries.foldl Candidates.addRuntime (Candidates.start pe.entryVa)
  let c ← (sweptInsns decode pe).foldlM (sweepInsn pe.space) seeded
  let sketches ← sketchesOf decode pe c.ranges
  return {
    sketches := sketches.insertionSort fun a b => a.va ≤ b.va
    decodedInstructions := (sweptInsns decode pe).length
    candidateLimitReached := c.candidateLimitReached
    candidateLimit := maxResidentSketches }

/-! ## What the sketches should be -/

/-- The executable targets of the direct calls that the sweep meets. -/
def callTargets : List Nat :=
  ((sweptInsns decode pe).filter fun i =>
    i.flowControl = .call && Loader.isExecutableVa pe.space i.nearBranchTarget = .some true).map Insn.nearBranchTarget

/-- No other runtime function begins in the range of this one. -/
def OfItsOwn (entries : List RuntimeFunction) (e : RuntimeFunction) : Prop :=
  ∃ before after, entries = before ++ e :: after ∧
    ∀ other ∈ before ++ after, ¬ (e.beginVa ≤ other.beginVa ∧ other.beginVa < e.endVa)

structure SketchesExact (entries : List RuntimeFunction) (built : WholeImage) : Prop where
  increasing : built.sketches.Pairwise fun a b => a.va < b.va
  disjoint : built.sketches.Pairwise fun a b =>
    ∀ v, ¬ ((a.va ≤ v ∧ v < a.va + a.size) ∧ b.va ≤ v ∧ v < b.va + b.size)
  covered : built.candidateLimitReached = false → ∀ va,
    va ∈ callTargets decode pe ∨ va ∈ entries.map RuntimeFunction.beginVa → InFile pe.image pe.space va →
    ∃ sketch ∈ built.sketches, sketch.va = va
  whole : ∀ e, OfItsOwn entries e → ∃ sketch ∈ built.sketches, sketch.va = e.beginVa ∧
    sketch.size = min (e.endVa - e.beginVa) (64 * 1024)

/-- An address more, if there is room for it. -/
def keep (seen : List Nat) (va : Nat) : List Nat :=
  if va ∈ seen ∨ maxResidentSketches ≤ seen.length then seen else va :: seen

/-- The first distinct addresses of the entry point, the runtime functions and the call targets. -/
def residents (entries : List RuntimeFunction) : List Nat :=
  (entries.map RuntimeFunction.beginVa ++ callTargets decode pe).foldl keep [pe.entryVa]

/-- The runtime functions of their own have their first byte in the file, are among the first distinct addresses, and
have none of these inside. -/
def Uncut (entries : List RuntimeFunction) : Prop :=
  ∀ e, OfItsOwn entries e → InFile pe.image pe.space e.beginVa ∧ e.beginVa ∈ residents decode pe entries ∧
    ∀ va ∈ residents decode pe entries, ¬ (e.beginVa < va ∧ va < min e.endVa (e.beginVa + 64 * 1024))

end Build

/-! ## The map of ranges -/

section Filled
variable {entries : List RuntimeFunction} {c : Candidates} {seen offered : List Nat}

/-- The map after these addresses were put to it, among them the starts of these runtime functions. -/
structure Filled (entries : List RuntimeFunction) (seen offered : List Nat) (c : Candidates) : Prop where
  ordered : KeyedList.Ordered Prod.fst c.ranges
  keys : (c.ranges.map Prod.fst).Perm seen
  ends : ∀ r ∈ c.ranges, r.2 = Outcome.saturatingAdd 64 r.1 4096 ∨ ∃ e ∈ entries, r = (e.beginVa, e.endVa)
  declared : ∀ r ∈ c.ranges, ∀ e ∈ entries, e.beginVa = r.1 → ∃ e' ∈ entries, r = (e'.beginVa, e'.endVa)
  room : ∀ va ∈ offered, va ∈ seen ∨ c.candidateLimitReached = true ∧ maxResidentSketches ≤ seen.length
  begins : ∀ e ∈ entries, e.beginVa ∈ offered

theorem Filled.holds_iff (h : Filled entries seen offered c) (va : Nat) :
    c.holds va = true ↔ va ∈ seen := by
  rw [Candidates.holds, KeyedList.get_isSome_iff, ← h.keys.mem_iff, List.mem_map]

theorem Filled.length_eq (h : Filled entries seen offered c) : c.ranges.length = seen.length := by
  rw [← h.keys.length_eq, List.length_map]

theorem filled_start (entryVa : Nat) : Filled [] [entryVa] [entryVa] (Candidates.start entryVa) where
  ordered := List.pairwise_singleton _ _
  keys := List.Perm.refl _
  ends r hr := by
    obtain rfl := List.mem_singleton.mp hr
    exact .inl rfl
  declared _ _ e he := by cases he
  room va hva := .inl hva
  begins e he := by cases he

/-- What the keys are when a range is put into the map. -/
theorem Filled.keys_put (h : Filled entries seen offered c) (r : Nat × Nat)
    (hroom : r.1 ∈ seen ∨ seen.length < maxResidentSketches) :
    ((KeyedList.put Prod.fst r c.ranges).map Prod.fst).Perm (keep seen r.1) := by
  rw [keep]
  by_cases hmem : r.1 ∈ seen
  · rw [if_pos (.inl hmem), KeyedList.map_put h.ordered]
    · exact h.keys
    · exact List.mem_map.mp (h.keys.mem_iff.mpr hmem)
  · have hless := hroom.resolve_left hmem
    rw [if_neg (not_or.mpr ⟨hmem, Nat.not_le.mpr hless⟩)]
    have hnew : KeyedList.get Prod.fst r.1 c.ranges = none := by
      rw [← Option.not_isSome_iff_eq_none]
      exact fun hsome => hmem ((h.holds_iff r.1).mp hsome)
    exact ((KeyedList.perm_put hnew).map Prod.fst).trans (h.keys.cons r.1)

theorem subset_keep {va a : Nat} (h : a ∈ seen) : a ∈ keep seen va := by
  rw [keep]
  split
  · exact h
  · exact List.mem_cons_of_mem _ h

theorem length_le_keep (va : Nat) : seen.length ≤ (keep seen va).length := by
  rw [keep]
  split
  · exact Nat.le_refl _
  · exact Nat.le_succ _

theorem mem_keep_self {va : Nat} (hroom : va ∈ seen ∨ seen.length < maxResidentSketches) : va ∈ keep seen va := by
  rw [keep]
  split
  · rename_i hkept
    exact hkept.elim id fun hfull => hroom.resolve_right (Nat.not_lt.mpr hfull)
  · exact List.mem_cons_self

theorem keep_of_full {va : Nat} (hfull : maxResidentSketches ≤ seen.length) : keep seen va = seen := if_pos (.inr hfull)

/-- A range that is not put into a full map. -/
theorem Filled.full (h : Filled entries seen offered c) (va : Nat)
    (hfull : maxResidentSketches ≤ seen.length) :
    Filled entries (keep seen va) (offered ++ [va]) { c with candidateLimitReached := true } where
  ordered := h.ordered
  keys := by
    rw [keep_of_full hfull]
    exact h.keys
  ends := h.ends
  declared := h.declared
  room a ha := by
    rw [keep_of_full hfull]
    rcases List.mem_append.mp ha with ha | ha
    · exact (h.room a ha).imp_right fun hfull => ⟨rfl, hfull.2⟩
    · exact .inr ⟨rfl, hfull⟩
  begins e he := List.mem_append_left _ (h.begins e he)

theorem Filled.room_keep (h : Filled entries seen offered c) {va : Nat}
    (hroom : va ∈ seen ∨ seen.length < maxResidentSketches) : ∀ a ∈ offered ++ [va],
      a ∈ keep seen va ∨ c.candidateLimitReached = true ∧ maxResidentSketches ≤ (keep seen va).length := by
  intro a ha
  rcases List.mem_append.mp ha with ha | ha
  · exact (h.room a ha).imp subset_keep fun hfull => ⟨hfull.1, hfull.2.trans (length_le_keep va)⟩
  · obtain rfl := List.mem_singleton.mp ha
    exact .inl (mem_keep_self hroom)

theorem Filled.addRuntime (h : Filled entries seen offered c) (e : RuntimeFunction) :
    Filled (entries ++ [e]) (keep seen e.beginVa) (offered ++ [e.beginVa]) (c.addRuntime e) := by
  have hbegins : ∀ e' ∈ entries ++ [e], e'.beginVa ∈ offered ++ [e.beginVa] := by
    intro e' he'
    rcases List.mem_append.mp he' with he' | he'
    · exact List.mem_append_left _ (h.begins e' he')
    · obtain rfl := List.mem_singleton.mp he'
      exact List.mem_append_right _ List.mem_cons_self
  have hold : ∀ r : Nat × Nat, (∃ e' ∈ entries, r = (e'.beginVa, e'.endVa)) →
      ∃ e' ∈ entries ++ [e], r = (e'.beginVa, e'.endVa) :=
    fun r ⟨e', he', hr⟩ => ⟨e', List.mem_append_left _ he', hr⟩
  rw [Candidates.addRuntime, h.length_eq]
  by_cases hfull : maxResidentSketches ≤ seen.length ∧ (!c.holds e.beginVa) = true
  · rw [if_pos hfull]
    have hnew : e.beginVa ∉ seen := by
      rw [← h.holds_iff]
      simpa using hfull.2
    have hkept := h.full e.beginVa hfull.1
    refine ⟨hkept.ordered, hkept.keys, fun r hr => (h.ends r hr).imp_right (hold r), fun r hr e' he' heq => ?_,
      hkept.room, hbegins⟩
    rcases List.mem_append.mp he' with he' | he'
    · exact hold r (h.declared r hr e' he' heq)
    · obtain rfl := List.mem_singleton.mp he'
      exact absurd (h.keys.mem_iff.mp (List.mem_map.mpr ⟨r, hr, heq.symm⟩)) hnew
  · rw [if_neg hfull]
    have hroom : e.beginVa ∈ seen ∨ seen.length < maxResidentSketches := by
      rw [← h.holds_iff]
      simp only [Bool.not_eq_true', not_and_or, Bool.not_eq_false] at hfull
      exact hfull.elim (fun hless => .inr (Nat.not_le.mp hless)) .inl
    refine ⟨KeyedList.ordered_put _ h.ordered, h.keys_put (e.beginVa, e.endVa) hroom, fun r hr => ?_,
      fun r hr e' he' heq => ?_, h.room_keep hroom, hbegins⟩
    · rcases (KeyedList.mem_put h.ordered).mp hr with rfl | ⟨hr, -⟩
      · exact .inr ⟨e, List.mem_append_right _ List.mem_cons_self, rfl⟩
      · exact (h.ends r hr).imp_right (hold r)
    · rcases (KeyedList.mem_put h.ordered).mp hr with rfl | ⟨hr, hother⟩
      · exact ⟨e, List.mem_append_right _ List.mem_cons_self, rfl⟩
      · rcases List.mem_append.mp he' with he' | he'
        · exact hold r (h.declared r hr e' he' heq)
        · obtain rfl := List.mem_singleton.mp he'
          exact absurd heq.symm hother

theorem Filled.addTarget (h : Filled entries seen offered c) (va : Nat) :
    Filled entries (keep seen va) (offered ++ [va]) (c.addTarget va) := by
  have hbegins : ∀ e ∈ entries, e.beginVa ∈ offered ++ [va] := fun e he => List.mem_append_left _ (h.begins e he)
  rw [Candidates.addTarget, h.length_eq]
  by_cases hmem : va ∈ seen
  · have hholds := (h.holds_iff va).mpr hmem
    rw [if_pos (.inr hholds), if_pos hholds]
    have hkeep : keep seen va = seen := if_pos (.inl hmem)
    have hroom := h.room_keep (.inl hmem)
    rw [hkeep] at hroom ⊢
    exact ⟨h.ordered, h.keys, h.ends, h.declared, hroom, hbegins⟩
  · have hholds : ¬ c.holds va = true := fun hholds => hmem ((h.holds_iff va).mp hholds)
    by_cases hless : seen.length < maxResidentSketches
    · rw [if_pos (.inl hless), if_neg hholds]
      have hroom : va ∈ seen ∨ seen.length < maxResidentSketches := .inr hless
      refine ⟨KeyedList.ordered_put _ h.ordered, h.keys_put (va, Outcome.saturatingAdd 64 va 4096) hroom, fun r hr => ?_,
        fun r hr e he heq => ?_, h.room_keep hroom, hbegins⟩
      · rcases (KeyedList.mem_put h.ordered).mp hr with rfl | ⟨hr, -⟩
        · exact .inl rfl
        · exact h.ends r hr
      · rcases (KeyedList.mem_put h.ordered).mp hr with rfl | ⟨hr, -⟩
        · -- The start of a runtime function is in the map, or the map was full when it came.
          rcases h.room _ (h.begins e he) with hseen | hfull
          · rw [heq] at hseen
            exact absurd hseen hmem
          · omega
        · exact h.declared r hr e he heq
    · rw [if_neg (by simp [hless, hholds])]
      exact h.full va (Nat.not_lt.mp hless)

theorem Filled.addRuntimes (h : Filled entries seen offered c) (es : List RuntimeFunction) :
    Filled (entries ++ es) ((es.map RuntimeFunction.beginVa).foldl keep seen) (offered ++ es.map RuntimeFunction.beginVa)
      (es.foldl Candidates.addRuntime c) := by
  induction es generalizing entries seen offered c with
  | nil =>
    rw [List.map_nil, List.append_nil, List.append_nil]
    exact h
  | cons e es ih =>
    have hrest := ih (h.addRuntime e)
    rw [List.append_assoc, List.append_assoc] at hrest
    exact hrest

theorem Filled.addTargets (h : Filled entries seen offered c) (vas : List Nat) :
    Filled entries (vas.foldl keep seen) (offered ++ vas) (vas.foldl Candidates.addTarget c) := by
  induction vas generalizing seen offered c with
  | nil =>
    rw [List.append_nil]
    exact h
  | cons va vas ih =>
    have hrest := ih (h.addTarget va)
    rw [List.append_assoc] at hrest
    exact hrest

end Filled

section Sweep
variable {decode : Nat → List UInt8 → Nat → Insn} {pe : LoadedPe}

/-- The sweep adds the executable targets. -/
theorem sweep_some {space : AddressSpace} {insns : List Insn} {c c' : Candidates}
    (h : insns.foldlM (sweepInsn space) c = .some c') :
    c' = ((insns.filter fun i => i.flowControl = .call && Loader.isExecutableVa space i.nearBranchTarget = .some true).map
      Insn.nearBranchTarget).foldl Candidates.addTarget c := by
  induction insns generalizing c with
  | nil => exact (Outcome.some.inj h).symm
  | cons i insns ih =>
    rw [List.foldlM_cons] at h
    obtain ⟨next, hnext, hrest⟩ := Outcome.bind_eq_some.mp h
    rw [sweepInsn] at hnext
    by_cases hcall : i.flowControl = .call
    · rw [if_pos hcall] at hnext
      obtain ⟨executable, hexecutable, hnext⟩ := Outcome.bind_eq_some.mp hnext
      cases executable with
      | true =>
        cases hnext
        rw [List.filter_cons_of_pos (by simp [hcall, hexecutable])]
        exact ih hrest
      | false =>
        cases hnext
        rw [List.filter_cons_of_neg (by simp [hexecutable])]
        exact ih hrest
    · rw [if_neg hcall] at hnext
      cases hnext
      rw [List.filter_cons_of_neg (by simp [hcall])]
      exact ih hrest

/-- A range of the map and the sketch of it. -/
def SketchOf (decode : Nat → List UInt8 → Nat → Insn) (pe : LoadedPe) (ranges : List (Nat × Nat))
    (sketch : WholeSketch) : Prop :=
  ∃ before r after, ranges = before ++ r :: after ∧
    sketchRange decode pe.bitness pe.image pe.space r.1 (stopOf r after) = .some sketch

theorem nextStart_le {after : List (Nat × Nat)} (hord : KeyedList.Ordered Prod.fst after) {r : Nat × Nat} (hr : r ∈ after) :
    nextStart after ≤ r.1 := by
  cases after with
  | nil => cases hr
  | cons first after =>
    rcases List.mem_cons.mp hr with rfl | hr
    · exact Nat.le_refl _
    · exact Nat.le_of_lt ((List.pairwise_cons.mp hord).1 r hr)

theorem sketchesOf_some {ranges : List (Nat × Nat)} {sketches : List WholeSketch}
    (h : sketchesOf decode pe ranges = .some sketches) (sketch : WholeSketch) :
    sketch ∈ sketches ↔ SketchOf decode pe ranges sketch := by
  induction ranges generalizing sketches with
  | nil =>
    cases h
    refine iff_of_false List.not_mem_nil ?_
    rintro ⟨before, r, after, hsplit, -⟩
    simp at hsplit
  | cons r after ih =>
    rw [sketchesOf] at h
    obtain ⟨first, hfirst, h⟩ := Outcome.bind_eq_some.mp h
    obtain ⟨rest, hrest, h⟩ := Outcome.bind_eq_some.mp h
    cases h
    rw [List.mem_append, ih hrest]
    constructor
    · rintro (hmem | ⟨before, r', after', rfl, hsketch⟩)
      · cases Option.mem_toList.mp hmem
        exact ⟨[], r, after, rfl, Outcome.attempt_eq_some.mp hfirst⟩
      · exact ⟨r :: before, r', after', rfl, hsketch⟩
    · rintro ⟨before, r', after', hsplit, hsketch⟩
      cases before with
      | nil =>
        cases hsplit
        rw [← Outcome.attempt_eq_some, hfirst] at hsketch
        cases hsketch
        exact .inl (Option.mem_toList.mpr rfl)
      | cons _ before =>
        cases hsplit
        exact .inr ⟨before, r', after', rfl, hsketch⟩

/-- Each sketch ends before the next one starts. -/
theorem sketchesOf_pairwise {ranges : List (Nat × Nat)} {sketches : List WholeSketch}
    (h : sketchesOf decode pe ranges = .some sketches) (hord : KeyedList.Ordered Prod.fst ranges) :
    sketches.Pairwise fun a b => a.va < b.va ∧ a.va + a.size ≤ b.va := by
  induction ranges generalizing sketches with
  | nil =>
    cases h
    exact List.Pairwise.nil
  | cons r after ih =>
    rw [sketchesOf] at h
    obtain ⟨first, hfirst, h⟩ := Outcome.bind_eq_some.mp h
    obtain ⟨rest, hrest, h⟩ := Outcome.bind_eq_some.mp h
    cases h
    obtain ⟨-, hafter⟩ := List.pairwise_cons.mp hord
    have hpairwise := ih hrest hafter
    cases first with
    | none => exact hpairwise
    | some sketch =>
      obtain ⟨hlt, hva, hsize, -⟩ := sketchRange_eq_some (Outcome.attempt_eq_some.mp hfirst)
      refine List.pairwise_cons.mpr ⟨fun other hother => ?_, hpairwise⟩
      obtain ⟨before, r', after', hsplit, hsketch⟩ := (sketchesOf_some hrest other).mp hother
      obtain ⟨-, hva', -, -⟩ := sketchRange_eq_some hsketch
      have hmem : r' ∈ after := by
        rw [hsplit]
        exact List.mem_append_right _ List.mem_cons_self
      have hnext := nextStart_le hafter hmem
      have hstop : stopOf r after ≤ nextStart after := (Nat.min_le_left _ _).trans (Nat.min_le_right _ _)
      omega

end Sweep

section Built
variable {decode : Nat → List UInt8 → Nat → Insn} {pe : LoadedPe} {table : RuntimeFunctionTable} {built : WholeImage}

theorem executableRange_lt {space : AddressSpace} {beginRva endRva beginVa endVa : Nat}
    (h : Unwind.executableRange space beginRva endRva = .some (beginVa, endVa)) : beginVa < endVa ∧ endVa < 2 ^ 64 := by
  refine ⟨(Unwind.executableRange_some h).1, ?_⟩
  rw [Unwind.executableRange] at h
  split at h
  · cases h
  · obtain ⟨start, -, h⟩ := Outcome.bind_eq_some.mp h
    obtain ⟨stop, hstop, h⟩ := Outcome.bind_eq_some.mp h
    obtain ⟨s, -, h⟩ := Outcome.bind_eq_some.mp h
    split at h
    · cases h
    · obtain ⟨sectionStart, -, h⟩ := Outcome.bind_eq_some.mp h
      obtain ⟨sectionStop, -, h⟩ := Outcome.bind_eq_some.mp h
      split at h
      · cases h
        obtain ⟨hfits, hstop⟩ := Option.ite_none_right_eq_some.mp (Outcome.ofOption_eq_some.mp hstop)
        cases hstop
        exact hfits
      · cases h

theorem runtime_bounds (htable : pe.runtime = .some table) : ∀ e ∈ table.entries, e.beginVa < e.endVa ∧ e.endVa < 2 ^ 64 := by
  intro e he
  rw [LoadedPe.runtime] at htable
  split at htable
  · obtain ⟨parsed, hparsed, htable⟩ := Outcome.bind_eq_some.mp htable
    cases htable
    cases parsed with
    | none => cases he
    | some parsed =>
      obtain ⟨-, -, hranges⟩ := Unwind.parseRuntimeFunctions_some (Outcome.attempt_eq_some.mp hparsed)
      obtain ⟨record, -, beginRva, endRva, _, -, -, -, hrange, -⟩ := (hranges e.beginVa e.endVa).mp ⟨e, he, rfl, rfl⟩
      exact executableRange_lt hrange
  · cases htable
    cases he

/-- What is offered to the map. -/
def offers (decode : Nat → List UInt8 → Nat → Insn) (pe : LoadedPe) (entries : List RuntimeFunction) : List Nat :=
  [pe.entryVa] ++ entries.map RuntimeFunction.beginVa ++ callTargets decode pe

/-- The sketches are those of the filled map, in order. -/
theorem buildFromPath_some (hbuild : buildFromPath decode pe = .some built) (htable : pe.runtime = .some table) :
    ∃ c, Filled table.entries (residents decode pe table.entries) (offers decode pe table.entries) c ∧
      built.candidateLimitReached = c.candidateLimitReached ∧
      (∀ sketch, sketch ∈ built.sketches ↔ SketchOf decode pe c.ranges sketch) ∧
      built.sketches.Pairwise fun a b => a.va < b.va ∧ a.va + a.size ≤ b.va := by
  rw [buildFromPath, htable, Outcome.some_bind] at hbuild
  obtain ⟨c, hc, hbuild⟩ := Outcome.bind_eq_some.mp hbuild
  obtain ⟨sketches, hsketches, hbuild⟩ := Outcome.bind_eq_some.mp hbuild
  cases hbuild
  have hfilled := ((filled_start pe.entryVa).addRuntimes table.entries).addTargets (callTargets decode pe)
  rw [callTargets, ← sweep_some hc, ← callTargets, ← List.foldl_append] at hfilled
  have hpairwise := sketchesOf_pairwise hsketches hfilled.ordered
  have hsorted : (sketches.insertionSort fun a b => a.va ≤ b.va) = sketches :=
    (hpairwise.imp fun h => Nat.le_of_lt h.1).insertionSort_eq
  refine ⟨c, hfilled, rfl, ?_, ?_⟩
  · dsimp only
    rw [hsorted]
    exact sketchesOf_some hsketches
  · dsimp only
    rw [hsorted]
    exact hpairwise

theorem lt_top_of_inFile {image : List UInt8} {space : AddressSpace} {va : Nat} (h : InFile image space va) :
    va < 2 ^ 64 - 1 := by
  obtain ⟨offset, hoffset, -⟩ := h
  obtain ⟨s, hs, -⟩ := Outcome.bind_eq_some.mp hoffset
  have hcontains := (Loader.sectionAtVa_contains hs).2
  rw [Loader.sectionContainsVa_eq_true] at hcontains
  omega

/-- The next start is not in the way exactly when no start is. -/
theorem le_nextStart_iff {ranges before after : List (Nat × Nat)} {r : Nat × Nat} (hord : KeyedList.Ordered Prod.fst ranges)
    (hsplit : ranges = before ++ r :: after) {stop : Nat} (hstop : stop ≤ 2 ^ 64 - 1) :
    stop ≤ nextStart after ↔ ∀ va ∈ ranges.map Prod.fst, ¬ (r.1 < va ∧ va < stop) := by
  rw [hsplit] at hord
  obtain ⟨-, hrest, hbefore⟩ := List.pairwise_append.mp hord
  obtain ⟨-, hafter⟩ := List.pairwise_cons.mp hrest
  constructor
  · rintro hle va hva ⟨hlo, hhi⟩
    obtain ⟨other, hother, rfl⟩ := List.mem_map.mp hva
    rw [hsplit] at hother
    rcases List.mem_append.mp hother with hother | hother
    · have hlt := hbefore other hother r List.mem_cons_self
      omega
    · rcases List.mem_cons.mp hother with rfl | hother
      · omega
      · have hnext := nextStart_le hafter hother
        omega
  · intro hnone
    cases after with
    | nil => exact hstop
    | cons first after =>
      have hlt := (List.pairwise_cons.mp hrest).1 first List.mem_cons_self
      have hmem : first.1 ∈ ranges.map Prod.fst := by
        rw [hsplit]
        exact List.mem_map_of_mem (List.mem_append_right _ (List.mem_cons_of_mem _ List.mem_cons_self))
      have hfirst := hnone first.1 hmem
      change stop ≤ first.1
      omega

theorem exists_sketch (hdecodes : Decodes decode) {ranges : List (Nat × Nat)} (hord : KeyedList.Ordered Prod.fst ranges)
    {r : Nat × Nat} (hr : r ∈ ranges) (hend : r.1 < r.2) (hfile : InFile pe.image pe.space r.1) :
    ∃ before after, ranges = before ++ r :: after ∧ r.1 < stopOf r after ∧ ∃ sketch,
      sketchRange decode pe.bitness pe.image pe.space r.1 (stopOf r after) = .some sketch ∧ SketchOf decode pe ranges sketch := by
  obtain ⟨before, after, hsplit⟩ := List.append_of_mem hr
  have htop := lt_top_of_inFile hfile
  have hnext : r.1 + 1 ≤ nextStart after := (le_nextStart_iff hord hsplit (by omega)).mpr fun va _ hva => by omega
  have hlt : r.1 < stopOf r after := by
    rw [stopOf, Outcome.saturatingAdd]
    omega
  obtain ⟨bytes, hbytes, hsome⟩ := (inFile_iff pe.sized hlt).mp hfile
  obtain ⟨sketch, hsketch⟩ := @exists_sketchRange decode pe.bitness pe.image pe.space r.1
    (stopOf r after) hdecodes bytes hlt hbytes hsome
  exact ⟨before, after, hsplit, hlt, sketch, hsketch, before, r, after, hsplit, hsketch⟩

/-- The range of a runtime function of its own is the declared one. -/
theorem Filled.own_end {entries : List RuntimeFunction} {seen offered : List Nat} {c : Candidates}
    (h : Filled entries seen offered c) {e : RuntimeFunction} (hown : OfItsOwn entries e) (hlt : e.beginVa < e.endVa)
    {r : Nat × Nat} (hr : r ∈ c.ranges) (hbegin : r.1 = e.beginVa) : r.2 = e.endVa := by
  obtain ⟨before, after, hsplit, halone⟩ := hown
  have he : e ∈ entries := by
    rw [hsplit]
    exact List.mem_append_right _ List.mem_cons_self
  obtain ⟨e', he', rfl⟩ := h.declared r hr e he hbegin.symm
  rw [hsplit] at he'
  have hsame : e' = e := by
    by_contra hne
    have hother : e' ∈ before ++ after := by
      rcases List.mem_append.mp he' with he' | he'
      · exact List.mem_append_left _ he'
      · exact List.mem_append_right _ ((List.mem_cons.mp he').resolve_left hne)
    dsimp only at hbegin
    exact halone e' hother (by omega)
  rw [hsame]

/-- How long a range is where the next start is not in the way, with an end below the last address. -/
theorem length_of_cut {start stop next limit last : Nat} (hnext : min stop (start + limit) ≤ next) (hlast : stop ≤ last) :
    min (min stop next) (min (start + limit) last) - start = min (stop - start) limit := by
  omega

/-- A runtime function of its own is summarized over its whole range exactly when nothing cuts it. -/
theorem whole_iff (hdecodes : Decodes decode) {entries : List RuntimeFunction} {seen offered : List Nat} {c : Candidates}
    (h : Filled entries seen offered c) {e : RuntimeFunction} (hown : OfItsOwn entries e) (hlt : e.beginVa < e.endVa)
    (hend : e.endVa < 2 ^ 64) :
    (∃ sketch, SketchOf decode pe c.ranges sketch ∧ sketch.va = e.beginVa ∧
      sketch.size = min (e.endVa - e.beginVa) (64 * 1024)) ↔
    InFile pe.image pe.space e.beginVa ∧ e.beginVa ∈ seen ∧
      ∀ va ∈ seen, ¬ (e.beginVa < va ∧ va < min e.endVa (e.beginVa + 64 * 1024)) := by
  have hstop : min e.endVa (e.beginVa + 64 * 1024) ≤ 2 ^ 64 - 1 := by omega
  have hkeys : (∀ va ∈ seen, ¬ (e.beginVa < va ∧ va < min e.endVa (e.beginVa + 64 * 1024))) ↔
      ∀ va ∈ c.ranges.map Prod.fst, ¬ (e.beginVa < va ∧ va < min e.endVa (e.beginVa + 64 * 1024)) :=
    forall_congr' fun va => imp_congr_left h.keys.mem_iff.symm
  constructor
  · rintro ⟨sketch, ⟨before, r, after, hsplit, hsketch⟩, hva, hsize⟩
    obtain ⟨hlo, hstart, hlength, bytes, hbytes, hsome⟩ := sketchRange_eq_some hsketch
    have hbegin : r.1 = e.beginVa := hstart.symm.trans hva
    have hr : r ∈ c.ranges := by
      rw [hsplit]
      exact List.mem_append_right _ List.mem_cons_self
    refine ⟨?_, ?_, ?_⟩
    · rw [← hbegin]
      exact (inFile_iff pe.sized hlo).mpr ⟨bytes, hbytes, hsome⟩
    · rw [← hbegin, ← h.keys.mem_iff]
      exact List.mem_map_of_mem hr
    · rw [hkeys, ← hbegin]
      refine (le_nextStart_iff h.ordered hsplit (by omega)).mp ?_
      have hnext : stopOf r after ≤ nextStart after := (Nat.min_le_left _ _).trans (Nat.min_le_right _ _)
      omega
  · rintro ⟨hfile, hmem, hnone⟩
    obtain ⟨r, hr, hbegin⟩ := List.mem_map.mp (h.keys.mem_iff.mpr hmem)
    have hdeclared := h.own_end hown hlt hr hbegin
    rw [← hbegin] at hfile
    obtain ⟨before, after, hsplit, -, sketch, hsketch, hof⟩ := exists_sketch hdecodes h.ordered hr (by omega) hfile
    obtain ⟨-, hstart, hlength, -⟩ := sketchRange_eq_some hsketch
    rw [hkeys, ← hbegin] at hnone
    have hnext := (le_nextStart_iff h.ordered hsplit (by omega)).mpr hnone
    refine ⟨sketch, hof, hstart.trans hbegin, ?_⟩
    rw [hlength, stopOf, Outcome.saturatingAdd, hdeclared, ← hbegin]
    exact length_of_cut hnext (by omega)

/-- The sketches ascend, share no address and leave nothing out without a limit, always; the runtime functions of their
own are whole exactly when they are uncut. -/
theorem sketchesExact_iff (hdecodes : Decodes decode) (hbuild : buildFromPath decode pe = .some built)
    (htable : pe.runtime = .some table) :
    SketchesExact decode pe table.entries built ↔ Uncut decode pe table.entries := by
  obtain ⟨c, hfilled, hlimit, hsketches, hpairwise⟩ := buildFromPath_some hbuild htable
  have hbounds := runtime_bounds htable
  have hwhole : ∀ e, OfItsOwn table.entries e → ((∃ sketch ∈ built.sketches, sketch.va = e.beginVa ∧
      sketch.size = min (e.endVa - e.beginVa) (64 * 1024)) ↔
      InFile pe.image pe.space e.beginVa ∧ e.beginVa ∈ residents decode pe table.entries ∧
        ∀ va ∈ residents decode pe table.entries, ¬ (e.beginVa < va ∧ va < min e.endVa (e.beginVa + 64 * 1024))) := by
    intro e hown
    obtain ⟨before, after, hsplit, -⟩ := id hown
    have he : e ∈ table.entries := by
      rw [hsplit]
      exact List.mem_append_right _ List.mem_cons_self
    obtain ⟨hlt, hend⟩ := hbounds e he
    rw [← whole_iff hdecodes hfilled hown hlt hend]
    exact exists_congr fun sketch => and_congr_left fun _ => hsketches sketch
  refine ⟨fun hexact e hown => (hwhole e hown).mp (hexact.whole e hown), fun huncut =>
    ⟨hpairwise.imp fun h => h.1, hpairwise.imp fun h v hv => ?_, fun hroom va hva hfile => ?_,
      fun e hown => (hwhole e hown).mpr (huncut e hown)⟩⟩
  · have hapart := h.2
    omega
  · have hoffer : va ∈ offers decode pe table.entries :=
      hva.elim (List.mem_append_right _) fun hbegin => List.mem_append_left _ (List.mem_append_right _ hbegin)
    have hseen : va ∈ residents decode pe table.entries := by
      refine (hfilled.room va hoffer).resolve_right fun hfull => ?_
      rw [← hlimit, hroom] at hfull
      exact Bool.false_ne_true hfull.1
    obtain ⟨r, hr, rfl⟩ := List.mem_map.mp (hfilled.keys.mem_iff.mpr hseen)
    have htop := lt_top_of_inFile hfile
    have hend : r.1 < r.2 := by
      rcases hfilled.ends r hr with hdefault | ⟨e, he, rfl⟩
      · rw [hdefault, Outcome.saturatingAdd]
        omega
      · exact (hbounds e he).1
    obtain ⟨before, after, hsplit, -, sketch, hsketch, hof⟩ := exists_sketch hdecodes hfilled.ordered hr hend hfile
    exact ⟨sketch, (hsketches sketch).mpr hof, (sketchRange_eq_some hsketch).2.1⟩

/-- `call`, `ret`, and one byte for anything else. -/
def callDecode : Nat → List UInt8 → Nat → Insn := fun _ bytes ip =>
  match bytes with
  | 0xe8 :: near :: _ :: _ :: _ :: _ => ⟨5, .call, ip + 5 + near.toNat, .other, [], 0, .none⟩
  | 0xc3 :: _ => ⟨1, .ret, 0, .other, [], 0, .none⟩
  | _ => ⟨1, .next, 0, .other, [], 0, .none⟩

theorem decodes_callDecode : Decodes callDecode := by
  intro bitness bytes ip _
  unfold callDecode
  split
  · exact Nat.succ_pos 4
  · exact Nat.one_pos
  · exact Nat.one_pos

/-- The header with one runtime function from 1000h to 1018h, and this code for it. -/
def oneFunction (code : List UInt8) : LoadedPe where
  image := Unwind.oneRecordImage ++ code
  optionalHeader := some ⟨0x140000000, 0x1000, "PE32+"⟩
  sections := [⟨0x1000, 24, 244, 24, 0x60000020⟩, Unwind.recordSection]
  sized := ⟨by decide, by decide⟩

/-- Nothing but a return. -/
def quietCode : List UInt8 := 0xc3 :: List.replicate 23 0x90

/-- `call $+8`, a return, and the function behind it. -/
def callingCode : List UInt8 := [0xe8, 3, 0, 0, 0, 0xc3, 0x90, 0x90, 0xc3] ++ List.replicate 15 0x90

theorem runtime_oneFunction (code : List UInt8) (hcode : code = quietCode ∨ code = callingCode) :
    (oneFunction code).runtime = .some Unwind.oneEntry := by
  rcases hcode with rfl | rfl
  · decide +kernel
  · decide +kernel

theorem sketchesExact_quiet : ∃ built, buildFromPath callDecode (oneFunction quietCode) = .some built ∧
    SketchesExact callDecode (oneFunction quietCode) Unwind.oneEntry.entries built := by
  have hranges : (buildFromPath callDecode (oneFunction quietCode) >>= fun built =>
      Outcome.some (built.sketches.map fun sketch => (sketch.va, sketch.size))) = .some [(0x140001000, 0x18)] := by
    decide +kernel
  obtain ⟨built, hbuild, -⟩ := Outcome.bind_eq_some.mp hranges
  refine ⟨built, hbuild, (sketchesExact_iff decodes_callDecode hbuild (runtime_oneFunction _ (.inl rfl))).mpr ?_⟩
  have hresidents : residents callDecode (oneFunction quietCode) Unwind.oneEntry.entries = [0x140001000] := by decide +kernel
  have hoffset : Loader.vaToOffset (oneFunction quietCode).space 0x140001000 = .some 244 := by decide +kernel
  intro e hown
  obtain ⟨before, after, hsplit, -⟩ := hown
  have he : e ∈ Unwind.oneEntry.entries := by
    rw [hsplit]
    exact List.mem_append_right _ List.mem_cons_self
  cases List.mem_singleton.mp he
  rw [hresidents]
  refine ⟨⟨244, hoffset, by decide +kernel⟩, List.mem_cons_self, fun va hva => ?_⟩
  rw [List.mem_singleton.mp hva]
  exact fun h => Nat.lt_irrefl _ h.1

/-- A call into the runtime function cuts it to 8 bytes. -/
theorem called_not_whole : ∃ built, buildFromPath callDecode (oneFunction callingCode) = .some built ∧
    (oneFunction callingCode).runtime = .some Unwind.oneEntry ∧ built.candidateLimitReached = false ∧
    ¬ SketchesExact callDecode (oneFunction callingCode) Unwind.oneEntry.entries built := by
  have hranges : (buildFromPath callDecode (oneFunction callingCode) >>= fun built =>
      Outcome.some (built.candidateLimitReached, built.sketches.map fun sketch => (sketch.va, sketch.size))) =
      .some (false, [(0x140001000, 8), (0x140001008, 0x1000)]) := by
    decide +kernel
  obtain ⟨built, hbuild, hbuilt⟩ := Outcome.bind_eq_some.mp hranges
  obtain ⟨hlimit, hsketches⟩ := Prod.mk.inj (Outcome.some.inj hbuilt)
  refine ⟨built, hbuild, runtime_oneFunction _ (.inr rfl), hlimit, fun hexact => ?_⟩
  have hown : OfItsOwn Unwind.oneEntry.entries ⟨0x1000, 0x1018, 0x3000, 0x140001000, 0x140001018, 0x140003000, none⟩ :=
    ⟨[], [], rfl, fun _ hother => absurd hother List.not_mem_nil⟩
  obtain ⟨sketch, hmem, hva, hsize⟩ := hexact.whole _ hown
  have hpair := List.mem_map_of_mem (f := fun sketch : WholeSketch => (sketch.va, sketch.size)) hmem
  rw [hsketches, hva, hsize] at hpair
  revert hpair
  decide

end Built

end Windy.Sketch
