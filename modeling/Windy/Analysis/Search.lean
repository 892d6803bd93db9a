import Windy.Lib.Run
import Windy.Bel.Query
import Windy.Manager.Writer

/- The search over the instructions of a project (`analysis/search.rs`).

   A number is looked for among the immediate operands, everything else as a regular
   expression over the formatted instructions. Both indices are built by the first search that
   needs them and shared by every later snapshot of the project (`Analysis` in
   `analysis/mod.rs`). The immediates depend on the code only; the texts show the names of the
   symbols, which the operations of the project change. The disassembler is to be rebuilt when
   the symbol table changes, so that newly renamed symbols appear (`disasm/mod.rs`), and the
   search for numbers does so; the texts are never rebuilt.

   What is proved:
     1. `searchImmediate_exact_iff`: the search for numbers finds exactly the instructions that
        have the number as an immediate, just if no instruction has one only in the second
        8-bit immediate, which the index leaves out.
     2. `reflects_of_guarded`: in a run where no operation changes a text once the texts are
        cached, and the search that caches them is made while all snapshots in use show the
        same ones, every snapshot is searched as with a cold cache.

   Correspondence:
     `ImmediateSearchIndex::build`, `instruction_indices` ↔ `buildImmediates`, `instructionIndices`
     `InstructionSearchIndex::build` ↔ `buildTexts`
     `search_immediate`, `search_instructions_regex` ↔ the same
     `search_everything_bounded` ↔ `searchEverything`, its hits among the instructions
     `xs.partition_point(p)` ↔ `takeWhile` and `dropWhile`
   The formatter and the regular expressions are parameters. A formatter is given the names of
   the symbols and nothing else. The hits on symbols and strings are read off the snapshot and
   left out. -/
namespace Windy.TextSearch

open Bel (Text)

/-! ## Instructions -/

inductive OpKind where
  | immediate8
  | immediate8Second
  | immediate16
  | immediate32
  | immediate64
  | immediate8to16
  | immediate8to32
  | immediate8to64
  | immediate32to64
  | other
  deriving DecidableEq, Repr

/-- An instruction with the kind of each operand and `immediate(i)`. -/
structure Instr where
  ip : Nat
  operands : List (OpKind × Nat)
  operands_le : operands.length ≤ 5

/-- The kinds the index takes. -/
def isIndexed : OpKind → Bool
  | .immediate8 | .immediate16 | .immediate32 | .immediate64 => true
  | .immediate8to16 | .immediate8to32 | .immediate8to64 | .immediate32to64 => true
  | .immediate8Second | .other => false

def isImmediate : OpKind → Bool
  | .other => false
  | _ => true

/-- The number is among the immediate operands. -/
def HasImmediate (d : Instr) (value : Nat) : Prop := ∃ o ∈ d.operands, isImmediate o.1 ∧ o.2 = value

instance (d : Instr) (value : Nat) : Decidable (HasImmediate d value) :=
  inferInstanceAs (Decidable (∃ o ∈ d.operands, isImmediate o.1 ∧ o.2 = value))

/-- What does not change while a project is open. -/
structure Image where
  instrs : List Instr
  format : (Nat → Option String) → Instr → String
  /-- `Regex::new`, and a text as a case-insensitive expression -/
  regex : Text → Option (String → Bool)
  literal : Text → Option (String → Bool)

/-! ## The two indices -/

/-- `DEADLINE_CHECK_INTERVAL`. -/
def deadlineCheckInterval : Nat := 4096

/-- The first position where a deadline is found to have passed. -/
def stopsAt (expired : Nat → Bool) (length : Nat) : Option Nat :=
  (List.range length).find? fun i => i % deadlineCheckInterval = 0 && expired i

/-- The checks of a deadline while an index is built and while the texts are gone over. -/
structure Deadline where
  building : Nat → Bool
  scanning : Nat → Bool

def Deadline.never : Deadline := ⟨fun _ => false, fun _ => false⟩

@[simp] theorem stopsAt_never (length : Nat) : stopsAt (fun _ => false) length = none := by
  simp [stopsAt]

/-- A value is put behind those seen if it is indexed and new. -/
def see (seen : List Nat) (o : OpKind × Nat) : List Nat :=
  if isIndexed o.1 ∧ o.2 ∉ seen then seen ++ [o.2] else seen

/-- Every value once, in the order of the operands. -/
def seenValues (operands : List (OpKind × Nat)) : List Nat := operands.foldl see []

def postingLE (a b : Nat × Nat) : Bool := a.1 < b.1 || a.1 = b.1 && a.2 ≤ b.2

section Index
variable (img : Image)

def postings : List (Nat × Nat) :=
  (img.instrs.zipIdx.flatMap fun e => (seenValues e.1.operands).map fun v => (v, e.2)).mergeSort postingLE

def buildImmediates (expired : Nat → Bool) : Option (List (Nat × Nat)) :=
  match stopsAt expired img.instrs.length with
  | some _ => none
  | none => some (postings img)

def instructionIndices (sorted : List (Nat × Nat)) (value : Nat) : List (Nat × Nat) :=
  (sorted.takeWhile fun post => post.1 ≤ value).dropWhile fun post => post.1 < value

def textsOf (p : Project) : List String := img.instrs.map (img.format p.symbolName)

def buildTexts (p : Project) (expired : Nat → Bool) : Option (List String) :=
  match stopsAt expired img.instrs.length with
  | some _ => none
  | none => some (textsOf img p)

/-! ## Searching -/

/-- What the snapshots of a project share. -/
structure Caches where
  texts : Option (List String)
  immediates : Option (List (Nat × Nat))

def Caches.cold : Caches := ⟨none, none⟩

/-- The instructions found, with their texts, and whether the deadline passed. -/
structure Found where
  hits : List (Nat × String)
  timedOut : Bool
  deriving DecidableEq

def immediateHits (p : Project) (sorted : List (Nat × Nat)) (value : Nat) : List (Nat × String) :=
  (instructionIndices sorted value).filterMap fun post =>
    (img.instrs[post.2]?).map fun d => (d.ip, img.format p.symbolName d)

def searchImmediate (p : Project) (caches : Caches) (value : Nat) (deadline : Deadline) : Found × Caches :=
  match caches.immediates with
  | some sorted => (⟨immediateHits img p sorted value, false⟩, caches)
  | none =>
    match buildImmediates img deadline.building with
    | none => (⟨[], true⟩, caches)
    | some sorted => (⟨immediateHits img p sorted value, false⟩, { caches with immediates := some sorted })

/-- The texts that match, up to where the deadline is found to have passed. -/
def matching (matches? : String → Bool) (texts : List String) (expired : Nat → Bool) : Found :=
  let stop := stopsAt expired texts.length
  ⟨((((img.instrs.map Instr.ip).zip texts).take (stop.getD texts.length)).filter fun hit => matches? hit.2), stop.isSome⟩

def searchInstructionsRegex (p : Project) (caches : Caches) (matches? : String → Bool) (deadline : Deadline) : Found × Caches :=
  match caches.texts with
  | some texts => (matching img matches? texts deadline.scanning, caches)
  | none =>
    match buildTexts img p deadline.building with
    | none => (⟨[], true⟩, caches)
    | some texts => (matching img matches? texts deadline.scanning, { caches with texts := some texts })

def buildRegex (query : Text) : Option (String → Bool) :=
  match query with
  | '/' :: pattern => img.regex pattern
  | _ => img.literal query

def searchEverything (p : Project) (caches : Caches) (query : Text) (deadline : Deadline) : Found × Caches :=
  if query = [] then (⟨[], false⟩, caches)
  else
    match Bel.parseNumber query with
    | some value => searchImmediate img p caches value deadline
    | none =>
      match buildRegex img query with
      | some matches? => searchInstructionsRegex img p caches matches? deadline
      | none => (⟨[], false⟩, caches)

end Index

/-! ## The search for numbers -/

section Values
variable (operands : List (OpKind × Nat)) (seen : List Nat)

theorem mem_see {v : Nat} {o : OpKind × Nat} : v ∈ see seen o ↔ v ∈ seen ∨ isIndexed o.1 ∧ o.2 = v := by
  unfold see
  by_cases htake : isIndexed o.1 ∧ o.2 ∉ seen
  · simp [htake, eq_comm (a := v)]
  · rw [if_neg htake]
    refine ⟨Or.inl, fun h => h.elim id fun ⟨hindexed, heq⟩ => ?_⟩
    by_contra hnew
    exact htake ⟨hindexed, heq ▸ hnew⟩

theorem nodup_see {o : OpKind × Nat} (h : seen.Nodup) : (see seen o).Nodup := by
  unfold see
  split
  next hnew =>
    refine List.nodup_append.mpr ⟨h, List.nodup_singleton _, fun a ha b hb => ?_⟩
    rintro rfl
    exact hnew.2 (List.mem_singleton.mp hb ▸ ha)
  next => exact h

theorem mem_seen_from {v : Nat} : v ∈ operands.foldl see seen ↔ v ∈ seen ∨ ∃ o ∈ operands, isIndexed o.1 ∧ o.2 = v := by
  induction operands generalizing seen with
  | nil => simp
  | cons o operands ih => rw [List.foldl_cons, ih, mem_see, List.exists_mem_cons_iff, or_assoc]

theorem nodup_seen_from (h : seen.Nodup) : (operands.foldl see seen).Nodup := by
  induction operands generalizing seen with
  | nil => exact h
  | cons o operands ih => exact ih _ (nodup_see seen h)

theorem mem_seenValues {v : Nat} : v ∈ seenValues operands ↔ ∃ o ∈ operands, isIndexed o.1 ∧ o.2 = v := by
  unfold seenValues
  rw [mem_seen_from]
  simp

theorem nodup_seenValues : (seenValues operands).Nodup := nodup_seen_from operands [] List.nodup_nil

/-- A value has one posting for an instruction, or none. -/
theorem filter_postings_of (i value : Nat) :
    ((seenValues operands).map fun v => (v, i)).filter (fun post => post.1 = value) =
      (if value ∈ seenValues operands then some (value, i) else none).toList := by
  have hself : ((fun post : Nat × Nat => decide (post.1 = value)) ∘ fun v => (v, i)) = fun v => decide (v = value) := rfl
  rw [List.filter_map, hself, List.filter_eq, (nodup_seenValues operands).count]
  split <;> rfl

end Values

section Postings
variable {sorted : List (Nat × Nat)} {value : Nat}

/-- The part of a sorted list that has the number. -/
theorem instructionIndices_eq (h : sorted.Pairwise fun a b => a.1 ≤ b.1) :
    instructionIndices sorted value = sorted.filter fun post => post.1 = value := by
  unfold instructionIndices
  induction sorted with
  | nil => rfl
  | cons a sorted ih =>
    obtain ⟨hhead, htail⟩ := List.pairwise_cons.mp h
    rcases Nat.lt_trichotomy a.1 value with hlt | heq | hgt
    · rw [List.takeWhile_cons_of_pos (by simpa using hlt.le), List.dropWhile_cons_of_pos (by simpa using hlt), ih htail,
        List.filter_cons_of_neg (by simpa using hlt.ne)]
    · rw [List.takeWhile_cons_of_pos (by simpa using heq.le), List.dropWhile_cons_of_neg (by simp [heq]),
        List.filter_cons_of_pos (by simpa using heq), ← ih htail]
      congr 1
      -- Nothing behind `a` is below the number.
      cases htaken : sorted.takeWhile fun post => post.1 ≤ value with
      | nil => rfl
      | cons b taken =>
        have hmem : b ∈ sorted := (List.takeWhile_sublist _).subset (htaken ▸ List.mem_cons_self)
        rw [List.dropWhile_cons_of_neg (by simpa [heq] using hhead b hmem)]
    · rw [List.takeWhile_cons_of_neg (by simpa using hgt), List.dropWhile_nil, List.filter_cons_of_neg (by simpa using hgt.ne')]
      symm
      rw [List.filter_eq_nil_iff]
      intro post hpost
      have := hhead post hpost
      simpa using (by omega : post.1 ≠ value)

theorem postingLE_iff {a b : Nat × Nat} : postingLE a b = true ↔ a.1 < b.1 ∨ a.1 = b.1 ∧ a.2 ≤ b.2 := by
  simp [postingLE]

theorem pairwise_mergeSort_postings (posts : List (Nat × Nat)) : (posts.mergeSort postingLE).Pairwise fun a b => postingLE a b := by
  apply List.pairwise_mergeSort
  · intro a b c hab hbc
    rw [postingLE_iff] at *
    omega
  · intro a b
    rw [Bool.or_eq_true, postingLE_iff, postingLE_iff]
    omega

variable (img : Image)

/-- The postings of a number are the instructions that have it, in their order. -/
theorem postings_filter (value : Nat) :
    (postings img).filter (fun post => post.1 = value) =
      img.instrs.zipIdx.filterMap fun e => if value ∈ seenValues e.1.operands then some (value, e.2) else none := by
  have hperm : ((postings img).filter fun post => post.1 = value).Perm
      (img.instrs.zipIdx.filterMap fun e => if value ∈ seenValues e.1.operands then some (value, e.2) else none) := by
    refine ((List.mergeSort_perm _ _).filter _).trans (List.Perm.of_eq ?_)
    rw [List.filter_flatMap, List.filterMap_eq_flatMap_toList]
    exact congrArg img.instrs.zipIdx.flatMap (funext fun e => filter_postings_of e.1.operands e.2 value)
  -- Both are sorted: the one on the right by the positions.
  have hleft : ((postings img).filter fun post => post.1 = value).Pairwise fun a b => postingLE a b :=
    (pairwise_mergeSort_postings _).sublist List.filter_sublist
  have hright : (img.instrs.zipIdx.filterMap fun e => if value ∈ seenValues e.1.operands then some (value, e.2) else none).Pairwise
      fun a b => postingLE a b := by
    have hpositions : img.instrs.zipIdx.Pairwise fun a b => a.2 < b.2 := by
      rw [← List.pairwise_map (f := Prod.snd) (R := fun a b : Nat => a < b), List.zipIdx_map_snd]
      exact List.pairwise_lt_range'
    rw [List.pairwise_filterMap]
    refine hpositions.imp fun {a b} hlt post hpost post' hpost' => ?_
    obtain ⟨-, hpost⟩ := Option.ite_none_right_eq_some.mp hpost
    obtain ⟨-, hpost'⟩ := Option.ite_none_right_eq_some.mp hpost'
    obtain rfl := Option.some.inj hpost
    obtain rfl := Option.some.inj hpost'
    exact postingLE_iff.mpr (Or.inr ⟨rfl, hlt.le⟩)
  refine List.Perm.eq_of_pairwise (fun a b _ _ hab hba => ?_) hleft hright hperm
  rw [postingLE_iff] at hab hba
  exact Prod.ext (by omega) (by omega)

/-- What the search for a number finds. -/
theorem immediateHits_postings (p : Project) (value : Nat) :
    immediateHits img p (postings img) value =
      (img.instrs.filter fun d => value ∈ seenValues d.operands).map fun d => (d.ip, img.format p.symbolName d) := by
  have hsorted : (postings img).Pairwise fun a b => a.1 ≤ b.1 := by
    refine (pairwise_mergeSort_postings _).imp fun {a b} hab => ?_
    have := postingLE_iff.mp hab
    omega
  unfold immediateHits
  rw [instructionIndices_eq hsorted, postings_filter, List.filterMap_filterMap]
  have hat : ∀ e ∈ img.instrs.zipIdx, ((if value ∈ seenValues e.1.operands then some (value, e.2) else none).bind
      fun post => (img.instrs[post.2]?).map fun d => (d.ip, img.format p.symbolName d)) =
        if value ∈ seenValues e.1.operands then some (e.1.ip, img.format p.symbolName e.1) else none := by
    intro e he
    have hget : img.instrs[e.2]? = some e.1 := List.mem_zipIdx_iff_getElem?.mp he
    split
    · simp [hget]
    · rfl
  rw [List.filterMap_congr hat]
  conv_rhs => rw [← List.zipIdx_map_fst 0 img.instrs]
  generalize img.instrs.zipIdx = entries
  induction entries with
  | nil => rfl
  | cons e entries ih => by_cases hvalue : value ∈ seenValues e.1.operands <;> simp [hvalue, ih]

end Postings

/-- No instruction has a number only as its second 8-bit immediate. -/
def SecondRepeated (img : Image) : Prop :=
  ∀ d ∈ img.instrs, ∀ value, (.immediate8Second, value) ∈ d.operands → ∃ o ∈ d.operands, isIndexed o.1 ∧ o.2 = value

section Exact
variable (img : Image) (p : Project)

/-- The instructions that have the number, with their texts. -/
def holders (value : Nat) : List (Nat × String) :=
  (img.instrs.filter fun d => HasImmediate d value).map fun d => (d.ip, img.format p.symbolName d)

theorem HasImmediate.of_seen {d : Instr} {value : Nat} (h : value ∈ seenValues d.operands) : HasImmediate d value := by
  obtain ⟨o, ho, hindexed, hvalue⟩ := (mem_seenValues d.operands).mp h
  refine ⟨o, ho, ?_, hvalue⟩
  cases hkind : o.1 <;> simp_all [isIndexed, isImmediate]

theorem isIndexed_of_isImmediate {kind : OpKind} (h : isImmediate kind) : isIndexed kind ∨ kind = .immediate8Second := by
  cases kind <;> simp_all [isIndexed, isImmediate]

theorem searchImmediate_hits (value : Nat) :
    (searchImmediate img p .cold value .never).1.hits =
      (img.instrs.filter fun d => value ∈ seenValues d.operands).map fun d => (d.ip, img.format p.symbolName d) := by
  have hbuild : buildImmediates img Deadline.never.building = some (postings img) := by
    simp [buildImmediates, Deadline.never]
  simp only [searchImmediate, Caches.cold, hbuild]
  exact immediateHits_postings img p value

/-- The search for numbers is exact just if what is left out is there a second time. -/
theorem searchImmediate_exact_iff :
    (∀ value, (searchImmediate img p .cold value .never).1.hits = holders img p value) ↔ SecondRepeated img := by
  constructor
  · intro h d hd value hsecond
    have hhas : HasImmediate d value := ⟨_, hsecond, rfl, rfl⟩
    have hlength := congrArg List.length ((searchImmediate_hits img p value).symm.trans (h value))
    rw [holders, List.length_map, List.length_map] at hlength
    -- Nothing is found that does not have the number, so nothing is missing.
    have hnested : img.instrs.filter (fun d => value ∈ seenValues d.operands) =
        (img.instrs.filter fun d => HasImmediate d value).filter fun d => value ∈ seenValues d.operands := by
      rw [List.filter_filter]
      refine List.filter_congr fun d _ => ?_
      by_cases hseen : value ∈ seenValues d.operands
      · simp [hseen, HasImmediate.of_seen hseen]
      · simp [hseen]
    rw [hnested] at hlength
    have hall := List.length_filter_eq_length_iff.mp hlength d (List.mem_filter.mpr ⟨hd, by simpa using hhas⟩)
    exact (mem_seenValues d.operands).mp (by simpa using hall)
  · intro h value
    rw [searchImmediate_hits, holders]
    congr 1
    refine List.filter_congr fun d hd => ?_
    rw [decide_eq_decide]
    refine ⟨HasImmediate.of_seen, fun ⟨o, ho, himmediate, hvalue⟩ => (mem_seenValues d.operands).mpr ?_⟩
    rcases isIndexed_of_isImmediate himmediate with hindexed | hsecond
    · exact ⟨o, ho, hindexed, hvalue⟩
    · exact h d hd value (by rw [← hsecond, ← hvalue]; exact ho)

end Exact

/-! ## Operations and searches in any order -/

structure State where
  writer : Writer
  snapshots : Nat → Option Project
  caches : Caches

inductive Action where
  | request (turn : WriteRequest × Bool)
  | load (r : Nat)
  | drop (r : Nat)
  | search (r : Nat) (query : Text) (deadline : Deadline)

def State.start (w : Writer) : State := ⟨w, fun _ => none, Caches.cold⟩

def step (img : Image) (s : State) : Action → Option State
  | .request turn => some { s with writer := s.writer.handle turn }
  | .load r => some { s with snapshots := Function.update s.snapshots r (some s.writer.project) }
  | .drop r => some { s with snapshots := Function.update s.snapshots r none }
  | .search r query deadline =>
    (s.snapshots r).map fun p => { s with caches := (searchEverything img p s.caches query deadline).2 }

/-- A search of any snapshot finds what it would with nothing cached, and a number is found in
exactly the instructions that have it. -/
structure Reflects (img : Image) (s : State) : Prop where
  fresh : ∀ r p, s.snapshots r = some p → ∀ query,
    (searchEverything img p s.caches query .never).1 = (searchEverything img p .cold query .never).1
  exact : ∀ r p, s.snapshots r = some p → ∀ query value, Bel.parseNumber query = some value →
    (searchEverything img p s.caches query .never).1.hits = holders img p value

/-- The search builds the texts: none are cached, and it is neither for nothing nor for a
number. -/
def Fills (img : Image) (s : State) (query : Text) (deadline : Deadline) : Prop :=
  s.caches.texts = none ∧ query ≠ [] ∧ Bel.parseNumber query = none ∧ (buildRegex img query).isSome ∧
    stopsAt deadline.building img.instrs.length = none

/-- Once texts are cached an operation leaves all texts as they are; and they are cached while
the project and the snapshots in use have the same ones. -/
def Meets (img : Image) (s : State) : Action → Prop
  | .request turn => s.caches.texts.isSome → textsOf img (s.writer.handle turn).project = textsOf img s.writer.project
  | .search r query deadline => Fills img s query deadline → ∀ p, s.snapshots r = some p →
      textsOf img s.writer.project = textsOf img p ∧ ∀ r' p', s.snapshots r' = some p' → textsOf img p' = textsOf img p
  | _ => True

/-! ## What every run keeps -/

section Runs
variable {img : Image} {s : State}

/-- What is cached is what the live project and every snapshot in use would cache. -/
structure Coherent (img : Image) (s : State) : Prop where
  live : ∀ texts, s.caches.texts = some texts → textsOf img s.writer.project = texts
  snapshots : ∀ texts, s.caches.texts = some texts → ∀ r p, s.snapshots r = some p → textsOf img p = texts
  immediates : ∀ sorted, s.caches.immediates = some sorted → sorted = postings img

theorem searchImmediate_caches {p : Project} {caches : Caches} {value : Nat} {deadline : Deadline}
    (h : ∀ sorted, caches.immediates = some sorted → sorted = postings img) :
    (searchImmediate img p caches value deadline).2.texts = caches.texts ∧
      ∀ sorted, (searchImmediate img p caches value deadline).2.immediates = some sorted → sorted = postings img := by
  unfold searchImmediate
  split
  next => exact ⟨rfl, h⟩
  next =>
    split
    next => exact ⟨rfl, h⟩
    next sorted hbuild =>
      refine ⟨rfl, fun sorted' hsorted' => ?_⟩
      obtain rfl := Option.some.inj hsorted'
      unfold buildImmediates at hbuild
      split at hbuild
      · cases hbuild
      · exact (Option.some.inj hbuild).symm

/-- A search leaves the texts, or caches those of its snapshot. -/
theorem searchEverything_texts {p : Project} {query : Text} {deadline : Deadline} {texts : List String}
    (h : (searchEverything img p s.caches query deadline).2.texts = some texts) :
    s.caches.texts = some texts ∨ Fills img s query deadline ∧ texts = textsOf img p := by
  unfold searchEverything at h
  split at h
  next => exact Or.inl h
  next hquery =>
    split at h
    next value hnumber =>
      refine Or.inl ?_
      unfold searchImmediate at h
      repeat' split at h
      all_goals exact h
    next hnumber =>
      split at h
      next matches? hregex =>
        unfold searchInstructionsRegex at h
        split at h
        next => exact Or.inl h
        next hnone =>
          unfold buildTexts at h
          cases hstop : stopsAt deadline.building img.instrs.length with
          | some i =>
            simp only [hstop, hnone, reduceCtorEq] at h
          | none =>
            simp only [hstop, Option.some.injEq] at h
            exact Or.inr ⟨⟨hnone, hquery, hnumber, by rw [hregex]; rfl, hstop⟩, h.symm⟩
      next => exact Or.inl h

theorem searchEverything_immediates {p : Project} {caches : Caches} {query : Text} {deadline : Deadline}
    (h : ∀ sorted, caches.immediates = some sorted → sorted = postings img) :
    ∀ sorted, (searchEverything img p caches query deadline).2.immediates = some sorted → sorted = postings img := by
  unfold searchEverything
  split
  next => exact h
  next =>
    split
    next => exact (searchImmediate_caches h).2
    next =>
      split
      next =>
        unfold searchInstructionsRegex
        repeat' split
        all_goals exact h
      next => exact h

theorem coherent_step {a : Action} {s' : State} (h : Coherent img s) (hmeets : Meets img s a)
    (hstep : step img s a = some s') : Coherent img s' := by
  cases a with
  | request turn =>
    obtain rfl := Option.some.inj hstep
    refine ⟨fun texts htexts => ?_, h.snapshots, h.immediates⟩
    exact (hmeets (by rw [show s.caches.texts = some texts from htexts]; rfl)).trans (h.live texts htexts)
  | load r =>
    obtain rfl := Option.some.inj hstep
    refine ⟨h.live, fun texts htexts r' p hp => ?_, h.immediates⟩
    by_cases hr : r' = r
    · subst hr
      obtain rfl : s.writer.project = p := by simpa using hp
      exact h.live texts htexts
    · exact h.snapshots texts htexts r' p (by simpa [hr] using hp)
  | drop r =>
    obtain rfl := Option.some.inj hstep
    refine ⟨h.live, fun texts htexts r' p hp => ?_, h.immediates⟩
    by_cases hr : r' = r
    · subst hr
      simp at hp
    · exact h.snapshots texts htexts r' p (by simpa [hr] using hp)
  | search r query deadline =>
    obtain ⟨p, hp, rfl⟩ := Option.map_eq_some_iff.mp hstep
    have htexts : ∀ texts, (searchEverything img p s.caches query deadline).2.texts = some texts →
        textsOf img s.writer.project = texts ∧ ∀ r p, s.snapshots r = some p → textsOf img p = texts := by
      intro texts hcached
      rcases searchEverything_texts hcached with hold | ⟨hfills, rfl⟩
      · exact ⟨h.live texts hold, h.snapshots texts hold⟩
      · exact hmeets hfills p hp
    exact ⟨fun texts hcached => (htexts texts hcached).1, fun texts hcached => (htexts texts hcached).2,
      searchEverything_immediates h.immediates⟩

/-- With coherent caches a search answers as a cold one. -/
theorem searchEverything_eq_cold (h : Coherent img s) {r : Nat} {p : Project} (hp : s.snapshots r = some p) (query : Text) :
    (searchEverything img p s.caches query .never).1 = (searchEverything img p .cold query .never).1 := by
  unfold searchEverything
  split
  next => rfl
  next =>
    split
    next value =>
      unfold searchImmediate
      cases hcached : s.caches.immediates with
      | none => simp [Caches.cold, buildImmediates, Deadline.never]
      | some sorted => simp [Caches.cold, buildImmediates, Deadline.never, h.immediates sorted hcached]
    next =>
      split
      next matches? =>
        unfold searchInstructionsRegex
        cases hcached : s.caches.texts with
        | none => simp [Caches.cold, buildTexts, Deadline.never]
        | some texts => simp [Caches.cold, buildTexts, Deadline.never, h.snapshots texts hcached r p hp]
      next => rfl

theorem parseNumber_ne_nil {query : Text} {value : Nat} (h : Bel.parseNumber query = some value) : query ≠ [] := by
  rintro rfl
  cases h

theorem reflects_of_coherent (hsecond : SecondRepeated img) (h : Coherent img s) : Reflects img s := by
  refine ⟨fun r p hp query => searchEverything_eq_cold h hp query, fun r p hp query value hnumber => ?_⟩
  rw [searchEverything_eq_cold h hp query, ← (searchImmediate_exact_iff img p).mpr hsecond value]
  simp only [searchEverything, parseNumber_ne_nil hnumber, if_false, hnumber]

end Runs

theorem reflects_of_guarded (img : Image) (hsecond : SecondRepeated img) (w : Writer) (actions : List Action) (s : State)
    (hrun : Run.Guarded (step img) (Meets img) (State.start w) actions s) : Reflects img s := by
  have hstart : Coherent img (State.start w) := by
    refine ⟨fun texts h => ?_, fun texts h => ?_, fun sorted h => ?_⟩ <;> cases h
  exact reflects_of_coherent hsecond (hrun.inv (fun _ _ _ h hmeets hstep => coherent_step h hmeets hstep) hstart)

/-! ## A rename between two searches -/

/-- One call of the function at 0x2000, and expressions that match everything. -/
def callImage : Image where
  instrs := [⟨0x1000, [], by decide⟩]
  format names _ := "call " ++ (names 0x2000).getD "2000h"
  regex _ := some fun _ => true
  literal _ := some fun _ => true

def opened : Writer :=
  { project :=
      { symbols := ∅, comments := { byAddr := ∅, byFunction := ∅ }, typedGlobals := ∅, functionSignatures := ∅,
        functionFrames := ∅, functionMemory := ∅, aliasHistory := [], focus := none, opSeq := 0, functions := ∅ }
    disk := { idb := none, journal := [] }
    history := ∅ }

/-- A search, an operation, and a second snapshot. -/
def searchEditLoad (op : Op) : List Action :=
  [.load 0, .search 0 ['/'] .never, .request (.apply "ui" op, false), .load 1]

/-- A comment leaves the texts. -/
theorem reflects_after_comment :
    SecondRepeated callImage ∧
      ∃ s, Run.exec (step callImage) (State.start opened) (searchEditLoad (.setComment 0x1000 .address "entry" none)) = some s ∧
        Reflects callImage s := by
  have hsecond : SecondRepeated callImage := by
    intro d hd value hvalue
    obtain rfl := List.mem_singleton.mp hd
    cases hvalue
  refine ⟨hsecond, _, rfl, reflects_of_guarded callImage hsecond opened
    (searchEditLoad (.setComment 0x1000 .address "entry" none)) _ ?_⟩
  refine .cons True.intro rfl (.cons ?_ rfl (.cons (fun _ => rfl) rfl (.cons True.intro rfl (.nil _))))
  rintro - p hp
  obtain rfl := Option.some.inj hp
  refine ⟨rfl, fun r' p' hp' => ?_⟩
  by_cases hr : r' = 0
  · subst hr
    obtain rfl := Option.some.inj hp'
    rfl
  · simp [State.start, Function.update_of_ne hr] at hp'

/-- A name for the callee is not shown. -/
theorem rename_not_reflected :
    ∃ s, Run.exec (step callImage) (State.start opened) (searchEditLoad (.renameSymbol 0x2000 "helper" .user none none)) = some s ∧
      ¬ Reflects callImage s := by
  refine ⟨_, rfl, fun h => ?_⟩
  have hfresh := h.fresh 1 _ rfl ['/']
  have hhits := congrArg Found.hits hfresh
  have hshown : [((0x1000 : Nat), "call 2000h")] = [(0x1000, "call helper")] := hhits
  exact absurd hshown (by decide)

end Windy.TextSearch
