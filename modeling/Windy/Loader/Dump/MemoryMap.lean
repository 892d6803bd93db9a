import Mathlib.Data.List.Perm.Basic
import Mathlib.Data.List.Sort
import Windy.Lib.Bisect
import Windy.Lib.Outcome

/- The memory of a dumped process (`loader/dump/memory_map.rs`).

   A dump stores ranges of the address space. They are sorted by their first addresses, and
   neighbours that adjoin in memory and in the dump are merged into one. A read looks for the
   first range that ends behind the address and takes what it has from there on: all of the
   bytes, some of them (`Partial`, "then a gap"), or none (`Unmapped`).

   The search is a binary search for the ends, on a list that is sorted by the starts. Ends
   saturate, so a range never ends behind the last address. Two ranges that adjoin in memory
   only stay two.

   A range is where its bytes are in the dump. Of the sort it is used that the starts ascend,
   of the binary search that its answer is a cut: a place where a range that ends at or below
   the address is followed by one that ends above. If the ends ascend there is one such place.

   What is proved: the bytes that are read are those of the dump (`readFrom_stored`), the lookup
   is exact at an address, whatever the sort and the search do, exactly when what the dump has
   there is behind every cut (`memoryExact_iff`), and it is exact at every address exactly when
   no range runs up to the last address and the ends, where they step up, step over addresses
   that no region has (`mapExact_iff`).

   Correspondence:
     `merge_adjacent` ↔ the same
     `ProcessMemoryMap::from_unified` ↔ `MapOf`
     `read_at`, `slice_from_region`, `contains_va` ↔ the same -/
namespace Windy.MemoryMap

/-- A range of memory; `data` is the offset of its first byte in the dump. -/
structure IndexedRegion where
  vaStart : Nat
  size : Nat
  data : Nat
  deriving DecidableEq, Repr

namespace IndexedRegion

/-- `va_start.saturating_add(size)`. -/
def stop (r : IndexedRegion) : Nat := Outcome.saturatingAdd 64 r.vaStart r.size

/-- The range has the address. -/
def Has (r : IndexedRegion) (va : Nat) : Prop := r.vaStart ≤ va ∧ va < r.vaStart + r.size

end IndexedRegion

inductive ReadStatus where
  | ok (bytes : List UInt8)
  | partialBytes (bytes : List UInt8)
  | unmapped
  deriving DecidableEq, Repr

/-! ## The map -/

/-- The loop of `merge_adjacent`, with the range that still grows. -/
def mergeFrom (cur : IndexedRegion) : List IndexedRegion → List IndexedRegion
  | [] => [cur]
  | next :: rest =>
    let curEnd := cur.stop
    let curDataEnd := cur.data + cur.size
    if next.vaStart = curEnd ∧ next.data = curDataEnd then
      mergeFrom { cur with size := Outcome.saturatingAdd 64 cur.size next.size } rest
    else cur :: mergeFrom next rest

def mergeAdjacent : List IndexedRegion → List IndexedRegion
  | [] => []
  | first :: rest => mergeFrom first rest

/-- The regions of a map, for one of the orders that the sort may leave. -/
def MapOf (regions merged : List IndexedRegion) : Prop :=
  ∃ sorted, sorted.Perm (regions.filter fun r => r.size ≠ 0) ∧ (sorted.Pairwise fun a b => a.vaStart ≤ b.vaStart) ∧
    merged = mergeAdjacent sorted

section Read
variable (search : Bisect.Bisection) (dump : List UInt8) (regions : List IndexedRegion)

def sliceFromRegion (r : IndexedRegion) (va len : Nat) : ReadStatus :=
  let offset := va - r.vaStart
  let avail := r.size - offset
  if avail = 0 then .unmapped
  else
    let take := min avail len
    let slice := (dump.drop (r.data + offset)).take take
    if take = len then .ok slice else .partialBytes slice

def readAt (va len : Nat) : ReadStatus :=
  if len = 0 then .ok []
  else
    match Bisect.partitionPoint search (fun r => some (decide (r.stop ≤ va))) regions with
    | none => .unmapped
    | some idx =>
      match regions[idx]? with
      | none => .unmapped
      | some r => if va < r.vaStart ∨ r.stop ≤ va then .unmapped else sliceFromRegion dump r va len

def containsVa (va : Nat) : Bool := readAt search dump regions va 1 != .unmapped

end Read

/-! ## What is stored -/

section Stored
variable (dump : List UInt8) (regions : List IndexedRegion)

/-- The regions begin at addresses of 64 bits, and their bytes are in the dump. -/
structure InDump : Prop where
  address : ∀ r ∈ regions, r.vaStart < 2 ^ 64
  bytes : ∀ r ∈ regions, r.data + r.size ≤ dump.length

/-- An address that a region has; there are none from `2 ^ 64` on. -/
def Covered (va : Nat) : Prop := va < 2 ^ 64 ∧ ∃ r ∈ regions, r.Has va

def RangeCovered (va len : Nat) : Prop := ∀ i < len, Covered regions (va + i)

/-- Each byte is one that the dump has for its address. -/
def Stored (va len : Nat) (bytes : List UInt8) : Prop :=
  bytes.length = len ∧ ∀ i < len, ∃ r ∈ regions, r.Has (va + i) ∧ bytes[i]? = dump[r.data + (va + i - r.vaStart)]?

end Stored

/-! ## Merged ranges -/

/-- The bytes of the range are those of regions. -/
def Backed (regions : List IndexedRegion) (r : IndexedRegion) : Prop :=
  ∀ a, r.Has a → a < 2 ^ 64 → ∃ g ∈ regions, g.Has a ∧ r.data + (a - r.vaStart) = g.data + (a - g.vaStart)

section Merge
variable {regions : List IndexedRegion} {merged : List IndexedRegion}

theorem backed_of_mem {r : IndexedRegion} (h : r ∈ regions) : Backed regions r := fun _ hhas _ => ⟨r, h, hhas, rfl⟩

/-- A range that grows by its neighbour, up to the last address. -/
theorem Backed.grow {cur next : IndexedRegion} (hcur : Backed regions cur) (hnext : Backed regions next)
    (hstart : next.vaStart = cur.stop) (hdata : next.data = cur.data + cur.size) :
    Backed regions { cur with size := Outcome.saturatingAdd 64 cur.size next.size } := by
  intro a ⟨hlo, hhi⟩ ha
  dsimp only at hlo hhi ⊢
  rw [Outcome.saturatingAdd] at hhi
  rw [IndexedRegion.stop, Outcome.saturatingAdd] at hstart
  by_cases hold : a < cur.vaStart + cur.size
  · exact hcur a ⟨hlo, hold⟩ ha
  · obtain ⟨g, hg, hhas, hoffset⟩ := hnext a ⟨by omega, by omega⟩ ha
    exact ⟨g, hg, hhas, by omega⟩

/-- What holds of the regions and is kept when a range grows holds of the ranges of the map. -/
theorem forall_mergeFrom {P : IndexedRegion → Prop}
    (hgrow : ∀ cur next, P cur → P next → next.vaStart = cur.stop → next.data = cur.data + cur.size →
      P { cur with size := Outcome.saturatingAdd 64 cur.size next.size })
    {cur : IndexedRegion} {rest : List IndexedRegion} (hcur : P cur) (hrest : ∀ r ∈ rest, P r) :
    ∀ r ∈ mergeFrom cur rest, P r := by
  induction rest generalizing cur with
  | nil =>
    intro r hr
    rw [List.mem_singleton.mp hr]
    exact hcur
  | cons next rest ih =>
    have hnext := hrest next List.mem_cons_self
    have htail : ∀ r ∈ rest, P r := fun r hr => hrest r (List.mem_cons_of_mem next hr)
    rw [mergeFrom]
    split
    · next hadjoin => exact ih (hgrow cur next hcur hnext hadjoin.1 hadjoin.2) htail
    · intro r hr
      rcases List.mem_cons.mp hr with rfl | hr
      · exact hcur
      · exact ih hnext htail r hr

theorem forall_of_mapOf {P : IndexedRegion → Prop}
    (hgrow : ∀ cur next, P cur → P next → next.vaStart = cur.stop → next.data = cur.data + cur.size →
      P { cur with size := Outcome.saturatingAdd 64 cur.size next.size })
    (hregions : ∀ r ∈ regions, r.size ≠ 0 → P r) (h : MapOf regions merged) : ∀ r ∈ merged, P r := by
  obtain ⟨sorted, hperm, -, rfl⟩ := h
  have hsorted : ∀ r ∈ sorted, P r := by
    intro r hr
    obtain ⟨hmem, hsize⟩ := List.mem_filter.mp (hperm.mem_iff.mp hr)
    exact hregions r hmem (decide_eq_true_eq.mp hsize)
  cases sorted with
  | nil => intro r hr; cases hr
  | cons first rest =>
    exact forall_mergeFrom hgrow (hsorted first List.mem_cons_self) fun r hr => hsorted r (List.mem_cons_of_mem first hr)

theorem backed_of_mapOf (h : MapOf regions merged) : ∀ r ∈ merged, Backed regions r :=
  forall_of_mapOf (fun _ _ => Backed.grow) (fun _ hr _ => backed_of_mem hr) h

theorem start_lt_of_mapOf (hstart : ∀ r ∈ regions, r.vaStart < 2 ^ 64)
    (h : MapOf regions merged) : ∀ r ∈ merged, r.vaStart < 2 ^ 64 :=
  forall_of_mapOf (fun _ _ hcur _ _ _ => hcur) (fun r hr _ => hstart r hr) h

theorem size_pos_of_mapOf (h : MapOf regions merged) : ∀ r ∈ merged, 0 < r.size := by
  apply forall_of_mapOf _ (fun r _ hsize => Nat.pos_of_ne_zero hsize) h
  intro cur next hcur _ _ _
  show 0 < Outcome.saturatingAdd 64 cur.size next.size
  rw [Outcome.saturatingAdd]
  omega

end Merge

/-! ## Reads -/

/-- A place where the ranges go over from one that ends at or below the address to one that
ends above it. -/
def Cut (va : Nat) (before after : List IndexedRegion) : Prop :=
  (∀ r, before.getLast? = some r → r.stop ≤ va) ∧ ∀ r, after.head? = some r → va < r.stop

/-- The range behind a cut has all of the bytes. -/
def HeadHas (after : List IndexedRegion) (va len : Nat) : Prop :=
  ∃ r, after.head? = some r ∧ r.vaStart ≤ va ∧ va + len ≤ r.vaStart + r.size

/-- A read from the range behind a cut. -/
def readFrom (dump : List UInt8) (after : List IndexedRegion) (va len : Nat) : ReadStatus :=
  match after.head? with
  | none => .unmapped
  | some r => if va < r.vaStart then .unmapped else sliceFromRegion dump r va len

section Reads
variable {dump : List UInt8} {regions merged before after : List IndexedRegion} {va len : Nat}

theorem readAt_of_partitionPoint {search : Bisect.Bisection} {idx : Nat} (hlen : 0 < len)
    (hidx : Bisect.partitionPoint search (fun r => some (decide (r.stop ≤ va))) merged = some idx) :
    readAt search dump merged va len = readFrom dump (merged.drop idx) va len := by
  obtain ⟨-, hat⟩ := Bisect.cut_of_partitionPoint hidx
  rw [readAt, if_neg (Nat.ne_of_gt hlen), hidx, readFrom, List.head?_drop]
  cases hget : merged[idx]? with
  | none => simp [hget]
  | some r =>
    have habove : ¬r.stop ≤ va := by
      obtain ⟨hlt, -⟩ := List.getElem?_eq_some_iff.mp hget
      have hfalse := hat hlt
      rw [hget] at hfalse
      simpa using hfalse
    simp [hget, habove]

/-- A read goes to the range behind a cut, and to the same one whatever its length is. -/
theorem exists_cut (search : Bisect.Bisection) (dump : List UInt8) (merged : List IndexedRegion) (va : Nat) :
    ∃ before after, merged = before ++ after ∧ Cut va before after ∧
      ∀ len, 0 < len → readAt search dump merged va len = readFrom dump after va len := by
  obtain ⟨idx, hidx⟩ := @Bisect.exists_partitionPoint _ search (fun r : IndexedRegion => some (decide (r.stop ≤ va))) merged
    fun _ _ => rfl
  obtain ⟨hbefore, hat⟩ := Bisect.cut_of_partitionPoint hidx
  have hle := Bisect.partitionPoint_le_length hidx
  refine ⟨merged.take idx, merged.drop idx, (List.take_append_drop idx merged).symm, ⟨fun r hr => ?_, fun r hr => ?_⟩,
    fun len hlen => readAt_of_partitionPoint hlen hidx⟩
  · rw [List.getLast?_eq_getElem?, List.length_take, Nat.min_eq_left hle, List.getElem?_take] at hr
    split at hr
    · have htrue := hbefore (by omega)
      rw [hr] at htrue
      simpa using htrue
    · cases hr
  · rw [List.head?_drop] at hr
    have hfalse := hat (List.getElem?_eq_some_iff.mp hr).1
    rw [hr] at hfalse
    simpa using hfalse

/-- For every cut there is a search that reads there. -/
theorem readAt_cuttingAt (hlen : 0 < len) (hcut : Cut va before after) :
    readAt (Bisect.Bisection.cuttingAt before.length) dump (before ++ after) va len = readFrom dump after va len := by
  have hidx : Bisect.partitionPoint (Bisect.Bisection.cuttingAt before.length)
      (fun r => some (decide (r.stop ≤ va))) (before ++ after) = some before.length := by
    apply Bisect.partitionPoint_cuttingAt
    · simp
    · intro hpos
      have hlt : before.length - 1 < before.length := by omega
      rw [List.getElem?_append_left hlt, List.getElem?_eq_getElem hlt, Option.bind_some, Option.some.injEq,
        decide_eq_true_eq]
      apply hcut.1
      rw [List.getLast?_eq_getElem?, List.getElem?_eq_getElem hlt]
    · intro hlt
      have hpos : 0 < after.length := by
        rw [List.length_append] at hlt
        omega
      rw [List.getElem?_append_right (Nat.le_refl _), Nat.sub_self, List.getElem?_eq_getElem hpos, Option.bind_some,
        Option.some.injEq, decide_eq_false_iff_not, Nat.not_le]
      apply hcut.2
      rw [List.head?_eq_getElem?, List.getElem?_eq_getElem hpos]
  rw [readAt_of_partitionPoint hlen hidx, List.drop_left]

theorem readFrom_ok_iff (hlen : 0 < len) (hcut : Cut va before after) :
    (∃ bytes, readFrom dump after va len = .ok bytes) ↔ HeadHas after va len := by
  unfold readFrom HeadHas
  cases hhead : after.head? with
  | none => simp
  | some r =>
    have habove := hcut.2 r hhead
    rw [IndexedRegion.stop, Outcome.saturatingAdd] at habove
    simp only [Option.some.injEq, exists_eq_left', sliceFromRegion]
    by_cases hstart : va < r.vaStart
    · rw [if_pos hstart]
      simp
      omega
    · rw [if_neg hstart, if_neg (by omega)]
      by_cases hall : len ≤ r.size - (va - r.vaStart)
      · rw [if_pos (by omega)]
        simp
        omega
      · rw [if_neg (by omega)]
        simp
        omega

theorem readFrom_mapped_iff (hcut : Cut va before after) : readFrom dump after va 1 ≠ .unmapped ↔ HeadHas after va 1 := by
  unfold readFrom HeadHas
  cases hhead : after.head? with
  | none => simp
  | some r =>
    have habove := hcut.2 r hhead
    rw [IndexedRegion.stop, Outcome.saturatingAdd] at habove
    simp only [Option.some.injEq, exists_eq_left', sliceFromRegion]
    by_cases hstart : va < r.vaStart
    · rw [if_pos hstart]
      simp
      omega
    · rw [if_neg hstart, if_neg (by omega)]
      split <;> simp <;> omega

/-- What is read is stored. -/
theorem readFrom_stored {bytes : List UInt8} (hdump : InDump dump regions) (hbacked : ∀ r ∈ after, Backed regions r)
    (hlen : 0 < len) (hcovered : RangeCovered regions va len) (h : readFrom dump after va len = .ok bytes) :
    Stored dump regions va len bytes := by
  unfold readFrom at h
  cases hhead : after.head? with
  | none => simp [hhead] at h
  | some r =>
    have hmem : r ∈ after := List.mem_of_head? hhead
    simp only [hhead, sliceFromRegion] at h
    split at h
    · cases h
    · next hstart =>
      split at h
      · cases h
      · split at h
        · next hall =>
          obtain rfl := ReadStatus.ok.inj h
          rw [hall]
          -- Every byte is one of a region, at the same place of the dump.
          have hregion : ∀ i < len, ∃ g ∈ regions, g.Has (va + i) ∧
              r.data + (va - r.vaStart) + i = g.data + (va + i - g.vaStart) := by
            intro i hi
            obtain ⟨g, hg, hghas, hoffset⟩ := hbacked r hmem (va + i) ⟨by omega, by omega⟩ (hcovered i hi).1
            exact ⟨g, hg, hghas, by omega⟩
          constructor
          · obtain ⟨g, hg, hghas, hoffset⟩ := hregion (len - 1) (by omega)
            have hfile := hdump.bytes g hg
            obtain ⟨hglo, hghi⟩ := hghas
            rw [List.length_take, List.length_drop]
            omega
          · intro i hi
            obtain ⟨g, hg, hghas, hoffset⟩ := hregion i hi
            refine ⟨g, hg, hghas, ?_⟩
            rw [List.getElem?_take, if_pos hi, List.getElem?_drop, hoffset]
        · cases h

end Reads

/-! ## Exact reads -/

/-- The lookup at an address and a read of so many bytes there are exact. -/
def MemoryExact (dump : List UInt8) (regions : List IndexedRegion) (va len : Nat) : Prop :=
  ∀ merged, MapOf regions merged → ∀ search,
    (containsVa search dump merged va = true ↔ Covered regions va) ∧
    ((∃ bytes, readAt search dump merged va len = .ok bytes) ↔ RangeCovered regions va len) ∧
    ∀ bytes, readAt search dump merged va len = .ok bytes → Stored dump regions va len bytes

/-- Behind every cut is a range with the address, if the dump has it, and one with all of the
bytes, if and only if the dump has them. -/
def FoundBehindCuts (regions : List IndexedRegion) (va len : Nat) : Prop :=
  ∀ merged, MapOf regions merged → ∀ before after, merged = before ++ after → Cut va before after →
    (Covered regions va → HeadHas after va 1) ∧ (RangeCovered regions va len ↔ HeadHas after va len)

theorem memoryExact_iff {dump : List UInt8} {regions : List IndexedRegion} {va len : Nat} (hdump : InDump dump regions)
    (hlen : 0 < len) : MemoryExact dump regions va len ↔ FoundBehindCuts regions va len := by
  have hmapped : ∀ search merged after, readAt search dump merged va 1 = readFrom dump after va 1 →
      (containsVa search dump merged va = true ↔ readFrom dump after va 1 ≠ .unmapped) := by
    intro search merged after hread
    rw [containsVa, hread, bne_iff_ne]
  constructor
  · rintro h merged hmap before after rfl hcut
    obtain ⟨hcontains, hok, -⟩ := h _ hmap (Bisect.Bisection.cuttingAt before.length)
    rw [hmapped _ _ after (readAt_cuttingAt Nat.one_pos hcut), readFrom_mapped_iff hcut] at hcontains
    rw [readAt_cuttingAt hlen hcut, readFrom_ok_iff hlen hcut] at hok
    exact ⟨hcontains.mpr, hok.symm⟩
  · intro h merged hmap search
    obtain ⟨before, after, heq, hcut, hread⟩ := exists_cut search dump merged va
    obtain ⟨hfound, hall⟩ := h merged hmap before after heq hcut
    have hbacked : ∀ r ∈ after, Backed regions r := fun r hr =>
      backed_of_mapOf hmap r (by rw [heq]; exact List.mem_append_right before hr)
    rw [hmapped _ _ after (hread 1 Nat.one_pos), hread len hlen, readFrom_mapped_iff hcut, readFrom_ok_iff hlen hcut]
    refine ⟨⟨fun hhas => ?_, hfound⟩, hall.symm, fun bytes hbytes => ?_⟩
    · -- A range that has the address is made of regions.
      obtain ⟨r, hr, hlo, hhi⟩ := hhas
      have habove := hcut.2 r hr
      rw [IndexedRegion.stop, Outcome.saturatingAdd] at habove
      obtain ⟨g, hg, hghas, -⟩ := hbacked r (List.mem_of_head? hr) va ⟨hlo, by omega⟩ (by omega)
      exact ⟨by omega, g, hg, hghas⟩
    · have hcovered := hall.mpr ((readFrom_ok_iff hlen hcut).mp ⟨bytes, hbytes⟩)
      exact readFrom_stored hdump hbacked hlen hcovered hbytes

/-- Lookups and reads are exact at every address. -/
def MapExact (dump : List UInt8) (regions : List IndexedRegion) : Prop :=
  ∀ va len, 0 < len → MemoryExact dump regions va len

/-! ## The ranges that are searched -/

/-- The end of the last range, `0` if there is none. -/
def lastEnd (before : List IndexedRegion) : Nat := (before.getLast?.map fun r => r.vaStart + r.size).getD 0

/-- At a place of the list: if the ends step up there, no region has an address from the end of
the range before up to the start of the range behind, or the address at which that one ends. -/
def StepsOver (regions before after : List IndexedRegion) : Prop :=
  match after.head? with
  | none => ∀ a, lastEnd before ≤ a → ¬Covered regions a
  | some next => lastEnd before < next.vaStart + next.size →
      (∀ a, lastEnd before ≤ a → a < next.vaStart → ¬Covered regions a) ∧ ¬Covered regions (next.vaStart + next.size)

/-- No range runs up to the last address, and the ends only step over what no region has. -/
def Separated (regions merged : List IndexedRegion) : Prop :=
  (∀ r ∈ merged, r.vaStart + r.size < 2 ^ 64) ∧ ∀ before after, merged = before ++ after → StepsOver regions before after

section Separated
variable {regions merged before after : List IndexedRegion} {r : IndexedRegion} {va : Nat}

theorem covered_of_has (hmap : MapOf regions merged) (hr : r ∈ merged) (hhas : r.Has va) (hva : va < 2 ^ 64) :
    Covered regions va := by
  obtain ⟨g, hg, hghas, -⟩ := backed_of_mapOf hmap r hr va hhas hva
  exact ⟨hva, g, hg, hghas⟩

theorem stop_eq (h : r.vaStart + r.size < 2 ^ 64) : r.stop = r.vaStart + r.size := by
  rw [IndexedRegion.stop, Outcome.saturatingAdd]
  omega

/-- Where the ends are no cut off, a cut is at an address between them. -/
theorem cut_iff (hends : ∀ r ∈ before ++ after, r.vaStart + r.size < 2 ^ 64) :
    Cut va before after ↔ lastEnd before ≤ va ∧ ∀ r, after.head? = some r → va < r.vaStart + r.size := by
  have hbefore : (∀ r, before.getLast? = some r → r.stop ≤ va) ↔ lastEnd before ≤ va := by
    unfold lastEnd
    cases hlast : before.getLast? with
    | none => simp
    | some p =>
      have hend := stop_eq (hends p (List.mem_append_left after (List.mem_of_getLast? hlast)))
      simp [hend]
  have hafter : (∀ r, after.head? = some r → va < r.stop) ↔ ∀ r, after.head? = some r → va < r.vaStart + r.size := by
    apply forall_congr'
    intro r
    apply imp_congr_right
    intro hr
    rw [stop_eq (hends r (List.mem_append_right before (List.mem_of_head? hr)))]
  rw [Cut, hbefore, hafter]

/-- A range that is found is one that has the address, and it ends where the bytes do. -/
theorem foundBehindCuts_of_separated (h : ∀ merged, MapOf regions merged → Separated regions merged) (va : Nat) {len : Nat}
    (hlen : 0 < len) : FoundBehindCuts regions va len := by
  rintro merged hmap before after rfl hcut
  obtain ⟨hends, hplaces⟩ := h _ hmap
  have hplace := hplaces before after rfl
  obtain ⟨hlo, hhi⟩ := (cut_iff hends).mp hcut
  unfold StepsOver at hplace
  unfold HeadHas
  cases hhead : after.head? with
  | none =>
    rw [hhead] at hplace
    have hnone : ¬Covered regions va := hplace va hlo
    exact ⟨fun hcov => absurd hcov hnone, fun hcov => absurd (hcov 0 hlen) hnone, by simp⟩
  | some next =>
    rw [hhead] at hplace
    have hbelow := hhi next hhead
    obtain ⟨hgap, hend⟩ := hplace (by omega)
    have hstart : Covered regions va → next.vaStart ≤ va := fun hcov => by
      by_contra hlt
      exact hgap va hlo (by omega) hcov
    refine ⟨fun hcov => ⟨next, rfl, hstart hcov, hbelow⟩, fun hcov => ⟨next, rfl, hstart (hcov 0 hlen), ?_⟩, ?_⟩
    · -- A read that goes on would have the address at which the range ends.
      by_contra hlong
      have hat := hcov (next.vaStart + next.size - va) (by omega)
      rw [Nat.add_sub_cancel' hbelow.le] at hat
      exact hend hat
    · rintro ⟨r, hr, hle, hfits⟩ i hi
      obtain rfl := Option.some.inj hr
      have hmem : next ∈ before ++ after := List.mem_append_right before (List.mem_of_head? hhead)
      have hin := hends next hmem
      exact covered_of_has hmap hmem ⟨by omega, by omega⟩ (by omega)

/-- A range up to the last address is not found there. -/
theorem ends_of_found (hstart : ∀ r ∈ regions, r.vaStart < 2 ^ 64) (h : FoundBehindCuts regions (2 ^ 64 - 1) 1)
    (hmap : MapOf regions merged) : ∀ r ∈ merged, r.vaStart + r.size < 2 ^ 64 := by
  intro r hr
  have hlt := start_lt_of_mapOf hstart hmap r hr
  by_contra hlong
  have hcov : Covered regions (2 ^ 64 - 1) := covered_of_has hmap hr ⟨by omega, by omega⟩ (by omega)
  have hcut : Cut (2 ^ 64 - 1) merged [] := by
    constructor
    · intro p _
      rw [IndexedRegion.stop, Outcome.saturatingAdd]
      omega
    · intro p hp
      cases hp
  obtain ⟨p, hp, -⟩ := (h merged hmap merged [] (List.append_nil merged).symm hcut).1 hcov
  cases hp

/-- What a region has is found, so the ends do not step over it. -/
theorem stepsOver_of_found (h : ∀ va len, 0 < len → FoundBehindCuts regions va len) (hmap : MapOf regions (before ++ after))
    (hends : ∀ r ∈ before ++ after, r.vaStart + r.size < 2 ^ 64) : StepsOver regions before after := by
  unfold StepsOver
  cases hhead : after.head? with
  | none =>
    intro a hlo hcov
    have hcut : Cut a before after := (cut_iff hends).mpr ⟨hlo, by simp [hhead]⟩
    obtain ⟨r, hr, -⟩ := (h a 1 Nat.one_pos _ hmap before after rfl hcut).1 hcov
    rw [hhead] at hr
    cases hr
  | some next =>
    intro hup
    have hmem : next ∈ before ++ after := List.mem_append_right before (List.mem_of_head? hhead)
    have hsize := size_pos_of_mapOf hmap next hmem
    have hend := hends next hmem
    have hcut : ∀ va, lastEnd before ≤ va → va < next.vaStart + next.size → Cut va before after := by
      intro va hlo hhi
      refine (cut_iff hends).mpr ⟨hlo, fun r hr => ?_⟩
      rw [hhead] at hr
      obtain rfl := Option.some.inj hr
      exact hhi
    constructor
    · intro a hlo hlt hcov
      obtain ⟨r, hr, hle, -⟩ := (h a 1 Nat.one_pos _ hmap before after rfl (hcut a hlo (by omega))).1 hcov
      rw [hhead] at hr
      obtain rfl := Option.some.inj hr
      omega
    · -- A read of the last byte of the range and the one behind it.
      intro hcov
      have hall : RangeCovered regions (next.vaStart + next.size - 1) 2 := by
        intro i hi
        by_cases hzero : i = 0
        · subst hzero
          exact covered_of_has hmap hmem ⟨by omega, by omega⟩ (by omega)
        · have hone : next.vaStart + next.size - 1 + i = next.vaStart + next.size := by omega
          rw [hone]
          exact hcov
      have hcutLast := hcut (next.vaStart + next.size - 1) (by omega) (by omega)
      obtain ⟨r, hr, -, hfits⟩ := (h _ 2 Nat.two_pos _ hmap before after rfl hcutLast).2.mp hall
      rw [hhead] at hr
      obtain rfl := Option.some.inj hr
      omega

end Separated

theorem mapExact_iff {dump : List UInt8} {regions : List IndexedRegion} (hdump : InDump dump regions) :
    MapExact dump regions ↔ ∀ merged, MapOf regions merged → Separated regions merged := by
  have hfound : MapExact dump regions ↔ ∀ va len, 0 < len → FoundBehindCuts regions va len := by
    apply forall_congr'
    intro va
    apply forall_congr'
    intro len
    apply imp_congr_right
    intro hlen
    exact memoryExact_iff hdump hlen
  rw [hfound]
  constructor
  · intro h merged hmap
    have hends := ends_of_found hdump.address (h (2 ^ 64 - 1) 1 Nat.one_pos) hmap
    refine ⟨hends, fun before after heq => ?_⟩
    subst heq
    exact stepsOver_of_found h hmap hends
  · intro h va len hlen
    exact foundBehindCuts_of_separated h va hlen

/-- A dump with one region. -/
theorem mapExact_oneRegion : MapExact [10, 11, 12] [⟨0x1000, 3, 0⟩] := by
  refine (mapExact_iff ⟨by decide, by decide⟩).mpr fun merged hmap => ?_
  obtain ⟨sorted, hperm, -, rfl⟩ := hmap
  obtain rfl : sorted = [⟨0x1000, 3, 0⟩] := List.perm_singleton.mp hperm
  refine ⟨by decide, fun before after heq => ?_⟩
  have hcovered : ∀ a, Covered [⟨0x1000, 3, 0⟩] a → 0x1000 ≤ a ∧ a < 0x1003 := by
    rintro a ⟨-, r, hr, hhas⟩
    obtain rfl := List.mem_singleton.mp hr
    exact hhas
  rcases List.append_eq_singleton_iff.mp heq.symm with ⟨rfl, rfl⟩ | ⟨rfl, rfl⟩
  · intro _
    refine ⟨fun a _ hlt hcov => ?_, fun hcov => ?_⟩
    · have hin := hcovered a hcov
      dsimp only at hlt
      omega
    · have hin := hcovered _ hcov
      dsimp only at hin
      omega
  · intro a hlo hcov
    have hin := hcovered a hcov
    simp [lastEnd] at hlo
    omega

/-- Two regions that adjoin in memory, but not in the dump, and a region within another: of the
first two a read gets only the one, and of the others the search finds nothing behind the inner one. -/
theorem map_not_exact :
    ¬MapExact [10, 11, 0, 0, 12, 13] [⟨0x1000, 2, 0⟩, ⟨0x1002, 2, 4⟩] ∧
    ¬MapExact [10, 11, 12, 13, 11] [⟨0x1000, 4, 0⟩, ⟨0x1001, 1, 4⟩] := by
  constructor
  · intro h
    have hmap : MapOf [⟨0x1000, 2, 0⟩, ⟨0x1002, 2, 4⟩] [⟨0x1000, 2, 0⟩, ⟨0x1002, 2, 4⟩] :=
      ⟨_, List.Perm.refl _, by decide, by decide⟩
    have hall : RangeCovered [⟨0x1000, 2, 0⟩, ⟨0x1002, 2, 4⟩] 0x1001 2 := by
      simp [RangeCovered, Covered, IndexedRegion.Has]
      omega
    obtain ⟨bytes, hbytes⟩ := (h 0x1001 2 (by decide) _ hmap Bisect.Bisection.halving).2.1.mpr hall
    have hread : readAt Bisect.Bisection.halving [10, 11, 0, 0, 12, 13] [⟨0x1000, 2, 0⟩, ⟨0x1002, 2, 4⟩] 0x1001 2 =
        .partialBytes [11] := by decide +kernel
    rw [hread] at hbytes
    cases hbytes
  · intro h
    have hmap : MapOf [⟨0x1000, 4, 0⟩, ⟨0x1001, 1, 4⟩] [⟨0x1000, 4, 0⟩, ⟨0x1001, 1, 4⟩] :=
      ⟨_, List.Perm.refl _, by decide, by decide⟩
    have hcovered : Covered [⟨0x1000, 4, 0⟩, ⟨0x1001, 1, 4⟩] 0x1002 := by
      simp [Covered, IndexedRegion.Has]
    have hcontains := (h 0x1002 1 Nat.one_pos _ hmap Bisect.Bisection.halving).1.mpr hcovered
    exact absurd hcontains (by decide +kernel)

end Windy.MemoryMap
