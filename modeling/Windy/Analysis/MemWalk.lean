import Windy.Analysis.Indirect
import Windy.Lib.Json
import Windy.Llm.Query

/- Structured reads of memory (`analysis/mem_walk.rs`): arrays of pointers, arrays of structures,
   and singly linked lists.

   A pointer that cannot be read is zero to these functions, as is a stored null pointer
   (`read_pointer` of `analysis/indirect.rs`). So the walk of a list takes the end of the mapped
   bytes for the end of the list. Sums of addresses saturate; a product of an index and a stride is
   checked, but two mapped addresses are less than 2^33 apart, so an array ends before it overflows.

   `chain` says which nodes a list has within a limit and why it ends. What is proved, for an image
   and a list in it:
     `walkList_eq`: the walk is the chain in which what cannot be read is null;
     `slots_exact`: the slots of an array are at its address plus multiples of the stride;
     `walk_faithful_iff`: the walk and the arrays are what they should be, with no overflow, just
     if no section starts behind the last address, the slot of the next pointer can be read
     in each node of the chain, and the limit is not the length of a list that ends.

   Correspondence:
     `read_pointer`, `decode_field`, `read_pointers`, `walk_list`, `read_struct_array` ↔ the same
     the loops over a count with a stride ↔ `eachSlot`
   What the project knows of an address (`resolve_value`, `try_read_string_at_va`) is shown with a
   pointer and decides nothing here: it is a parameter (`Known`). -/
namespace Windy.MemWalk

open Llm (hexAlt StringRef)

def maxPointerCount : Nat := 256

def maxWalkNodes : Nat := 128

def maxStructArray : Nat := 64

def maxFieldsPerNode : Nat := 16

/-- `usize::clamp`. -/
def clamp (n low high : Nat) : Nat := if n < low then low else if high < n then high else n

/-! ## Reads -/

/-- What the reads see of a project. Its pointers have 32 or 64 bits (`AddressSpace::bitness`). -/
structure Memory where
  space : AddressSpace
  image : List UInt8
  bitness : Nat
  sized : Loader.Sized space
  bitness_eq : bitness = 32 ∨ bitness = 64

/-- `resolve_value`, and `try_read_string_at_va` with the least length of a text. -/
structure Known where
  resolveValue : Nat → Json
  stringAt : Nat → Nat → Option StringRef

structure FieldSpec where
  name : String
  offset : Nat
  kind : String
  size : Option Nat
  deriving Repr

section Reads
variable (m : Memory)

def ptrSize : Nat := m.bitness / 8

/-- `AddressSpace::is_valid_va`. -/
def isValidVa (va : Nat) : Outcome Bool :=
  match Loader.sectionAtVa m.space va with
  | .panic => .panic
  | .none => .some false
  | .some _ => .some true

/-- `slice_for_va(..).unwrap_or_default()`. -/
def bytesAt (va len : Nat) : Outcome (List UInt8) :=
  match Loader.sliceForVa m.space m.image va len with
  | .panic => .panic
  | .none => .some []
  | .some bytes => .some bytes

/-- The number in little-endian order, and zero if there are not so many bytes. -/
def fromLeBytes (bytes : List UInt8) (width : Nat) : Nat := (Bytes.numberAt bytes 0 width).getD 0

def readPointer (va : Nat) : Outcome Nat :=
  match Loader.sliceForVa m.space m.image va (ptrSize m) with
  | .panic => .panic
  | .none => .some 0
  | .some bytes => .some (Indirect.readPointer bytes (if ptrSize m = 8 then 8 else 4))

variable (known : Known)

/-- What is shown of the value of a pointer. -/
def resolved (value : Nat) : Outcome Json := do
  if value = 0 then return Json.object [("kind", .str "null")]
  else if ← isValidVa m value then return known.resolveValue value
  else return Json.object [("kind", .str "unmapped"), ("va", .str (hexAlt value))]

def signed (width n : Nat) : Json := .num (toString (BitVec.ofNat width n).toInt)

/-- The text that a field points to, or the one that is in its place. -/
def decodeString (va : Nat) : Outcome Json := do
  let value ← readPointer m va
  match if value = 0 then none else known.stringAt value 1 with
  | some s =>
    return Json.object [("ptr", .str (hexAlt value)), ("value", .str s.value), ("encoding", .str s.encoding)]
  | none =>
    match known.stringAt va 1 with
    | some s => return Json.object [("inline", .bool true), ("value", .str s.value), ("encoding", .str s.encoding)]
    | none => return Json.object [("raw_ptr", .str (hexAlt value)), ("string", .null)]

def hexByte (b : UInt8) : String := String.ofList (Bel.padHex 2 b.toNat)

def decodeField (va : Nat) (kind : String) (size : Option Nat) : Outcome Json := do
  if !(← isValidVa m va) then return Json.object [("error", .str "unmapped"), ("va", .str (hexAlt va))]
  else if kind = "ptr" ∨ kind = "pointer" then
    let value ← readPointer m va
    return Json.object [("raw", .str (hexAlt value)), ("resolved", ← resolved m known value)]
  else if kind = "string" then decodeString m known va
  else if kind = "u32" then return .nat (fromLeBytes (← bytesAt m va 4) 4)
  else if kind = "u64" then return .str (hexAlt (fromLeBytes (← bytesAt m va 8) 8))
  else if kind = "i32" then return signed 32 (fromLeBytes (← bytesAt m va 4) 4)
  else if kind = "i64" then return signed 64 (fromLeBytes (← bytesAt m va 8) 8)
  else if kind = "bytes" then
    let bytes ← bytesAt m va (clamp (size.getD 8) 1 64)
    return Json.object [("len", .nat bytes.length), ("hex", .str (" ".intercalate (bytes.map hexByte)))]
  else return Json.object [("error", .str ("unknown field kind '" ++ kind ++ "'"))]

/-- The fields of the structure at an address. -/
def decodeFields (base : Nat) (fields : List FieldSpec) : Outcome (List (String × Json)) :=
  (fields.take maxFieldsPerNode).foldlM
    (fun shown field => do
      let value ← decodeField m known (Outcome.saturatingAdd 64 base field.offset) field.kind field.size
      return Json.insertField field.name value shown) []

/-! ## Arrays -/

/-- The loop over the slots of an array, up to the first that is not mapped. -/
def eachSlot {α : Type} (va stride : Nat) (read : Nat → Nat → Outcome α) : Nat → Nat → List α → Outcome (List α)
  | 0, _, out => return out
  | more + 1, i, out => do
    let slot := Outcome.saturatingAdd 64 va (← Outcome.mul 64 i stride)
    if !(← isValidVa m slot) then return out
    else eachSlot va stride read more (i + 1) (out ++ [← read i slot])

structure ResolvedPointer where
  slotVa : String
  value : String
  resolved : Json

structure PointerList where
  va : String
  stride : Nat
  ptrSize : Nat
  entries : List ResolvedPointer

def readSlot (slot : Nat) : Outcome ResolvedPointer := do
  let value ← readPointer m slot
  return ⟨hexAlt slot, hexAlt value, ← resolved m known value⟩

/-- Without a stride it is the size of a pointer. -/
def pointerStride (stride : Option Nat) : Nat := max (stride.getD (ptrSize m)) 1

def readPointers (va count : Nat) (stride : Option Nat) : Outcome PointerList := do
  let entries ← eachSlot m va (pointerStride m stride) (fun _ => readSlot m known) (clamp count 1 maxPointerCount) 0 []
  return ⟨hexAlt va, pointerStride m stride, ptrSize m, entries⟩

structure StructItem where
  index : Nat
  va : String
  fields : List (String × Json)

structure StructArray where
  va : String
  stride : Nat
  items : List StructItem

def readItem (fields : List FieldSpec) (index base : Nat) : Outcome StructItem := do
  return ⟨index, hexAlt base, ← decodeFields m known base fields⟩

def readStructArray (va stride count : Nat) (fields : List FieldSpec) : Outcome StructArray := do
  let items ← eachSlot m va (max stride 1) (readItem m known fields) (clamp count 1 maxStructArray) 0 []
  return ⟨hexAlt va, max stride 1, items⟩

/-! ## Lists -/

structure ListNode where
  va : String
  fields : List (String × Json)
  next : String

structure ListWalk where
  headVa : String
  nextOffset : Nat
  nodes : List ListNode
  died : Option String

/-- The loop over the nodes: the nodes, what comes behind them, and why the loop was left. -/
def walkNodes (nextOffset : Nat) (fields : List FieldSpec) :
    Nat → Nat → List Nat → List ListNode → Outcome (List ListNode × Nat × Option String)
  | 0, cur, _, nodes => return (nodes, cur, none)
  | more + 1, cur, seen, nodes => do
    if cur = 0 then return (nodes, cur, some "null")
    else if !(← isValidVa m cur) then return (nodes, cur, some "unmapped")
    else if cur ∈ seen then return (nodes, cur, some "cycle")
    else
      let shown ← decodeFields m known cur fields
      let next ← readPointer m (Outcome.saturatingAdd 64 cur nextOffset)
      walkNodes nextOffset fields more next (cur :: seen) (nodes ++ [⟨hexAlt cur, shown, hexAlt next⟩])

def walkList (headVa nextOffset maxNodes : Nat) (fields : List FieldSpec) : Outcome ListWalk := do
  let limit := clamp maxNodes 1 maxWalkNodes
  let (nodes, cur, died) ← walkNodes m known nextOffset fields limit headVa [] []
  let died := if died.isNone ∧ cur ≠ 0 ∧ limit ≤ nodes.length then some "node_cap" else died
  return ⟨hexAlt headVa, nextOffset, nodes, died⟩

end Reads

/-! ## The answers as JSON -/

def cite (va : String) : Json := Json.object [("kind", .str "data"), ("va", .str va)]

def ResolvedPointer.toJson (p : ResolvedPointer) : Json :=
  Json.object [("slot_va", .str p.slotVa), ("value", .str p.value), ("resolved", p.resolved)]

def PointerList.toJson (l : PointerList) : Json :=
  Json.object [("va", .str l.va), ("count", .nat l.entries.length), ("stride", .nat l.stride),
    ("ptr_size", .nat l.ptrSize), ("entries", .arr (l.entries.map ResolvedPointer.toJson)), ("cite", cite l.va)]

def StructItem.toJson (i : StructItem) : Json :=
  Json.object [("index", .nat i.index), ("va", .str i.va), ("fields", .obj i.fields)]

def StructArray.toJson (a : StructArray) : Json :=
  Json.object [("va", .str a.va), ("stride", .nat a.stride), ("count", .nat a.items.length),
    ("items", .arr (a.items.map StructItem.toJson)), ("cite", cite a.va)]

def ListNode.toJson (n : ListNode) : Json :=
  Json.object [("va", .str n.va), ("fields", .obj n.fields), ("next", .str n.next)]

def ListWalk.toJson (w : ListWalk) : Json :=
  Json.object [("head_va", .str w.headVa), ("next_offset", .nat w.nextOffset), ("nodes", .arr (w.nodes.map ListNode.toJson)),
    ("count", .nat w.nodes.length), ("died", Json.ofOption .str w.died), ("cite", cite w.headVa)]

/-! ## Chains -/

/-- Why a list ends. -/
inductive Ending where
  | null
  | unmapped
  | cycle
  | nodeCap
  deriving DecidableEq, Repr

def Ending.text : Ending → String
  | .null => "null"
  | .unmapped => "unmapped"
  | .cycle => "cycle"
  | .nodeCap => "node_cap"

theorem Ending.text_inj {e e' : Ending} : e.text = e'.text ↔ e = e' := by
  cases e <;> cases e' <;> decide

/-- The nodes from an address on, as many as the limit allows, and what the list ends with. No address
is an address that could not be read. -/
def chain (next : Nat → Option Nat) (mapped : Nat → Bool) : Nat → Option Nat → List Nat → List Nat × Ending
  | _, none, _ => ([], .unmapped)
  | 0, some cur, _ => ([], if cur = 0 then .null else .nodeCap)
  | more + 1, some cur, seen =>
    if cur = 0 then ([], .null)
    else if !mapped cur then ([], .unmapped)
    else if cur ∈ seen then ([], .cycle)
    else
      let rest := chain next mapped more (next cur) (cur :: seen)
      (cur :: rest.1, rest.2)

section Chains
variable (next : Nat → Option Nat) (mapped : Nat → Bool)

/-- Only the limit is a reason to stop that the next node does not show. -/
theorem length_of_nodeCap {limit : Nat} {cur : Option Nat} {seen : List Nat}
    (h : (chain next mapped limit cur seen).2 = .nodeCap) : (chain next mapped limit cur seen).1.length = limit := by
  fun_induction chain next mapped limit cur seen with
  | case1 => cases h
  | case2 => rfl
  | case3 => cases h
  | case4 => cases h
  | case5 => cases h
  | case6 more cur seen hzero hmapped hseen rest ih => exact congrArg Nat.succ (ih h)

/-- The chain in which an address that cannot be read is null. -/
def orNull (next : Nat → Option Nat) (cur : Nat) : Option Nat := some ((next cur).getD 0)

/-- It has the same nodes, and ends in the same way if the next address can be read in all of them. -/
theorem chain_orNull (limit cur : Nat) (seen : List Nat) :
    (chain (orNull next) mapped limit (some cur) seen).1 = (chain next mapped limit (some cur) seen).1 ∧
      if ∀ c ∈ (chain next mapped limit (some cur) seen).1, next c ≠ none then
        (chain (orNull next) mapped limit (some cur) seen).2 = (chain next mapped limit (some cur) seen).2
      else (chain next mapped limit (some cur) seen).2 = .unmapped ∧
        (chain (orNull next) mapped limit (some cur) seen).2 = .null := by
  induction limit generalizing cur seen with
  | zero => simp [chain]
  | succ more ih =>
    unfold chain
    split
    · simp
    · split
      · simp
      · split
        · simp
        · cases hnext : next cur with
          | none =>
            have hnull : chain (orNull next) mapped more (orNull next cur) (cur :: seen) = ([], .null) := by
              rw [orNull, hnext]
              cases more <;> simp [chain]
            have hlost : chain next mapped more none (cur :: seen) = ([], .unmapped) := by
              cases more <;> rfl
            rw [hnull, hlost]
            simp [hnext]
          | some behind =>
            have hsame : orNull next cur = some behind := by rw [orNull, hnext]; rfl
            obtain ⟨hnodes, hending⟩ := ih behind (cur :: seen)
            rw [hsame]
            refine ⟨congrArg (cur :: ·) hnodes, ?_⟩
            simpa [hnext] using hending

end Chains

/-! ## Where no section starts behind the last address -/

section Returning
variable {m : Memory} (known : Known)

/-- The address lies in a section. -/
def mapped (m : Memory) (va : Nat) : Bool := (m.space.sectionAtVa va).isSome

/-- The pointer that is stored at an address, if its bytes can be read. -/
def pointerAt (m : Memory) (va : Nat) : Option Nat :=
  match Loader.sliceForVa m.space m.image va (ptrSize m) with
  | .some bytes => some (fromLeBytes bytes (ptrSize m))
  | _ => none

/-- The next pointer of a node. -/
def nextAt (m : Memory) (nextOffset node : Nat) : Option Nat :=
  if node + nextOffset < 2 ^ 64 then pointerAt m (node + nextOffset) else none

theorem lt_of_mapped {va : Nat} (h : mapped m va) : m.space.imageBase ≤ va ∧ va < m.space.imageBase + 2 ^ 33 ∧ va < 2 ^ 64 - 1 := by
  obtain ⟨s, hs⟩ := Option.isSome_iff_exists.mp h
  obtain ⟨hvaddr, hvsize, -, -⟩ := m.sized.fields s (List.mem_of_find?_eq_some hs)
  have hcontains := List.find?_some hs
  simp only [Section.containsVa, Bool.and_eq_true, decide_eq_true_eq] at hcontains
  omega

section Lookups
variable (hstarts : Loader.Starts m.space)
include hstarts

theorem isValidVa_eq (va : Nat) : isValidVa m va = .some (mapped m va) := by
  rw [isValidVa, Loader.sectionAtVa_eq hstarts, mapped]
  cases m.space.sectionAtVa va <;> rfl

theorem sliceForVa_ne_panic (va len : Nat) : Loader.sliceForVa m.space m.image va len ≠ .panic := by
  rw [Loader.sliceForVa_eq_bind, Outcome.bind_ne_panic]
  refine ⟨Loader.vaToOffset_ne_panic hstarts va, fun offset _ => ?_⟩
  rw [Outcome.bind_ne_panic]
  exact ⟨Outcome.ofOption_ne_panic _, fun stop _ => Outcome.ofOption_ne_panic _⟩

theorem readPointer_eq (va : Nat) : readPointer m va = .some ((pointerAt m va).getD 0) := by
  rw [readPointer, pointerAt]
  cases hslice : Loader.sliceForVa m.space m.image va (ptrSize m) with
  | panic => exact absurd hslice (sliceForVa_ne_panic hstarts va _)
  | none => rfl
  | some bytes =>
    have hsize : (if ptrSize m = 8 then 8 else 4) = ptrSize m := by
      rcases m.bitness_eq with h | h <;> simp [ptrSize, h]
    rw [hsize]
    rfl

/-- A sum that saturates is not mapped. -/
theorem readPointer_next (node nextOffset : Nat) :
    readPointer m (Outcome.saturatingAdd 64 node nextOffset) = .some ((nextAt m nextOffset node).getD 0) := by
  rw [readPointer_eq hstarts, nextAt]
  split
  · rename_i hlt
    rw [Outcome.saturatingAdd, Nat.min_eq_left (by omega)]
  · rename_i hge
    rw [Outcome.saturatingAdd, Nat.min_eq_right (by omega)]
    have hnone : pointerAt m (2 ^ 64 - 1) = none := by
      rw [pointerAt]
      have hunmapped : m.space.sectionAtVa (2 ^ 64 - 1) = none := by
        by_contra hsome
        have hlt := lt_of_mapped (m := m) (Option.isSome_iff_ne_none.mpr hsome)
        omega
      rw [Loader.sliceForVa, Loader.sectionAtVa_eq hstarts, hunmapped]
      rfl
    rw [hnone]

theorem bytesAt_returns (va len : Nat) : ∃ bytes, bytesAt m va len = .some bytes := by
  rw [bytesAt]
  cases hslice : Loader.sliceForVa m.space m.image va len with
  | panic => exact absurd hslice (sliceForVa_ne_panic hstarts va len)
  | none => exact ⟨[], rfl⟩
  | some bytes => exact ⟨bytes, rfl⟩

theorem resolved_returns (value : Nat) : ∃ shown, resolved m known value = .some shown := by
  rw [resolved, isValidVa_eq hstarts]
  split
  · exact ⟨_, rfl⟩
  · rw [Outcome.some_bind]
    split <;> exact ⟨_, rfl⟩

theorem decodeString_returns (va : Nat) : ∃ shown, decodeString m known va = .some shown := by
  rw [decodeString, readPointer_eq hstarts, Outcome.some_bind]
  split
  · exact ⟨_, rfl⟩
  · split <;> exact ⟨_, rfl⟩

omit hstarts in
theorem returns_ite {α : Type} {c : Prop} [Decidable c] {x y : Outcome α} (hx : ∃ a, x = .some a)
    (hy : ∃ a, y = .some a) : ∃ a, (if c then x else y) = .some a := by
  split
  · exact hx
  · exact hy

theorem decodeField_returns (va : Nat) (kind : String) (size : Option Nat) :
    ∃ shown, decodeField m known va kind size = .some shown := by
  obtain ⟨four, hfour⟩ := bytesAt_returns hstarts va 4
  obtain ⟨eight, height⟩ := bytesAt_returns hstarts va 8
  obtain ⟨bytes, hbytes⟩ := bytesAt_returns hstarts va (clamp (size.getD 8) 1 64)
  obtain ⟨pointee, hpointee⟩ := resolved_returns known hstarts ((pointerAt m va).getD 0)
  obtain ⟨shown, hshown⟩ := decodeString_returns known hstarts va
  simp only [decodeField, isValidVa_eq hstarts, readPointer_eq hstarts, Outcome.some_bind, hfour, height, hbytes, hpointee,
    hshown, Outcome.pure_eq]
  -- One test for each kind of field.
  refine returns_ite ⟨_, rfl⟩ (returns_ite ⟨_, rfl⟩ (returns_ite ⟨_, rfl⟩ ?_))
  exact returns_ite ⟨_, rfl⟩ (returns_ite ⟨_, rfl⟩ (returns_ite ⟨_, rfl⟩ (returns_ite ⟨_, rfl⟩
    (returns_ite ⟨_, rfl⟩ ⟨_, rfl⟩))))

theorem decodeFields_returns (base : Nat) (fields : List FieldSpec) :
    ∃ shown, decodeFields m known base fields = .some shown := by
  rw [decodeFields]
  generalize fields.take maxFieldsPerNode = specs
  generalize ([] : List (String × Json)) = shown
  induction specs generalizing shown with
  | nil => exact ⟨shown, rfl⟩
  | cons spec specs ih =>
    obtain ⟨value, hvalue⟩ := decodeField_returns known hstarts (Outcome.saturatingAdd 64 base spec.offset) spec.kind spec.size
    rw [List.foldlM_cons, hvalue]
    exact ih _

/-- The loop reads the slots at the exact addresses: the product does not overflow while the slots are mapped. -/
theorem eachSlot_exact {α : Type} {va stride : Nat} (hstride : stride < 2 ^ 64)
    (read : Nat → Nat → Outcome α) (hread : ∀ i slot, ∃ a, read i slot = .some a) (more i : Nat) (out : List α)
    (hcount : i + more ≤ 256) (hbefore : i ≠ 0 → mapped m va ∧ mapped m (va + (i - 1) * stride)) :
    ∃ found, eachSlot m va stride read more i out = .some (out ++ found) ∧
      ∀ j a, found[j]? = some a → read (i + j) (va + (i + j) * stride) = .some a := by
  induction more generalizing i out with
  | zero => exact ⟨[], by simp [eachSlot], by simp⟩
  | succ more ih =>
    have hfits : i * stride < 2 ^ 64 := by
      rcases i with _ | _ | i
      · omega
      · omega
      · obtain ⟨hfirst, hlast⟩ := hbefore (by omega)
        have hlow := lt_of_mapped hfirst
        have hhigh := lt_of_mapped hlast
        have hspan : (i + 1) * stride < 2 ^ 33 := by
          rw [Nat.add_sub_cancel] at hhigh
          omega
        have hnext : (i + 1 + 1) * stride ≤ 2 * ((i + 1) * stride) := by
          rw [← Nat.mul_assoc]
          exact Nat.mul_le_mul_right stride (by omega)
        omega
    rw [eachSlot, Outcome.mul_eq hfits, Outcome.some_bind]
    dsimp only
    rw [isValidVa_eq hstarts, Outcome.some_bind]
    cases hmapped : mapped m (Outcome.saturatingAdd 64 va (i * stride)) with
    | false => exact ⟨[], by simp, by simp⟩
    | true =>
      have hslot : Outcome.saturatingAdd 64 va (i * stride) = va + i * stride := by
        have hlt := lt_of_mapped hmapped
        rw [Outcome.saturatingAdd] at hlt ⊢
        omega
      rw [hslot] at hmapped ⊢
      obtain ⟨a, ha⟩ := hread i (va + i * stride)
      have hfirst : mapped m va := by
        rcases Nat.eq_zero_or_pos i with rfl | hpos
        · simpa using hmapped
        · exact (hbefore (by omega)).1
      obtain ⟨found, hfound, hall⟩ := ih (i + 1) (out ++ [a]) (by omega) fun _ => ⟨hfirst, by simpa using hmapped⟩
      refine ⟨a :: found, ?_, ?_⟩
      · simp only [Bool.not_true, Bool.false_eq_true, if_false, ha, Outcome.some_bind]
        rw [hfound, List.append_assoc, List.singleton_append]
      · intro j b hb
        cases j with
        | zero =>
          obtain rfl : a = b := by simpa using hb
          exact ha
        | succ j =>
          have hrest := hall j b (by simpa using hb)
          rwa [show i + 1 + j = i + (j + 1) by omega] at hrest

end Lookups

end Returning

/-! ## Arrays -/

/-- Whatever the address, the stride and the count: an array is read without an overflow, and the entry with
the number `i` is read from the address plus `i` strides. -/
def ReadsExact (m : Memory) (known : Known) : Prop :=
  ∀ va < 2 ^ 64, ∀ count, ∀ stride < 2 ^ 64,
    (∀ given : Option Nat, given.getD (ptrSize m) = stride → ∃ l, readPointers m known va count given = .some l ∧
      ∀ i e, l.entries[i]? = some e → e.slotVa = hexAlt (va + i * max stride 1) ∧
        e.value = hexAlt ((pointerAt m (va + i * max stride 1)).getD 0)) ∧
    ∀ fields, ∃ a, readStructArray m known va stride count fields = .some a ∧
      ∀ i e, a.items[i]? = some e → e.index = i ∧ e.va = hexAlt (va + i * max stride 1) ∧
        decodeFields m known (va + i * max stride 1) fields = .some e.fields

section Arrays
variable {m : Memory} {known : Known}

theorem clamp_le {n low high : Nat} (h : low ≤ high) : clamp n low high ≤ high := by
  unfold clamp
  split
  · exact h
  · split <;> omega

theorem readSlot_eq (known : Known) (hstarts : Loader.Starts m.space) (slot : Nat) :
    ∃ shown, readSlot m known slot = .some ⟨hexAlt slot, hexAlt ((pointerAt m slot).getD 0), shown⟩ := by
  obtain ⟨shown, hshown⟩ := resolved_returns known hstarts ((pointerAt m slot).getD 0)
  exact ⟨shown, by simp [readSlot, readPointer_eq hstarts, hshown]⟩

theorem readItem_eq (known : Known) (hstarts : Loader.Starts m.space) (fields : List FieldSpec) (index base : Nat) :
    ∃ shown, decodeFields m known base fields = .some shown ∧
      readItem m known fields index base = .some ⟨index, hexAlt base, shown⟩ := by
  obtain ⟨shown, hshown⟩ := decodeFields_returns known hstarts base fields
  exact ⟨shown, hshown, by simp [readItem, hshown]⟩

theorem readsExact_of_starts (hstarts : Loader.Starts m.space) : ReadsExact m known := by
  intro va _ count stride hstride
  have hpositive : max stride 1 < 2 ^ 64 := by omega
  refine ⟨fun given hgiven => ?_, fun fields => ?_⟩
  · have hcount : clamp count 1 maxPointerCount ≤ 256 := clamp_le (by decide)
    obtain ⟨found, hfound, hall⟩ := eachSlot_exact hstarts hpositive (fun _ => readSlot m known)
      (fun _ slot => ⟨_, (readSlot_eq known hstarts slot).choose_spec⟩) (clamp count 1 maxPointerCount) 0 [] (by omega) (by simp)
    refine ⟨⟨hexAlt va, max stride 1, ptrSize m, found⟩, ?_, fun i e he => ?_⟩
    · simpa [readPointers, pointerStride, hgiven] using congrArg (· >>= _) hfound
    · obtain ⟨shown, hshown⟩ := readSlot_eq known hstarts (va + i * max stride 1)
      have hread := hall i e he
      rw [Nat.zero_add, hshown, Outcome.some.injEq] at hread
      exact hread ▸ ⟨rfl, rfl⟩
  · have hcount : clamp count 1 maxStructArray ≤ 64 := clamp_le (by decide)
    obtain ⟨found, hfound, hall⟩ := eachSlot_exact hstarts hpositive (readItem m known fields)
      (fun index base => ⟨_, (readItem_eq known hstarts fields index base).choose_spec.2⟩) (clamp count 1 maxStructArray) 0 []
      (by omega) (by simp)
    refine ⟨⟨hexAlt va, max stride 1, found⟩, ?_, fun i e he => ?_⟩
    · simpa [readStructArray] using congrArg (· >>= _) hfound
    · obtain ⟨shown, hfields, hshown⟩ := readItem_eq known hstarts fields i (va + i * max stride 1)
      have hread := hall i e he
      rw [Nat.zero_add, hshown, Outcome.some.injEq] at hread
      exact hread ▸ ⟨rfl, rfl, hfields⟩

/-- The last address is in no section, so the lookup of it comes to every one. -/
theorem ReadsExact.starts (h : ReadsExact m known) : Loader.Starts m.space := by
  obtain ⟨l, hl, -⟩ := (h (2 ^ 64 - 1) (by omega) 1 (ptrSize m) (by
    rcases m.bitness_eq with hbits | hbits <;> simp [ptrSize, hbits])).1 none rfl
  have hvalid : isValidVa m (2 ^ 64 - 1) ≠ .panic := by
    intro hpanic
    have hslot : isValidVa m (Outcome.saturatingAdd 64 18446744073709551615 0) = .panic := hpanic
    simp [readPointers, clamp, maxPointerCount, eachSlot, Outcome.mul, hslot] at hl
  have hfind : Loader.sectionAtVa m.space (2 ^ 64 - 1) ≠ .panic := by
    intro hpanic
    rw [isValidVa, hpanic] at hvalid
    exact hvalid rfl
  intro s hs
  refine Loader.sectionContainsVa_ne_panic.mp (Outcome.find_ne_panic hfind (fun t _ ht => ?_) (fun t _ => ?_) s hs)
  · rw [Loader.sectionContainsVa_eq_true] at ht
    omega
  · exact Loader.sectionContainsVa_ne_none

end Arrays

/-! ## Lists -/

section Lists
variable {m : Memory} (known : Known) (nextOffset : Nat) (fields : List FieldSpec)

/-- A node is shown with its address, its fields, and the next pointer: zero if that cannot be read. -/
structure Shows (m : Memory) (known : Known) (nextOffset : Nat) (fields : List FieldSpec) (node : ListNode) (va : Nat) :
    Prop where
  va_eq : node.va = hexAlt va
  fields_eq : decodeFields m known va fields = .some node.fields
  next_eq : node.next = hexAlt ((nextAt m nextOffset va).getD 0)

/-- What the loop is left with for a chain within a limit. -/
def leftWith (limit : Nat) (c : List Nat × Ending) : Option String :=
  if c.2 = .nodeCap ∨ c.2 = .null ∧ c.1.length = limit then none else some c.2.text

theorem walkNodes_eq (hstarts : Loader.Starts m.space) (limit cur : Nat) (seen : List Nat) (nodes : List ListNode) :
    ∃ shown behind, walkNodes m known nextOffset fields limit cur seen nodes =
        .some (nodes ++ shown, behind, leftWith limit (chain (orNull (nextAt m nextOffset)) (mapped m) limit (some cur) seen)) ∧
      List.Forall₂ (Shows m known nextOffset fields) shown
        (chain (orNull (nextAt m nextOffset)) (mapped m) limit (some cur) seen).1 ∧
      ((chain (orNull (nextAt m nextOffset)) (mapped m) limit (some cur) seen).2 = .nodeCap → behind ≠ 0) ∧
      ((chain (orNull (nextAt m nextOffset)) (mapped m) limit (some cur) seen).2 = .null → behind = 0) := by
  induction limit generalizing cur seen nodes with
  | zero =>
    refine ⟨[], cur, ?_, by simp [chain], ?_, ?_⟩
    · by_cases hzero : cur = 0 <;> simp [walkNodes, chain, leftWith, hzero]
    · by_cases hzero : cur = 0 <;> simp [chain, hzero]
    · by_cases hzero : cur = 0 <;> simp [chain, hzero]
  | succ more ih =>
    rw [walkNodes, isValidVa_eq hstarts, readPointer_next hstarts]
    unfold chain
    by_cases hzero : cur = 0
    · exact ⟨[], cur, by simp [hzero, leftWith, Ending.text], by simp [hzero], by simp [hzero], fun _ => hzero⟩
    · cases hmapped : mapped m cur with
      | false => exact ⟨[], cur, by simp [hzero, leftWith, Ending.text], by simp [hzero], by simp [hzero], by simp [hzero]⟩
      | true =>
        by_cases hseen : cur ∈ seen
        · exact ⟨[], cur, by simp [hzero, hseen, leftWith, Ending.text], by simp [hzero, hseen], by simp [hzero, hseen],
            by simp [hzero, hseen]⟩
        · obtain ⟨row, hrow⟩ := decodeFields_returns known hstarts cur fields
          obtain ⟨shown, behind, hwalk, hshown, hcap, hnull⟩ := ih ((nextAt m nextOffset cur).getD 0) (cur :: seen)
            (nodes ++ [⟨hexAlt cur, row, hexAlt ((nextAt m nextOffset cur).getD 0)⟩])
          refine ⟨⟨hexAlt cur, row, hexAlt ((nextAt m nextOffset cur).getD 0)⟩ :: shown, behind, ?_, ?_, ?_, ?_⟩
          · simp only [hzero, if_false, Outcome.some_bind, Bool.not_true, Bool.false_eq_true, hseen, hrow, hwalk]
            simp [leftWith, orNull]
          · simp only [hzero, if_false, Bool.not_true, Bool.false_eq_true, hseen]
            exact .cons ⟨rfl, hrow, rfl⟩ hshown
          · simpa [hzero, hseen, orNull] using hcap
          · simpa [hzero, hseen, orNull] using hnull

/-- The walk of a list is the chain in which what cannot be read is null. It names no reason if that ends
with the last node that the limit allows. -/
theorem walkList_eq (hstarts : Loader.Starts m.space) (headVa maxNodes : Nat) {c : List Nat × Ending}
    (hc : chain (orNull (nextAt m nextOffset)) (mapped m) (clamp maxNodes 1 maxWalkNodes) (some headVa) [] = c) :
    ∃ w, walkList m known headVa nextOffset maxNodes fields = .some w ∧
      List.Forall₂ (Shows m known nextOffset fields) w.nodes c.1 ∧
      w.died = if c.2 = .null ∧ c.1.length = clamp maxNodes 1 maxWalkNodes then none else some c.2.text := by
  obtain ⟨shown, behind, hwalk, hshown, hcap, hnull⟩ :=
    walkNodes_eq known nextOffset fields hstarts (clamp maxNodes 1 maxWalkNodes) headVa [] []
  have hlength : (chain (orNull (nextAt m nextOffset)) (mapped m) (clamp maxNodes 1 maxWalkNodes) (some headVa) []).2 =
      .nodeCap → _ := length_of_nodeCap (orNull (nextAt m nextOffset)) (mapped m)
  rw [hc] at hwalk hshown hcap hnull hlength
  rw [walkList, hwalk]
  refine ⟨_, rfl, hshown, ?_⟩
  have hsame := hshown.length_eq
  simp only [List.nil_append]
  cases hending : c.2 with
  | null => simp [leftWith, hending, hnull hending]
  | unmapped => simp [leftWith, hending]
  | cycle => simp [leftWith, hending]
  | nodeCap => simp [leftWith, hending, hcap hending, hsame, hlength hending, Ending.text]

/-- The walk shows the nodes of the chain within the limit and says why it ends. -/
def WalkFaithful (m : Memory) (known : Known) (headVa nextOffset maxNodes : Nat) (fields : List FieldSpec) : Prop :=
  ∃ w, walkList m known headVa nextOffset maxNodes fields = .some w ∧
    List.Forall₂ (Shows m known nextOffset fields) w.nodes
      (chain (nextAt m nextOffset) (mapped m) (clamp maxNodes 1 maxWalkNodes) (some headVa) []).1 ∧
    w.died = some (chain (nextAt m nextOffset) (mapped m) (clamp maxNodes 1 maxWalkNodes) (some headVa) []).2.text

/-- The next pointer can be read in each node within the limit, and the last node that the limit allows is
not the last one of the list. -/
def ReadableChain (m : Memory) (headVa nextOffset limit : Nat) : Prop :=
  (∀ c ∈ (chain (nextAt m nextOffset) (mapped m) limit (some headVa) []).1, nextAt m nextOffset c ≠ none) ∧
    ¬ ((chain (nextAt m nextOffset) (mapped m) limit (some headVa) []).2 = .null ∧
      (chain (nextAt m nextOffset) (mapped m) limit (some headVa) []).1.length = limit)

theorem walkFaithful_iff (hstarts : Loader.Starts m.space) (headVa maxNodes : Nat) :
    WalkFaithful m known headVa nextOffset maxNodes fields ↔
      ReadableChain m headVa nextOffset (clamp maxNodes 1 maxWalkNodes) := by
  obtain ⟨w, hw, hnodes, hdied⟩ := walkList_eq known nextOffset fields hstarts headVa maxNodes rfl
  obtain ⟨hsame, hending⟩ := chain_orNull (nextAt m nextOffset) (mapped m) (clamp maxNodes 1 maxWalkNodes) headVa []
  rw [hsame] at hnodes hdied
  have hiff : WalkFaithful m known headVa nextOffset maxNodes fields ↔
      w.died = some (chain (nextAt m nextOffset) (mapped m) (clamp maxNodes 1 maxWalkNodes) (some headVa) []).2.text := by
    constructor
    · rintro ⟨w', hw', -, hdied'⟩
      rw [hw, Outcome.some.injEq] at hw'
      exact hw' ▸ hdied'
    · exact fun h => ⟨w, hw, hnodes, h⟩
  rw [hiff, hdied, ReadableChain]
  split at hending
  · rename_i hread
    rw [hending, and_iff_right hread]
    split
    · rename_i hlast
      exact iff_of_false (by simp) fun h => h hlast
    · rename_i hlast
      exact iff_of_true rfl hlast
  · rename_i hread
    refine iff_of_false ?_ fun h => hread h.1
    rw [hending.1, hending.2]
    split
    · simp
    · rw [Option.some.injEq, Ending.text_inj]
      decide

end Lists

/-! ## Faithful reads -/

theorem walk_faithful_iff (m : Memory) (known : Known) (headVa nextOffset maxNodes : Nat) (fields : List FieldSpec) :
    WalkFaithful m known headVa nextOffset maxNodes fields ∧ ReadsExact m known ↔
      Loader.Starts m.space ∧ ReadableChain m headVa nextOffset (clamp maxNodes 1 maxWalkNodes) := by
  constructor
  · intro ⟨hwalk, hreads⟩
    exact ⟨hreads.starts, (walkFaithful_iff known nextOffset fields hreads.starts headVa maxNodes).mp hwalk⟩
  · intro ⟨hstarts, hchain⟩
    exact ⟨(walkFaithful_iff known nextOffset fields hstarts headVa maxNodes).mpr hchain, readsExact_of_starts hstarts⟩

/-! ## Lists that end where the bytes do -/

/-- A section of 256 addresses with a null pointer at its beginning and nothing else in the file. -/
def zeroPointer : Memory where
  space := ⟨0x1000, [⟨0, 0x100, 0, 8, 0⟩]⟩
  image := List.replicate 8 0
  bitness := 64
  sized := ⟨by decide, by decide⟩
  bitness_eq := .inr rfl

/-- Nothing is known of any address. -/
def unknown : Known := ⟨fun _ => .null, fun _ _ => none⟩

theorem zeroPointer_starts : Loader.Starts zeroPointer.space := by
  intro s hs
  obtain rfl := List.mem_singleton.mp hs
  decide

/-- The pointer behind the bytes of the file cannot be read, and a list of one node ends with it. -/
theorem walk_not_faithful : ¬ WalkFaithful zeroPointer unknown 0x1000 8 4 [] ∧ ¬ WalkFaithful zeroPointer unknown 0x1000 0 1 [] := by
  rw [walkFaithful_iff unknown 8 [] zeroPointer_starts, walkFaithful_iff unknown 0 [] zeroPointer_starts]
  exact ⟨fun h => h.1 0x1000 (by decide) (by decide), fun h => h.2 (by decide)⟩

example : (chain (nextAt zeroPointer 0) (mapped zeroPointer) 4 (some 0x1000) []) = ([0x1000], .null) := by decide

end Windy.MemWalk
