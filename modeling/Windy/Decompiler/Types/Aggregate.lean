import Mathlib.Order.Interval.Finset.Nat
import Windy.Decompiler.V2.RegionAst
import Windy.Lib.Fields
import Windy.Lib.Grouping
import Windy.Project.State

/- Structs inferred from stack locals (`decompiler/types/aggregate.rs`).

   The typed locals of one base register are sorted by offset and cut into runs where the next
   local starts more than `MAX_GAP` bytes after the one before it ends. A run of two or more
   becomes one struct. A struct is named after the function and the base register alone, a
   local may start before the one before it ends, and `match_run_base` finds a struct again by
   its shape among all typed locals.

   What is proved:
     `wellFormed_iff`: the structs have different names, their fields do not overlap, and each
     is found at its own first local just if no base register has two runs of two or more, the
     locals of a run do not overlap, and no run is a later copy of a shape.

   Correspondence:
     the map of the first base seen per displacement ↔ `offsetBase`
     `by_base`, `sort_by_key` and the loop over runs ↔ `aggregateRuns` (over `Grouping.runsBy`)
     `infer_aggregates`, `ty_byte_size`, `aggregate_base_offsets`, `match_run_base` ↔ the same
   Arithmetic on `i64` wraps, as in a release build. -/
namespace Windy.Decompiler.Types

open V2 (hex)

/-- `TyGuess`. -/
inductive TyGuess where
  | unknown
  | int (bits : UInt8)
  | uint (bits : UInt8)
  | bool
  | float
  | double
  | ptr (inner : TyGuess)
  deriving DecidableEq

/-- `TyGuess::to_data_type`. -/
def TyGuess.toDataType (fallbackBits : Nat) : TyGuess → DataType
  | .unknown => .unknown (fallbackBits / 8)
  | .int b => .int b.toNat
  | .uint b => .uint b.toNat
  | .bool => .bool
  | .float => .float
  | .double => .double
  | .ptr inner => .ptr (inner.toDataType fallbackBits)

/-- `StackLocalType`, with an `i64` offset. -/
structure StackLocalType where
  offset : Int
  ty : TyGuess
  offset_ge : -2 ^ 63 ≤ offset
  offset_lt : offset < 2 ^ 63
  deriving DecidableEq

/-- `types::Field`. -/
structure Field where
  name : String
  ty : DataType
  offset : Nat
  bitOffset : Option Nat

/-- `types::CompositeKind`. -/
inductive CompositeKind where
  | struct
  | union
  | enum
  deriving DecidableEq

/-- `types::EnumVariant`. -/
structure EnumVariant where
  name : String
  value : Int

/-- `types::CompositeType`. -/
structure CompositeType where
  kind : CompositeKind
  name : String
  size : Nat
  align : Nat
  fields : List Field
  variants : List EnumVariant

/-- The result of `i64` arithmetic. -/
def wrap64 (n : Int) : Int := n.bmod (2 ^ 64)

/-- `as u64`. -/
def asU64 (n : Int) : Nat := (n % 2 ^ 64).toNat

def tyByteSize : TyGuess → Nat
  | .unknown => 8
  | .int b | .uint b => b.toNat / 8
  | .bool => 1
  | .float => 4
  | .double => 8
  | .ptr _ => 8

def maxGap : Int := 4

/-- The distance from the end of a local to the start of the next. -/
def gap (prev cur : StackLocalType) : Int := wrap64 (cur.offset - wrap64 (prev.offset + tyByteSize prev.ty))

/-! ## Runs -/

/-- The stack slots the operations define and use, in order. -/
def stackSlots (ssa : SsaFunction) : List (Int × Nat) :=
  ssa.blocks.flatMap fun block => block.ops.flatMap fun op => (op.def?.toList ++ op.uses).filterMap fun v =>
    match v.location with
    | .stackSlot baseReg disp => some (disp, baseReg)
    | _ => none

/-- The base register first seen with a displacement. -/
def offsetBase (ssa : SsaFunction) (disp : Int) : Option Nat := (stackSlots ssa).lookup disp

def baseOf (ssa : SsaFunction) (l : StackLocalType) : Nat := (offsetBase ssa l.offset).getD 0x28

/-- Locals with a type, without the arguments. -/
def isTyped (l : StackLocalType) : Bool := l.ty ≠ .unknown && l.offset ≤ 0

def byOffset (l l' : StackLocalType) : Prop := l.offset ≤ l'.offset

instance : DecidableRel byOffset := fun l l' => inferInstanceAs (Decidable (l.offset ≤ l'.offset))

/-- Two neighbours that stay in one run. -/
def contiguous (prev cur : StackLocalType) : Prop := gap prev cur ≤ maxGap

instance : DecidableRel contiguous := fun l l' => inferInstanceAs (Decidable (gap l l' ≤ maxGap))

/-- The runs of two or more locals of one base register. -/
def runsOf (ssa : SsaFunction) (locals : List StackLocalType) (baseReg : Nat) : List (List StackLocalType) :=
  Grouping.keptRuns (baseOf ssa) byOffset contiguous (fun run => 2 ≤ run.length) (locals.filter isTyped) baseReg

/-- The runs that become structs, each with its base register. -/
def aggregateRuns (ssa : SsaFunction) (locals : List StackLocalType) : List (Nat × List StackLocalType) :=
  Grouping.runsBy (baseOf ssa) byOffset contiguous (fun run => 2 ≤ run.length) (locals.filter isTyped)

/-! ## Structs -/

/-- The offset of the first local. -/
def startOf (run : List StackLocalType) : Int := (run.head?.map StackLocalType.offset).getD 0

/-- `(local.offset - base_off) as u64`. -/
def rel (base : Int) (l : StackLocalType) : Nat := asU64 (wrap64 (l.offset - base))

def aggregateName (functionVa baseReg : Nat) : String := "__ws_" ++ hex functionVa ++ "_" ++ hex baseReg

/-- The struct of a run. -/
def composite (functionVa : Nat) (r : Nat × List StackLocalType) : CompositeType :=
  { kind := .struct
    name := aggregateName functionVa r.1
    size := r.2.foldl (fun maxEnd l => max maxEnd (rel (startOf r.2) l + tyByteSize l.ty)) 0
    align := 4
    fields := r.2.mapIdx fun i l =>
      { name := "field_" ++ toString i
        ty := l.ty.toDataType 64
        offset := rel (startOf r.2) l
        bitOffset := none }
    variants := [] }

def inferAggregates (ssa : SsaFunction) (locals : List StackLocalType) (functionVa : Nat) : List CompositeType :=
  if locals.length < 2 then [] else (aggregateRuns ssa locals).map (composite functionVa)

/-! ## The way back -/

/-- `std::mem::discriminant`. -/
def discriminant : DataType → Nat
  | .void => 0
  | .bool => 1
  | .int _ => 2
  | .uint _ => 3
  | .float => 4
  | .double => 5
  | .ptr _ => 6
  | .array _ _ => 7
  | .funcPtr _ _ => 8
  | .named _ => 9
  | .unknown _ => 10

/-- The type test of `match_run_base`: one kind of type, or two kinds of integers. The arms of
the inner `match` accept equal types and integers only, so nothing that failed this test. -/
def looseMatch (localTy fieldTy : DataType) : Bool :=
  discriminant localTy == discriminant fieldTy ||
    match localTy, fieldTy with
    | .int _, .uint _ | .uint _, .int _ => true
    | _, _ => false

def fieldMatches (base : Int) (l : StackLocalType) (f : Field) : Bool :=
  rel base l == f.offset && looseMatch (l.ty.toDataType 64) f.ty

/-- The typed locals of all base registers, sorted. -/
def typedLocals (locals : List StackLocalType) : List StackLocalType := (locals.filter isTyped).insertionSort byOffset

/-- The offset of the local at `start` if the fields match the locals from there on. A struct
without fields, which no run gives, would be looked up past the end as well. -/
def matchAt (typed : List StackLocalType) (fields : List Field) (start : Nat) : Option Int :=
  typed[start]?.bind fun first =>
    if ((typed.drop start).zip fields).all fun lf => fieldMatches first.offset lf.1 lf.2 then some first.offset else none

def matchRunBase (locals : List StackLocalType) (agg : CompositeType) : Option Int :=
  let typed := typedLocals locals
  if typed.length < agg.fields.length then none
  else Grouping.findFirst (typed.length - agg.fields.length + 1) (matchAt typed agg.fields)

def aggregateBaseOffsets (locals : List StackLocalType) (aggregates : List CompositeType) : List (Int × String) :=
  aggregates.filterMap fun agg => (matchRunBase locals agg).map fun b => (b, agg.name)

/-! ## Well-formed structs -/

/-- `DataType::size` in bytes. -/
def byteSize (bitness : Nat) : DataType → Nat
  | .void => 0
  | .bool => 1
  | .int b | .uint b | .unknown b => b / 8
  | .float => 4
  | .double => 8
  | .ptr _ | .funcPtr _ _ => bitness / 8
  | .array elem count => min (byteSize bitness elem * count) (2 ^ 64 - 1)
  | .named _ => 0

/-- The bytes of a struct that a field takes. -/
def Field.bytes (f : Field) : Finset Nat := Finset.Ico f.offset (f.offset + byteSize 64 f.ty)

/-- What the structs of a function are for. -/
structure WellFormed (ssa : SsaFunction) (locals : List StackLocalType) (functionVa : Nat) : Prop where
  names : ((inferAggregates ssa locals functionVa).map CompositeType.name).Nodup
  apart : ∀ agg ∈ inferAggregates ssa locals functionVa, agg.fields.Pairwise fun f g => Disjoint f.bytes g.bytes
  fit : ∀ agg ∈ inferAggregates ssa locals functionVa, ∀ f ∈ agg.fields, f.offset + byteSize 64 f.ty ≤ agg.size
  once : ((aggregateRuns ssa locals).flatMap Prod.snd).Subperm locals
  bases : aggregateBaseOffsets locals (inferAggregates ssa locals functionVa) =
    (aggregateRuns ssa locals).map fun r => (startOf r.2, (composite functionVa r).name)

/-- Locals that look like those of a run: at the same distances from the first one, with types
of the same kinds. -/
def LooksLike (run window : List StackLocalType) : Prop :=
  List.Forall₂ (fun l l' => l'.offset - startOf window = l.offset - startOf run ∧
    looseMatch (l'.ty.toDataType 64) (l.ty.toDataType 64) = true) run window

/-- The offsets at which the typed locals look like the run. -/
def places (locals run : List StackLocalType) : Set Int :=
  {o | ∃ window, window <:+: typedLocals locals ∧ LooksLike run window ∧ startOf window = o}

/-- What the locals must be like. -/
structure Distinguishable (ssa : SsaFunction) (locals : List StackLocalType) : Prop where
  oneRun : ∀ baseReg, (runsOf ssa locals baseReg).length ≤ 1
  apart : ∀ baseReg, ∀ run ∈ runsOf ssa locals baseReg, run.Pairwise fun l l' : StackLocalType =>
    tyByteSize l.ty = 0 ∨ tyByteSize l'.ty = 0 ∨ l.offset + (tyByteSize l.ty : Int) ≤ l'.offset
  first : ∀ baseReg, ∀ run ∈ runsOf ssa locals baseReg, IsLeast (places locals run) (startOf run)

/-! ## Runs of sorted locals -/

section Runs
variable {ssa : SsaFunction} {locals run : List StackLocalType} {baseReg : Nat}

theorem mem_aggregateRuns {r : Nat × List StackLocalType} : r ∈ aggregateRuns ssa locals ↔ r.2 ∈ runsOf ssa locals r.1 :=
  Grouping.mem_runsBy _ _ _ _

theorem two_le_length (h : run ∈ runsOf ssa locals baseReg) : 2 ≤ run.length := by
  simpa using (List.mem_filter.mp h).2

theorem sorted_of_mem (h : run ∈ runsOf ssa locals baseReg) : run.Pairwise byOffset := by
  apply List.Pairwise.sublist (Grouping.sublist_of_mem_keptRuns _ _ _ _ h)
  have : IsTrans StackLocalType byOffset := ⟨fun a b c => Int.le_trans⟩
  have : Std.Total byOffset := ⟨fun a b => Int.le_total a.offset b.offset⟩
  exact List.pairwise_insertionSort _ _

theorem isTyped_of_mem (h : run ∈ runsOf ssa locals baseReg) {l : StackLocalType} (hl : l ∈ run) : isTyped l = true := by
  have hgroup := (Grouping.sublist_of_mem_keptRuns _ _ _ _ h).mem hl
  rw [Grouping.group, List.mem_insertionSort, List.mem_filter, List.mem_filter] at hgroup
  exact hgroup.1.2

theorem once (ssa : SsaFunction) (locals : List StackLocalType) : ((aggregateRuns ssa locals).flatMap Prod.snd).Subperm locals :=
  (Grouping.runsBy_subperm _ _ _ _ _).trans List.filter_sublist.subperm

/-- The test for two locals at the start is not needed. -/
theorem inferAggregates_eq (functionVa : Nat) :
    inferAggregates ssa locals functionVa = (aggregateRuns ssa locals).map (composite functionVa) := by
  unfold inferAggregates
  split
  · next hfew =>
    have hnil : aggregateRuns ssa locals = [] := by
      rw [List.eq_nil_iff_forall_not_mem]
      intro r hr
      have hsub : r.2.length ≤ ((aggregateRuns ssa locals).flatMap Prod.snd).length :=
        (List.sublist_flatten_of_mem (List.mem_map_of_mem hr)).length_le
      have hall := (once ssa locals).length_le
      have htwo := two_le_length (mem_aggregateRuns.mp hr)
      omega
    rw [hnil]
    rfl
  · rfl

end Runs

variable {l : StackLocalType}

theorem isTyped_le (h : isTyped l = true) : l.offset ≤ 0 := by
  rw [isTyped, Bool.and_eq_true] at h
  exact of_decide_eq_true h.2

theorem ty_ne_unknown (h : isTyped l = true) : l.ty ≠ .unknown := by
  rw [isTyped, Bool.and_eq_true] at h
  exact of_decide_eq_true h.1

theorem byteSize_toDataType {ty : TyGuess} (h : ty ≠ .unknown) : byteSize 64 (ty.toDataType 64) = tyByteSize ty := by
  cases ty with
  | unknown => exact absurd rfl h
  | _ => rfl

/-- Two offsets of locals are less than 2^64 apart, so the distance survives both conversions. -/
theorem rel_eq {base : Int} (hbase : -2 ^ 63 ≤ base) (hle : base ≤ l.offset) (hl : l.offset ≤ 0) :
    (rel base l : Int) = l.offset - base := by
  have hmod : wrap64 (l.offset - base) % 2 ^ 64 = l.offset - base := by
    have hwrap : (l.offset - base).bmod (2 ^ 64) % 2 ^ 64 = (l.offset - base) % 2 ^ 64 := Int.bmod_emod
    rw [wrap64, hwrap]
    omega
  rw [rel, asU64, hmod]
  omega

/-- The first of some sorted locals is the lowest. -/
theorem startOf_le {run : List StackLocalType} (hsorted : run.Pairwise byOffset) (hl : l ∈ run) :
    startOf run ≤ l.offset := by
  cases run with
  | nil => cases hl
  | cons first rest =>
    cases hl with
    | head => exact Int.le_refl _
    | tail _ hl => exact (List.pairwise_cons.mp hsorted).1 l hl

theorem startOf_ge (run : List StackLocalType) : -2 ^ 63 ≤ startOf run := by
  cases run with
  | nil => decide
  | cons first rest => exact first.offset_ge

/-! ## Names -/

theorem aggregateName_inj {functionVa b b' : Nat} (h : aggregateName functionVa b = aggregateName functionVa b') :
    b = b' := by
  have htext := congrArg String.toList h
  simp only [aggregateName, hex, String.toList_append, String.toList_ofList, List.append_cancel_left_eq] at htext
  exact Fields.toDigits_inj (by decide) (by decide) htext

theorem nodup_names_iff (ssa : SsaFunction) (locals : List StackLocalType) (functionVa : Nat) :
    ((inferAggregates ssa locals functionVa).map CompositeType.name).Nodup ↔
      ∀ baseReg, (runsOf ssa locals baseReg).length ≤ 1 := by
  have hnames : (inferAggregates ssa locals functionVa).map CompositeType.name =
      ((aggregateRuns ssa locals).map Prod.fst).map (aggregateName functionVa) := by
    rw [inferAggregates_eq, List.map_map, List.map_map]
    rfl
  rw [hnames, List.nodup_map_iff fun _ _ => aggregateName_inj]
  exact Grouping.nodup_keys_runsBy _ _ _ _ _

/-! ## Fields -/

section Fields
variable {run : List StackLocalType} (hsorted : run.Pairwise byOffset) (htyped : ∀ l ∈ run, isTyped l = true)
include hsorted htyped

omit hsorted in
theorem map_bytes (functionVa baseReg : Nat) : (composite functionVa (baseReg, run)).fields.map Field.bytes =
    run.map fun l => Finset.Ico (rel (startOf run) l) (rel (startOf run) l + tyByteSize l.ty) := by
  apply List.ext_getElem?
  intro i
  cases hl : run[i]? with
  | none => simp [composite, hl]
  | some l =>
    have hsize := byteSize_toDataType (ty_ne_unknown (htyped l (List.mem_of_getElem? hl)))
    simp [composite, hl, Field.bytes, hsize]

theorem disjoint_bytes_iff {l l' : StackLocalType} (hl : l ∈ run) (hl' : l' ∈ run) (hle : l.offset ≤ l'.offset) :
    Disjoint (Finset.Ico (rel (startOf run) l) (rel (startOf run) l + tyByteSize l.ty))
        (Finset.Ico (rel (startOf run) l') (rel (startOf run) l' + tyByteSize l'.ty)) ↔
      tyByteSize l.ty = 0 ∨ tyByteSize l'.ty = 0 ∨ l.offset + (tyByteSize l.ty : Int) ≤ l'.offset := by
  have hrel := rel_eq (startOf_ge run) (startOf_le hsorted hl) (isTyped_le (htyped l hl))
  have hrel' := rel_eq (startOf_ge run) (startOf_le hsorted hl') (isTyped_le (htyped l' hl'))
  rw [Finset.disjoint_left]
  constructor
  · intro h
    by_contra hno
    -- the first byte of the second one is a byte of both
    apply h (a := rel (startOf run) l')
    · rw [Finset.mem_Ico]
      omega
    · rw [Finset.mem_Ico]
      omega
  · intro h a ha ha'
    rw [Finset.mem_Ico] at ha ha'
    omega

theorem apart_iff (functionVa baseReg : Nat) :
    (composite functionVa (baseReg, run)).fields.Pairwise (fun f g => Disjoint f.bytes g.bytes) ↔
      run.Pairwise fun l l' : StackLocalType =>
        tyByteSize l.ty = 0 ∨ tyByteSize l'.ty = 0 ∨ l.offset + (tyByteSize l.ty : Int) ≤ l'.offset := by
  rw [← List.pairwise_map (R := Disjoint) (f := Field.bytes), map_bytes htyped, List.pairwise_map]
  constructor
  · intro h
    apply (h.and hsorted).imp_of_mem
    intro l l' hl hl' hboth
    exact (disjoint_bytes_iff hsorted htyped hl hl' hboth.2).mp hboth.1
  · intro h
    apply (h.and hsorted).imp_of_mem
    intro l l' hl hl' hboth
    exact (disjoint_bytes_iff hsorted htyped hl hl' hboth.2).mpr hboth.1

end Fields

theorem le_foldl_max {α : Type} (g : α → Nat) (l : List α) (m : Nat) :
    m ≤ l.foldl (fun m x => max m (g x)) m ∧ ∀ x ∈ l, g x ≤ l.foldl (fun m x => max m (g x)) m := by
  induction l generalizing m with
  | nil => simp
  | cons y ys ih =>
    obtain ⟨hm, hys⟩ := ih (max m (g y))
    rw [List.foldl_cons]
    refine ⟨by omega, ?_⟩
    intro x hx
    cases hx with
    | head => omega
    | tail _ hx => exact hys x hx

/-- Every field ends within the struct. -/
theorem field_fits {run : List StackLocalType} (htyped : ∀ l ∈ run, isTyped l = true) (functionVa baseReg : Nat) {f : Field}
    (hf : f ∈ (composite functionVa (baseReg, run)).fields) :
    f.offset + byteSize 64 f.ty ≤ (composite functionVa (baseReg, run)).size := by
  obtain ⟨i, hi, rfl⟩ := List.mem_mapIdx.mp hf
  have hl : run.get ⟨i, hi⟩ ∈ run := List.get_mem _ _
  have hmax := (le_foldl_max (fun l => rel (startOf run) l + tyByteSize l.ty) run 0).2 _ hl
  have hsize := byteSize_toDataType (ty_ne_unknown (htyped _ hl))
  simp only [List.get_eq_getElem] at hmax hsize
  simpa only [composite, hsize] using hmax

/-! ## The way back -/

section Back
variable {locals run : List StackLocalType}

theorem typedLocals_sorted (locals : List StackLocalType) : (typedLocals locals).Pairwise byOffset := by
  have : IsTrans StackLocalType byOffset := ⟨fun a b c => Int.le_trans⟩
  have : Std.Total byOffset := ⟨fun a b => Int.le_total a.offset b.offset⟩
  exact List.pairwise_insertionSort _ _

theorem isTyped_of_mem_typedLocals {l : StackLocalType} (h : l ∈ typedLocals locals) : isTyped l = true := by
  rw [typedLocals, List.mem_insertionSort] at h
  exact (List.mem_filter.mp h).2

theorem zip_all_iff {α β : Type} {p : α × β → Bool} {xs : List α} {ys : List β} :
    (xs.zip ys).all p = true ↔ ∀ (k : Nat) (x : α) (y : β), xs[k]? = some x → ys[k]? = some y → p (x, y) = true := by
  rw [List.all_eq_true]
  constructor
  · intro h k x y hx hy
    apply h
    exact List.mem_of_getElem? (List.getElem?_zip_eq_some.mpr ⟨hx, hy⟩)
  · intro h xy hxy
    obtain ⟨k, hk⟩ := List.mem_iff_getElem?.mp hxy
    obtain ⟨hx, hy⟩ := List.getElem?_zip_eq_some.mp hk
    exact h k xy.1 xy.2 hx hy

theorem forall₂_iff_getElem? {α β : Type} {R : α → β → Prop} {xs : List α} {ys : List β} :
    List.Forall₂ R xs ys ↔ xs.length = ys.length ∧
      ∀ (k : Nat) (x : α) (y : β), xs[k]? = some x → ys[k]? = some y → R x y := by
  rw [List.forall₂_iff_get]
  refine and_congr_right fun hlength => ?_
  constructor
  · intro h k x y hx hy
    obtain ⟨hk, rfl⟩ := List.getElem?_eq_some_iff.mp hx
    obtain ⟨hk', rfl⟩ := List.getElem?_eq_some_iff.mp hy
    exact h k hk hk'
  · intro h k hk hk'
    exact h k _ _ (List.getElem?_eq_getElem hk) (List.getElem?_eq_getElem hk')

/-- The fields of the struct match a window just if the window looks like the run. -/
theorem matches_iff (hsorted : run.Pairwise byOffset) (htyped : ∀ l ∈ run, isTyped l = true) {window : List StackLocalType}
    (hwindow : window <:+: typedLocals locals) (hlength : window.length = run.length) (functionVa baseReg : Nat) :
    ((window.zip (composite functionVa (baseReg, run)).fields).all fun lf => fieldMatches (startOf window) lf.1 lf.2) = true ↔
      LooksLike run window := by
  have hsortedW : window.Pairwise byOffset := (typedLocals_sorted locals).sublist hwindow.sublist
  have hone : ∀ {l l' : StackLocalType}, l ∈ run → l' ∈ window →
      (rel (startOf window) l' = rel (startOf run) l ↔ l'.offset - startOf window = l.offset - startOf run) := by
    intro l l' hl hl'
    have hrel := rel_eq (startOf_ge run) (startOf_le hsorted hl) (isTyped_le (htyped l hl))
    have hrel' := rel_eq (startOf_ge window) (startOf_le hsortedW hl')
      (isTyped_le (isTyped_of_mem_typedLocals (hwindow.mem hl')))
    omega
  rw [LooksLike, forall₂_iff_getElem?, zip_all_iff, and_iff_right hlength.symm]
  constructor
  · intro h k l l' hl hl'
    have hk := h k l' _ hl' (by rw [composite, List.getElem?_mapIdx, hl]; rfl)
    rw [fieldMatches, Bool.and_eq_true, beq_iff_eq] at hk
    exact ⟨(hone (List.mem_of_getElem? hl) (List.mem_of_getElem? hl')).mp hk.1, hk.2⟩
  · intro h k l' f hl' hf
    rw [composite, List.getElem?_mapIdx] at hf
    obtain ⟨l, hl, rfl⟩ := Option.map_eq_some_iff.mp hf
    obtain ⟨hplace, hkind⟩ := h k l l' hl hl'
    rw [fieldMatches, Bool.and_eq_true, beq_iff_eq]
    exact ⟨(hone (List.mem_of_getElem? hl) (List.mem_of_getElem? hl')).mpr hplace, hkind⟩

theorem matchAt_eq_some {typed : List StackLocalType} {fields : List Field} {i : Nat} {o : Int} :
    matchAt typed fields i = some o ↔ ∃ first, typed[i]? = some first ∧ first.offset = o ∧
      (((typed.drop i).take fields.length).zip fields).all (fun lf => fieldMatches first.offset lf.1 lf.2) = true := by
  have hzip : ((typed.drop i).take fields.length).zip fields = (typed.drop i).zip fields := by
    have htake : ((typed.drop i).zip fields).take fields.length =
        ((typed.drop i).take fields.length).zip (fields.take fields.length) := List.take_zipWith
    rw [List.take_length, List.take_of_length_le (by rw [List.length_zip]; omega)] at htake
    exact htake.symm
  rw [matchAt, Option.bind_eq_some_iff, hzip]
  refine exists_congr fun first => and_congr_right fun _ => ?_
  split
  · next h => simp [h]
  · next h => simp [h]

/-- The window of `n` elements at `i`. -/
theorem window_at {typed : List StackLocalType} {i n : Nat} {first : StackLocalType} (hroom : i + n ≤ typed.length)
    (hpos : 0 < n) (hfirst : typed[i]? = some first) :
    ∃ window rest, typed.drop i = window ++ rest ∧ window.length = n ∧ startOf window = first.offset := by
  refine ⟨(typed.drop i).take n, (typed.drop i).drop n, (List.take_append_drop n _).symm, ?_, ?_⟩
  · rw [List.length_take, List.length_drop]
    omega
  · rw [startOf, List.head?_take, if_neg (by omega), List.head?_drop, hfirst]
    rfl

/-- `match_run_base` finds the lowest place that looks like the run. -/
theorem matchRunBase_eq_some_iff (hsorted : run.Pairwise byOffset) (htyped : ∀ l ∈ run, isTyped l = true)
    (hne : run ≠ []) (functionVa baseReg : Nat) (o : Int) :
    matchRunBase locals (composite functionVa (baseReg, run)) = some o ↔ IsLeast (places locals run) o := by
  have hfields : (composite functionVa (baseReg, run)).fields.length = run.length := List.length_mapIdx
  have hpos := List.length_pos_of_ne_nil hne
  unfold matchRunBase
  rw [hfields]
  by_cases hfew : (typedLocals locals).length < run.length
  · -- there are not enough locals for a window
    rw [if_pos hfew]
    refine ⟨fun h => (by cases h), fun h => ?_⟩
    obtain ⟨window, hwindow, hlooks, -⟩ := h.1
    have hlength := hlooks.length_eq
    have hle := hwindow.length_le
    omega
  · rw [if_neg hfew, Grouping.findFirst_eq_some_iff]
    · apply iff_of_eq
      congr 1
      ext o
      constructor
      · intro h
        obtain ⟨i, hi, hmatch⟩ := h
        obtain ⟨first, hfirst, rfl, hall⟩ := matchAt_eq_some.mp hmatch
        rw [hfields] at hall
        obtain ⟨window, rest, hcut, hlength, hstart⟩ := window_at (by omega) hpos hfirst
        rw [hcut, List.take_left' hlength] at hall
        have hinfix : window <:+: typedLocals locals := ⟨(typedLocals locals).take i, rest, by
          rw [List.append_assoc, ← hcut, List.take_append_drop]⟩
        refine ⟨window, hinfix, (matches_iff hsorted htyped hinfix hlength functionVa baseReg).mp ?_, hstart⟩
        rwa [hstart]
      · intro h
        obtain ⟨window, hinfix, hlooks, rfl⟩ := h
        have hlength := hlooks.length_eq
        have hall := (matches_iff hsorted htyped hinfix hlength.symm functionVa baseReg).mpr hlooks
        obtain ⟨before, rest, hcut⟩ := hinfix
        have hsum := congrArg List.length hcut
        rw [List.length_append, List.length_append] at hsum
        have hdrop : (typedLocals locals).drop before.length = window ++ rest := by
          rw [← hcut, List.append_assoc, List.drop_left]
        obtain ⟨first, hfirst⟩ : ∃ first, window.head? = some first := by
          rw [← Option.isSome_iff_exists, List.isSome_head?]
          exact List.ne_nil_of_length_pos (by omega)
        have hstart : startOf window = first.offset := by rw [startOf, hfirst]; rfl
        have hat : (typedLocals locals)[before.length]? = some first := by
          rw [← List.head?_drop, hdrop, List.head?_append, hfirst]
          rfl
        refine ⟨before.length, by omega, matchAt_eq_some.mpr ⟨first, hat, hstart.symm, ?_⟩⟩
        rw [hfields, hdrop, List.take_left' hlength.symm, ← hstart]
        exact hall
    · intro i j a b hij hj ha hb
      obtain ⟨first, hfirst, rfl, -⟩ := matchAt_eq_some.mp ha
      obtain ⟨second, hsecond, rfl, -⟩ := matchAt_eq_some.mp hb
      obtain ⟨hi, rfl⟩ := List.getElem?_eq_some_iff.mp hfirst
      obtain ⟨hj', rfl⟩ := List.getElem?_eq_some_iff.mp hsecond
      rcases Nat.eq_or_lt_of_le hij with heq | hlt
      · simp only [heq, Int.le_refl]
      · exact List.pairwise_iff_getElem.mp (typedLocals_sorted locals) i j hi hj' hlt

end Back

theorem bases_iff (ssa : SsaFunction) (locals : List StackLocalType) (functionVa : Nat) :
    aggregateBaseOffsets locals (inferAggregates ssa locals functionVa) =
        (aggregateRuns ssa locals).map (fun r => (startOf r.2, (composite functionVa r).name)) ↔
      ∀ baseReg, ∀ run ∈ runsOf ssa locals baseReg, IsLeast (places locals run) (startOf run) := by
  have hone : ∀ {baseReg : Nat} {run : List StackLocalType}, run ∈ runsOf ssa locals baseReg → ∀ o,
      (matchRunBase locals (composite functionVa (baseReg, run)) = some o ↔ IsLeast (places locals run) o) := by
    intro baseReg run h
    apply matchRunBase_eq_some_iff (sorted_of_mem h) (fun l => isTyped_of_mem h)
    exact List.ne_nil_of_length_pos (by have := two_le_length h; omega)
  rw [aggregateBaseOffsets, inferAggregates_eq, List.filterMap_map, List.filterMap_eq_map_iff_forall_eq_some]
  constructor
  · intro h baseReg run hrun
    have hr := h (baseReg, run) (mem_aggregateRuns.mpr hrun)
    obtain ⟨o, ho, heq⟩ := Option.map_eq_some_iff.mp hr
    rw [← (Prod.mk.inj heq).1]
    exact (hone hrun o).mp ho
  · intro h r hr
    have hrun := mem_aggregateRuns.mp hr
    have hfound := (hone hrun _).mpr (h r.1 r.2 hrun)
    exact Option.map_eq_some_iff.mpr ⟨_, hfound, rfl⟩

/-- When the structs are well formed. -/
theorem wellFormed_iff (ssa : SsaFunction) (locals : List StackLocalType) (functionVa : Nat) :
    WellFormed ssa locals functionVa ↔ Distinguishable ssa locals := by
  constructor
  · intro h
    refine ⟨(nodup_names_iff ssa locals functionVa).mp h.names, ?_, (bases_iff ssa locals functionVa).mp h.bases⟩
    intro baseReg run hrun
    apply (apart_iff (sorted_of_mem hrun) (fun l => isTyped_of_mem hrun) functionVa baseReg).mp
    apply h.apart
    rw [inferAggregates_eq]
    exact List.mem_map_of_mem (mem_aggregateRuns.mpr hrun)
  · intro h
    have hruns : ∀ agg ∈ inferAggregates ssa locals functionVa, ∃ baseReg, ∃ run ∈ runsOf ssa locals baseReg,
        composite functionVa (baseReg, run) = agg := by
      intro agg hagg
      rw [inferAggregates_eq] at hagg
      obtain ⟨r, hr, rfl⟩ := List.mem_map.mp hagg
      exact ⟨r.1, r.2, mem_aggregateRuns.mp hr, rfl⟩
    refine ⟨(nodup_names_iff ssa locals functionVa).mpr h.oneRun, ?_, ?_, once ssa locals,
      (bases_iff ssa locals functionVa).mpr h.first⟩
    · intro agg hagg
      obtain ⟨baseReg, run, hrun, rfl⟩ := hruns agg hagg
      exact (apart_iff (sorted_of_mem hrun) (fun l => isTyped_of_mem hrun) functionVa baseReg).mpr (h.apart baseReg run hrun)
    · intro agg hagg f hf
      obtain ⟨baseReg, run, hrun, rfl⟩ := hruns agg hagg
      exact field_fits (fun l => isTyped_of_mem hrun) functionVa baseReg hf

/-- A function that names no stack slot: all locals count as based on the default register. -/
def noSlots : SsaFunction := { entryVa := 0x1000, bitness := 64, blocks := [], imageBase := 0, id_eq := by simp }

/-- Two pairs of neighbours with 0x28 bytes between them. -/
def twoPairs : List StackLocalType :=
  [⟨-0x40, .uint 32, by decide, by decide⟩, ⟨-0x3c, .uint 32, by decide, by decide⟩,
    ⟨-0x10, .uint 32, by decide, by decide⟩, ⟨-0xc, .uint 32, by decide, by decide⟩]

/-- Both structs have the same name, and both are found at the first pair. -/
theorem twoPairs_not_wellFormed : ¬ WellFormed noSlots twoPairs 0x1000 ∧
    (inferAggregates noSlots twoPairs 0x1000).map CompositeType.name = ["__ws_1000_28", "__ws_1000_28"] ∧
    aggregateBaseOffsets twoPairs (inferAggregates noSlots twoPairs 0x1000) =
      [(-0x40, "__ws_1000_28"), (-0x40, "__ws_1000_28")] := by
  refine ⟨?_, by decide, by decide⟩
  intro h
  exact absurd h.names (by decide)

end Windy.Decompiler.Types
