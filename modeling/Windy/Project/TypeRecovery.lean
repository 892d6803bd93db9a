import Windy.Project.SsaCache
import Windy.Decompiler.Types.Signature

/- The operation that makes recovered types durable (`type_recovery_ops` in `project/mod.rs`).

   One batch sets the types of stack locals, the signature of the function and the types of
   globals. The signature starts from that of the analyzed function, from the signature
   database or from the heuristic. The recovered parameters that have a type are written over
   its parameters in order, the first over the first, whatever their ranks; what is left over is
   appended; and a recovered return type replaces the one that is there.

   There is another projection of the same report (`refine_signature_from_recovery`), which
   changes nothing that is declared or known and goes by rank. What is proved (`sessions_faithful_iff`):
   when the two give the same signature, in terms of what the signature has at each position
   and what was recovered for it.

   Correspondence:
     `typed_params`, `existing` ↔ the same
     the loop over `typed_params` ↔ `placeParams`
     `type_recovery_ops` ↔ the same
     the signature in force, with where it is from ↔ `effective`
   The operand decoder that finds the address of a global is a parameter, and so are the stack
   offsets where a struct starts, with its name (`aggregate_base_offsets`). -/
namespace Windy.TypeRecovery

open Decompiler.Types (TyGuess)
open Decompiler.Recover (StackLocalType ParamType ReturnGuess TypeRecoveryReport)
open Decompiler.Signature
open SsaCache (Image)

/-! ## The batch -/

def typedParams (report : TypeRecoveryReport) : List ParamType := report.params.filter fun p => p.ty ≠ .unknown

/-- A recovered type at the position it comes to: over the parameter there, or behind the last. -/
def placeParam (bits : Nat) (params : List (String × DataType)) (entry : ParamType × Nat) : List (String × DataType) :=
  if entry.2 < params.length then params.modify entry.2 fun q => (q.1, entry.1.ty.toDataType bits)
  else params ++ [("arg" ++ toString (entry.2 + 1), entry.1.ty.toDataType bits)]

/-- The recovered types in order over the parameters, the rest behind them. -/
def placeParams (bits : Nat) (params : List (String × DataType)) (typed : List ParamType) : List (String × DataType) :=
  typed.zipIdx.foldl (placeParam bits) params

/-- The structs found on the stack; of two at one offset the last counts. -/
def localType (bits : Nat) (bases : List (Int × String)) (stackLocal : StackLocalType) : Option DataType :=
  match bases.reverse.lookup stackLocal.offset with
  | some name => some (.named name)
  | none => if stackLocal.ty = .unknown then none else some (stackLocal.ty.toDataType bits)

section Ops
variable {σ : Type} (img : Image σ) (p : Project) (resolveGlobalVa : Nat → Option Nat)

/-- `self.bitness / 8 * 8`. -/
def ptrBits : Nat := img.bitness / 8 * 8

/-- The signature of the analyzed function, the one known for its name, the heuristic one, or
an empty one. -/
def existing (f : SsaCache.Function) : FunctionSignature :=
  (f.signature.or ((img.lookupByName (f.name p)).or (img.recoverSignature f (f.name p)))).getD
    { name := f.name p, params := [], ret := .void, callingConv := none }

def recoveredSignature (report : TypeRecoveryReport) (f : SsaCache.Function) : FunctionSignature :=
  let sig := existing img p f
  { sig with
    params := placeParams (ptrBits img) sig.params (typedParams report)
    ret := report.returnType.elim sig.ret fun r => r.ty.toDataType (ptrBits img) }

def localOps (report : TypeRecoveryReport) (bases : List (Int × String)) : List Op :=
  report.locals.filterMap fun stackLocal =>
    (localType (ptrBits img) bases stackLocal).map fun ty =>
      .setStackLocalType report.functionVa stackLocal.offset ty none

/-- Globals that have a type already keep it. -/
def globalOps (report : TypeRecoveryReport) : List Op :=
  report.globals.filterMap fun g =>
    ((resolveGlobalVa g.instructionVa).filter fun va => (p.typedGlobals.lookup va).isNone).map fun va =>
      .setGlobalType va (g.ty.toDataType (ptrBits img)) none

/-- Whether there is anything to write into a signature. -/
def hasEvidence (report : TypeRecoveryReport) : Bool := !(typedParams report).isEmpty || report.returnType.isSome

def typeRecoveryOps (report : TypeRecoveryReport) (bases : List (Int × String)) : Op :=
  let locals := localOps img report bases
  if hasEvidence report then
    match img.functionAt report.functionVa with
    | none => .batch locals
    | some f =>
      .batch (locals ++ .setFunctionSignature report.functionVa (recoveredSignature img p report f) none ::
        globalOps img p resolveGlobalVa report)
  else .batch (locals ++ globalOps img p resolveGlobalVa report)

end Ops

/-! ## What it should be -/

section Effective
variable {σ : Type} (img : Image σ) (p : Project)

/-- The signature in force and where it is from. What the project stores for an address is
from an operator or from debug information, and both are authoritative. -/
def effective (f : SsaCache.Function) (va : Nat) : FunctionSignature × SignatureSource :=
  match p.functionSignatures.lookup va with
  | some sig => (sig, .user)
  | none =>
    match f.signature with
    | some sig => (sig, .pdb)
    | none => (existing img p f, .heuristic)

/-- The signature that is written is the refinement of the one in force. -/
def Faithful (resolveGlobalVa : Nat → Option Nat) (report : TypeRecoveryReport) (bases : List (Int × String)) : Prop :=
  ∀ ops va sig old, typeRecoveryOps img p resolveGlobalVa report bases = .batch ops →
    .setFunctionSignature va sig old ∈ ops →
    ∃ f, img.functionAt report.functionVa = some f ∧ va = report.functionVa ∧
      sig = refineSignatureFromRecovery (effective img p f va).1 (effective img p f va).2 report (ptrBits img)

end Effective

/-- A recovered type may stand at a position: it is there already, or nothing is known there,
no declaration says so, and it is the first type recovered for that rank. -/
def Fits (bits : Nat) (source : SignatureSource) (recovered : List ParamType) (rank : Nat) (known : DataType) (ty : TyGuess) :
    Prop :=
  known = ty.toDataType bits ∨
    source.isAuthoritative = false ∧ isUnknown known ∧ recoveredAt recovered rank = some ty

/-- The recovered types go where they belong: the signature they are written over has the
names of the one in force; the type that comes to stand at a position fits it; behind the last
one written nothing was recovered for an unknown type; and a recovered return type replaces
`void` or itself. -/
structure Placed (bits : Nat) (found inForce : FunctionSignature) (source : SignatureSource) (report : TypeRecoveryReport) :
    Prop where
  name : found.name = inForce.name
  callingConv : found.callingConv = inForce.callingConv
  written : ∀ i g, (typedParams report)[i]? = some g → ∃ q, inForce.params[i]? = some q ∧
    q.1 = (found.params[i]?.map Prod.fst).getD ("arg" ++ toString (i + 1)) ∧ Fits bits source report.params i q.2 g.ty
  left : ∀ i, (typedParams report).length ≤ i → found.params[i]? = inForce.params[i]? ∧
    (source.isAuthoritative = false → ∀ q, inForce.params[i]? = some q → isUnknown q.2 → recoveredAt report.params i = none)
  ret : match report.returnType with
    | none => found.ret = inForce.ret
    | some g => inForce.ret = g.ty.toDataType bits ∨ source.isAuthoritative = false ∧ isVoid inForce.ret ∧ g.ty ≠ .unknown

/-! ## The parameters position by position -/

section Positions
variable {bits : Nat} {params : List (String × DataType)} {k : Nat}

theorem placeParam_getElem? (hk : k ≤ params.length) (g : ParamType) (i : Nat) :
    (placeParam bits params (g, k))[i]? =
      if i = k then some ((params[k]?.map Prod.fst).getD ("arg" ++ toString (k + 1)), g.ty.toDataType bits) else params[i]? := by
  unfold placeParam
  by_cases hlt : k < params.length
  · rw [if_pos hlt, List.getElem?_modify]
    by_cases hi : i = k
    · subst hi
      simp [List.getElem?_eq_getElem hlt]
    · rw [if_neg hi]
      simp [Ne.symm hi]
  · have hlen : params.length = k := Nat.le_antisymm (Nat.not_lt.mp hlt) hk
    rw [if_neg hlt]
    by_cases hi : i = k
    · subst hi
      rw [if_pos rfl, List.getElem?_append_right (Nat.not_lt.mp hlt), hlen, List.getElem?_eq_none (Nat.not_lt.mp hlt)]
      simp
    · rw [if_neg hi, List.getElem?_append]
      by_cases hilt : i < params.length
      · rw [if_pos hilt]
      · rw [if_neg hilt, List.getElem?_eq_none (Nat.not_lt.mp hilt), List.getElem?_eq_none (by simp; omega)]

theorem length_placeParam (hk : k ≤ params.length) (g : ParamType) : k + 1 ≤ (placeParam bits params (g, k)).length := by
  unfold placeParam
  split
  next hlt => rw [List.length_modify]; exact hlt
  next => rw [List.length_append]; simpa using hk

theorem place_from (typed : List ParamType) (hk : k ≤ params.length) (i : Nat) :
    ((typed.zipIdx k).foldl (placeParam bits) params)[i]? =
      if i < k then params[i]?
      else match typed[i - k]? with
        | some g => some ((params[i]?.map Prod.fst).getD ("arg" ++ toString (i + 1)), g.ty.toDataType bits)
        | none => params[i]? := by
  induction typed generalizing params k with
  | nil => simp
  | cons g typed ih =>
    rw [List.zipIdx_cons, List.foldl_cons, ih (length_placeParam hk g), placeParam_getElem? hk]
    rcases Nat.lt_trichotomy i k with hlt | rfl | hgt
    · rw [if_pos (by omega), if_neg (by omega), if_pos hlt]
    · rw [if_pos (by omega), if_pos rfl, if_neg (Nat.lt_irrefl i), Nat.sub_self, List.getElem?_cons_zero]
    · have hrest : (g :: typed)[i - k]? = typed[i - (k + 1)]? := by
        rw [show i - k = (i - (k + 1)) + 1 by omega, List.getElem?_cons_succ]
      rw [if_neg (by omega), if_neg (by omega), if_neg (by omega), hrest]

end Positions

theorem placeParams_getElem? (bits : Nat) (params : List (String × DataType)) (typed : List ParamType) (i : Nat) :
    (placeParams bits params typed)[i]? =
      match typed[i]? with
      | some g => some ((params[i]?.map Prod.fst).getD ("arg" ++ toString (i + 1)), g.ty.toDataType bits)
      | none => params[i]? := by
  have h := @place_from bits params 0 typed (Nat.zero_le params.length) i
  rwa [if_neg (Nat.not_lt_zero i), Nat.sub_zero] at h

/-! ## The two projections -/

section Signatures
variable {bits : Nat} {source : SignatureSource} {report : TypeRecoveryReport} {found inForce : FunctionSignature}

/-- A parameter of the signature in force as the refinement leaves it. -/
def due (bits : Nat) (source : SignatureSource) (recovered : List ParamType) (i : Nat) (q : String × DataType) : String × DataType :=
  if source.isAuthoritative then q else refined bits recovered i q

theorem refine_getElem? (sig : FunctionSignature) (i : Nat) :
    (refineSignatureFromRecovery sig source report bits).params[i]? = sig.params[i]?.map (due bits source report.params i) := by
  unfold refineSignatureFromRecovery due
  cases source.isAuthoritative with
  | true => simp
  | false => exact refine_params_getElem? bits report.params sig.params i

theorem due_fst (i : Nat) (q : String × DataType) : (due bits source report.params i q).1 = q.1 := by
  unfold due refined
  repeat' split
  all_goals rfl

theorem typed_ne_unknown {i : Nat} {g : ParamType} (h : (typedParams report)[i]? = some g) : g.ty ≠ .unknown := by
  have hmem := List.mem_of_getElem? h
  simpa using (List.mem_filter.mp hmem).2

/-- A known type is left; an unknown one becomes the first type recovered for its rank. -/
theorem due_eq_iff {ty : TyGuess} (hty : ty ≠ .unknown) (i : Nat) (q : String × DataType) :
    (due bits source report.params i q).2 = ty.toDataType bits ↔ Fits bits source report.params i q.2 ty := by
  unfold due Fits refined
  cases hsource : source.isAuthoritative with
  | true => simp
  | false =>
    cases hq : isUnknown q.2 with
    | false =>
      cases recoveredAt report.params i <;> simp
    | true =>
      have hne : q.2 ≠ ty.toDataType bits := by
        intro heq
        rw [heq, isUnknown_toDataType hty] at hq
        cases hq
      cases recoveredAt report.params i with
      | none => simp [hne]
      | some ty' => simp [hne, (toDataType_injective bits).eq_iff]

theorem due_eq_self_iff (hsource : source.isAuthoritative = false) (i : Nat) (q : String × DataType) :
    due bits source report.params i q = q ↔ (isUnknown q.2 → recoveredAt report.params i = none) := by
  unfold due refined
  rw [hsource, if_neg Bool.false_ne_true]
  cases hrec : recoveredAt report.params i with
  | none => simp
  | some ty =>
    cases hq : isUnknown q.2 with
    | false => simp
    | true =>
      simp only [if_true, true_imp_iff, reduceCtorEq, iff_false]
      intro heq
      have hsnd : ty.toDataType bits = q.2 := congrArg Prod.snd heq
      rw [← hsnd, isUnknown_toDataType (recoveredAt_ne_unknown hrec)] at hq
      cases hq

/-- The parameters, one position at a time. -/
theorem params_eq_iff (hsame : source.isAuthoritative = false → found = inForce) :
    placeParams bits found.params (typedParams report) = (refineSignatureFromRecovery inForce source report bits).params ↔
      (∀ i g, (typedParams report)[i]? = some g → ∃ q, inForce.params[i]? = some q ∧
        q.1 = (found.params[i]?.map Prod.fst).getD ("arg" ++ toString (i + 1)) ∧ Fits bits source report.params i q.2 g.ty) ∧
      ∀ i, (typedParams report).length ≤ i → found.params[i]? = inForce.params[i]? ∧
        (source.isAuthoritative = false → ∀ q, inForce.params[i]? = some q → isUnknown q.2 → recoveredAt report.params i = none) := by
  have hwritten : ∀ i g, (typedParams report)[i]? = some g →
      ((placeParams bits found.params (typedParams report))[i]? = (refineSignatureFromRecovery inForce source report bits).params[i]? ↔
        ∃ q, inForce.params[i]? = some q ∧ q.1 = (found.params[i]?.map Prod.fst).getD ("arg" ++ toString (i + 1)) ∧
          Fits bits source report.params i q.2 g.ty) := by
    intro i g hg
    rw [placeParams_getElem?, hg, refine_getElem?, eq_comm, Option.map_eq_some_iff]
    refine exists_congr fun q => and_congr_right fun _ => ?_
    rw [Prod.ext_iff, due_fst, due_eq_iff (typed_ne_unknown hg)]
  have hleft : ∀ i, (typedParams report).length ≤ i →
      ((placeParams bits found.params (typedParams report))[i]? = (refineSignatureFromRecovery inForce source report bits).params[i]? ↔
        found.params[i]? = inForce.params[i]? ∧
          (source.isAuthoritative = false → ∀ q, inForce.params[i]? = some q → isUnknown q.2 → recoveredAt report.params i = none)) := by
    intro i hi
    rw [placeParams_getElem?, List.getElem?_eq_none hi, refine_getElem?]
    cases hsource : source.isAuthoritative with
    | true =>
      have hdue : due bits source report.params i = id := by
        funext q
        simp [due, hsource]
      simp [hdue]
    | false =>
      rw [hsame hsource]
      cases inForce.params[i]? with
      | none => simp
      | some q =>
        simp only [Option.map_some, Option.some.injEq, true_and, true_imp_iff, forall_eq']
        rw [eq_comm, due_eq_self_iff hsource]
  constructor
  · intro h
    exact ⟨fun i g hg => (hwritten i g hg).mp (by rw [h]), fun i hi => (hleft i hi).mp (by rw [h])⟩
  · rintro ⟨h, h'⟩
    refine List.ext_getElem? fun i => ?_
    cases hg : (typedParams report)[i]? with
    | some g => exact (hwritten i g hg).mpr (h i g hg)
    | none => exact (hleft i (List.getElem?_eq_none_iff.mp hg)).mpr (h' i (List.getElem?_eq_none_iff.mp hg))

theorem ret_eq_iff :
    (report.returnType.elim found.ret fun r => r.ty.toDataType bits) = (refineSignatureFromRecovery inForce source report bits).ret ↔
      match report.returnType with
      | none => found.ret = inForce.ret
      | some g => inForce.ret = g.ty.toDataType bits ∨ source.isAuthoritative = false ∧ isVoid inForce.ret ∧ g.ty ≠ .unknown := by
  unfold refineSignatureFromRecovery
  cases source.isAuthoritative with
  | true =>
    cases report.returnType with
    | none => simp
    | some g =>
      simp only [Option.elim_some, if_true, reduceCtorEq, false_and, or_false]
      exact eq_comm
  | false =>
    cases report.returnType with
    | none => simp [refineReturn]
    | some g =>
      simp only [refineReturn, Option.elim_some, Bool.false_eq_true, if_false]
      by_cases hfills : isVoid inForce.ret ∧ g.ty ≠ .unknown
      · simp [hfills.1, hfills.2]
      · have hkeeps : (isVoid inForce.ret && decide (g.ty ≠ .unknown)) = false := by simpa using hfills
        rw [hkeeps]
        simp only [Bool.false_eq_true, if_false, true_and, hfills, or_false]
        exact eq_comm

theorem placed_iff (hsame : source.isAuthoritative = false → found = inForce) :
    { found with
      params := placeParams bits found.params (typedParams report)
      ret := report.returnType.elim found.ret fun r => r.ty.toDataType bits } =
        refineSignatureFromRecovery inForce source report bits ↔
      Placed bits found inForce source report := by
  have hname : (refineSignatureFromRecovery inForce source report bits).name = inForce.name := by
    unfold refineSignatureFromRecovery
    split <;> rfl
  have hconv : (refineSignatureFromRecovery inForce source report bits).callingConv = inForce.callingConv := by
    unfold refineSignatureFromRecovery
    split <;> rfl
  have hparts : ∀ a b : FunctionSignature, a = b ↔ a.name = b.name ∧ a.params = b.params ∧ a.ret = b.ret ∧ a.callingConv = b.callingConv := by
    rintro ⟨⟩ ⟨⟩
    simp
  rw [hparts, hname, hconv, params_eq_iff hsame, ret_eq_iff]
  constructor
  · rintro ⟨h1, ⟨h2, h3⟩, h4, h5⟩
    exact ⟨h1, h5, h2, h3, h4⟩
  · rintro ⟨h1, h5, h2, h3, h4⟩
    exact ⟨h1, ⟨h2, h3⟩, h4, h5⟩

end Signatures

theorem mem_setFunctionSignature {σ : Type} {img : Image σ} {p : Project} {resolveGlobalVa : Nat → Option Nat}
    {report : TypeRecoveryReport} {bases : List (Int × String)} {ops : List Op} {va : Nat} {sig : FunctionSignature}
    {old : Option FunctionSignature} (hops : typeRecoveryOps img p resolveGlobalVa report bases = .batch ops) :
    .setFunctionSignature va sig old ∈ ops ↔
      ∃ f, hasEvidence report ∧ img.functionAt report.functionVa = some f ∧ va = report.functionVa ∧
        sig = recoveredSignature img p report f ∧ old = none := by
  have hlocal : Op.setFunctionSignature va sig old ∉ localOps img report bases := by
    intro h
    obtain ⟨stackLocal, -, h⟩ := List.mem_filterMap.mp h
    obtain ⟨ty, -, h⟩ := Option.map_eq_some_iff.mp h
    cases h
  have hglobal : Op.setFunctionSignature va sig old ∉ globalOps img p resolveGlobalVa report := by
    intro h
    obtain ⟨g, -, h⟩ := List.mem_filterMap.mp h
    obtain ⟨ty, -, h⟩ := Option.map_eq_some_iff.mp h
    cases h
  unfold typeRecoveryOps at hops
  cases hevidence : hasEvidence report with
  | false =>
    rw [hevidence] at hops
    obtain rfl := Op.batch.inj hops
    simp [hlocal, hglobal]
  | true =>
    rw [hevidence] at hops
    cases hf : img.functionAt report.functionVa with
    | none =>
      simp only [hf, if_true, Op.batch.injEq] at hops
      simp [← hops, hlocal]
    | some f =>
      simp only [hf, if_true, Op.batch.injEq] at hops
      simp [← hops, hlocal, hglobal]

theorem effective_heuristic {σ : Type} {img : Image σ} {p : Project} {f : SsaCache.Function} {va : Nat}
    (h : (effective img p f va).2.isAuthoritative = false) : existing img p f = (effective img p f va).1 := by
  unfold effective at h ⊢
  split
  next hstored => simp [hstored, SignatureSource.isAuthoritative] at h
  next hstored =>
    split
    next hdeclared => simp [hstored, hdeclared, SignatureSource.isAuthoritative] at h
    next => rfl

theorem sessions_faithful_iff {σ : Type} (img : Image σ) (p : Project) (resolveGlobalVa : Nat → Option Nat)
    (report : TypeRecoveryReport) (bases : List (Int × String)) :
    Faithful img p resolveGlobalVa report bases ↔
      (hasEvidence report → ∀ f, img.functionAt report.functionVa = some f →
        Placed (ptrBits img) (existing img p f) (effective img p f report.functionVa).1
          (effective img p f report.functionVa).2 report) := by
  obtain ⟨ops, hops⟩ : ∃ ops, typeRecoveryOps img p resolveGlobalVa report bases = .batch ops := by
    unfold typeRecoveryOps
    repeat' split
    all_goals exact ⟨_, rfl⟩
  constructor
  · intro h hevidence f hf
    have hmem := (mem_setFunctionSignature hops).mpr ⟨f, hevidence, hf, rfl, rfl, rfl⟩
    obtain ⟨f', hf', -, heq⟩ := h ops _ _ _ hops hmem
    obtain rfl := Option.some.inj (hf.symm.trans hf')
    exact (placed_iff effective_heuristic).mp heq
  · intro h ops' va sig old hops' hmem
    obtain ⟨f, hevidence, hf, rfl, rfl, -⟩ := (mem_setFunctionSignature hops').mp hmem
    exact ⟨f, hf, rfl, (placed_iff effective_heuristic).mpr (h hevidence f hf)⟩

/-! ## A type for the second parameter -/

def twoUnknown : FunctionSignature :=
  { name := "main", params := [("a", .unknown 8), ("b", .unknown 8)], ret := .void, callingConv := none }

/-- The heuristic knows two parameters and no types. -/
def unknownImage : Image SsaCache.CallAbiInputs :=
  { SsaCache.mainImage with recoverSignature := fun _ _ => some twoUnknown }

/-- Nothing is known of RCX, and RDX is an `int32`. -/
def secondTyped : TypeRecoveryReport :=
  { functionVa := 4096, locals := [], params := [⟨0, .unknown, .unknown⟩, ⟨1, .int 32, .unknown⟩], returnType := none,
    globals := [], typedDefCount := 1, localsRetyped := 0, defTypes := ∅ }

/-- The first parameter gets the type of the second. -/
theorem secondTyped_not_faithful : ¬ Faithful unknownImage SsaCache.noEdits (fun _ => none) secondTyped [] := by
  intro h
  have hops : typeRecoveryOps unknownImage SsaCache.noEdits (fun _ => none) secondTyped [] =
      .batch [.setFunctionSignature 4096 { twoUnknown with params := [("a", .int 32), ("b", .unknown 8)] } none] := rfl
  obtain ⟨f, hf, -, heq⟩ := h _ _ _ _ hops (List.mem_singleton.mpr rfl)
  obtain rfl := Option.some.inj hf
  have hparams := congrArg (fun sig => sig.params[0]?) heq
  cases hparams

end Windy.TypeRecovery
