import Windy.Decompiler.Types.Recover

/- Recovered types projected onto a signature (`decompiler/types/signature.rs`).

   A declaration from debug information or from an operator is kept as it is. In a heuristic
   signature a parameter whose type is unknown takes the type recovered for its own rank, the
   first one reported for it, and a return type `void` takes the recovered one. No parameter is
   added, and nothing that is known is changed (`refine_params_getElem?`).

   Correspondence:
     `SignatureSource`, `is_authoritative`, `refine_signature_from_recovery` ↔ the same -/
namespace Windy.Decompiler.Signature

open Types (TyGuess)
open Recover (ParamType ReturnGuess TypeRecoveryReport)

inductive SignatureSource where
  | heuristic
  | pdb
  | user
  deriving DecidableEq, Repr

def SignatureSource.isAuthoritative : SignatureSource → Bool
  | .heuristic => false
  | .pdb => true
  | .user => true

/-- `matches!(ty, DataType::Unknown(_))`. -/
def isUnknown : DataType → Bool
  | .unknown _ => true
  | _ => false

def isVoid : DataType → Bool
  | .void => true
  | _ => false

/-- One recovered parameter: the parameter of its rank, if there is one of unknown type. -/
def refineParam (fallbackBits : Nat) (params : List (String × DataType)) (recovered : ParamType) : List (String × DataType) :=
  if recovered.ty = .unknown then params
  else params.modify recovered.rank fun q => if isUnknown q.2 then (q.1, recovered.ty.toDataType fallbackBits) else q

def refineReturn (fallbackBits : Nat) (ret : DataType) (guess : Option ReturnGuess) : DataType :=
  match guess with
  | some g => if isVoid ret && g.ty ≠ .unknown then g.ty.toDataType fallbackBits else ret
  | none => ret

def refineSignatureFromRecovery (signature : FunctionSignature) (source : SignatureSource) (recovery : TypeRecoveryReport)
    (fallbackBits : Nat) : FunctionSignature :=
  if source.isAuthoritative then signature
  else
    { signature with
      params := recovery.params.foldl (refineParam fallbackBits) signature.params
      ret := refineReturn fallbackBits signature.ret recovery.returnType }

/-! ## What each parameter is given -/

/-- The first type recovered for a rank. -/
def recoveredAt (recovered : List ParamType) (rank : Nat) : Option TyGuess :=
  (recovered.find? fun p => p.rank = rank && p.ty ≠ .unknown).map ParamType.ty

theorem recoveredAt_cons (p : ParamType) (recovered : List ParamType) (rank : Nat) :
    recoveredAt (p :: recovered) rank = if p.rank = rank ∧ p.ty ≠ .unknown then some p.ty else recoveredAt recovered rank := by
  by_cases h : p.rank = rank ∧ p.ty ≠ .unknown
  · rw [if_pos h]
    simp [recoveredAt, h.1, h.2]
  · rw [if_neg h]
    have hskip : (decide (p.rank = rank) && decide (p.ty ≠ .unknown)) = false := by simpa using h
    simp only [recoveredAt, List.find?_cons, hskip]

theorem recoveredAt_ne_unknown {recovered : List ParamType} {rank : Nat} {ty : TyGuess}
    (h : recoveredAt recovered rank = some ty) : ty ≠ .unknown := by
  obtain ⟨p, hfind, rfl⟩ := Option.map_eq_some_iff.mp h
  have := List.find?_some hfind
  simp only [Bool.and_eq_true, decide_eq_true_eq] at this
  exact this.2

theorem isUnknown_toDataType {bits : Nat} {ty : TyGuess} (h : ty ≠ .unknown) : isUnknown (ty.toDataType bits) = false := by
  cases ty with
  | unknown => exact absurd rfl h
  | _ => rfl

theorem toDataType_injective (bits : Nat) : Function.Injective (TyGuess.toDataType bits) := by
  intro a
  induction a with
  | ptr inner ih =>
    intro b h
    cases b <;> simp only [TyGuess.toDataType, reduceCtorEq, DataType.ptr.injEq] at h
    exact congrArg TyGuess.ptr (ih h)
  | int n =>
    intro b h
    cases b <;> simp only [TyGuess.toDataType, reduceCtorEq, DataType.int.injEq] at h
    exact congrArg TyGuess.int (UInt8.toNat_inj.mp h)
  | uint n =>
    intro b h
    cases b <;> simp only [TyGuess.toDataType, reduceCtorEq, DataType.uint.injEq] at h
    exact congrArg TyGuess.uint (UInt8.toNat_inj.mp h)
  | _ =>
    intro b h
    cases b <;> first | rfl | (simp only [TyGuess.toDataType, reduceCtorEq] at h)

/-- A parameter as it is after the refinement. -/
def refined (bits : Nat) (recovered : List ParamType) (rank : Nat) (q : String × DataType) : String × DataType :=
  match recoveredAt recovered rank with
  | some ty => if isUnknown q.2 then (q.1, ty.toDataType bits) else q
  | none => q

theorem refine_params_getElem? (bits : Nat) (recovered : List ParamType) (params : List (String × DataType)) (i : Nat) :
    (recovered.foldl (refineParam bits) params)[i]? = params[i]?.map (refined bits recovered i) := by
  induction recovered generalizing params with
  | nil =>
    have hsame : refined bits [] i = id := rfl
    rw [hsame, Option.map_id, id, List.foldl_nil]
  | cons p recovered ih =>
    rw [List.foldl_cons, ih]
    unfold refineParam
    by_cases hunknown : p.ty = .unknown
    · rw [if_pos hunknown]
      congr 1
      funext q
      simp [refined, recoveredAt_cons, hunknown]
    · rw [if_neg hunknown, List.getElem?_modify, Option.map_eq_map, Option.map_map]
      congr 1
      funext q
      by_cases hrank : p.rank = i
      · -- What is filled in is known to the entries behind it.
        simp only [Function.comp_apply, hrank, if_true, refined, recoveredAt_cons, hunknown, ne_eq, not_false_eq_true, and_self]
        cases hq : isUnknown q.2 with
        | true =>
          cases recoveredAt recovered i with
          | none => rfl
          | some ty => simp [isUnknown_toDataType hunknown]
        | false => cases recoveredAt recovered i <;> simp [hq]
      · simp [hrank, refined, recoveredAt_cons]

end Windy.Decompiler.Signature
