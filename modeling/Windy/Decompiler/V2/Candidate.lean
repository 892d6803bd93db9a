import Windy.Decompiler.V2.RegionAst

/- Candidates for the typed AST of a function, and what they are judged by (`decompiler/v2/ast.rs`,
   `contracts.rs`, and what `check_ast.rs` and `cfg_ast.rs` read of `semantic.rs` and `hir.rs`).

   The contracts, the semantic model and the lifted calls come from analyses of their own; here they
   are the records those analyses fill in. Fields nothing below reads are left out: the loops and
   return class of a bundle, the terminators of a model, the provenance, result and clobbers of a
   call. -/
namespace Windy.Decompiler.V2

structure TypedAst where
  name : String
  params : List String
  retTy : String
  body : List Stmt

structure CoverageMaps where
  edges : List String
  effects : List String

structure CaseContractV2 where
  caseCount : Nat
  hasDefault : Bool
  labels : List Int
  source : String

structure TypedAstCandidate where
  ast : TypedAst
  coverage : CoverageMaps
  residualEdges : Nat
  casePartitions : List CaseContractV2
  cost : Int
  nesting : Int
  hitCap : Bool

structure ReturnExitContract where
  blockId : Nat
  valueClass : String

structure ContractBundle where
  cases : List CaseContractV2
  returnExits : List ReturnExitContract

structure SemanticModel where
  succ : List (List Nat)
  hasReturn : Bool

/-- `SwitchInfo`: the values of a jump table with the blocks they lead to. -/
structure SwitchInfo where
  branchVa : Nat
  cases : List (Int × Nat)

/-! ## Lifted calls -/

inductive CallTarget where
  | direct (va : Nat)
  | imported (iatVa : Nat) (symbol : Option String)
  | indirect (target : Nat) (candidates : List Nat)
  | unknown

/-- A call site of the HIR; an argument is the number of its value. -/
structure Win64CallSite where
  target : CallTarget
  arguments : List Nat

structure HirFunction where
  callSites : List Win64CallSite

/-! ## Classes of returned values -/

/-- `expr_class_tag`. -/
def exprClassTag : Expr → String
  | .uint value _ => "const:0x" ++ hex value
  | .int value _ => "const:" ++ toString value
  | .compare op _ _ => "compare:" ++ op
  | .binOp op _ _ => "binop:" ++ op
  | .unaryOp op _ => "unary:" ++ op
  | .select _ _ _ => "select"
  | .call _ _ => "call"
  | .load _ => "load"
  | .cast _ _ => "cast"
  | .name _ => "name"

end Windy.Decompiler.V2
