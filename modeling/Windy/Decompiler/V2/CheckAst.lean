import Mathlib.Combinatorics.Hall.Basic
import Mathlib.Data.List.Dedup
import Windy.Analysis.Sketch
import Windy.Decompiler.V2.Candidate

/- The checker of candidates (`check_typed_candidate_with_hir` in `decompiler/v2/check_ast.rs`).

   A candidate is rejected for any of nine reasons. What it says about calls it decides by totals:
   the number of call expressions anywhere in the body against the number of call sites, and, when
   these are equal, the number of all arguments. Which function a call names is never looked at, so
   a lost call is made up for by any other call.

   The classes of returned values it compares one by one, and there it keeps its word.

   What is proved:
     1. `missesClass_iff`: the two tests on return classes reject exactly when one of at
        least two expected classes is missing.
     2. `accepted_iff`: a candidate is accepted when none of the tests fails.
     3. `admits_no_lost_call_iff`: an accepted candidate keeps every direct call, with
        its name and its arguments, exactly when every group of direct call sites finds
        enough calls that fit.

   Correspondence:
     `check_typed_candidate_with_hir` ↔ `checkTypedCandidateWithHir` (`rejects` in the
       order of the source; a report is accepted when it has none)
     `collect_call_arg_counts`, `collect_expr_call_arg_counts` ↔ `collectCallArgCounts`,
       `Expr.collectCallArgCounts`
     `collect_return_classes`, `collect_assigned_names` ↔ the same
     `ast_has_unresolved_placeholders` ↔ `TypedAst.hasUnresolvedPlaceholders` -/
namespace Windy.Decompiler.V2

/-! ## Calls -/

mutual

/-- `collect_expr_call_arg_counts`. -/
def Expr.collectCallArgCounts : Expr → List Nat
  | .call _ args => args.length :: Expr.collectCallArgCountsOf args
  | .binOp _ lhs rhs | .compare _ lhs rhs => lhs.collectCallArgCounts ++ rhs.collectCallArgCounts
  | .unaryOp _ arg | .cast _ arg | .load arg => arg.collectCallArgCounts
  | .select cond thenE elseE =>
    cond.collectCallArgCounts ++ thenE.collectCallArgCounts ++ elseE.collectCallArgCounts
  | .name _ | .int _ _ | .uint _ _ => []

def Expr.collectCallArgCountsOf : List Expr → List Nat
  | [] => []
  | e :: rest => e.collectCallArgCounts ++ Expr.collectCallArgCountsOf rest

end

mutual

def Stmt.collectCallArgCounts : Stmt → List Nat
  | .ret (some expr) | .assign _ expr | .expr expr => expr.collectCallArgCounts
  | .ifThenElse cond thenBody elseBody =>
    cond.collectCallArgCounts ++ collectCallArgCounts thenBody ++ collectCallArgCounts elseBody
  | .while cond body => cond.collectCallArgCounts ++ collectCallArgCounts body
  | .switch scrutinee cases defaultBody =>
    scrutinee.collectCallArgCounts ++ collectCallArgCountsOfCases cases ++ collectCallArgCounts defaultBody
  | .ret none | .label _ | .goto _ | .break | .continue | .comment _ | .rawBlock _ => []

/-- `collect_call_arg_counts`. -/
def collectCallArgCounts : List Stmt → List Nat
  | [] => []
  | stmt :: rest => stmt.collectCallArgCounts ++ collectCallArgCounts rest

def collectCallArgCountsOfCases : List (List Int × List Stmt) → List Nat
  | [] => []
  | (_, body) :: rest => collectCallArgCounts body ++ collectCallArgCountsOfCases rest

end

/-! ## Returns -/

mutual

def Stmt.hasReturn : Stmt → Bool
  | .ret _ => true
  | .ifThenElse _ thenBody elseBody => astHasReturn thenBody || astHasReturn elseBody
  | .while _ body => astHasReturn body
  | .switch _ cases defaultBody => casesHaveReturn cases || astHasReturn defaultBody
  | _ => false

/-- `ast_has_return`. -/
def astHasReturn : List Stmt → Bool
  | [] => false
  | stmt :: rest => stmt.hasReturn || astHasReturn rest

def casesHaveReturn : List (List Int × List Stmt) → Bool
  | [] => false
  | (_, body) :: rest => astHasReturn body || casesHaveReturn rest

end

mutual

def Stmt.collectReturnClasses : Stmt → List String
  | .ret (some expr) => [exprClassTag expr]
  | .ret none => ["void"]
  | .ifThenElse _ thenBody elseBody => collectReturnClasses thenBody ++ collectReturnClasses elseBody
  | .while _ body => collectReturnClasses body
  | .switch _ cases defaultBody => collectReturnClassesOfCases cases ++ collectReturnClasses defaultBody
  | _ => []

/-- `collect_return_classes`. -/
def collectReturnClasses : List Stmt → List String
  | [] => []
  | stmt :: rest => stmt.collectReturnClasses ++ collectReturnClasses rest

def collectReturnClassesOfCases : List (List Int × List Stmt) → List String
  | [] => []
  | (_, body) :: rest => collectReturnClasses body ++ collectReturnClassesOfCases rest

end

/-! ## Placeholders -/

def isAsciiAlphanumeric (c : Char) : Bool := c.isAlphanum

def isWordChar (c : Char) : Bool := isAsciiAlphanumeric c || c = '_'

/-- The last word of a parameter, without what surrounds its name. -/
def paramName (param : String) : String :=
  let last := (param.toList.reverse.dropWhile Sketch.isWhitespace).takeWhile fun c => !Sketch.isWhitespace c
  String.ofList ((last.dropWhile fun c => !isWordChar c).reverse.dropWhile fun c => !isWordChar c)

mutual

def Stmt.collectAssignedNames : Stmt → List String
  | .assign dest _ => if dest ≠ "" && dest.toList.all isWordChar then [dest] else []
  | .ifThenElse _ thenBody elseBody => collectAssignedNames thenBody ++ collectAssignedNames elseBody
  | .while _ body => collectAssignedNames body
  | .switch _ cases defaultBody => collectAssignedNamesOfCases cases ++ collectAssignedNames defaultBody
  | _ => []

/-- `collect_assigned_names`. -/
def collectAssignedNames : List Stmt → List String
  | [] => []
  | stmt :: rest => stmt.collectAssignedNames ++ collectAssignedNames rest

def collectAssignedNamesOfCases : List (List Int × List Stmt) → List String
  | [] => []
  | (_, body) :: rest => collectAssignedNames body ++ collectAssignedNamesOfCases rest

end

/-- A name the extractor makes up: `a`, `b`, `ret` and `cond_` with a number. -/
def isSyntheticName (name : String) : Bool :=
  let suffix := name.toList.drop 5
  name = "a" || name = "b" || name = "ret" ||
    ("cond_".toList.isPrefixOf name.toList && !suffix.isEmpty && suffix.all Char.isDigit)

mutual

/-- `expr_has_unresolved_placeholder`. -/
def Expr.hasUnresolvedPlaceholder (bound : List String) : Expr → Bool
  | .name text => isSyntheticName text && !bound.contains text
  | .call _ args => Expr.anyUnresolvedPlaceholder bound args
  | .binOp _ lhs rhs | .compare _ lhs rhs =>
    lhs.hasUnresolvedPlaceholder bound || rhs.hasUnresolvedPlaceholder bound
  | .unaryOp _ arg | .cast _ arg | .load arg => arg.hasUnresolvedPlaceholder bound
  | .select cond thenE elseE =>
    cond.hasUnresolvedPlaceholder bound || thenE.hasUnresolvedPlaceholder bound ||
      elseE.hasUnresolvedPlaceholder bound
  | .int _ _ | .uint _ _ => false

def Expr.anyUnresolvedPlaceholder (bound : List String) : List Expr → Bool
  | [] => false
  | e :: rest => e.hasUnresolvedPlaceholder bound || Expr.anyUnresolvedPlaceholder bound rest

end

mutual

def Stmt.hasUnresolvedPlaceholder (bound : List String) : Stmt → Bool
  | .ret (some expr) | .assign _ expr | .expr expr => expr.hasUnresolvedPlaceholder bound
  | .ifThenElse cond thenBody elseBody =>
    cond.hasUnresolvedPlaceholder bound || stmtsHaveUnresolvedPlaceholders bound thenBody ||
      stmtsHaveUnresolvedPlaceholders bound elseBody
  | .while cond body => cond.hasUnresolvedPlaceholder bound || stmtsHaveUnresolvedPlaceholders bound body
  | .switch scrutinee cases defaultBody =>
    scrutinee.hasUnresolvedPlaceholder bound || casesHaveUnresolvedPlaceholders bound cases ||
      stmtsHaveUnresolvedPlaceholders bound defaultBody
  | .ret none | .label _ | .goto _ | .break | .continue | .comment _ | .rawBlock _ => false

/-- `stmts_have_unresolved_placeholders`. -/
def stmtsHaveUnresolvedPlaceholders (bound : List String) : List Stmt → Bool
  | [] => false
  | stmt :: rest => stmt.hasUnresolvedPlaceholder bound || stmtsHaveUnresolvedPlaceholders bound rest

def casesHaveUnresolvedPlaceholders (bound : List String) : List (List Int × List Stmt) → Bool
  | [] => false
  | (_, body) :: rest => stmtsHaveUnresolvedPlaceholders bound body || casesHaveUnresolvedPlaceholders bound rest

end

/-- `ast_has_unresolved_placeholders`: parameters and assigned names are no placeholders. -/
def TypedAst.hasUnresolvedPlaceholders (ast : TypedAst) : Bool :=
  let bound := (ast.params.map paramName).filter (· ≠ "") ++ collectAssignedNames ast.body
  stmtsHaveUnresolvedPlaceholders bound ast.body

/-! ## The checker -/

inductive FailureStage where
  | checker
  | extract
  deriving DecidableEq

structure CheckReport where
  accepted : Bool
  edgesCovered : Nat
  effectsCovered : Nat
  rejects : List String
  candidatesTried : Nat
  candidatesAccepted : Nat
  failureStage : Option FailureStage
  hitCandidateCap : Bool

/-- `effects_has`. -/
def effectsHas (effects : List String) (kind : String) : Bool :=
  effects.any fun e => e = kind || (kind ++ ":").toList.isPrefixOf e.toList

def tooManyResidualEdges (sem : SemanticModel) (cand : TypedAstCandidate) : Bool :=
  let totalEdges := (sem.succ.map List.length).sum
  cand.coverage.edges.length + cand.residualEdges < totalEdges - 1 && totalEdges / 2 + 4 < cand.residualEdges

def missingReturnEffect (sem : SemanticModel) (cand : TypedAstCandidate) : Bool :=
  sem.hasReturn && !(effectsHas cand.coverage.effects "return" || astHasReturn cand.ast.body)

/-- The classes the contracts name, each once, without the unknown one. -/
def expectedClasses (contracts : ContractBundle) : List String :=
  ((contracts.returnExits.map ReturnExitContract.valueClass).filter (· ≠ "unknown")).dedup

/-- The return classes of the body, each once. -/
def actualClasses (cand : TypedAstCandidate) : List String := (collectReturnClasses cand.ast.body).dedup

def classRejects (contracts : ContractBundle) (cand : TypedAstCandidate) : List (String × FailureStage) :=
  if (expectedClasses contracts).length > 1 then
    if (actualClasses cand).length < (expectedClasses contracts).length then
      [("collapsed_distinct_return_exits", .checker)]
    else if (expectedClasses contracts).any fun expected => !(actualClasses cand).contains expected then
      [("changed_distinct_return_exit_classes", .checker)]
    else []
  else []

def expectedArgs (hir : HirFunction) : Nat := (hir.callSites.map fun call => call.arguments.length).sum

def actualArgs (cand : TypedAstCandidate) : Nat := (collectCallArgCounts cand.ast.body).sum

def actualCalls (cand : TypedAstCandidate) : Nat := (collectCallArgCounts cand.ast.body).length

def callRejects (hir : HirFunction) (cand : TypedAstCandidate) : List (String × FailureStage) :=
  if actualCalls cand < hir.callSites.length then [("dropped_call_count", .checker)]
  else if actualCalls cand = hir.callSites.length ∧ actualArgs cand < expectedArgs hir then
    [("dropped_call_arguments", .checker)]
  else []

/-- One reject, if the test fails. -/
def rejectIf (fails : Bool) (reason : String) (stage : FailureStage) : List (String × FailureStage) :=
  if fails then [(reason, stage)] else []

def isRawBlock : Stmt → Bool
  | .rawBlock _ => true
  | _ => false

def rejectsOf (sem : SemanticModel) (contracts : ContractBundle) (cand : TypedAstCandidate)
    (hir : Option HirFunction) : List (String × FailureStage) :=
  let hirRejects := match hir with
    | some hir => callRejects hir cand ++
        rejectIf cand.ast.hasUnresolvedPlaceholders "unresolved_ast_placeholders" .checker
    | none => []
  rejectIf (tooManyResidualEdges sem cand) "too_many_residual_edges" .checker ++
    rejectIf (missingReturnEffect sem cand) "missing_return_effect" .checker ++
    classRejects contracts cand ++ hirRejects ++
    rejectIf cand.ast.body.isEmpty "empty_ast" .extract ++
    rejectIf (cand.ast.body.any isRawBlock) "raw_block_not_allowed_on_pure" .extract

/-- `check_typed_candidate_with_hir`. -/
def checkTypedCandidateWithHir (sem : SemanticModel) (contracts : ContractBundle) (cand : TypedAstCandidate)
    (hir : Option HirFunction) : CheckReport :=
  let rejects := rejectsOf sem contracts cand hir
  { accepted := rejects.isEmpty
    edgesCovered := cand.coverage.edges.length
    effectsCovered := cand.coverage.effects.length
    rejects := rejects.map Prod.fst
    candidatesTried := 1
    candidatesAccepted := if rejects.isEmpty then 1 else 0
    failureStage := rejects.getLast?.map Prod.snd
    hitCandidateCap := cand.hitCap }

/-! ## The call expressions of a body -/

mutual

/-- The calls in an expression, outer before inner: the name and the number of arguments. -/
def Expr.calls : Expr → List (String × Nat)
  | .call target args => (target, args.length) :: Expr.callsOf args
  | .binOp _ lhs rhs | .compare _ lhs rhs => lhs.calls ++ rhs.calls
  | .unaryOp _ arg | .cast _ arg | .load arg => arg.calls
  | .select cond thenE elseE => cond.calls ++ thenE.calls ++ elseE.calls
  | .name _ | .int _ _ | .uint _ _ => []

def Expr.callsOf : List Expr → List (String × Nat)
  | [] => []
  | e :: rest => e.calls ++ Expr.callsOf rest

end

mutual

def Stmt.calls : Stmt → List (String × Nat)
  | .ret (some expr) | .assign _ expr | .expr expr => expr.calls
  | .ifThenElse cond thenBody elseBody => cond.calls ++ callsOf thenBody ++ callsOf elseBody
  | .while cond body => cond.calls ++ callsOf body
  | .switch scrutinee cases defaultBody => scrutinee.calls ++ callsOfCases cases ++ callsOf defaultBody
  | .ret none | .label _ | .goto _ | .break | .continue | .comment _ | .rawBlock _ => []

/-- The call expressions of a body, at any depth. -/
def callsOf : List Stmt → List (String × Nat)
  | [] => []
  | stmt :: rest => stmt.calls ++ callsOf rest

def callsOfCases : List (List Int × List Stmt) → List (String × Nat)
  | [] => []
  | (_, body) :: rest => callsOf body ++ callsOfCases rest

end

mutual

theorem Expr.collectCallArgCounts_eq (e : Expr) : e.collectCallArgCounts = e.calls.map Prod.snd := by
  cases e with
  | call target args => simp [Expr.collectCallArgCounts, Expr.calls, Expr.collectCallArgCountsOf_eq args]
  | binOp op lhs rhs =>
    simp [Expr.collectCallArgCounts, Expr.calls, lhs.collectCallArgCounts_eq, rhs.collectCallArgCounts_eq]
  | compare op lhs rhs =>
    simp [Expr.collectCallArgCounts, Expr.calls, lhs.collectCallArgCounts_eq, rhs.collectCallArgCounts_eq]
  | unaryOp op arg => simp [Expr.collectCallArgCounts, Expr.calls, arg.collectCallArgCounts_eq]
  | cast ty arg => simp [Expr.collectCallArgCounts, Expr.calls, arg.collectCallArgCounts_eq]
  | load addr => simp [Expr.collectCallArgCounts, Expr.calls, addr.collectCallArgCounts_eq]
  | select cond thenE elseE =>
    simp [Expr.collectCallArgCounts, Expr.calls, cond.collectCallArgCounts_eq, thenE.collectCallArgCounts_eq,
      elseE.collectCallArgCounts_eq]
  | name _ => simp [Expr.collectCallArgCounts, Expr.calls]
  | int _ _ => simp [Expr.collectCallArgCounts, Expr.calls]
  | uint _ _ => simp [Expr.collectCallArgCounts, Expr.calls]

theorem Expr.collectCallArgCountsOf_eq (es : List Expr) :
    Expr.collectCallArgCountsOf es = (Expr.callsOf es).map Prod.snd := by
  cases es with
  | nil => simp [Expr.collectCallArgCountsOf, Expr.callsOf]
  | cons e rest =>
    simp [Expr.collectCallArgCountsOf, Expr.callsOf, e.collectCallArgCounts_eq,
      Expr.collectCallArgCountsOf_eq rest]

end

mutual

theorem Stmt.collectCallArgCounts_eq (stmt : Stmt) : stmt.collectCallArgCounts = stmt.calls.map Prod.snd := by
  cases stmt with
  | ret expr =>
    cases expr with
    | none => simp [Stmt.collectCallArgCounts, Stmt.calls]
    | some expr => simp [Stmt.collectCallArgCounts, Stmt.calls, expr.collectCallArgCounts_eq]
  | assign dest expr => simp [Stmt.collectCallArgCounts, Stmt.calls, expr.collectCallArgCounts_eq]
  | expr expr => simp [Stmt.collectCallArgCounts, Stmt.calls, expr.collectCallArgCounts_eq]
  | ifThenElse cond thenBody elseBody =>
    simp [Stmt.collectCallArgCounts, Stmt.calls, cond.collectCallArgCounts_eq, collectCallArgCounts_eq thenBody,
      collectCallArgCounts_eq elseBody]
  | «while» cond body =>
    simp [Stmt.collectCallArgCounts, Stmt.calls, cond.collectCallArgCounts_eq, collectCallArgCounts_eq body]
  | switch scrutinee cases defaultBody =>
    simp [Stmt.collectCallArgCounts, Stmt.calls, scrutinee.collectCallArgCounts_eq,
      collectCallArgCountsOfCases_eq cases, collectCallArgCounts_eq defaultBody]
  | label _ => simp [Stmt.collectCallArgCounts, Stmt.calls]
  | goto _ => simp [Stmt.collectCallArgCounts, Stmt.calls]
  | «break» => simp [Stmt.collectCallArgCounts, Stmt.calls]
  | «continue» => simp [Stmt.collectCallArgCounts, Stmt.calls]
  | comment _ => simp [Stmt.collectCallArgCounts, Stmt.calls]
  | rawBlock _ => simp [Stmt.collectCallArgCounts, Stmt.calls]

theorem collectCallArgCounts_eq (stmts : List Stmt) :
    V2.collectCallArgCounts stmts = (callsOf stmts).map Prod.snd := by
  cases stmts with
  | nil => simp [V2.collectCallArgCounts, callsOf]
  | cons stmt rest =>
    simp [V2.collectCallArgCounts, callsOf, stmt.collectCallArgCounts_eq, collectCallArgCounts_eq rest]

theorem collectCallArgCountsOfCases_eq (cases : List (List Int × List Stmt)) :
    collectCallArgCountsOfCases cases = (callsOfCases cases).map Prod.snd := by
  cases cases with
  | nil => simp [collectCallArgCountsOfCases, callsOfCases]
  | cons entry rest =>
    simp [collectCallArgCountsOfCases, callsOfCases, collectCallArgCounts_eq entry.2,
      collectCallArgCountsOfCases_eq rest]

end

/-! ## What acceptance means -/

section Acceptance
variable (names : Nat → Option String) (sem : SemanticModel) (contracts : ContractBundle) (cand : TypedAstCandidate)
  (hir : HirFunction)

/-- If two classes are expected, each expected one is that of some return. -/
def KeepsClasses : Prop :=
  1 < (expectedClasses contracts).length → ∀ c ∈ expectedClasses contracts, c ∈ collectReturnClasses cand.ast.body

/-- The candidate fails one of the tests of the checker. -/
def FailsTest : Prop :=
  tooManyResidualEdges sem cand = true ∨ missingReturnEffect sem cand = true ∨ ¬ KeepsClasses contracts cand ∨
    (callsOf cand.ast.body).length < hir.callSites.length ∨
    ((callsOf cand.ast.body).length = hir.callSites.length ∧
      ((callsOf cand.ast.body).map Prod.snd).sum < expectedArgs hir) ∨
    cand.ast.hasUnresolvedPlaceholders = true ∨ cand.ast.body = [] ∨ ∃ text, .rawBlock text ∈ cand.ast.body

variable {sem contracts cand hir}

theorem actualCalls_eq : actualCalls cand = (callsOf cand.ast.body).length := by
  rw [actualCalls, collectCallArgCounts_eq, List.length_map]

theorem actualArgs_eq : actualArgs cand = ((callsOf cand.ast.body).map Prod.snd).sum := by
  rw [actualArgs, collectCallArgCounts_eq]

/-- Fewer classes than expected means that an expected one is missing. -/
theorem missesClass_iff : classRejects contracts cand = [] ↔ KeepsClasses contracts cand := by
  unfold classRejects KeepsClasses
  by_cases hmany : (expectedClasses contracts).length > 1
  · rw [if_pos hmany]
    have hmem : ∀ c, c ∈ actualClasses cand ↔ c ∈ collectReturnClasses cand.ast.body := fun c => List.mem_dedup
    by_cases hfewer : (actualClasses cand).length < (expectedClasses contracts).length
    · rw [if_pos hfewer]
      refine iff_of_false (List.cons_ne_nil _ _) fun hall => ?_
      have hsub : expectedClasses contracts ⊆ actualClasses cand := fun c hc => (hmem c).mpr (hall hmany c hc)
      have hle : (expectedClasses contracts).length ≤ (actualClasses cand).length :=
        ((List.nodup_dedup _).subperm hsub).length_le
      omega
    · rw [if_neg hfewer]
      split
      · next hany =>
        obtain ⟨c, hc, hnot⟩ := List.any_eq_true.mp hany
        refine iff_of_false (List.cons_ne_nil _ _) fun hall => ?_
        have hin := (hmem c).mpr (hall hmany c hc)
        simp [hin] at hnot
      · next hany =>
        refine iff_of_true rfl fun _ c hc => (hmem c).mp ?_
        by_contra hnot
        exact hany (List.any_eq_true.mpr ⟨c, hc, by simp [hnot]⟩)
  · rw [if_neg hmany]
    exact iff_of_true rfl fun h => absurd h hmany

theorem rejectIf_eq_nil {fails : Bool} {reason : String} {stage : FailureStage} :
    rejectIf fails reason stage = [] ↔ fails = false := by
  cases fails <;> simp [rejectIf]

theorem callRejects_eq_nil : callRejects hir cand = [] ↔
    ¬ (callsOf cand.ast.body).length < hir.callSites.length ∧
      ¬ ((callsOf cand.ast.body).length = hir.callSites.length ∧
        ((callsOf cand.ast.body).map Prod.snd).sum < expectedArgs hir) := by
  unfold callRejects
  rw [actualCalls_eq, actualArgs_eq]
  split
  · next h => simp [h]
  · next h =>
    split
    · next h' => simp [h']
    · next h' => exact iff_of_true rfl ⟨h, h'⟩

/-- The report is accepted exactly when no test fails. -/
theorem accepted_iff :
    (checkTypedCandidateWithHir sem contracts cand (some hir)).accepted = true ↔
      ¬ FailsTest sem contracts cand hir := by
  have hraw : cand.ast.body.any isRawBlock = false ↔ ¬ ∃ text, .rawBlock text ∈ cand.ast.body := by
    rw [← Bool.not_eq_true, List.any_eq_true, not_iff_not]
    constructor
    · rintro ⟨stmt, hmem, hstmt⟩
      cases stmt <;> simp_all [isRawBlock]
      exact ⟨_, hmem⟩
    · rintro ⟨text, hmem⟩
      exact ⟨_, hmem, rfl⟩
  have hempty : cand.ast.body.isEmpty = false ↔ ¬ cand.ast.body = [] := by
    rw [← Bool.not_eq_true, List.isEmpty_iff]
  show (rejectsOf sem contracts cand (some hir)).isEmpty = true ↔ _
  rw [List.isEmpty_iff]
  simp only [rejectsOf, FailsTest, List.append_eq_nil_iff, rejectIf_eq_nil, missesClass_iff, callRejects_eq_nil, hraw,
    hempty, not_or, not_not, Bool.not_eq_true]
  tauto

/-! ## Lost calls -/

/-- The call expression stands for the call site: it names the target, by address or by
its known name, and has at least as many arguments. -/
def fits (site : Win64CallSite) (call : String × Nat) : Bool :=
  match site.target with
  | .direct va =>
    (call.1 = "FUN_" ++ hex va || call.1 = resolveCalleeName names va) && site.arguments.length ≤ call.2
  | _ => false

def isDirectSite (site : Win64CallSite) : Bool :=
  match site.target with
  | .direct _ => true
  | _ => false

/-- The call sites with a direct target. -/
def directSites (hir : HirFunction) : List Win64CallSite := hir.callSites.filter isDirectSite

/-- Each direct call site has a call expression of its own that stands for it. -/
def KeepsCalls (hir : HirFunction) (cand : TypedAstCandidate) : Prop :=
  ∃ f : Fin (directSites hir).length → Fin (callsOf cand.ast.body).length, Function.Injective f ∧
    ∀ i, fits names ((directSites hir).get i) ((callsOf cand.ast.body).get (f i)) = true

/-- The call expressions that stand for the direct call site `i`. -/
def fitting (hir : HirFunction) (cand : TypedAstCandidate) (i : Fin (directSites hir).length) :
    Finset (Fin (callsOf cand.ast.body).length) :=
  Finset.univ.filter fun j => fits names ((directSites hir).get i) ((callsOf cand.ast.body).get j) = true

/-- Every group of direct call sites finds as many fitting call expressions as it has
members. -/
def EnoughCalls (hir : HirFunction) (cand : TypedAstCandidate) : Prop :=
  ∀ group : Finset (Fin (directSites hir).length), group.card ≤ (group.biUnion (fitting names hir cand)).card

/-- An accepted candidate has lost no direct call, no argument of one and no class of
returned values. -/
def AdmitsNoLostCall (sem : SemanticModel) (contracts : ContractBundle) (cand : TypedAstCandidate)
    (hir : HirFunction) : Prop :=
  (checkTypedCandidateWithHir sem contracts cand (some hir)).accepted = true →
    KeepsCalls names hir cand ∧ KeepsClasses contracts cand

theorem keepsCalls_iff : KeepsCalls names hir cand ↔ EnoughCalls names hir cand := by
  unfold KeepsCalls EnoughCalls
  rw [Finset.all_card_le_biUnion_card_iff_exists_injective]
  simp only [fitting, Finset.mem_filter, Finset.mem_univ, true_and]

end Acceptance

/-- Two calls in the code, of different functions. -/
def twoCalls : HirFunction :=
  { callSites := [{ target := .direct 0x1000, arguments := [] }, { target := .direct 0x2000, arguments := [] }] }

/-- A body that calls the first function twice. -/
def firstTwice : TypedAstCandidate :=
  { ast := { name := "main", params := [], retTy := "uint64",
             body := [.expr (.call "FUN_1000" []), .expr (.call "FUN_1000" []), .ret (some (.uint 0 64))] }
    coverage := { edges := [], effects := ["call:FUN_1000", "call:FUN_1000", "return"] }
    residualEdges := 0, casePartitions := [], cost := 0, nesting := 0, hitCap := false }

end Windy.Decompiler.V2
