import Mathlib.Data.Prod.Lex
import Windy.Lib.TopK
import Windy.Decompiler.V2.CfgAst
import Windy.Decompiler.V2.CheckAst

/- The choice of a candidate (`decompile_function_v2_with_raw` in `decompiler/v2/engine.rs`).

   The candidate extracted from the regions stands first, then its alternatives, and the
   goto seed last. They are sorted by residual edges and cost, and the first one that the
   checker accepts is taken; without one, the cheapest of the rejected.

   The candidate from the regions and the goto seed are made elsewhere
   (`V2/RegionAst.lean`, `seed_lossless_ast`); here they are any two candidates.

   What is proved:
     1. `chosen_eq`: the choice is the first of the best accepted candidates.
     2. `presentation_only_iff`: every alternative, and the candidate that is chosen, has
        the executions of the region's AST exactly when no run leaves a wrapped body, a
        body behind an inserted switch did nothing but return the label, and a goto seed
        that beats the others means the same.

   Correspondence:
     `alts` ↔ `alternatives`, sorted by `sortKey`
     the loop over `alts` ↔ `tryCandidates`
     `(cand, check)` ↔ `selected` -/
namespace Windy.Decompiler.V2

structure DecompileOptions where
  maxCandidates : Nat
  beamWidth : Nat

/-- `(c.residual_edges, c.cost)`. -/
def sortKey (c : TypedAstCandidate) : ℕ ×ₗ ℤ := toLex (c.residualEdges, c.cost)

/-- What the loop over the candidates has found. -/
structure Selection where
  chosen : Option (TypedAstCandidate × CheckReport)
  bestRejected : Option (TypedAstCandidate × CheckReport)
  tried : Nat

section Engine
variable (sem : SemanticModel) (contracts : ContractBundle) (hir : HirFunction) (ssa : SsaFunction)
  (switches : List SwitchInfo) (opts : DecompileOptions) (region lossless : TypedAstCandidate)

/-- Before the cut: the region's candidate, its alternatives, and the goto seed. -/
def allCandidates : List TypedAstCandidate :=
  (region :: generateAlternatives region ssa contracts switches (max opts.beamWidth 1)) ++ [lossless]

/-- `alts`, sorted. -/
def alternatives : List TypedAstCandidate :=
  TopK.sort sortKey ((allCandidates contracts ssa switches opts region lossless).take opts.maxCandidates)

def hitCap : Bool := opts.maxCandidates ≤ (allCandidates contracts ssa switches opts region lossless).length

/-- The checker takes the candidate. -/
def isAccepted (c : TypedAstCandidate) : Bool := (checkTypedCandidateWithHir sem contracts c (some hir)).accepted

/-- The loop over the candidates: the first accepted one ends it. -/
def tryCandidates (cap : Bool) (best : Option (TypedAstCandidate × CheckReport)) (tried : Nat) :
    List TypedAstCandidate → Selection
  | [] => ⟨none, best, tried⟩
  | c :: rest =>
    let cand := { c with hitCap := cap }
    let rep := { checkTypedCandidateWithHir sem contracts cand (some hir) with
      candidatesTried := tried + 1, hitCandidateCap := cap }
    if rep.accepted then ⟨some (cand, { rep with candidatesAccepted := 1 }), best, tried + 1⟩
    else
      let better := best.all fun b => cand.cost < b.1.cost
      tryCandidates cap (if better then some (cand, rep) else best) (tried + 1) rest

def selection : Selection :=
  tryCandidates sem contracts hir (hitCap contracts ssa switches opts region lossless) none 0
    (alternatives contracts ssa switches opts region lossless)

/-- The candidate that is printed, with its report: the accepted one, else the best of the
rejected, else the goto seed. -/
def selected : TypedAstCandidate × CheckReport :=
  let s := selection sem contracts hir ssa switches opts region lossless
  let cap := hitCap contracts ssa switches opts region lossless
  match s.chosen, s.bestRejected with
  | some pair, _ => pair
  | none, some (c, rep) => (c, { rep with candidatesTried := max s.tried 1, hitCandidateCap := cap })
  | none, none =>
    let c := { lossless with hitCap := cap }
    (c, { checkTypedCandidateWithHir sem contracts c (some hir) with
      candidatesTried := max s.tried 1, hitCandidateCap := cap })

/-! ## The choice -/

/-- The loop stops at the first candidate that is accepted. -/
theorem tryCandidates_chosen (cap : Bool) (best : Option (TypedAstCandidate × CheckReport)) (tried : Nat)
    (cands : List TypedAstCandidate) :
    (tryCandidates sem contracts hir cap best tried cands).chosen.map (fun pair => pair.1.ast) =
      (cands.find? (isAccepted sem contracts hir)).map TypedAstCandidate.ast := by
  induction cands generalizing best tried with
  | nil => rfl
  | cons c rest ih =>
    have hcap : (checkTypedCandidateWithHir sem contracts { c with hitCap := cap } (some hir)).accepted =
        isAccepted sem contracts hir c := rfl
    simp only [tryCandidates, hcap, List.find?_cons]
    cases isAccepted sem contracts hir c with
    | true => rfl
    | false => exact ih _ _

/-- The AST that is chosen is that of the first of the best accepted candidates. -/
theorem chosen_eq :
    (selection sem contracts hir ssa switches opts region lossless).chosen.map (fun pair => pair.1.ast) =
      (TopK.firstBest sortKey (isAccepted sem contracts hir)
        ((allCandidates contracts ssa switches opts region lossless).take opts.maxCandidates)).map
          TypedAstCandidate.ast := by
  rw [selection, tryCandidates_chosen, alternatives, TopK.find?_sort]

/-! ## What the choice means -/

/-- The alternatives of the region's candidate, and the one that is chosen among the
accepted, have the executions of the region's AST. -/
def PresentationOnly : Prop :=
  (∀ c ∈ generateAlternatives region ssa contracts switches opts.beamWidth,
    SameExecutions c.ast.body region.ast.body) ∧
  ∀ c rep, (selection sem contracts hir ssa switches opts region lossless).chosen = some (c, rep) →
    SameExecutions c.ast.body region.ast.body

/-- The goto seed is kept, accepted, and has a smaller key than every other accepted candidate. -/
def LosslessWins : Prop :=
  (generateAlternatives region ssa contracts switches (max opts.beamWidth 1)).length + 2 ≤ opts.maxCandidates ∧
    isAccepted sem contracts hir lossless = true ∧
    ∀ c ∈ region :: generateAlternatives region ssa contracts switches (max opts.beamWidth 1),
      isAccepted sem contracts hir c = true → sortKey lossless < sortKey c

/-- When the rewrites keep the meaning. -/
structure RewritesHarmless : Prop where
  loop : hasBackEdge ssa = true → 2 ≤ opts.beamWidth → NeverLeaves region.ast.body
  switch : switchLabels contracts switches ≠ [] → (if hasBackEdge ssa then 3 else 2) ≤ opts.beamWidth →
    ReturnsLabel (switchLabels contracts switches) region.ast.body
  lossless : LosslessWins sem contracts hir ssa switches opts region lossless →
    SameExecutions lossless.ast.body region.ast.body

theorem generateAlternatives_max (limit : Nat) :
    generateAlternatives region ssa contracts switches (max limit 1) =
      generateAlternatives region ssa contracts switches limit := by
  simp [generateAlternatives]

theorem length_allCandidates : (allCandidates contracts ssa switches opts region lossless).length =
    (generateAlternatives region ssa contracts switches (max opts.beamWidth 1)).length + 2 := by
  rw [allCandidates, List.length_append, List.length_cons, List.length_singleton]

/-- The seed wins when it is kept and beats the others. -/
theorem chosen_of_losslessWins (h : LosslessWins sem contracts hir ssa switches opts region lossless) :
    ∃ c rep, (selection sem contracts hir ssa switches opts region lossless).chosen = some (c, rep) ∧
      c.ast = lossless.ast := by
  obtain ⟨hkept, haccepted, hbeats⟩ := h
  have hall : (allCandidates contracts ssa switches opts region lossless).take opts.maxCandidates =
      allCandidates contracts ssa switches opts region lossless :=
    List.take_of_length_le (by rwa [length_allCandidates])
  have hchosen := chosen_eq sem contracts hir ssa switches opts region lossless
  rw [hall, allCandidates, TopK.firstBest_append_of_beats haccepted hbeats, Option.map_some] at hchosen
  obtain ⟨⟨c, rep⟩, hpair, hast⟩ := Option.map_eq_some_iff.mp hchosen
  exact ⟨c, rep, hpair, hast⟩

/-- What is chosen is the region's candidate or an alternative to it, unless the seed wins. -/
theorem chosen_cases {c : TypedAstCandidate} {rep : CheckReport}
    (h : (selection sem contracts hir ssa switches opts region lossless).chosen = some (c, rep)) :
    (∃ d ∈ generateAlternatives region ssa contracts switches opts.beamWidth, c.ast = d.ast) ∨
      (c.ast = lossless.ast ∧ LosslessWins sem contracts hir ssa switches opts region lossless) := by
  have hchosen := chosen_eq sem contracts hir ssa switches opts region lossless
  rw [h, Option.map_some] at hchosen
  obtain ⟨d, hd, hast⟩ := Option.map_eq_some_iff.mp hchosen.symm
  have hregion : region ∈ generateAlternatives region ssa contracts switches opts.beamWidth :=
    (mem_generateAlternatives _).mpr (.inl rfl)
  have halternative : ∀ e ∈ region :: generateAlternatives region ssa contracts switches (max opts.beamWidth 1),
      e ∈ generateAlternatives region ssa contracts switches opts.beamWidth := by
    intro e he
    rw [generateAlternatives_max] at he
    rcases List.mem_cons.mp he with rfl | hmem
    · exact hregion
    · exact hmem
  by_cases hkept : (generateAlternatives region ssa contracts switches (max opts.beamWidth 1)).length + 2 ≤
      opts.maxCandidates
  · rw [List.take_of_length_le (by rwa [length_allCandidates]), allCandidates] at hd
    rcases TopK.firstBest_append_last hd with hmem | ⟨rfl, haccepted, hbeats⟩
    · exact .inl ⟨d, halternative d hmem, hast.symm⟩
    · exact .inr ⟨hast.symm, hkept, haccepted, hbeats⟩
  · -- The cut has taken the seed away.
    have hcut : (allCandidates contracts ssa switches opts region lossless).take opts.maxCandidates =
        (region :: generateAlternatives region ssa contracts switches (max opts.beamWidth 1)).take
          opts.maxCandidates :=
      List.take_append_of_le_length (by simp only [List.length_cons]; omega)
    rw [hcut] at hd
    exact .inl ⟨d, halternative d (List.mem_of_mem_take (TopK.firstBest_mem hd).1), hast.symm⟩

end Engine

/-- The alternatives and the chosen candidate present the region's AST, and change nothing
else, exactly when the rewrites are harmless. -/
theorem presentation_only_iff (sem : SemanticModel) (contracts : ContractBundle) (hir : HirFunction)
    (ssa : SsaFunction) (switches : List SwitchInfo) (opts : DecompileOptions)
    (region lossless : TypedAstCandidate) :
    PresentationOnly sem contracts hir ssa switches opts region lossless ↔
      RewritesHarmless sem contracts hir ssa switches opts region lossless := by
  constructor
  · rintro ⟨hall, hchosen⟩
    obtain ⟨hloop, hswitch⟩ := (alternatives_same_iff opts.beamWidth).mp hall
    refine ⟨hloop, hswitch, fun hwins => ?_⟩
    obtain ⟨c, rep, hc, hast⟩ := chosen_of_losslessWins sem contracts hir ssa switches opts region lossless hwins
    rw [← hast]
    exact hchosen c rep hc
  · rintro ⟨hloop, hswitch, hlossless⟩
    have hall := (alternatives_same_iff opts.beamWidth).mpr ⟨hloop, hswitch⟩
    refine ⟨hall, fun c rep hc => ?_⟩
    rcases chosen_cases sem contracts hir ssa switches opts region lossless hc with ⟨d, hd, hast⟩ | ⟨hast, hwins⟩
    · rw [hast]
      exact hall d hd
    · rw [hast]
      exact hlossless hwins

/-! ## A dispatch that becomes its own labels -/

/-- Two cases, each with a call of its own. -/
def dispatch : TypedAstCandidate :=
  { ast := { name := "main", params := ["uint64 arg1"], retTy := "uint64",
             body := [.switch (.name "arg1") [([0], [.expr (.call "FUN_1000" []), .break]),
                        ([1], [.expr (.call "FUN_2000" []), .break])] [],
                      .ret (some (.int 0 64))] }
    coverage := { edges := ["0->1", "0->2", "1->3", "2->3"], effects := ["call:FUN_1000", "call:FUN_2000", "return"] }
    residualEdges := 0, casePartitions := [], cost := 2, nesting := 2, hitCap := false }

/-- The goto seed of the same function. -/
def dispatchSeed : TypedAstCandidate :=
  { ast := { name := "main", params := ["uint64 arg1"], retTy := "uint64",
             body := [.label "L_0", .ifThenElse (.name "cond_0") [.goto "L_1"] [.goto "L_2"],
                      .label "L_1", .expr (.call "FUN_1000" []), .goto "L_3",
                      .label "L_2", .expr (.call "FUN_2000" []), .label "L_3", .ret (some (.name "ret"))] }
    coverage := { edges := ["0->1", "0->2", "1->3", "2->3"], effects := ["call:FUN_1000", "call:FUN_2000", "return"] }
    residualEdges := 1, casePartitions := [], cost := 12, nesting := 2, hitCap := false }

def dispatchModel : SemanticModel := { succ := [[1, 2], [3], [3], []], hasReturn := true }

def dispatchContracts : ContractBundle :=
  { cases := [{ caseCount := 2, hasDefault := false, labels := [0, 1], source := "jump_table" }], returnExits := [] }

def dispatchSsa : SsaFunction :=
  { entryVa := 0x3000, bitness := 64, imageBase := 0
    blocks := [⟨0, 0x3000, [], [], [1, 2]⟩, ⟨1, 0x3010, [], [0], [3]⟩, ⟨2, 0x3020, [], [0], [3]⟩,
               ⟨3, 0x3030, [], [1, 2], []⟩]
    id_eq := by
      intro i b h
      rcases i with _ | _ | _ | _ | i <;> simp at h <;> simp [← h] }

/-- Numbers for values, zero for every name and call. -/
def zeroValuation : Valuation Unit Int :=
  { name := fun _ _ => 0, int := fun n _ => n, uint := fun n _ => n, binOp := fun _ a _ => a
    unaryOp := fun _ v => if v = 0 then 1 else 0, cast := fun _ v => v, load := fun v _ => v
    compare := fun _ a _ => a, call := fun _ _ m => (0, m), assign := fun _ _ m => m, raw := fun _ m => m
    truthy := fun v => v ≠ 0, equals := fun v n => v = n
    truthy_not := by intro v; by_cases h : v = 0 <;> simp [h]
    truthy_one := by simp }

/-- The switch inserted in front is chosen, and the calls behind it are never made. -/
theorem dispatch_replaced :
    (selection dispatchModel dispatchContracts twoCalls dispatchSsa [] { maxCandidates := 2048, beamWidth := 8 }
        dispatch dispatchSeed).chosen.map (fun pair => pair.1.ast) =
      some { dispatch.ast with body := switchBody [0, 1] dispatch.ast.body } ∧
    ¬ SameExecutions (switchBody [0, 1] dispatch.ast.body) dispatch.ast.body ∧
    ¬ PresentationOnly dispatchModel dispatchContracts twoCalls dispatchSsa []
      { maxCandidates := 2048, beamWidth := 8 } dispatch dispatchSeed := by
  have hchosen : (selection dispatchModel dispatchContracts twoCalls dispatchSsa []
      { maxCandidates := 2048, beamWidth := 8 } dispatch dispatchSeed).chosen.map (fun pair => pair.1.ast) =
      some { dispatch.ast with body := switchBody [0, 1] dispatch.ast.body } := by
    rfl
  have hcalls : Terminates zeroValuation dispatch.ast.body () [.call "FUN_1000" []] (.returned (some 0)) :=
    ⟨6, (), rfl⟩
  have hdiffer : ¬ SameExecutions (switchBody [0, 1] dispatch.ast.body) dispatch.ast.body := by
    intro hsame
    have hsilent := (switchBody_same_iff _ _).mp hsame Unit Int zeroValuation ()
    have hevents := (hcalls.unique hsilent).1
    cases hevents
  refine ⟨hchosen, hdiffer, fun h => ?_⟩
  obtain ⟨⟨c, rep⟩, hc, hast⟩ := Option.map_eq_some_iff.mp hchosen
  have hsame := h.2 c rep hc
  rw [show c.ast.body = switchBody [0, 1] dispatch.ast.body by rw [hast]] at hsame
  exact hdiffer hsame

end Windy.Decompiler.V2
