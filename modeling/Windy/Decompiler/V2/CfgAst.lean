import Mathlib.Data.List.Forall2
import Windy.Decompiler.V2.Candidate
import Windy.Decompiler.V2.Semantics

/- The alternatives to a candidate (`decompiler/v2/cfg_ast.rs`) and what each of them means.

   A function with an edge back is wrapped in `while (1)`; a function with a jump table
   gets a switch over `arg1` in front that returns the label of the case; the first
   top-level `if` gets its condition negated and its arms swapped. All three are made
   from facts about the graph, not about the body.

   What is proved:
     1. `invertOuterIf_same`: swapping the arms never changes an execution.
     2. `whileFromBackedge_same_iff`: the wrapping changes none exactly when every run of
        the body that ends returns, or ends at a bad jump: control that left the body by
        its end, a `break` or a `continue` now stays in the loop.
     3. `switchAst_same_iff`: the inserted switch changes none exactly when the body did
        nothing but return the label, for it is never reached again.

   Correspondence:
     `generate_alternatives`, `try_while_from_backedge`, `try_switch_ast`,
     `try_invert_outer_if_ast` ↔ the same
   Costs are `i32`: subtraction saturates, the product and the nesting wrap. -/
namespace Windy.Decompiler.V2

/-! ## The three rewrites -/

/-- `i32::saturating_sub`. -/
def saturatingSub32 (a b : Int) : Int := max (-2 ^ 31) (min (a - b) (2 ^ 31 - 1))

/-- What `i32` makes of an integer. -/
def wrap32 (n : Int) : Int := n.bmod (2 ^ 32)

/-- Some block has an edge to itself or to one before it. -/
def hasBackEdge (ssa : SsaFunction) : Bool :=
  ssa.blocks.zipIdx.any fun entry => entry.1.successorIds.any fun s => s ≤ entry.2

def whileBody (inner : List Stmt) : List Stmt := [.while (.int 1 1) inner]

/-- `try_while_from_backedge`. -/
def tryWhileFromBackedge (ssa : SsaFunction) (seed : TypedAstCandidate) : Option TypedAstCandidate :=
  if hasBackEdge ssa then
    some { seed with
      ast := { seed.ast with body := whileBody seed.ast.body }
      nesting := wrap32 (seed.nesting + 1)
      cost := saturatingSub32 seed.cost 5 }
  else none

/-- The values of the first case contract, or of the first jump table. -/
def switchLabels (contracts : ContractBundle) (switches : List SwitchInfo) : List Int :=
  ((contracts.cases.head?.map CaseContractV2.labels).or
    (switches.head?.map fun s => s.cases.map Prod.fst)).getD []

def labelCase (v : Int) : List Int × List Stmt := ([v], [.ret (some (.int v 64)), .break])

def switchBody (labels : List Int) (inner : List Stmt) : List Stmt :=
  .switch (.name "arg1") (labels.map labelCase) [.ret (some (.int 0 64))] :: inner

/-- `try_switch_ast`. -/
def trySwitchAst (seed : TypedAstCandidate) (contracts : ContractBundle) (switches : List SwitchInfo) :
    Option TypedAstCandidate :=
  let labels := switchLabels contracts switches
  if labels = [] then none
  else some { seed with
    ast := { seed.ast with body := switchBody labels seed.ast.body }
    residualEdges := seed.residualEdges - labels.length
    cost := saturatingSub32 seed.cost (wrap32 (wrap32 labels.length * 3))
    nesting := wrap32 (seed.nesting + 1) }

/-- The first top-level `if`, negated and with its arms swapped. -/
def invertOuterIf : List Stmt → Option (List Stmt)
  | [] => none
  | .ifThenElse cond thenBody elseBody :: rest =>
    some (.ifThenElse (.unaryOp "!" cond) elseBody thenBody :: rest)
  | stmt :: rest => (invertOuterIf rest).map (stmt :: ·)

/-- `try_invert_outer_if_ast`. -/
def tryInvertOuterIfAst (seed : TypedAstCandidate) : Option TypedAstCandidate :=
  (invertOuterIf seed.ast.body).map fun inverted =>
    { seed with ast := { seed.ast with body := inverted }, cost := saturatingSub32 seed.cost 1 }

/-- `generate_alternatives`: the seed, then what can be made of it, at most `limit`. -/
def generateAlternatives (seed : TypedAstCandidate) (ssa : SsaFunction) (contracts : ContractBundle)
    (switches : List SwitchInfo) (limit : Nat) : List TypedAstCandidate :=
  (seed :: ((tryWhileFromBackedge ssa seed).toList ++
    ((if !contracts.cases.isEmpty || !switches.isEmpty then trySwitchAst seed contracts switches else none).toList ++
      (tryInvertOuterIfAst seed).toList))).take (max limit 1)

/-! ## Swapped arms -/

/-- The same statement, or an `if` with its condition negated and its arms swapped. -/
inductive Swapped : Stmt → Stmt → Prop
  | same (stmt : Stmt) : Swapped stmt stmt
  | arms (cond : Expr) (thenBody elseBody : List Stmt) :
      Swapped (.ifThenElse cond thenBody elseBody) (.ifThenElse (.unaryOp "!" cond) elseBody thenBody)

abbrev SwappedIn : List Stmt → List Stmt → Prop := List.Forall₂ Swapped

inductive FramesSwapped : Frame → Frame → Prop
  | same (frame : Frame) : FramesSwapped frame frame
  | seq {rest rest' : List Stmt} (h : SwappedIn rest rest') : FramesSwapped (.seq rest) (.seq rest')

def PointsSwapped (p p' : Point) : Prop := SwappedIn p.1 p'.1 ∧ List.Forall₂ FramesSwapped p.2 p'.2

inductive ConfigsSwapped {σ V : Type} : Config σ V → Config σ V → Prop
  | at {p p' : Point} (h : PointsSwapped p p') (m : σ) : ConfigsSwapped (.at p m) (.at p' m)
  | halted (outcome : Outcome V) (m : σ) : ConfigsSwapped (.halted outcome m) (.halted outcome m)

theorem SwappedIn.refl (stmts : List Stmt) : SwappedIn stmts stmts :=
  List.forall₂_same.mpr fun stmt _ => .same stmt

theorem framesSwapped_refl (k : List Frame) : List.Forall₂ FramesSwapped k k :=
  List.forall₂_same.mpr fun frame _ => .same frame

variable {body body' : List Stmt}

theorem invertOuterIf_swapped (h : invertOuterIf body = some body') :
    SwappedIn body body' := by
  fun_induction invertOuterIf body generalizing body' with
  | case1 => cases h
  | case2 cond thenBody elseBody rest =>
    obtain rfl := Option.some.inj h
    exact .cons (.arms cond thenBody elseBody) (SwappedIn.refl rest)
  | case3 stmt rest _ ih =>
    obtain ⟨rest', hrest, rfl⟩ := Option.map_eq_some_iff.mp h
    exact .cons (.same stmt) (ih hrest)

theorem entersAlike_swapped : EntersAlike PointsSwapped := by
  intro rest rest' k k' h inner frames
  refine ⟨SwappedIn.refl inner, ?_⟩
  exact List.rel_append (framesSwapped_refl frames) (.cons (.seq h.1) h.2)

theorem Swapped.labelCount {stmt stmt' : Stmt} (h : Swapped stmt stmt') (name : String) :
    stmt'.labelCount name = stmt.labelCount name := by
  cases h with
  | same => rfl
  | arms cond thenBody elseBody => simp [Stmt.labelCount, Nat.add_comm]

theorem SwappedIn.labelCount (h : SwappedIn body body') (name : String) :
    labelCount name body' = labelCount name body := by
  induction h with
  | nil => rfl
  | cons hstmt _ ih => simp [V2.labelCount, hstmt.labelCount, ih]

/-- A label that stands at most once is found in both bodies. -/
theorem SwappedIn.findLabel (h : SwappedIn body body') {k k' : List Frame}
    (hk : List.Forall₂ FramesSwapped k k') {name : String} (honce : V2.labelCount name body ≤ 1) :
    Option.Rel PointsSwapped (V2.findLabel name k body) (V2.findLabel name k' body') := by
  induction h with
  | nil => exact Option.Rel.none
  | @cons stmt stmt' rest rest' hstmt hrest ih =>
    have hsum : stmt.labelCount name + V2.labelCount name rest ≤ 1 := honce
    refine rel_or ?_ (ih (by omega))
    cases hstmt with
    | same => exact stmt.findLabel_rel entersAlike_swapped ⟨hrest, hk⟩
    | arms cond thenBody elseBody =>
      have hin : ∀ inner, PointsSwapped (inner, .seq rest :: k) (inner, .seq rest' :: k') :=
        fun inner => entersAlike_swapped _ _ _ _ ⟨hrest, hk⟩ inner []
      have hboth : ∀ arm, Option.Rel PointsSwapped (V2.findLabel name (.seq rest :: k) arm)
          (V2.findLabel name (.seq rest' :: k') arm) :=
        fun arm => findLabel_rel entersAlike_swapped arm hin
      -- The arms are searched in the other order, so one of them must be without the label.
      have hone : V2.labelCount name thenBody = 0 ∨ V2.labelCount name elseBody = 0 := by
        have hsumIn : V2.labelCount name thenBody + V2.labelCount name elseBody ≤ 1 := by
          simp only [Stmt.labelCount] at hsum
          omega
        omega
      simp only [Stmt.findLabel]
      rcases hone with hnone | hnone
      · rw [(findLabel_eq_none thenBody _).mpr hnone, (findLabel_eq_none thenBody _).mpr hnone]
        simpa using hboth elseBody
      · rw [(findLabel_eq_none elseBody _).mpr hnone, (findLabel_eq_none elseBody _).mpr hnone]
        simpa using hboth thenBody

theorem SwappedIn.gotoLabel (h : SwappedIn body body') (name : String) :
    Option.Rel PointsSwapped (V2.gotoLabel body name) (V2.gotoLabel body' name) := by
  simp only [V2.gotoLabel, h.labelCount]
  split
  · next honce => exact h.findLabel .nil (Nat.le_of_eq honce)
  · exact Option.Rel.none

theorem breakFrom_swapped {k k' : List Frame} (h : List.Forall₂ FramesSwapped k k') :
    Option.Rel (List.Forall₂ FramesSwapped) (breakFrom k) (breakFrom k') := by
  induction h with
  | nil => exact Option.Rel.none
  | @cons frame _ _ _ hframe hrest ih =>
    cases hframe with
    | seq => exact ih
    | same =>
      cases frame with
      | seq => exact ih
      | loop => exact Option.Rel.some hrest
      | switch => exact Option.Rel.some hrest

theorem continueFrom_swapped {k k' : List Frame} (h : List.Forall₂ FramesSwapped k k') :
    Option.Rel (List.Forall₂ FramesSwapped) (continueFrom k) (continueFrom k') := by
  induction h with
  | nil => exact Option.Rel.none
  | @cons frame _ _ _ hframe hrest ih =>
    cases hframe with
    | seq => exact ih
    | same =>
      cases frame with
      | seq => exact ih
      | loop => exact Option.Rel.some (.cons (.same _) hrest)
      | switch => exact ih

section Swap
variable {σ V : Type} {ν : Valuation σ V} {body body' : List Stmt}

theorem atPoint_swapped {p p' : Option Point} (h : Option.Rel PointsSwapped p p') (outcome : Outcome V) (m : σ) :
    ConfigsSwapped (.atPoint p outcome m) (.atPoint p' outcome m) := by
  cases h with
  | some h => exact .at h m
  | none => exact .halted outcome m

theorem atFrames_swapped {k k' : Option (List Frame)} (h : Option.Rel (List.Forall₂ FramesSwapped) k k')
    (outcome : Outcome V) (m : σ) :
    ConfigsSwapped (.atPoint (k.map ([], ·)) outcome m) (.atPoint (k'.map ([], ·)) outcome m) := by
  cases h with
  | some h => exact .at ⟨.nil, h⟩ m
  | none => exact .halted outcome m

/-- One statement in both bodies. -/
theorem stepStmt_swapped (hbody : SwappedIn body body') {stmt stmt' : Stmt} (hstmt : Swapped stmt stmt')
    {rest rest' : List Stmt} {k k' : List Frame} (h : PointsSwapped (rest, k) (rest', k')) (m : σ) :
    ConfigsSwapped (stepStmt ν body rest k m stmt).1 (stepStmt ν body' rest' k' m stmt').1 ∧
      (stepStmt ν body rest k m stmt).2 = (stepStmt ν body' rest' k' m stmt').2 := by
  have hin : ∀ frames inner, PointsSwapped (inner, frames ++ .seq rest :: k) (inner, frames ++ .seq rest' :: k') :=
    fun frames inner => entersAlike_swapped _ _ _ _ h inner frames
  cases hstmt with
  | arms cond thenBody elseBody =>
    simp only [stepStmt, Expr.eval, ν.truthy_not]
    cases ν.truthy (cond.eval ν m).value with
    | true => exact ⟨.at (hin [] thenBody) _, trivial⟩
    | false => exact ⟨.at (hin [] elseBody) _, trivial⟩
  | same =>
    cases stmt with
    | label l => exact ⟨.at h m, rfl⟩
    | comment text => exact ⟨.at h m, rfl⟩
    | goto target => exact ⟨atPoint_swapped (hbody.gotoLabel target) _ m, rfl⟩
    | ret expr =>
      cases expr with
      | none => exact ⟨.halted _ m, rfl⟩
      | some expr => exact ⟨.halted _ _, rfl⟩
    | assign dest expr => exact ⟨.at h _, rfl⟩
    | expr expr => exact ⟨.at h _, rfl⟩
    | ifThenElse cond thenBody elseBody => exact ⟨.at (hin [] _) _, rfl⟩
    | «while» cond inner => exact ⟨.at (hin [.loop cond inner] []) m, rfl⟩
    | switch scrutinee cases defaultBody => exact ⟨.at (hin [.switch] _) _, rfl⟩
    | «break» => exact ⟨atFrames_swapped (breakFrom_swapped h.2) _ m, rfl⟩
    | «continue» => exact ⟨atFrames_swapped (continueFrom_swapped h.2) _ m, rfl⟩
    | rawBlock text => exact ⟨.at h _, rfl⟩

/-- At the end of the focus in both bodies. -/
theorem stepFrame_swapped {k k' : List Frame} (h : List.Forall₂ FramesSwapped k k') (m : σ) :
    ConfigsSwapped (stepFrame ν m k).1 (stepFrame ν m k').1 ∧ (stepFrame ν m k).2 = (stepFrame ν m k').2 := by
  cases h with
  | nil => exact ⟨.halted .fellOff m, rfl⟩
  | @cons frame _ _ _ hframe hrest =>
    cases hframe with
    | seq hseq => exact ⟨.at ⟨hseq, hrest⟩ m, rfl⟩
    | same =>
      cases frame with
      | seq rest => exact ⟨.at ⟨SwappedIn.refl rest, hrest⟩ m, rfl⟩
      | switch => exact ⟨.at ⟨.nil, hrest⟩ m, rfl⟩
      | loop cond inner =>
        refine ⟨.at ?_ _, rfl⟩
        split
        · exact ⟨SwappedIn.refl inner, .cons (.same _) hrest⟩
        · exact ⟨.nil, hrest⟩

theorem step_swapped (hbody : SwappedIn body body') (c c' : Config σ V) (h : ConfigsSwapped c c') :
    ConfigsSwapped (step ν body c).1 (step ν body' c').1 ∧ (step ν body c).2 = (step ν body' c').2 := by
  cases h with
  | halted outcome m => exact ⟨.halted outcome m, rfl⟩
  | @«at» p p' hp m =>
    obtain ⟨focus, k⟩ := p
    obtain ⟨focus', k'⟩ := p'
    obtain ⟨hfocus, hk⟩ := hp
    cases hfocus with
    | nil => exact stepFrame_swapped hk m
    | cons hstmt hrest => exact stepStmt_swapped hbody hstmt ⟨hrest, hk⟩ m

end Swap

/-- Swapping the arms of the first `if` changes no execution. -/
theorem invertOuterIf_same {body body' : List Stmt} (h : invertOuterIf body = some body') :
    SameExecutions body' body := by
  have hbody := invertOuterIf_swapped h
  refine SameExecutions.symm fun σ V ν m => ?_
  refine endsFrom_of_lockstep (step_swapped hbody) ?_ (.at ⟨hbody, .nil⟩ m)
  intro c c' hc o
  cases hc <;> simp

/-! ## The endless loop -/

/-- Every run of the body that ends returns, or ends at a jump without a target: none
leaves it by its end, nor by a `break` or a `continue` outside of every loop. -/
def NeverLeaves (body : List Stmt) : Prop :=
  ∀ (σ V : Type) (ν : Valuation σ V) (m : σ) (events : List (Event V)) (outcome : Outcome V),
    Terminates ν body m events outcome → outcome ≠ .fellOff ∧ outcome ≠ .stray

/-- The frames the wrapping puts around the body. -/
def loopFrames (body : List Stmt) : List Frame := [.loop (.int 1 1) body, .seq []]

/-- A step of the body and the same step inside of the loop. Where the body ends without
a return, the loop begins its next round or is left by a `break`. -/
inductive Wrapped (σ V : Type) (body : List Stmt) : Config σ V → Config σ V → Prop
  | inside (focus : List Stmt) (k : List Frame) (m : σ) :
      Wrapped σ V body (.at (focus, k) m) (.at (focus, k ++ loopFrames body) m)
  | round (m : σ) : Wrapped σ V body (.halted .fellOff m) (.at (body, loopFrames body) m)
  | broke (m : σ) : Wrapped σ V body (.halted .stray m) (.at ([], [.seq []]) m)
  | continued (m : σ) : Wrapped σ V body (.halted .stray m) (.at ([], loopFrames body) m)
  | ended (outcome : Outcome V) (m : σ) (hfell : outcome ≠ .fellOff) (hstray : outcome ≠ .stray) :
      Wrapped σ V body (.halted outcome m) (.halted outcome m)

theorem breakFrom_loopFrames (body : List Stmt) (k : List Frame) :
    breakFrom (k ++ loopFrames body) = some (((breakFrom k).map (· ++ loopFrames body)).getD [.seq []]) := by
  induction k with
  | nil => rfl
  | cons frame k ih =>
    cases frame with
    | seq => exact ih
    | loop => rfl
    | switch => rfl

theorem continueFrom_loopFrames (body : List Stmt) (k : List Frame) :
    continueFrom (k ++ loopFrames body) =
      some (((continueFrom k).map (· ++ loopFrames body)).getD (loopFrames body)) := by
  induction k with
  | nil => rfl
  | cons frame k ih =>
    cases frame with
    | seq => exact ih
    | loop => rfl
    | switch => exact ih

/-- A jump leads to the same label, with the loop around it. -/
theorem gotoLabel_whileBody (body : List Stmt) (name : String) :
    gotoLabel (whileBody body) name = (gotoLabel body name).map fun p => (p.1, p.2 ++ loopFrames body) := by
  have henters : EntersAlike fun p p' => p' = (p.1, p.2 ++ loopFrames body) := by
    rintro rest _ k _ ⟨rfl, rfl⟩ inner frames
    simp
  have hrel : Option.Rel (fun p p' => p' = (p.1, p.2 ++ loopFrames body)) (findLabel name [] body)
      (findLabel name (loopFrames body) body) := findLabel_rel henters body fun _ => rfl
  simp only [gotoLabel, whileBody, labelCount, Stmt.labelCount, Nat.add_zero]
  split
  · simp only [findLabel, Stmt.findLabel, Option.or_none]
    show findLabel name (loopFrames body) body = _
    generalize findLabel name [] body = found at hrel
    generalize findLabel name (loopFrames body) body = found' at hrel
    cases hrel with
    | some h => simp [h]
    | none => rfl
  · rfl

section Loop
variable {σ V : Type} {ν : Valuation σ V} {body : List Stmt}

theorem atPoint_wrapped (p : Option Point) (m : σ) :
    Wrapped σ V body (.atPoint p .noLabel m)
      (.atPoint (p.map fun p => (p.1, p.2 ++ loopFrames body)) .noLabel m) := by
  cases p with
  | none => exact .ended .noLabel m (by simp) (by simp)
  | some p => exact .inside p.1 p.2 m

/-- One statement, in the body and inside of the loop. -/
theorem stepStmt_wrapped (rest : List Stmt) (k : List Frame) (m : σ) (stmt : Stmt) :
    Wrapped σ V body (stepStmt ν body rest k m stmt).1
        (stepStmt ν (whileBody body) rest (k ++ loopFrames body) m stmt).1 ∧
      (stepStmt ν body rest k m stmt).2 = (stepStmt ν (whileBody body) rest (k ++ loopFrames body) m stmt).2 := by
  cases stmt with
  | label l => exact ⟨.inside _ _ m, rfl⟩
  | comment text => exact ⟨.inside _ _ m, rfl⟩
  | goto target =>
    simp only [stepStmt, gotoLabel_whileBody]
    exact ⟨atPoint_wrapped _ m, trivial⟩
  | ret expr =>
    cases expr with
    | none => exact ⟨.ended _ m (by simp) (by simp), rfl⟩
    | some expr => exact ⟨.ended _ _ (by simp) (by simp), rfl⟩
  | assign dest expr => exact ⟨.inside _ _ _, rfl⟩
  | expr expr => exact ⟨.inside _ _ _, rfl⟩
  | ifThenElse cond thenBody elseBody => exact ⟨.inside _ (.seq rest :: k) _, rfl⟩
  | «while» cond inner => exact ⟨.inside [] (.loop cond inner :: .seq rest :: k) m, rfl⟩
  | switch scrutinee cases defaultBody => exact ⟨.inside _ (.switch :: .seq rest :: k) _, rfl⟩
  | «break» =>
    refine ⟨?_, rfl⟩
    simp only [stepStmt, breakFrom_loopFrames]
    cases breakFrom k with
    | none => exact .broke m
    | some k => exact .inside [] k m
  | «continue» =>
    refine ⟨?_, rfl⟩
    simp only [stepStmt, continueFrom_loopFrames]
    cases continueFrom k with
    | none => exact .continued m
    | some k => exact .inside [] k m
  | rawBlock text => exact ⟨.inside _ _ _, rfl⟩

/-- At the end of the focus, in the body and inside of the loop. -/
theorem stepFrame_wrapped (k : List Frame) (m : σ) :
    Wrapped σ V body (stepFrame ν m k).1 (stepFrame ν m (k ++ loopFrames body)).1 ∧
      (stepFrame ν m k).2 = (stepFrame ν m (k ++ loopFrames body)).2 := by
  cases k with
  | nil =>
    have hround : stepFrame ν m (loopFrames body) = (.at (body, loopFrames body) m, []) := by
      simp [stepFrame, loopFrames, Expr.eval, ν.truthy_one]
    rw [List.nil_append, hround]
    exact ⟨.round m, rfl⟩
  | cons frame k =>
    cases frame with
    | seq rest => exact ⟨.inside rest k m, rfl⟩
    | switch => exact ⟨.inside [] k m, rfl⟩
    | loop cond inner =>
      refine ⟨?_, rfl⟩
      simp only [stepFrame, List.cons_append]
      split
      · exact .inside inner (.loop cond inner :: k) _
      · exact .inside [] k _

theorem step_wrapped (focus : List Stmt) (k : List Frame) (m : σ) :
    Wrapped σ V body (step ν body (.at (focus, k) m)).1
        (step ν (whileBody body) (.at (focus, k ++ loopFrames body) m)).1 ∧
      (step ν body (.at (focus, k) m)).2 = (step ν (whileBody body) (.at (focus, k ++ loopFrames body) m)).2 := by
  cases focus with
  | nil => exact stepFrame_wrapped k m
  | cons stmt rest => exact stepStmt_wrapped rest k m stmt

/-- The loop is entered without a call or an assignment. -/
theorem run_whileBody_enter (m : σ) :
    run ν (whileBody body) 2 (start (whileBody body) m) = (.at (body, loopFrames body) m, []) := by
  simp [run, start, whileBody, loopFrames, step, stepStmt, stepFrame, Expr.eval, ν.truthy_one]

/-- If no run leaves the body, the loop never gets to a second round. -/
theorem whileBody_same (hnever : NeverLeaves body) : SameExecutions (whileBody body) body := by
  refine SameExecutions.symm fun σ V ν m => ?_
  let R : Config σ V → Config σ V → Prop := fun c c' =>
    Wrapped σ V body c c' ∧ ∀ es o, EndsFrom ν body c es o → o ≠ .fellOff ∧ o ≠ .stray
  have hstep : ∀ c c', R c c' →
      R (step ν body c).1 (step ν (whileBody body) c').1 ∧ (step ν body c).2 = (step ν (whileBody body) c').2 := by
    rintro c c' ⟨hwrapped, hends⟩
    have hnext : ∀ es o, EndsFrom ν body (step ν body c).1 es o → o ≠ .fellOff ∧ o ≠ .stray :=
      fun es o h => hends _ o h.step
    cases hwrapped with
    | inside focus k m => exact ⟨⟨(step_wrapped focus k m).1, hnext⟩, (step_wrapped focus k m).2⟩
    | ended outcome m hfell hstray => exact ⟨⟨.ended outcome m hfell hstray, hnext⟩, rfl⟩
    | round m => exact absurd rfl (hends [] .fellOff ⟨0, m, rfl⟩).1
    | broke m => exact absurd rfl (hends [] .stray ⟨0, m, rfl⟩).2
    | continued m => exact absurd rfl (hends [] .stray ⟨0, m, rfl⟩).2
  have hhalt : ∀ c c', R c c' → ∀ o, (∃ m, c = .halted o m) ↔ ∃ m, c' = .halted o m := by
    rintro c c' ⟨hwrapped, hends⟩ o
    cases hwrapped with
    | inside focus k m => simp
    | ended outcome m hfell hstray => simp
    | round m => exact absurd rfl (hends [] .fellOff ⟨0, m, rfl⟩).1
    | broke m => exact absurd rfl (hends [] .stray ⟨0, m, rfl⟩).2
    | continued m => exact absurd rfl (hends [] .stray ⟨0, m, rfl⟩).2
  have hstart : R (start body m) (.at (body, loopFrames body) m) :=
    ⟨.inside body [] m, fun es o h => hnever σ V ν m es o h⟩
  obtain ⟨hends, hshows⟩ := endsFrom_of_lockstep hstep hhalt hstart
  refine ⟨fun es o => (hends es o).trans ?_, fun es => (hshows es).trans ?_⟩
  · exact (endsFrom_of_run (run_whileBody_enter m)).symm
  · exact (showsFrom_of_run (run_whileBody_enter m)).symm

/-- Where a run of the wrapped body can be: in a round of the body, between rounds, or
behind the loop after a round that a `break` has left. -/
inductive Rounds (ν : Valuation σ V) (body : List Stmt) : Config σ V → Prop
  | enter (m : σ) : Rounds ν body (.at (whileBody body, []) m)
  | test (m : σ) : Rounds ν body (.at ([], loopFrames body) m)
  | inside {n : Nat} {m₀ m : σ} {focus : List Stmt} {k : List Frame} {es : List (Event V)}
      (h : run ν body n (start body m₀) = (.at (focus, k) m, es)) :
      Rounds ν body (.at (focus, k ++ loopFrames body) m)
  | left (m : σ) (k : List Frame) (hk : k = [.seq []] ∨ k = [])
      (h : ∃ m₀ es, Terminates ν body m₀ es .stray) : Rounds ν body (.at ([], k) m)
  | ended (outcome : Outcome V) (m : σ) (hstray : outcome ≠ .stray)
      (hfell : outcome = .fellOff → ∃ m₀ es, Terminates ν body m₀ es .stray) :
      Rounds ν body (.halted outcome m)

/-- A round begins. -/
theorem Rounds.newRound (m : σ) : Rounds ν body (.at (body, loopFrames body) m) := by
  have hrun : run ν body 0 (start body m) = (.at (body, []) m, []) := rfl
  exact .inside hrun

theorem rounds_step (c : Config σ V) (h : Rounds ν body c) : Rounds ν body (step ν (whileBody body) c).1 := by
  cases h with
  | enter m => exact .test m
  | test m =>
    have hround : (step ν (whileBody body) (.at ([], loopFrames body) m)).1 = .at (body, loopFrames body) m := by
      simp [step, stepFrame, loopFrames, Expr.eval, ν.truthy_one]
    rw [hround]
    exact .newRound m
  | @inside n m₀ m focus k es hrun =>
    have hnext : run ν body (n + 1) (start body m₀) =
        ((step ν body (.at (focus, k) m)).1, es ++ (step ν body (.at (focus, k) m)).2) := by
      rw [run_add, hrun]
      simp [run]
    have hwrapped : Wrapped σ V body (step ν body (.at (focus, k) m)).1
        (step ν (whileBody body) (.at (focus, k ++ loopFrames body) m)).1 := (step_wrapped focus k m).1
    generalize (step ν body (.at (focus, k) m)).1 = c at hwrapped hnext
    generalize (step ν (whileBody body) (.at (focus, k ++ loopFrames body) m)).1 = c' at hwrapped
    cases hwrapped with
    | inside focus' k' m' => exact .inside hnext
    | round m' => exact .newRound m'
    | broke m' => exact .left m' _ (.inl rfl) ⟨m₀, _, n + 1, m', hnext⟩
    | continued m' => exact .test m'
    | ended outcome m' hfell hstray => exact .ended outcome m' hstray fun heq => absurd heq hfell
  | left m k hk hbroke =>
    rcases hk with rfl | rfl
    · exact .left m [] (.inr rfl) hbroke
    · exact .ended .fellOff m (by simp) fun _ => hbroke
  | ended outcome m hstray hfell => exact .ended outcome m hstray hfell

/-- The wrapped body is left by no `break` of its own, and falls off its end only if the
body has a run that a `break` leaves. -/
theorem whileBody_ends {m : σ} {es : List (Event V)} {o : Outcome V} (h : Terminates ν (whileBody body) m es o) :
    o ≠ .stray ∧ (o = .fellOff → ∃ m₀ es, Terminates ν body m₀ es .stray) := by
  obtain ⟨n, m', hrun⟩ := h
  have hrounds : Rounds ν body (run ν (whileBody body) n (.at (whileBody body, []) m)).1 :=
    run_inv rounds_step (.enter m) n
  have hlast : Rounds ν body (.halted o m') := by
    rw [start] at hrun
    rwa [hrun] at hrounds
  cases hlast with
  | ended _ _ hstray hfell => exact ⟨hstray, hfell⟩

end Loop

/-- The wrapping changes no execution exactly when no run leaves the body. -/
theorem whileBody_same_iff (body : List Stmt) : SameExecutions (whileBody body) body ↔ NeverLeaves body := by
  constructor
  · intro hsame σ V ν m es o hends
    have hnostray : ∀ m es, ¬ Terminates ν body m es .stray := fun m es hstray =>
      (whileBody_ends (((hsame σ V ν m).1 es .stray).mpr hstray)).1 rfl
    constructor
    · rintro rfl
      obtain ⟨m₀, es₀, hstray⟩ := (whileBody_ends (((hsame σ V ν m).1 es .fellOff).mpr hends)).2 rfl
      exact hnostray m₀ es₀ hstray
    · rintro rfl
      exact hnostray m es hends
  · exact whileBody_same

/-! ## The inserted switch -/

/-- What the inserted switch returns: the first label that `arg1` equals, or zero. -/
def labelOf {σ V : Type} (ν : Valuation σ V) (labels : List Int) (m : σ) : Int :=
  (labels.find? (ν.equals (ν.name "arg1" m))).getD 0

/-- The body does nothing but return the label that `arg1` equals. -/
def ReturnsLabel (labels : List Int) (body : List Stmt) : Prop :=
  ∀ (σ V : Type) (ν : Valuation σ V) (m : σ),
    Terminates ν body m [] (.returned (some (ν.int (labelOf ν labels m) 64)))

section Switch
variable {σ V : Type} {ν : Valuation σ V}

theorem entered_labelCase (isValue : Int → Bool) (labels : List Int) :
    ∃ rest, entered isValue [.ret (some (.int 0 64))] (labels.map labelCase) =
      .ret (some (.int ((labels.find? isValue).getD 0) 64)) :: rest := by
  induction labels with
  | nil => exact ⟨[], rfl⟩
  | cons v labels ih =>
    cases hv : isValue v with
    | true => exact ⟨_, by simp [entered, labelCase, hv, fallThrough]; rfl⟩
    | false =>
      obtain ⟨rest, hrest⟩ := ih
      exact ⟨rest, by simpa [entered, labelCase, hv] using hrest⟩

/-- The switch returns at once. -/
theorem switchBody_ends (labels : List Int) (body : List Stmt) (m : σ) :
    run ν (switchBody labels body) 2 (start (switchBody labels body) m) =
      (.halted (.returned (some (ν.int (labelOf ν labels m) 64))) m, []) := by
  obtain ⟨rest, hrest⟩ := entered_labelCase (ν.equals (ν.name "arg1" m)) labels
  simp [run, start, switchBody, step, stepStmt, Expr.eval, hrest, labelOf]

end Switch

/-- Bodies that end alike under every valuation and from every state have the same
executions: an ended run shows its events and no more. -/
theorem sameExecutions_of_ends {body body' : List Stmt}
    (h : ∀ (σ V : Type) (ν : Valuation σ V) (m : σ), ∃ es o, Terminates ν body m es o ∧ Terminates ν body' m es o) :
    SameExecutions body body' := by
  intro σ V ν m
  obtain ⟨es, o, hends, hends'⟩ := h σ V ν m
  refine ⟨fun es' o' => ⟨fun h => ?_, fun h => ?_⟩, fun es' => ?_⟩
  · obtain ⟨rfl, rfl⟩ := hends.unique h
    exact hends'
  · obtain ⟨rfl, rfl⟩ := EndsFrom.unique hends' h
    exact hends
  · rw [Produces, Produces, showsFrom_of_ends hends, showsFrom_of_ends hends']

/-- The inserted switch changes no execution exactly when the body did nothing else. -/
theorem switchBody_same_iff (labels : List Int) (body : List Stmt) :
    SameExecutions (switchBody labels body) body ↔ ReturnsLabel labels body := by
  have hswitch : ∀ (σ V : Type) (ν : Valuation σ V) (m : σ), Terminates ν (switchBody labels body) m []
      (.returned (some (ν.int (labelOf ν labels m) 64))) :=
    fun σ V ν m => ⟨2, m, switchBody_ends labels body m⟩
  constructor
  · intro hsame σ V ν m
    exact ((hsame σ V ν m).1 _ _).mp (hswitch σ V ν m)
  · intro hreturns
    exact sameExecutions_of_ends fun σ V ν m => ⟨_, _, hswitch σ V ν m, hreturns σ V ν m⟩

/-! ## All alternatives -/

section Alternatives
variable {seed c : TypedAstCandidate} {ssa : SsaFunction} {contracts : ContractBundle} {switches : List SwitchInfo}

theorem tryWhileFromBackedge_eq_some (h : tryWhileFromBackedge ssa seed = some c) :
    hasBackEdge ssa = true ∧ c.ast.body = whileBody seed.ast.body := by
  unfold tryWhileFromBackedge at h
  split at h
  · next hback => exact ⟨hback, by rw [← Option.some.inj h]⟩
  · cases h

theorem tryWhileFromBackedge_isSome : (tryWhileFromBackedge ssa seed).isSome = hasBackEdge ssa := by
  cases h : hasBackEdge ssa <;> simp [tryWhileFromBackedge, h]

theorem trySwitchAst_eq_some (h : trySwitchAst seed contracts switches = some c) :
    switchLabels contracts switches ≠ [] ∧
      c.ast.body = switchBody (switchLabels contracts switches) seed.ast.body := by
  simp only [trySwitchAst] at h
  split at h
  · cases h
  · next hlabels => exact ⟨hlabels, by rw [← Option.some.inj h]⟩

theorem trySwitchAst_isSome (h : switchLabels contracts switches ≠ []) :
    ∃ c, trySwitchAst seed contracts switches = some c := by
  simp [trySwitchAst, h]

/-- Labels come from a contract or from a jump table, so the guard never stops the switch. -/
theorem switchAlternative_eq :
    (if !contracts.cases.isEmpty || !switches.isEmpty then trySwitchAst seed contracts switches else none) =
      trySwitchAst seed contracts switches := by
  split
  · rfl
  · next hempty =>
    have hnone : switchLabels contracts switches = [] := by
      simp only [Bool.or_eq_true, Bool.not_eq_true', not_or, Bool.not_eq_false, List.isEmpty_iff] at hempty
      simp [switchLabels, hempty.1, hempty.2]
    simp [trySwitchAst, hnone]

theorem tryInvertOuterIfAst_same (h : tryInvertOuterIfAst seed = some c) :
    SameExecutions c.ast.body seed.ast.body := by
  obtain ⟨inverted, hinverted, rfl⟩ := Option.map_eq_some_iff.mp h
  exact invertOuterIf_same hinverted

/-- The place of an element among up to three. -/
theorem mem_take_options {α : Type} (a b c : Option α) (x : α) (n : Nat) :
    x ∈ (a.toList ++ (b.toList ++ c.toList)).take n ↔
      (a = some x ∧ 1 ≤ n) ∨ (b = some x ∧ a.isSome.toNat + 1 ≤ n) ∨
        (c = some x ∧ a.isSome.toNat + b.isSome.toNat + 1 ≤ n) := by
  rcases a with _ | a <;> rcases b with _ | b <;> rcases c with _ | c <;> rcases n with _ | _ | _ | n <;>
    simp [eq_comm]

/-- What is among the alternatives, and from which limit on. -/
theorem mem_generateAlternatives (limit : Nat) :
    c ∈ generateAlternatives seed ssa contracts switches limit ↔
      c = seed ∨ (tryWhileFromBackedge ssa seed = some c ∧ 2 ≤ limit) ∨
        (trySwitchAst seed contracts switches = some c ∧ (if hasBackEdge ssa then 3 else 2) ≤ limit) ∨
        (tryInvertOuterIfAst seed = some c ∧
          (hasBackEdge ssa).toNat + (trySwitchAst seed contracts switches).isSome.toNat + 2 ≤ limit) := by
  obtain ⟨n, hn⟩ : ∃ n, max limit 1 = n + 1 := ⟨limit - 1, by omega⟩
  rw [generateAlternatives, switchAlternative_eq, hn, List.take_succ_cons, List.mem_cons, mem_take_options,
    tryWhileFromBackedge_isSome]
  have hone : 1 ≤ n ↔ 2 ≤ limit := by omega
  have htwo : (hasBackEdge ssa).toNat + 1 ≤ n ↔ (if hasBackEdge ssa then 3 else 2) ≤ limit := by
    cases hasBackEdge ssa <;> simp <;> omega
  have hthree : (hasBackEdge ssa).toNat + (trySwitchAst seed contracts switches).isSome.toNat + 1 ≤ n ↔
      (hasBackEdge ssa).toNat + (trySwitchAst seed contracts switches).isSome.toNat + 2 ≤ limit := by omega
  rw [hone, htwo, hthree]

/-- The alternatives all have the executions of the seed exactly when no run leaves a
wrapped body, and a body behind an inserted switch did nothing but return the label. -/
theorem alternatives_same_iff (limit : Nat) :
    (∀ c ∈ generateAlternatives seed ssa contracts switches limit, SameExecutions c.ast.body seed.ast.body) ↔
      (hasBackEdge ssa = true → 2 ≤ limit → NeverLeaves seed.ast.body) ∧
        (switchLabels contracts switches ≠ [] → (if hasBackEdge ssa then 3 else 2) ≤ limit →
          ReturnsLabel (switchLabels contracts switches) seed.ast.body) := by
  constructor
  · intro hall
    constructor
    · intro hback hlimit
      obtain ⟨c, hc⟩ : ∃ c, tryWhileFromBackedge ssa seed = some c :=
        Option.isSome_iff_exists.mp (tryWhileFromBackedge_isSome.trans hback)
      have hsame := hall c ((mem_generateAlternatives limit).mpr (.inr (.inl ⟨hc, hlimit⟩)))
      rw [(tryWhileFromBackedge_eq_some hc).2] at hsame
      exact (whileBody_same_iff _).mp hsame
    · intro hlabels hlimit
      obtain ⟨c, hc⟩ : ∃ c, trySwitchAst seed contracts switches = some c := trySwitchAst_isSome hlabels
      have hsame := hall c ((mem_generateAlternatives limit).mpr (.inr (.inr (.inl ⟨hc, hlimit⟩))))
      rw [(trySwitchAst_eq_some hc).2] at hsame
      exact (switchBody_same_iff _ _).mp hsame
  · rintro ⟨hloop, hswitch⟩ c hc
    rcases (mem_generateAlternatives limit).mp hc with rfl | ⟨hc, hlimit⟩ | ⟨hc, hlimit⟩ | ⟨hc, -⟩
    · exact .refl _
    · obtain ⟨hback, hbody⟩ := tryWhileFromBackedge_eq_some hc
      rw [hbody]
      exact (whileBody_same_iff _).mpr (hloop hback hlimit)
    · obtain ⟨hlabels, hbody⟩ := trySwitchAst_eq_some hc
      rw [hbody]
      exact (switchBody_same_iff _ _).mpr (hswitch hlabels hlimit)
    · exact tryInvertOuterIfAst_same hc

end Alternatives

end Windy.Decompiler.V2
