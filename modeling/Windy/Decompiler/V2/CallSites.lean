import Mathlib.Data.List.Nodup
import Mathlib.Data.List.Perm.Subperm
import Windy.Decompiler.V2.RegionAst

/- The extractor neither loses nor duplicates a call site (`extract_region_ast` in
   `decompiler/v2/region_ast.rs`).

   The statements of a block hold one call statement for each call operation of the block, in order.
   The walk enters each block at most once, so that its call statements are those of the blocks
   entered, in the order they were entered; the sweep enters what is left, apart from blocks without
   calls. A kernel that becomes a single return has no calls.

   What is proved:
     `emitBlockStmts_calls`: the calls of one block;
     `walk_spec`: with fuel for the blocks not yet entered the walk ends, has entered no
       block twice, and its calls are those of the blocks it entered;
     `sweep_spec`: the sweep enters the rest;
     `extractRegionAst_calls`: the call statements of the body are the call sites of the
       function, each once. -/
namespace Windy.Decompiler.V2

/-! ## Call statements and call sites -/

mutual

/-- The calls that stand as statements, at any depth. -/
def Stmt.callExprs : Stmt → List Expr
  | .expr (.call target args) => [.call target args]
  | .ifThenElse _ thenBody elseBody => callExprsOf thenBody ++ callExprsOf elseBody
  | .while _ body => callExprsOf body
  | .switch _ cases defaultBody => callExprsOfCases cases ++ callExprsOf defaultBody
  | _ => []

def callExprsOf : List Stmt → List Expr
  | [] => []
  | stmt :: rest => stmt.callExprs ++ callExprsOf rest

def callExprsOfCases : List (List Int × List Stmt) → List Expr
  | [] => []
  | (_, body) :: rest => callExprsOf body ++ callExprsOfCases rest

end

/-- The call operations of a block, by their positions. -/
def blockSites (ssa : SsaFunction) (b : Nat) : List (Nat × Nat) :=
  match ssa.blocks[b]? with
  | some block => (block.ops.zipIdx.filter fun entry => entry.1.kind.isCall).map fun entry => (b, entry.2)
  | none => []

/-- The call operations of a function. -/
def callSites (ssa : SsaFunction) : List (Nat × Nat) := (List.range ssa.blocks.length).flatMap (blockSites ssa)

/-! ## Lists of statements -/

@[simp] theorem callExprsOf_nil : callExprsOf [] = [] := rfl

@[simp] theorem callExprsOf_cons (stmt : Stmt) (rest : List Stmt) :
    callExprsOf (stmt :: rest) = stmt.callExprs ++ callExprsOf rest := rfl

@[simp] theorem callExprsOf_append (a b : List Stmt) : callExprsOf (a ++ b) = callExprsOf a ++ callExprsOf b := by
  induction a with
  | nil => simp
  | cons stmt rest ih => simp [ih]

theorem callExprsOf_flatMap {α : Type} (l : List α) (f : α → List Stmt) :
    callExprsOf (l.flatMap f) = l.flatMap fun x => callExprsOf (f x) := by
  induction l with
  | nil => simp
  | cons x l ih => simp [ih]

@[simp] theorem callExprs_ifThenElse (cond : Expr) (thenBody elseBody : List Stmt) :
    (Stmt.ifThenElse cond thenBody elseBody).callExprs = callExprsOf thenBody ++ callExprsOf elseBody := rfl

@[simp] theorem callExprs_while (cond : Expr) (body : List Stmt) : (Stmt.while cond body).callExprs = callExprsOf body := rfl

@[simp] theorem callExprs_switch (scrutinee : Expr) (cases : List (List Int × List Stmt)) :
    (Stmt.switch scrutinee cases []).callExprs = callExprsOfCases cases := by
  simp [Stmt.callExprs]

@[simp] theorem callExprs_ret (expr : Option Expr) : (Stmt.ret expr).callExprs = [] := rfl

@[simp] theorem callExprs_assign (dest : String) (expr : Expr) : (Stmt.assign dest expr).callExprs = [] := rfl

@[simp] theorem callExprs_break : Stmt.break.callExprs = [] := rfl

@[simp] theorem callExprs_call (target : String) (args : List Expr) :
    (Stmt.expr (.call target args)).callExprs = [.call target args] := rfl

@[simp] theorem callExprsOfCases_nil : callExprsOfCases [] = [] := rfl

@[simp] theorem callExprsOfCases_cons (values : List Int) (body : List Stmt) (rest : List (List Int × List Stmt)) :
    callExprsOfCases ((values, body) :: rest) = callExprsOf body ++ callExprsOfCases rest := rfl

namespace Extractor
variable (c : Extractor)

/-! ## The calls of a block -/

/-- The call a call operation becomes. -/
def callExpr (block : SsaBlock) (op : SsaOp) (index : Nat) : Expr :=
  match op.kind with
  | .pcode (.call dest) => .call (c.callTarget op dest) (win64DirectCallArgs c.recovery.env block index op)
  | _ => .call (c.icallTarget op) []

/-- The call a call site becomes. -/
def callExprAt (site : Nat × Nat) : Option Expr :=
  (c.ssa.blocks[site.1]?).bind fun block => (block.ops[site.2]?).bind fun op =>
    if op.kind.isCall then some (c.callExpr block op site.2) else none

theorem emitOp_calls (block : SsaBlock) (op : SsaOp) (index : Nat) :
    callExprsOf (c.emitOp block op index).1 = if op.kind.isCall then [c.callExpr block op index] else [] := by
  by_cases hcall : op.kind.isCall
  · rw [if_pos hcall, emitOp, SsaOp.not_isNoise_of_isCall hcall]
    unfold SsaOpKind.isCall at hcall
    split at hcall
    · rename_i hkind
      simp [hkind, callExpr]
    · rename_i hkind
      simp [hkind, callExpr]
    · cases hcall
  · rw [if_neg hcall, emitOp]
    split
    · rfl
    · split
      case h_1 hkind => simp [hkind, SsaOpKind.isCall] at hcall
      case h_3 hkind => simp [hkind, SsaOpKind.isCall] at hcall
      case h_2 => split <;> simp
      case h_4 => split <;> simp
      case h_5 => split <;> simp
      case h_6 => simp
      case h_7 =>
        split
        · unfold assignStmts
          split <;> simp
        · simp

theorem emitBlockStmts_calls {b : Nat} {block : SsaBlock} (hb : c.ssa.blocks[b]? = some block) :
    (callExprsOf (c.emitBlockStmts block).1).map some = (blockSites c.ssa b).map c.callExprAt := by
  have hops : callExprsOf (c.emitBlockStmts block).1 =
      (block.ops.zipIdx.filter fun entry => entry.1.kind.isCall).map fun entry => c.callExpr block entry.1 entry.2 := by
    rw [emitBlockStmts, List.flatMap_map, callExprsOf_flatMap]
    simp only [emitOp_calls]
    generalize block.ops.zipIdx = entries
    induction entries with
    | nil => rfl
    | cons entry rest ih =>
      by_cases hcall : entry.1.kind.isCall
      · simp [hcall, ih]
      · simp [hcall, ih]
  rw [hops, blockSites, hb]
  simp only [List.map_map]
  refine List.map_congr_left fun entry hentry => ?_
  obtain ⟨hmem, hcall⟩ := List.mem_filter.mp hentry
  have hop : block.ops[entry.2]? = some entry.1 := List.mk_mem_zipIdx_iff_getElem?.mp hmem
  simp [callExprAt, hb, hop, hcall]

/-- A block that shows nothing has no calls. -/
theorem blockSites_forwarding {b : Nat} {block : SsaBlock} (hb : c.ssa.blocks[b]? = some block)
    (h : block.isForwarding) : blockSites c.ssa b = [] := by
  rw [blockSites, hb]
  simp only [List.map_eq_nil_iff]
  refine List.filter_eq_nil_iff.mpr fun entry hentry hcall => ?_
  have hop : entry.1 ∈ block.ops := List.mem_of_getElem? (List.mk_mem_zipIdx_iff_getElem?.mp hentry)
  have hshown := List.all_eq_true.mp h entry.1 hop
  rw [SsaOp.not_isControl_of_isCall hcall, SsaOp.not_isNoise_of_isCall hcall] at hshown
  cases hshown

/-! ## The walk -/

/-- The blocks entered are blocks of the function, each once. -/
structure Entered (s : WalkState) : Prop where
  nodup : s.emitted.Nodup
  bound : ∀ b ∈ s.emitted, b < c.ssa.blocks.length

theorem Entered.length_le {c : Extractor} {s : WalkState} (h : Entered c s) : s.emitted.length ≤ c.ssa.blocks.length := by
  have hsub : s.emitted ⊆ List.range c.ssa.blocks.length := fun b hb => List.mem_range.mpr (h.bound b hb)
  simpa using (h.nodup.subperm hsub).length_le

/-- The statements hold the calls of the blocks entered since a state, in order. -/
structure Walked (s : WalkState) (stmts : List Stmt) (s' : WalkState) : Prop where
  entered : Entered c s'
  calls : ∃ new, s'.emitted = s.emitted ++ new ∧
    (callExprsOf stmts).map some = (new.flatMap (blockSites c.ssa)).map c.callExprAt

namespace Walked
variable {c} {s s' s'' : WalkState} {stmts stmts' : List Stmt}

theorem nil (h : Entered c s) : Walked c s [] s := ⟨h, [], by simp, by simp⟩

theorem length_le (h : Walked c s stmts s') : s.emitted.length ≤ s'.emitted.length := by
  obtain ⟨new, hnew, -⟩ := h.calls
  rw [hnew, List.length_append]
  omega

theorem append (h : Walked c s stmts s') (h' : Walked c s' stmts' s'') : Walked c s (stmts ++ stmts') s'' := by
  obtain ⟨new, hnew, hcalls⟩ := h.calls
  obtain ⟨new', hnew', hcalls'⟩ := h'.calls
  refine ⟨h'.entered, new ++ new', by rw [hnew', hnew, List.append_assoc], ?_⟩
  rw [callExprsOf_append, List.map_append, hcalls, hcalls', List.flatMap_append, List.map_append]

/-- Only the calls of the statements count. -/
theorem congr (h : Walked c s stmts s') (hcalls : callExprsOf stmts' = callExprsOf stmts) : Walked c s stmts' s' :=
  ⟨h.entered, by rw [hcalls]; exact h.calls⟩

theorem enter {b : Nat} {block : SsaBlock} (h : Entered c s) (hb : c.ssa.blocks[b]? = some block)
    (hnew : b ∉ s.emitted) : Walked c s (c.emitBlockStmts block).1 (c.enter s b block) := by
  refine ⟨⟨?_, ?_⟩, [b], rfl, ?_⟩
  · show (s.emitted ++ [b]).Nodup
    refine List.nodup_append.mpr ⟨h.nodup, List.nodup_singleton b, ?_⟩
    intro x hx y hy heq
    exact hnew (by rwa [← List.mem_singleton.mp hy, ← heq])
  · intro x hx
    rcases List.mem_append.mp hx with hx | hx
    · exact h.bound x hx
    · rw [List.mem_singleton.mp hx]
      exact (List.getElem?_eq_some_iff.mp hb).1
  · rw [List.flatMap_singleton]
    exact c.emitBlockStmts_calls hb

theorem withEffects (h : Walked c s stmts s') (effects : List Effect) :
    Walked c s stmts { s' with effects := effects } :=
  ⟨⟨h.entered.nodup, h.entered.bound⟩, h.calls⟩

end Walked

/-- A walk that ends, from any state with fuel for the blocks not yet entered. -/
def Ends (fuel : Nat) (walk : WalkState → Option (List Stmt × WalkState)) : Prop :=
  ∀ s, Entered c s → c.ssa.blocks.length < fuel + s.emitted.length →
    ∃ stmts s', walk s = some (stmts, s') ∧ Walked c s stmts s'

variable {c}

/-- One walk after the other. -/
theorem Ends.both {fuel : Nat} {first second : WalkState → Option (List Stmt × WalkState)} (h : Ends c fuel first)
    (h' : Ends c fuel second) {s : WalkState} (hs : Entered c s) (hfuel : c.ssa.blocks.length < fuel + s.emitted.length) :
    ∃ stmts s₁ stmts' s₂, first s = some (stmts, s₁) ∧ second s₁ = some (stmts', s₂) ∧ Walked c s (stmts ++ stmts') s₂ := by
  obtain ⟨stmts, s₁, hfirst, hwalked⟩ := h s hs hfuel
  have hlength := hwalked.length_le
  obtain ⟨stmts', s₂, hsecond, hwalked'⟩ := h' s₁ hwalked.entered (by omega)
  exact ⟨stmts, s₁, stmts', s₂, hfirst, hsecond, hwalked.append hwalked'⟩

theorem Ends.cases {fuel : Nat} {nested : Nat → WalkState → Option (List Stmt × WalkState)}
    (h : ∀ target, Ends c fuel (nested target)) (cases : List (Int × Nat)) (scrutinee : Expr) (s : WalkState)
    (hs : Entered c s) (hfuel : c.ssa.blocks.length < fuel + s.emitted.length) :
    ∃ bodies s', walkCases nested cases s = some (bodies, s') ∧ Walked c s [.switch scrutinee bodies []] s' := by
  induction cases generalizing s with
  | nil => exact ⟨[], s, rfl, (Walked.nil hs).congr (by simp)⟩
  | cons case rest ih =>
    obtain ⟨value, target⟩ := case
    obtain ⟨body, s₁, hbody, hwalked⟩ := h target s hs hfuel
    have hlength := hwalked.length_le
    obtain ⟨bodies, s₂, hrest, hwalked'⟩ := ih s₁ hwalked.entered (by omega)
    refine ⟨([value], body ++ [.break]) :: bodies, s₂, ?_, ?_⟩
    · simp only [walkCases, hbody, hrest, bind, Option.bind, pure]
    · exact (hwalked.append hwalked').congr (by simp)

theorem Ends.arm {fuel : Nat} {nested : Nat → WalkState → Option (List Stmt × WalkState)}
    (h : ∀ target, Ends c fuel (nested target)) (stop target : Nat) : Ends c fuel (walkArm nested stop target) := by
  intro s hs hfuel
  unfold walkArm
  split
  · exact h target s hs hfuel
  · exact ⟨[], s, rfl, .nil hs⟩

variable (c)

/-- The walk ends; its calls are those of the blocks it entered. -/
theorem walk_spec (fuel depth b stop : Nat) : Ends c fuel (c.walk fuel depth b stop) := by
  induction fuel generalizing depth b stop with
  | zero =>
    intro s hs hfuel
    have hlength := hs.length_le
    omega
  | succ fuel ih =>
    intro s hs hfuel
    rw [walk]
    split
    · exact ⟨[], s, rfl, .nil hs⟩
    rename_i hstop
    split
    · exact ⟨[], s, rfl, .nil hs⟩
    rename_i block hb
    -- the block is entered, so that less fuel is enough from here on
    have hown := Walked.enter hs hb (fun hmem => hstop (.inr hmem))
    have hlength : (c.enter s b block).emitted.length = s.emitted.length + 1 := by simp [enter]
    have hnested : ∀ stop entry, Ends c fuel (descend (c.walk fuel) depth stop entry) := by
      intro stop entry s hs hfuel
      unfold descend
      split
      · exact ⟨[], s, rfl, .nil hs⟩
      · exact ih (depth + 1) entry stop s hs hfuel
    dsimp only
    split
    case h_1 thenEntry elseEntry merge invert _ =>
      obtain ⟨thenBody, s₁, elseBody, s₂, hthen, helse, hwalked₁⟩ :=
        (hnested merge thenEntry).both (hnested merge elseEntry) hown.entered (by omega)
      have hlength₁ := hwalked₁.length_le
      obtain ⟨rest, s₃, hrest, hwalked₂⟩ := ih depth merge stop _ hwalked₁.entered (by omega)
      simp only [hthen, helse, hrest, bind, Option.bind, pure]
      exact ⟨_, s₃, rfl, (hown.append (hwalked₁.append hwalked₂)).congr (by simp)⟩
    case h_2 bodyEntry merge invert _ =>
      obtain ⟨thenBody, s₁, rest, s₂, hthen, hrest, hwalked⟩ :=
        (hnested merge bodyEntry).both (ih depth merge stop) hown.entered (by omega)
      simp only [hthen, hrest, bind, Option.bind, pure]
      exact ⟨_, s₂, rfl, (hown.append hwalked).congr (by simp)⟩
    case h_3 bodyEntry merge _ invert _ =>
      obtain ⟨thenBody, s₁, rest, s₂, hthen, hrest, hwalked⟩ :=
        (hnested merge bodyEntry).both (ih depth merge stop) hown.entered (by omega)
      simp only [hthen, hrest, bind, Option.bind, pure]
      exact ⟨_, s₂, rfl, (hown.append hwalked).congr (by simp)⟩
    case h_4 bodyEntry exit _ =>
      obtain ⟨body, s₁, rest, s₂, hbody, hrest, hwalked⟩ :=
        (hnested b bodyEntry).both (ih depth exit stop) hown.entered (by omega)
      simp only [hbody, hrest, bind, Option.bind, pure]
      exact ⟨_, s₂, rfl, (hown.append hwalked).congr (by simp)⟩
    case h_5 bodyEntry _ exit _ =>
      obtain ⟨body, s₁, rest, s₂, hbody, hrest, hwalked⟩ :=
        (hnested b bodyEntry).both (ih depth exit stop) hown.entered (by omega)
      simp only [hbody, hrest, bind, Option.bind, pure]
      exact ⟨_, s₂, rfl, (hown.append hwalked).congr (by simp)⟩
    case h_6 cases merge _ =>
      obtain ⟨bodies, s₁, hcases, hwalked₁⟩ :=
        Ends.cases (hnested merge) cases (c.recovery.condExprOfBlock block) _ hown.entered (by omega)
      have hlength₁ := hwalked₁.length_le
      obtain ⟨rest, s₂, hrest, hwalked₂⟩ := ih depth merge stop _ hwalked₁.entered (by omega)
      simp only [hcases, hrest, bind, Option.bind, pure]
      exact ⟨_, s₂, rfl, (hown.append (hwalked₁.append hwalked₂)).congr (by simp)⟩
    case h_7 =>
      refine ⟨_, _, rfl, ?_⟩
      unfold returnStmts
      split
      · exact (hown.withEffects _).congr (by simp)
      · exact hown.congr (by simp)
    case h_8 =>
      split
      · exact ⟨_, _, rfl, hown⟩
      split
      case h_1 next _ =>
        split
        · exact ⟨_, _, rfl, hown⟩
        · obtain ⟨rest, s₁, hrest, hwalked₁⟩ := ih depth next stop _ hown.entered (by omega)
          simp only [hrest, bind, Option.bind, pure]
          exact ⟨_, s₁, rfl, hown.append hwalked₁⟩
      case h_2 fall taken _ =>
        obtain ⟨thenBody, s₁, elseBody, s₂, hthen, helse, hwalked⟩ :=
          (Ends.arm (hnested stop) stop taken).both (Ends.arm (hnested stop) stop fall) hown.entered (by omega)
        simp only [hthen, helse, bind, Option.bind, pure]
        exact ⟨_, s₂, rfl, (hown.append hwalked).congr (by simp)⟩
      case h_3 => exact ⟨_, _, rfl, hown⟩

/-! ## The sweep -/

theorem isForwarding_of_isJumpOnly {block : SsaBlock} (h : block.isJumpOnly) : block.isForwarding := by
  unfold SsaBlock.isJumpOnly at h
  exact (Bool.and_eq_true_iff.mp h).2

variable {c}

theorem Walked.sweepBlock {s₀ : WalkState} {state : List Stmt × WalkState} (h : Walked c s₀ state.1 state.2)
    {entry : SsaBlock × Nat} (hentry : c.ssa.blocks[entry.2]? = some entry.1) :
    Walked c s₀ (c.sweepBlock state entry).1 (c.sweepBlock state entry).2 ∧
      state.2.emitted ⊆ (c.sweepBlock state entry).2.emitted ∧
      entry.2 ∈ (c.sweepBlock state entry).2.emitted := by
  unfold Extractor.sweepBlock
  dsimp only
  split
  · rename_i hmem
    exact ⟨h, fun _ hx => hx, hmem⟩
  rename_i hnew
  have henter := Walked.enter h.entered hentry hnew
  split
  · rename_i hshows
    -- the block is entered, and it has no calls
    have hforwarding : entry.1.isForwarding := by
      rcases Bool.or_eq_true_iff.mp hshows with hjump | hforwarding
      · exact isForwarding_of_isJumpOnly hjump
      · exact hforwarding
    have hnone : Walked c state.2 [] { state.2 with emitted := state.2.emitted ++ [entry.2] } :=
      ⟨⟨henter.entered.nodup, henter.entered.bound⟩, [entry.2], rfl,
        by simp [blockSites_forwarding c hentry hforwarding]⟩
    refine ⟨(h.append hnone).congr (by simp), fun x hx => List.mem_append_left _ hx, ?_⟩
    exact List.mem_append_right _ List.mem_cons_self
  · refine ⟨h.append henter, fun x hx => List.mem_append_left _ hx, ?_⟩
    exact List.mem_append_right _ List.mem_cons_self

theorem sweep_spec {s₀ : WalkState} (entries : List (SsaBlock × Nat))
    (hentries : ∀ entry ∈ entries, c.ssa.blocks[entry.2]? = some entry.1) {state : List Stmt × WalkState}
    (h : Walked c s₀ state.1 state.2) :
    Walked c s₀ (entries.foldl c.sweepBlock state).1 (entries.foldl c.sweepBlock state).2 ∧
      state.2.emitted ⊆ (entries.foldl c.sweepBlock state).2.emitted ∧
      ∀ entry ∈ entries, entry.2 ∈ (entries.foldl c.sweepBlock state).2.emitted := by
  induction entries generalizing state with
  | nil => exact ⟨h, fun _ hx => hx, by simp⟩
  | cons entry rest ih =>
    obtain ⟨hstep, hsub, hmem⟩ := h.sweepBlock (hentries entry List.mem_cons_self)
    obtain ⟨hrest, hsub', hmem'⟩ := ih (fun e he => hentries e (List.mem_cons_of_mem _ he)) hstep
    refine ⟨hrest, fun x hx => hsub' (hsub hx), ?_⟩
    intro e he
    rcases List.mem_cons.mp he with rfl | he
    · exact hsub' hmem
    · exact hmem' e he

variable (c)

/-! ## The extraction -/

theorem finalReturn_calls (returnBlocks : Nat) (effects : List Effect) :
    callExprsOf (c.finalReturn returnBlocks effects).1 = [] := by
  unfold finalReturn
  split <;> simp

theorem enrichReturn_calls (rich : Expr) (stmt : Stmt) : (enrichReturn rich stmt).callExprs = stmt.callExprs := by
  unfold enrichReturn
  split
  · split <;> simp
  · rfl

theorem enrich_calls (returnBlocks : Nat) (body : List Stmt) :
    callExprsOf (c.enrich returnBlocks body) = callExprsOf body := by
  unfold enrich
  split
  · split
    · induction body with
      | nil => rfl
      | cons stmt rest ih => simp [enrichReturn_calls, ih]
    · rfl
  · rfl

/-- A kernel has no calls. -/
theorem callSites_of_leaf (h : isLeafKernel c.ssa) : callSites c.ssa = [] := by
  unfold isLeafKernel at h
  have hnone := (Bool.and_eq_true_iff.mp h).2
  rw [Bool.not_eq_true', List.any_eq_false] at hnone
  rw [callSites, List.flatMap_eq_nil_iff]
  intro b _
  unfold blockSites
  split
  · rename_i block hb
    rw [List.map_eq_nil_iff]
    refine List.filter_eq_nil_iff.mpr fun entry hentry hcall => ?_
    have hop : entry.1 ∈ block.ops := List.mem_of_getElem? (List.mk_mem_zipIdx_iff_getElem?.mp hentry)
    have hblock := hnone block (List.mem_of_getElem? hb)
    rw [Bool.not_eq_true, List.any_eq_false] at hblock
    have hkind := hblock entry.1 hop
    unfold SsaOpKind.isCall at hcall
    split at hcall
    · rename_i heq
      simp [heq] at hkind
    · rename_i heq
      simp [heq] at hkind
    · cases hcall
  · rfl

/-- The walk ends and enters no block twice, and the call statements of the extracted body
are the call sites of the function, each once. -/
theorem extractRegionAst_calls :
    (∃ stmts s, c.walk (c.ssa.blocks.length + 1) 0 c.ssa.start noStop { emitted := [], effects := [] } =
        some (stmts, s) ∧ s.emitted.Nodup) ∧
      ∃ (body : List Stmt) (effects : List Effect) (sites : List (Nat × Nat)), c.extractRegionAst = some (body, effects) ∧ sites.Perm (callSites c.ssa) ∧
        (callExprsOf body).map some = sites.map c.callExprAt := by
  obtain ⟨stmts, s, hwalk, hwalked⟩ := c.walk_spec (c.ssa.blocks.length + 1) 0 c.ssa.start noStop
    { emitted := [], effects := [] } ⟨List.nodup_nil, by simp⟩ (by simp)
  refine ⟨⟨stmts, s, hwalk, hwalked.entered.nodup⟩, ?_⟩
  unfold extractRegionAst
  cases hleaf : c.leafReturn with
  | some expr =>
    have hkernel : isLeafKernel c.ssa := by
      unfold leafReturn at hleaf
      dsimp only at hleaf
      split at hleaf
      · rename_i h
        exact h.1
      · cases hleaf
    exact ⟨_, _, [], rfl, by rw [c.callSites_of_leaf hkernel], by simp⟩
  | none =>
    have hentries : ∀ entry ∈ c.ssa.blocks.zipIdx, c.ssa.blocks[entry.2]? = some entry.1 :=
      fun entry hentry => List.mk_mem_zipIdx_iff_getElem?.mp hentry
    obtain ⟨hswept, -, hall⟩ := @sweep_spec c _ _ hentries (stmts, s) hwalked
    obtain ⟨new, hnew, hcalls⟩ := hswept.calls
    simp only [hwalk, bind, Option.bind, pure]
    refine ⟨_, _, new.flatMap (blockSites c.ssa), rfl, ?_, ?_⟩
    · -- every block was entered once
      refine List.Perm.flatMap_right _ ?_
      rw [List.nil_append] at hnew
      rw [← hnew, List.perm_ext_iff_of_nodup hswept.entered.nodup List.nodup_range]
      intro b
      rw [List.mem_range]
      constructor
      · exact hswept.entered.bound b
      · intro hb
        have hget : c.ssa.blocks[b]? = some c.ssa.blocks[b] := List.getElem?_eq_getElem hb
        exact hall (c.ssa.blocks[b], b) (List.mk_mem_zipIdx_iff_getElem?.mpr hget)
    · rw [enrich_calls, callExprsOf_append, finalReturn_calls, List.append_nil]
      exact hcalls

end Extractor

end Windy.Decompiler.V2
