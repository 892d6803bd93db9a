import Windy.Decompiler.V2.CfgAst
import Windy.Decompiler.V2.SemanticModel

/- The label/goto seed of the candidates (`decompiler/v2/cfg_ast.rs`, `seed_lossless_ast`).

   Each block becomes a label, a statement for each call, store and return, and the jumps
   to its successors. A jump to the next label is left out; two successors are an `if`
   whose condition is a name of its own; more than two are one `goto` behind another.

   How an operation is written for debugging decides which expression a return shows. The
   operations come from a library, so that text is a parameter.

   A run of the seed (`Semantics`) is cut into pieces at the labels: `Leaves` is the piece
   from a point of a block up to the next label that control comes to, or the end.

   What is proved:
     1. `gotoLabel_seed`: every block has one label, and nothing else has.
     2. `Leaves.unique`: a piece of a run has one end.
     3. `seed_lossless_iff`: a block is passed as its operations and its successors say
        exactly when nothing shows behind its return or, without a return, it has at most
        two successors, which are blocks.

   Correspondence:
     `seed_lossless_ast` ↔ `seedLosslessAst` (`seedOp`, `seedJumps`, `seedBlock`)
     `leaf_return_expr` ↔ the same -/
namespace Windy.Decompiler.V2

/-! ## The seed -/

def blockLabel (b : Nat) : String := "L_" ++ toString b

/-- `leaf_return_expr`: what the debug texts of a block's operations mention. -/
def leafReturnExpr (debug : PcodeOp → String) (block : SsaBlock) : Option Expr :=
  let saw (parts : List String) : Bool := block.ops.any fun op => match op.kind with
    | .pcode code => parts.any fun part => mentions (debug code) part
    | .phi _ _ => false
  if saw ["SLess", "Less", "Equal", "SLessEqual"] then some (.compare "<" (.name "arg1") (.name "arg2"))
  else if saw ["Xor"] then some (.binOp "^" (.name "arg1") (.name "arg2"))
  else if saw ["Add", "IntAdd"] then some (.binOp "+" (.name "arg1") (.name "arg2"))
  else none

def callName (va : Nat) (dest : Varnode) : String :=
  if isImmediate dest then "FUN_" ++ hex dest.offset else "call_" ++ hex va

/-- The statement of an operation, and the effect that is noted for it. -/
def seedOp (debug : PcodeOp → String) (block : SsaBlock) (op : SsaOp) : Option (Stmt × String) :=
  match op.kind with
  | .pcode (.call dest) =>
    some (.expr (.call (callName op.va dest) []), "call:" ++ callName op.va dest)
  | .pcode (.callInd _) => some (.expr (.call ("icall_" ++ hex op.va) []), "call:icall_" ++ hex op.va)
  | .pcode (.store _ _) => some (.assign ("mem_" ++ hex op.va) (.name "store_val"), "store:" ++ hex op.va)
  | .pcode (.ret _) => some (.ret (some ((leafReturnExpr debug block).getD (.name "ret"))), "return")
  | _ => none

/-- The statements that lead on from a block. -/
def seedJumps (bi : Nat) (hasReturn : Bool) : List Nat → List Stmt
  | [] => if hasReturn then [] else [.ret none]
  | [t] => if t = bi + 1 then [] else [.goto (blockLabel t)]
  | [t0, t1] => [.ifThenElse (.name ("cond_" ++ toString bi)) [.goto (blockLabel t0)] [.goto (blockLabel t1)]]
  | ts => ts.map fun t => .goto (blockLabel t)

def seedStmts (debug : PcodeOp → String) (block : SsaBlock) : List Stmt :=
  (block.ops.filterMap (seedOp debug block)).map Prod.fst

/-- What stands behind the label of a block, up to the next. -/
def seedBlock (debug : PcodeOp → String) (bi : Nat) (block : SsaBlock) (succs : List Nat) : List Stmt :=
  seedStmts debug block ++ seedJumps bi block.hasReturn succs

def seedBlocks (debug : PcodeOp → String) (succ : List (List Nat)) : Nat → List SsaBlock → List Stmt
  | _, [] => []
  | bi, block :: rest =>
    .label (blockLabel bi) :: (seedBlock debug bi block (succ.getD bi []) ++ seedBlocks debug succ (bi + 1) rest)

def seedEdges (succ : List (List Nat)) (blocks : Nat) : List String :=
  (List.range blocks).flatMap fun bi => (succ.getD bi []).map fun t => toString bi ++ "->" ++ toString t

def seedEffects (debug : PcodeOp → String) (succ : List (List Nat)) (blocks : List SsaBlock) : List String :=
  blocks.zipIdx.flatMap fun entry =>
    (entry.1.ops.filterMap (seedOp debug entry.1)).map Prod.snd ++
      if succ.getD entry.2 [] = [] && !entry.1.hasReturn then ["return"] else []

/-- The return that is added where the model has one and the blocks have none. -/
def seedTail (sem : SemanticModel) (effects : List String) : List Stmt :=
  if sem.hasReturn && !effects.contains "return" then [.ret (some (.name "ret"))] else []

def isGoto : Stmt → Bool
  | .goto _ => true
  | _ => false

def isNested : Stmt → Bool
  | .ifThenElse _ _ _ | .while _ _ | .switch _ _ _ => true
  | _ => false

def seedBody (debug : PcodeOp → String) (ssa : SsaFunction) (sem : SemanticModel) : List Stmt :=
  seedBlocks debug sem.succ 0 ssa.blocks ++ seedTail sem (seedEffects debug sem.succ ssa.blocks)

def seedLosslessAst (debug : PcodeOp → String) (ssa : SsaFunction) (sem : SemanticModel) (contracts : ContractBundle)
    (name : String) (params : List String) : TypedAstCandidate :=
  let effects := seedEffects debug sem.succ ssa.blocks
  let body := seedBody debug ssa sem
  let residual := body.countP isGoto
  let nesting := wrap32 (1 + wrap32 (body.countP isNested))
  { ast := { name := name, params := params, retTy := "uint64", body := body }
    coverage :=
      { edges := seedEdges sem.succ ssa.blocks.length
        effects := effects ++ if seedTail sem effects = [] then [] else ["return"] }
    residualEdges := residual
    casePartitions := contracts.cases
    cost := wrap32 (wrap32 (wrap32 residual * 10) + nesting)
    nesting := nesting
    hitCap := false }

/-! ## Labels -/

theorem blockLabel_inj {a b : Nat} (h : blockLabel a = blockLabel b) : a = b := by
  have htext : (toString a).toList = (toString b).toList := by
    simpa [blockLabel] using congrArg String.toList h
  have hdigits : Nat.toDigits 10 a = Nat.toDigits 10 b := by simpa using htext
  rw [← Nat.ofDigitChars_ten_toDigits (n := a), hdigits, Nat.ofDigitChars_ten_toDigits]

theorem labelCount_append (name : String) (xs ys : List Stmt) :
    labelCount name (xs ++ ys) = labelCount name xs + labelCount name ys := by
  induction xs with
  | nil => simp [labelCount]
  | cons x xs ih => simp [labelCount, ih, Nat.add_assoc]

theorem labelCount_eq_zero {name : String} {xs : List Stmt} (h : ∀ x ∈ xs, x.labelCount name = 0) :
    labelCount name xs = 0 := by
  induction xs with
  | nil => rfl
  | cons x xs ih => simp [labelCount, h x (by simp), ih fun y hy => h y (by simp [hy])]

/-- What stands in front of a label is skipped. -/
theorem findLabel_append {name : String} {xs : List Stmt} (h : labelCount name xs = 0) (ys : List Stmt)
    (k : List Frame) : findLabel name k (xs ++ ys) = findLabel name k ys := by
  induction xs with
  | nil => rfl
  | cons x xs ih =>
    have hboth : x.labelCount name = 0 ∧ labelCount name xs = 0 := by
      simp only [labelCount] at h
      omega
    rw [List.cons_append, findLabel, (x.findLabel_eq_none _ k).mpr hboth.1, Option.none_or]
    exact ih hboth.2

theorem seedOp_labelCount {debug : PcodeOp → String} {block : SsaBlock} {op : SsaOp} {shown : Stmt × String}
    (h : seedOp debug block op = some shown) (name : String) : shown.1.labelCount name = 0 := by
  unfold seedOp at h
  split at h
  · cases h; rfl
  · cases h; rfl
  · cases h; rfl
  · cases h; rfl
  · cases h

theorem seedJumps_labelCount (bi : Nat) (hasReturn : Bool) (succs : List Nat) (name : String) :
    labelCount name (seedJumps bi hasReturn succs) = 0 := by
  unfold seedJumps
  split
  · split <;> rfl
  · split <;> rfl
  · rfl
  · apply labelCount_eq_zero
    intro stmt hstmt
    obtain ⟨t, -, rfl⟩ := List.mem_map.mp hstmt
    rfl

theorem seedBlock_labelCount (debug : PcodeOp → String) (bi : Nat) (block : SsaBlock) (succs : List Nat)
    (name : String) : labelCount name (seedBlock debug bi block succs) = 0 := by
  have hstmts : labelCount name (seedStmts debug block) = 0 := by
    apply labelCount_eq_zero
    intro stmt hstmt
    obtain ⟨shown, hshown, rfl⟩ := List.mem_map.mp hstmt
    obtain ⟨op, -, hop⟩ := List.mem_filterMap.mp hshown
    exact seedOp_labelCount hop name
  rw [seedBlock, labelCount_append, hstmts, seedJumps_labelCount]

theorem seedTail_labelCount (sem : SemanticModel) (effects : List String) (name : String) :
    labelCount name (seedTail sem effects) = 0 := by
  unfold seedTail
  split <;> rfl

theorem labelCount_seedBlocks (debug : PcodeOp → String) (succ : List (List Nat)) (bi : Nat) (blocks : List SsaBlock)
    (b : Nat) :
    labelCount (blockLabel b) (seedBlocks debug succ bi blocks) = if bi ≤ b ∧ b < bi + blocks.length then 1 else 0 := by
  induction blocks generalizing bi with
  | nil =>
    rw [if_neg (by simp)]
    rfl
  | cons block rest ih =>
    simp only [seedBlocks, labelCount, labelCount_append, seedBlock_labelCount, ih, List.length_cons,
      Stmt.labelCount]
    by_cases hb : bi = b
    · subst hb
      simp
    · have hlabel : blockLabel bi ≠ blockLabel b := fun h => hb (blockLabel_inj h)
      rw [if_neg hlabel, Nat.zero_add, Nat.zero_add]
      congr 1
      exact propext (by omega)

section Layout
variable (debug : PcodeOp → String) (ssa : SsaFunction) (sem : SemanticModel)

/-- The seed from the label of a block on. -/
def seedFrom (b : Nat) : List Stmt :=
  seedBlocks debug sem.succ b (ssa.blocks.drop b) ++ seedTail sem (seedEffects debug sem.succ ssa.blocks)

/-- The point behind the label of a block. -/
def seedPoint (b : Nat) (block : SsaBlock) : Point :=
  (seedBlock debug b block (sem.succ.getD b []) ++ seedFrom debug ssa sem (b + 1), [])

variable {debug ssa sem}

theorem seedFrom_eq {b : Nat} {block : SsaBlock} (hb : ssa.blocks[b]? = some block) :
    seedFrom debug ssa sem b = .label (blockLabel b) :: (seedPoint debug ssa sem b block).1 := by
  have hdrop : ssa.blocks.drop b = block :: ssa.blocks.drop (b + 1) := by
    obtain ⟨hlt, hget⟩ := List.getElem?_eq_some_iff.mp hb
    rw [List.drop_eq_getElem_cons hlt, hget]
  simp [seedFrom, seedPoint, hdrop, seedBlocks]

theorem seedFrom_length_le {a b : Nat} (h : a ≤ b) :
    (seedFrom debug ssa sem b).length ≤ (seedFrom debug ssa sem a).length := by
  induction b, h using Nat.le_induction with
  | base => exact Nat.le_refl _
  | succ b _ ih =>
    refine Nat.le_trans ?_ ih
    cases hb : ssa.blocks[b]? with
    | some block =>
      rw [seedFrom_eq hb]
      simp [seedPoint]
      omega
    | none =>
      have hlen := List.getElem?_eq_none_iff.mp hb
      simp [seedFrom, List.drop_eq_nil_of_le hlen, List.drop_eq_nil_of_le (Nat.le_succ_of_le hlen), seedBlocks]

theorem labelCount_seed (b : Nat) :
    labelCount (blockLabel b) (seedBody debug ssa sem) = if b < ssa.blocks.length then 1 else 0 := by
  simp [seedBody, labelCount_append, labelCount_seedBlocks, seedTail_labelCount]

/-- The blocks in front of a block. -/
theorem seedBody_split {b : Nat} (hb : b ≤ ssa.blocks.length) :
    seedBody debug ssa sem = seedBlocks debug sem.succ 0 (ssa.blocks.take b) ++ seedFrom debug ssa sem b := by
  have happend : ∀ (bi : Nat) (xs ys : List SsaBlock), seedBlocks debug sem.succ bi (xs ++ ys) =
      seedBlocks debug sem.succ bi xs ++ seedBlocks debug sem.succ (bi + xs.length) ys := by
    intro bi xs ys
    induction xs generalizing bi with
    | nil => rfl
    | cons x xs ih =>
      simp only [List.cons_append, seedBlocks, ih, List.length_cons, List.append_assoc]
      rw [show bi + 1 + xs.length = bi + (xs.length + 1) by omega]
  unfold seedBody seedFrom
  rw [← List.append_assoc]
  congr 1
  calc seedBlocks debug sem.succ 0 ssa.blocks
      = seedBlocks debug sem.succ 0 (ssa.blocks.take b ++ ssa.blocks.drop b) := by rw [List.take_append_drop]
    _ = _ := by rw [happend, Nat.zero_add, List.length_take, Nat.min_eq_left hb]

/-- A jump to a block goes to the point behind its label. -/
theorem gotoLabel_seed {b : Nat} {block : SsaBlock} (hb : ssa.blocks[b]? = some block) :
    gotoLabel (seedBody debug ssa sem) (blockLabel b) = some (seedPoint debug ssa sem b block) := by
  have hlt := (List.getElem?_eq_some_iff.mp hb).1
  have hbefore : labelCount (blockLabel b) (seedBlocks debug sem.succ 0 (ssa.blocks.take b)) = 0 := by
    rw [labelCount_seedBlocks, if_neg]
    rw [List.length_take]
    omega
  rw [gotoLabel, labelCount_seed, if_pos hlt, if_pos rfl, seedBody_split (Nat.le_of_lt hlt),
    findLabel_append hbefore, seedFrom_eq hb]
  simp [findLabel, Stmt.findLabel, seedPoint]

/-- There are no other labels. -/
theorem gotoLabel_seed_none {b : Nat} (hb : ssa.blocks.length ≤ b) :
    gotoLabel (seedBody debug ssa sem) (blockLabel b) = none := by
  rw [gotoLabel, labelCount_seed, if_neg (Nat.not_lt.mpr hb)]
  rfl

end Layout

/-! ## Pieces of a run -/

/-- Where a piece ends: at the label of a block, behind a return, or otherwise. -/
inductive Exit where
  | block (b : Nat)
  | left
  | lost
  deriving DecidableEq, Repr

/-- The statements that stand for operations: a return among them shows a value. -/
inductive Executed where
  | call (target : String)
  | store (dest : String)
  | ret
  deriving DecidableEq, Repr

def Event.executed {V : Type} : Event V → Option Executed
  | .call target _ => some (.call target)
  | .assign dest _ => some (.store dest)
  | .raw _ => none

def Outcome.exit {V : Type} : Outcome V → List Executed × Exit
  | .returned (some _) => ([.ret], .left)
  | .returned none => ([], .left)
  | _ => ([], .lost)

section Pieces
variable {σ V : Type} (ν : Valuation σ V) (body : List Stmt)

/-- Control is at the point behind the label of a block. -/
def AtBlock (b : Nat) (c : Config σ V) : Prop := ∃ p m, gotoLabel body (blockLabel b) = some p ∧ c = .at p m

def stepExecutes (c : Config σ V) : List Executed := (step ν body c).2.filterMap Event.executed

/-- From here up to the next block that control comes to, or the end. -/
inductive Leaves : Config σ V → List Executed → Exit → Prop
  | arrive {b : Nat} {c : Config σ V} (h : AtBlock body b c) : Leaves c [] (.block b)
  | halt {outcome : Outcome V} {m : σ} : Leaves (.halted outcome m) outcome.exit.1 outcome.exit.2
  | step {p : Point} {m : σ} {xs : List Executed} {out : Exit} (h : ∀ b, ¬ AtBlock body b (.at p m : Config σ V))
      (hrest : Leaves (step ν body (.at p m)).1 xs out) : Leaves (.at p m) (stepExecutes ν body (.at p m) ++ xs) out

/-- One step and then up to the next block. -/
def Goes (c : Config σ V) (xs : List Executed) (out : Exit) : Prop :=
  ∃ rest, Leaves ν body (step ν body c).1 rest out ∧ xs = stepExecutes ν body c ++ rest

/-- What a run executes between the label of a block and the next, and where it goes. -/
def LeavesBlock (b : Nat) (m : σ) (xs : List Executed) (out : Exit) : Prop :=
  ∃ p, gotoLabel body (blockLabel b) = some p ∧ Goes ν body (.at p m) xs out

variable {ν body}

theorem Goes.leaves {p : Point} {m : σ} {xs : List Executed} {out : Exit}
    (h : ∀ b, ¬ AtBlock body b (.at p m : Config σ V)) (hgoes : Goes ν body (.at p m) xs out) :
    Leaves ν body (.at p m) xs out := by
  obtain ⟨rest, hrest, rfl⟩ := hgoes
  exact .step h hrest

/-- A piece has one end, where no point belongs to two blocks. -/
theorem Leaves.unique (hinj : ∀ (c : Config σ V) b b', AtBlock body b c → AtBlock body b' c → b = b')
    {c : Config σ V} {xs xs' : List Executed} {out out' : Exit} (h : Leaves ν body c xs out)
    (h' : Leaves ν body c xs' out') : xs = xs' ∧ out = out' := by
  induction h generalizing xs' out' with
  | arrive hat =>
    cases h' with
    | arrive hat' => exact ⟨rfl, congrArg Exit.block (hinj _ _ _ hat hat')⟩
    | halt =>
      obtain ⟨p, m, -, hc⟩ := hat
      cases hc
    | step hnot => exact absurd hat (hnot _)
  | halt =>
    cases h' with
    | arrive hat' =>
      obtain ⟨p, m, -, hc⟩ := hat'
      cases hc
    | halt => exact ⟨rfl, rfl⟩
  | step hnot _ ih =>
    cases h' with
    | arrive hat' => exact absurd hat' (hnot _)
    | step _ hrest' =>
      obtain ⟨rfl, rfl⟩ := ih hrest'
      exact ⟨rfl, rfl⟩

theorem LeavesBlock.unique (hinj : ∀ (c : Config σ V) b b', AtBlock body b c → AtBlock body b' c → b = b')
    {b : Nat} {m : σ} {xs xs' : List Executed} {out out' : Exit} (h : LeavesBlock ν body b m xs out)
    (h' : LeavesBlock ν body b m xs' out') : xs = xs' ∧ out = out' := by
  obtain ⟨p, hp, rest, hrest, rfl⟩ := h
  obtain ⟨p', hp', rest', hrest', rfl⟩ := h'
  obtain rfl := Option.some.inj (hp.symm.trans hp')
  obtain ⟨rfl, rfl⟩ := hrest.unique hinj hrest'
  exact ⟨rfl, rfl⟩

end Pieces

/-! ## Pieces of the seed -/

section SeedRuns
variable {σ V : Type} {ν : Valuation σ V} {debug : PcodeOp → String} {ssa : SsaFunction} {sem : SemanticModel}

theorem atBlock_seed {b : Nat} {c : Config σ V} :
    AtBlock (seedBody debug ssa sem) b c ↔
      ∃ block m, ssa.blocks[b]? = some block ∧ c = .at (seedPoint debug ssa sem b block) m := by
  constructor
  · intro h
    obtain ⟨p, m, hp, rfl⟩ := h
    cases hb : ssa.blocks[b]? with
    | some block =>
      rw [gotoLabel_seed hb] at hp
      exact ⟨block, m, rfl, by rw [Option.some.inj hp]⟩
    | none =>
      rw [gotoLabel_seed_none (List.getElem?_eq_none_iff.mp hb)] at hp
      cases hp
  · intro h
    obtain ⟨block, m, hb, rfl⟩ := h
    exact ⟨_, m, gotoLabel_seed hb, rfl⟩

/-- A point inside a block, behind its first statement, is not that of a block. -/
theorem not_atBlock_of_length {i b : Nat} {focus : List Stmt} {m : σ}
    (hlong : (seedFrom debug ssa sem (i + 1)).length ≤ focus.length)
    (hshort : focus.length + 1 < (seedFrom debug ssa sem i).length) :
    ¬ AtBlock (seedBody debug ssa sem) b (.at (focus, []) m : Config σ V) := by
  intro h
  obtain ⟨block, m', hb, hc⟩ := atBlock_seed.mp h
  have hfocus : focus = (seedPoint debug ssa sem b block).1 := by
    rw [Config.at.injEq, Prod.ext_iff] at hc
    exact hc.1.1
  have hlen : (seedFrom debug ssa sem b).length = focus.length + 1 := by
    rw [seedFrom_eq hb, List.length_cons, hfocus]
  rcases Nat.lt_or_ge i b with hlt | hge
  · have hle : (seedFrom debug ssa sem b).length ≤ (seedFrom debug ssa sem (i + 1)).length := seedFrom_length_le hlt
    omega
  · have hle : (seedFrom debug ssa sem i).length ≤ (seedFrom debug ssa sem b).length := seedFrom_length_le hge
    omega

theorem not_atBlock_inside {b : Nat} {focus : List Stmt} {frame : Frame} {k : List Frame} {m : σ} :
    ¬ AtBlock (seedBody debug ssa sem) b (.at (focus, frame :: k) m : Config σ V) := by
  intro h
  obtain ⟨block, m', -, hc⟩ := atBlock_seed.mp h
  rw [Config.at.injEq, Prod.ext_iff] at hc
  cases hc.1.2

theorem atBlock_seed_inj (c : Config σ V) (b b' : Nat) (h : AtBlock (seedBody debug ssa sem) b c)
    (h' : AtBlock (seedBody debug ssa sem) b' c) : b = b' := by
  obtain ⟨block, m, hb, rfl⟩ := atBlock_seed.mp h
  obtain ⟨block', m', hb', hc⟩ := atBlock_seed.mp h'
  have hlen : (seedFrom debug ssa sem b).length = (seedFrom debug ssa sem b').length := by
    rw [Config.at.injEq] at hc
    rw [seedFrom_eq hb, seedFrom_eq hb', List.length_cons, List.length_cons, hc.1]
  have hstrict : ∀ {a : Nat} {block : SsaBlock}, ssa.blocks[a]? = some block →
      (seedFrom debug ssa sem (a + 1)).length < (seedFrom debug ssa sem a).length := by
    intro a block ha
    rw [seedFrom_eq ha, List.length_cons]
    simp only [seedPoint, List.length_append]
    omega
  rcases Nat.lt_trichotomy b b' with hlt | heq | hgt
  · have hle : (seedFrom debug ssa sem b').length ≤ (seedFrom debug ssa sem (b + 1)).length :=
      seedFrom_length_le hlt
    have hless := hstrict hb
    omega
  · exact heq
  · have hle : (seedFrom debug ssa sem b).length ≤ (seedFrom debug ssa sem (b' + 1)).length :=
      seedFrom_length_le hgt
    have hless := hstrict hb'
    omega

/-- A piece that ends at a block ends at one of the function. -/
theorem Leaves.block_lt {c : Config σ V} {xs : List Executed} {b : Nat}
    (h : Leaves ν (seedBody debug ssa sem) c xs (.block b)) : b < ssa.blocks.length := by
  generalize hout : Exit.block b = out at h
  induction h with
  | arrive hat =>
    cases hout
    obtain ⟨block, m, hb, -⟩ := atBlock_seed.mp hat
    exact (List.getElem?_eq_some_iff.mp hb).1
  | @halt outcome m =>
    cases outcome with
    | returned value => cases value <;> cases hout
    | _ => cases hout
  | step _ _ ih => exact ih hout

end SeedRuns

/-! ## Blocks of the seed -/

/-- The statement that stands for an operation. -/
def opExecuted (op : SsaOp) : Option Executed :=
  match op.kind with
  | .pcode (.call dest) => some (.call (callName op.va dest))
  | .pcode (.callInd _) => some (.call ("icall_" ++ hex op.va))
  | .pcode (.store _ _) => some (.store ("mem_" ++ hex op.va))
  | .pcode (.ret _) => some .ret
  | _ => none

/-- Where control may go behind the statements of a block. -/
def Allowed (block : SsaBlock) (succs : List Nat) (out : Exit) : Prop :=
  if succs = [] ∨ block.hasReturn then out = .left else ∃ t ∈ succs, out = .block t

/-- The body passes a block as its operations and its successors say: control always gets
out of the block, it goes exactly where it may, and it has executed what stands for the
operations. -/
structure Lossless (body : List Stmt) (b : Nat) (block : SsaBlock) (succs : List Nat) : Prop where
  leaves : ∀ (σ V : Type) (ν : Valuation σ V) (m : σ), ∃ xs out, LeavesBlock ν body b m xs out
  executes : ∀ (σ V : Type) (ν : Valuation σ V) (m : σ) (xs : List Executed) (out : Exit),
    LeavesBlock ν body b m xs out → xs = block.ops.filterMap opExecuted
  allowed : ∀ (σ V : Type) (ν : Valuation σ V) (m : σ) (xs : List Executed) (out : Exit),
    LeavesBlock ν body b m xs out → Allowed block succs out
  possible : ∀ out, Allowed block succs out →
    ∃ (σ V : Type) (ν : Valuation σ V) (m : σ) (xs : List Executed), LeavesBlock ν body b m xs out

/-- The operations behind the first return of a block. -/
def behindReturn (block : SsaBlock) : List SsaOp := (block.ops.dropWhile fun op => !op.isReturn).tail

/-- Nothing to show behind the return; without a return at most two successors, all of
them blocks. -/
def SeedsFaithfully (ssa : SsaFunction) (block : SsaBlock) (succs : List Nat) : Prop :=
  if block.hasReturn then (behindReturn block).filterMap opExecuted = []
  else succs.length ≤ 2 ∧ ∀ t ∈ succs, t < ssa.blocks.length

section Blocks
variable {σ V : Type} {ν : Valuation σ V} {debug : PcodeOp → String} {ssa : SsaFunction} {sem : SemanticModel}
  {block : SsaBlock}

/-- The statement of an operation that does not return executes what stands for it. -/
theorem step_seedOp {op : SsaOp} {shown : Stmt × String}
    (h : seedOp debug block op = some shown) (hret : op.isReturn = false) (body rest : List Stmt) (k : List Frame) (m : σ) :
    ∃ m' es, stepStmt ν body rest k m shown.1 = (.at (rest, k) m', es) ∧
      es.filterMap Event.executed = (opExecuted op).toList := by
  unfold seedOp at h
  unfold opExecuted
  split at h
  · cases h
    exact ⟨_, _, rfl, rfl⟩
  · cases h
    exact ⟨_, _, rfl, rfl⟩
  · cases h
    exact ⟨_, _, rfl, rfl⟩
  · rename_i hkind
    simp [SsaOp.isReturn, hkind] at hret
  · cases h

theorem opExecuted_of_seedOp_none {op : SsaOp} (h : seedOp debug block op = none) :
    opExecuted op = none := by
  unfold seedOp at h
  unfold opExecuted
  split at h
  · cases h
  · cases h
  · cases h
  · cases h
  · rfl

/-- The expression that is returned does nothing else. -/
theorem leafReturnExpr_events (block : SsaBlock) (m : σ) :
    (((leafReturnExpr debug block).getD (.name "ret")).eval ν m).events = [] := by
  unfold leafReturnExpr
  dsimp only
  split
  · rfl
  split
  · rfl
  split
  · rfl
  · rfl

/-- The statements of operations are executed one after the other, and what stands behind
them goes on. -/
theorem goes_ops {i : Nat} (block : SsaBlock) {ops : List SsaOp} (hret : ∀ op ∈ ops, op.isReturn = false)
    (focus : List Stmt) (Q : List Executed → Exit → Prop)
    (hlong : (seedFrom debug ssa sem (i + 1)).length ≤ focus.length)
    (hshort : ((ops.filterMap (seedOp debug block)).map Prod.fst ++ focus).length < (seedFrom debug ssa sem i).length)
    (hgo : ∀ m : σ, ∃ xs out, Goes ν (seedBody debug ssa sem) (.at (focus, []) m) xs out ∧ Q xs out) (m : σ) :
    ∃ xs out, Goes ν (seedBody debug ssa sem)
        (.at ((ops.filterMap (seedOp debug block)).map Prod.fst ++ focus, []) m) (ops.filterMap opExecuted ++ xs) out ∧
      Q xs out := by
  induction ops generalizing m with
  | nil => exact hgo m
  | cons op ops ih =>
    have hrest : ∀ op' ∈ ops, op'.isReturn = false := fun op' hop' => hret op' (by simp [hop'])
    cases hop : seedOp debug block op with
    | none =>
      rw [List.filterMap_cons_none hop, List.filterMap_cons_none (opExecuted_of_seedOp_none hop)]
      rw [List.filterMap_cons_none hop] at hshort
      exact ih hrest hshort m
    | some shown =>
      rw [List.filterMap_cons_some hop, List.map_cons, List.cons_append] at hshort ⊢
      obtain ⟨m', es, hstep, hes⟩ := step_seedOp (ν := ν) hop (hret op (by simp)) (seedBody debug ssa sem)
        ((ops.filterMap (seedOp debug block)).map Prod.fst ++ focus) [] m
      have hinside : ∀ b, ¬ AtBlock (seedBody debug ssa sem) b
          (.at ((ops.filterMap (seedOp debug block)).map Prod.fst ++ focus, []) m' : Config σ V) := by
        intro b
        refine not_atBlock_of_length (i := i) ?_ ?_
        · rw [List.length_append]
          omega
        · rw [List.length_cons] at hshort
          exact hshort
      obtain ⟨xs, out, hgoes, hQ⟩ := ih hrest (Nat.lt_of_succ_lt hshort) m'
      refine ⟨xs, out, ⟨ops.filterMap opExecuted ++ xs, ?_, ?_⟩, hQ⟩
      · show Leaves ν _ (stepStmt ν _ _ _ m shown.1).1 _ out
        rw [hstep]
        exact hgoes.leaves hinside
      · show _ = (stepStmt ν _ _ _ m shown.1).2.filterMap _ ++ _
        rw [hstep, hes, List.filterMap_cons]
        cases opExecuted op <;> rfl

theorem goes_return {op : SsaOp} (hret : op.isReturn) {shown : Stmt × String}
    (h : seedOp debug block op = some shown) (rest : List Stmt) (m : σ) :
    Goes ν (seedBody debug ssa sem) (.at (shown.1 :: rest, []) m) [.ret] .left := by
  unfold seedOp at h
  split at h
  · rename_i hkind
    simp [SsaOp.isReturn, hkind] at hret
  · rename_i hkind
    simp [SsaOp.isReturn, hkind] at hret
  · rename_i hkind
    simp [SsaOp.isReturn, hkind] at hret
  · cases h
    refine ⟨_, .halt, ?_⟩
    show _ = (((leafReturnExpr debug block).getD (.name "ret")).eval ν m).events.filterMap _ ++ [Executed.ret]
    rw [leafReturnExpr_events]
    rfl
  · cases h

theorem goes_goto {t : Nat} (ht : t < ssa.blocks.length) (rest : List Stmt) (k : List Frame) (m : σ) :
    Goes ν (seedBody debug ssa sem) (.at (.goto (blockLabel t) :: rest, k) m) [] (.block t) := by
  have hgoto : gotoLabel (seedBody debug ssa sem) (blockLabel t) = some (seedPoint debug ssa sem t ssa.blocks[t]) :=
    gotoLabel_seed (List.getElem?_eq_getElem ht)
  refine ⟨[], ?_, rfl⟩
  show Leaves ν _ (Config.atPoint (gotoLabel _ _) _ m) _ _
  rw [hgoto]
  exact .arrive ⟨_, m, hgoto, rfl⟩

/-- Without a jump control falls through to the next label. -/
theorem goes_next {b : Nat} (hb : b < ssa.blocks.length) (m : σ) :
    Goes ν (seedBody debug ssa sem) (.at (seedFrom debug ssa sem b, []) m) [] (.block b) := by
  have hget := List.getElem?_eq_getElem hb
  rw [seedFrom_eq hget]
  exact ⟨[], .arrive ⟨_, m, gotoLabel_seed hget, rfl⟩, rfl⟩

/-- An `if` between two jumps goes where its condition says. -/
theorem goes_if {bi t0 t1 : Nat} (h0 : t0 < ssa.blocks.length) (h1 : t1 < ssa.blocks.length) (rest : List Stmt) (m : σ) :
    Goes ν (seedBody debug ssa sem)
      (.at (.ifThenElse (.name ("cond_" ++ toString bi)) [.goto (blockLabel t0)] [.goto (blockLabel t1)] :: rest, []) m)
      [] (.block (if ν.truthy (ν.name ("cond_" ++ toString bi) m) then t0 else t1)) := by
  refine ⟨[], ?_, rfl⟩
  show Leaves ν _ (.at (if ν.truthy (ν.name ("cond_" ++ toString bi) m) then _ else _, [.seq rest]) m) _ _
  split
  · exact (goes_goto h0 [] [.seq rest] m).leaves fun b => not_atBlock_inside
  · exact (goes_goto h1 [] [.seq rest] m).leaves fun b => not_atBlock_inside

theorem split_return {ops : List SsaOp} (h : ops.any SsaOp.isReturn) :
    ∃ before op, ops = before ++ op :: (ops.dropWhile fun op => !op.isReturn).tail ∧
      (∀ x ∈ before, x.isReturn = false) ∧ op.isReturn := by
  induction ops with
  | nil => cases h
  | cons x ops ih =>
    by_cases hx : x.isReturn
    · exact ⟨[], x, by simp [hx], by simp, hx⟩
    · rw [List.any_cons, Bool.or_eq_true, or_iff_right hx] at h
      obtain ⟨before, op, hops, hbefore, hop⟩ := ih h
      refine ⟨x :: before, op, ?_, ?_, hop⟩
      · rw [List.dropWhile_cons_of_pos (by simpa using hx), List.cons_append, ← hops]
      · intro y hy
        rcases List.mem_cons.mp hy with rfl | htail
        · simpa using hx
        · exact hbefore y htail

variable (ν debug sem) in
/-- A block with a return is left there, whatever stands behind it. -/
theorem leavesBlock_return {i : Nat} (hb : ssa.blocks[i]? = some block) (hret : block.hasReturn)
    (m : σ) : ∃ xs, LeavesBlock ν (seedBody debug ssa sem) i m xs .left ∧
      xs ++ (behindReturn block).filterMap opExecuted = block.ops.filterMap opExecuted := by
  obtain ⟨before, op, hops, hbefore, hop⟩ := split_return hret
  obtain ⟨shown, hshown⟩ : ∃ shown, seedOp debug block op = some shown := by
    unfold SsaOp.isReturn at hop
    split at hop
    · rename_i hkind
      exact ⟨_, by simp only [seedOp, hkind]; rfl⟩
    · cases hop
  have hexec : opExecuted op = some .ret := by
    unfold SsaOp.isReturn at hop
    split at hop
    · rename_i hkind
      simp only [opExecuted, hkind]
    · cases hop
  -- what stands behind the statement of the return is never executed
  obtain ⟨rest, hpoint⟩ : ∃ rest, (seedPoint debug ssa sem i block).1 =
      (before.filterMap (seedOp debug block)).map Prod.fst ++ shown.1 :: (rest ++ seedFrom debug ssa sem (i + 1)) := by
    refine ⟨(((behindReturn block).filterMap (seedOp debug block)).map Prod.fst) ++
      seedJumps i block.hasReturn (sem.succ.getD i []), ?_⟩
    have hstmts : seedStmts debug block = (before.filterMap (seedOp debug block)).map Prod.fst ++
        shown.1 :: ((behindReturn block).filterMap (seedOp debug block)).map Prod.fst := by
      unfold seedStmts
      rw [hops, List.filterMap_append, List.filterMap_cons_some hshown, List.map_append, List.map_cons]
      rfl
    simp [seedPoint, seedBlock, hstmts]
  have hlen : (seedFrom debug ssa sem i).length = (seedPoint debug ssa sem i block).1.length + 1 := by
    rw [seedFrom_eq hb, List.length_cons]
  have hlong : (seedFrom debug ssa sem (i + 1)).length ≤
      (shown.1 :: (rest ++ seedFrom debug ssa sem (i + 1))).length := by
    rw [List.length_cons, List.length_append]
    omega
  obtain ⟨xs, out, hgoes, rfl, rfl⟩ := goes_ops (ν := ν) block hbefore (shown.1 :: (rest ++ seedFrom debug ssa sem (i + 1)))
    (fun xs out => xs = [.ret] ∧ out = .left) hlong (by rw [hlen, hpoint]; exact Nat.lt_succ_self _)
    (fun m => ⟨_, _, goes_return hop hshown _ m, rfl, rfl⟩) m
  refine ⟨before.filterMap opExecuted ++ [.ret], ⟨_, gotoLabel_seed hb, ?_⟩, ?_⟩
  · rw [← hpoint] at hgoes
    exact hgoes
  · conv_rhs => rw [hops]
    rw [List.filterMap_append, List.filterMap_cons_some hexec, List.append_assoc]
    rfl

variable (ν debug sem) in
/-- A block without a return executes what stands for its operations and goes where its
jumps lead. -/
theorem leavesBlock_jumps {i : Nat} (hb : ssa.blocks[i]? = some block)
    (hret : block.hasReturn = false) {Q : Exit → Prop}
    (hgo : ∀ m : σ, ∃ out, Goes ν (seedBody debug ssa sem)
      (.at (seedJumps i false (sem.succ.getD i []) ++ seedFrom debug ssa sem (i + 1), []) m) [] out ∧ Q out) (m : σ) :
    ∃ out, LeavesBlock ν (seedBody debug ssa sem) i m (block.ops.filterMap opExecuted) out ∧ Q out := by
  have hplain : ∀ op ∈ block.ops, op.isReturn = false := by
    intro op hop
    have hnone := List.any_eq_false.mp hret op hop
    simpa using hnone
  have hpoint : (seedPoint debug ssa sem i block).1 = (block.ops.filterMap (seedOp debug block)).map Prod.fst ++
      (seedJumps i false (sem.succ.getD i []) ++ seedFrom debug ssa sem (i + 1)) := by
    rw [seedPoint, seedBlock, seedStmts, hret, List.append_assoc]
  have hlen : (seedFrom debug ssa sem i).length = (seedPoint debug ssa sem i block).1.length + 1 := by
    rw [seedFrom_eq hb, List.length_cons]
  have hlong : (seedFrom debug ssa sem (i + 1)).length ≤
      (seedJumps i false (sem.succ.getD i []) ++ seedFrom debug ssa sem (i + 1)).length := by
    rw [List.length_append]
    omega
  have hbehind : ∀ m : σ, ∃ xs out, Goes ν (seedBody debug ssa sem)
      (.at (seedJumps i false (sem.succ.getD i []) ++ seedFrom debug ssa sem (i + 1), []) m) xs out ∧
        xs = [] ∧ Q out := by
    intro m
    obtain ⟨out, hgoes, hQ⟩ := hgo m
    exact ⟨[], out, hgoes, rfl, hQ⟩
  obtain ⟨xs, out, hgoes, rfl, hQ⟩ := goes_ops block hplain _ (fun xs out => xs = [] ∧ Q out) hlong
    (by rw [hlen, hpoint]; exact Nat.lt_succ_self _) hbehind m
  rw [List.append_nil, ← hpoint] at hgoes
  exact ⟨out, ⟨_, gotoLabel_seed hb, hgoes⟩, hQ⟩

/-- Where at most two jumps lead, by the truth of the condition. -/
def jumpExit (cond : Bool) : List Nat → Exit
  | [] => .left
  | [t] => .block t
  | t0 :: t1 :: _ => .block (if cond then t0 else t1)

theorem goes_jumps {i : Nat} {succs : List Nat} (hlen : succs.length ≤ 2) (hvalid : ∀ t ∈ succs, t < ssa.blocks.length)
    (m : σ) :
    Goes ν (seedBody debug ssa sem) (.at (seedJumps i false succs ++ seedFrom debug ssa sem (i + 1), []) m) []
      (jumpExit (ν.truthy (ν.name ("cond_" ++ toString i) m)) succs) := by
  match succs, hlen with
  | [], _ => exact ⟨[], .halt, rfl⟩
  | [t], _ =>
    have ht := hvalid t (by simp)
    by_cases hnext : t = i + 1
    · subst hnext
      rw [seedJumps, if_pos rfl]
      exact goes_next ht m
    · rw [seedJumps, if_neg hnext]
      exact goes_goto ht _ [] m
  | [t0, t1], _ => exact goes_if (hvalid t0 (by simp)) (hvalid t1 (by simp)) _ m

/-- Behind more than two successors only the first jump is taken. -/
theorem goes_jumps_many {i t0 t1 t2 : Nat} {ts : List Nat} (h0 : t0 < ssa.blocks.length) (m : σ) :
    Goes ν (seedBody debug ssa sem)
      (.at (seedJumps i false (t0 :: t1 :: t2 :: ts) ++ seedFrom debug ssa sem (i + 1), []) m) [] (.block t0) :=
  goes_goto h0 _ [] m

end Blocks

/-- The valuation whose names all have this truth value. -/
def choosing (choice : Bool) : Valuation Unit Bool where
  name := fun _ _ => choice
  int := fun _ _ => true
  uint := fun _ _ => true
  binOp := fun _ _ _ => true
  unaryOp := fun op v => if op = "!" then !v else v
  cast := fun _ v => v
  load := fun v _ => v
  compare := fun _ _ _ => true
  call := fun _ _ m => (true, m)
  assign := fun _ _ m => m
  raw := fun _ m => m
  truthy := fun v => v
  equals := fun _ _ => true
  truthy_not := fun _ => rfl
  truthy_one := rfl

/-! ## What the seed loses -/

section Faithful
variable {debug : PcodeOp → String} {ssa : SsaFunction} {sem : SemanticModel} {i : Nat} {block : SsaBlock}
  {succs : List Nat}

theorem allowed_block (hret : block.hasReturn = false) {t : Nat} (ht : t ∈ succs) :
    Allowed block succs (.block t) := by
  have hstay : ¬ (succs = [] ∨ block.hasReturn) := by
    rw [hret]
    exact not_or.mpr ⟨List.ne_nil_of_mem ht, Bool.false_ne_true⟩
  rw [Allowed, if_neg hstay]
  exact ⟨t, ht, rfl⟩

theorem allowed_jumpExit (hret : block.hasReturn = false) (cond : Bool) :
    Allowed block succs (jumpExit cond succs) := by
  match succs with
  | [] => simp [Allowed, jumpExit]
  | [t] => exact allowed_block hret (by simp)
  | t0 :: t1 :: ts => exact allowed_block hret (by cases cond <;> simp)

/-- Each way is the one for some truth value. -/
theorem exists_jumpExit (hret : block.hasReturn = false) (hlen : succs.length ≤ 2) {out : Exit}
    (h : Allowed block succs out) : ∃ cond, jumpExit cond succs = out := by
  unfold Allowed at h
  match succs, hlen with
  | [], _ =>
    rw [if_pos (.inl rfl)] at h
    exact ⟨true, h.symm⟩
  | [t], _ =>
    rw [if_neg (by simp [hret])] at h
    obtain ⟨s, hs, rfl⟩ := h
    obtain rfl := List.mem_singleton.mp hs
    exact ⟨true, rfl⟩
  | [t0, t1], _ =>
    rw [if_neg (by simp [hret])] at h
    obtain ⟨s, hs, rfl⟩ := h
    rcases List.mem_pair.mp hs with rfl | rfl
    · exact ⟨true, rfl⟩
    · exact ⟨false, rfl⟩

/-- Because a piece has one end, it is enough to know one of each run. -/
theorem lossless_of_leaves
    (hleaves : ∀ (σ V : Type) (ν : Valuation σ V) (m : σ), ∃ out,
      LeavesBlock ν (seedBody debug ssa sem) i m (block.ops.filterMap opExecuted) out ∧ Allowed block succs out)
    (hpossible : ∀ out, Allowed block succs out → ∃ (σ V : Type) (ν : Valuation σ V) (m : σ) (xs : List Executed),
      LeavesBlock ν (seedBody debug ssa sem) i m xs out) :
    Lossless (seedBody debug ssa sem) i block succs where
  leaves := by
    intro σ V ν m
    obtain ⟨out, hout, -⟩ := hleaves σ V ν m
    exact ⟨_, out, hout⟩
  executes := by
    intro σ V ν m xs out h
    obtain ⟨out', hout', -⟩ := hleaves σ V ν m
    exact (h.unique atBlock_seed_inj hout').1
  allowed := by
    intro σ V ν m xs out h
    obtain ⟨out', hout', hallowed⟩ := hleaves σ V ν m
    rw [(h.unique atBlock_seed_inj hout').2]
    exact hallowed
  possible := hpossible

theorem lossless_of_return (hb : ssa.blocks[i]? = some block) (hret : block.hasReturn)
    (hbehind : (behindReturn block).filterMap opExecuted = []) (succs : List Nat) :
    Lossless (seedBody debug ssa sem) i block succs := by
  have hallowed : Allowed block succs .left := by
    rw [Allowed, if_pos (.inr hret)]
  have hleaves : ∀ (σ V : Type) (ν : Valuation σ V) (m : σ),
      LeavesBlock ν (seedBody debug ssa sem) i m (block.ops.filterMap opExecuted) .left := by
    intro σ V ν m
    obtain ⟨xs, hxs, hops⟩ := leavesBlock_return ν debug sem hb hret m
    rw [hbehind, List.append_nil] at hops
    rw [← hops]
    exact hxs
  refine lossless_of_leaves (fun σ V ν m => ⟨.left, hleaves σ V ν m, hallowed⟩) fun out hout => ?_
  rw [Allowed, if_pos (.inr hret)] at hout
  rw [hout]
  exact ⟨Unit, Bool, choosing true, (), _, hleaves Unit Bool (choosing true) ()⟩

theorem lossless_of_jumps (hb : ssa.blocks[i]? = some block) (hret : block.hasReturn = false)
    (hlen : (sem.succ.getD i []).length ≤ 2) (hvalid : ∀ t ∈ sem.succ.getD i [], t < ssa.blocks.length) :
    Lossless (seedBody debug ssa sem) i block (sem.succ.getD i []) := by
  refine lossless_of_leaves ?_ ?_
  · intro σ V ν m
    obtain ⟨out, hout, cond, rfl⟩ := leavesBlock_jumps ν debug sem hb hret
      (Q := fun out => ∃ cond, out = jumpExit cond (sem.succ.getD i []))
      (fun m => ⟨_, goes_jumps hlen hvalid m, _, rfl⟩) m
    exact ⟨_, hout, allowed_jumpExit hret cond⟩
  · intro out hout
    obtain ⟨cond, rfl⟩ := exists_jumpExit hret hlen hout
    obtain ⟨out, hleaves, rfl⟩ := leavesBlock_jumps (choosing cond) debug sem hb hret
      (Q := fun out => out = jumpExit cond (sem.succ.getD i [])) (fun m => ⟨_, goes_jumps hlen hvalid m, rfl⟩) ()
    exact ⟨Unit, Bool, choosing cond, (), _, hleaves⟩

/-- The operations behind a return are never executed. -/
theorem Lossless.behindReturn (h : Lossless (seedBody debug ssa sem) i block (sem.succ.getD i []))
    (hb : ssa.blocks[i]? = some block) (hret : block.hasReturn) :
    (V2.behindReturn block).filterMap opExecuted = [] := by
  obtain ⟨xs, hxs, hops⟩ := leavesBlock_return (choosing true) debug sem hb hret ()
  have hall := h.executes _ _ _ _ _ _ hxs
  rw [hall] at hops
  exact List.append_right_eq_self.mp hops

theorem Lossless.succ_lt (h : Lossless (seedBody debug ssa sem) i block (sem.succ.getD i []))
    (hret : block.hasReturn = false) {t : Nat} (ht : t ∈ sem.succ.getD i []) : t < ssa.blocks.length := by
  obtain ⟨σ, V, ν, m, xs, p, -, rest, hrest, -⟩ := h.possible _ (allowed_block hret ht)
  exact hrest.block_lt

/-- More than two successors are not all reached. -/
theorem Lossless.succ_length (h : Lossless (seedBody debug ssa sem) i block (sem.succ.getD i []))
    (hb : ssa.blocks[i]? = some block) (hret : block.hasReturn = false) (hnodup : (sem.succ.getD i []).Nodup) :
    (sem.succ.getD i []).length ≤ 2 := by
  match hsucc : sem.succ.getD i [] with
  | [] => simp
  | [_] => simp
  | [_, _] => simp
  | t0 :: t1 :: t2 :: ts =>
    exfalso
    have hvalid : t0 < ssa.blocks.length := h.succ_lt hret (by rw [hsucc]; simp)
    have ht1 : t1 ∈ sem.succ.getD i [] := by
      rw [hsucc]
      simp
    obtain ⟨σ, V, ν, m, xs, hxs⟩ := h.possible _ (allowed_block hret ht1)
    have hgo : ∀ m : σ, ∃ out, Goes ν (seedBody debug ssa sem)
        (.at (seedJumps i false (sem.succ.getD i []) ++ seedFrom debug ssa sem (i + 1), []) m) [] out ∧
          out = .block t0 := by
      intro m
      rw [hsucc]
      exact ⟨_, goes_jumps_many hvalid m, rfl⟩
    obtain ⟨out, hout, rfl⟩ := leavesBlock_jumps ν debug sem (Q := fun out => out = .block t0) hb hret hgo m
    have hsame := (hxs.unique atBlock_seed_inj hout).2
    rw [hsucc, List.nodup_cons] at hnodup
    exact hnodup.1 (by simp [Exit.block.inj hsame])

/-- A block of the seed is passed as its operations and its successors say exactly when
nothing shows behind its return or, without a return, there are at most two ways on. -/
theorem lossless_iff (hb : ssa.blocks[i]? = some block) (hnodup : (sem.succ.getD i []).Nodup) :
    Lossless (seedBody debug ssa sem) i block (sem.succ.getD i []) ↔
      SeedsFaithfully ssa block (sem.succ.getD i []) := by
  unfold SeedsFaithfully
  by_cases hret : block.hasReturn
  · rw [if_pos hret]
    exact ⟨fun h => h.behindReturn hb hret, fun h => lossless_of_return hb hret h _⟩
  · rw [if_neg hret]
    rw [Bool.not_eq_true] at hret
    exact ⟨fun h => ⟨h.succ_length hb hret hnodup, fun t ht => h.succ_lt hret ht⟩,
      fun h => lossless_of_jumps hb hret h.1 h.2⟩

end Faithful

theorem nodup_modelSuccessors (ssa : SsaFunction) (i : Nat) : ((fromRawPcode ssa).succ.getD i []).Nodup := by
  have hsorted : ∀ block, (modelSuccessors ssa block).Nodup := fun block =>
    (List.perm_insertionSort _ _).nodup_iff.mpr (List.nodup_dedup _)
  rw [List.getD_eq_getElem?_getD]
  cases h : (fromRawPcode ssa).succ[i]? with
  | none => exact List.nodup_nil
  | some succs =>
    simp only [fromRawPcode, List.getElem?_map, Option.map_eq_some_iff] at h
    obtain ⟨block, -, rfl⟩ := h
    exact hsorted block

/-- The seed passes a block as its operations and its successors say exactly when nothing
shows behind its return or, without a return, it has at most two successors, all of them
blocks. -/
theorem seed_lossless_iff (debug : PcodeOp → String) (ssa : SsaFunction) (contracts : ContractBundle) (name : String)
    (params : List String) (i : Nat) (block : SsaBlock) (hb : ssa.blocks[i]? = some block) :
    Lossless (seedLosslessAst debug ssa (fromRawPcode ssa).toSemanticModel contracts name params).ast.body i block
        ((fromRawPcode ssa).succ.getD i []) ↔
      SeedsFaithfully ssa block ((fromRawPcode ssa).succ.getD i []) :=
  lossless_iff hb (nodup_modelSuccessors ssa i)

theorem seed_lossless_skip :
    ∃ block, skip.blocks[0]? = some block ∧
      Lossless (seedLosslessAst (fun _ => "") skip (fromRawPcode skip).toSemanticModel ⟨[], []⟩ "f" []).ast.body 0 block
        ((fromRawPcode skip).succ.getD 0 []) :=
  ⟨_, rfl, (seed_lossless_iff (fun _ => "") skip ⟨[], []⟩ "f" [] 0 _ rfl).mpr ⟨by decide, by decide⟩⟩

section Example
open Structure.Emitter (functionOf codeAt flagAt)

/-- A jump table with three cases, each of them a return. -/
def threeWays : SsaFunction :=
  functionOf [([.pcode (.branchInd (flagAt 0x200))], [], [1, 2, 3]), ([.pcode (.ret (codeAt 0))], [0], []),
    ([.pcode (.ret (codeAt 0))], [0], []), ([.pcode (.ret (codeAt 0))], [0], [])]

/-- Only the first case is reached. -/
theorem threeWays_loses :
    ∃ block, threeWays.blocks[0]? = some block ∧
      ¬ Lossless (seedLosslessAst (fun _ => "") threeWays (fromRawPcode threeWays).toSemanticModel ⟨[], []⟩ "f" []).ast.body
        0 block ((fromRawPcode threeWays).succ.getD 0 []) := by
  refine ⟨_, rfl, fun h => ?_⟩
  have hfew := h.succ_length rfl rfl (nodup_modelSuccessors threeWays 0)
  exact absurd hfew (by decide)

end Example

end Windy.Decompiler.V2
