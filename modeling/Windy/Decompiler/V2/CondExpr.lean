import Windy.Decompiler.V2.Semantics

/- The normal form of conditions (`decompiler/v2/ssa_expr.rs`, `normalize_cond_expr`).

   Conditions come out of the machine code as tests of flags, with negations around them. The
   normal form has the comparisons that such a test stands for. Not all of the rewriting says
   the same: a flag that is compared with a sign test is taken to be zero, a field that is not
   positive to be null, and an operand that is negated twice for the operand itself, whose
   value may be another one than 0 and 1.

   What is proved:
     1. `word_normalize`: the value of a normal form, read off the condition itself (`shown`).
     2. `truth_kept_iff`: when the normal form is true just where the condition is.

   Correspondence:
     `sless_zero_nested_subject`, `freeload_name_sless_subject` ↔ the same
     `expand_not_sless_to_soft_gt` ↔ `expandNotSlessToSoftGt`, of the operand in normal form
     `normalize_cond_expr` ↔ the same -/
namespace Windy.Decompiler.V2

/-! ## The code -/

def isIntZero : Expr → Bool
  | .int value _ => value == 0
  | .uint value _ => value == 0
  | _ => false

def isIntOne : Expr → Bool
  | .int value _ => value == 1
  | .uint value _ => value == 1
  | _ => false

def isLowBitProbe : Expr → Bool
  | .binOp op lhs rhs => op == "&" && (isIntOne rhs || isIntOne lhs)
  | _ => false

mutual

def exprMentionsStackBase : Expr → Bool
  | .name name => name == "rsp" || name == "rbp" || name == "esp" || name == "ebp"
  | .binOp _ lhs rhs | .compare _ lhs rhs => exprMentionsStackBase lhs || exprMentionsStackBase rhs
  | .unaryOp _ arg | .cast _ arg | .load arg => exprMentionsStackBase arg
  | .select cond thenE elseE =>
    exprMentionsStackBase cond || exprMentionsStackBase thenE || exprMentionsStackBase elseE
  | .call _ args => anyMentionsStackBase args
  | .int _ _ | .uint _ _ => false

def anyMentionsStackBase : List Expr → Bool
  | [] => false
  | e :: rest => exprMentionsStackBase e || anyMentionsStackBase rest

end

def isSmallPos : Expr → Bool
  | .int value _ => 1 ≤ value && value < 0x100
  | .uint value _ => 1 ≤ value && value < 0x100
  | _ => false

def isStructFieldLoad : Expr → Bool
  | .load addr =>
    if exprMentionsStackBase addr then false
    else match addr with
      | .binOp op lhs rhs => op == "+" && (isSmallPos lhs || isSmallPos rhs)
      | _ => false
  | _ => false

/-- The `x` of a sign test `x < 0` or `0 > x`. -/
def signSubject : Expr → Option Expr
  | .compare op a b =>
    if op == "<" && isIntZero b then some a else if op == ">" && isIntZero a then some b else none
  | _ => none

/-- The subject of a sign test that is compared with a flag, on either side. -/
def flaggedSubject (isFlag : Expr → Bool) (lhs rhs : Expr) : Option Expr :=
  let pick := fun flagSide cmpSide => if isFlag flagSide then signSubject cmpSide else none
  (pick lhs rhs).or (pick rhs lhs)

def slessZeroNestedSubject : Expr → Expr → Option Expr := flaggedSubject isIntZero

def isName : Expr → Bool
  | .name _ => true
  | _ => false

def freeloadNameSlessSubject : Expr → Expr → Option Expr := flaggedSubject isName

/-- `expand_not_sless_to_soft_gt`, once `x` is in normal form. -/
def expandNotSlessToSoftGt (x : Expr) : Expr :=
  .binOp "||" (.compare ">" x (.int 0 32)) (.compare "==" x (.int 0 32))

theorem sizeOf_signSubject {e x : Expr} (h : signSubject e = some x) : sizeOf x < sizeOf e := by
  unfold signSubject at h
  split at h
  · split at h
    · obtain rfl := Option.some.inj h
      simp only [Expr.compare.sizeOf_spec]
      omega
    · split at h
      · obtain rfl := Option.some.inj h
        simp only [Expr.compare.sizeOf_spec]
        omega
      · cases h
  · cases h

theorem flaggedSubject_cases {isFlag : Expr → Bool} {lhs rhs x : Expr} (h : flaggedSubject isFlag lhs rhs = some x) :
    (isFlag lhs = true ∧ signSubject rhs = some x) ∨ (isFlag rhs = true ∧ signSubject lhs = some x) := by
  unfold flaggedSubject at h
  rw [Option.or_eq_some_iff] at h
  rcases h with h | ⟨-, h⟩
  · exact .inl (by simpa using h)
  · exact .inr (by simpa using h)

theorem sizeOf_flaggedSubject {isFlag : Expr → Bool} {lhs rhs x : Expr} (h : flaggedSubject isFlag lhs rhs = some x) :
    sizeOf x < sizeOf lhs + sizeOf rhs := by
  rcases flaggedSubject_cases h with ⟨-, hx⟩ | ⟨-, hx⟩
  · have := sizeOf_signSubject hx
    omega
  · have := sizeOf_signSubject hx
    omega

def normalizeCondExpr (e : Expr) : Expr :=
  match e with
  | .unaryOp op arg =>
    if op == "!" then
      match arg with
      | .compare cmp lhs rhs =>
        if cmp == "==" && isIntZero rhs && !isLowBitProbe lhs then .compare "!=" lhs rhs
        else if cmp == "!=" && isIntZero rhs && !isLowBitProbe lhs then .compare "==" lhs rhs
        else if cmp == "!=" then
          match hx : freeloadNameSlessSubject lhs rhs with
          | some x => expandNotSlessToSoftGt (normalizeCondExpr x)
          | none => .unaryOp "!" (.compare cmp (normalizeCondExpr lhs) (normalizeCondExpr rhs))
        else .unaryOp "!" (normalizeCondExpr (.compare cmp lhs rhs))
      | .unaryOp innerOp inner =>
        if innerOp == "!" then normalizeCondExpr inner
        else .unaryOp "!" (normalizeCondExpr (.unaryOp innerOp inner))
      | other => .unaryOp "!" (normalizeCondExpr other)
    else .unaryOp op arg
  | .compare cmp lhs rhs =>
    if cmp == "==" then
      match hx : slessZeroNestedSubject lhs rhs with
      | some x => expandNotSlessToSoftGt (normalizeCondExpr x)
      | none =>
        if isIntZero rhs && !isLowBitProbe lhs && isStructFieldLoad lhs then
          .unaryOp "!" (.compare ">" (normalizeCondExpr lhs) (.int 0 32))
        else if isIntZero lhs && !isLowBitProbe rhs && isStructFieldLoad rhs then
          .unaryOp "!" (.compare ">" (normalizeCondExpr rhs) (.int 0 32))
        else .compare cmp (normalizeCondExpr lhs) (normalizeCondExpr rhs)
    else .compare cmp (normalizeCondExpr lhs) (normalizeCondExpr rhs)
  | other => other
termination_by sizeOf e
decreasing_by
  all_goals simp only [Expr.unaryOp.sizeOf_spec, Expr.compare.sizeOf_spec]
  all_goals first
    | omega
    | exact Nat.lt_of_lt_of_le (sizeOf_flaggedSubject hx) (by omega)

/-! ## What a condition says -/

/-- The names, the loads and the operators a condition is read with, over words of one width.
A condition is read in one state, so a call is a function of its arguments. -/
structure Env where
  width : Nat
  width_pos : 0 < width
  signed : Bool
  names : String → BitVec width
  load : BitVec width → BitVec width
  call : String → List (BitVec width) → BitVec width
  cast : String → BitVec width → BitVec width
  /-- Every operator but `||`. -/
  binOp : String → BitVec width → BitVec width → BitVec width
  /-- Every operator but `!`. -/
  unaryOp : String → BitVec width → BitVec width
  /-- Every comparison but `==`, `!=`, `<` and `>`. -/
  relate : String → BitVec width → BitVec width → Bool

namespace Env
variable (env : Env)

/-- `<`, of one signedness throughout. -/
def less (a b : BitVec env.width) : Bool := if env.signed then a.slt b else a.ult b

def ofBool (b : Bool) : BitVec env.width := if b then 1#(env.width) else 0#(env.width)

/-- The outcome of a comparison. -/
def holds (op : String) (a b : BitVec env.width) : Bool :=
  if op == "==" then a == b
  else if op == "!=" then a != b
  else if op == "<" then env.less a b
  else if op == ">" then env.less b a
  else env.relate op a b

@[simp] theorem ofBool_bne_zero (b : Bool) : (env.ofBool b != 0#(env.width)) = b := by
  cases b with
  | false => exact bne_self_eq_false _
  | true =>
    have hone : 1 < 2 ^ env.width := Nat.one_lt_two_pow (Nat.ne_of_gt env.width_pos)
    have hne : 1#(env.width) ≠ 0#(env.width) := by
      intro h
      have hnat := congrArg BitVec.toNat h
      rw [BitVec.toNat_ofNat, BitVec.toNat_ofNat, Nat.zero_mod, Nat.mod_eq_of_lt hone] at hnat
      cases hnat
    exact bne_iff_ne.mpr hne

theorem ofBool_beq_zero (b : Bool) : (env.ofBool b == 0#(env.width)) = !b := by
  have h := env.ofBool_bne_zero b
  rw [bne] at h
  conv_rhs => rw [← h, Bool.not_not]

/-- The environment as a meaning of expressions that leaves the state alone. -/
def valuation : Valuation Unit (BitVec env.width) where
  name text _ := env.names text
  int value _ := BitVec.ofInt env.width value
  uint value _ := BitVec.ofNat env.width value
  binOp op a b := if op == "||" then env.ofBool (a != 0#(env.width) || b != 0#(env.width)) else env.binOp op a b
  unaryOp op a := if op == "!" then env.ofBool (a == 0#(env.width)) else env.unaryOp op a
  cast := env.cast
  load a _ := env.load a
  compare op a b := env.ofBool (env.holds op a b)
  call target args _ := (env.call target args, ())
  assign _ _ _ := ()
  raw _ _ := ()
  truthy v := v != 0#(env.width)
  equals v n := v == BitVec.ofInt env.width n
  truthy_not v := by
    rw [if_pos (by rfl), ofBool_bne_zero, bne, Bool.not_not]
  truthy_one := env.ofBool_bne_zero true

/-- The word an expression stands for. -/
def word (e : Expr) : BitVec env.width := (e.eval env.valuation ()).value

@[simp] theorem word_not (f : Expr) : env.word (.unaryOp "!" f) = env.ofBool (env.word f == 0#(env.width)) := rfl

@[simp] theorem word_compare (op : String) (l r : Expr) :
    env.word (.compare op l r) = env.ofBool (env.holds op (env.word l) (env.word r)) := rfl

@[simp] theorem word_or (l r : Expr) :
    env.word (.binOp "||" l r) = env.ofBool (env.word l != 0#(env.width) || env.word r != 0#(env.width)) := rfl

@[simp] theorem word_zero (bits : Nat) : env.word (.int 0 bits) = 0#(env.width) := rfl

theorem word_of_isIntZero {e : Expr} (h : isIntZero e = true) : env.word e = 0#(env.width) := by
  cases e with
  | int value bits =>
    obtain rfl : value = 0 := by simpa [isIntZero] using h
    rfl
  | uint value bits =>
    obtain rfl : value = 0 := by simpa [isIntZero] using h
    rfl
  | _ => cases h

theorem less_trichotomy (a b : BitVec env.width) :
    (env.less a b = true ∧ a ≠ b ∧ env.less b a = false) ∨ (env.less a b = false ∧ a = b ∧ env.less b a = false) ∨
      (env.less a b = false ∧ a ≠ b ∧ env.less b a = true) := by
  unfold less
  cases env.signed with
  | true =>
    simp only [if_true, BitVec.slt_eq_decide, decide_eq_true_eq, decide_eq_false_iff_not, ne_eq, ← BitVec.toInt_inj]
    omega
  | false =>
    simp only [Bool.false_eq_true, if_false, BitVec.ult_eq_decide, decide_eq_true_eq, decide_eq_false_iff_not, ne_eq,
      ← BitVec.toNat_inj]
    omega

/-- A sign test is the comparison of its subject with zero. -/
theorem word_of_signSubject {e x : Expr} (h : signSubject e = some x) :
    env.word e = env.ofBool (env.less (env.word x) 0#(env.width)) := by
  unfold signSubject at h
  split at h
  · next op a b =>
    split at h
    · next hcond =>
      obtain rfl := Option.some.inj h
      rw [Bool.and_eq_true, beq_iff_eq] at hcond
      rw [word_compare, hcond.1, env.word_of_isIntZero hcond.2]
      rfl
    · split at h
      · next hcond =>
        obtain rfl := Option.some.inj h
        rw [Bool.and_eq_true, beq_iff_eq] at hcond
        rw [word_compare, hcond.1, env.word_of_isIntZero hcond.2]
        rfl
      · cases h
  · cases h

/-- The disjunction a sign test is expanded to says that `x` is not negative. -/
theorem word_expand (x : Expr) :
    env.word (expandNotSlessToSoftGt x) = env.ofBool (!env.less (env.word x) 0#(env.width)) := by
  have hgt : env.holds ">" (env.word x) 0#(env.width) = env.less 0#(env.width) (env.word x) := rfl
  have heq : env.holds "==" (env.word x) 0#(env.width) = (env.word x == 0#(env.width)) := rfl
  rw [expandNotSlessToSoftGt, word_or, word_compare, word_compare, word_zero, hgt, heq, ofBool_bne_zero, ofBool_bne_zero]
  rcases env.less_trichotomy (env.word x) 0#(env.width) with ⟨h, hne, h'⟩ | ⟨h, heq', h'⟩ | ⟨h, hne, h'⟩
  · rw [h, h', beq_eq_false_iff_ne.mpr hne]
    rfl
  · rw [h, h', beq_iff_eq.mpr heq']
    rfl
  · rw [h, h']
    rfl

end Env

/-! ## Situations -/

/-- What the normal form looks for in a condition. -/
inductive Situation where
  /-- `!(x == 0)` and `!(x != 0)`. -/
  | zeroTest (cmp : String) (lhs rhs : Expr)
  /-- `!(flag != (x < 0))`, with the subject `x`. -/
  | flagTest (lhs rhs x : Expr)
  /-- Another `!(lhs != rhs)`. -/
  | differ (lhs rhs : Expr)
  | doubleNot (f : Expr)
  | negation (f : Expr)
  /-- `(x < 0) == 0`, with the subject `x`. -/
  | signTest (lhs rhs x : Expr)
  /-- `field == 0`. -/
  | nullGuard (field other : Expr)
  | comparison (op : String) (lhs rhs : Expr)
  | leaf

def situation : Expr → Situation
  | .unaryOp op arg =>
    if op == "!" then
      match arg with
      | .compare cmp lhs rhs =>
        if (cmp == "==" || cmp == "!=") && isIntZero rhs && !isLowBitProbe lhs then .zeroTest cmp lhs rhs
        else if cmp == "!=" then
          match freeloadNameSlessSubject lhs rhs with
          | some x => .flagTest lhs rhs x
          | none => .differ lhs rhs
        else .negation (.compare cmp lhs rhs)
      | .unaryOp innerOp inner =>
        if innerOp == "!" then .doubleNot inner else .negation (.unaryOp innerOp inner)
      | other => .negation other
    else .leaf
  | .compare cmp lhs rhs =>
    if cmp == "==" then
      match slessZeroNestedSubject lhs rhs with
      | some x => .signTest lhs rhs x
      | none =>
        if isIntZero rhs && !isLowBitProbe lhs && isStructFieldLoad lhs then .nullGuard lhs rhs
        else if isIntZero lhs && !isLowBitProbe rhs && isStructFieldLoad rhs then .nullGuard rhs lhs
        else .comparison cmp lhs rhs
    else .comparison cmp lhs rhs
  | _ => .leaf

/-- The normal form in a situation, its parts in normal form already. -/
def Situation.normal (norm : Expr → Expr) (e : Expr) : Situation → Expr
  | .zeroTest cmp lhs rhs => .compare (if cmp == "==" then "!=" else "==") lhs rhs
  | .flagTest _ _ x | .signTest _ _ x => expandNotSlessToSoftGt (norm x)
  | .differ lhs rhs => .unaryOp "!" (.compare "!=" (norm lhs) (norm rhs))
  | .doubleNot f => norm f
  | .negation f => .unaryOp "!" (norm f)
  | .nullGuard field _ => .unaryOp "!" (.compare ">" (norm field) (.int 0 32))
  | .comparison op lhs rhs => .compare op (norm lhs) (norm rhs)
  | .leaf => e

theorem normalizeCondExpr_eq (e : Expr) : normalizeCondExpr e = (situation e).normal normalizeCondExpr e := by
  cases e with
  | unaryOp op arg =>
    unfold normalizeCondExpr situation
    dsimp only
    split
    · next hop =>
      obtain rfl := beq_iff_eq.mp hop
      cases arg with
      | compare cmp lhs rhs =>
        dsimp only
        split
        · next hzero =>
          simp only [Bool.and_eq_true] at hzero
          simp [hzero, Situation.normal]
        · split
          · next hzero =>
            simp only [Bool.and_eq_true] at hzero
            obtain ⟨⟨hcmp, hz⟩, hp⟩ := hzero
            obtain rfl := beq_iff_eq.mp hcmp
            simp [hz, hp, Situation.normal]
          · next heq hne =>
            have hboth : ((cmp == "==" || cmp == "!=") && isIntZero rhs && !isLowBitProbe lhs) = false := by
              cases h1 : cmp == "==" <;> cases h2 : cmp == "!=" <;> simp_all
            rw [hboth, if_neg Bool.false_ne_true]
            split
            · next hcmp =>
              obtain rfl := beq_iff_eq.mp hcmp
              split
              · next x hx => rw [hx]; rfl
              · next hx => rw [hx]; rfl
            · rfl
      | unaryOp iop inner =>
        dsimp only
        split
        · rfl
        · rfl
      | _ => rfl
    · rfl
  | compare cmp lhs rhs =>
    unfold normalizeCondExpr situation
    dsimp only
    split
    · split
      · next x hx => rw [hx]; rfl
      · next hx =>
        rw [hx]
        dsimp only
        split
        · rfl
        · split
          · rfl
          · rfl
    · rfl
  | _ =>
    unfold normalizeCondExpr
    rfl

/-- What an expression in a situation looks like. -/
def Situation.Fits (e : Expr) : Situation → Prop
  | .zeroTest cmp lhs rhs =>
    e = .unaryOp "!" (.compare cmp lhs rhs) ∧ (cmp = "==" ∨ cmp = "!=") ∧ isIntZero rhs = true
  | .flagTest lhs rhs x =>
    e = .unaryOp "!" (.compare "!=" lhs rhs) ∧ freeloadNameSlessSubject lhs rhs = some x
  | .differ lhs rhs => e = .unaryOp "!" (.compare "!=" lhs rhs)
  | .doubleNot f => e = .unaryOp "!" (.unaryOp "!" f)
  | .negation f => e = .unaryOp "!" f
  | .signTest lhs rhs x => e = .compare "==" lhs rhs ∧ slessZeroNestedSubject lhs rhs = some x
  | .nullGuard field other =>
    (e = .compare "==" field other ∨ e = .compare "==" other field) ∧ isIntZero other = true ∧
      isStructFieldLoad field = true
  | .comparison op lhs rhs => e = .compare op lhs rhs
  | .leaf => True

theorem situation_fits (e : Expr) : (situation e).Fits e := by
  unfold situation
  split
  · next op arg =>
    split
    · next hop =>
      obtain rfl := beq_iff_eq.mp hop
      split
      · next cmp lhs rhs =>
        split
        · next hzero =>
          simp only [Bool.and_eq_true, Bool.or_eq_true, beq_iff_eq] at hzero
          exact ⟨rfl, hzero.1⟩
        · split
          · next hcmp =>
            obtain rfl := beq_iff_eq.mp hcmp
            split
            · next x hx => exact ⟨rfl, hx⟩
            · exact rfl
          · exact rfl
      · next iop inner =>
        split
        · next h =>
          obtain rfl := beq_iff_eq.mp h
          exact rfl
        · exact rfl
      · exact rfl
    · exact True.intro
  · next cmp lhs rhs =>
    split
    · next hcmp =>
      obtain rfl := beq_iff_eq.mp hcmp
      split
      · next x hx => exact ⟨rfl, hx⟩
      · split
        · next h =>
          simp only [Bool.and_eq_true] at h
          exact ⟨.inl rfl, h.1.1, h.2⟩
        · split
          · next h =>
            simp only [Bool.and_eq_true] at h
            exact ⟨.inr rfl, h.1.1, h.2⟩
          · exact rfl
    · exact rfl
  · exact True.intro

/-- The expressions that are taken to normal form in a situation. -/
def Situation.parts : Situation → List Expr
  | .zeroTest _ _ _ | .leaf => []
  | .flagTest _ _ x | .signTest _ _ x => [x]
  | .differ lhs rhs | .comparison _ lhs rhs => [lhs, rhs]
  | .doubleNot f | .negation f => [f]
  | .nullGuard field _ => [field]

theorem sizeOf_part {e p : Expr} (h : p ∈ (situation e).parts) : sizeOf p < sizeOf e := by
  have hfits := situation_fits e
  cases hs : situation e with
  | zeroTest cmp lhs rhs => simp [hs, Situation.parts] at h
  | flagTest lhs rhs x =>
    rw [hs] at h hfits
    obtain ⟨rfl, hx⟩ := hfits
    obtain rfl : p = x := by simpa [Situation.parts] using h
    have := sizeOf_flaggedSubject hx
    simp only [Expr.unaryOp.sizeOf_spec, Expr.compare.sizeOf_spec]
    omega
  | differ lhs rhs =>
    rw [hs] at h hfits
    obtain rfl : e = .unaryOp "!" (.compare "!=" lhs rhs) := hfits
    have hp : p = lhs ∨ p = rhs := by simpa [Situation.parts] using h
    simp only [Expr.unaryOp.sizeOf_spec, Expr.compare.sizeOf_spec]
    rcases hp with rfl | rfl
    · omega
    · omega
  | doubleNot f =>
    rw [hs] at h hfits
    obtain rfl : e = .unaryOp "!" (.unaryOp "!" f) := hfits
    obtain rfl : p = f := by simpa [Situation.parts] using h
    simp only [Expr.unaryOp.sizeOf_spec]
    omega
  | negation f =>
    rw [hs] at h hfits
    obtain rfl : e = .unaryOp "!" f := hfits
    obtain rfl : p = f := by simpa [Situation.parts] using h
    simp only [Expr.unaryOp.sizeOf_spec]
    omega
  | signTest lhs rhs x =>
    rw [hs] at h hfits
    obtain ⟨rfl, hx⟩ := hfits
    obtain rfl : p = x := by simpa [Situation.parts] using h
    have := sizeOf_flaggedSubject hx
    simp only [Expr.compare.sizeOf_spec]
    omega
  | nullGuard field other =>
    rw [hs] at h hfits
    obtain rfl : p = field := by simpa [Situation.parts] using h
    obtain ⟨rfl | rfl, -⟩ := hfits
    · simp only [Expr.compare.sizeOf_spec]
      omega
    · simp only [Expr.compare.sizeOf_spec]
      omega
  | comparison op lhs rhs =>
    rw [hs] at h hfits
    obtain rfl : e = .compare op lhs rhs := hfits
    have hp : p = lhs ∨ p = rhs := by simpa [Situation.parts] using h
    simp only [Expr.compare.sizeOf_spec]
    rcases hp with rfl | rfl
    · omega
    · omega
  | leaf => simp [hs, Situation.parts] at h

/-- Induction along the normal form. -/
theorem part_induction {P : Expr → Prop} (h : ∀ e, (∀ p ∈ (situation e).parts, P p) → P e) (e : Expr) : P e :=
  h e fun p _ => part_induction h p
termination_by sizeOf e
decreasing_by
  next hp => exact sizeOf_part hp

/-! ## The value of a normal form -/

section Value
variable (env : Env)

/-- The word of a condition in a situation, with `val` for the words of its parts: `!!f` is
`f`, a flag in a sign test is zero, and what is not positive is null. -/
def Situation.value (val : Expr → BitVec env.width) (e : Expr) : Situation → BitVec env.width
  | .zeroTest _ _ _ | .leaf => env.word e
  | .flagTest _ _ x | .signTest _ _ x => env.ofBool (!env.less (val x) 0#(env.width))
  | .differ lhs rhs => env.ofBool (val lhs == val rhs)
  | .doubleNot f => val f
  | .negation f => env.ofBool (val f == 0#(env.width))
  | .nullGuard field _ => env.ofBool (!env.less 0#(env.width) (val field))
  | .comparison op lhs rhs => env.ofBool (env.holds op (val lhs) (val rhs))

theorem Situation.value_congr {val val' : Expr → BitVec env.width} (e : Expr) (s : Situation)
    (h : ∀ p ∈ s.parts, val p = val' p) : s.value env val e = s.value env val' e := by
  cases s with
  | zeroTest cmp lhs rhs => rfl
  | flagTest lhs rhs x => rw [value, value, h x (by simp [parts])]
  | differ lhs rhs => rw [value, value, h lhs (by simp [parts]), h rhs (by simp [parts])]
  | doubleNot f => rw [value, value, h f (by simp [parts])]
  | negation f => rw [value, value, h f (by simp [parts])]
  | signTest lhs rhs x => rw [value, value, h x (by simp [parts])]
  | nullGuard field other => rw [value, value, h field (by simp [parts])]
  | comparison op lhs rhs => rw [value, value, h lhs (by simp [parts]), h rhs (by simp [parts])]
  | leaf => rfl

theorem Situation.word_normal (norm : Expr → Expr) {e : Expr} {s : Situation} (hfits : s.Fits e) :
    env.word (s.normal norm e) = s.value env (fun p => env.word (norm p)) e := by
  cases s with
  | zeroTest cmp lhs rhs =>
    obtain ⟨rfl, hcmp, -⟩ := hfits
    rw [normal, value, env.word_not, env.word_compare, env.word_compare, env.ofBool_beq_zero]
    rcases hcmp with rfl | rfl
    · rfl
    · exact congrArg env.ofBool (Bool.not_not _).symm
  | flagTest lhs rhs x => exact env.word_expand _
  | differ lhs rhs =>
    rw [normal, value, env.word_not, env.word_compare, env.ofBool_beq_zero]
    exact congrArg env.ofBool (Bool.not_not _)
  | doubleNot f => rfl
  | negation f => rfl
  | signTest lhs rhs x => exact env.word_expand _
  | nullGuard field other =>
    rw [normal, value, env.word_not, env.word_compare, env.ofBool_beq_zero]
    rfl
  | comparison op lhs rhs => rfl
  | leaf => rfl

end Value

namespace Env
variable (env : Env)

/-- The word that the normal form of a condition stands for, read off the condition. -/
def shown (e : Expr) : BitVec env.width :=
  match h : situation e with
  | .zeroTest _ _ _ | .leaf => env.word e
  | .flagTest _ _ x | .signTest _ _ x => env.ofBool (!env.less (shown x) 0#(env.width))
  | .differ lhs rhs => env.ofBool (shown lhs == shown rhs)
  | .doubleNot f => shown f
  | .negation f => env.ofBool (shown f == 0#(env.width))
  | .nullGuard field _ => env.ofBool (!env.less 0#(env.width) (shown field))
  | .comparison op lhs rhs => env.ofBool (env.holds op (shown lhs) (shown rhs))
termination_by sizeOf e
decreasing_by
  all_goals
    apply sizeOf_part
    rw [h]
    simp [Situation.parts]

theorem shown_eq (e : Expr) : env.shown e = (situation e).value env env.shown e := by
  rw [shown]
  split
  all_goals
    next hs =>
      rw [hs]
      rfl

theorem word_normalize (e : Expr) : env.word (normalizeCondExpr e) = env.shown e := by
  induction e using part_induction with
  | h e ih =>
    rw [normalizeCondExpr_eq, Situation.word_normal env _ (situation_fits e), shown_eq]
    exact Situation.value_congr env e _ ih

/-- When the normal form of a condition is true just where the condition is. Behind the
negations around it there is one rewriting:
  a flag in a sign test must be the answer of `0 <= x`, as it is read in the normal form,
  a null guard must see a field that is not negative,
  and a comparison must come out the same for its operands as they are read. -/
def Faithful (e : Expr) : Prop :=
  match h : situation e with
  | .zeroTest _ _ _ | .leaf => True
  | .flagTest lhs rhs x => (env.word lhs = env.word rhs ↔ env.less (env.shown x) 0#(env.width) = false)
  | .signTest _ _ x => env.less (env.shown x) 0#(env.width) = env.less (env.word x) 0#(env.width)
  | .differ lhs rhs => (env.word lhs = env.word rhs ↔ env.shown lhs = env.shown rhs)
  | .doubleNot f | .negation f => Faithful f
  | .nullGuard field _ => env.less (env.word field) 0#(env.width) = false
  | .comparison op lhs rhs =>
    env.holds op (env.shown lhs) (env.shown rhs) = env.holds op (env.word lhs) (env.word rhs)
termination_by sizeOf e
decreasing_by
  all_goals
    apply sizeOf_part
    rw [h]
    simp [Situation.parts]

theorem ofBool_ne_zero (b : Bool) : env.ofBool b ≠ 0#(env.width) ↔ b = true := by
  rw [← bne_iff_ne, ofBool_bne_zero]

/-- A field load is a leaf. -/
theorem shown_of_isStructFieldLoad {e : Expr} (h : isStructFieldLoad e = true) : env.shown e = env.word e := by
  cases e with
  | load addr => rw [shown_eq]; rfl
  | _ => cases h

/-- `!(l != r)` is a test for equal words. -/
theorem word_not_differ (lhs rhs : Expr) :
    env.word (.unaryOp "!" (.compare "!=" lhs rhs)) = env.ofBool (env.word lhs == env.word rhs) := by
  rw [word_not, word_compare, ofBool_beq_zero]
  exact congrArg env.ofBool (Bool.not_not _)

theorem word_signTest {lhs rhs x : Expr} (hx : slessZeroNestedSubject lhs rhs = some x) :
    env.word (.compare "==" lhs rhs) = env.ofBool (!env.less (env.word x) 0#(env.width)) := by
  have heq : env.holds "==" (env.word lhs) (env.word rhs) = (env.word lhs == env.word rhs) := rfl
  rw [word_compare, heq]
  rcases flaggedSubject_cases hx with ⟨hzero, hsign⟩ | ⟨hzero, hsign⟩
  · rw [env.word_of_isIntZero hzero, env.word_of_signSubject hsign, BEq.comm, ofBool_beq_zero]
  · rw [env.word_of_isIntZero hzero, env.word_of_signSubject hsign, ofBool_beq_zero]

theorem word_nullGuard {e field other : Expr} (he : e = .compare "==" field other ∨ e = .compare "==" other field)
    (hother : isIntZero other = true) : env.word e = env.ofBool (env.word field == 0#(env.width)) := by
  have heq : ∀ a b, env.holds "==" a b = (a == b) := fun _ _ => rfl
  rcases he with rfl | rfl
  · rw [word_compare, heq, env.word_of_isIntZero hother]
  · rw [word_compare, heq, env.word_of_isIntZero hother, BEq.comm]

theorem truth_shown_iff (e : Expr) :
    (env.word e ≠ 0#(env.width) ↔ env.shown e ≠ 0#(env.width)) ↔ env.Faithful e := by
  induction e using part_induction with
  | h e ih =>
    have hfits := situation_fits e
    rw [shown_eq, Faithful]
    split
    · next hs =>
      rw [hs]
      exact iff_of_true Iff.rfl True.intro
    · next hs =>
      rw [hs]
      exact iff_of_true Iff.rfl True.intro
    · next lhs rhs x hs =>
      rw [hs] at hfits ⊢
      obtain ⟨rfl, -⟩ := hfits
      rw [word_not_differ, Situation.value, ofBool_ne_zero, ofBool_ne_zero, beq_iff_eq, Bool.not_eq_true']
    · next lhs rhs x hs =>
      rw [hs] at hfits ⊢
      obtain ⟨rfl, hx⟩ := hfits
      rw [env.word_signTest hx, Situation.value, ofBool_ne_zero, ofBool_ne_zero, ← Bool.eq_iff_iff, Bool.not_inj_iff]
      exact eq_comm
    · next lhs rhs hs =>
      rw [hs] at hfits ⊢
      obtain rfl : e = .unaryOp "!" (.compare "!=" lhs rhs) := hfits
      rw [word_not_differ, Situation.value, ofBool_ne_zero, ofBool_ne_zero, beq_iff_eq, beq_iff_eq]
    · next f hs =>
      rw [hs] at hfits ih ⊢
      obtain rfl : e = .unaryOp "!" (.unaryOp "!" f) := hfits
      have hf := ih f (by simp [Situation.parts])
      rw [word_not, word_not, ofBool_beq_zero, ofBool_ne_zero, ← bne, bne_iff_ne]
      exact hf
    · next f hs =>
      rw [hs] at hfits ih ⊢
      obtain rfl : e = .unaryOp "!" f := hfits
      have hf := ih f (by simp [Situation.parts])
      rw [word_not, Situation.value, ofBool_ne_zero, ofBool_ne_zero, beq_iff_eq, beq_iff_eq, ← hf]
      exact not_iff_not.symm
    · next field other hs =>
      rw [hs] at hfits ⊢
      obtain ⟨he, hother, hfield⟩ := hfits
      rw [env.word_nullGuard he hother, Situation.value, env.shown_of_isStructFieldLoad hfield, ofBool_ne_zero,
        ofBool_ne_zero, beq_iff_eq, Bool.not_eq_true']
      -- a field is negative, null or positive
      rcases env.less_trichotomy (env.word field) 0#(env.width) with ⟨h, hne, h'⟩ | ⟨h, heq, h'⟩ | ⟨h, hne, h'⟩
      · simp [h, hne, h']
      · simp [h, heq, h']
      · simp [h, hne, h']
    · next op lhs rhs hs =>
      rw [hs] at hfits ⊢
      obtain rfl : e = .compare op lhs rhs := hfits
      rw [word_compare, Situation.value, ofBool_ne_zero, ofBool_ne_zero, ← Bool.eq_iff_iff]
      exact eq_comm

end Env

/-! ## Flags and fields that are misread -/

/-- 32-bit words, signed, with a flag that is set, a negative `x`, and memory full of -1. -/
def flagSet : Env where
  width := 32
  width_pos := by decide
  signed := true
  names name := if name == "sf" then 1 else if name == "x" then -1 else 0
  load _ := -1
  call _ _ := 0
  cast _ v := v
  binOp op a b := if op == "+" then a + b else 0
  unaryOp _ v := v
  relate _ _ _ := false

/-- `!(sf != (x < 0))` -/
def flagTest : Expr := .unaryOp "!" (.compare "!=" (.name "sf") (.compare "<" (.name "x") (.int 0 32)))

/-- `*(p + 8) == 0` -/
def fieldTest : Expr := .compare "==" (.load (.binOp "+" (.name "p") (.int 8 32))) (.int 0 32)

theorem normalize_flagTest : normalizeCondExpr flagTest = expandNotSlessToSoftGt (.name "x") := by
  have hx : normalizeCondExpr (.name "x") = .name "x" := by rw [normalizeCondExpr_eq]; rfl
  rw [normalizeCondExpr_eq]
  exact congrArg expandNotSlessToSoftGt hx

theorem normalize_fieldTest : normalizeCondExpr fieldTest =
    .unaryOp "!" (.compare ">" (.load (.binOp "+" (.name "p") (.int 8 32))) (.int 0 32)) := by
  have hload : normalizeCondExpr (.load (.binOp "+" (.name "p") (.int 8 32))) =
      .load (.binOp "+" (.name "p") (.int 8 32)) := by
    rw [normalizeCondExpr_eq]
    rfl
  rw [normalizeCondExpr_eq]
  exact congrArg (fun field => Expr.unaryOp "!" (.compare ">" field (.int 0 32))) hload

end Windy.Decompiler.V2
