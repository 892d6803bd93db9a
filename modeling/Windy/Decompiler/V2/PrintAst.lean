import Mathlib.Tactic.FinCases
import Windy.Decompiler.V2.RegionAst
import Windy.Lib.CExpr.Shape

/- The printer of expressions: which parentheses it prints, and what C reads.

   The printer compares the binding power of an operator with that of its place. All comparisons
   have one power, although C puts `==` and `!=` a level below `<`; `?:` has the power of `||`,
   although C puts it a level below; and a unary operator is printed right before its operand,
   where two `-` are one `--` to C. The absolute value of a negative literal is computed in the
   type of the literal.

   Here the text is cut into pieces: the printer prints the pieces of the expression
   (`printExpr_prints`), and C takes them one by one just if no unary operator becomes a longer one
   (`standing_taken`). What they are read as is in `PrintRead`.

   Correspondence: `print_expr` ↔ `printExpr`, the arguments of a call ↔ `printArgs`;
   `bin_bp` ↔ `binBp`, `paren_if` ↔ `parenIf`. `- value` of an `i64` fails at the least one, as it
   does with overflow checks on. `treeOf` says what an expression means to C: a load is `*` of the
   address, and a negative literal is `-` of a constant. -/
namespace Windy.Decompiler.V2
open Munch CExpr
open scoped Utf8

/-! ## The printer -/

def binBp (op : String) : Nat :=
  if op = "*" ∨ op = "/" ∨ op = "%" then 11
  else if op = "+" ∨ op = "-" then 10
  else if op = "<<" ∨ op = ">>" then 9
  else if op = "&" then 6
  else if op = "^" then 5
  else if op = "|" then 4
  else if op = "&&" then 3
  else if op = "||" then 2
  else 8

def parenIf (s : String) (need : Bool) : String := if need then "(" ++ s ++ ")" else s

/-- `{:#x}` -/
def hexLit (n : Nat) : String := "0x" ++ hex n

/-- `-value` of an `i64`. -/
def negI64 (value : Int) : Option Int := if -value < 2 ^ 63 then some (-value) else none

mutual
def printExpr : Expr → Nat → Option String
  | .name name, _ => some name
  | .int value _, _ =>
    if value < 0 then (negI64 value).map fun n => "-" ++ hexLit n.toNat else some (hexLit value.toNat)
  | .uint value _, _ => some (hexLit value)
  | .binOp op lhs rhs, parentBp => do
    let bp := binBp op
    let l ← printExpr lhs bp
    let r ← printExpr rhs (bp + 1)
    some (parenIf (l ++ " " ++ op ++ " " ++ r) (bp < parentBp))
  | .unaryOp op arg, parentBp => do
    let a ← printExpr arg 14
    some (parenIf (op ++ a) (14 < parentBp))
  | .cast ty arg, _ => do
    let a ← printExpr arg 14
    some ("(" ++ ty ++ ")" ++ a)
  | .call target args, _ => do
    let a ← printArgs args
    some (target ++ "(" ++ ", ".intercalate a ++ ")")
  | .load addr, _ => do
    let a ← printExpr addr 0
    some ("*(" ++ a ++ ")")
  | .select cond thenE elseE, parentBp => do
    let c ← printExpr cond 3
    let t ← printExpr thenE 3
    let e ← printExpr elseE 2
    some (parenIf (c ++ " ? " ++ t ++ " : " ++ e) (2 < parentBp))
  | .compare op lhs rhs, parentBp => do
    let bp := 7
    let l ← printExpr lhs bp
    let r ← printExpr rhs (bp + 1)
    some (parenIf (l ++ " " ++ op ++ " " ++ r) (bp < parentBp))

def printArgs : List Expr → Option (List String)
  | [] => some []
  | x :: xs => do
    let a ← printExpr x 0
    let as ← printArgs xs
    some (a :: as)
end

/-! ## What the text should mean -/

mutual
/-- The tree of an expression. -/
def treeOf : Expr → Tree
  | .name name => .name name.toList
  | .int value _ => if value < 0 then .unary ['-'] (.lit (-value).toNat) else .lit value.toNat
  | .uint value _ => .lit value
  | .binOp op lhs rhs => .bin op.toList (treeOf lhs) (treeOf rhs)
  | .unaryOp op arg => .unary op.toList (treeOf arg)
  | .cast ty arg => .cast (((lex puncts ty.toList).getD []).filter (· ≠ .blank)) (treeOf arg)
  | .call target args => .call target.toList (treesOf args)
  | .load addr => .unary ['*'] (treeOf addr)
  | .select cond thenE elseE => .cond (treeOf cond) (treeOf thenE) (treeOf elseE)
  | .compare op lhs rhs => .bin op.toList (treeOf lhs) (treeOf rhs)

def treesOf : List Expr → List Tree
  | [] => []
  | x :: xs => treeOf x :: treesOf xs
end

theorem treesOf_eq_map (xs : List Expr) : treesOf xs = xs.map treeOf := by
  induction xs with
  | nil => rfl
  | cons x xs ih => rw [treesOf, ih, List.map_cons]

/-- C reads the text as the tree. -/
def ReadsAs (isType : List Char → Bool) (text : String) (t : Tree) : Prop :=
  ∃ ps, lex puncts text.toList = some ps ∧ Derives isType condLevel (ps.filter (· ≠ .blank)) t

def binOps : List String := ["*", "/", "%", "+", "-", "<<", ">>", "&", "^", "|", "&&", "||"]

def compareOps : List String := ["==", "!=", "<", "<=", ">", ">="]

/-- An expression of names, literals of their types, the operators of C, casts, calls, loads, selects
    and comparisons. -/
inductive Printable (isType : List Char → Bool) : Expr → Prop
  | name {name : String} (h : CExpr.isName isType name.toList = true) : Printable isType (.name name)
  | int {value : Int} {bits : Nat} (hlo : -2 ^ 63 ≤ value) (hhi : value < 2 ^ 63) : Printable isType (.int value bits)
  | uint {value bits : Nat} (h : value < 2 ^ 64) : Printable isType (.uint value bits)
  | binOp {op : String} {lhs rhs : Expr} (hop : op ∈ binOps) (hl : Printable isType lhs) (hr : Printable isType rhs) :
      Printable isType (.binOp op lhs rhs)
  | unaryOp {op : String} {arg : Expr} (hop : op.toList ∈ unaryOps) (h : Printable isType arg) :
      Printable isType (.unaryOp op arg)
  | cast {ty : String} {ps : List Piece} {arg : Expr} (hlex : lex puncts ty.toList = some ps)
      (hty : isTypeName isType (ps.filter (· ≠ .blank)) = true) (h : Printable isType arg) :
      Printable isType (.cast ty arg)
  | call {target : String} {args : List Expr} (ht : CExpr.isName isType target.toList = true)
      (h : ∀ arg ∈ args, Printable isType arg) : Printable isType (.call target args)
  | load {addr : Expr} (h : Printable isType addr) : Printable isType (.load addr)
  | select {cond thenE elseE : Expr} (hc : Printable isType cond) (ht : Printable isType thenE)
      (he : Printable isType elseE) : Printable isType (.select cond thenE elseE)
  | compare {op : String} {lhs rhs : Expr} (hop : op ∈ compareOps) (hl : Printable isType lhs)
      (hr : Printable isType rhs) : Printable isType (.compare op lhs rhs)

/-! ## When the text means it -/

/-- The absolute value of a literal is an `i64` again. -/
def negatable : Expr → Bool
  | .int value _ => -2 ^ 63 < value
  | _ => true

def isMinus : Expr → Bool
  | .int value _ => value < 0
  | _ => false

def isUnary (op : String) : Expr → Bool
  | .unaryOp op' _ => op = op'
  | _ => false

/-- A unary operator does not become a longer one with the first character of its operand. -/
def apart : Expr → Bool
  | .unaryOp op arg => !((op ∈ ["-", "+", "&"] && isUnary op arg) || (op = "-" && isMinus arg))
  | _ => true

def isSelect : Expr → Bool
  | .select .. => true
  | _ => false

def isEquality : Expr → Bool
  | .compare op _ _ => op ∈ ["==", "!="]
  | _ => false

/-- The left operand does not need parentheses that the binding powers do not give it. -/
def grouped : Expr → Bool
  | .binOp op lhs _ => !(op = "||" && isSelect lhs)
  | .compare op lhs _ => op ∈ ["==", "!="] || !isEquality lhs
  | _ => true

mutual
/-- Whether something holds of an expression and all parts of it. -/
def everywhere (p : Expr → Bool) : Expr → Bool
  | .name name => p (.name name)
  | .int value bits => p (.int value bits)
  | .uint value bits => p (.uint value bits)
  | .binOp op lhs rhs => p (.binOp op lhs rhs) && everywhere p lhs && everywhere p rhs
  | .unaryOp op arg => p (.unaryOp op arg) && everywhere p arg
  | .cast ty arg => p (.cast ty arg) && everywhere p arg
  | .call target args => p (.call target args) && everywhereAll p args
  | .load addr => p (.load addr) && everywhere p addr
  | .select cond thenE elseE =>
    p (.select cond thenE elseE) && everywhere p cond && everywhere p thenE && everywhere p elseE
  | .compare op lhs rhs => p (.compare op lhs rhs) && everywhere p lhs && everywhere p rhs

def everywhereAll (p : Expr → Bool) : List Expr → Bool
  | [] => true
  | x :: xs => everywhere p x && everywhereAll p xs
end

/-- No part of the expression is one whose text is read otherwise. -/
def faithful (e : Expr) : Bool := everywhere (fun x => negatable x && apart x && grouped x) e

/-! ## The pieces of the text -/

def wrapIf (need : Bool) (ps : List Piece) : List Piece := if need then lparen :: (ps ++ [rparen]) else ps

/-- Two operands and what stands between them. -/
def infixed (l : List Piece) (op : List Char) (r : List Piece) : List Piece :=
  l ++ .blank :: .punct op :: .blank :: r

mutual
def pieces : Expr → Nat → List Piece
  | .name name, _ => [.word name.toList]
  | .int value _, _ =>
    if value < 0 then [.punct ['-'], .word (hexText (-value).toNat)] else [.word (hexText value.toNat)]
  | .uint value _, _ => [.word (hexText value)]
  | .binOp op lhs rhs, parentBp =>
    wrapIf (binBp op < parentBp) (infixed (pieces lhs (binBp op)) op.toList (pieces rhs (binBp op + 1)))
  | .unaryOp op arg, parentBp => wrapIf (14 < parentBp) (.punct op.toList :: pieces arg 14)
  | .cast ty arg, _ => lparen :: ((lex puncts ty.toList).getD [] ++ rparen :: pieces arg 14)
  | .call target args, _ =>
    .word target.toList :: lparen :: ([comma, .blank].intercalate (argPieces args) ++ [rparen])
  | .load addr, _ => CExpr.star :: lparen :: (pieces addr 0 ++ [rparen])
  | .select cond thenE elseE, parentBp =>
    wrapIf (2 < parentBp) (infixed (pieces cond 3) ['?'] (infixed (pieces thenE 3) [':'] (pieces elseE 2)))
  | .compare op lhs rhs, parentBp =>
    wrapIf (7 < parentBp) (infixed (pieces lhs 7) op.toList (pieces rhs 8))

def argPieces : List Expr → List (List Piece)
  | [] => []
  | x :: xs => pieces x 0 :: argPieces xs
end

theorem argPieces_eq_map (xs : List Expr) : argPieces xs = xs.map (pieces · 0) := by
  induction xs with
  | nil => rfl
  | cons x xs ih => rw [argPieces, ih, List.map_cons]

theorem everywhereAll_iff (p : Expr → Bool) (xs : List Expr) :
    everywhereAll p xs = true ↔ ∀ x ∈ xs, everywhere p x = true := by
  induction xs with
  | nil => simp [everywhereAll]
  | cons x xs ih => simp [everywhereAll, ih]

variable {isType : List Char → Bool}

/-- Two conditions hold everywhere just if each of them does. -/
theorem everywhere_and {p q : Expr → Bool} {e : Expr} (h : Printable isType e) :
    everywhere (fun x => p x && q x) e = true ↔ everywhere p e = true ∧ everywhere q e = true := by
  induction h with
  | name | int | uint => simp only [everywhere, Bool.and_eq_true]
  | binOp _ _ _ ihl ihr | compare _ _ _ ihl ihr =>
    simp only [everywhere, Bool.and_eq_true, ihl, ihr, and_assoc, and_left_comm]
  | unaryOp _ _ ih | cast _ _ _ ih | load _ ih =>
    simp only [everywhere, Bool.and_eq_true, ih, and_assoc, and_left_comm]
  | select _ _ _ ihc iht ihe =>
    simp only [everywhere, Bool.and_eq_true, ihc, iht, ihe, and_assoc, and_left_comm]
  | @call _ args _ _ ih =>
    have hargs : (∀ x ∈ args, everywhere (fun x => p x && q x) x = true) ↔
        (∀ x ∈ args, everywhere p x = true) ∧ ∀ x ∈ args, everywhere q x = true := by
      rw [← forall₂_and]
      exact forall₂_congr ih
    simp only [everywhere, Bool.and_eq_true, everywhereAll_iff, hargs, and_assoc, and_left_comm]

theorem everywhere_true {e : Expr} (h : Printable isType e) :
    everywhere (fun _ => true) e = true := by
  induction h with
  | name | int | uint => rfl
  | call _ _ ih => simpa [everywhere, everywhereAll_iff] using ih
  | _ => simp [everywhere, *]

/-! ## The printed text is that of the pieces -/

theorem toList_hexLit (n : Nat) : (hexLit n).toList = hexText n := by
  rw [hexLit, V2.hex, String.toList_append, String.toList_ofList, String.toList_ofList]
  rfl

variable {ps : List Piece}

theorem toList_parenIf (s : String) (need : Bool) (h : s.toList = flat ps) :
    (parenIf s need).toList = flat (wrapIf need ps) := by
  cases need with
  | false => exact h
  | true =>
    rw [parenIf, if_pos rfl, wrapIf, if_pos rfl, String.toList_append, String.toList_append, h]
    simp [lparen, rparen, Piece.chars]

/-- A text is printed and has the pieces, or none is printed. -/
def Prints (text : Option String) (ok : Bool) (ps : List Piece) : Prop :=
  (ok = true ∧ ∃ s, text = some s ∧ s.toList = flat ps) ∨ (ok = false ∧ text = none)

theorem prints_some {s : String} (h : s.toList = flat ps) : Prints (some s) true ps :=
  .inl ⟨rfl, s, rfl, h⟩

theorem Prints.bind {text : Option String} {ok : Bool} (h : Prints text ok ps)
    {f : String → Option String} {ok' : Bool} {qs : List Piece}
    (hf : ∀ s, s.toList = flat ps → Prints (f s) ok' qs) : Prints (text >>= f) (ok && ok') qs := by
  obtain ⟨rfl, s, rfl, hs⟩ | ⟨rfl, rfl⟩ := h
  · exact hf s hs
  · exact .inr ⟨rfl, rfl⟩

theorem flat_infixed {l r op : String} {ps qs : List Piece} (hl : l.toList = flat ps) (hr : r.toList = flat qs) :
    (l ++ " " ++ op ++ " " ++ r).toList = flat (infixed ps op.toList qs) := by
  simp only [String.toList_append, hl, hr, infixed, flat_append, flat_cons, Piece.chars, List.append_assoc]
  rfl

/-- The texts of the arguments, with a comma and a blank between them. -/
theorem printArgs_prints {args : List Expr}
    (ih : ∀ arg ∈ args, Prints (printExpr arg 0) (everywhere negatable arg) (pieces arg 0)) :
    (everywhereAll negatable args = true ∧
      ∃ as, printArgs args = some as ∧ as.map String.toList = (argPieces args).map flat) ∨
    (everywhereAll negatable args = false ∧ printArgs args = none) := by
  induction args with
  | nil => exact .inl ⟨rfl, [], rfl, rfl⟩
  | cons x xs ihxs =>
    have hxs := ihxs fun arg harg => ih arg (List.mem_cons_of_mem x harg)
    rw [everywhereAll, printArgs]
    obtain ⟨hx, a, ha, htext⟩ | ⟨hx, ha⟩ := ih x List.mem_cons_self
    · rw [hx, ha]
      obtain ⟨hok, as, has, htexts⟩ | ⟨hok, has⟩ := hxs
      · refine .inl ⟨hok, a :: as, by rw [has]; rfl, ?_⟩
        rw [List.map_cons, argPieces, List.map_cons, htext, htexts]
      · exact .inr ⟨hok, by rw [has]; rfl⟩
    · exact .inr ⟨by rw [hx]; rfl, by rw [ha]; rfl⟩

theorem flat_intercalate (ls : List (List Piece)) :
    flat ([comma, .blank].intercalate ls) = [',', ' '].intercalate (ls.map flat) := by
  induction ls with
  | nil => rfl
  | cons l ls ih =>
    cases ls with
    | nil => simp
    | cons m ms =>
      rw [List.intercalate_cons_cons, flat_append, flat_append, ih]
      simp only [List.map_cons]
      rw [List.intercalate_cons_cons]
      rfl

/-- The printer prints the pieces, unless it meets a literal without absolute value. -/
theorem printExpr_prints {e : Expr} (h : Printable isType e) (bp : Nat) :
    Prints (printExpr e bp) (everywhere negatable e) (pieces e bp) := by
  induction h generalizing bp with
  | name => exact prints_some (by simp [pieces, Piece.chars])
  | @int value bits hlo hhi =>
    rw [printExpr, everywhere, negatable, pieces, negI64]
    by_cases hneg : value < 0
    · rw [if_pos hneg, if_pos hneg]
      by_cases hmin : -2 ^ 63 < value
      · refine .inl ⟨decide_eq_true hmin, _, by rw [if_pos (by omega)]; rfl, ?_⟩
        rw [String.toList_append, toList_hexLit]
        simp [Piece.chars]
      · exact .inr ⟨decide_eq_false hmin, by rw [if_neg (by omega)]; rfl⟩
    · rw [if_neg hneg, if_neg hneg, decide_eq_true (by omega)]
      exact prints_some (by simp [Piece.chars, toList_hexLit])
  | uint => exact prints_some (by simp [pieces, Piece.chars, toList_hexLit])
  | @binOp op lhs rhs _ _ _ ihl ihr =>
    have hok : everywhere negatable (.binOp op lhs rhs) =
        (everywhere negatable lhs && (everywhere negatable rhs && true)) := by
      simp [everywhere, negatable]
    rw [printExpr, hok, pieces]
    refine (ihl _).bind fun l hl => (ihr _).bind fun r hr => prints_some ?_
    exact toList_parenIf _ _ (flat_infixed hl hr)
  | @unaryOp op arg _ _ ih =>
    have hok : everywhere negatable (.unaryOp op arg) = (everywhere negatable arg && true) := by
      simp [everywhere, negatable]
    rw [printExpr, hok, pieces]
    refine (ih _).bind fun a ha => prints_some (toList_parenIf _ _ ?_)
    rw [String.toList_append, ha]
    rfl
  | @cast ty ps arg hlex _ _ ih =>
    have hok : everywhere negatable (.cast ty arg) = (everywhere negatable arg && true) := by
      simp [everywhere, negatable]
    rw [printExpr, hok, pieces, hlex]
    refine (ih _).bind fun a ha => prints_some ?_
    have hty := (lex_flat_iff (by decide)).mp hlex
    simp [String.toList_append, ha, hty.1, lparen, rparen, Piece.chars]
  | @call target args _ _ ih =>
    have hneg : negatable (.call target args) = true := rfl
    rw [printExpr, everywhere, pieces, hneg, Bool.true_and]
    obtain ⟨hok, as, has, htexts⟩ | ⟨hok, has⟩ := printArgs_prints fun arg harg => ih arg harg 0
    · refine .inl ⟨hok, _, by rw [has]; rfl, ?_⟩
      simp [String.toList_append, String.toList_intercalate, htexts, flat_intercalate, lparen, rparen, Piece.chars]
    · exact .inr ⟨hok, by rw [has]; rfl⟩
  | @load addr _ ih =>
    have hok : everywhere negatable (.load addr) = (everywhere negatable addr && true) := by
      simp [everywhere, negatable]
    rw [printExpr, hok, pieces]
    refine (ih _).bind fun a ha => prints_some ?_
    simp [String.toList_append, ha, CExpr.star, lparen, rparen, Piece.chars]
  | @select cond thenE elseE _ _ _ ihc iht ihe =>
    have hok : everywhere negatable (.select cond thenE elseE) =
        (everywhere negatable cond && (everywhere negatable thenE && (everywhere negatable elseE && true))) := by
      simp [everywhere, negatable, Bool.and_assoc]
    rw [printExpr, hok, pieces]
    refine (ihc _).bind fun c hc => (iht _).bind fun t ht => (ihe _).bind fun e he => prints_some ?_
    refine toList_parenIf _ _ ?_
    simp [String.toList_append, hc, ht, he, infixed, Piece.chars]
  | @compare op lhs rhs _ _ _ ihl ihr =>
    have hok : everywhere negatable (.compare op lhs rhs) =
        (everywhere negatable lhs && (everywhere negatable rhs && true)) := by
      simp [everywhere, negatable]
    rw [printExpr, hok, pieces]
    refine (ihl _).bind fun l hl => (ihr _).bind fun r hr => prints_some ?_
    exact toList_parenIf _ _ (flat_infixed hl hr)

/-! ## How the pieces stand next to each other -/

/-- The operators that have a blank behind them. -/
def spaced : List (List Char) := (binOps ++ compareOps).map String.toList ++ [['?'], [':'], [',']]

def isUnaryOp : Expr → Bool
  | .unaryOp .. => true
  | _ => false

/-- Where pieces may stand: only a unary operator depends on what follows, and on that by a condition on
    the expression. -/
structure Standing (isType : List Char → Bool) (stands : Piece → List Piece → Prop) (ok : Expr → Bool) : Prop where
  blank : ∀ ps, stands .blank ps
  word : ∀ w ps, w ≠ [] → (∀ c ∈ w, Munch.isWordChar c = true) → Stops (flat ps) → stands (.word w) ps
  spaced : ∀ op ∈ spaced, ∀ ps, stands (.punct op) (.blank :: ps)
  paren : ∀ p, p = lparen ∨ p = rparen → ∀ ps, stands p ps
  star : ∀ ps, '=' ∉ (flat ps).head? → stands CExpr.star ps
  minus : ∀ n ps, stands (.punct ['-']) (.word (hexText n) :: ps)
  unary : ∀ op arg k, op.toList ∈ unaryOps → Printable isType arg →
    (stands (.punct op.toList) (pieces arg 14 ++ k) ↔ ok (.unaryOp op arg) = true)
  other : ∀ e, isUnaryOp e = false → ok e = true

variable {isType : List Char → Bool} {stands : Piece → List Piece → Prop} {ok : Expr → Bool} {op : String}

/-- The pieces stand right before all that may follow them just if the condition holds. -/
def Spans (stands : Piece → List Piece → Prop) (holds : Prop) (ps : List Piece) : Prop :=
  ∀ k, Stops (flat k) → (Chain stands (ps ++ k) ↔ holds ∧ Chain stands k)

theorem stops_punct {p : List Char} {c : Char} (hc : c ∈ p.head?) (h : Munch.isWordChar c = false) (ps : List Piece) :
    Stops (flat (.punct p :: ps)) := by
  intro d hd
  rw [flat_cons, Piece.chars, List.head?_append, Option.mem_def.mp hc] at hd
  obtain rfl : c = d := Option.some.inj hd
  exact h

theorem stops_blank (ps : List Piece) : Stops (flat (.blank :: ps)) := by
  intro c hc
  obtain rfl : ' ' = c := Option.some.inj hc
  exact not_wordChar_blank

theorem stops_rparen (ps : List Piece) : Stops (flat (rparen :: ps)) := stops_punct (c := ')') rfl (by decide) ps

theorem Stops.append {l m : List Char} (hl : Stops l) (hm : Stops m) : Stops (l ++ m) := by
  cases l with
  | nil => exact hm
  | cons c cs => exact hl

theorem Standing.wrap (h : Standing isType stands ok) {holds : Prop} (hps : Spans stands holds ps)
    (need : Bool) : Spans stands holds (wrapIf need ps) := by
  cases need with
  | false => exact hps
  | true =>
    intro k _
    have hinner := hps (rparen :: k) (stops_rparen k)
    rw [wrapIf, if_pos rfl, List.cons_append, List.append_assoc, List.singleton_append]
    simp only [Chain, h.paren lparen (.inl rfl), hinner, h.paren rparen (.inr rfl), true_and]

theorem Standing.infixed (h : Standing isType stands ok) {holds holds' : Prop} {l r : List Piece} {op : List Char}
    (hop : op ∈ V2.spaced) (hl : Spans stands holds l) (hr : Spans stands holds' r) :
    Spans stands (holds ∧ holds') (infixed l op r) := by
  intro k hk
  rw [V2.infixed, List.append_assoc, List.cons_append, List.cons_append, List.cons_append, hl _ (stops_blank _)]
  simp only [Chain, h.blank, h.spaced op hop, hr k hk, true_and, and_assoc]

theorem Standing.oneWord (h : Standing isType stands ok) {w : List Char} (hne : w ≠ [])
    (hw : ∀ c ∈ w, Munch.isWordChar c = true) : Spans stands True [.word w] := by
  intro k hk
  simp only [List.singleton_append, Chain, h.word w k hne hw hk, true_and]

theorem head_ne_equals {p : Piece} {c : Char} (hc : c ∈ p.chars.head?) (hne : c ≠ '=') (ps : List Piece) :
    '=' ∉ (flat (p :: ps)).head? := by
  rw [flat_cons, List.head?_append, Option.mem_def.mp hc]
  exact fun h => hne (Option.some.inj h)

/-- Pieces that were taken from a text stand apart. -/
theorem chain_apart {text : List Char} (h : lex puncts text = some ps) :
    Chain (Apart [['('], [')']]) ps :=
  chain_mono (fun _ _ => apart_of_taken (by decide) (by decide)) ((lex_flat_iff (by decide)).mp h).2

theorem binBp_le (h : op ∈ binOps) : 2 ≤ binBp op ∧ binBp op ≤ 11 := by
  revert op
  decide

theorem spaced_of_binOp (h : op ∈ binOps) : op.toList ∈ spaced :=
  List.mem_append_left _ (List.mem_map_of_mem (List.mem_append_left _ h))

theorem spaced_of_compareOp (h : op ∈ compareOps) : op.toList ∈ spaced :=
  List.mem_append_left _ (List.mem_map_of_mem (List.mem_append_right _ h))

theorem word_of_ident {w : List Char} (h : isIdent w = true) : w ≠ [] ∧ ∀ c ∈ w, Munch.isWordChar c = true := by
  cases w with
  | nil => cases h
  | cons c cs =>
    rw [isIdent, Bool.and_eq_true] at h
    exact ⟨List.cons_ne_nil c cs, List.all_eq_true.mp h.2⟩

/-- The arguments of a call up to the closing parenthesis. -/
theorem Standing.args (h : Standing isType stands ok) {args : List Expr}
    (ih : ∀ arg ∈ args, Spans stands (everywhere ok arg = true) (pieces arg 0)) (k : List Piece) :
    Chain stands ([comma, .blank].intercalate (argPieces args) ++ rparen :: k) ↔
      everywhereAll ok args = true ∧ Chain stands k := by
  induction args with
  | nil =>
    show (stands rparen k ∧ Chain stands k) ↔ _
    simp [everywhereAll, h.paren rparen (.inr rfl)]
  | cons x xs ihxs =>
    have hx := ih x List.mem_cons_self
    have hxs := ihxs fun arg harg => ih arg (List.mem_cons_of_mem x harg)
    cases xs with
    | nil =>
      have htext : [comma, .blank].intercalate (argPieces [x]) ++ rparen :: k = pieces x 0 ++ rparen :: k := by
        simp [argPieces]
      rw [htext, hx _ (stops_rparen k)]
      simp [everywhereAll, Chain, h.paren rparen (.inr rfl)]
    | cons y ys =>
      have hstops := stops_punct (p := [',']) (c := ',') rfl (by decide)
        (.blank :: ([comma, .blank].intercalate (argPieces (y :: ys)) ++ rparen :: k))
      rw [argPieces, argPieces, List.intercalate_cons_cons, ← argPieces, List.append_assoc, List.append_assoc,
        everywhereAll, Bool.and_eq_true, and_assoc, ← hxs]
      refine (hx _ hstops).trans ?_
      show _ ∧ (stands comma _ ∧ stands .blank _ ∧ Chain stands _) ↔ _
      have hcomma := h.spaced [','] (by decide) ([comma, .blank].intercalate (argPieces (y :: ys)) ++ rparen :: k)
      simp only [h.blank, true_and]
      exact and_congr_right fun _ => and_iff_right hcomma

theorem pieces_of_typeName_blanks (h : isTypeName isType (ps.filter (· ≠ .blank)) = true) :
    ∀ p ∈ ps, p = .blank ∨ p = CExpr.star ∨ ∃ w, p = .word w := by
  intro p hp
  by_cases hblank : p = .blank
  · exact .inl hblank
  · have hmem : p ∈ ps.filter (· ≠ .blank) := List.mem_filter.mpr ⟨hp, decide_eq_true hblank⟩
    obtain hstar | ⟨w, hw, -⟩ := pieces_of_typeName h p hmem
    · exact .inr (.inl hstar)
    · exact .inr (.inr ⟨w, hw⟩)

/-- A type name up to the closing parenthesis. -/
theorem Standing.typeName (h : Standing isType stands ok)
    (hps : ∀ p ∈ ps, p = .blank ∨ p = CExpr.star ∨ ∃ w, p = .word w) (hchain : Chain (Apart [['('], [')']]) ps)
    (k : List Piece) : Chain stands (ps ++ rparen :: k) ↔ Chain stands k := by
  induction ps with
  | nil =>
    show (stands rparen k ∧ Chain stands k) ↔ _
    simp [h.paren rparen (.inr rfl)]
  | cons p ps ih =>
    have hrest := ih (fun q hq => hps q (List.mem_cons_of_mem p hq)) hchain.2
    rw [List.cons_append, Chain, hrest]
    refine and_iff_right ?_
    obtain rfl | rfl | ⟨w, rfl⟩ := hps p List.mem_cons_self
    · exact h.blank _
    · refine h.star _ ?_
      cases ps with
      | nil => exact head_ne_equals (p := rparen) (c := ')') rfl (by decide) k
      | cons q qs =>
        obtain rfl | rfl | ⟨w, rfl⟩ := hps q (List.mem_cons_of_mem _ List.mem_cons_self)
        · exact head_ne_equals (p := .blank) (c := ' ') rfl (by decide) _
        · exact head_ne_equals (p := CExpr.star) (c := '*') rfl (by decide) _
        · -- a word has no `=`
          obtain ⟨hne, hw, -⟩ := hchain.2.1
          obtain ⟨c, hc⟩ := exists_head hne
          refine head_ne_equals hc ?_ _
          rintro rfl
          have := hw '=' (List.mem_of_mem_head? hc)
          revert this
          decide
    · obtain ⟨hne, hw, hstops⟩ := hchain.1
      exact h.word w _ hne hw (by rw [flat_append]; exact Stops.append hstops (stops_rparen k))

/-- The pieces of an expression stand next to each other just if its unary operators do. -/
theorem Standing.chain (h : Standing isType stands ok) {e : Expr} (he : Printable isType e) (bp : Nat) (hbp : bp ≤ 14) :
    Spans stands (everywhere ok e = true) (pieces e bp) := by
  induction he generalizing bp with
  | @name name hname =>
    obtain ⟨hne, hw⟩ := word_of_ident (ident_of_name hname)
    rw [everywhere, h.other _ rfl, eq_self, pieces]
    exact h.oneWord hne hw
  | @int value bits _ _ =>
    rw [everywhere, h.other _ rfl, eq_self, pieces]
    split
    · intro k hk
      have hnumber := h.word (hexText (-value).toNat) k (List.cons_ne_nil _ _) (isWordChar_hexText _) hk
      show (stands _ (_ :: k) ∧ stands _ k ∧ Chain stands k) ↔ _
      simp only [h.minus, hnumber, true_and]
    · exact h.oneWord (List.cons_ne_nil _ _) (isWordChar_hexText _)
  | uint =>
    rw [everywhere, h.other _ rfl, eq_self, pieces]
    exact h.oneWord (List.cons_ne_nil _ _) (isWordChar_hexText _)
  | binOp hop _ _ ihl ihr =>
    rw [everywhere, h.other _ rfl, Bool.true_and, Bool.and_eq_true, pieces]
    have hle := (binBp_le hop).2
    exact h.wrap (h.infixed (spaced_of_binOp hop) (ihl _ (by omega)) (ihr _ (by omega))) _
  | @unaryOp op arg hop harg ih =>
    rw [everywhere, pieces, decide_eq_false (by omega)]
    intro k hk
    show (stands _ (pieces arg 14 ++ k) ∧ Chain stands (pieces arg 14 ++ k)) ↔ _
    rw [h.unary op arg k hop harg, ih 14 (Nat.le_refl _) k hk, Bool.and_eq_true, and_assoc]
  | @cast ty ps arg hlex hty _ ih =>
    rw [everywhere, h.other _ rfl, Bool.true_and, pieces, hlex]
    intro k hk
    have hchain := chain_apart hlex
    rw [Option.getD_some, List.cons_append, List.append_assoc, List.cons_append, Chain,
      h.typeName (pieces_of_typeName_blanks hty) hchain, ih 14 (Nat.le_refl _) k hk]
    exact and_iff_right (h.paren lparen (.inl rfl) _)
  | @call target args htarget _ ih =>
    rw [everywhere, h.other _ rfl, Bool.true_and, pieces]
    intro k hk
    obtain ⟨hne, hw⟩ := word_of_ident (ident_of_name htarget)
    have hargs := h.args (fun arg harg => ih arg harg 0 (by omega)) k
    rw [List.cons_append, List.cons_append, List.append_assoc, List.singleton_append, Chain, Chain, hargs]
    have hstops := stops_punct (p := ['(']) (c := '(') rfl (by decide)
      ([comma, .blank].intercalate (argPieces args) ++ rparen :: k)
    simp only [h.paren lparen (.inl rfl), true_and]
    exact and_iff_right (h.word _ _ hne hw hstops)
  | @load addr _ ih =>
    rw [everywhere, h.other _ rfl, Bool.true_and, pieces]
    intro k hk
    rw [List.cons_append, List.cons_append, List.append_assoc, List.singleton_append, Chain, Chain,
      ih 0 (by omega) _ (stops_rparen k), Chain]
    have hstar := h.star (lparen :: (pieces addr 0 ++ rparen :: k)) (head_ne_equals (c := '(') rfl (by decide) _)
    simp only [hstar, h.paren lparen (.inl rfl), h.paren rparen (.inr rfl), true_and]
  | select _ _ _ ihc iht ihe =>
    rw [everywhere, h.other _ rfl, Bool.true_and, Bool.and_eq_true, Bool.and_eq_true, and_assoc, pieces]
    exact h.wrap (h.infixed (by decide) (ihc 3 (by omega))
      (h.infixed (by decide) (iht 3 (by omega)) (ihe 2 (by omega)))) _
  | compare hop _ _ ihl ihr =>
    rw [everywhere, h.other _ rfl, Bool.true_and, Bool.and_eq_true, pieces]
    exact h.wrap (h.infixed (spaced_of_compareOp hop) (ihl 7 (by omega)) (ihr 8 (by omega))) _

theorem solid_puncts : ∀ op ∈ puncts, Solid [['('], [')']] op := by decide

theorem spaced_mem : ∀ op ∈ spaced, op ∈ puncts := by decide

theorem unaryOps_mem : ∀ op ∈ unaryOps, op ∈ puncts := by decide

/-- The pieces of every expression stand apart, of one that is read otherwise too. -/
theorem standing_apart : Standing isType (Apart [['('], [')']]) fun _ => true where
  blank _ := trivial
  word _ _ hne hw hstops := ⟨hne, hw, hstops⟩
  spaced op hop _ := solid_puncts op (spaced_mem op hop)
  paren p hp _ := by
    obtain rfl | rfl := hp
    · exact solid_puncts ['('] (by decide)
    · exact solid_puncts [')'] (by decide)
  star _ _ := solid_puncts ['*'] (by decide)
  minus _ _ := solid_puncts ['-'] (by decide)
  unary op _ _ hop _ := iff_of_true (solid_puncts _ (unaryOps_mem _ hop)) rfl
  other _ _ := rfl

/-- A punctuator of one character is taken unless what follows makes it a longer one. -/
theorem taken_single {u : Char} (hword : Munch.isWordChar u = false) (hblank : u ≠ ' ') (hmem : [u] ∈ puncts)
    (h : ∀ p ∈ puncts, u ∈ p.head? → p = [u] ∨ ∀ c ∈ p[1]?, c ∉ (flat ps).head?) :
    Taken puncts (.punct [u]) ps := by
  have hfind : (puncts.find? fun p => p.isPrefixOf (u :: flat ps)) = some [u] := by
    cases hq : puncts.find? fun p => p.isPrefixOf (u :: flat ps) with
    | none =>
      have := List.find?_eq_none.mp hq [u] hmem
      simp at this
    | some q =>
      have hfront := List.find?_some hq
      obtain ⟨rest, hrest⟩ := List.isPrefixOf_iff_prefix.mp hfront
      have hsolid := solid_puncts q (List.mem_of_find?_eq_some hq)
      obtain ⟨d, hd⟩ := exists_head hsolid.1
      cases q with
      | nil => cases hd
      | cons e es =>
        obtain ⟨rfl, htail⟩ := List.cons.inj hrest
        obtain hone | htwo := h _ (List.mem_of_find?_eq_some hq) rfl
        · rw [hone]
        · cases es with
          | nil => rfl
          | cons c cs =>
            have hnot := htwo c rfl
            rw [← htail] at hnot
            exact absurd rfl hnot
  rw [Taken, Piece.chars, List.singleton_append, next, if_neg hblank, if_neg (by rw [hword]; decide), hfind]
  rfl

theorem op_of_unary (h : op.toList ∈ unaryOps) : op ∈ ["&", "*", "+", "-", "~", "!"] := by
  have hall : ∀ w ∈ unaryOps, ∃ op' ∈ ["&", "*", "+", "-", "~", "!"], op'.toList = w := by decide
  obtain ⟨op', hmem, heq⟩ := hall _ h
  rwa [← String.toList_injective heq]

/-- No unary operator becomes a longer punctuator with the character. -/
def Harmless (c : Char) : Prop :=
  ∀ u ∈ ['&', '*', '+', '-', '~', '!'], ∀ p ∈ puncts, u ∈ p.head? → p = [u] ∨ c ∉ p[1]?

theorem harmless_word {c : Char} (h : Munch.isWordChar c = true) : Harmless c := by
  have hnone : ∀ u ∈ ['&', '*', '+', '-', '~', '!'], ∀ p ∈ puncts, u ∈ p.head? →
      p = [u] ∨ ∀ d ∈ p[1]?, Munch.isWordChar d = false := by
    decide
  intro u hu p hp hhead
  refine (hnone u hu p hp hhead).imp_right fun hsecond hc => ?_
  rw [hsecond c hc] at h
  cases h

theorem taken_unary (hop : op.toList ∈ unaryOps) {c : Char} (hc : c ∈ (flat ps).head?)
    (h : Harmless c) : Taken puncts (.punct op.toList) ps := by
  have hchars : ∀ w ∈ unaryOps, ∃ u ∈ ['&', '*', '+', '-', '~', '!'], w = [u] ∧ Munch.isWordChar u = false ∧ u ≠ ' ' ∧
      [u] ∈ puncts := by
    decide
  obtain ⟨u, hu, heq, hword, hblank, hmem⟩ := hchars _ hop
  rw [heq]
  refine taken_single hword hblank hmem fun p hp hhead => (h u hu p hp hhead).imp_right fun hsecond d hd hd' => ?_
  obtain rfl : c = d := Option.some.inj (hc.symm.trans hd')
  exact hsecond hd

/-- Two unary operators in a row are one punctuator if they are two `-`, `+` or `&`. -/
theorem next_unary_unary {op op' : String} (h : op ∈ ["&", "*", "+", "-", "~", "!"])
    (h' : op' ∈ ["&", "*", "+", "-", "~", "!"]) (rest : List Char) :
    next puncts (op.toList ++ (op'.toList ++ rest)) =
      some (.punct (if op ∈ ["-", "+", "&"] ∧ op = op' then op.toList ++ op'.toList else op.toList)) := by
  fin_cases h <;> fin_cases h' <;> rfl

theorem taken_unary_unary {op op' : String} (h : op.toList ∈ unaryOps) (h' : op'.toList ∈ unaryOps)
    (rest : List Char) (hflat : flat ps = op'.toList ++ rest) :
    Taken puncts (.punct op.toList) ps ↔ ¬ (op ∈ ["-", "+", "&"] ∧ op = op') := by
  rw [Taken, Piece.chars, hflat, next_unary_unary (op_of_unary h) (op_of_unary h')]
  split
  · next hclash =>
    refine iff_of_false ?_ (not_not_intro hclash)
    intro heq
    have hlength := congrArg List.length (Piece.punct.inj (Option.some.inj heq))
    have hne : ∀ w ∈ unaryOps, w.length = 1 := by decide
    rw [List.length_append, hne _ h, hne _ h'] at hlength
    cases hlength
  · next hclash => exact iff_of_true rfl hclash

/-- A unary operator is taken by itself just if it does not become a longer one. -/
theorem taken_unary_iff {arg : Expr} (k : List Piece) (hop : op.toList ∈ unaryOps)
    (harg : Printable isType arg) :
    Taken puncts (.punct op.toList) (pieces arg 14 ++ k) ↔ apart (.unaryOp op arg) = true := by
  -- an operand that begins with nothing an operator goes on with
  have hharmless : ∀ c, c ∈ (flat (pieces arg 14 ++ k)).head? → Harmless c →
      (isUnary op arg = false ∧ isMinus arg = false) →
      (Taken puncts (.punct op.toList) (pieces arg 14 ++ k) ↔ apart (.unaryOp op arg) = true) := by
    intro c hc hc' hnot
    refine iff_of_true (taken_unary hop hc hc') ?_
    rw [apart, hnot.1, hnot.2, Bool.and_false, Bool.and_false]
    rfl
  have hparen : Harmless '(' := by unfold Harmless; decide
  have hstar : Harmless '*' := by unfold Harmless; decide
  cases harg with
  | @name name hname =>
    obtain ⟨hne, hw⟩ := word_of_ident (ident_of_name hname)
    obtain ⟨c, hc⟩ := exists_head hne
    refine hharmless c ?_ (harmless_word (hw c (List.mem_of_mem_head? hc))) ⟨rfl, rfl⟩
    rw [pieces, List.singleton_append, flat_cons, Piece.chars, List.head?_append, Option.mem_def.mp hc]
    rfl
  | @int value bits =>
    by_cases hneg : value < 0
    · have hflat : flat (pieces (.int value bits) 14 ++ k) = "-".toList ++ (hexText (-value).toNat ++ flat k) := by
        rw [pieces, if_pos hneg]
        rfl
      have hunary : isUnary op (.int value bits) = false := rfl
      have hminus : isMinus (.int value bits) = true := decide_eq_true hneg
      rw [taken_unary_unary hop (by decide) _ hflat, apart, hunary, hminus, Bool.and_false, Bool.false_or,
        Bool.and_true, Bool.not_eq_true', decide_eq_false_iff_not]
      refine not_congr ⟨fun h => h.2, ?_⟩
      rintro rfl
      decide
    · refine hharmless '0' ?_ (harmless_word (by decide)) ⟨rfl, decide_eq_false hneg⟩
      rw [pieces, if_neg hneg]
      rfl
  | uint => exact hharmless '0' rfl (harmless_word (by decide)) ⟨rfl, rfl⟩
  | @binOp op' _ _ hop' =>
    have hle := (binBp_le hop').2
    refine hharmless '(' ?_ hparen ⟨rfl, rfl⟩
    rw [pieces, decide_eq_true (by omega)]
    rfl
  | @unaryOp op' arg' hop' =>
    have hflat : flat (pieces (.unaryOp op' arg') 14 ++ k) = op'.toList ++ (flat (pieces arg' 14) ++ flat k) := by
      simp [pieces, wrapIf, Piece.chars]
    have hminus : isMinus (.unaryOp op' arg') = false := rfl
    rw [taken_unary_unary hop hop' _ hflat, apart, isUnary, hminus, Bool.and_false, Bool.or_false, Bool.not_eq_true',
      Bool.eq_false_iff, ne_eq, Bool.and_eq_true, decide_eq_true_eq, decide_eq_true_eq]
  | cast => exact hharmless '(' rfl hparen ⟨rfl, rfl⟩
  | @call target _ ht =>
    obtain ⟨hne, hw⟩ := word_of_ident (ident_of_name ht)
    obtain ⟨c, hc⟩ := exists_head hne
    refine hharmless c ?_ (harmless_word (hw c (List.mem_of_mem_head? hc))) ⟨rfl, rfl⟩
    rw [pieces, List.cons_append, flat_cons, Piece.chars, List.head?_append, Option.mem_def.mp hc]
    rfl
  | load => exact hharmless '*' rfl hstar ⟨rfl, rfl⟩
  | select => exact hharmless '(' rfl hparen ⟨rfl, rfl⟩
  | compare => exact hharmless '(' rfl hparen ⟨rfl, rfl⟩

theorem standing_taken : Standing isType (Taken puncts) apart where
  blank _ := rfl
  word _ _ hne hw hstops := next_whole_word hne hw hstops
  spaced op hop ps := by
    have hlist : spaced = [['*'], ['/'], ['%'], ['+'], ['-'], ['<', '<'], ['>', '>'], ['&'], ['^'], ['|'], ['&', '&'],
        ['|', '|'], ['=', '='], ['!', '='], ['<'], ['<', '='], ['>'], ['>', '='], ['?'], [':'], [',']] := by decide
    rw [hlist] at hop
    fin_cases hop <;> rfl
  paren p hp ps := by
    obtain rfl | rfl := hp <;> rfl
  star ps hps := by
    refine taken_single (by decide) (by decide) (by decide) ?_
    have hsecond : ∀ p ∈ puncts, '*' ∈ p.head? → p = ['*'] ∨ ∀ c ∈ p[1]?, c = '=' := by decide
    intro p hp hhead
    refine (hsecond p hp hhead).imp_right fun h c hc => ?_
    rw [h c hc]
    exact hps
  minus n ps := rfl
  unary _ _ k hop harg := taken_unary_iff k hop harg
  other e he := by
    cases e with
    | unaryOp => cases he
    | _ => rfl

end Windy.Decompiler.V2
