import Windy.Lib.Munch

/- The expressions of C: the punctuators, the levels of precedence and the grammar.

   The grammar is the standard's, level by level: the operators of one level group to the left, a
   cast and a unary operator bind tighter than every operator between two operands, and the
   conditional operator groups to the right and binds least. An assignment and the comma operator
   are not part of it, and a `++` or `--` in front of an operand is read as one punctuator that no
   rule here has. Which identifiers name types is a parameter (`isType`), as it is of a C parser. -/
namespace CExpr
open Munch

/-! ## Punctuators and constants -/

/-- The punctuators of C, the long ones first; the two that open a comment stand among them, and
    no rule of the grammar has those. -/
def puncts : List (List Char) :=
  [['%', ':', '%', ':'], ['.', '.', '.'], ['<', '<', '='], ['>', '>', '='],
   ['/', '/'], ['/', '*'], ['-', '>'], ['+', '+'], ['-', '-'], ['<', '<'], ['>', '>'], ['<', '='], ['>', '='],
   ['=', '='], ['!', '='], ['&', '&'], ['|', '|'], ['*', '='], ['/', '='], ['%', '='], ['+', '='], ['-', '='],
   ['&', '='], ['^', '='], ['|', '='], ['#', '#'], ['<', ':'], [':', '>'], ['<', '%'], ['%', '>'], ['%', ':'],
   ['['], [']'], ['('], [')'], ['\x7b'], ['\x7d'], ['.'], ['&'], ['*'], ['+'], ['-'], ['~'], ['!'], ['/'], ['%'],
   ['<'], ['>'], ['^'], ['|'], ['?'], [':'], [';'], ['='], [','], ['#']]

def lparen : Piece := .punct ['(']
def rparen : Piece := .punct [')']
def comma : Piece := .punct [',']
def question : Piece := .punct ['?']
def colon : Piece := .punct [':']
def star : Piece := .punct ['*']

def unaryOps : List (List Char) := [['&'], ['*'], ['+'], ['-'], ['~'], ['!']]

/-- How tightly an operator between two operands binds. -/
def binLevel (op : List Char) : Option Nat :=
  if op ∈ [['*'], ['/'], ['%']] then some 13
  else if op ∈ [['+'], ['-']] then some 12
  else if op ∈ [['<', '<'], ['>', '>']] then some 11
  else if op ∈ [['<'], ['>'], ['<', '='], ['>', '=']] then some 10
  else if op ∈ [['=', '='], ['!', '=']] then some 9
  else if op = ['&'] then some 8
  else if op = ['^'] then some 7
  else if op = ['|'] then some 6
  else if op = ['&', '&'] then some 5
  else if op = ['|', '|'] then some 4
  else none

/-- The level of a conditional expression, the loosest here. -/
def condLevel : Nat := 3

/-- The level of casts and unary operators. -/
def unaryLevel : Nat := 14

def hexDigit (c : Char) : Option Nat :=
  (List.range 16).find? fun k => c == Nat.digitChar k || c == (Nat.digitChar k).toUpper

/-- What one digit does to the number in front of it. -/
def addDigit (b : Nat) (acc : Option Nat) (c : Char) : Option Nat :=
  acc.bind fun n => (hexDigit c).bind fun d => if d < b then some (n * b + d) else none

/-- The number that digits of a base stand for. -/
def number (b : Nat) (w : List Char) : Option Nat := w.foldl (addDigit b) (some 0)

/-- The value of an integer constant without a suffix: hexadecimal, octal or decimal. -/
def readConstant : List Char → Option Nat
  | [] => none
  | '0' :: 'x' :: ds => if ds = [] then none else number 16 ds
  | '0' :: 'X' :: ds => if ds = [] then none else number 16 ds
  | '0' :: ds => number 8 ds
  | ds => number 10 ds

def isIdent : List Char → Bool
  | [] => false
  | c :: cs => !c.isDigit && (c :: cs).all isWordChar

variable (isType : List Char → Bool)

/-- An identifier that names no type. -/
def isName (w : List Char) : Bool := isIdent w && !isType w

def isTypeWord : Piece → Bool
  | .word w => isIdent w && isType w
  | _ => false

/-- A type name: a word for a type, then words and stars. -/
def isTypeName : List Piece → Bool
  | [] => false
  | p :: ps => isTypeWord isType p && ps.all fun q => match q with
    | .word w => isIdent w
    | q => q = star

/-! ## The grammar -/

inductive Tree where
  | name (text : List Char)
  | lit (value : Nat)
  | unary (op : List Char) (arg : Tree)
  | cast (ty : List Piece) (arg : Tree)
  | call (target : List Char) (args : List Tree)
  | bin (op : List Char) (lhs rhs : Tree)
  | cond (c a b : Tree)

/-- The pieces of an expression of a level and its tree. -/
inductive Derives : Nat → List Piece → Tree → Prop
  | name {w : List Char} (h : isName isType w = true) : Derives 15 [.word w] (.name w)
  | lit {w : List Char} {k : Nat} (h : readConstant w = some k) : Derives 15 [.word w] (.lit k)
  | paren {ts : List Piece} {t : Tree} (h : Derives condLevel ts t) : Derives 15 (lparen :: ts ++ [rparen]) t
  | call {w : List Char} {parts : List (List Piece × Tree)} (hw : isName isType w = true)
      (h : ∀ part ∈ parts, Derives condLevel part.1 part.2) :
      Derives 15 (.word w :: lparen :: [comma].intercalate (parts.map Prod.fst) ++ [rparen])
        (.call w (parts.map Prod.snd))
  | unary {op : List Char} {ts : List Piece} {t : Tree} (hop : op ∈ unaryOps) (h : Derives unaryLevel ts t) :
      Derives unaryLevel (.punct op :: ts) (.unary op t)
  | cast {ty ts : List Piece} {t : Tree} (hty : isTypeName isType ty = true) (h : Derives unaryLevel ts t) :
      Derives unaryLevel (lparen :: ty ++ rparen :: ts) (.cast ty t)
  | bin {op : List Char} {p : Nat} {l r : List Piece} {x y : Tree} (hop : binLevel op = some p) (hl : Derives p l x)
      (hr : Derives (p + 1) r y) : Derives p (l ++ .punct op :: r) (.bin op x y)
  | cond {c a b : List Piece} {x y z : Tree} (hc : Derives (condLevel + 1) c x) (ha : Derives condLevel a y)
      (hb : Derives condLevel b z) : Derives condLevel (c ++ question :: (a ++ colon :: b)) (.cond x y z)
  | up {p : Nat} {ts : List Piece} {t : Tree} (h : Derives (p + 1) ts t) : Derives p ts t

variable {isType}

theorem Derives.of_le {p q : Nat} {ts : List Piece} {t : Tree} (h : Derives isType q ts t) (hle : p ≤ q) :
    Derives isType p ts t := by
  induction q, hle using Nat.le_induction with
  | base => exact h
  | succ q _ ih => exact ih h.up

theorem binLevel_bounds {op : List Char} {p : Nat} (h : binLevel op = some p) : 4 ≤ p ∧ p ≤ 13 := by
  have hpick : ∀ {c : Prop} [Decidable c] {k : Nat} {rest : Option Nat}, 4 ≤ k ∧ k ≤ 13 →
      (rest = some p → 4 ≤ p ∧ p ≤ 13) → (if c then some k else rest) = some p → 4 ≤ p ∧ p ≤ 13 := by
    intro c _ k rest hk hrest hif
    by_cases hc : c
    · rw [if_pos hc] at hif
      exact Option.some.inj hif ▸ hk
    · rw [if_neg hc] at hif
      exact hrest hif
  unfold binLevel at h
  revert h
  iterate 10 refine hpick (by decide) ?_
  exact fun h => nomatch h

/-! ## What a derived text begins with, and its parentheses -/

theorem not_typeWord_of_name {w : List Char} (h : isName isType w = true) : isTypeWord isType (.word w) = false := by
  rw [isName, Bool.and_eq_true, Bool.not_eq_true'] at h
  rw [isTypeWord, h.2, Bool.and_false]

theorem foldl_addDigit_none (b : Nat) (w : List Char) : w.foldl (addDigit b) none = none := by
  induction w with
  | nil => rfl
  | cons c cs ih => exact ih

theorem digitChar_isDigit : ∀ d < 10, (Nat.digitChar d).isDigit = true ∧ (Nat.digitChar d).toUpper.isDigit = true := by
  decide

/-- A constant begins with a digit. -/
theorem digit_of_readConstant {c : Char} {cs : List Char} {k : Nat} (h : readConstant (c :: cs) = some k) :
    c.isDigit = true := by
  by_cases hzero : c = '0'
  · rw [hzero]
    decide
  · have hten : number 10 (c :: cs) = some k := by
      unfold readConstant at h
      split at h
      · cases h
      · rename_i heq
        exact absurd (List.cons.inj heq).1 hzero
      · rename_i heq
        exact absurd (List.cons.inj heq).1 hzero
      · rename_i heq
        exact absurd (List.cons.inj heq).1 hzero
      · exact h
    rw [number, List.foldl_cons] at hten
    cases hfirst : addDigit 10 (some 0) c with
    | none =>
      rw [hfirst, foldl_addDigit_none] at hten
      cases hten
    | some n =>
      rw [addDigit, Option.bind_some] at hfirst
      obtain ⟨d, hd, hlt⟩ := Option.bind_eq_some_iff.mp hfirst
      split at hlt
      · next hten =>
        obtain ⟨hdigit, hupper⟩ := digitChar_isDigit d hten
        have hc := List.find?_some hd
        rw [Bool.or_eq_true, beq_iff_eq, beq_iff_eq] at hc
        obtain rfl | rfl := hc
        · exact hdigit
        · exact hupper
      · cases hlt

theorem not_ident_of_readConstant {w : List Char} {k : Nat} (h : readConstant w = some k) : isIdent w = false := by
  cases w with
  | nil => rfl
  | cons c cs => rw [isIdent, digit_of_readConstant h, Bool.not_true, Bool.false_and]

/-- A derived text is not empty, and neither a type word nor a closing parenthesis stands at its front. -/
theorem Derives.head {p : Nat} {ts : List Piece} {t : Tree} (h : Derives isType p ts t) :
    ∃ a rest, ts = a :: rest ∧ isTypeWord isType a = false ∧ a ≠ rparen := by
  induction h with
  | name h => exact ⟨_, _, rfl, not_typeWord_of_name h, nofun⟩
  | lit h =>
    refine ⟨_, _, rfl, ?_, nofun⟩
    rw [isTypeWord, not_ident_of_readConstant h, Bool.false_and]
  | paren => exact ⟨_, _, rfl, rfl, by decide⟩
  | call hw => exact ⟨_, _, rfl, not_typeWord_of_name hw, nofun⟩
  | unary hop =>
    have hnot : ∀ op ∈ unaryOps, Piece.punct op ≠ rparen := by decide
    exact ⟨_, _, rfl, rfl, hnot _ hop⟩
  | cast => exact ⟨_, _, rfl, rfl, by decide⟩
  | bin _ _ _ ih =>
    obtain ⟨a, rest, rfl, ha⟩ := ih
    exact ⟨a, _, rfl, ha⟩
  | cond _ _ _ ih =>
    obtain ⟨a, rest, rfl, ha⟩ := ih
    exact ⟨a, _, rfl, ha⟩
  | up _ ih => exact ih

theorem Derives.ne_nil {p : Nat} {ts : List Piece} {t : Tree} (h : Derives isType p ts t) : ts ≠ [] := by
  obtain ⟨a, rest, rfl, -⟩ := h.head
  exact List.cons_ne_nil a rest

/-- A type name has stars and identifiers only. -/
theorem pieces_of_typeName {ty : List Piece} (h : isTypeName isType ty = true) :
    ∀ p ∈ ty, p = star ∨ ∃ w, p = .word w ∧ isIdent w = true := by
  cases ty with
  | nil => cases h
  | cons q qs =>
    obtain ⟨hq, hqs⟩ := Bool.and_eq_true_iff.mp h
    intro p hp
    obtain rfl | hp := List.mem_cons.mp hp
    · cases p with
      | word w => exact .inr ⟨w, rfl, (Bool.and_eq_true_iff.mp hq).1⟩
      | blank => cases hq
      | punct => cases hq
    · have := List.all_eq_true.mp hqs p hp
      cases p with
      | word w => exact .inr ⟨w, rfl, this⟩
      | blank => cases this
      | punct op => exact .inl (of_decide_eq_true this)

theorem plain_of_typeName {ty : List Piece} (h : isTypeName isType ty = true) :
    ∀ p ∈ ty, p ≠ lparen ∧ p ≠ rparen := by
  intro p hp
  obtain rfl | ⟨w, rfl, -⟩ := pieces_of_typeName h p hp
  · decide
  · exact ⟨nofun, nofun⟩

end CExpr
