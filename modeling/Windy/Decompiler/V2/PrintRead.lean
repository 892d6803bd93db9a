import Windy.Decompiler.V2.PrintAst
import Windy.Lib.CExpr.Parser

/- What C reads where the printer printed an expression.

   The levels of C are two above the binding powers of the printer, but for `?:` and the
   comparisons. So an operand that the printer leaves without parentheses derives at the level of
   its place, unless it is a `?:` left of `||` or an equality left of an ordering (`derives_pieces`);
   and from a derivation of the whole its operands derive in their places, which no such operand does
   (`grouped_of_derives`).

   What is proved: the printed text reads as the expression just if none of the four places occurs
   in it (`printed_reads_back`). -/
namespace Windy.Decompiler.V2
open Munch CExpr

variable {isType : List Char → Bool} {e : Expr} {op : List Char}

/-! ## The pieces without the blanks -/

def strip (ps : List Piece) : List Piece := ps.filter (· ≠ .blank)

@[simp] theorem strip_append (ps qs : List Piece) : strip (ps ++ qs) = strip ps ++ strip qs := List.filter_append ..
@[simp] theorem strip_word (w : List Char) (ps : List Piece) : strip (.word w :: ps) = .word w :: strip ps := rfl
@[simp] theorem strip_punct (p : List Char) (ps : List Piece) : strip (.punct p :: ps) = .punct p :: strip ps := rfl
@[simp] theorem strip_blank (ps : List Piece) : strip (.blank :: ps) = strip ps := rfl
@[simp] theorem strip_nil : strip [] = [] := rfl

@[simp] theorem strip_lparen (ps : List Piece) : strip (lparen :: ps) = lparen :: strip ps := rfl
@[simp] theorem strip_rparen (ps : List Piece) : strip (rparen :: ps) = rparen :: strip ps := rfl

theorem strip_wrapIf (need : Bool) (ps : List Piece) : strip (wrapIf need ps) = wrapIf need (strip ps) := by
  cases need with
  | false => rfl
  | true => simp [wrapIf, lparen, rparen]

theorem strip_infixed (l r : List Piece) (op : List Char) :
    strip (infixed l op r) = strip l ++ .punct op :: strip r := by
  simp [infixed]

theorem strip_intercalate (ls : List (List Piece)) :
    strip ([comma, .blank].intercalate ls) = [comma].intercalate (ls.map strip) := by
  induction ls with
  | nil => rfl
  | cons l ls ih =>
    cases ls with
    | nil => simp
    | cons m ms =>
      rw [List.intercalate_cons_cons, strip_append, strip_append, ih]
      simp only [List.map_cons]
      rw [List.intercalate_cons_cons]
      rfl

theorem core_wrapIf (need : Bool) (ps : List Piece) : core (wrapIf need ps) = core ps := by
  cases need with
  | false => rfl
  | true => rw [wrapIf, if_pos rfl, core_lparen, core_append, core_rparen, core_nil, List.append_nil]

theorem balanced_wrapIf (need : Bool) {ps : List Piece} (h : Balanced ps) : Balanced (wrapIf need ps) := by
  cases need with
  | false => exact h
  | true => exact h.wrap balanced_nil

/-- What the printer puts between two operands is no parenthesis. -/
theorem spaced_plain : ∀ op ∈ spaced, Piece.punct op ≠ lparen ∧ Piece.punct op ≠ rparen := by decide

theorem core_infixed (hop : op ∈ spaced) (l r : List Piece) :
    core (strip (infixed l op r)) = core (strip l) ++ .punct op :: core (strip r) := by
  obtain ⟨hl, hr⟩ := spaced_plain op hop
  rw [strip_infixed, core_append, core_cons hl hr]
  rfl

theorem balanced_infixed (hop : op ∈ spaced) {l r : List Piece} (hl : Balanced (strip l))
    (hr : Balanced (strip r)) : Balanced (strip (infixed l op r)) := by
  obtain ⟨hl', hr'⟩ := spaced_plain op hop
  rw [strip_infixed]
  exact hl.append (hr.cons hl' hr')

/-- Without parentheses the pieces are those of the tree. -/
theorem core_pieces (h : Printable isType e) (bp : Nat) :
    core (strip (pieces e bp)) = (treeOf e).leaves := by
  induction h generalizing bp with
  | name hname => rw [pieces, strip_word, core_word, spell_ident (ident_of_name hname)]; rfl
  | @int value =>
    rw [pieces, treeOf]
    split
    · rw [strip_punct, strip_word, core_cons (by decide) (by decide), core_word, spell_hexText]
      rfl
    · rw [strip_word, core_word, spell_hexText]
      rfl
  | uint =>
    rw [pieces, strip_word, core_word, spell_hexText]
    rfl
  | binOp hop _ _ ihl ihr =>
    rw [pieces, strip_wrapIf, core_wrapIf, core_infixed (spaced_of_binOp hop), ihl, ihr]
    rfl
  | unaryOp hop _ ih =>
    have hplain : ∀ op ∈ unaryOps, Piece.punct op ≠ lparen ∧ Piece.punct op ≠ rparen := by decide
    rw [pieces, strip_wrapIf, core_wrapIf, strip_punct, core_cons (hplain _ hop).1 (hplain _ hop).2, ih]
    rfl
  | cast hlex hty _ ih =>
    rw [pieces, treeOf, hlex, Option.getD_some, strip_lparen, strip_append, strip_rparen, core_lparen, core_append,
      core_rparen, ih, strip, core_typeName hty]
    rfl
  | @call target args hname _ ih =>
    have hargs : ((argPieces args).map strip).map core = leavesOf (treesOf args) := by
      rw [argPieces_eq_map, leavesOf_eq_map, treesOf_eq_map, List.map_map, List.map_map, List.map_map]
      exact List.map_congr_left fun arg harg => ih arg harg 0
    rw [pieces, treeOf, Tree.leaves, strip_word, core_word, spell_ident (ident_of_name hname), strip_lparen,
      strip_append, core_lparen, core_append, strip_intercalate, core_intercalate, hargs]
    simp [rparen, core]
  | load _ ih =>
    rw [pieces, CExpr.star, strip_punct, strip_lparen, core_cons (by decide) (by decide), core_lparen, strip_append,
      core_append, ih]
    simp [rparen, core, treeOf, Tree.leaves, spell]
  | select _ _ _ ihc iht ihe =>
    rw [pieces, strip_wrapIf, core_wrapIf, core_infixed (by decide), core_infixed (by decide), ihc, iht, ihe]
    rfl
  | compare hop _ _ ihl ihr =>
    rw [pieces, strip_wrapIf, core_wrapIf, core_infixed (spaced_of_compareOp hop), ihl, ihr]
    rfl

/-- The printer closes what it opens. -/
theorem balanced_pieces (h : Printable isType e) (bp : Nat) :
    Balanced (strip (pieces e bp)) ∧ strip (pieces e bp) ≠ [] := by
  have hne : core (strip (pieces e bp)) ≠ [] := by
    rw [core_pieces h]
    cases h with
    | binOp => exact List.append_ne_nil_of_right_ne_nil _ (List.cons_ne_nil _ _)
    | compare => exact List.append_ne_nil_of_right_ne_nil _ (List.cons_ne_nil _ _)
    | select => exact List.append_ne_nil_of_right_ne_nil _ (List.cons_ne_nil _ _)
    | int => rw [treeOf]; split <;> exact List.cons_ne_nil _ _
    | cast hlex hty =>
      refine List.append_ne_nil_of_left_ne_nil ?_ _
      rw [hlex, Option.getD_some]
      intro hnil
      rw [hnil] at hty
      cases hty
    | _ => exact List.cons_ne_nil _ _
  refine ⟨?_, fun hnil => hne (by rw [hnil]; rfl)⟩
  clear hne
  induction h generalizing bp with
  | name => exact balanced_word _ balanced_nil
  | @int value =>
    rw [pieces]
    split
    · exact (balanced_word _ balanced_nil).cons (by decide) (by decide)
    · exact balanced_word _ balanced_nil
  | uint => exact balanced_word _ balanced_nil
  | binOp hop _ _ ihl ihr =>
    rw [pieces, strip_wrapIf]
    exact balanced_wrapIf _ (balanced_infixed (spaced_of_binOp hop) (ihl _) (ihr _))
  | unaryOp hop _ ih =>
    have hplain : ∀ op ∈ unaryOps, Piece.punct op ≠ lparen ∧ Piece.punct op ≠ rparen := by decide
    rw [pieces, strip_wrapIf]
    exact balanced_wrapIf _ ((ih 14).cons (hplain _ hop).1 (hplain _ hop).2)
  | cast hlex hty _ ih =>
    rw [pieces, hlex, Option.getD_some, strip_lparen, strip_append, strip_rparen]
    exact (balanced_of_plain (plain_of_typeName hty)).wrap (ih 14)
  | @call target args _ _ ih =>
    rw [pieces, strip_word, strip_lparen, strip_append, strip_intercalate]
    have hargs : ∀ l ∈ (argPieces args).map strip, Balanced l := by
      rw [argPieces_eq_map, List.map_map, List.forall_mem_map]
      exact fun arg harg => ih arg harg 0
    exact balanced_word _ ((balanced_intercalate hargs).wrap balanced_nil)
  | load _ ih =>
    rw [pieces, CExpr.star, strip_punct, strip_lparen, strip_append]
    exact ((ih 0).wrap balanced_nil).cons (by decide) (by decide)
  | select _ _ _ ihc iht ihe =>
    rw [pieces, strip_wrapIf]
    exact balanced_wrapIf _ (balanced_infixed (by decide) (ihc 3) (balanced_infixed (by decide) (iht 3) (ihe 2)))
  | compare hop _ _ ihl ihr =>
    rw [pieces, strip_wrapIf]
    exact balanced_wrapIf _ (balanced_infixed (spaced_of_compareOp hop) (ihl 7) (ihr 8))

/-! ## The levels of what is printed -/

/-- The level at which C derives the expression without parentheses around it. -/
def level : Expr → Nat
  | .binOp op _ _ => binBp op + 2
  | .compare op _ _ => if op ∈ ["==", "!="] then 9 else 10
  | .select .. => condLevel
  | _ => unaryLevel

/-- The binding power that the printer compares with that of the place. -/
def ownBp : Expr → Nat
  | .binOp op _ _ => binBp op
  | .compare .. => 7
  | .select .. => 2
  | _ => 14

theorem binLevel_binOp : ∀ op ∈ binOps, binLevel op.toList = some (binBp op + 2) := by decide

theorem binLevel_compare : ∀ op ∈ compareOps,
    binLevel op.toList = some (if op ∈ ["==", "!="] then 9 else 10) := by decide

theorem binBp_cases : ∀ op ∈ binOps, 2 ≤ binBp op ∧ (binBp op ≤ 6 ∨ 9 ≤ binBp op) ∧ binBp op ≤ 11 := by decide

/-- The level against the binding power: only `?:` and the equalities are looser than the power says. -/
theorem level_cases (h : Printable isType e) :
    (isSelect e = true ∧ ownBp e = 2 ∧ level e = 3) ∨
    (isEquality e = true ∧ ownBp e = 7 ∧ level e = 9) ∨
    (isEquality e = false ∧ ownBp e = 7 ∧ level e = 10) ∨
    ((ownBp e ≤ 6 ∨ 9 ≤ ownBp e) ∧ 2 ≤ ownBp e ∧ ownBp e ≤ 11 ∧ level e = ownBp e + 2) ∨
    (ownBp e = 14 ∧ level e = 14) := by
  cases h with
  | @binOp op _ _ hop =>
    obtain ⟨hlo, hmid, hhi⟩ := binBp_cases op hop
    exact .inr (.inr (.inr (.inl ⟨hmid, hlo, hhi, rfl⟩)))
  | select => exact .inl ⟨rfl, rfl, rfl⟩
  | @compare op =>
    rw [isEquality, level]
    split
    · next heq => exact .inr (.inl ⟨decide_eq_true heq, rfl, rfl⟩)
    · next heq => exact .inr (.inr (.inl ⟨decide_eq_false heq, rfl, rfl⟩))
  | _ => exact .inr (.inr (.inr (.inr ⟨rfl, rfl⟩)))

theorem derives_wrapIf {p : Nat} {need : Prop} [Decidable need] {ps : List Piece} {t : Tree} (hp : condLevel ≤ p)
    (h : Derives isType p ps t) : Derives isType (if need then 15 else p) (wrapIf (decide need) ps) t := by
  by_cases hneed : need
  · rw [if_pos hneed, decide_eq_true hneed]
    exact (h.of_le hp).paren
  · rw [if_neg hneed, decide_eq_false hneed]
    exact h

/-- What the printer prints for a place derives at every level that the place may ask for. -/
theorem derives_at {bp q : Nat}
    (h : Derives isType (if ownBp e < bp then 15 else level e) (strip (pieces e bp)) (treeOf e)) (hq : q ≤ 15)
    (hlevel : ownBp e < bp ∨ q ≤ level e) : Derives isType q (strip (pieces e bp)) (treeOf e) := by
  refine h.of_le ?_
  split
  · exact hq
  · next hnot => exact hlevel.resolve_left hnot

/-- An operand as tight as a unary operator gets no parentheses. -/
theorem derives_tight (hown : ownBp e = 14) (hlevel : level e = unaryLevel) {bp : Nat} (hbp : bp ≤ 14)
    {ps : List Piece} {t : Tree} (h : Derives isType unaryLevel ps t) :
    Derives isType (if ownBp e < bp then 15 else level e) ps t := by
  rw [if_neg (by omega), hlevel]
  exact h

theorem select_of_grouped {op : String} {lhs rhs : Expr} (h : grouped (.binOp op lhs rhs) = true)
    (hselect : isSelect lhs = true) : op ≠ "||" := by
  rintro rfl
  rw [grouped, hselect] at h
  cases h

theorem binBp_ne : ∀ op ∈ binOps, op ≠ "||" → binBp op ≠ 2 := by decide

theorem level_of_grouped {op : String} {lhs rhs : Expr} (h : grouped (.compare op lhs rhs) = true)
    (hequal : isEquality lhs = true) : level (.compare op lhs rhs) = 9 := by
  rw [grouped, hequal, Bool.not_true, Bool.or_false, decide_eq_true_eq] at h
  rw [level, if_pos h]

/-- Where the binding powers give all parentheses that C needs, C derives the tree. -/
theorem derives_pieces (h : Printable isType e) (hgrouped : everywhere grouped e = true) (bp : Nat)
    (hbp : bp ≤ 14) : Derives isType (if ownBp e < bp then 15 else level e) (strip (pieces e bp)) (treeOf e) := by
  induction h generalizing bp with
  | name hname => exact derives_tight rfl rfl hbp (Derives.name hname).up
  | @int value =>
    refine derives_tight rfl rfl hbp ?_
    rw [pieces, treeOf]
    split
    · exact .unary (by decide) (Derives.lit (readConstant_hexText _)).up
    · exact (Derives.lit (readConstant_hexText _)).up
  | uint => exact derives_tight rfl rfl hbp (Derives.lit (readConstant_hexText _)).up
  | @binOp op lhs rhs hop hl hr ihl ihr =>
    rw [everywhere, Bool.and_eq_true, Bool.and_eq_true] at hgrouped
    obtain ⟨⟨hroot, hgl⟩, hgr⟩ := hgrouped
    obtain ⟨hlo, hmid, hhi⟩ := binBp_cases op hop
    have hleft := derives_at (q := binBp op + 2) (ihl hgl (binBp op) (by omega)) (by omega) (by
      obtain ⟨hselect, h2, h3⟩ | h | h | h | h := level_cases hl
      · -- only `||` has the power of `?:`, and its left operand is none
        have hnot := select_of_grouped hroot hselect
        have := binBp_ne op hop hnot
        omega
      all_goals omega)
    have hright := derives_at (q := binBp op + 2 + 1) (ihr hgr (binBp op + 1) (by omega)) (by omega) (by
      obtain h | h | h | h | h := level_cases hr <;> omega)
    rw [pieces, strip_wrapIf, strip_infixed]
    exact derives_wrapIf (by rw [condLevel, level]; omega) (.bin (binLevel_binOp op hop) hleft hright)
  | @unaryOp op arg hop harg ih =>
    rw [everywhere, Bool.and_eq_true] at hgrouped
    have hinner := derives_at (q := unaryLevel) (ih hgrouped.2 14 (Nat.le_refl _)) (by decide) (by
      obtain h | h | h | h | h := level_cases harg <;> rw [unaryLevel] <;> omega)
    rw [pieces, strip_wrapIf, strip_punct]
    exact derives_wrapIf (show condLevel ≤ unaryLevel by decide) (.unary hop hinner)
  | @cast ty ps arg hlex hty harg ih =>
    rw [everywhere, Bool.and_eq_true] at hgrouped
    have hinner := derives_at (q := unaryLevel) (ih hgrouped.2 14 (Nat.le_refl _)) (by decide) (by
      obtain h | h | h | h | h := level_cases harg <;> rw [unaryLevel] <;> omega)
    refine derives_tight rfl rfl hbp ?_
    rw [pieces, treeOf, hlex, Option.getD_some, strip_lparen, strip_append, strip_rparen]
    exact .cast hty hinner
  | @call target args hname hargs ih =>
    rw [everywhere, Bool.and_eq_true, everywhereAll_iff] at hgrouped
    refine derives_tight rfl rfl hbp ?_
    have hparts : ∀ part ∈ args.map fun arg => (strip (pieces arg 0), treeOf arg),
        Derives isType condLevel part.1 part.2 := by
      rw [List.forall_mem_map]
      intro arg harg
      refine derives_at (ih arg harg (hgrouped.2 arg harg) 0 (by omega)) (by decide) ?_
      obtain h | h | h | h | h := level_cases (hargs arg harg) <;> rw [condLevel] <;> omega
    have hcall := (Derives.call hname hparts).up
    rw [List.map_map, List.map_map] at hcall
    rw [pieces, treeOf, strip_word, strip_lparen, strip_append, strip_intercalate, argPieces_eq_map, treesOf_eq_map,
      List.map_map]
    exact hcall
  | @load addr haddr ih =>
    rw [everywhere, Bool.and_eq_true] at hgrouped
    have hinner := derives_at (q := condLevel) (ih hgrouped.2 0 (by omega)) (by decide) (by
      obtain h | h | h | h | h := level_cases haddr <;> rw [condLevel] <;> omega)
    refine derives_tight rfl rfl hbp ?_
    rw [pieces, CExpr.star, strip_punct, strip_lparen, strip_append]
    exact .unary (by decide) hinner.paren.up
  | @select cond thenE elseE hc ht he ihc iht ihe =>
    rw [everywhere, Bool.and_eq_true, Bool.and_eq_true, Bool.and_eq_true] at hgrouped
    obtain ⟨⟨⟨-, hgc⟩, hgt⟩, hge⟩ := hgrouped
    have hfirst := derives_at (q := condLevel + 1) (ihc hgc 3 (by omega)) (by decide) (by
      obtain h | h | h | h | h := level_cases hc <;> rw [condLevel] <;> omega)
    have hsecond := derives_at (q := condLevel) (iht hgt 3 (by omega)) (by decide) (by
      obtain h | h | h | h | h := level_cases ht <;> rw [condLevel] <;> omega)
    have hthird := derives_at (q := condLevel) (ihe hge 2 (by omega)) (by decide) (by
      obtain h | h | h | h | h := level_cases he <;> rw [condLevel] <;> omega)
    rw [pieces, strip_wrapIf, strip_infixed, strip_infixed]
    exact derives_wrapIf (Nat.le_refl _) (.cond hfirst hsecond hthird)
  | @compare op lhs rhs hop hl hr ihl ihr =>
    rw [everywhere, Bool.and_eq_true, Bool.and_eq_true] at hgrouped
    obtain ⟨⟨hroot, hgl⟩, hgr⟩ := hgrouped
    have hbounds : 9 ≤ level (.compare op lhs rhs) ∧ level (.compare op lhs rhs) ≤ 10 := by
      rw [level]
      split <;> omega
    have hleft := derives_at (q := level (.compare op lhs rhs)) (ihl hgl 7 (by omega)) (by omega) (by
      obtain h | ⟨hequal, h7, h9⟩ | h | h | h := level_cases hl
      · omega
      · -- under `<` the left operand is no equality
        have := level_of_grouped hroot hequal
        omega
      all_goals omega)
    have hright := derives_at (q := level (.compare op lhs rhs) + 1) (ihr hgr 8 (by omega)) (by omega) (by
      obtain h | h | h | h | h := level_cases hr <;> omega)
    rw [pieces, strip_wrapIf, strip_infixed]
    exact derives_wrapIf (by rw [condLevel]; omega) (.bin (binLevel_compare op hop) hleft hright)

/-! ## What the levels tell about the expression -/

/-- The rule of the tree makes the text, with or without parentheses around it. -/
theorem rooted_of_wrapIf {q : Nat} {need : Prop} [Decidable need] {l r : List Piece} {t : Tree}
    (hl : Balanced l) (hne : l ≠ []) (hbody : Balanced (l ++ .punct op :: r))
    (h : Derives isType q (wrapIf (decide need) (l ++ .punct op :: r)) t) :
    Rooted isType (if need then condLevel else q) (l ++ .punct op :: r) t := by
  by_cases hneed : need
  · rw [decide_eq_true hneed] at h
    rw [if_pos hneed]
    exact (h.unwrap hbody).rooted_of_cut hl hne
  · rw [decide_eq_false hneed] at h
    rw [if_neg hneed]
    exact Derives.rooted_of_cut hl hne h

/-- The operands of a tree derive from the texts on the two sides of its operator. -/
theorem operands_of_rooted {q : Nat} {l r : List Piece} {x y : Tree} (hop : op ∈ spaced)
    (hl : core l = x.leaves) (h : Rooted isType q (l ++ .punct op :: r) (.bin op x y)) :
    ∃ p, q ≤ p ∧ binLevel op = some p ∧ Derives isType p l x ∧ Derives isType (p + 1) r y := by
  obtain ⟨p, l', r', hq, hlevel, htext, hx, hy⟩ := h
  have hcore : core l = core l' := by rw [hl, hx.leaves]
  obtain ⟨rfl, hr⟩ := cut_unique (spaced_plain op hop) (spaced_plain op hop) hcore htext
  exact ⟨p, hq, hlevel, hx, hr ▸ hy⟩

/-- The parts of a conditional tree derive from the texts around `?` and `:`. -/
theorem parts_of_rooted {q : Nat} {c a b : List Piece} {x y z : Tree} (hc : core c = x.leaves) (ha : core a = y.leaves)
    (h : Rooted isType q (c ++ question :: (a ++ colon :: b)) (.cond x y z)) :
    q ≤ condLevel ∧ Derives isType (condLevel + 1) c x ∧ Derives isType condLevel a y ∧
      Derives isType condLevel b z := by
  obtain ⟨hq, c', a', b', htext, hx, hy, hz⟩ := h
  have hquestion : question ≠ lparen ∧ question ≠ rparen := by decide
  have hcolon : colon ≠ lparen ∧ colon ≠ rparen := by decide
  have hcorec : core c = core c' := by rw [hc, hx.leaves]
  obtain ⟨rfl, hrest⟩ := cut_unique hquestion hquestion hcorec htext
  have hcorea : core a = core a' := by rw [ha, hy.leaves]
  obtain ⟨rfl, rfl⟩ := cut_unique hcolon hcolon hcorea hrest
  exact ⟨hq, hx, hy, hz⟩

theorem rooted_infixed {lhs rhs : Expr} (hop : op ∈ spaced) (hl : Printable isType lhs)
    (hr : Printable isType rhs) {q b b' : Nat} {need : Prop} [Decidable need] {t : Tree}
    (h : Derives isType q (wrapIf (decide need) (strip (infixed (pieces lhs b) op (pieces rhs b')))) t) :
    Rooted isType (if need then condLevel else q) (strip (pieces lhs b) ++ .punct op :: strip (pieces rhs b')) t := by
  obtain ⟨hbal, hne⟩ := balanced_pieces hl b
  have hbody := balanced_infixed hop hbal (balanced_pieces hr b').1
  rw [strip_infixed] at h hbody
  exact rooted_of_wrapIf hbal hne hbody h

theorem rooted_select {cond thenE elseE : Expr} (hc : Printable isType cond) (ht : Printable isType thenE)
    (he : Printable isType elseE) {q bp : Nat}
    (h : Derives isType q (strip (pieces (.select cond thenE elseE) bp)) (treeOf (.select cond thenE elseE))) :
    (2 < bp ∨ q ≤ condLevel) ∧ Derives isType (condLevel + 1) (strip (pieces cond 3)) (treeOf cond) ∧
      Derives isType condLevel (strip (pieces thenE 3)) (treeOf thenE) ∧
      Derives isType condLevel (strip (pieces elseE 2)) (treeOf elseE) := by
  obtain ⟨hbal, hne⟩ := balanced_pieces hc 3
  have hbody := balanced_infixed (show ['?'] ∈ spaced by decide) hbal
    (balanced_infixed (show [':'] ∈ spaced by decide) (balanced_pieces ht 3).1 (balanced_pieces he 2).1)
  rw [pieces, strip_wrapIf, strip_infixed, strip_infixed] at h
  rw [strip_infixed, strip_infixed] at hbody
  obtain ⟨hq, hparts⟩ := parts_of_rooted (core_pieces hc 3) (core_pieces ht 3) (rooted_of_wrapIf hbal hne hbody h)
  refine ⟨?_, hparts⟩
  split at hq
  · next hneed => exact .inl hneed
  · exact .inr hq

/-- The arguments derive from the texts between the commas. -/
theorem args_of_rooted {q : Nat} {target : String} {args : List Expr} (hargs : ∀ arg ∈ args, Printable isType arg)
    (h : Rooted isType q (strip (pieces (.call target args) 0)) (treeOf (.call target args))) :
    ∀ arg ∈ args, Derives isType condLevel (strip (pieces arg 0)) (treeOf arg) := by
  rw [pieces, strip_word, strip_lparen, strip_append, strip_intercalate, treeOf] at h
  obtain ⟨parts, hparts, htrees, htext⟩ := h
  have hinner := List.append_cancel_right (List.cons.inj (List.cons.inj htext).2).2
  have hcore : ((argPieces args).map strip).map core = (parts.map Prod.fst).map core := by
    have hleft : ((argPieces args).map strip).map core = (treesOf args).map Tree.leaves := by
      rw [argPieces_eq_map, treesOf_eq_map, List.map_map, List.map_map, List.map_map]
      exact List.map_congr_left fun arg harg => core_pieces (hargs arg harg) 0
    rw [hleft, htrees, List.map_map, List.map_map]
    exact List.map_congr_left fun part hpart => (hparts part hpart).leaves.symm
  have htexts := intercalate_inj hcore hinner
  rw [argPieces_eq_map, List.map_map] at htexts
  rw [treesOf_eq_map] at htrees
  have hzip := List.zip_of_prod htexts.symm htrees.symm
  rw [List.zip_map'] at hzip
  intro arg harg
  have hmem : (strip (pieces arg 0), treeOf arg) ∈ parts := hzip ▸ List.mem_map_of_mem harg
  exact hparts _ hmem

/-- A text that C reads as the tree has all parentheses it needs. -/
theorem grouped_of_derives (h : Printable isType e) {q bp : Nat} (hbp : bp ≤ 14)
    (hderives : Derives isType q (strip (pieces e bp)) (treeOf e)) : everywhere grouped e = true := by
  induction h generalizing q bp with
  | name | int | uint => rfl
  | @binOp op lhs rhs hop hl hr ihl ihr =>
    obtain ⟨-, -, hhi⟩ := binBp_cases op hop
    rw [pieces, strip_wrapIf] at hderives
    have hrooted := rooted_infixed (spaced_of_binOp hop) hl hr hderives
    obtain ⟨p, -, hlevel, hleft, hright⟩ := operands_of_rooted (spaced_of_binOp hop) (core_pieces hl _) hrooted
    rw [everywhere, ihl (by omega) hleft, ihr (by omega) hright, Bool.and_true, Bool.and_true]
    by_contra hroot
    rw [grouped, Bool.not_eq_true, Bool.not_eq_false', Bool.and_eq_true, decide_eq_true_eq] at hroot
    obtain ⟨rfl, hselect⟩ := hroot
    obtain rfl : 4 = p := Option.some.inj hlevel
    cases hl with
    | select hc ht he => exact absurd (rooted_select hc ht he hleft).1 (by decide)
    | _ => cases hselect
  | @unaryOp op arg hop harg ih =>
    rw [pieces, strip_wrapIf, decide_eq_false (by omega), strip_punct] at hderives
    have hroot : grouped (.unaryOp op arg) = true := rfl
    rw [everywhere, hroot, Bool.true_and]
    obtain ⟨us, htext, -⟩ | ⟨-, us, htext, hinner⟩ := hderives.rooted
    · have hplain : ∀ op ∈ unaryOps, Piece.punct op ≠ lparen := by decide
      exact absurd (List.cons.inj htext).1 (hplain _ hop)
    · exact ih (Nat.le_refl _) ((List.cons.inj htext).2 ▸ hinner)
  | @cast ty ps arg hlex hty harg ih =>
    rw [pieces, treeOf, hlex, Option.getD_some, strip_lparen, strip_append, strip_rparen] at hderives
    have hroot : grouped (.cast ty arg) = true := rfl
    rw [everywhere, hroot, Bool.true_and]
    obtain ⟨us, htext, hinner⟩ | ⟨-, us, htext, hinner⟩ := hderives.rooted
    · exact absurd htext.symm (not_wrapped_cast hinner.balanced hty (balanced_pieces harg 14).2)
    · have hrest := List.append_cancel_left (List.cons.inj htext).2
      exact ih (Nat.le_refl _) ((List.cons.inj hrest).2 ▸ hinner)
  | @call target args hname hargs ih =>
    have hroot : grouped (.call target args) = true := rfl
    rw [everywhere, hroot, Bool.true_and, everywhereAll_iff]
    obtain ⟨us, htext, -⟩ | hrooted := hderives.rooted
    · cases (List.cons.inj htext).1
    · exact fun arg harg => ih arg harg (Nat.zero_le _) (args_of_rooted hargs hrooted arg harg)
  | @load addr haddr ih =>
    rw [pieces, CExpr.star, strip_punct, strip_lparen, strip_append] at hderives
    have hroot : grouped (.load addr) = true := rfl
    rw [everywhere, hroot, Bool.true_and]
    obtain ⟨us, htext, -⟩ | ⟨-, us, htext, hinner⟩ := hderives.rooted
    · cases (List.cons.inj htext).1
    · rw [← (List.cons.inj htext).2] at hinner
      exact ih (Nat.zero_le _) (hinner.unwrap (balanced_pieces haddr 0).1)
  | @select cond thenE elseE hc ht he ihc iht ihe =>
    obtain ⟨-, hcond, hthen, helse⟩ := rooted_select hc ht he hderives
    have hroot : grouped (.select cond thenE elseE) = true := rfl
    rw [everywhere, hroot, ihc (by decide) hcond, iht (by decide) hthen, ihe (by decide) helse]
    rfl
  | @compare op lhs rhs hop hl hr ihl ihr =>
    rw [pieces, strip_wrapIf] at hderives
    have hrooted := rooted_infixed (spaced_of_compareOp hop) hl hr hderives
    obtain ⟨p, -, hlevel, hleft, hright⟩ := operands_of_rooted (spaced_of_compareOp hop) (core_pieces hl _) hrooted
    rw [everywhere, ihl (by decide) hleft, ihr (by decide) hright, Bool.and_true, Bool.and_true]
    by_contra hroot
    rw [grouped, Bool.or_eq_true, not_or, decide_eq_true_eq, Bool.not_eq_true', Bool.not_eq_false] at hroot
    obtain ⟨hrelational, hequal⟩ := hroot
    rw [binLevel_compare op hop, if_neg hrelational] at hlevel
    obtain rfl : 10 = p := Option.some.inj hlevel
    cases hl with
    | @compare op' _ _ hop' hl' hr' =>
      rw [pieces, strip_wrapIf] at hleft
      have hinner := rooted_infixed (spaced_of_compareOp hop') hl' hr' hleft
      obtain ⟨p, hle, hlevel', -, -⟩ := operands_of_rooted (spaced_of_compareOp hop') (core_pieces hl' _) hinner
      rw [binLevel_compare op' hop', if_pos (of_decide_eq_true hequal)] at hlevel'
      obtain rfl : 9 = p := Option.some.inj hlevel'
      exact absurd hle (by decide)
    | _ => cases hequal

/-! ## The printed text -/

theorem faithful_iff (h : Printable isType e) :
    faithful e = true ↔
      everywhere negatable e = true ∧ everywhere apart e = true ∧ everywhere grouped e = true := by
  rw [faithful, everywhere_and (p := fun x => negatable x && apart x) h, everywhere_and h, and_assoc]

theorem chain_pieces_iff {stands : Piece → List Piece → Prop} {ok : Expr → Bool} (hstands : Standing isType stands ok)
    (h : Printable isType e) : Chain stands (pieces e 0) ↔ everywhere ok e = true := by
  have hspan := hstands.chain h 0 (Nat.zero_le _) [] nofun
  rw [List.append_nil] at hspan
  exact hspan.trans (and_iff_left trivial)

/-- A text that C reads as the tree is cut into the pieces that the printer put together. -/
theorem pieces_of_reads (h : Printable isType e) {ps : List Piece}
    (hlex : lex puncts (flat (pieces e 0)) = some ps)
    (hderives : Derives isType condLevel (strip ps) (treeOf e)) : ps = pieces e 0 := by
  have hflat := ((lex_flat_iff (by decide)).mp hlex).1
  have hcore : core (strip ps) = core (strip (pieces e 0)) := by rw [hderives.leaves, core_pieces h]
  have hops : ps.filter (Piece.isOp [['('], [')']]) = (pieces e 0).filter (Piece.isOp [['('], [')']]) := by
    rw [filter_isOp, filter_isOp (pieces e 0)]
    exact congrArg (List.filter _) hcore
  have hapart := (chain_pieces_iff standing_apart h).mpr (everywhere_true h)
  exact eq_of_flat_eq (by decide) (chain_apart hlex) hapart hflat hops

theorem faithful_of_reads (h : Printable isType e) {text : String} (hprint : printExpr e 0 = some text)
    (hreads : ReadsAs isType text (treeOf e)) : faithful e = true := by
  obtain ⟨hneg, s, hs, htext⟩ | ⟨-, hnone⟩ := printExpr_prints h 0
  · obtain rfl : s = text := Option.some.inj (hs.symm.trans hprint)
    obtain ⟨ps, hlex, hderives⟩ := hreads
    rw [htext] at hlex
    obtain rfl := pieces_of_reads h hlex hderives
    have htaken := ((lex_flat_iff (by decide)).mp hlex).2
    exact (faithful_iff h).mpr ⟨hneg, (chain_pieces_iff standing_taken h).mp htaken,
      grouped_of_derives h (Nat.zero_le _) hderives⟩
  · rw [hnone] at hprint
    cases hprint

/-- The printed text of an expression is read as its tree and no other just if no part of it is printed
    without parentheses that it needs, with two operators in one, or not at all. -/
theorem printed_reads_back {e : Expr} (h : Printable isType e) :
    (∃ text, printExpr e 0 = some text ∧ ∀ t, ReadsAs isType text t ↔ t = treeOf e) ↔ faithful e = true := by
  constructor
  · rintro ⟨text, hprint, hreads⟩
    exact faithful_of_reads h hprint ((hreads _).mpr rfl)
  · intro hfaithful
    obtain ⟨hneg, hapart, hgrouped⟩ := (faithful_iff h).mp hfaithful
    obtain ⟨-, text, hprint, htext⟩ | ⟨hnot, -⟩ := printExpr_prints h 0
    · have hlex : lex puncts text.toList = some (pieces e 0) :=
        (lex_flat_iff (by decide)).mpr ⟨htext.symm, (chain_pieces_iff standing_taken h).mpr hapart⟩
      have hderives := derives_at (q := condLevel) (derives_pieces h hgrouped 0 (Nat.zero_le _)) (by decide) (by
        obtain h | h | h | h | h := level_cases h <;> rw [condLevel] <;> omega)
      refine ⟨text, hprint, fun t => ⟨?_, ?_⟩⟩
      · rintro ⟨ps, hps, ht⟩
        obtain rfl := Option.some.inj (hlex.symm.trans hps)
        exact ht.unique hderives
      · rintro rfl
        exact ⟨_, hlex, hderives⟩
    · rw [hneg] at hnot
      cases hnot

/-- `x & -(y + 0x1)` -/
def masked : Expr :=
  .binOp "&" (.name "x") (.unaryOp "-" (.binOp "+" (.name "y") (.int 1 64)))

theorem masked_reads_back :
    ∃ text, printExpr masked 0 = some text ∧ ∀ t, ReadsAs (fun _ => false) text t ↔ t = treeOf masked :=
  (printed_reads_back (.binOp (by decide) (.name rfl)
    (.unaryOp (by decide) (.binOp (by decide) (.name rfl) (.int (by decide) (by decide)))))).mpr rfl

/-- `(a == b) < c` -/
def lostParens : Expr := .compare "<" (.compare "==" (.name "a") (.name "b")) (.name "c")

/-- The comparison of a comparison is printed without parentheses and read as another one; and the least literal
    is not printed at all. -/
theorem lostParens_read_otherwise :
    Printable (fun _ => false) lostParens ∧ printExpr lostParens 0 = some "a == b < c" ∧
      ¬ ReadsAs (fun _ => false) "a == b < c" (treeOf lostParens) ∧
      Printable (fun _ => false) (.int (-2 ^ 63) 64) ∧ printExpr (.int (-2 ^ 63) 64) 0 = none := by
  have hprintable : Printable (fun _ => false) lostParens :=
    .compare (by decide) (.compare (by decide) (.name rfl) (.name rfl)) (.name rfl)
  have hprint : printExpr lostParens 0 = some "a == b < c" := rfl
  refine ⟨hprintable, hprint, fun hreads => ?_, .int (by decide) (by decide), rfl⟩
  cases faithful_of_reads hprintable hprint hreads

end Windy.Decompiler.V2
