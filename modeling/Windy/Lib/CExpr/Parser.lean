import Windy.Lib.CExpr.Grammar

/- A parser of C expressions by precedence climbing, which finds what the grammar derives.

   The parser takes steps from a number that is given to it. `Settles` says what it gives with
   enough of them, and from the rules of the grammar follows what it settles to (`Derives.parse`).
   Therefore a text derives one tree at most (`Derives.unique`). -/
namespace CExpr
open Munch

variable {isType : List Char → Bool}

/-! ## The parser -/

def expect (p : Piece) : List Piece → Option (List Piece)
  | [] => none
  | a :: ts => if a = p then some ts else none

def startsType (isType : List Char → Bool) : List Piece → Bool
  | [] => false
  | a :: _ => isTypeWord isType a

mutual
/-- A cast expression: unary operators and casts, then an operand. -/
def operand (isType : List Char → Bool) : Nat → List Piece → Option (Tree × List Piece)
  | 0, _ => none
  | _ + 1, [] => none
  | n + 1, .word w :: ts =>
    if isName isType w then
      if ts.head? = some lparen then
        (callArgs isType n ts.tail).map fun x => (.call w x.1, x.2)
      else some (.name w, ts)
    else (readConstant w).map fun k => (.lit k, ts)
  | _ + 1, .blank :: _ => none
  | n + 1, .punct p :: ts =>
    if .punct p = lparen then
      if startsType isType ts then
        let ty := ts.takeWhile (· ≠ rparen)
        if isTypeName isType ty then
          (expect rparen (ts.drop ty.length)).bind fun us => (operand isType n us).map fun x => (.cast ty x.1, x.2)
        else none
      else (expr isType n ts).bind fun x => (expect rparen x.2).map fun us => (x.1, us)
    else if p ∈ unaryOps then (operand isType n ts).map fun x => (.unary p x.1, x.2)
    else none

/-- An operand and the operators of the level or a tighter one that follow. -/
def climb (isType : List Char → Bool) : Nat → Nat → List Piece → Option (Tree × List Piece)
  | 0, _, _ => none
  | n + 1, m, ts => (operand isType n ts).bind fun x => loop isType n m x.1 x.2

def loop (isType : List Char → Bool) : Nat → Nat → Tree → List Piece → Option (Tree × List Piece)
  | 0, _, _, _ => none
  | n + 1, m, l, ts =>
    match ts with
    | .punct op :: us =>
      match binLevel op with
      | some p =>
        if m ≤ p then (climb isType n (p + 1) us).bind fun x => loop isType n m (.bin op l x.1) x.2
        else some (l, ts)
      | none => some (l, ts)
    | _ => some (l, ts)

def expr (isType : List Char → Bool) : Nat → List Piece → Option (Tree × List Piece)
  | 0, _ => none
  | n + 1, ts =>
    (climb isType n (condLevel + 1) ts).bind fun c =>
      if c.2.head? = some question then
        (expr isType n c.2.tail).bind fun a => (expect colon a.2).bind fun us =>
          (expr isType n us).map fun b => (.cond c.1 a.1 b.1, b.2)
      else some c

/-- The arguments of a call and its closing parenthesis. -/
def callArgs (isType : List Char → Bool) : Nat → List Piece → Option (List Tree × List Piece)
  | 0, _ => none
  | n + 1, ts =>
    if ts.head? = some rparen then some ([], ts.tail) else moreArgs isType n ts

def moreArgs (isType : List Char → Bool) : Nat → List Piece → Option (List Tree × List Piece)
  | 0, _ => none
  | n + 1, ts =>
    (expr isType n ts).bind fun x =>
      if x.2.head? = some comma then (moreArgs isType n x.2.tail).map fun y => (x.1 :: y.1, y.2)
      else (expect rparen x.2).map fun us => ([x.1], us)
end

/-! ## Functions that settle -/

section Settles

variable {α β : Type} {f : Nat → Option α}

/-- With enough steps the function gives the result. -/
def Settles (f : Nat → Option α) (r : α) : Prop := ∃ k, ∀ n, k ≤ n → f n = some r

theorem settles_of_eq {r : α} (h : ∀ n, f (n + 1) = some r) : Settles f r := by
  refine ⟨1, fun n hn => ?_⟩
  obtain ⟨m, rfl⟩ : ∃ m, n = m + 1 := ⟨n - 1, by omega⟩
  exact h m

theorem Settles.succ {f g : Nat → Option α} {r : α} (h : Settles g r) (heq : ∀ n, f (n + 1) = g n) : Settles f r := by
  obtain ⟨k, hk⟩ := h
  refine ⟨k + 1, fun n hn => ?_⟩
  obtain ⟨m, rfl⟩ : ∃ m, n = m + 1 := ⟨n - 1, by omega⟩
  rw [heq, hk m (by omega)]

theorem Settles.bind {g : Nat → α → Option β} {a : α} {r : β} (hf : Settles f a)
    (hg : Settles (fun n => g n a) r) : Settles (fun n => (f n).bind (g n)) r := by
  obtain ⟨k, hk⟩ := hf
  obtain ⟨l, hl⟩ := hg
  refine ⟨max k l, fun n hn => ?_⟩
  show (f n).bind (g n) = some r
  rw [hk n (by omega), Option.bind_some]
  exact hl n (by omega)

theorem Settles.map {a : α} (hf : Settles f a) (g : α → β) :
    Settles (fun n => (f n).map g) (g a) := by
  obtain ⟨k, hk⟩ := hf
  refine ⟨k, fun n hn => ?_⟩
  show (f n).map g = some (g a)
  rw [hk n hn, Option.map_some]

theorem Settles.unique {a b : α} (ha : Settles f a) (hb : Settles f b) : a = b := by
  obtain ⟨k, hk⟩ := ha
  obtain ⟨l, hl⟩ := hb
  exact Option.some.inj ((hk (max k l) (by omega)).symm.trans (hl (max k l) (by omega)))

end Settles

/-! ## The parser finds what the grammar derives -/

/-- What follows does not belong to an expression of the level. -/
def Follows (p : Nat) (rest : List Piece) : Prop :=
  ∀ a ∈ rest.head?, a ≠ lparen ∧ ∀ op q, a = .punct op → binLevel op = some q → q ≤ p

/-- What follows belongs to no expression. -/
def Ends (rest : List Piece) : Prop := Follows condLevel rest ∧ rest.head? ≠ some question

theorem ends_nil : Ends [] := by
  refine ⟨fun a ha => ?_, ?_⟩
  · cases ha
  · simp

theorem ends_cons {a : Piece} (h : a = rparen ∨ a = comma ∨ a = colon) (rest : List Piece) : Ends (a :: rest) := by
  have hlevel : ∀ op, a = .punct op → binLevel op = none := by
    intro op hop
    obtain rfl | rfl | rfl := h <;> obtain rfl := Piece.punct.inj hop <;> decide
  refine ⟨fun b hb => ?_, ?_⟩
  · obtain rfl : a = b := Option.some.inj hb
    refine ⟨?_, fun op q hop hq => ?_⟩
    · obtain rfl | rfl | rfl := h <;> decide
    · rw [hlevel op hop] at hq
      cases hq
  · rw [List.head?_cons]
    obtain rfl | rfl | rfl := h <;> decide

theorem Follows.mono {p q : Nat} {rest : List Piece} (h : Follows p rest) (hle : p ≤ q) : Follows q rest := by
  intro a ha
  obtain ⟨hparen, hlevel⟩ := h a ha
  exact ⟨hparen, fun op k hop hk => Nat.le_trans (hlevel op k hop hk) hle⟩

theorem Follows.head {p : Nat} {rest : List Piece} (h : Follows p rest) : rest.head? ≠ some lparen :=
  fun hhead => (h lparen hhead).1 rfl

theorem follows_op {op : List Char} {p : Nat} (h : binLevel op = some p) (rest : List Piece) :
    Follows p (.punct op :: rest) := by
  intro a ha
  obtain rfl := Option.some.inj ha
  refine ⟨?_, fun op' q hop hq => ?_⟩
  · intro hparen
    obtain rfl := Piece.punct.inj hparen
    cases h
  · obtain rfl := Piece.punct.inj hop
    exact (Option.some.inj (h.symm.trans hq)).ge

theorem loop_stops {p m : Nat} (hlt : p < m) {rest : List Piece} (h : Follows p rest) (t : Tree) :
    Settles (fun n => loop isType n m t rest) (t, rest) := by
  refine settles_of_eq fun n => ?_
  cases rest with
  | nil => rfl
  | cons a rest =>
    cases a with
    | blank => rfl
    | word => rfl
    | punct op =>
      rw [loop]
      cases hop : binLevel op with
      | none => rfl
      | some q =>
        have := (h (.punct op) rfl).2 op q rfl hop
        simp only
        rw [if_neg (by omega)]

theorem loop_takes {op : List Char} {p m : Nat} (hop : binLevel op = some p) (hle : m ≤ p) {l r : Tree}
    {us vs : List Piece} {res : Tree × List Piece} (hr : Settles (fun n => climb isType n (p + 1) us) (r, vs))
    (hrest : Settles (fun n => loop isType n m (.bin op l r) vs) res) :
    Settles (fun n => loop isType n m l (.punct op :: us)) res := by
  refine (hr.bind (g := fun n x => loop isType n m (.bin op l x.1) x.2) hrest).succ fun n => ?_
  rw [loop]
  simp only [hop]
  rw [if_pos hle]

/-- The parser finds the tree, whatever follows that does not belong to it. -/
structure Found (isType : List Char → Bool) (p : Nat) (ts : List Piece) (t : Tree) : Prop where
  operand : unaryLevel ≤ p → ∀ rest, rest.head? ≠ some lparen →
    Settles (fun n => operand isType n (ts ++ rest)) (t, rest)
  climb : condLevel < p → ∀ m rest res, m ≤ p → Follows p rest → Settles (fun n => loop isType n m t rest) res →
    Settles (fun n => climb isType n m (ts ++ rest)) res
  expr : ∀ rest, Ends rest → Settles (fun n => expr isType n (ts ++ rest)) (t, rest)

/-- A conditional expression is one without `?` unless one follows. -/
theorem expr_of_climb {ts rest : List Piece} {t : Tree} (hends : rest.head? ≠ some question)
    (h : Settles (fun n => climb isType n (condLevel + 1) (ts ++ rest)) (t, rest)) :
    Settles (fun n => expr isType n (ts ++ rest)) (t, rest) := by
  refine (h.bind (g := fun n c => if c.2.head? = some question then
      (expr isType n c.2.tail).bind fun a => (expect colon a.2).bind fun us =>
        (expr isType n us).map fun b => (.cond c.1 a.1 b.1, b.2)
    else some c) ?_).succ fun n => ?_
  · exact settles_of_eq fun n => if_neg hends
  · rw [expr]

variable {ts : List Piece}

theorem found_of_climb {p : Nat} {t : Tree} (hlow : condLevel < p) (hhigh : p < unaryLevel)
    (h : ∀ m rest res, m ≤ p → Follows p rest → Settles (fun n => loop isType n m t rest) res →
      Settles (fun n => climb isType n m (ts ++ rest)) res) : Found isType p ts t := by
  refine ⟨fun hle => ?_, fun _ => h, fun rest hends => ?_⟩
  · omega
  · exact expr_of_climb hends.2 (h _ rest _ (by omega) (hends.1.mono (by omega)) (loop_stops (by omega) hends.1 t))

theorem found_of_operand {p : Nat} {t : Tree}
    (h : ∀ rest, rest.head? ≠ some lparen → Settles (fun n => operand isType n (ts ++ rest)) (t, rest)) :
    Found isType p ts t := by
  have hclimb : ∀ m rest res q, Follows q rest → Settles (fun n => loop isType n m t rest) res →
      Settles (fun n => climb isType n m (ts ++ rest)) res := by
    intro m rest res q hfollows hloop
    refine ((h rest hfollows.head).bind (g := fun n x => loop isType n m x.1 x.2) hloop).succ fun n => ?_
    rw [climb]
  refine ⟨fun _ => h, fun _ m rest res _ => hclimb m rest res p, fun rest hends => ?_⟩
  exact expr_of_climb hends.2 (hclimb _ rest _ _ hends.1 (loop_stops (by omega) hends.1 t))

/-- The arguments up to the closing parenthesis. -/
theorem settles_moreArgs {parts : List (List Piece × Tree)} (hne : parts ≠ [])
    (h : ∀ part ∈ parts, Found isType condLevel part.1 part.2) (rest : List Piece) :
    Settles (fun n => moreArgs isType n ([comma].intercalate (parts.map Prod.fst) ++ rparen :: rest))
      (parts.map Prod.snd, rest) := by
  induction parts with
  | nil => exact absurd rfl hne
  | cons part parts ih =>
    have hpart := (h part List.mem_cons_self).expr
    cases parts with
    | nil =>
      have hfirst := hpart (rparen :: rest) (ends_cons (.inl rfl) rest)
      have htext : [comma].intercalate ([part].map Prod.fst) ++ rparen :: rest = part.1 ++ rparen :: rest := by simp
      rw [htext]
      refine (hfirst.bind (g := fun n x =>
        if x.2.head? = some comma then (moreArgs isType n x.2.tail).map fun y => (x.1 :: y.1, y.2)
        else (expect rparen x.2).map fun us => ([x.1], us)) ?_).succ fun n => ?_
      · refine settles_of_eq fun n => ?_
        simp [expect, comma, rparen]
      · rw [moreArgs]
    | cons part' parts =>
      have hmore := ih (List.cons_ne_nil _ _) fun q hq => h q (List.mem_cons_of_mem part hq)
      rw [List.map_cons, List.map_cons, List.intercalate_cons_cons, List.append_assoc, List.append_assoc]
      rw [← List.map_cons (f := Prod.fst)]
      have hfirst := hpart (comma :: ([comma].intercalate ((part' :: parts).map Prod.fst) ++ rparen :: rest))
        (ends_cons (.inr (.inl rfl)) _)
      refine (hfirst.bind (g := fun n x =>
        if x.2.head? = some comma then (moreArgs isType n x.2.tail).map fun y => (x.1 :: y.1, y.2)
        else (expect rparen x.2).map fun us => ([x.1], us)) ?_).succ fun n => ?_
      · exact (hmore.map fun y => (part.2 :: y.1, y.2))
      · rw [moreArgs]
        rfl

theorem takeWhile_typeName {ty : List Piece} (h : isTypeName isType ty = true) (rest : List Piece) :
    (ty ++ rparen :: rest).takeWhile (· ≠ rparen) = ty := by
  have hty : ∀ p ∈ ty, decide (p ≠ rparen) = true := by
    intro p hp
    rw [decide_eq_true_eq]
    exact (plain_of_typeName h p hp).2
  rw [List.takeWhile_append_of_pos hty]
  simp

theorem startsType_of_typeName {ty : List Piece} (h : isTypeName isType ty = true) (rest : List Piece) :
    startsType isType (ty ++ rest) = true := by
  cases ty with
  | nil => cases h
  | cons p ps => exact (Bool.and_eq_true_iff.mp h).1

theorem operand_paren (n : Nat) (h : startsType isType ts = false) :
    operand isType (n + 1) (lparen :: ts) =
      (expr isType n ts).bind fun x => (expect rparen x.2).map fun us => (x.1, us) := by
  rw [lparen, operand, if_pos (show Piece.punct ['('] = lparen from rfl), h]
  rfl

theorem operand_cast (n : Nat) {ty : List Piece} (h : isTypeName isType ty = true) (us : List Piece) :
    operand isType (n + 1) (lparen :: (ty ++ rparen :: us)) =
      (operand isType n us).map fun x => (.cast ty x.1, x.2) := by
  rw [lparen, operand, if_pos (show Piece.punct ['('] = lparen from rfl), startsType_of_typeName h,
    takeWhile_typeName h]
  simp only [if_pos h, List.drop_left]
  rfl

theorem Derives.found {p : Nat} {t : Tree} (h : Derives isType p ts t) : Found isType p ts t := by
  induction h with
  | name hw =>
    refine found_of_operand fun rest hrest => settles_of_eq fun n => ?_
    rw [List.singleton_append, operand, if_pos hw, if_neg hrest]
  | lit hk =>
    refine found_of_operand fun rest _ => settles_of_eq fun n => ?_
    rw [List.singleton_append, operand, isName, not_ident_of_readConstant hk, Bool.false_and, if_neg (by decide), hk]
    rfl
  | paren h ih =>
    refine found_of_operand fun rest _ => ?_
    obtain ⟨a, tail, rfl, htype, -⟩ := h.head
    have hinner := ih.expr (rparen :: rest) (ends_cons (.inl rfl) rest)
    refine (hinner.bind (g := fun _ x => (expect rparen x.2).map fun us => (x.1, us))
      (settles_of_eq fun n => rfl)).succ fun n => ?_
    have htext : lparen :: (a :: tail) ++ [rparen] ++ rest = lparen :: (a :: tail ++ rparen :: rest) := by simp
    have hstarts : startsType isType (a :: tail ++ rparen :: rest) = false := htype
    rw [htext, operand_paren n hstarts]
  | @call w parts hw h ih =>
    refine found_of_operand fun rest _ => ?_
    rw [List.cons_append, List.cons_append, List.append_assoc, List.singleton_append]
    have hstep : ∀ n ts, operand isType (n + 1) (.word w :: lparen :: ts) =
        (callArgs isType n ts).map fun x => (.call w x.1, x.2) := by
      intro n ts
      rw [operand, if_pos hw, List.head?_cons, if_pos rfl, List.tail_cons]
    have hargs : Settles (fun n => callArgs isType n ([comma].intercalate (parts.map Prod.fst) ++ rparen :: rest))
        (parts.map Prod.snd, rest) := by
      cases parts with
      | nil => exact settles_of_eq fun n => rfl
      | cons part parts =>
        refine (settles_moreArgs (List.cons_ne_nil part parts) ih rest).succ fun n => ?_
        -- the first argument does not begin with the closing parenthesis
        obtain ⟨a, tail, hhead, -, hparen⟩ := (h part List.mem_cons_self).head
        have hfront : ([comma].intercalate ((part :: parts).map Prod.fst) ++ rparen :: rest).head? = some a := by
          cases parts with
          | nil => simp [hhead]
          | cons => rw [List.map_cons, List.map_cons, List.intercalate_cons_cons, hhead]; rfl
        rw [callArgs, hfront, if_neg (fun heq => hparen (Option.some.inj heq))]
    exact (hargs.map fun x => (Tree.call w x.1, x.2)).succ fun n => hstep n _
  | unary hop h ih =>
    refine found_of_operand fun rest hrest => ?_
    have hnot : ∀ op ∈ unaryOps, Piece.punct op ≠ lparen := by decide
    refine ((ih.operand (Nat.le_refl _) rest hrest).map fun x => (Tree.unary _ x.1, x.2)).succ fun n => ?_
    rw [List.cons_append, operand, if_neg (hnot _ hop), if_pos hop]
  | cast hty h ih =>
    refine found_of_operand fun rest hrest => ?_
    refine ((ih.operand (Nat.le_refl _) rest hrest).map fun x => (Tree.cast _ x.1, x.2)).succ fun n => ?_
    rw [List.cons_append, List.cons_append, List.append_assoc, List.cons_append, operand_cast n hty]
  | bin hop hl hr ihl ihr =>
    obtain ⟨hlow, hhigh⟩ := binLevel_bounds hop
    refine found_of_climb (by rw [condLevel]; omega) (by rw [unaryLevel]; omega) fun m rest res hm hfollows hloop => ?_
    rw [List.append_assoc, List.cons_append]
    have hright := ihr.climb (by rw [condLevel]; omega) _ rest _ (Nat.le_refl _) (hfollows.mono (Nat.le_succ _))
      (loop_stops (Nat.lt_succ_self _) hfollows _)
    exact ihl.climb (by rw [condLevel]; omega) m _ res hm (follows_op hop _) (loop_takes hop hm hright hloop)
  | @cond c a b x y z hc ha hb ihc iha ihb =>
    refine ⟨fun hle => absurd hle (by decide), fun hlow => absurd hlow (by decide), fun rest hends => ?_⟩
    rw [List.append_assoc, List.cons_append, List.append_assoc, List.cons_append]
    have hquestion : Follows condLevel (question :: (a ++ colon :: (b ++ rest))) := by
      intro p hp
      obtain rfl := Option.some.inj hp
      refine ⟨by decide, fun op q hop hq => ?_⟩
      obtain rfl := Piece.punct.inj hop
      cases hq
    have hfirst := ihc.climb (by decide) _ _ _ (Nat.le_refl _) (hquestion.mono (by decide))
      (loop_stops (m := condLevel + 1) (by decide) hquestion x)
    have hsecond := iha.expr (colon :: (b ++ rest)) (ends_cons (.inr (.inr rfl)) _)
    have hthird := (ihb.expr rest hends).map fun r => (Tree.cond x y r.1, r.2)
    refine (hfirst.bind (g := fun n c => if c.2.head? = some question then
        (expr isType n c.2.tail).bind fun a => (expect colon a.2).bind fun us =>
          (expr isType n us).map fun b => (.cond c.1 a.1 b.1, b.2)
      else some c) ?_).succ fun n => ?_
    · exact hsecond.bind hthird
    · rw [expr]
  | up h ih =>
    exact ⟨fun hle => ih.operand (by omega), fun hlow m rest res hm hfollows =>
      ih.climb (by omega) m rest res (by omega) (hfollows.mono (Nat.le_succ _)), ih.expr⟩

/-- With enough steps the parser finds the tree and leaves nothing over. -/
theorem Derives.parse {p : Nat} {t : Tree} (h : Derives isType p ts t) :
    Settles (fun n => expr isType n ts) (t, []) := by
  have := h.found.expr [] ends_nil
  rwa [List.append_nil] at this

/-- A text derives one tree at most. -/
theorem Derives.unique {p q : Nat} {t u : Tree} (ht : Derives isType p ts t)
    (hu : Derives isType q ts u) : t = u := (Prod.mk.inj (ht.parse.unique hu.parse)).1

end CExpr
