import Windy.Lib.CExpr.Grammar

/- What can be read off the text of a C expression without parsing it.

   What is proved:
     `Derives.balanced`: a derived text closes the parentheses it opens;
     `Derives.leaves`: without them its pieces are those of the tree, from left to right;
     `Derives.rooted`: it is a text in parentheses, or it is made by the rule of its tree. -/
namespace CExpr
open Munch

variable {isType : List Char → Bool} {ts : List Piece}

/-! ## Parentheses -/

/-- What a piece does to the number of open parentheses; none can close that is not open. -/
def step (d : Nat) (p : Piece) : Option Nat :=
  if p = lparen then some (d + 1)
  else if p = rparen then if d = 0 then none else some (d - 1)
  else some d

def balance : Nat → List Piece → Option Nat
  | d, [] => some d
  | d, p :: ts => (step d p).bind fun k => balance k ts

/-- A text that closes what it opens and nothing else. -/
def Balanced (ts : List Piece) : Prop := ∀ d, balance d ts = some d

theorem balance_append (d : Nat) (ts us : List Piece) : balance d (ts ++ us) = (balance d ts).bind (balance · us) := by
  induction ts generalizing d with
  | nil => rfl
  | cons p ts ih =>
    simp only [List.cons_append, balance, ih, Option.bind_assoc]

theorem step_succ {d k : Nat} {p : Piece} (h : step d p = some k) : step (d + 1) p = some (k + 1) := by
  unfold step at h ⊢
  repeat' split at h
  all_goals simp_all
  omega

theorem balance_succ {d k : Nat} (h : balance d ts = some k) : balance (d + 1) ts = some (k + 1) := by
  induction ts generalizing d with
  | nil => exact congrArg (Option.map Nat.succ) h
  | cons p ts ih =>
    obtain ⟨e, he, hrest⟩ := Option.bind_eq_some_iff.mp h
    rw [balance, step_succ he, Option.bind_some, ih hrest]

theorem balanced_nil : Balanced [] := fun _ => rfl

theorem Balanced.append {ts us : List Piece} (ht : Balanced ts) (hu : Balanced us) : Balanced (ts ++ us) := by
  intro d
  rw [balance_append, ht d]
  exact hu d

theorem Balanced.cons {p : Piece} (hl : p ≠ lparen) (hr : p ≠ rparen) (h : Balanced ts) :
    Balanced (p :: ts) := by
  intro d
  rw [balance, step, if_neg hl, if_neg hr, Option.bind_some]
  exact h d

theorem balanced_word (w : List Char) (h : Balanced ts) : Balanced (.word w :: ts) :=
  Balanced.cons (p := .word w) nofun nofun h

theorem Balanced.wrap {ts us : List Piece} (ht : Balanced ts) (hu : Balanced us) :
    Balanced (lparen :: (ts ++ rparen :: us)) := by
  intro d
  rw [balance, step, if_pos rfl, Option.bind_some, balance_append, ht (d + 1)]
  exact hu d

theorem balanced_of_plain (h : ∀ p ∈ ts, p ≠ lparen ∧ p ≠ rparen) : Balanced ts := by
  induction ts with
  | nil => exact balanced_nil
  | cons p ts ih =>
    obtain ⟨hl, hr⟩ := h p List.mem_cons_self
    exact (ih fun q hq => h q (List.mem_cons_of_mem p hq)).cons hl hr

theorem balanced_intercalate {ls : List (List Piece)} (h : ∀ l ∈ ls, Balanced l) :
    Balanced ([comma].intercalate ls) := by
  induction ls with
  | nil => exact balanced_nil
  | cons l ls ih =>
    cases ls with
    | nil => simpa using h l List.mem_cons_self
    | cons m ms =>
      rw [List.intercalate_cons_cons, List.append_assoc]
      have hrest := ih fun k hk => h k (List.mem_cons_of_mem l hk)
      exact (h l List.mem_cons_self).append (hrest.cons (by decide) (by decide))

theorem op_ne_lparen {op : List Char} {p : Nat} (h : binLevel op = some p) : Piece.punct op ≠ lparen := by
  intro heq
  obtain rfl := Piece.punct.inj heq
  cases h

theorem op_ne_rparen {op : List Char} {p : Nat} (h : binLevel op = some p) : Piece.punct op ≠ rparen := by
  intro heq
  obtain rfl := Piece.punct.inj heq
  cases h

theorem Derives.balanced {p : Nat} {t : Tree} (h : Derives isType p ts t) : Balanced ts := by
  induction h with
  | name => exact balanced_word _ balanced_nil
  | lit => exact balanced_word _ balanced_nil
  | paren _ ih => exact ih.wrap balanced_nil
  | call _ _ ih =>
    have hargs := balanced_intercalate (List.forall_mem_map.mpr ih)
    exact balanced_word _ (hargs.wrap balanced_nil)
  | unary hop _ ih =>
    have hnot : ∀ op ∈ unaryOps, Piece.punct op ≠ lparen ∧ Piece.punct op ≠ rparen := by decide
    exact ih.cons (hnot _ hop).1 (hnot _ hop).2
  | cast hty _ ih => exact (balanced_of_plain (plain_of_typeName hty)).wrap ih
  | bin hop _ _ ihl ihr => exact ihl.append (ihr.cons (op_ne_lparen hop) (op_ne_rparen hop))
  | cond _ _ _ ihc iha ihb =>
    exact ihc.append ((iha.append (ihb.cons (by decide) (by decide))).cons (by decide) (by decide))
  | up _ ih => exact ih

/-- What is in a pair of parentheses cannot be cut behind a balanced text at its front. -/
theorem not_wrapped {us x y : List Piece} {a : Piece} (hus : Balanced us) (hx : Balanced x) (hne : x ≠ []) :
    lparen :: (us ++ [rparen]) ≠ x ++ a :: y := by
  intro h
  cases x with
  | nil => exact hne rfl
  | cons b x =>
    rw [List.cons_append] at h
    obtain ⟨rfl, htail⟩ := List.cons.inj h
    -- what follows the parenthesis in `x` is a front part of `us` that closes it
    have hprefix : x <+: us := by
      have hlength := congrArg List.length htail
      simp only [List.length_append, List.length_cons, List.length_nil] at hlength
      exact List.prefix_of_prefix_length_le ⟨a :: y, htail.symm⟩ (List.prefix_append us [rparen]) (by omega)
    obtain ⟨z, rfl⟩ := hprefix
    have hinner := hus 0
    rw [balance_append] at hinner
    obtain ⟨k, hk, -⟩ := Option.bind_eq_some_iff.mp hinner
    have hclosed : balance 1 x = some 0 := hx 0
    rw [balance_succ hk] at hclosed
    cases hclosed

/-! ## What a derived text has besides parentheses -/

/-- A numeral as a hexadecimal constant. -/
def hexText (n : Nat) : List Char := '0' :: 'x' :: Nat.toDigits 16 n

/-- A constant by its value, any other piece as it is. -/
def spell : Piece → Piece
  | .word w => .word (((readConstant w).map hexText).getD w)
  | p => p

/-- The pieces without the parentheses. -/
def core (ts : List Piece) : List Piece :=
  ts.flatMap fun p => if p = lparen ∨ p = rparen then [] else [spell p]

@[simp] theorem core_nil : core [] = [] := rfl
@[simp] theorem core_append (ts us : List Piece) : core (ts ++ us) = core ts ++ core us := List.flatMap_append
@[simp] theorem core_lparen (ts : List Piece) : core (lparen :: ts) = core ts := rfl
@[simp] theorem core_rparen (ts : List Piece) : core (rparen :: ts) = core ts := rfl

theorem core_cons {p : Piece} (hl : p ≠ lparen) (hr : p ≠ rparen) (ts : List Piece) :
    core (p :: ts) = spell p :: core ts := by
  rw [core, List.flatMap_cons, if_neg (not_or.mpr ⟨hl, hr⟩)]
  rfl

theorem core_intercalate (ls : List (List Piece)) :
    core ([comma].intercalate ls) = [comma].intercalate (ls.map core) := by
  induction ls with
  | nil => rfl
  | cons l ls ih =>
    cases ls with
    | nil => simp
    | cons m ms =>
      rw [List.intercalate_cons_cons, core_append, core_append, ih]
      simp only [List.map_cons]
      rw [List.intercalate_cons_cons]
      rfl

mutual
/-- The pieces of a tree from left to right. -/
def Tree.leaves : Tree → List Piece
  | .name w => [.word w]
  | .lit n => [.word (hexText n)]
  | .unary op x => .punct op :: x.leaves
  | .cast ty x => ty ++ x.leaves
  | .call w args => .word w :: [comma].intercalate (leavesOf args)
  | .bin op x y => x.leaves ++ .punct op :: y.leaves
  | .cond x y z => x.leaves ++ question :: (y.leaves ++ colon :: z.leaves)

def leavesOf : List Tree → List (List Piece)
  | [] => []
  | x :: xs => x.leaves :: leavesOf xs
end

theorem leavesOf_eq_map (xs : List Tree) : leavesOf xs = xs.map Tree.leaves := by
  induction xs with
  | nil => rfl
  | cons x xs ih => rw [leavesOf, ih, List.map_cons]

theorem readConstant_ident {w : List Char} (h : isIdent w = true) : readConstant w = none := by
  cases hk : readConstant w with
  | none => rfl
  | some k => rw [not_ident_of_readConstant hk] at h; cases h

theorem spell_ident {w : List Char} (h : isIdent w = true) : spell (.word w) = .word w := by
  rw [spell, readConstant_ident h]
  rfl

theorem ident_of_name {w : List Char} (h : isName isType w = true) : isIdent w = true :=
  (Bool.and_eq_true_iff.mp h).1

theorem core_word (w : List Char) (ts : List Piece) : core (.word w :: ts) = spell (.word w) :: core ts :=
  core_cons (p := .word w) nofun nofun ts

theorem core_typeName {ty : List Piece} (h : isTypeName isType ty = true) : core ty = ty := by
  have hone : ∀ p ∈ ty, (if p = lparen ∨ p = rparen then [] else [spell p]) = [p] := by
    intro p hp
    obtain rfl | ⟨w, rfl, hw⟩ := pieces_of_typeName h p hp
    · rfl
    · rw [spell_ident hw]
      exact if_neg (by rintro (h | h) <;> cases h)
  rw [core, List.flatMap_def, List.map_congr_left hone, ← List.flatMap_def, List.flatMap_singleton']

theorem Derives.leaves {p : Nat} {ts : List Piece} {t : Tree} (h : Derives isType p ts t) : core ts = t.leaves := by
  induction h with
  | name hw => rw [core_word, spell_ident (ident_of_name hw)]; rfl
  | lit hk => rw [core_word, spell, hk]; rfl
  | paren _ ih => rw [List.cons_append, core_lparen, core_append, ih]; simp
  | call hw _ ih =>
    rw [List.cons_append, core_word, spell_ident (ident_of_name hw), List.cons_append, core_lparen, core_append,
      core_intercalate, core_rparen, core_nil, List.append_nil, Tree.leaves, leavesOf_eq_map, List.map_map,
      List.map_map]
    have hparts := List.map_congr_left ih
    exact congrArg (fun ls => _ :: [comma].intercalate ls) hparts
  | unary hop _ ih =>
    have hnot : ∀ op ∈ unaryOps, Piece.punct op ≠ lparen ∧ Piece.punct op ≠ rparen := by decide
    rw [core_cons (hnot _ hop).1 (hnot _ hop).2, ih]
    rfl
  | cast hty _ ih => rw [List.cons_append, core_lparen, core_append, core_rparen, ih, core_typeName hty]; rfl
  | bin hop _ _ ihl ihr => rw [core_append, core_cons (op_ne_lparen hop) (op_ne_rparen hop), ihl, ihr]; rfl
  | cond _ _ _ ihc iha ihb =>
    rw [core_append, core_cons (by decide) (by decide), core_append, core_cons (by decide) (by decide), ihc, iha, ihb]
    rfl
  | up _ ih => exact ih

/-- Where a text is cut at a piece shows in what stands before it. -/
theorem cut_unique {l l' r r' : List Piece} {a b : Piece} (ha : a ≠ lparen ∧ a ≠ rparen) (hb : b ≠ lparen ∧ b ≠ rparen)
    (hcore : core l = core l') (h : l ++ a :: r = l' ++ b :: r') : l = l' ∧ r = r' := by
  have hcons : ∀ {p : Piece} {ts : List Piece}, p ≠ lparen ∧ p ≠ rparen → core (p :: ts) ≠ [] := by
    intro p ts hp
    rw [core_cons hp.1 hp.2]
    exact List.cons_ne_nil _ _
  induction l generalizing l' with
  | nil =>
    cases l' with
    | nil => exact ⟨rfl, (List.cons.inj h).2⟩
    | cons c l' => exact absurd hcore.symm ((List.cons.inj h).1 ▸ hcons ha)
  | cons c l ih =>
    cases l' with
    | nil => exact absurd hcore ((List.cons.inj h).1 ▸ hcons hb)
    | cons d l' =>
      obtain ⟨rfl, htail⟩ := List.cons.inj h
      have hrest : core l = core l' := by
        rw [core, core, List.flatMap_cons, List.flatMap_cons] at hcore
        exact List.append_cancel_left hcore
      obtain ⟨rfl, hr⟩ := ih hrest htail
      exact ⟨rfl, hr⟩

/-! ## How a text was derived -/

/-- The text is made by the rule of its tree, at the level or a tighter one. -/
def Rooted (isType : List Char → Bool) (q : Nat) (ts : List Piece) : Tree → Prop
  | .name w => ts = [.word w]
  | .lit k => ∃ w, ts = [.word w] ∧ readConstant w = some k
  | .unary op x => op ∈ unaryOps ∧ ∃ us, ts = .punct op :: us ∧ Derives isType unaryLevel us x
  | .cast ty x => isTypeName isType ty = true ∧ ∃ us, ts = lparen :: (ty ++ rparen :: us) ∧
      Derives isType unaryLevel us x
  | .call w args => ∃ parts : List (List Piece × Tree), (∀ part ∈ parts, Derives isType condLevel part.1 part.2) ∧
      args = parts.map Prod.snd ∧
      ts = .word w :: lparen :: ([comma].intercalate (parts.map Prod.fst) ++ [rparen])
  | .bin op x y => ∃ p l r, q ≤ p ∧ binLevel op = some p ∧ ts = l ++ .punct op :: r ∧ Derives isType p l x ∧
      Derives isType (p + 1) r y
  | .cond x y z => q ≤ condLevel ∧ ∃ c a b, ts = c ++ question :: (a ++ colon :: b) ∧
      Derives isType (condLevel + 1) c x ∧ Derives isType condLevel a y ∧ Derives isType condLevel b z

theorem Rooted.mono {q q' : Nat} (hle : q ≤ q') {ts : List Piece} {t : Tree} (h : Rooted isType q' ts t) :
    Rooted isType q ts t := by
  cases t with
  | bin op x y =>
    obtain ⟨p, l, r, hp, hrest⟩ := h
    exact ⟨p, l, r, hle.trans hp, hrest⟩
  | cond x y z => exact ⟨hle.trans h.1, h.2⟩
  | _ => exact h

/-- A derived text is in parentheses or is made by the rule of its tree. -/
theorem Derives.rooted {q : Nat} {ts : List Piece} {t : Tree} (h : Derives isType q ts t) :
    (∃ us, ts = lparen :: (us ++ [rparen]) ∧ Derives isType condLevel us t) ∨ Rooted isType q ts t := by
  induction h with
  | name => exact .inr rfl
  | lit hk => exact .inr ⟨_, rfl, hk⟩
  | paren h => exact .inl ⟨_, rfl, h⟩
  | call _ h => exact .inr ⟨_, h, rfl, rfl⟩
  | unary hop h => exact .inr ⟨hop, _, rfl, h⟩
  | cast hty h => exact .inr ⟨hty, _, rfl, h⟩
  | bin hop hl hr => exact .inr ⟨_, _, _, Nat.le_refl _, hop, rfl, hl, hr⟩
  | cond hc ha hb => exact .inr ⟨Nat.le_refl _, _, _, _, rfl, hc, ha, hb⟩
  | up _ ih => exact ih.imp_right (Rooted.mono (Nat.le_succ _))

theorem not_wrapped_cast {us ty vs : List Piece} (hus : Balanced us) (hty : isTypeName isType ty = true)
    (hvs : vs ≠ []) : lparen :: (us ++ [rparen]) ≠ lparen :: (ty ++ rparen :: vs) := by
  intro h
  obtain ⟨a, y, rfl⟩ := List.exists_cons_of_ne_nil hvs
  have hfront : Balanced (lparen :: (ty ++ rparen :: [])) :=
    (balanced_of_plain (plain_of_typeName hty)).wrap balanced_nil
  have htext : lparen :: (ty ++ rparen :: a :: y) = lparen :: (ty ++ rparen :: []) ++ a :: y := by simp
  exact not_wrapped hus hfront (List.cons_ne_nil _ _) (h.trans htext)

/-- The rule of a tree does not put a pair of parentheses around everything. -/
theorem not_rooted_wrapped {q : Nat} {us : List Piece} {t : Tree} (hus : Balanced us) :
    ¬ Rooted isType q (lparen :: (us ++ [rparen])) t := by
  intro h
  cases t with
  | name => cases h
  | lit =>
    obtain ⟨w, hw, -⟩ := h
    cases hw
  | unary =>
    obtain ⟨hop, vs, hvs, -⟩ := h
    have hnot : ∀ op ∈ unaryOps, lparen ≠ .punct op := by decide
    exact hnot _ hop (List.cons.inj hvs).1
  | cast =>
    obtain ⟨hty, vs, hvs, hderives⟩ := h
    exact not_wrapped_cast hus hty hderives.ne_nil hvs
  | call =>
    obtain ⟨parts, -, -, htext⟩ := h
    cases htext
  | bin =>
    obtain ⟨p, l, r, -, -, htext, hl, -⟩ := h
    exact not_wrapped hus hl.balanced hl.ne_nil htext
  | cond =>
    obtain ⟨-, c, a, b, htext, hc, -⟩ := h
    exact not_wrapped hus hc.balanced hc.ne_nil htext

/-- A text in parentheses derives what is in them. -/
theorem Derives.unwrap {q : Nat} {us : List Piece} {t : Tree} (hus : Balanced us)
    (h : Derives isType q (lparen :: (us ++ [rparen])) t) : Derives isType condLevel us t := by
  obtain ⟨vs, hvs, hderives⟩ | hrooted := h.rooted
  · rwa [List.append_cancel_right (List.cons.inj hvs).2]
  · exact absurd hrooted (not_rooted_wrapped hus)

/-- A text that can be cut behind a balanced one is made by the rule of its tree. -/
theorem Derives.rooted_of_cut {q : Nat} {x y : List Piece} {a : Piece} {t : Tree} (hx : Balanced x) (hne : x ≠ [])
    (h : Derives isType q (x ++ a :: y) t) : Rooted isType q (x ++ a :: y) t := by
  obtain ⟨us, hus, hderives⟩ | hrooted := h.rooted
  · exact absurd hus.symm (not_wrapped hderives.balanced hx hne)
  · exact hrooted

/-- Lists of arguments of one length can be read off the text between the commas. -/
theorem intercalate_inj {ls ms : List (List Piece)} (hcore : ls.map core = ms.map core)
    (h : [comma].intercalate ls = [comma].intercalate ms) : ls = ms := by
  have hcomma : comma ≠ lparen ∧ comma ≠ rparen := by decide
  induction ls generalizing ms with
  | nil =>
    rw [List.map_nil, eq_comm, List.map_eq_nil_iff] at hcore
    rw [hcore]
  | cons l ls ih =>
    cases ms with
    | nil => cases hcore
    | cons m ms =>
      obtain ⟨hhead, htail⟩ := List.cons.inj hcore
      cases ls with
      | nil =>
        rw [List.map_nil, eq_comm, List.map_eq_nil_iff] at htail
        subst htail
        simpa using h
      | cons l' ls =>
        cases ms with
        | nil => cases htail
        | cons m' ms =>
          rw [List.intercalate_cons_cons, List.intercalate_cons_cons, List.append_assoc, List.append_assoc] at h
          obtain ⟨rfl, hrest⟩ := cut_unique hcomma hcomma hhead h
          rw [ih htail hrest]

/-! ## Hexadecimal constants -/

theorem hexDigit_digitChar : ∀ d < 16, hexDigit (Nat.digitChar d) = some d := by decide

theorem number_append (b : Nat) (w : List Char) (c : Char) : number b (w ++ [c]) = addDigit b (number b w) c := by
  rw [number, List.foldl_append]
  rfl

theorem number_toDigits (n : Nat) : number 16 (Nat.toDigits 16 n) = some n := by
  induction n using Nat.strongRecOn with
  | ind n ih =>
    rw [Nat.toDigits_eq_if (by decide)]
    split
    · next hlt => simp [number, addDigit, hexDigit_digitChar n hlt, hlt]
    · have hmod := Nat.mod_lt n (show 0 < 16 by decide)
      rw [number_append, ih (n / 16) (by omega), addDigit, Option.bind_some, hexDigit_digitChar _ hmod,
        Option.bind_some, if_pos hmod, Nat.div_add_mod' n 16]

theorem readConstant_hexText (n : Nat) : readConstant (hexText n) = some n := by
  have hne : Nat.toDigits 16 n ≠ [] := List.ne_nil_of_length_pos Nat.length_toDigits_pos
  rw [hexText, readConstant, if_neg hne, number_toDigits]

theorem spell_hexText (n : Nat) : spell (.word (hexText n)) = .word (hexText n) := by
  rw [spell, readConstant_hexText]
  rfl

theorem isWordChar_digitChar : ∀ d < 16, isWordChar (Nat.digitChar d) = true := by decide

theorem isWordChar_toDigits (n : Nat) : ∀ c ∈ Nat.toDigits 16 n, isWordChar c = true := by
  induction n using Nat.strongRecOn with
  | ind n ih =>
    rw [Nat.toDigits_eq_if (by decide)]
    intro c hc
    split at hc
    · next hlt => exact List.mem_singleton.mp hc ▸ isWordChar_digitChar n hlt
    · obtain hinit | hlast := List.mem_append.mp hc
      · exact ih (n / 16) (by omega) c hinit
      · exact List.mem_singleton.mp hlast ▸ isWordChar_digitChar _ (Nat.mod_lt n (by decide))

theorem isWordChar_hexText (n : Nat) : ∀ c ∈ hexText n, isWordChar c = true := by
  intro c hc
  obtain rfl | hc := List.mem_cons.mp hc
  · decide
  · obtain rfl | hc := List.mem_cons.mp hc
    · decide
    · exact isWordChar_toDigits n c hc

/-- The operators of a text are those of its core. -/
theorem filter_isOp (ps : List Piece) :
    ps.filter (Piece.isOp [['('], [')']]) = (core (ps.filter (· ≠ .blank))).filter (Piece.isOp [['('], [')']]) := by
  induction ps with
  | nil => rfl
  | cons p ps ih =>
    cases p with
    | blank => exact ih
    | word w =>
      show _ = (core (.word w :: ps.filter (· ≠ .blank))).filter (Piece.isOp [['('], [')']])
      rw [core_word]
      exact ih
    | punct op =>
      show _ = (core (.punct op :: ps.filter (· ≠ .blank))).filter (Piece.isOp [['('], [')']])
      by_cases hl : Piece.punct op = lparen
      · rw [hl, core_lparen, ← ih]
        rfl
      · by_cases hr : Piece.punct op = rparen
        · rw [hr, core_rparen, ← ih]
          rfl
        · rw [core_cons hl hr, List.filter_cons, List.filter_cons, ih]
          rfl

end CExpr
