import Mathlib.Data.List.TakeWhile
import Windy.Lib.Utf8

/- Texts cut into pieces by maximal munch: blanks, words and the punctuators of a language.

   A word is taken as far as it goes, and of the punctuators the first of the list that the text
   begins with is taken, so that a language lists its long ones before the short ones.

   What is proved:
     `lex_flat_iff`: the text of pieces is cut into these pieces again just if each of them is the
     one that is taken there (`Taken`);
     `eq_of_flat_eq`: two ways to cut one text are the same if they agree on the punctuators. -/
namespace Munch
open scoped Utf8

/-- A piece of a text. -/
inductive Piece where
  | blank
  | word (text : List Char)
  | punct (text : List Char)
  deriving DecidableEq, Repr

def Piece.chars : Piece → List Char
  | .blank => [' ']
  | .word w => w
  | .punct p => p

/-- The text of the pieces. -/
def flat (ps : List Piece) : List Char := ps.flatMap Piece.chars

@[simp] theorem flat_nil : flat [] = [] := rfl
@[simp] theorem flat_cons (p : Piece) (ps : List Piece) : flat (p :: ps) = p.chars ++ flat ps := rfl
@[simp] theorem flat_append (ps qs : List Piece) : flat (ps ++ qs) = flat ps ++ flat qs := List.flatMap_append

def isWordChar (c : Char) : Bool := c.isAlphanum || c == '_'

variable (puncts : List (List Char))

/-- The piece that is taken from the front of a text. -/
def next : List Char → Option Piece
  | [] => none
  | c :: cs =>
    if c = ' ' then some .blank
    else if isWordChar c then some (.word ((c :: cs).takeWhile isWordChar))
    else (puncts.find? fun p => p.isPrefixOf (c :: cs)).map .punct

/-- All pieces, in at most `n` steps. -/
def lexIn : Nat → List Char → Option (List Piece)
  | _, [] => some []
  | 0, _ :: _ => none
  | n + 1, c :: cs =>
    match next puncts (c :: cs) with
    | none => none
    | some p => (lexIn n ((c :: cs).drop p.chars.length)).map (p :: ·)

/-- No piece is empty, so a text has no more pieces than characters. -/
def lex (text : List Char) : Option (List Piece) := lexIn puncts text.length text

/-- Each piece stands as it may before the pieces that follow it. -/
def Chain (stands : Piece → List Piece → Prop) : List Piece → Prop
  | [] => True
  | p :: ps => stands p ps ∧ Chain stands ps

/-- The piece is the one that is taken from what is left of the text. -/
def Taken (p : Piece) (ps : List Piece) : Prop := next puncts (p.chars ++ flat ps) = some p

variable {puncts} {ps : List Piece}

/-! ## The piece that is taken -/

theorem not_wordChar_blank : isWordChar ' ' = false := by decide

theorem ne_blank {c : Char} (h : isWordChar c = true) : c ≠ ' ' := by
  rintro rfl
  rw [not_wordChar_blank] at h
  cases h

theorem next_word {c : Char} (h : isWordChar c = true) (cs : List Char) :
    next puncts (c :: cs) = some (.word ((c :: cs).takeWhile isWordChar)) := by
  rw [next, if_neg (ne_blank h), if_pos h]

/-- The text does not go on with a character of a word. -/
def Stops (text : List Char) : Prop := ∀ c ∈ text.head?, isWordChar c = false

theorem takeWhile_word {w : List Char} (hw : ∀ c ∈ w, isWordChar c = true) {rest : List Char} (h : Stops rest) :
    (w ++ rest).takeWhile isWordChar = w := by
  rw [List.takeWhile_append_of_pos hw]
  cases rest with
  | nil => simp
  | cons c cs => simp [h c rfl]

theorem next_whole_word {w : List Char} (hne : w ≠ []) (hw : ∀ c ∈ w, isWordChar c = true) {rest : List Char}
    (h : Stops rest) : next puncts (w ++ rest) = some (.word w) := by
  cases w with
  | nil => exact absurd rfl hne
  | cons c cs =>
    have htake := takeWhile_word hw h
    rw [List.cons_append] at htake ⊢
    rw [next_word (hw c List.mem_cons_self), htake]

/-- A piece that is taken is not empty, and what is in it stands at the front of the text. -/
theorem chars_of_next (hnil : [] ∉ puncts) {text : List Char} {p : Piece} (h : next puncts text = some p) :
    p.chars ≠ [] ∧ p.chars <+: text := by
  cases text with
  | nil => cases h
  | cons c cs =>
    rw [next] at h
    split at h
    · next hc =>
      obtain rfl := Option.some.inj h
      rw [hc]
      exact ⟨by simp [Piece.chars], cs, rfl⟩
    · split at h
      · next hword =>
        obtain rfl := Option.some.inj h
        refine ⟨?_, List.takeWhile_prefix _⟩
        simp [Piece.chars, hword]
      · obtain ⟨q, hq, rfl⟩ := Option.map_eq_some_iff.mp h
        have hfront := List.find?_some hq
        refine ⟨?_, List.isPrefixOf_iff_prefix.mp hfront⟩
        intro hempty
        exact hnil (hempty ▸ List.mem_of_find?_eq_some hq)

/-! ## Lexing -/

theorem flat_of_lexIn (hnil : [] ∉ puncts) {n : Nat} {text : List Char}
    (h : lexIn puncts n text = some ps) : flat ps = text ∧ Chain (Taken puncts) ps := by
  induction n generalizing text ps with
  | zero =>
    cases text with
    | nil => exact Option.some.inj h ▸ ⟨rfl, trivial⟩
    | cons c cs => cases h
  | succ n ih =>
    cases text with
    | nil => exact Option.some.inj h ▸ ⟨rfl, trivial⟩
    | cons c cs =>
      rw [lexIn] at h
      cases hp : next puncts (c :: cs) with
      | none => rw [hp] at h; cases h
      | some p =>
        rw [hp] at h
        obtain ⟨qs, hqs, rfl⟩ := Option.map_eq_some_iff.mp h
        obtain ⟨hflat, hchain⟩ := ih hqs
        obtain ⟨-, rest, hrest⟩ := chars_of_next hnil hp
        have htext : p.chars ++ flat qs = c :: cs := by rw [hflat, ← hrest, List.drop_left]
        exact ⟨htext, by rw [Taken, htext]; exact hp, hchain⟩

theorem lexIn_flat (hnil : [] ∉ puncts) {n : Nat} (h : Chain (Taken puncts) ps)
    (hn : (flat ps).length ≤ n) : lexIn puncts n (flat ps) = some ps := by
  induction ps generalizing n with
  | nil => cases n <;> rfl
  | cons p ps ih =>
    obtain ⟨hnext, hrest⟩ := h
    rw [Taken] at hnext
    have hpos : 0 < p.chars.length := List.length_pos_iff.mpr (chars_of_next hnil hnext).1
    rw [flat_cons, List.length_append] at hn
    cases n with
    | zero => omega
    | succ n =>
      have htail := ih hrest (n := n) (by omega)
      rw [flat_cons]
      cases htext : p.chars ++ flat ps with
      | nil => simp [htext, next] at hnext
      | cons c cs =>
        rw [htext] at hnext
        rw [lexIn, hnext]
        simp only
        rw [← htext, List.drop_left, htail]
        rfl

theorem lex_flat_iff (hnil : [] ∉ puncts) {text : List Char} :
    lex puncts text = some ps ↔ flat ps = text ∧ Chain (Taken puncts) ps := by
  constructor
  · exact flat_of_lexIn hnil
  · rintro ⟨rfl, h⟩
    exact lexIn_flat hnil h (Nat.le_refl _)

/-! ## One text cut in two ways -/

variable {solo : List (List Char)}

/-- A punctuator that is not one of `solo`. -/
def Piece.isOp (solo : List (List Char)) : Piece → Bool
  | .punct p => !solo.contains p
  | _ => false

/-- No word or blank begins as the punctuator does, and if a punctuator of `solo` does it is that one. -/
def Solid (solo : List (List Char)) (p : List Char) : Prop :=
  p ≠ [] ∧ ∀ c ∈ p.head?, isWordChar c = false ∧ c ≠ ' ' ∧ ([c] ∈ solo → p = [c])

instance (solo : List (List Char)) (p : List Char) : Decidable (Solid solo p) := inferInstanceAs (Decidable (_ ∧ _))

/-- Words have word characters only, and none follows them. -/
def Apart (solo : List (List Char)) : Piece → List Piece → Prop
  | .blank, _ => True
  | .word w, ps => w ≠ [] ∧ (∀ c ∈ w, isWordChar c = true) ∧ Stops (flat ps)
  | .punct p, _ => Solid solo p

theorem exists_head {l : List Char} (h : l ≠ []) : ∃ c, c ∈ l.head? := by
  cases l with
  | nil => exact absurd rfl h
  | cons c cs => exact ⟨c, rfl⟩

theorem ne_nil_of_apart {p : Piece} (h : Apart solo p ps) : p.chars ≠ [] := by
  cases p with
  | blank => simp [Piece.chars]
  | word => exact h.1
  | punct => exact h.1

theorem head_flat {p : Piece} (h : Apart solo p ps) : (flat (p :: ps)).head? = p.chars.head? := by
  obtain ⟨c, hc⟩ := exists_head (ne_nil_of_apart h)
  rw [flat_cons, List.head?_append, Option.mem_def.mp hc]
  rfl

/-- What a piece is shows in its first character. -/
theorem eq_of_head {p q : Piece} {ps qs : List Piece} (hsolo : ∀ s ∈ solo, s.length = 1) (hp : Apart solo p ps)
    (hq : Apart solo q qs) (hflat : flat (p :: ps) = flat (q :: qs))
    (hops : (p :: ps).filter (Piece.isOp solo) = (q :: qs).filter (Piece.isOp solo)) : p = q := by
  have hhead : p.chars.head? = q.chars.head? := by
    have h := congrArg List.head? hflat
    rwa [head_flat hp, head_flat hq] at h
  cases p with
  | blank =>
    cases q with
    | blank => rfl
    | word w =>
      have := hq.2.1 ' ' (List.mem_of_mem_head? hhead.symm)
      rw [not_wordChar_blank] at this
      cases this
    | punct t => exact absurd rfl (hq.2 ' ' hhead.symm).2.1
  | word w =>
    obtain ⟨c, hc⟩ := exists_head hp.1
    have hword := hp.2.1 c (List.mem_of_mem_head? hc)
    have hc' : c ∈ q.chars.head? := hhead ▸ hc
    cases q with
    | blank =>
      obtain rfl : ' ' = c := Option.some.inj hc'
      rw [not_wordChar_blank] at hword
      cases hword
    | word w' =>
      -- both words are as long as the text allows
      have hw := takeWhile_word hp.2.1 hp.2.2
      have hw' := takeWhile_word hq.2.1 hq.2.2
      rw [flat_cons, flat_cons] at hflat
      have heq : w = w' := by
        rw [← hw, ← hw']
        exact congrArg (List.takeWhile isWordChar) hflat
      rw [heq]
    | punct t =>
      have := (hq.2 c hc').1
      rw [hword] at this
      cases this
  | punct t =>
    obtain ⟨c, hc⟩ := exists_head hp.1
    obtain ⟨hnot, hblank, hone⟩ := hp.2 c hc
    have hc' : c ∈ q.chars.head? := hhead ▸ hc
    cases q with
    | blank => exact absurd (Option.some.inj hc').symm hblank
    | word w =>
      have := hq.2.1 c (List.mem_of_mem_head? hc')
      rw [hnot] at this
      cases this
    | punct t' =>
      have hone' := (hq.2 c hc').2.2
      by_cases hmem : [c] ∈ solo
      · rw [hone hmem, hone' hmem]
      · -- neither is in `solo`, so both are the first operator
        have hop : ∀ u : List Char, c ∈ u.head? → Piece.isOp solo (.punct u) = true := by
          intro u hu
          rw [Piece.isOp, Bool.not_eq_true', List.contains_eq_mem, decide_eq_false_iff_not]
          intro hin
          obtain ⟨d, rfl⟩ := List.length_eq_one_iff.mp (hsolo u hin)
          obtain rfl : d = c := Option.some.inj hu
          exact hmem hin
        rw [List.filter_cons_of_pos (hop t hc), List.filter_cons_of_pos (hop t' hc')] at hops
        exact (List.cons.inj hops).1

/-- Two ways to cut a text that agree on the operators are the same. -/
theorem eq_of_flat_eq {ps qs : List Piece} (hsolo : ∀ s ∈ solo, s.length = 1) (hp : Chain (Apart solo) ps)
    (hq : Chain (Apart solo) qs) (hflat : flat ps = flat qs)
    (hops : ps.filter (Piece.isOp solo) = qs.filter (Piece.isOp solo)) : ps = qs := by
  have hempty : ∀ {q : Piece} {rest : List Piece}, Apart solo q rest → flat (q :: rest) ≠ [] := by
    intro q rest hapart h
    exact ne_nil_of_apart hapart (List.append_eq_nil_iff.mp h).1
  induction ps generalizing qs with
  | nil =>
    cases qs with
    | nil => rfl
    | cons q qs => exact absurd hflat.symm (hempty hq.1)
  | cons p ps ih =>
    cases qs with
    | nil => exact absurd hflat (hempty hp.1)
    | cons q qs =>
      have heq := eq_of_head hsolo hp.1 hq.1 hflat hops
      subst heq
      have hrest : ps.filter (Piece.isOp solo) = qs.filter (Piece.isOp solo) := by
        rw [List.filter_cons, List.filter_cons] at hops
        split at hops
        · exact (List.cons.inj hops).2
        · exact hops
      rw [ih hp.2 hq.2 (List.append_cancel_left hflat) hrest]

theorem stops_of_takeWhile {w rest : List Char} (h : (w ++ rest).takeWhile isWordChar = w) : Stops rest := by
  intro c hc
  cases rest with
  | nil => cases hc
  | cons d cs =>
    obtain rfl := Option.some.inj hc
    by_contra hword
    rw [Bool.not_eq_false] at hword
    have hall : ∀ c ∈ w, isWordChar c = true := fun c hc => List.mem_takeWhile_imp (h ▸ hc)
    rw [List.takeWhile_append_of_pos hall, List.takeWhile_cons_of_pos hword] at h
    simpa using congrArg List.length h

/-- A piece that is taken stands apart. -/
theorem apart_of_taken (hnil : [] ∉ puncts) (hpuncts : ∀ p ∈ puncts, ∀ c ∈ p.head?, [c] ∈ solo → p = [c]) {p : Piece}
    (h : Taken puncts p ps) : Apart solo p ps := by
  unfold Taken at h
  cases htext : p.chars ++ flat ps with
  | nil => rw [htext] at h; cases h
  | cons c cs =>
    have hne := (chars_of_next hnil h).1
    rw [htext, next] at h
    split at h
    · obtain rfl := Option.some.inj h
      trivial
    · next hblank =>
      split at h
      · obtain rfl := Option.some.inj h
        have hwhole : ((c :: cs).takeWhile isWordChar ++ flat ps).takeWhile isWordChar =
            (c :: cs).takeWhile isWordChar := congrArg (List.takeWhile isWordChar) htext
        exact ⟨hne, fun d hd => List.mem_takeWhile_imp hd, stops_of_takeWhile hwhole⟩
      · next hword =>
        obtain ⟨q, hq, rfl⟩ := Option.map_eq_some_iff.mp h
        refine ⟨hne, fun d hd => ?_⟩
        have hfront := List.find?_some hq
        obtain ⟨rest, hrest⟩ := List.isPrefixOf_iff_prefix.mp hfront
        have hdc : d = c := by
          have := congrArg List.head? hrest
          rw [List.head?_append, Option.mem_def.mp hd] at this
          exact Option.some.inj this
        have hmem := hpuncts q (List.mem_of_find?_eq_some hq) d hd
        rw [hdc] at hmem ⊢
        exact ⟨Bool.not_eq_true _ ▸ hword, hblank, hmem⟩

theorem chain_mono {S T : Piece → List Piece → Prop} (h : ∀ p ps, S p ps → T p ps)
    (hps : Chain S ps) : Chain T ps := by
  induction ps with
  | nil => trivial
  | cons p ps ih => exact ⟨h p ps hps.1, ih hps.2⟩

end Munch
