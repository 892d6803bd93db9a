import Windy.Decompiler.Structure.EmitFold
import Windy.Decompiler.V2.Polarity

/- The gotos of a printed function and the passes that clean them up.

   The emitter (`structure/emit_region.rs`) gives every goto a reason, behind the `;`. The
   first pass looks for gotos that end their line, finds none, and takes every label away.
   The passes behind it read the reasons, and the last one replaces a goto to a label that is
   nowhere with a return.

   What is proved:
     1. `emitLines_quiet`: no printed line is a goto that ends its line, if no expression and
        no statement makes one.
     2. `gotos_kept_iff`: a goto keeps its meaning exactly if a bare return is the first line
        behind its label.

   How expressions, statements and returns are rendered is a parameter: `Plain` says that they
   print whole lines and no gotos. -/
namespace Windy.Decompiler.Structure

open Fold
open Bel (Text trim)
open Sketch (isWhitespace)

/-! ## Whole lines -/

/-- Not a goto that ends its line. -/
def Silent (line : Text) : Prop := '\n' ∉ line ∧ parseGoto (trim line) = none

/-- Whole lines, none of which is a goto that ends its line. -/
def Quiet (text : Text) : Prop := ∃ lines : List Text, text = lines.flatMap (· ++ ['\n']) ∧ ∀ l ∈ lines, Silent l

theorem Quiet.nil : Quiet [] := ⟨[], rfl, by simp⟩

theorem Quiet.append {a b : Text} (ha : Quiet a) (hb : Quiet b) : Quiet (a ++ b) := by
  obtain ⟨as, rfl, has⟩ := ha
  obtain ⟨bs, rfl, hbs⟩ := hb
  refine ⟨as ++ bs, by rw [List.flatMap_append], ?_⟩
  intro l hl
  rcases List.mem_append.mp hl with hl | hl
  · exact has l hl
  · exact hbs l hl

theorem Quiet.flatMap {α : Type} {f : α → Text} {l : List α} (h : ∀ a ∈ l, Quiet (f a)) : Quiet (l.flatMap f) := by
  induction l with
  | nil => exact Quiet.nil
  | cons a l ih =>
    rw [List.flatMap_cons]
    exact (h a List.mem_cons_self).append (ih fun b hb => h b (List.mem_cons_of_mem _ hb))

theorem Silent.quiet {line : Text} (h : Silent line) : Quiet (line ++ ['\n']) :=
  ⟨[line], by simp, fun _ hl => List.mem_singleton.mp hl ▸ h⟩

theorem Silent.indented {blanks line : Text} (hblanks : ∀ c ∈ blanks, c = ' ') (h : Silent line) :
    Silent (blanks ++ line) := by
  have hwhite : ∀ c ∈ blanks, isWhitespace c := fun c hc => by rw [hblanks c hc]; rfl
  refine ⟨?_, by rw [trim_blanks_append hwhite]; exact h.2⟩
  intro hmem
  rcases List.mem_append.mp hmem with hmem | hmem
  · exact absurd (hblanks _ hmem) (by decide)
  · exact h.1 hmem

/-- The lines of a quiet text. -/
theorem Quiet.rows {text : Text} (h : Quiet text) : ∀ r ∈ rowsOf text, parseGoto r.trimmed = none := by
  obtain ⟨lines, rfl, hlines⟩ := h
  intro r hr
  have hmem : r.trimmed ∈ (linesOf (lines.flatMap (· ++ ['\n']))).map trim := by
    obtain ⟨i, hi, hget⟩ := List.mem_mapIdx.mp hr
    rw [← hget]
    exact List.mem_map.mpr ⟨_, List.getElem_mem hi, rfl⟩
  rw [trim_linesOf fun l hl => (hlines l hl).1] at hmem
  obtain ⟨l, hl, heq⟩ := List.mem_map.mp hmem
  rw [← heq]
  exact (hlines l hl).2

/-! ## Printed lines -/

/-- A line that starts with no blank and with no `g`. -/
theorem silent_cons {c : Char} {rest : Text} (hc : isWhitespace c = false) (hg : c ≠ 'g') (h : '\n' ∉ c :: rest) :
    Silent (c :: rest) := by
  refine ⟨h, ?_⟩
  obtain ⟨blanks, -, hend⟩ := trimEnd_append (c :: rest)
  have htrim : trim (c :: rest) = trimEnd (c :: rest) := by
    change trimEnd (trimStart (c :: rest)) = _
    simp [trimStart, hc]
  rw [htrim, parseGoto, Option.bind_eq_none_iff]
  intro tail htail
  rw [stripPrefix_eq_some.mp htail] at hend
  have : c = 'g' := by
    have := congrArg List.head? hend
    simpa using this
  exact absurd this hg

/-- A goto with its reason behind it. -/
theorem silent_reason {line : Text} (h : '\n' ∉ line) : Silent (line ++ ['/']) := by
  refine ⟨by simp [h], ?_⟩
  rw [trim_append_singleton line (by decide), parseGoto, Option.bind_eq_none_iff]
  intro rest hrest
  rw [Option.bind_eq_none_iff]
  intro lab hlab
  have hword := stripPrefix_eq_some.mp hrest
  rw [stripSuffix_eq_some.mp hlab, ← List.append_assoc] at hword
  exact absurd (List.append_inj_right' hword rfl) (by decide)

theorem newline_not_mem_toDigits {b : Nat} (hb : 1 < b) (hle : b ≤ 16) (n : Nat) : '\n' ∉ Nat.toDigits b n := by
  induction n using Nat.strongRecOn with
  | ind n ih =>
    rw [Nat.toDigits_eq_if hb]
    split
    · simp
    · next hlt =>
      have hrest := ih (n / b) (Nat.div_lt_self (by omega) hb)
      simp [hrest]

theorem newline_not_mem_label (va : Nat) : '\n' ∉ (label va).toList := by
  simp [label, newline_not_mem_toDigits]

theorem newline_not_mem_int (n : Int) : '\n' ∉ (toString n).toList := by
  cases n with
  | ofNat n => simpa [toString, Int.repr] using newline_not_mem_toDigits (by decide) (by decide) n
  | negSucc n => simpa [toString, Int.repr] using newline_not_mem_toDigits (by decide) (by decide) (n + 1)

theorem ind_blank (n : Nat) : ∀ c ∈ (ind n).toList, c = ' ' := by
  intro c hc
  simp only [ind, String.toList_join, List.mem_flatMap] at hc
  obtain ⟨part, hpart, hc⟩ := hc
  rw [List.eq_of_mem_replicate hpart] at hc
  revert hc
  simp

/-- A silent line at any indentation. -/
theorem quiet_line (n : Nat) {line : String} (h : Silent line.toList) : Quiet (ind n ++ line ++ "\n").toList := by
  rw [String.toList_append, String.toList_append]
  exact (h.indented (ind_blank n)).quiet

/-- A line made of three parts. -/
theorem silent_parts {lead mid tail : String} (hlead : lead.toList.head?.any fun c => !isWhitespace c && c ≠ 'g')
    (hline : '\n' ∉ lead.toList ++ mid.toList ++ tail.toList) : Silent (lead ++ mid ++ tail).toList := by
  rw [String.toList_append, String.toList_append]
  cases h : lead.toList with
  | nil =>
    rw [h] at hlead
    cases hlead
  | cons x rest =>
    rw [h] at hlead hline
    have hx : isWhitespace x = false ∧ x ≠ 'g' := by simpa using hlead
    exact silent_cons hx.1 hx.2 hline

namespace Emitter
variable (c : Emitter)

/-- What the rendering prints has whole lines and no gotos, and an expression is on one line. -/
structure Plain : Prop where
  header : ∀ text ∈ c.rendering.header, Quiet text.toList
  statement : ∀ blockId indent i op text, c.statement blockId indent i op = some text → Quiet text.toList
  ret : ∀ block indent, Quiet (c.rendering.emitReturn block indent).toList
  varnode : ∀ v uses va, '\n' ∉ (c.rendering.renderVarnode v uses va).toList
  predicate : ∀ expr, '\n' ∉ expr.toList → '\n' ∉ (c.rendering.simplifyPredicateExpr expr).toList

/-- Nothing printed so far is a goto that ends its line. -/
def Clear (s : EmitState) : Prop := ∀ line ∈ s.out, Quiet line.text.toList

def KeepsClear (go : Walk) : Prop := ∀ s b stop s', Clear s → go s b stop = some s' → Clear s'

variable {c} (hplain : c.Plain)

/-! ## Expressions -/

section
include hplain

theorem newline_not_mem_cond {block : SsaBlock} {cond : String} (h : c.condOfBlock block = some cond) :
    '\n' ∉ cond.toList := by
  obtain ⟨op, -, hop⟩ := List.exists_of_findSome?_eq_some h
  split at hop
  · obtain rfl := Option.some.inj hop
    exact hplain.predicate _ (hplain.varnode _ _ _)
  · cases hop

theorem newline_not_mem_condOr (block : SsaBlock) (other : String) (hother : '\n' ∉ other.toList) :
    '\n' ∉ ((c.condOfBlock block).getD other).toList := by
  cases h : c.condOfBlock block with
  | none => exact hother
  | some cond => exact newline_not_mem_cond hplain h

theorem newline_not_mem_condText (block : SsaBlock) (invert : Bool) : '\n' ∉ (c.condText block invert).toList := by
  have hcond := newline_not_mem_condOr hplain block "/*cond*/" (by decide)
  unfold condText
  split
  · simpa using hcond
  · exact hcond

theorem newline_not_mem_whileCond (block : SsaBlock) (bodyEntry : Nat) : '\n' ∉ (c.whileCond block bodyEntry).toList := by
  have hcond := newline_not_mem_condOr hplain block "/*cond*/" (by decide)
  unfold whileCond
  dsimp only
  split
  · split
    · simpa using hcond
    · exact hcond
  · exact hcond

theorem newline_not_mem_doWhileCondStr (block : SsaBlock) (bodyEntry : Nat) :
    '\n' ∉ (c.doWhileCondStr block bodyEntry).toList := by
  have hcond := newline_not_mem_condOr hplain block "/*cond*/" (by decide)
  unfold doWhileCondStr
  dsimp only
  split
  · split
    · simpa using hcond
    · exact hcond
  · exact hcond

theorem newline_not_mem_switchVal (block : SsaBlock) : '\n' ∉ (c.switchVal block).toList := by
  unfold switchVal
  cases h : List.findSome? _ block.ops with
  | none => decide
  | some text =>
    obtain ⟨op, -, hop⟩ := List.exists_of_findSome?_eq_some h
    split at hop
    · obtain rfl := Option.some.inj hop
      exact hplain.varnode _ _ _
    · cases hop

end

/-! ## Edges -/

theorem Clear.push {s : EmitState} (hs : Clear s) {text : String} (h : Quiet text.toList) : Clear (s.push text) := by
  intro line hline
  rcases List.mem_append.mp hline with hline | hline
  · exact hs line hline
  · rw [List.mem_singleton.mp hline]
    exact h

theorem Clear.say {s : EmitState} (hs : Clear s) {text : String} (h : Silent text.toList) : Clear (s.say text) :=
  hs.push (quiet_line s.indent h)

theorem Clear.sayKw {s : EmitState} (hs : Clear s) (kw : LoopKw) : Clear (sayKw s kw) := by
  cases kw with
  | «continue» => exact hs
  | «break» => exact hs.say ⟨by decide, by decide⟩

/-- A goto is printed with its reason. -/
theorem silent_goto (va : Nat) {reason : String} (h : '\n' ∉ reason.toList) :
    Silent ("goto " ++ label va ++ "; /* " ++ reason ++ " */").toList := by
  have hline : ("goto " ++ label va ++ "; /* " ++ reason ++ " */").toList =
      ("goto ".toList ++ (label va).toList ++ "; /* ".toList ++ reason.toList ++ " *".toList) ++ ['/'] := by
    simp
  rw [hline]
  apply silent_reason
  simp [newline_not_mem_label, h]

theorem Clear.emitGotoWithReason {s : EmitState} (hs : Clear s) (target : Nat) {reason : String}
    (hreason : '\n' ∉ reason.toList) : Clear (c.emitGotoWithReason s target reason) := by
  unfold Emitter.emitGotoWithReason
  split
  · exact hs
  · exact hs.say (silent_goto _ hreason)

section
variable {go : Walk} {s s' : EmitState} {next : Option Nat} {block : SsaBlock}

/-- What each step of a fold keeps, the fold keeps. -/
theorem foldlM_clear {α : Type} {step : EmitState → α → Option EmitState}
    (hstep : ∀ s a s', Clear s → step s a = some s' → Clear s') {l : List α} (hs : Clear s) (h : l.foldlM step s = some s') :
    Clear s' := by
  induction l generalizing s with
  | nil =>
    cases h
    exact hs
  | cons a rest ih =>
    rw [List.foldlM_cons] at h
    obtain ⟨s₁, hone, h⟩ := Option.bind_eq_some_iff.mp h
    exact ih (hstep s a s₁ hs hone) h

theorem emitArm_clear (hgo : KeepsClear go) (hs : Clear s) {entry merge : Nat} (h : emitArm go s entry merge = some s') :
    Clear s' := by
  unfold emitArm at h
  split at h
  · cases h
    exact hs
  · exact hgo _ _ _ _ hs h

include hplain

theorem Clear.print (hs : Clear s) (block : SsaBlock) : Clear (c.print s block) := by
  intro line hline
  rcases List.mem_append.mp hline with hline | hline
  · exact hs line hline
  · obtain ⟨entry, -, hentry⟩ := List.mem_filterMap.mp hline
    obtain ⟨text, htext, rfl⟩ := Option.map_eq_some_iff.mp hentry
    exact hplain.statement _ _ _ _ _ htext

theorem Clear.ret (hs : Clear s) (block : SsaBlock) : Clear (c.ret s block) := hs.push (hplain.ret block s.indent)

theorem tryEmitGotoAlternative_clear (hgo : KeepsClear go) (hs : Clear s) {target stop : Nat} {taken : Bool}
    (h : c.tryEmitGotoAlternative go s target stop = some (taken, s')) : Clear s' := by
  unfold tryEmitGotoAlternative at h
  split at h
  · cases h
    exact hs
  split at h
  · cases h
    exact hs
  split at h
  · cases h
    exact hs.ret hplain _
  split at h
  · obtain ⟨s₁, hrun, heq⟩ := Option.map_eq_some_iff.mp h
    cases heq
    exact hgo _ _ _ _ hs hrun
  · cases h
    exact hs

theorem emitGoto_clear (hgo : KeepsClear go) (hs : Clear s) {target stop : Nat} {reason : String}
    (hreason : '\n' ∉ reason.toList) (h : c.emitGoto go s target stop reason = some s') : Clear s' := by
  obtain ⟨⟨taken, s₁⟩, htry, heq⟩ := Option.map_eq_some_iff.mp h
  have hs₁ : Clear s₁ := tryEmitGotoAlternative_clear hplain hgo hs htry
  rw [← heq]
  cases taken with
  | true => exact hs₁
  | false => exact hs₁.emitGotoWithReason target hreason

theorem emitRejoin_clear (hgo : KeepsClear go) (hs : Clear s) {b stop : Nat} (h : c.emitRejoin go s b stop = some s') :
    Clear s' := by
  unfold emitRejoin at h
  dsimp only at h
  split at h
  · cases h
    exact hs.sayKw _
  · exact emitGoto_clear hplain hgo hs (by decide) h

theorem ctxIndentEmitEdge_clear (hgo : KeepsClear go) (hs : Clear s) {edge stop : Nat}
    (h : c.ctxIndentEmitEdge go s edge stop = some s') : Clear s' := by
  unfold ctxIndentEmitEdge at h
  dsimp only at h
  split at h
  · cases h
    exact hs
  split at h
  · cases h
    exact Clear.sayKw (s := s.deeper) hs _
  split at h
  · split at h
    · cases h
    · next block _ =>
      cases h
      apply hs.push
      have hgoto := quiet_line (s.indent + 1) (silent_goto block.entryVa (show '\n' ∉ "arm_rejoin".toList by decide))
      simpa [String.append_assoc] using hgoto
  split at h
  · cases h
  · next s₁ htry =>
    cases h
    have hs₁ : Clear s₁ := tryEmitGotoAlternative_clear hplain hgo (s := s.deeper) hs htry
    exact hs₁
  · next s₁ htry =>
    have hs₁ : Clear s₁ := tryEmitGotoAlternative_clear hplain hgo (s := s.deeper) hs htry
    split at h
    · cases h
    · split at h
      · cases h
        have hprinted := hs₁.print hplain
        split
        · exact Clear.sayKw (s := (c.print s₁ _).mark _) (hprinted _) _
        · exact hprinted _
      · cases h
        exact hs₁

theorem emitWay_clear (hgo : KeepsClear go) (hs : Clear s) {target stop : Nat} (h : c.emitWay go stop s target = some s') :
    Clear s' := by
  unfold emitWay at h
  split at h
  · cases h
    exact hs
  split at h
  · next kw _ =>
    cases h
    exact hs.say (by cases kw <;> exact ⟨by decide, by decide⟩)
  · exact emitGoto_clear hplain hgo hs (by decide) h

theorem emitUnstructuredTerm_clear (hgo : KeepsClear go) (hs : Clear s) {stop : Nat}
    (h : c.emitUnstructuredTerm go s block stop = some (s', next)) : Clear s' := by
  unfold emitUnstructuredTerm at h
  split at h
  · cases h
    exact hs.ret hplain block
  split at h
  · cases h
    exact hs
  · split at h
    · cases h
      exact hs
    split at h
    · cases h
      exact hs.sayKw _
    split at h
    · obtain ⟨s₁, hgoto, heq⟩ := Option.map_eq_some_iff.mp h
      cases heq
      exact emitGoto_clear hplain hgo hs (by decide) hgoto
    · cases h
      exact hs
  · obtain ⟨s₁, htaken, h⟩ := Option.bind_eq_some_iff.mp h
    obtain ⟨s₂, hfall, h⟩ := Option.bind_eq_some_iff.mp h
    have hcond := hplain.predicate _ (newline_not_mem_condOr hplain block "/*cond*/" (by decide))
    have hif : Silent ("if (" ++ c.rendering.simplifyPredicateExpr ((c.condOfBlock block).getD "/*cond*/") ++ ") \x7b").toList :=
      silent_parts (by decide) (by simp [hcond])
    have hs₁ := ctxIndentEmitEdge_clear hplain hgo (hs.say hif) htaken
    have helse : Silent "\x7d else \x7b".toList := ⟨by decide, by decide⟩
    have hs₂ := ctxIndentEmitEdge_clear hplain hgo (hs₁.say helse) hfall
    have hs₃ : Clear (s₂.say "\x7d") := hs₂.say ⟨by decide, by decide⟩
    -- the state is the same, whichever block comes next
    have hstate : s' = s₂.say "\x7d" := by
      dsimp only at h
      split at h
      · split at h <;> cases h <;> rfl
      split at h
      · cases h
        rfl
      split at h <;> cases h <;> rfl
    rw [hstate]
    exact hs₃
  · obtain ⟨s₁, hways, heq⟩ := Option.map_eq_some_iff.mp h
    cases heq
    exact foldlM_clear (fun _ _ _ hs hway => emitWay_clear hplain hgo hs hway) hs hways

/-! ## Regions -/

theorem emitCase_clear (hgo : KeepsClear go) (hs : Clear s) {entry : Int × Nat} {merge : Nat}
    (h : c.emitCase go merge s entry = some s') : Clear s' := by
  unfold emitCase at h
  dsimp only at h
  obtain ⟨s₂, hbody, rfl⟩ := Option.map_eq_some_iff.mp h
  have hcase : Silent ("case " ++ toString entry.1 ++ ":").toList :=
    silent_parts (by decide) (by simpa using newline_not_mem_int entry.1)
  have hs₁ : Clear (s.say ("case " ++ toString entry.1 ++ ":")).deeper := hs.say hcase
  have hbreak : Silent "break;".toList := ⟨by decide, by decide⟩
  have hs₂ : Clear s₂ := by
    split at hbody
    · exact hgo _ _ _ _ hs₁ hbody
    split at hbody
    · split at hbody
      · cases hbody
        exact hs₁.sayKw _
      · exact emitGoto_clear hplain hgo hs₁ (by decide) hbody
    · cases hbody
      exact hs₁
  exact hs₂.say hbreak

theorem emitShape_clear (hgo : KeepsClear go) (hs : Clear s) {b stop : Nat}
    (h : c.emitShape go s b block stop = some (s', next)) : Clear s' := by
  have hclose : Silent "\x7d".toList := ⟨by decide, by decide⟩
  have helse : Silent "\x7d else \x7b".toList := ⟨by decide, by decide⟩
  have hif : ∀ invert, Silent ("if (" ++ c.condText block invert ++ ") \x7b").toList := fun invert =>
    silent_parts (by decide) (by simp [newline_not_mem_condText hplain block invert])
  unfold emitShape at h
  split at h
  · cases h
    exact hs.ret hplain block
  · obtain ⟨s₁, hthen, h⟩ := Option.bind_eq_some_iff.mp h
    obtain ⟨s₂, helseArm, h⟩ := Option.bind_eq_some_iff.mp h
    cases h
    have hs₁ : Clear s₁ := emitArm_clear hgo (s := (s.say _).deeper) (hs.say (hif _)) hthen
    have hs₂ : Clear s₂ := emitArm_clear hgo (s := (s₁.back.say _).deeper) (Clear.say (s := s₁.back) hs₁ helse) helseArm
    exact Clear.say (s := s₂.back) hs₂ hclose
  · obtain ⟨s₁, hthen, h⟩ := Option.bind_eq_some_iff.mp h
    have hs₁ : Clear s₁ := emitArm_clear hgo (s := (s.say _).deeper) (hs.say (hif _)) hthen
    have hs₂ : Clear (s₁.back.say "\x7d") := Clear.say (s := s₁.back) hs₁ hclose
    dsimp only at h
    split at h
    · cases h
      exact hs₂
    · obtain ⟨s₃, hcont, h⟩ := Option.bind_eq_some_iff.mp h
      cases h
      exact emitArm_clear hgo hs₂ hcont
  · obtain ⟨s₁, hthen, h⟩ := Option.bind_eq_some_iff.mp h
    cases h
    have hs₁ : Clear s₁ := emitArm_clear hgo (s := (s.say _).deeper) (hs.say (hif _)) hthen
    exact Clear.say (s := s₁.back) hs₁ hclose
  · next bodyEntry exit _ =>
    have hwhile : Silent ("while (" ++ c.whileCond block bodyEntry ++ ") \x7b").toList :=
      silent_parts (by decide) (by simp [newline_not_mem_whileCond hplain block bodyEntry])
    have hs₁ : Clear ((s.say ("while (" ++ c.whileCond block bodyEntry ++ ") \x7b")).deeper.enterLoop ⟨b, exit⟩) :=
      hs.say hwhile
    dsimp only at h
    split at h
    · cases h
      exact Clear.say (s := (c.print _ block).leaveLoop.back) (hs₁.print hplain block) hclose
    · obtain ⟨s₂, hbody, h⟩ := Option.bind_eq_some_iff.mp h
      cases h
      have hs₂ : Clear s₂ := hgo _ _ _ _ hs₁ hbody
      exact Clear.say (s := s₂.leaveLoop.back) hs₂ hclose
  · next bodyEntry condBlock exit _ =>
    obtain ⟨cond, -, h⟩ := Option.bind_eq_some_iff.mp h
    have hcond := newline_not_mem_doWhileCondStr hplain cond bodyEntry
    split at h
    · obtain ⟨body, -, h⟩ := Option.bind_eq_some_iff.mp h
      cases h
      have hwhile : Silent ("while (" ++ c.doWhileCondStr cond bodyEntry ++ ") \x7b").toList :=
        silent_parts (by decide) (by simp [hcond])
      have hs₂ := Clear.print hplain (s := (s.say _).deeper.enterLoop ⟨bodyEntry, exit⟩) (hs.say hwhile) body
      exact Clear.say (s := (((c.print _ body).mark _).mark _).leaveLoop.back) hs₂ hclose
    · obtain ⟨s₂, hbody, h⟩ := Option.bind_eq_some_iff.mp h
      cases h
      have hdo : Silent "do \x7b".toList := ⟨by decide, by decide⟩
      have htail : Silent ("\x7d while (" ++ c.doWhileCondStr cond bodyEntry ++ ");").toList :=
        silent_parts (by decide) (by simp [hcond])
      have hs₁ : Clear ((s.say "do \x7b").deeper.enterLoop ⟨bodyEntry, exit⟩) := hs.say hdo
      have hs₂ : Clear s₂ := hgo _ _ _ _ hs₁ hbody
      exact Clear.say (s := (s₂.mark condBlock).leaveLoop.back) hs₂ htail
  · obtain ⟨s₁, hcases, h⟩ := Option.bind_eq_some_iff.mp h
    cases h
    have hswitch : Silent ("switch (" ++ c.switchVal block ++ ") \x7b").toList :=
      silent_parts (by decide) (by simp [newline_not_mem_switchVal hplain block])
    exact (foldlM_clear (fun _ _ _ hs hcase => emitCase_clear hplain hgo hs hcase) (hs.say hswitch) hcases).say hclose
  · exact emitUnstructuredTerm_clear hplain hgo hs h

theorem newline_not_mem_foldedText {folded : String × ShortCircuit × Nat × Nat}
    (hfolded : c.shortCircuit block = some folded) : '\n' ∉ (c.foldedText folded.1 folded.2.1 folded.2.2.1).toList := by
  obtain ⟨found, -, h⟩ := Option.bind_eq_some_iff.mp hfolded
  obtain ⟨cond, hcond, h⟩ := Option.bind_eq_some_iff.mp h
  cases h
  have hfirst := newline_not_mem_cond hplain hcond
  have hsecond : '\n' ∉ (((c.ssa.blocks[found.2.1]?).bind c.condOfBlock).getD "/*c2*/").toList := by
    cases hblock : c.ssa.blocks[found.2.1]? with
    | none => exact (by decide : '\n' ∉ "/*c2*/".toList)
    | some second => exact newline_not_mem_condOr hplain second "/*c2*/" (by decide)
  have hop : '\n' ∉ found.1.text.toList := by cases found.1 <;> decide
  unfold foldedText
  simp [hfirst, hop, hsecond]

theorem emitFolded_clear (hgo : KeepsClear go) (hs : Clear s) {b : Nat}
    {folded : String × ShortCircuit × Nat × Nat} (hfolded : c.shortCircuit block = some folded)
    (h : c.emitFolded go s b folded = some (s', next)) : Clear s' := by
  have hif : Silent ("if (" ++ c.foldedText folded.1 folded.2.1 folded.2.2.1 ++ ") \x7b").toList :=
    silent_parts (by decide) (by simp [newline_not_mem_foldedText hplain hfolded])
  have hs₁ : Clear ((s.say ("if (" ++ c.foldedText folded.1 folded.2.1 folded.2.2.1 ++ ") \x7b")).mark folded.2.2.1).deeper :=
    hs.say hif
  have hclose : Silent "\x7d".toList := ⟨by decide, by decide⟩
  unfold emitFolded at h
  dsimp only at h
  split at h
  · obtain ⟨s₂, hbody, h⟩ := Option.bind_eq_some_iff.mp h
    cases h
    have hs₂ : Clear s₂ := hgo _ _ _ _ hs₁ hbody
    exact Clear.say (s := s₂.back) hs₂ hclose
  · cases h
    exact Clear.say (s := (EmitState.deeper _).back) hs₁ hclose

/-! ## The walk -/

theorem visit_clear (hs : Clear s) (b : Nat) (block : SsaBlock) : Clear (c.visit s b block) := by
  have henter : Clear (enter s b block) := by
    unfold enter
    dsimp only
    split
    · have hparts : Silent ("L_0x" ++ String.ofList (Nat.toDigits 16 block.entryVa) ++ ":").toList :=
        silent_parts (by decide) (by simp [newline_not_mem_toDigits])
      exact hs.say hparts
    · exact hs
  unfold visit
  split
  · exact henter
  · exact henter.print hplain block

theorem round_clear (hgo : KeepsClear go) (hs : Clear s) {b stop : Nat}
    (h : c.round go s b stop = some (s', next)) : Clear s' := by
  unfold round at h
  split at h
  · cases h
    exact hs
  split at h
  · cases h
    exact hs
  · next block _ =>
    split at h
    · cases h
      exact hs.say ⟨by decide, by decide⟩
    split at h
    · obtain ⟨s₁, hrejoin, heq⟩ := Option.map_eq_some_iff.mp h
      cases heq
      exact emitRejoin_clear hplain hgo hs hrejoin
    · have hvisit := visit_clear hplain hs b block
      split at h
      · next hfolded => exact emitFolded_clear hplain hgo hvisit hfolded h
      · exact emitShape_clear hplain hgo hvisit h

theorem emitRegion_clear (fuel : Nat) : KeepsClear (c.emitRegion fuel) := by
  induction fuel with
  | zero =>
    intro s b stop s' _ h
    cases h
  | succ fuel ih =>
    intro s b stop s' hs h
    unfold emitRegion at h
    split at h
    · cases h
    · next hround =>
      cases h
      exact round_clear hplain ih hs hround
    · next hround => exact ih _ _ _ _ (round_clear hplain ih hs hround) h

theorem sweepBlock_clear (hs : Clear s) {b : Nat} (h : c.sweepBlock s b = some s') : Clear s' := by
  unfold sweepBlock at h
  split at h
  · cases h
    exact hs
  split at h
  · cases h
  split at h
  · cases h
    exact hs
  split at h
  · cases h
    exact hs
  split at h
  · unfold emitFlatBlock at h
    split at h
    · cases h
      exact hs
    · exact emitRegion_clear hplain _ _ _ _ _ hs h
  · cases h
    exact hs

theorem emitLines_quiet {lines : List Line} (h : c.emitLines = some lines) : ∀ line ∈ lines, Quiet line.text.toList := by
  obtain ⟨s₁, hwalk, h⟩ := Option.bind_eq_some_iff.mp h
  obtain ⟨s₂, hsweep, h⟩ := Option.bind_eq_some_iff.mp h
  cases h
  have hopened : Clear c.opened := by
    intro line hline
    obtain ⟨text, htext, rfl⟩ := List.mem_map.mp hline
    exact hplain.header text htext
  have hs₁ : Clear s₁ := by
    unfold emitWalk at hwalk
    split at hwalk
    · cases hwalk
      exact hopened
    · exact emitRegion_clear hplain _ _ _ _ _ hopened hwalk
  have hs₂ : Clear s₂ := foldlM_clear (fun _ _ _ hs hblock => sweepBlock_clear hplain hs hblock) hs₁ hsweep
  exact hs₂.push (Silent.quiet (show Silent "\x7d".toList from ⟨by decide, by decide⟩))

/-- No line of the function is a goto that ends its line. -/
theorem structureEmitCore_quiet {text : String} (h : c.structureEmitCore = some text) : Quiet text.toList := by
  obtain ⟨lines, hlines, rfl⟩ := Option.map_eq_some_iff.mp h
  rw [String.toList_join, List.flatMap_map]
  exact Quiet.flatMap fun line hline => emitLines_quiet hplain hlines line hline

end

end Emitter

/-! ## What becomes of a goto -/

/-- The lines that stand for a line. -/
def fate (out : List Row) (r : Row) : List Row := out.filter fun q => q.origin = r.origin

/-- The lines behind a label that are not blank. -/
def codeBehind (rows : List Row) (lab : Text) : List (List Text) :=
  rows.tails.filterMap fun tail =>
    match tail with
    | q :: rest => if q.label? = some lab then some ((rest.filter fun q => !q.isBlank).map Row.trimmed) else none
    | [] => none

/-- The lines come behind the label. -/
def Behind (rows : List Row) (lab : Text) (texts : List Text) : Prop := ∃ code ∈ codeBehind rows lab, texts <+: code

instance (rows : List Row) (lab : Text) (texts : List Text) : Decidable (Behind rows lab texts) :=
  inferInstanceAs (Decidable (∃ code ∈ codeBehind rows lab, texts <+: code))

/-- A goto is left with its label; or the label was on the next line; or what is printed
instead is what comes behind the label, up to a return. -/
inductive Kept (rows out : List Row) (r : Row) (lab : Text) : Prop
  | goto {q : Row} : fate out r = [q] → q.goto? = some lab → (∃ l ∈ out, l.label? = some lab) → Kept rows out r lab
  | next {rest : List Row} : fate out r = [] → r :: rest <:+ rows →
      (rest.find? fun q => !q.isBlank).bind Row.label? = some lab → Kept rows out r lab
  | code {q : Row} : Behind rows lab ((fate out r).map Row.trimmed) → (fate out r).getLast? = some q →
      startsWith q.trimmed "return" → Kept rows out r lab

theorem rowsOf_origins (text : Text) : ((rowsOf text).map Row.origin).Nodup := by
  have hrange : (rowsOf text).map Row.origin = List.range (linesOf text).length := by
    apply List.ext_getElem
    · simp [rowsOf]
    · intro i _ _
      simp [rowsOf]
  rw [hrange]
  exact List.nodup_range

/-- Where no goto ends its line, each is replaced with a bare return. -/
theorem kept_iff_behind {rows : List Row} (hquiet : ∀ r ∈ rows, parseGoto r.trimmed = none)
    (hnodup : (rows.map Row.origin).Nodup) {r : Row} (hr : r ∈ rows) {lab : Text} (hgoto : r.goto? = some lab) :
    Kept rows (cfgOnlyGotos rows) r lab ↔ Behind rows lab ["return;".toList] := by
  have hfate : (fate (cfgOnlyGotos rows) r).map Row.trimmed = ["return;".toList] :=
    cfgOnlyGotos_goto hquiet hnodup hr (by rw [hgoto]; rfl)
  obtain ⟨q, hq, hreturn⟩ := List.map_eq_singleton_iff.mp hfate
  constructor
  · intro h
    cases h with
    | goto hone hq' _ =>
      obtain rfl := List.singleton_inj.mp (hq.symm.trans hone)
      have hnone : parseGotoLoose "return;".toList = none := by decide
      rw [Row.goto?, hreturn, hnone] at hq'
      cases hq'
    | next hnone _ _ =>
      rw [hq] at hnone
      cases hnone
    | code hbehind _ _ =>
      rw [hfate] at hbehind
      exact hbehind
  · intro h
    have hlast : (fate (cfgOnlyGotos rows) r).getLast? = some q := by rw [hq]; rfl
    exact .code (by rw [hfate]; exact h) hlast (by rw [hreturn]; rfl)

section
variable {c : Emitter}

theorem gotos_kept_iff (hplain : c.Plain) {text : String} (h : c.structureEmitCore = some text) {r : Row}
    (hr : r ∈ rowsOf text.toList) {lab : Text} (hgoto : r.goto? = some lab) :
    Kept (rowsOf text.toList) (cfgOnlyGotos (rowsOf text.toList)) r lab ↔
      Behind (rowsOf text.toList) lab ["return;".toList] :=
  kept_iff_behind (Emitter.structureEmitCore_quiet hplain h).rows (rowsOf_origins _) hr hgoto

end

/-! ## Two functions with a shared block -/

/-- The classified regions have their do-while loops where the emitter looks for them. -/
theorem dualRegions_rooted {ssa : SsaFunction} (hclosed : ssa.Closed) (switches : List Decompiler.SwitchInfo)
    (b body cond exit : Nat)
    (h : dualRegions ssa hclosed switches b = some (.doWhile body cond exit)) : body = b ∧ cond < ssa.blocks.length := by
  cases hblock : ssa.blocks[b]? with
  | none =>
    simp only [dualRegions, classifyWithAdj, hblock] at h
    cases h
  | some block =>
    obtain ⟨hbody, latch, hlatch, -⟩ := V2.dualRegions_fit hclosed switches b block _ hblock h
    exact ⟨hbody, (List.getElem?_eq_some_iff.mp hlatch).1⟩

/-- The emitter of a function with its classified regions. -/
def emitterOf (ssa : SsaFunction) (hclosed : ssa.Closed) : Emitter where
  ssa := ssa
  regions := dualRegions ssa hclosed []
  rendering := Emitter.bareRendering
  rooted := dualRegions_rooted hclosed []

open Emitter

theorem emitterOf_plain (ssa : SsaFunction) (hclosed : ssa.Closed) : (emitterOf ssa hclosed).Plain where
  header := by
    intro text htext
    rw [List.mem_singleton.mp htext]
    exact Silent.quiet (show Silent "void f() \x7b".toList from ⟨by decide, by decide⟩)
  statement := by
    have hprinted : ∀ (line : String) {parts : String} (n : Nat), Silent line.toList → line ++ "\n" = parts → Quiet (ind n ++ parts).toList := by
      intro line parts n hline hparts
      rw [← hparts, ← String.append_assoc]
      exact quiet_line n hline
    have hslot : ∀ n, Quiet (ind n ++ ("local" ++ (" = " ++ ("v" ++ ";\n")))).toList := fun n =>
      hprinted "local = v;" n ⟨by decide, by decide⟩ (by decide)
    have hstore : ∀ n, Quiet (ind n ++ ("*(" ++ ("p" ++ (") = " ++ ("v" ++ ";\n"))))).toList := fun n =>
      hprinted "*(p) = v;" n ⟨by decide, by decide⟩ (by decide)
    have hcall : ∀ n, Quiet (ind n ++ ("call(" ++ ("t" ++ ");\n"))).toList := fun n =>
      hprinted "call(t);" n ⟨by decide, by decide⟩ (by decide)
    have hassign : ∀ n, Quiet (ind n ++ ("x" ++ (" = " ++ ("e" ++ ";\n")))).toList := fun n =>
      hprinted "x = e;" n ⟨by decide, by decide⟩ (by decide)
    intro blockId indent i op text h
    unfold statement at h
    simp only [Option.ite_none_left_eq_some] at h
    obtain ⟨-, -, -, -, -, -, -, h⟩ := h
    split at h
    · split at h
      · cases h
        simp only [String.append_assoc]
        exact hslot indent
      · cases h
        simp only [String.append_assoc]
        exact hstore indent
    · split at h
      · next harguments => cases harguments
      · cases h
        simp only [String.append_assoc]
        exact hcall indent
    · split at h
      · next harguments => cases harguments
      · cases h
        simp only [String.append_assoc]
        exact hcall indent
    · cases h
    · split at h
      · cases h
      · split at h
        · cases h
        · split at h
          · cases h
          · cases h
            simp only [String.append_assoc]
            exact hassign indent
  ret := fun _ indent => by
    have hreturn := quiet_line indent (show Silent "return;".toList from ⟨by decide, by decide⟩)
    rw [String.append_assoc] at hreturn
    exact hreturn
  varnode := fun _ _ _ => (by decide : '\n' ∉ "v".toList)
  predicate := fun _ h => h

/-- The lines printed for a function. -/
def emittedRows (ssa : SsaFunction) (hclosed : ssa.Closed) : List Row :=
  rowsOf (((emitterOf ssa hclosed).emitLines.getD []).flatMap fun line => line.text.toList)

theorem rowsOf_structureEmitCore (ssa : SsaFunction) (hclosed : ssa.Closed)
    (h : (emitterOf ssa hclosed).emitLines.isSome) :
    ∃ text, (emitterOf ssa hclosed).structureEmitCore = some text ∧ rowsOf text.toList = emittedRows ssa hclosed := by
  obtain ⟨lines, hlines⟩ := Option.isSome_iff_exists.mp h
  refine ⟨String.join (lines.map Line.text), by rw [structureEmitCore, hlines]; rfl, ?_⟩
  rw [emittedRows, hlines, String.toList_join, List.flatMap_map]
  rfl

/-- `if (v) { if (v) goto tail; f(); } else { if (v) goto tail; g(); } return; tail: ... return;` -/
def sharedTail (tail : SsaOpKind) : SsaFunction :=
  functionOf [([.pcode (.cbranch (codeAt 0x1020) (flagAt 0x200))], [], [1, 2]),
    ([.pcode (.cbranch (codeAt 0x1050) (flagAt 0x201))], [0], [3, 5]),
    ([.pcode (.cbranch (codeAt 0x1060) (flagAt 0x202))], [0], [3, 6]),
    ([tail, .pcode (.branch (codeAt 0x1040))], [1, 2], [4]), ([.pcode (.ret (codeAt 0))], [3], []),
    ([.pcode (.call (codeAt 0x3000)), .pcode (.ret (codeAt 0))], [1], []),
    ([.pcode (.call (codeAt 0x4000)), .pcode (.ret (codeAt 0))], [2], [])]

theorem sharedTail_closed (tail : SsaOpKind) : (sharedTail tail).Closed := by
  simp [SsaFunction.Closed, sharedTail, functionOf]

/-- The goto to the tail. -/
def tailGoto (i : Nat) : Row := ⟨i, "            goto L_0x1030; /* join_already_emitted */".toList⟩

/-- The tail calls a function. -/
def sharedCall : SsaOpKind := .pcode (.call (codeAt 0x2000))

/-- The tail shows nothing. -/
def sharedPure : SsaOpKind := .pcode (.intXor (flagAt 0x203) (flagAt 0x203) (flagAt 0x203))

theorem sharedPure_kept :
    ∃ text r lab, (emitterOf (sharedTail sharedPure) (sharedTail_closed _)).structureEmitCore = some text ∧
      r ∈ rowsOf text.toList ∧ Kept (rowsOf text.toList) (cfgOnlyGotos (rowsOf text.toList)) r lab := by
  obtain ⟨text, htext, hrows⟩ := rowsOf_structureEmitCore (sharedTail sharedPure) (sharedTail_closed _) (by rfl)
  have hprinted : tailGoto 14 ∈ emittedRows (sharedTail sharedPure) (sharedTail_closed _) ∧
      Behind (emittedRows (sharedTail sharedPure) (sharedTail_closed _)) "L_0x1030".toList ["return;".toList] := by
    decide +kernel
  rw [← hrows] at hprinted
  have hgoto : (tailGoto 14).goto? = some "L_0x1030".toList := by decide
  exact ⟨text, tailGoto 14, "L_0x1030".toList, htext, hprinted.1,
    (gotos_kept_iff (emitterOf_plain _ _) htext hprinted.1 hgoto).mpr hprinted.2⟩

/-- Without its label, the goto to the shared call becomes a return. -/
theorem sharedCall_redirected :
    ∃ text r lab, (emitterOf (sharedTail sharedCall) (sharedTail_closed _)).structureEmitCore = some text ∧
      r ∈ rowsOf text.toList ∧ r.goto? = some lab ∧ (∃ l ∈ rowsOf text.toList, l.label? = some lab) ∧
      (fate (cfgOnlyGotos (rowsOf text.toList)) r).map Row.trimmed = ["return;".toList] ∧
      ¬ Kept (rowsOf text.toList) (cfgOnlyGotos (rowsOf text.toList)) r lab := by
  obtain ⟨text, htext, hrows⟩ := rowsOf_structureEmitCore (sharedTail sharedCall) (sharedTail_closed _) (by rfl)
  have hquiet := (structureEmitCore_quiet (emitterOf_plain _ _) htext).rows
  have hprinted : tailGoto 15 ∈ emittedRows (sharedTail sharedCall) (sharedTail_closed _) ∧
      (∃ l ∈ emittedRows (sharedTail sharedCall) (sharedTail_closed _), l.label? = some "L_0x1030".toList) ∧
      ¬ Behind (emittedRows (sharedTail sharedCall) (sharedTail_closed _)) "L_0x1030".toList ["return;".toList] := by
    decide +kernel
  rw [← hrows] at hprinted
  have hgoto : (tailGoto 15).goto? = some "L_0x1030".toList := by decide
  refine ⟨text, tailGoto 15, "L_0x1030".toList, htext, hprinted.1, hgoto, hprinted.2.1, ?_, ?_⟩
  · exact cfgOnlyGotos_goto hquiet (rowsOf_origins _) hprinted.1 rfl
  · intro hkept
    exact hprinted.2.2 ((kept_iff_behind hquiet (rowsOf_origins _) hprinted.1 hgoto).mp hkept)

end Windy.Decompiler.Structure
