import Windy.Bel.Query

/- The text of a function for an agent (`ir/agent_text.rs`, `to_agent_text_opts`).

   The instructions are listed one a line, each under the label of its block. With noise stripped,
   handler setups, cookies, prologues and epilogues are left out, and with a budget all but returns
   once it is spent. A label is written with the first instruction of its block.

   What is proved: every instruction line is under the label of its block, and the target labels
   with instructions are there, exactly when no block goes on behind a first instruction that is
   left out (`keepsBlocks_iff`). The return behind the cut is never written (`marks_lines`): no
   return is left out by the budget.

   Correspondence:
     `to_agent_text_opts` ↔ `toAgentTextOpts`, line by line `lines`
     a round of its loop ↔ `step`
     the scan for the frame ↔ `prologueFrameHint`
   The counters of what was stripped are only written and left out. -/
namespace Windy.AgentText
open Bel (Text)

inductive InstrClass where
  | prologue
  | epilogue
  | spill
  | cookie
  | call
  | branch
  | ret
  | logic
  deriving DecidableEq

structure Param where
  name : String
  typeGuess : Option String

structure InstrExport where
  ip : Nat
  mnemonic : String
  operandsStr : String
  operandsAnnotated : Option String
  instrClass : InstrClass
  comment : Option String

structure BlockExport where
  entryVa : Nat
  successorVas : List Nat

structure FunctionExport where
  name : String
  entryVa : Nat
  callingConv : Option String
  params : List Param
  returnType : Option String
  blocks : List BlockExport
  instructions : List InstrExport
  xrefsIn : List Nat
  xrefsOut : List Nat

structure AgentTextOpts where
  stripNoise : Bool
  maxInstructions : Option Nat

/-! ## Lines -/

inductive Line where
  | header (text : String)
  | xrefs (text : String)
  | handlerNote
  | prologueNote (frame : Option Nat)
  | label (va : Nat)
  | instr (i : InstrExport)
  | comment (text : String)
  | truncated (omitted : Nat)

/-- `{:#x}` -/
def hexText (n : Nat) : String := "0x" ++ String.ofList (Nat.toDigits 16 n)

def startsWith (lead text : String) : Bool := lead.toList.isPrefixOf text.toList

def instrText (i : InstrExport) : String :=
  let ops := (i.operandsAnnotated.filter fun s => s ≠ "").getD i.operandsStr
  if ops = "" then "  " ++ i.mnemonic else "  " ++ i.mnemonic ++ " " ++ ops

def Line.text : Line → String
  | .header text => text
  | .xrefs text => text
  | .handlerNote => "  // exception handler setup (deferred)"
  | .prologueNote (some n) => "  // prologue: " ++ toString n ++ " bytes local frame"
  | .prologueNote none => "  // prologue"
  | .label va => "block_" ++ hexText va ++ ":"
  | .instr i => instrText i
  | .comment text => "  // " ++ text
  | .truncated omitted =>
    "// ... " ++ toString omitted ++ " more instructions truncated. Call get_function_dataflow for full SSA."

def paramText (index : Nat) (p : Param) : String :=
  (if p.name = "" then "arg" ++ toString index else p.name) ++ ": " ++ p.typeGuess.getD "unknown"

def headerText (exported : FunctionExport) : String :=
  "fn " ++ exported.name ++ "(" ++ ", ".intercalate (exported.params.mapIdx paramText) ++ ") -> " ++
    exported.returnType.getD "unknown" ++ "  // " ++ exported.callingConv.getD "unknown_cc" ++ " entry:" ++
    hexText exported.entryVa

def xrefsText (exported : FunctionExport) : String :=
  "// in: [" ++ ", ".intercalate (exported.xrefsIn.map hexText) ++ "] out: [" ++
    ", ".intercalate (exported.xrefsOut.map hexText) ++ "]"

/-- What stands before the instructions. -/
def front (exported : FunctionExport) : List Line :=
  .header (headerText exported) ::
    if exported.xrefsIn ≠ [] ∨ exported.xrefsOut ≠ [] then [.xrefs (xrefsText exported)] else []

/-! ## The loop -/

/-- The size in an operand, in hexadecimal with `0x`, or in decimal. -/
def frameOf (imm : Text) : Option Nat :=
  let imm := ((Bel.trim imm).reverse.dropWhile (· = 'h')).reverse
  match imm with
  | '0' :: 'x' :: hex | '0' :: 'X' :: hex => Bel.fromStrRadix 16 64 hex
  | _ => Bel.fromStrRadix 10 64 imm

def hintStep (hint : Option Nat) (i : InstrExport) : Option Nat :=
  if i.instrClass = .prologue ∧ i.mnemonic = "sub" ∧
      (startsWith "rsp" i.operandsStr ∨ startsWith "esp" i.operandsStr) then
    match (i.operandsStr.toList.splitOn ',')[1]? with
    | some imm => frameOf imm
    | none => hint
  else hint

def prologueFrameHint (opts : AgentTextOpts) (instrs : List InstrExport) : Option Nat :=
  if opts.stripNoise then instrs.foldl hintStep none else none

def mentionsHandler (i : InstrExport) : Bool :=
  let ops := (i.operandsAnnotated.getD i.operandsStr).toList
  Bel.containsText ops "__C_specific_handler".toList || Bel.containsText ops "__GSHandlerCheck".toList ||
    Bel.containsText ops "GSHandlerCheck".toList

def isReturn (i : InstrExport) : Bool :=
  i.instrClass = .ret || i.mnemonic = "ret" || startsWith "ret" i.mnemonic

/-- The budget is spent. -/
def spent (opts : AgentTextOpts) (emitted : Nat) : Bool := opts.maxInstructions.any fun max => max ≤ emitted

structure State where
  emitted : Nat
  omitted : Nat
  emittedReturn : Bool
  lastReturn : Option InstrExport
  prologueCommentEmitted : Bool
  sehCommentEmitted : Bool
  out : List Line

/-- The lines of an instruction. -/
def emission (entries : List Nat) (i : InstrExport) : List Line :=
  (if i.ip ∈ entries then [.label i.ip] else []) ++ .instr i :: (i.comment.map Line.comment).toList

def step (opts : AgentTextOpts) (entries : List Nat) (hint : Option Nat) (s : State) (i : InstrExport) : State :=
  if opts.stripNoise && !s.sehCommentEmitted && mentionsHandler i then
    { s with sehCommentEmitted := true, out := s.out ++ [.handlerNote] }
  else if opts.stripNoise && i.instrClass = .cookie then s
  else if opts.stripNoise && i.instrClass = .prologue then
    if s.prologueCommentEmitted then s else { s with prologueCommentEmitted := true, out := s.out ++ [.prologueNote hint] }
  else if opts.stripNoise && i.instrClass = .epilogue && i.mnemonic ≠ "ret" && !startsWith "ret" i.mnemonic then s
  else if spent opts s.emitted && !isReturn i then { s with omitted := s.omitted + 1 }
  else
    { s with
      emitted := s.emitted + 1
      emittedReturn := s.emittedReturn || isReturn i
      lastReturn := if isReturn i then some i else s.lastReturn
      out := s.out ++ emission entries i }

def start (exported : FunctionExport) : State := ⟨0, 0, false, none, false, false, front exported⟩

def lines (exported : FunctionExport) (opts : AgentTextOpts) : List Line :=
  let entries := exported.blocks.map BlockExport.entryVa
  let s := exported.instructions.foldl (step opts entries (prologueFrameHint opts exported.instructions)) (start exported)
  if 0 < s.omitted then
    s.out ++ .truncated s.omitted :: if s.emittedReturn then [] else (s.lastReturn.map Line.instr).toList
  else s.out

def toAgentTextOpts (exported : FunctionExport) (opts : AgentTextOpts) : String :=
  String.join ((lines exported opts).map fun line => line.text ++ "\n")

/-! ## Blocks -/

/-- The instructions are those of the blocks, one block after the other, each in one block.
    A block has the instruction at its entry first, and none if there is no such instruction. -/
structure ListedByBlock (exported : FunctionExport) (groups : List (BlockExport × List InstrExport)) : Prop where
  blocks : exported.blocks = groups.map Prod.fst
  instructions : exported.instructions = groups.flatMap Prod.snd
  entry : ∀ g ∈ groups, ∀ i rest, g.2 = i :: rest → i.ip = g.1.entryVa
  empty : ∀ g ∈ groups, g.2 = [] → ∀ i ∈ exported.instructions, i.ip ≠ g.1.entryVa
  nodup : (exported.instructions.map InstrExport.ip).Nodup

/-- Reading on below the label that was seen last, every instruction is in its block. -/
def Attributed (groups : List (BlockExport × List InstrExport)) : Option Nat → List Line → Prop
  | _, [] => True
  | _, .label va :: rest => Attributed groups (some va) rest
  | seen, .instr i :: rest => (∀ g ∈ groups, i ∈ g.2 → seen = some g.1.entryVa) ∧ Attributed groups seen rest
  | seen, _ :: rest => Attributed groups seen rest

/-- The block is the target of a jump. -/
def IsTarget (exported : FunctionExport) (va : Nat) : Prop := ∃ b ∈ exported.blocks, va ∈ b.successorVas

/-- What the text should say of the blocks. -/
structure KeepsBlocks (exported : FunctionExport) (opts : AgentTextOpts)
    (groups : List (BlockExport × List InstrExport)) : Prop where
  attributed : Attributed groups none (lines exported opts)
  targets : ∀ g ∈ groups, IsTarget exported g.1.entryVa → ∀ i ∈ g.2, .instr i ∈ lines exported opts →
    .label g.1.entryVa ∈ lines exported opts

/-! ## What is left out -/

section Kept
variable (opts : AgentTextOpts)

/-- The instruction is noise where these come before it. -/
def noise (before : List InstrExport) (i : InstrExport) : Bool :=
  opts.stripNoise && ((mentionsHandler i && !before.any mentionsHandler) || i.instrClass = .cookie ||
    i.instrClass = .prologue ||
    (i.instrClass = .epilogue && i.mnemonic ≠ "ret" && !startsWith "ret" i.mnemonic))

/-- The instructions that are not noise, where these come before them. -/
def loud : List InstrExport → List InstrExport → List InstrExport
  | _, [] => []
  | before, i :: rest => if noise opts before i then loud (before ++ [i]) rest else i :: loud (before ++ [i]) rest

/-- The instruction is no noise, and a return or within the budget. -/
def keeps (before : List InstrExport) (i : InstrExport) : Bool :=
  !noise opts before i && (isReturn i || !spent opts (loud opts [] before).length)

/-- The instructions that are kept, where these come before them. -/
def kept : List InstrExport → List InstrExport → List InstrExport
  | _, [] => []
  | before, i :: rest => if keeps opts before i then i :: kept (before ++ [i]) rest else kept (before ++ [i]) rest

/-- A block whose first instruction is left out has none that is kept. -/
def StartsKept (before is : List InstrExport) : Prop :=
  ∀ i rest, is = i :: rest → keeps opts before i = true ∨ kept opts (before ++ [i]) rest = []

end Kept

/-! ## Marks -/

/-- A line that says something of blocks. -/
def Line.isMark : Line → Bool
  | .label _ => true
  | .instr _ => true
  | _ => false

def marks (ls : List Line) : List Line := ls.filter Line.isMark

/-- The marks of the instructions, where these come before them. -/
def written (opts : AgentTextOpts) (entries : List Nat) : List InstrExport → List InstrExport → List Line
  | _, [] => []
  | before, i :: rest =>
    (if keeps opts before i then (if i.ip ∈ entries then [.label i.ip] else []) ++ [.instr i] else []) ++
      written opts entries (before ++ [i]) rest

section Loop
variable {opts : AgentTextOpts} {entries : List Nat} {hint : Option Nat} {before : List InstrExport}

theorem marks_append (ls ls' : List Line) : marks (ls ++ ls') = marks ls ++ marks ls' := List.filter_append ..

theorem marks_front (exported : FunctionExport) : marks (front exported) = [] := by
  rw [front]
  split <;> rfl

theorem marks_emission (i : InstrExport) :
    marks (emission entries i) = (if i.ip ∈ entries then [.label i.ip] else []) ++ [.instr i] := by
  have hcomment : marks (i.comment.map Line.comment).toList = [] := by
    cases i.comment <;> rfl
  rw [emission, marks_append]
  congr 1
  · split <;> rfl
  · change .instr i :: marks (i.comment.map Line.comment).toList = _
    rw [hcomment]

theorem loud_append (before is is' : List InstrExport) :
    loud opts before (is ++ is') = loud opts before is ++ loud opts (before ++ is) is' := by
  induction is generalizing before with
  | nil => rw [List.nil_append, List.append_nil]; rfl
  | cons i is ih =>
    rw [List.cons_append, loud, loud, ih, List.append_assoc, List.singleton_append]
    split <;> rfl

theorem length_loud_snoc (before : List InstrExport) (i : InstrExport) :
    (loud opts [] (before ++ [i])).length = (loud opts [] before).length + if noise opts before i then 0 else 1 := by
  rw [loud_append, List.nil_append, List.length_append, loud]
  split <;> rfl

/-- Where the loop is after these instructions. -/
structure Reached (opts : AgentTextOpts) (before : List InstrExport) (s : State) : Prop where
  seh : s.sehCommentEmitted = (opts.stripNoise && before.any mentionsHandler)
  budget : spent opts s.emitted = spent opts (loud opts [] before).length
  emitted : spent opts (loud opts [] before).length = false → s.emitted = (loud opts [] before).length
  last : s.lastReturn.isSome → s.emittedReturn = true

theorem spent_mono {m n : Nat} (hle : m ≤ n) (h : spent opts m = true) : spent opts n = true := by
  rw [spent, Option.any_eq_true] at h ⊢
  obtain ⟨max, hmax, hm⟩ := h
  exact ⟨max, hmax, by simp only [decide_eq_true_eq] at hm ⊢; omega⟩

theorem reached_start (exported : FunctionExport) : Reached opts [] (start exported) where
  seh := by simp [start]
  budget := rfl
  emitted _ := rfl
  last h := by cases h

/-- What is left out by an instruction that is noise. -/
theorem Reached.noise {s s' : State} {i : InstrExport} (h : Reached opts before s)
    (hnoise : AgentText.noise opts before i = true)
    (hseh : s'.sehCommentEmitted = (opts.stripNoise && (before ++ [i]).any mentionsHandler))
    (hemitted : s'.emitted = s.emitted) (hreturn : s'.emittedReturn = s.emittedReturn) (hlast : s'.lastReturn = s.lastReturn) :
    Reached opts (before ++ [i]) s' ∧ keeps opts before i = false := by
  have hlength : (loud opts [] (before ++ [i])).length = (loud opts [] before).length := by
    rw [length_loud_snoc, if_pos hnoise, Nat.add_zero]
  refine ⟨⟨hseh, ?_, ?_, ?_⟩, by rw [keeps, hnoise]; rfl⟩
  · rw [hlength, hemitted, h.budget]
  · rw [hlength, hemitted]
    exact h.emitted
  · rw [hlast, hreturn]
    exact h.last

/-- One round of the loop. -/
theorem reached_step {s : State} (h : Reached opts before s) (i : InstrExport) :
    Reached opts (before ++ [i]) (step opts entries hint s i) ∧ marks (step opts entries hint s i).out = marks s.out ++
      if keeps opts before i then (if i.ip ∈ entries then [.label i.ip] else []) ++ [.instr i] else [] := by
  have hany : (before ++ [i]).any mentionsHandler = (before.any mentionsHandler || mentionsHandler i) := by
    rw [List.any_append]
    simp
  rw [step]
  by_cases hhandler : (opts.stripNoise && !s.sehCommentEmitted && mentionsHandler i) = true
  · rw [if_pos hhandler]
    simp only [Bool.and_eq_true, Bool.not_eq_true'] at hhandler
    have hbefore : before.any mentionsHandler = false := by
      rw [h.seh, hhandler.1.1, Bool.true_and] at hhandler
      exact hhandler.1.2
    have hnoise : noise opts before i = true := by simp [noise, hhandler.1.1, hhandler.2, hbefore]
    have hseh : true = (opts.stripNoise && (before ++ [i]).any mentionsHandler) := by
      rw [hany, hhandler.1.1, hhandler.2, Bool.or_true]
      rfl
    obtain ⟨hreached, hkeeps⟩ := @Reached.noise opts before s
      { s with sehCommentEmitted := true, out := s.out ++ [.handlerNote] } i h hnoise hseh rfl rfl rfl
    rw [hkeeps, if_neg Bool.false_ne_true, List.append_nil, marks_append]
    exact ⟨hreached, List.append_nil _⟩
  · rw [if_neg hhandler]
    have hseh : s.sehCommentEmitted = (opts.stripNoise && (before ++ [i]).any mentionsHandler) := by
      rw [hany, h.seh]
      rw [h.seh] at hhandler
      revert hhandler
      cases opts.stripNoise <;> cases before.any mentionsHandler <;> cases mentionsHandler i <;> simp
    by_cases hcookie : (opts.stripNoise && i.instrClass = .cookie) = true
    · rw [if_pos hcookie]
      simp only [Bool.and_eq_true, decide_eq_true_eq] at hcookie
      obtain ⟨hreached, hkeeps⟩ := h.noise (i := i) (by simp [noise, hcookie.1, hcookie.2]) hseh rfl rfl rfl
      exact ⟨hreached, by rw [hkeeps]; exact (List.append_nil _).symm⟩
    · rw [if_neg hcookie]
      by_cases hprologue : (opts.stripNoise && i.instrClass = .prologue) = true
      · rw [if_pos hprologue]
        simp only [Bool.and_eq_true, decide_eq_true_eq] at hprologue
        have hnoise : noise opts before i = true := by simp [noise, hprologue.1, hprologue.2]
        split
        · obtain ⟨hreached, hkeeps⟩ := h.noise hnoise hseh rfl rfl rfl
          exact ⟨hreached, by rw [hkeeps]; exact (List.append_nil _).symm⟩
        · obtain ⟨hreached, hkeeps⟩ := @Reached.noise opts before s
            { s with prologueCommentEmitted := true, out := s.out ++ [.prologueNote hint] } i h hnoise hseh rfl rfl rfl
          rw [hkeeps, if_neg Bool.false_ne_true, List.append_nil, marks_append]
          exact ⟨hreached, List.append_nil _⟩
      · rw [if_neg hprologue]
        by_cases hepilogue : (opts.stripNoise && i.instrClass = .epilogue && i.mnemonic ≠ "ret" &&
            !startsWith "ret" i.mnemonic) = true
        · rw [if_pos hepilogue]
          have hnoise : noise opts before i = true := by
            simp only [Bool.and_eq_true] at hepilogue
            simp only [noise, hepilogue, Bool.and_self, Bool.or_true]
          obtain ⟨hreached, hkeeps⟩ := h.noise hnoise hseh rfl rfl rfl
          exact ⟨hreached, by rw [hkeeps]; exact (List.append_nil _).symm⟩
        · rw [if_neg hepilogue]
          have hquiet : noise opts before i = false := by
            rw [h.seh] at hhandler
            rw [noise]
            revert hhandler hcookie hprologue hepilogue
            generalize decide (i.instrClass = .cookie) = cookie
            generalize decide (i.instrClass = .prologue) = prologue
            generalize decide (i.instrClass = .epilogue) = epilogue
            generalize decide (i.mnemonic ≠ "ret") = named
            cases opts.stripNoise <;> cases before.any mentionsHandler <;> cases mentionsHandler i <;> cases cookie <;>
              cases prologue <;> cases epilogue <;> cases named <;> simp
          have hlength : (loud opts [] (before ++ [i])).length = (loud opts [] before).length + 1 := by
            rw [length_loud_snoc, hquiet]
            rfl
          have hmono := @spent_mono opts _ _ (Nat.le_succ (loud opts [] before).length)
          by_cases hbudget : (spent opts s.emitted && !isReturn i) = true
          · rw [if_pos hbudget]
            rw [Bool.and_eq_true, h.budget] at hbudget
            have hkeeps : keeps opts before i = false := by
              rw [keeps, hquiet, hbudget.1, (Bool.not_eq_true' _).mp hbudget.2]
              rfl
            refine ⟨⟨hseh, ?_, ?_, h.last⟩, by rw [hkeeps]; exact (List.append_nil _).symm⟩
            · rw [hlength, hmono hbudget.1]
              exact h.budget.trans hbudget.1
            · intro hleft
              rw [hlength, hmono hbudget.1] at hleft
              cases hleft
          · rw [if_neg hbudget]
            rw [h.budget] at hbudget
            have hkeeps : keeps opts before i = true := by
              rw [keeps, hquiet]
              revert hbudget
              cases spent opts (loud opts [] before).length <;> cases isReturn i <;> simp
            refine ⟨⟨hseh, ?_, ?_, ?_⟩, by rw [hkeeps, marks_append, marks_emission]; rfl⟩
            · rw [hlength]
              cases hspent : spent opts (loud opts [] before).length with
              | true => rw [hmono hspent, spent_mono (Nat.le_succ s.emitted) (h.budget.trans hspent)]
              | false => rw [h.emitted hspent]
            · intro hleft
              rw [hlength] at hleft ⊢
              have hspent : spent opts (loud opts [] before).length = false := by
                rw [← Bool.not_eq_true]
                intro hspent
                rw [hmono hspent] at hleft
                cases hleft
              rw [h.emitted hspent]
            · intro hlast
              cases hreturn : isReturn i with
              | true => exact Bool.or_true _
              | false =>
                rw [hreturn] at hlast
                rw [Bool.or_false]
                exact h.last hlast

/-- A run of the loop. -/
theorem reached_run {s : State} (h : Reached opts before s) (is : List InstrExport) :
    Reached opts (before ++ is) (is.foldl (step opts entries hint) s) ∧
      marks (is.foldl (step opts entries hint) s).out = marks s.out ++ written opts entries before is := by
  induction is generalizing before s with
  | nil => exact ⟨by rw [List.append_nil]; exact h, (List.append_nil _).symm⟩
  | cons i is ih =>
    obtain ⟨hreached, hout⟩ := @reached_step opts entries hint before s h i
    obtain ⟨hreached, hrun⟩ := ih hreached
    refine ⟨?_, ?_⟩
    · rw [← List.append_cons] at hreached
      exact hreached
    · rw [List.foldl_cons, hrun, hout, written, List.append_assoc]

/-- The marks of the text are those of its instructions: no return is added behind the cut. -/
theorem marks_lines (exported : FunctionExport) :
    marks (lines exported opts) = written opts (exported.blocks.map BlockExport.entryVa) [] exported.instructions := by
  obtain ⟨hreached, hout⟩ := @reached_run opts (exported.blocks.map BlockExport.entryVa)
    (prologueFrameHint opts exported.instructions) [] (start exported) (reached_start exported) exported.instructions
  have hstart : marks (start exported).out = [] := marks_front exported
  rw [hstart, List.nil_append] at hout
  rw [lines, ← hout]
  split
  · have hcut (omitted : Nat) (tail : List Line) : marks (.truncated omitted :: tail) = marks tail := rfl
    rw [marks_append, hcut]
    split
    · exact List.append_nil _
    · rename_i hreturn
      have hnone : ((exported.instructions.foldl (step opts (exported.blocks.map BlockExport.entryVa)
          (prologueFrameHint opts exported.instructions)) (start exported)).lastReturn) = none := by
        rw [← Option.not_isSome_iff_eq_none]
        exact fun hlast => hreturn (hreached.last hlast)
      rw [hnone]
      exact List.append_nil _
  · rfl

end Loop

/-! ## Attribution -/

section Attribution
variable {exported : FunctionExport} {opts : AgentTextOpts} {groups : List (BlockExport × List InstrExport)}
  {i : InstrExport}

theorem ListedByBlock.nodup_groups (hlisted : ListedByBlock exported groups) : (groups.flatMap Prod.snd).Nodup := by
  rw [← hlisted.instructions]
  exact hlisted.nodup.of_map

/-- An instruction is in one block. -/
theorem ListedByBlock.unique (hlisted : ListedByBlock exported groups) {g g' : BlockExport × List InstrExport}
    (hg : g ∈ groups) (hg' : g' ∈ groups) (hi : i ∈ g.2) (hi' : i ∈ g'.2) : g = g' := by
  by_contra hne
  have hsymm : Std.Symm (Function.onFun List.Disjoint (Prod.snd : BlockExport × List InstrExport → List InstrExport)) :=
    ⟨fun _ _ h => List.Disjoint.symm h⟩
  exact (List.nodup_flatMap.mp hlisted.nodup_groups).2.forall hg hg' hne hi hi'

theorem ListedByBlock.mem (hlisted : ListedByBlock exported groups) {g : BlockExport × List InstrExport} (hg : g ∈ groups)
    (hi : i ∈ g.2) : i ∈ exported.instructions := by
  rw [hlisted.instructions]
  exact List.mem_flatMap.mpr ⟨g, hg, hi⟩

theorem ListedByBlock.mem_entries (hlisted : ListedByBlock exported groups) {g : BlockExport × List InstrExport}
    (hg : g ∈ groups) : g.1.entryVa ∈ exported.blocks.map BlockExport.entryVa := by
  rw [hlisted.blocks]
  exact List.mem_map.mpr ⟨g.1, List.mem_map.mpr ⟨g, hg, rfl⟩, rfl⟩

/-- Behind the first instruction of a block there is no entry. -/
theorem ListedByBlock.not_entry (hlisted : ListedByBlock exported groups) {g : BlockExport × List InstrExport}
    (hg : g ∈ groups) {i j : InstrExport} {rest : List InstrExport} (hblock : g.2 = i :: rest) (hj : j ∈ rest) :
    j.ip ∉ exported.blocks.map BlockExport.entryVa := by
  intro hentry
  rw [hlisted.blocks, List.map_map] at hentry
  obtain ⟨g', hg', hip⟩ := List.mem_map.mp hentry
  have hjg : j ∈ g.2 := by
    rw [hblock]
    exact List.mem_cons_of_mem _ hj
  cases hfirst : g'.2 with
  | nil => exact hlisted.empty g' hg' hfirst j (hlisted.mem hg hjg) hip.symm
  | cons i' rest' =>
    have hi' : i' ∈ g'.2 := by
      rw [hfirst]
      exact List.mem_cons_self
    have hsame : i' = j := List.inj_on_of_nodup_map hlisted.nodup (hlisted.mem hg' hi') (hlisted.mem hg hjg)
      ((hlisted.entry g' hg' i' rest' hfirst).trans hip)
    subst hsame
    have hgroup := hlisted.unique hg hg' hjg hi'
    subst hgroup
    rw [hblock] at hfirst
    cases hfirst
    have hnodup := (List.nodup_flatMap.mp hlisted.nodup_groups).1 g hg
    rw [hblock] at hnodup
    exact (List.nodup_cons.mp hnodup).1 hj

theorem attributed_marks (groups : List (BlockExport × List InstrExport)) (seen : Option Nat) (ls : List Line) :
    Attributed groups seen (marks ls) ↔ Attributed groups seen ls := by
  induction ls generalizing seen with
  | nil => rfl
  | cons l ls ih =>
    cases l with
    | label va => exact ih (some va)
    | instr i => exact and_congr Iff.rfl (ih seen)
    | header text => exact ih seen
    | xrefs text => exact ih seen
    | handlerNote => exact ih seen
    | prologueNote frame => exact ih seen
    | comment text => exact ih seen
    | truncated omitted => exact ih seen

theorem mem_marks_instr {ls : List Line} : .instr i ∈ marks ls ↔ .instr i ∈ ls := by
  rw [marks, List.mem_filter]
  exact and_iff_left rfl

theorem mem_marks_label {va : Nat} {ls : List Line} : .label va ∈ marks ls ↔ .label va ∈ ls := by
  rw [marks, List.mem_filter]
  exact and_iff_left rfl

/-- An instruction that is below the label of its block has that label in the text. -/
theorem Attributed.label {seen : Option Nat} {ls : List Line} (h : Attributed groups seen ls)
    {g : BlockExport × List InstrExport} (hg : g ∈ groups) (hi : i ∈ g.2) (hline : .instr i ∈ ls) :
    seen = some g.1.entryVa ∨ .label g.1.entryVa ∈ ls := by
  induction ls generalizing seen with
  | nil => cases hline
  | cons l ls ih =>
    by_cases hhead : l = .instr i
    · subst hhead
      exact .inl (h.1 g hg hi)
    · have htail : .instr i ∈ ls := (List.mem_cons.mp hline).resolve_left (Ne.symm hhead)
      cases l with
      | label va =>
        rcases @ih (some va) h htail with hva | hmem
        · cases hva
          exact .inr List.mem_cons_self
        · exact .inr (List.mem_cons_of_mem _ hmem)
      | instr j => exact (ih h.2 htail).imp_right (List.mem_cons_of_mem _)
      | header text => exact (@ih seen h htail).imp_right (List.mem_cons_of_mem _)
      | xrefs text => exact (@ih seen h htail).imp_right (List.mem_cons_of_mem _)
      | handlerNote => exact (@ih seen h htail).imp_right (List.mem_cons_of_mem _)
      | prologueNote frame => exact (@ih seen h htail).imp_right (List.mem_cons_of_mem _)
      | comment text => exact (@ih seen h htail).imp_right (List.mem_cons_of_mem _)
      | truncated omitted => exact (@ih seen h htail).imp_right (List.mem_cons_of_mem _)

/-- The instructions of a list that are all in one block. -/
theorem attributed_instrs (hlisted : ListedByBlock exported groups) {g : BlockExport × List InstrExport} (hg : g ∈ groups)
    {is : List InstrExport} (his : ∀ i ∈ is, i ∈ g.2) (seen : Option Nat) (rest : List Line) :
    Attributed groups seen (is.map Line.instr ++ rest) ↔
      (is = [] ∨ seen = some g.1.entryVa) ∧ Attributed groups seen rest := by
  induction is with
  | nil => exact (and_iff_right (.inl rfl)).symm
  | cons i is ih =>
    have hown : (∀ g' ∈ groups, i ∈ g'.2 → seen = some g'.1.entryVa) ↔ seen = some g.1.entryVa := by
      refine ⟨fun h => h g hg (his i List.mem_cons_self), fun h g' hg' hi => ?_⟩
      rw [hlisted.unique hg hg' (his i List.mem_cons_self) hi] at h
      exact h
    have hrest := ih fun j hj => his j (List.mem_cons_of_mem _ hj)
    have hcons : Attributed groups seen ((i :: is).map Line.instr ++ rest) ↔
        (∀ g' ∈ groups, i ∈ g'.2 → seen = some g'.1.entryVa) ∧ Attributed groups seen (is.map Line.instr ++ rest) := Iff.rfl
    rw [hcons, hown, hrest]
    refine ⟨fun ⟨hseen, _, h⟩ => ⟨.inr hseen, h⟩, fun ⟨hseen, h⟩ => ?_⟩
    have hseen := hseen.resolve_left (List.cons_ne_nil _ _)
    exact ⟨hseen, .inr hseen, h⟩

/-- What is written of a block behind its first instruction. -/
theorem written_inner {entries : List Nat} (before : List InstrExport) {is : List InstrExport}
    (his : ∀ i ∈ is, i.ip ∉ entries) : written opts entries before is = (kept opts before is).map Line.instr := by
  induction is generalizing before with
  | nil => rfl
  | cons i is ih =>
    rw [written, kept, ih (before ++ [i]) fun j hj => his j (List.mem_cons_of_mem _ hj),
      if_neg (his i List.mem_cons_self)]
    split <;> rfl

theorem written_append (entries : List Nat) (before is is' : List InstrExport) :
    written opts entries before (is ++ is') = written opts entries before is ++ written opts entries (before ++ is) is' := by
  induction is generalizing before with
  | nil => rw [List.append_nil]; rfl
  | cons i is ih => rw [List.cons_append, written, written, ih, List.append_assoc, List.append_assoc, List.singleton_append]

theorem mem_of_mem_kept {before is : List InstrExport} (hi : i ∈ kept opts before is) : i ∈ is := by
  induction is generalizing before with
  | nil => exact hi
  | cons j is ih =>
    rw [kept] at hi
    split at hi
    · rcases List.mem_cons.mp hi with rfl | hi
      · exact List.mem_cons_self
      · exact List.mem_cons_of_mem _ (ih hi)
    · exact List.mem_cons_of_mem _ (ih hi)

/-- The lines of a block, below a label that is not its own. -/
theorem attributed_block (hlisted : ListedByBlock exported groups) {g : BlockExport × List InstrExport} (hg : g ∈ groups)
    {seen : Option Nat} (hseen : ∀ i ∈ g.2, seen ≠ some i.ip) (before : List InstrExport) (rest : List Line) :
    ∃ seen' : Option Nat, (seen' = seen ∨ ∃ i ∈ g.2, seen' = some i.ip) ∧
      (Attributed groups seen (written opts (exported.blocks.map BlockExport.entryVa) before g.2 ++ rest) ↔
        StartsKept opts before g.2 ∧ Attributed groups seen' rest) := by
  cases hblock : g.2 with
  | nil =>
    refine ⟨seen, .inl rfl, ?_⟩
    exact (and_iff_right fun i is his => by cases his).symm
  | cons i is =>
    have hentry := hlisted.entry g hg i is hblock
    have hfirst : i.ip ∈ exported.blocks.map BlockExport.entryVa := by
      rw [hentry]
      exact hlisted.mem_entries hg
    have hinner := @written_inner opts (exported.blocks.map BlockExport.entryVa) (before ++ [i]) is fun j hj =>
      hlisted.not_entry hg hblock hj
    have hown : ∀ j ∈ kept opts (before ++ [i]) is, j ∈ g.2 := by
      intro j hj
      rw [hblock]
      exact List.mem_cons_of_mem _ (mem_of_mem_kept hj)
    have hstarts : StartsKept opts before (i :: is) ↔ keeps opts before i = true ∨ kept opts (before ++ [i]) is = [] := by
      refine ⟨fun h => h i is rfl, fun h j rest hj => ?_⟩
      cases hj
      exact h
    rw [hstarts, written, hinner, if_pos hfirst]
    cases hkeeps : keeps opts before i with
    | true =>
      refine ⟨some i.ip, .inr ⟨i, List.mem_cons_self, rfl⟩, ?_⟩
      have hlines : (if true = true then [Line.label i.ip] ++ [.instr i] else []) ++
          (kept opts (before ++ [i]) is).map Line.instr ++ rest =
          .label i.ip :: ((i :: kept opts (before ++ [i]) is).map Line.instr ++ rest) := rfl
      have hall : ∀ j ∈ i :: kept opts (before ++ [i]) is, j ∈ g.2 := by
        intro j hj
        rcases List.mem_cons.mp hj with rfl | hj
        · rw [hblock]
          exact List.mem_cons_self
        · exact hown j hj
      rw [hlines]
      refine (attributed_instrs hlisted hg hall (some i.ip) rest).trans ?_
      rw [hentry]
      exact and_congr_left fun _ => ⟨fun _ => .inl rfl, fun _ => .inr rfl⟩
    | false =>
      refine ⟨seen, .inl rfl, ?_⟩
      have hother : seen ≠ some g.1.entryVa := by
        rw [← hentry]
        refine hseen i ?_
        rw [hblock]
        exact List.mem_cons_self
      refine (attributed_instrs hlisted hg hown seen rest).trans ?_
      refine and_congr_left fun _ => ⟨fun h => .inr (h.resolve_right hother), fun h => .inl ?_⟩
      exact h.resolve_left Bool.false_ne_true

/-- The lines of blocks, below a label of an earlier one. -/
theorem attributed_blocks (hlisted : ListedByBlock exported groups) {seen : Option Nat} {before : List InstrExport}
    {blocks : List (BlockExport × List InstrExport)} (hblocks : ∀ g ∈ blocks, g ∈ groups)
    (hnodup : ((before ++ blocks.flatMap Prod.snd).map InstrExport.ip).Nodup)
    (hseen : ∀ va, seen = some va → va ∈ before.map InstrExport.ip) :
    Attributed groups seen (written opts (exported.blocks.map BlockExport.entryVa) before (blocks.flatMap Prod.snd)) ↔
      ∀ first g after, blocks = first ++ g :: after → StartsKept opts (before ++ first.flatMap Prod.snd) g.2 := by
  induction blocks generalizing seen before with
  | nil =>
    refine ⟨fun _ first g after h => ?_, fun _ => trivial⟩
    exact absurd h.symm (by simp)
  | cons b blocks ih =>
    rw [List.flatMap_cons, ← List.append_assoc] at hnodup
    have hb : b ∈ groups := hblocks b List.mem_cons_self
    have hapart : ∀ i ∈ b.2, seen ≠ some i.ip := by
      intro i hi hsame
      rw [List.map_append, List.map_append, List.append_assoc] at hnodup
      refine (List.nodup_append.mp hnodup).2.2 i.ip (hseen i.ip hsame) i.ip ?_ rfl
      exact List.mem_append_left _ (List.mem_map_of_mem hi)
    obtain ⟨seen', hseen', hblock⟩ := @attributed_block exported opts groups hlisted b hb seen hapart before
      (written opts (exported.blocks.map BlockExport.entryVa) (before ++ b.2) (blocks.flatMap Prod.snd))
    have hlast : ∀ va, seen' = some va → va ∈ (before ++ b.2).map InstrExport.ip := by
      intro va hva
      rw [List.map_append]
      rcases hseen' with rfl | ⟨i, hi, rfl⟩
      · exact List.mem_append_left _ (hseen va hva)
      · cases hva
        exact List.mem_append_right _ (List.mem_map_of_mem hi)
    rw [List.flatMap_cons, written_append, hblock, ih (fun g hg => hblocks g (List.mem_cons_of_mem _ hg)) hnodup hlast]
    constructor
    · rintro ⟨hstarts, hrest⟩ first g after hsplit
      cases first with
      | nil =>
        cases hsplit
        rw [List.flatMap_nil, List.append_nil]
        exact hstarts
      | cons c first =>
        cases hsplit
        rw [List.flatMap_cons, ← List.append_assoc]
        exact hrest first g after rfl
    · intro h
      refine ⟨?_, fun first g after hsplit => ?_⟩
      · have hfirst := h [] b blocks rfl
        rw [List.flatMap_nil, List.append_nil] at hfirst
        exact hfirst
      · have hrest := h (b :: first) g after (by rw [hsplit]; rfl)
        rw [List.flatMap_cons, ← List.append_assoc] at hrest
        exact hrest

/-- Every instruction line is under the label of its block, and the labels of the targets are there, exactly when no block
    goes on behind a first instruction that is left out. -/
theorem keepsBlocks_iff (exported : FunctionExport) (opts : AgentTextOpts) (groups : List (BlockExport × List InstrExport))
    (hlisted : ListedByBlock exported groups) :
    KeepsBlocks exported opts groups ↔
      ∀ before g after, groups = before ++ g :: after → StartsKept opts (before.flatMap Prod.snd) g.2 := by
  have hnodup : (([] ++ groups.flatMap Prod.snd).map InstrExport.ip).Nodup := by
    rw [List.nil_append, ← hlisted.instructions]
    exact hlisted.nodup
  have hblocks := @attributed_blocks exported opts groups hlisted none [] groups (fun g hg => hg) hnodup fun va hva => by
    cases hva
  have hlines : Attributed groups none (lines exported opts) ↔
      Attributed groups none (written opts (exported.blocks.map BlockExport.entryVa) [] (groups.flatMap Prod.snd)) := by
    rw [← attributed_marks, marks_lines, hlisted.instructions]
  have hkeeps : KeepsBlocks exported opts groups ↔ Attributed groups none (lines exported opts) := by
    refine ⟨fun h => h.attributed, fun h => ⟨h, fun g hg _ i hi hline => ?_⟩⟩
    exact (h.label hg hi hline).resolve_left (by simp)
  rw [hkeeps, hlines]
  exact hblocks

/-- `jmp 0x1010` -/
def jump : InstrExport := ⟨0x1000, "jmp", "0x1010", none, .branch, none⟩

/-- `mov eax, 1` -/
def move : InstrExport := ⟨0x1010, "mov", "eax, 1", none, .logic, none⟩

def ret : InstrExport := ⟨0x1015, "ret", "", none, .ret, none⟩

/-- A jump to a block that returns one. -/
def jumping : FunctionExport where
  name := "sub_1000"
  entryVa := 0x1000
  callingConv := none
  params := []
  returnType := none
  blocks := [⟨0x1000, [0x1010]⟩, ⟨0x1010, []⟩]
  instructions := [jump, move, ret]
  xrefsIn := []
  xrefsOut := []

def jumpingBlocks : List (BlockExport × List InstrExport) :=
  [(⟨0x1000, [0x1010]⟩, [jump]), (⟨0x1010, []⟩, [move, ret])]

theorem jumping_listed : ListedByBlock jumping jumpingBlocks where
  blocks := rfl
  instructions := rfl
  entry g hg i rest hblock := by
    rw [jumpingBlocks, List.mem_cons, List.mem_singleton] at hg
    rcases hg with rfl | rfl
    · cases hblock
      rfl
    · cases hblock
      rfl
  empty g hg hblock := by
    rw [jumpingBlocks, List.mem_cons, List.mem_singleton] at hg
    rcases hg with rfl | rfl
    · cases hblock
    · cases hblock
  nodup := by decide

theorem keepsBlocks_iff_jumping :
    ListedByBlock jumping jumpingBlocks ∧ KeepsBlocks jumping ⟨false, none⟩ jumpingBlocks := by
  refine ⟨jumping_listed, (keepsBlocks_iff jumping ⟨false, none⟩ jumpingBlocks jumping_listed).mpr ?_⟩
  intro before g after _ i rest _
  left
  rw [keeps, noise, spent, Option.any_none, Bool.not_false, Bool.or_true]
  rfl

/-- With a budget of one instruction the return is under the label of the other block. -/
theorem return_not_attributed :
    ListedByBlock jumping jumpingBlocks ∧ ¬ KeepsBlocks jumping ⟨false, some 1⟩ jumpingBlocks := by
  refine ⟨jumping_listed, fun h => ?_⟩
  have hmarks : marks (lines jumping ⟨false, some 1⟩) = [.label 0x1000, .instr jump, .instr ret] := by
    rw [marks_lines]
    rfl
  have hlabel := h.targets (⟨0x1010, []⟩, [move, ret]) (by simp [jumpingBlocks])
    ⟨⟨0x1000, [0x1010]⟩, by simp [jumping], by simp⟩ ret (by simp) (by rw [← mem_marks_instr, hmarks]; simp)
  rw [← mem_marks_label, hmarks] at hlabel
  simp at hlabel

end Attribution

end Windy.AgentText
