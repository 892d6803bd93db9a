import Mathlib.Data.List.Nodup
import Mathlib.Data.List.TakeWhile
import Windy.Bel.Index

/- The passes over the printed text that clean up its gotos (`structure/emit_fold.rs`), as
   `apply_cfg_only` (`structure/presentation.rs`) runs them one after the other.

   A text is the list of its lines. That a pass joins its lines and the next one splits them again
   is left out: it can only drop blank lines at the end and carriage returns, which no pass looks
   at. A line carries the number it had in the text that went in, and what a pass prints in its
   place carries that number on, so that the way of a line through the passes can be followed.

   Two functions parse gotos: `parse_goto` wants the `;` at the end of the line, and so does not see
   a goto with a comment behind it; `parse_goto_loose` does.

   What is proved:
     `cfgOnlyGotos_goto`: in a text without a goto that ends its line, every goto becomes a
     bare return. The first pass takes its label away, the last one finds it without.

   Correspondence:
     `parse_goto`, `parse_goto_loose`, `parse_label` ↔ the same
     `parse_if_not_break`, `minimize_gotos` ↔ the same
     `fold_while_true_break_boundary` ↔ `foldWhileTrueBreak`
     `fold_goto_return_and_trivial_rejoins` ↔ `foldGotoReturn`
     `is_bare_fail_return_line`, `is_pure_fail_leaf_body` ↔ the same
     `inline_leaf_goto_targets` ↔ the same
     `collect_pure_fail_labels`, `label_is_trivial_return` ↔ the same
     `strip_security_cookie_gotos` ↔ the same -/
namespace Windy.Decompiler.Structure.Fold

open Bel (Text trim containsText)
open Sketch (isWhitespace)
open scoped Utf8

/-! ## Texts -/

def startsWith (t : Text) (lead : String) : Bool := lead.toList.isPrefixOf t

def endsWith (t : Text) (tail : String) : Bool := tail.toList.isSuffixOf t

def contains (t : Text) (needle : String) : Bool := containsText t needle.toList

def stripPrefix (lead : String) (t : Text) : Option Text :=
  if startsWith t lead then some (t.drop lead.toList.length) else none

def stripSuffix (tail : String) (t : Text) : Option Text :=
  if endsWith t tail then some (t.take (t.length - tail.toList.length)) else none

def trimStart (t : Text) : Text := t.dropWhile isWhitespace

def trimEnd (t : Text) : Text := (t.reverse.dropWhile isWhitespace).reverse

/-- The blanks a line starts with. -/
def indentOf (t : Text) : Text := t.takeWhile isWhitespace

/-- What comes before the first occurrence. -/
def before (needle : Text) : Text → Text
  | [] => []
  | c :: cs => if needle.isPrefixOf (c :: cs) then [] else c :: before needle cs

/-- The lines of a text, behind a line already begun. -/
def linesFrom : Text → Text → List Text
  | begun, [] => if begun = [] then [] else [begun]
  | begun, c :: cs =>
    if c = '\n' then (stripSuffix "\r" begun).getD begun :: linesFrom [] cs else linesFrom (begun ++ [c]) cs

def linesOf (text : Text) : List Text := linesFrom [] text

/-- A line, with the number of the line it comes from. -/
structure Row where
  origin : Nat
  text : Text
  deriving DecidableEq, Repr

/-- The line without the blanks around it. -/
def Row.trimmed (r : Row) : Text := trim r.text

def Row.isBlank (r : Row) : Bool := r.trimmed = []

/-- The lines of a text, numbered. -/
def rowsOf (text : Text) : List Row := (linesOf text).mapIdx fun i line => ⟨i, line⟩

/-! ## Gotos and labels -/

def startsWithL (t : Text) : Option Text := if t.head? = some 'L' then some t else none

def parseGoto (trimmed : Text) : Option Text :=
  (stripPrefix "goto " trimmed).bind fun rest => (stripSuffix ";" rest).bind fun lab => startsWithL (trim lab)

def parseLabel (trimmed : Text) : Option Text := (stripSuffix ":" trimmed).bind startsWithL

/-- What ends the label of a goto. -/
def endsLabel (c : Char) : Bool := c = ';' || c = ' ' || c = '/'

def parseGotoLoose (trimmed : Text) : Option Text :=
  (stripPrefix "goto " trimmed).bind fun rest => startsWithL (trim (rest.takeWhile fun c => !endsLabel c))

def Row.goto? (r : Row) : Option Text := parseGotoLoose r.trimmed

def Row.label? (r : Row) : Option Text := parseLabel r.trimmed

/-- The label is that of some goto. -/
def isTargeted (parse : Text → Option Text) (rows : List Row) (lab : Text) : Bool :=
  rows.any fun r => parse r.trimmed = some lab

/-- Without the labels that no goto has. -/
def dropUntargeted (parse : Text → Option Text) (rows : List Row) : List Row :=
  rows.filter fun r => match r.label? with
    | some lab => isTargeted parse rows lab
    | none => true

/-! ## `minimize_gotos` -/

/-- Without the gotos to the label on the next line. -/
def dropFallthrough : List Row → List Row
  | [] => []
  | r :: rest =>
    match parseGoto r.trimmed with
    | some target =>
      if (rest.find? fun q => !q.isBlank).bind Row.label? = some target then dropFallthrough rest
      else r :: dropFallthrough rest
    | none => r :: dropFallthrough rest

/-- What stands before the parenthesis that closes the one already open, with so many more
open in between. -/
def closeParen : Nat → Text → Option Text
  | _, [] => none
  | depth, c :: cs =>
    if c = '(' then (closeParen (depth + 1) cs).map (c :: ·)
    else if c = ')' then
      match depth with
      | 0 => some []
      | depth + 1 => (closeParen depth cs).map (c :: ·)
    else (closeParen depth cs).map (c :: ·)

/-- The condition `B` of `if (!(B)) break;`. -/
def parseIfNotBreak (line : Text) : Option Text :=
  let t := trim line
  if !contains t "break" then none
  else
    ((stripPrefix "if" t).map trimStart).bind fun rest =>
      (stripPrefix "(" rest).bind fun rest =>
        (closeParen 0 rest).bind fun inside =>
          let inside := trim inside
          let cond := match (stripPrefix "!(" inside).bind (stripSuffix ")") with
            | some inner => some (trim inner)
            | none => (stripPrefix "!" inside).map trim
          cond.filter (· ≠ [])

def isWhileTrue (t : Text) : Bool :=
  startsWith t "while" && (contains t "(1)" || contains t "(true)" || contains t "(0x1)") && endsWith t "\x7b"

/-- The condition of an endless loop that starts with a break, and the number of the lines
the break takes. -/
def boundary (r : Row) (rest : List Row) : Option (Text × Nat) :=
  if isWhileTrue r.trimmed then
    ((rest.dropWhile Row.isBlank).head?.bind fun next => parseIfNotBreak next.trimmed).map fun cond =>
      (cond, (rest.takeWhile Row.isBlank).length + 1)
  else none

def boundaryText (r : Row) (cond : Text) : Text :=
  List.replicate ((indentOf r.text).map Char.utf8Size).sum ' ' ++ "while (".toList ++ cond ++ ") \x7b".toList

/-- So many lines are skipped first. -/
def foldWhileFrom : Nat → List Row → List Row
  | _, [] => []
  | skip + 1, _ :: rest => foldWhileFrom skip rest
  | 0, r :: rest =>
    match boundary r rest with
    | some (cond, taken) => ⟨r.origin, boundaryText r cond⟩ :: foldWhileFrom taken rest
    | none => r :: foldWhileFrom 0 rest

def foldWhileTrueBreak (rows : List Row) : List Row := foldWhileFrom 0 rows

def minimizeGotos (rows : List Row) : List Row :=
  foldWhileTrueBreak (dropUntargeted parseGoto (dropFallthrough rows))

/-! ## `fold_goto_return_and_trivial_rejoins` -/

/-- The lines behind the last line with this label. -/
def behindLabel (lab : Text) : List Row → Option (List Row)
  | [] => none
  | r :: rest => (behindLabel lab rest).or (if r.label? = some lab then some rest else none)

/-- The return behind a label. -/
def returnAt (rows : List Row) (lab : Text) : Option Text :=
  ((behindLabel lab rows).bind fun rest => (rest.find? fun q => !q.isBlank).map Row.trimmed).filter
    (startsWith · "return")

/-- A goto without the comment behind it. -/
def stripReason (t : Text) : Text :=
  if contains t "goto " && contains t "/*" then
    let head := trimEnd (before "/*".toList t)
    if endsWith head ";" then indentOf t ++ trimStart head else t
  else t

def foldRow (rows : List Row) (r : Row) : Row :=
  match r.goto?.bind (returnAt rows) with
  | some ret => ⟨r.origin, indentOf r.text ++ ret⟩
  | none => ⟨r.origin, stripReason r.text⟩

def foldGotoReturn (rows : List Row) : List Row := dropUntargeted parseGotoLoose (rows.map (foldRow rows))

/-! ## Fail leaves -/

/-- `trim_end_matches(';')`. -/
def trimSemicolons (t : Text) : Text := (t.reverse.dropWhile (· = ';')).reverse

def isBareFailReturnLine (l : Text) : Bool :=
  let t := (trim (trimSemicolons (trim l))).map Char.toLower
  ["return", "return 0", "return 0x0", "return 0x00", "return ((u64)rax ^ (u64)rax)",
      "return (u64)(u64)rax ^ (u64)rax", "return;", "return 0;"].any (fun s => t = s.toList) ||
    startsWith t "return" && (contains t "/* gs-cookie" || contains t "/*cookie")

def isPureFailLeafBody (body : List Text) : Bool :=
  let control := fun t => ["goto ", "while", "for ", "switch", "+", "mem_"].any (contains t)
  let returns := body.filter fun l => startsWith (trim l) "return"
  let plain := fun l => trim l = [] || trim l = "\x7d".toList || startsWith (trim l) "/*" || startsWith (trim l) "return" ||
    ["arg_0 = 0x14", "security_check", "__report", "abort", "call(", "FUN_"].any (contains (trim l))
  let failCall := ["security_check", "__report", "abort", "gsfail", "guard_check"].any
    (contains ([' '].intercalate body))
  body ≠ [] && body.length ≤ 4 && !(body.any control) && returns ≠ [] && returns.all isBareFailReturnLine &&
    body.all plain && (failCall || returns.all isBareFailReturnLine)

/-- The depth of braces behind a line, and whether the line starts with a closing one. -/
def braces (depth : Int) (t : Text) : Int × Bool :=
  let opened := if endsWith t "\x7b" then depth + 1 else depth
  if startsWith t "\x7d" then (opened - 1, true) else (opened, false)

/-- The lines of a block: up to the next label, a brace that closes more than was opened, or
where `stops` says so of a line and what is collected; `keeps` selects what is collected. The
rest starts with the line where it stopped, unless that line is consumed. -/
def scanBody (keeps : Text → Bool) (stops : Text → List Text → Option Bool) (depth : Int) (body : List Text) :
    List Row → List Text × List Row
  | [] => (body, [])
  | r :: rest =>
    let t := r.trimmed
    let (depth', closes) := braces depth t
    if (parseLabel t).isSome && depth = 0 then (body, r :: rest)
    else if closes && depth' < 0 then (body, r :: rest)
    else
      let body := if keeps t then body ++ [r.text] else body
      match stops t body with
      | some consumed => (body, if consumed then rest else r :: rest)
      | none => scanBody keeps stops depth' body rest

/-- The labels with their blocks; a round for each line is enough. -/
def labelBodies (scan : List Row → List Text × List Row) : Nat → List Row → List (Text × List Text)
  | 0, _ => []
  | _ + 1, [] => []
  | n + 1, r :: rest =>
    match r.label? with
    | some lab => (lab, (scan rest).1) :: labelBodies scan n (scan rest).2
    | none => labelBodies scan n rest

/-! ## `inline_leaf_goto_targets` -/

/-- A leaf is collected up to its return, or up to six lines. -/
def leafScan : List Row → List Text × List Row :=
  scanBody (fun _ => true)
    (fun t body =>
      if startsWith t "return" || contains t "__report" || contains t "abort" then some true
      else if 6 ≤ body.length then some false
      else none) 0 []

/-- The leaves, the last one of a label first. -/
def leaves (rows : List Row) : List (Text × List Text) :=
  ((labelBodies leafScan rows.length rows).filter fun entry => isPureFailLeafBody (entry.2.map trim)).reverse

def inlineRow (bodies : List (Text × List Text)) (r : Row) : List Row :=
  match r.goto?.bind fun lab => List.lookup lab bodies with
  | some body => (body.filter fun b => trim b ≠ []).map fun b => ⟨r.origin, indentOf r.text ++ trim b⟩
  | none => [r]

/-- Without the leaves that no goto is left to. -/
def dropLeaves (bodies : List (Text × List Text)) (targeted : Text → Bool) : Option Text → List Row → List Row
  | _, [] => []
  | skipping, r :: rest =>
    match r.label?, skipping with
    | some lab, _ =>
      if (List.lookup lab bodies).isSome && !targeted lab then dropLeaves bodies targeted (some lab) rest
      else r :: dropLeaves bodies targeted none rest
    | none, some lab =>
      let t := r.trimmed
      if ((List.lookup lab bodies).any fun body => body.any fun b => trim b = t) || startsWith t "return" || t = "\x7d".toList then
        dropLeaves bodies targeted (if t = "\x7d".toList then none else some lab) rest
      else r :: dropLeaves bodies targeted (some lab) rest
    | none, none => r :: dropLeaves bodies targeted none rest

def inlineLeafGotoTargets (rows : List Row) : List Row :=
  if leaves rows = [] then rows
  else
    let out := rows.flatMap (inlineRow (leaves rows))
    dropLeaves (leaves rows) (isTargeted parseGotoLoose out) none out

/-! ## `strip_security_cookie_gotos` -/

/-- The lines that are not blank, up to five. -/
def failScan : List Row → List Text × List Row :=
  scanBody (fun t => t ≠ []) (fun _ body => if 4 < body.length then some false else none) 0 []

def collectPureFailLabels (rows : List Row) : List Text :=
  ((labelBodies failScan rows.length rows).filter fun entry => isPureFailLeafBody (entry.2.map trim)).map Prod.fst

/-- `trim_start_matches("return")`. -/
def dropReturns : Text → Text
  | 'r' :: 'e' :: 't' :: 'u' :: 'r' :: 'n' :: rest => dropReturns rest
  | t => t

/-- What a return says. -/
def returnPayload (t : Text) : Text := trim (trimSemicolons (trim (dropReturns t)))

/-- Only bare returns up to the next label, and one at least. -/
def trivialReturn : Bool → List Row → Bool
  | sawReturn, [] => sawReturn
  | sawReturn, r :: rest =>
    let t := r.trimmed
    if r.label?.isSome then sawReturn
    else if t = [] || t = "\x7b".toList || t = "\x7d".toList then trivialReturn sawReturn rest
    else if startsWith t "return" then
      let payload := returnPayload t
      if payload = [] || payload = "0".toList || payload = "0x0".toList then trivialReturn true rest else false
    else false

def labelIsTrivialReturn (rows : List Row) (lab : Text) : Bool :=
  match rows.dropWhile fun r => r.label? ≠ some lab with
  | _ :: rest => trivialReturn false rest
  | [] => false

/-- A goto to a fail leaf or to no label becomes a return. -/
def stripRow (rows : List Row) (r : Row) : Row :=
  let cookieContext := rows.any fun q => contains q.text "g_14" || contains q.text "0x14001a" || contains q.text "cookie"
  match r.goto? with
  | some lab =>
    let isFail := (collectPureFailLabels rows).contains lab || cookieContext && labelIsTrivialReturn rows lab
    let orphan := rows.all fun q => q.label? ≠ some lab
    if isFail || orphan then ⟨r.origin, indentOf r.text ++ "return;".toList⟩ else r
  | none => r

/-- Without the fail leaves that no goto is left to. -/
def dropFailLeaves (failLeaves : List Text) (targeted : Text → Bool) : Bool → List Row → List Row
  | _, [] => []
  | skipping, r :: rest =>
    let t := r.trimmed
    match r.label? with
    | some lab =>
      if failLeaves.contains lab && !targeted lab then dropFailLeaves failLeaves targeted true rest
      else r :: dropFailLeaves failLeaves targeted false rest
    | none =>
      if skipping then
        if t = "\x7d".toList then dropFailLeaves failLeaves targeted false rest
        else if startsWith t "return" || t = [] || startsWith t "call(" || contains t "FUN_" then
          dropFailLeaves failLeaves targeted true rest
        else r :: dropFailLeaves failLeaves targeted false rest
      else r :: dropFailLeaves failLeaves targeted false rest

def stripSecurityCookieGotos (rows : List Row) : List Row :=
  let out := rows.map (stripRow rows)
  dropFailLeaves (collectPureFailLabels rows) (isTargeted parseGotoLoose out) false out

/-- The passes of `apply_cfg_only` over gotos. -/
def cfgOnlyGotos (rows : List Row) : List Row :=
  stripSecurityCookieGotos (inlineLeafGotoTargets (foldGotoReturn (minimizeGotos rows)))

/-! ## Blanks -/

theorem trim_blanks_append {blanks : Text} (h : ∀ c ∈ blanks, isWhitespace c) (t : Text) : trim (blanks ++ t) = trim t := by
  simp only [trim, List.dropWhile_append_of_pos h]

theorem trim_append_blanks {blanks : Text} (h : ∀ c ∈ blanks, isWhitespace c) (t : Text) : trim (t ++ blanks) = trim t := by
  have hrev : ∀ c ∈ blanks.reverse, isWhitespace c := fun c hc => h c (List.mem_reverse.mp hc)
  simp only [trim, List.dropWhile_append]
  split
  · next hempty =>
    have hnone : blanks.dropWhile isWhitespace = [] := List.dropWhile_eq_nil_iff.mpr h
    simp [hnone, List.isEmpty_iff.mp hempty]
  · simp [List.reverse_append, List.dropWhile_append_of_pos hrev]

theorem isWhitespace_indentOf (t : Text) : ∀ c ∈ indentOf t, isWhitespace c := fun _ => List.mem_takeWhile_imp

@[simp] theorem trim_indentOf_append (t x : Text) : trim (indentOf t ++ x) = trim x :=
  trim_blanks_append (isWhitespace_indentOf t) x

@[simp] theorem trim_trimStart (t : Text) : trim (trimStart t) = trim t := by
  conv_rhs => rw [← List.takeWhile_append_dropWhile (p := isWhitespace) (l := t)]
  exact (trim_blanks_append (isWhitespace_indentOf t) _).symm

/-- The blanks behind a text. -/
theorem trimEnd_append (t : Text) : ∃ blanks, (∀ c ∈ blanks, isWhitespace c) ∧ t = trimEnd t ++ blanks := by
  refine ⟨(t.reverse.takeWhile isWhitespace).reverse, fun c hc => List.mem_takeWhile_imp (List.mem_reverse.mp hc), ?_⟩
  rw [trimEnd, ← List.reverse_append, List.takeWhile_append_dropWhile, List.reverse_reverse]

@[simp] theorem trim_trimEnd (t : Text) : trim (trimEnd t) = trim t := by
  obtain ⟨blanks, hblanks, ht⟩ := trimEnd_append t
  calc trim (trimEnd t) = trim (trimEnd t ++ blanks) := (trim_append_blanks hblanks _).symm
    _ = trim t := by rw [← ht]

/-- A text that ends with no blank keeps its end. -/
theorem trim_append_singleton (t : Text) {c : Char} (hc : isWhitespace c = false) : trim (t ++ [c]) = trimStart t ++ [c] := by
  simp only [trim, trimStart, List.dropWhile_append]
  split
  · next hempty => simp [hc, List.isEmpty_iff.mp hempty]
  · simp [hc]


theorem stripPrefix_eq_some {lead : String} {t rest : Text} : stripPrefix lead t = some rest ↔ t = lead.toList ++ rest := by
  constructor
  · intro h
    unfold stripPrefix startsWith at h
    split at h
    · next hlead =>
      obtain ⟨tail, rfl⟩ := List.isPrefixOf_iff_prefix.mp hlead
      simpa using h
    · cases h
  · intro h
    subst h
    simp [stripPrefix, startsWith]

theorem stripSuffix_eq_some {tail : String} {t rest : Text} : stripSuffix tail t = some rest ↔ t = rest ++ tail.toList := by
  constructor
  · intro h
    unfold stripSuffix endsWith at h
    split at h
    · next htail =>
      obtain ⟨lead, rfl⟩ := List.isSuffixOf_iff_suffix.mp htail
      simpa using h
    · cases h
  · intro h
    subst h
    simp [stripSuffix, endsWith]

/-- What comes before a break is one line. -/
theorem linesFrom_break {line : Text} (h : '\n' ∉ line) (begun rest : Text) :
    linesFrom begun (line ++ '\n' :: rest) =
      (stripSuffix "\r" (begun ++ line)).getD (begun ++ line) :: linesFrom [] rest := by
  induction line generalizing begun with
  | nil => simp [linesFrom]
  | cons c line ih =>
    have hc : c ≠ '\n' := fun heq => h (heq ▸ List.mem_cons_self)
    rw [List.cons_append, linesFrom, if_neg hc, ih fun hmem => h (List.mem_cons_of_mem _ hmem), List.append_assoc]
    rfl

@[simp] theorem trim_stripReturn (t : Text) : trim ((stripSuffix "\r" t).getD t) = trim t := by
  cases h : stripSuffix "\r" t with
  | none => rfl
  | some rest =>
    rw [stripSuffix_eq_some.mp h, trim_append_blanks (by decide)]
    rfl

/-- Lines that are broken off one by one are found again. -/
theorem trim_linesOf {lines : List Text} (h : ∀ l ∈ lines, '\n' ∉ l) :
    (linesOf (lines.flatMap (· ++ ['\n']))).map trim = lines.map trim := by
  unfold linesOf
  induction lines with
  | nil => rfl
  | cons l rest ih =>
    rw [List.flatMap_cons, List.append_assoc, List.singleton_append, linesFrom_break (h l List.mem_cons_self),
      List.map_cons, List.nil_append, trim_stripReturn, ih fun q hq => h q (List.mem_cons_of_mem _ hq)]
    rfl

/-! ## A goto and its comment -/

/-- The label that a goto starts with. -/
def labelOf (rest : Text) : Option Text := startsWithL (trim (rest.takeWhile fun c => !endsLabel c))

theorem labelOf_append_blanks {blanks : Text} (h : ∀ c ∈ blanks, isWhitespace c) (rest : Text) :
    labelOf (rest ++ blanks) = labelOf rest := by
  have hblanks : ∀ c ∈ blanks.takeWhile (fun c => !endsLabel c), isWhitespace c :=
    fun c hc => h c (List.takeWhile_subset _ hc)
  unfold labelOf
  rw [List.takeWhile_append]
  split
  · next hall =>
    have hself : rest.takeWhile (fun c => !endsLabel c) = rest :=
      (List.takeWhile_prefix _).eq_of_length hall
    rw [trim_append_blanks hblanks, hself]
  · rfl

theorem labelOf_blanks {blanks : Text} (h : ∀ c ∈ blanks, isWhitespace c) : labelOf blanks = none := by
  have := labelOf_append_blanks h []
  rw [List.nil_append] at this
  rw [this]
  rfl

/-- The label of a loose goto in a line, whatever blanks are around it. -/
theorem parseGotoLoose_trim (t : Text) : parseGotoLoose (trim t) = (stripPrefix "goto " (trimStart t)).bind labelOf := by
  obtain ⟨blanks, hblanks, ht⟩ := trimEnd_append (trimStart t)
  have htrim : trim t = trimEnd (trimStart t) := rfl
  rw [htrim]
  change (stripPrefix "goto " _).bind labelOf = _
  cases hend : stripPrefix "goto " (trimEnd (trimStart t)) with
  | some rest =>
    -- the blanks are behind the label
    have hstart : trimStart t = "goto ".toList ++ (rest ++ blanks) := by
      rw [ht, stripPrefix_eq_some.mp hend, List.append_assoc]
    rw [stripPrefix_eq_some.mpr hstart]
    exact (labelOf_append_blanks hblanks rest).symm
  | none =>
    cases hstart : stripPrefix "goto " (trimStart t) with
    | none => rfl
    | some rest =>
      -- nothing but blanks is behind the word
      have heq : "goto ".toList ++ rest = trimEnd (trimStart t) ++ blanks := by rw [← stripPrefix_eq_some.mp hstart, ← ht]
      obtain ⟨tail, hword, hrest⟩ | ⟨tail, hword, hrest⟩ := List.append_eq_append_iff.mp heq
      · rw [stripPrefix_eq_some.mpr hword] at hend
        cases hend
      · have hnone : labelOf rest = none := labelOf_blanks fun c hc => hblanks c (hrest ▸ List.mem_append_right _ hc)
        exact hnone.symm

/-- The comment behind a goto is behind the end of its label. -/
theorem takeWhile_before (t : Text) :
    (before "/*".toList t).takeWhile (fun c => !endsLabel c) = t.takeWhile fun c => !endsLabel c := by
  induction t with
  | nil => rfl
  | cons c cs ih =>
    rw [before]
    split
    · next hcomment =>
      have hslash : c = '/' := by
        have := (List.cons_prefix_cons.mp (List.isPrefixOf_iff_prefix.mp hcomment)).1
        exact this.symm
      simp [hslash, endsLabel]
    · simp only [List.takeWhile_cons, ih]

theorem before_append {needle a : Text} {c : Char} (h : c ∉ a) (t : Text) :
    before (c :: needle) (a ++ t) = a ++ before (c :: needle) t := by
  induction a with
  | nil => rfl
  | cons x a ih =>
    have hne : c ≠ x := fun heq => h (heq ▸ List.mem_cons_self)
    have hno : (c :: needle).isPrefixOf (x :: (a ++ t)) = false := by simp [List.isPrefixOf, hne]
    rw [List.cons_append, before, hno]
    simp [ih fun hc => h (List.mem_cons_of_mem _ hc)]

/-- A goto stays a goto without its comment. -/
theorem goto_stripReason {t lab : Text} (h : parseGotoLoose (trim t) = some lab) :
    parseGotoLoose (trim (stripReason t)) = some lab := by
  unfold stripReason
  split
  · dsimp only
    split
    · rw [parseGotoLoose_trim, Option.bind_eq_some_iff] at h
      obtain ⟨rest, hrest, hlab⟩ := h
      have ht : t = (indentOf t ++ "goto ".toList) ++ rest := by
        rw [List.append_assoc, ← stripPrefix_eq_some.mp hrest]
        exact List.takeWhile_append_dropWhile.symm
      have hslash : '/' ∉ indentOf t ++ "goto ".toList := by
        intro hmem
        rcases List.mem_append.mp hmem with hblank | hword
        · exact absurd (isWhitespace_indentOf t _ hblank) (by decide)
        · exact absurd hword (by decide)
      have hbefore : before "/*".toList t = indentOf t ++ ("goto ".toList ++ before "/*".toList rest) := by
        conv_lhs => rw [ht]
        rw [← List.append_assoc]
        exact before_append hslash rest
      have hstart : trimStart ("goto ".toList ++ before "/*".toList rest) = "goto ".toList ++ before "/*".toList rest := rfl
      rw [trim_indentOf_append, trim_trimStart, trim_trimEnd, hbefore, trim_indentOf_append, parseGotoLoose_trim, hstart,
        stripPrefix_eq_some.mpr rfl]
      calc labelOf (before "/*".toList rest) = labelOf rest := by rw [labelOf, takeWhile_before, labelOf]
        _ = some lab := hlab
    · exact h
  · exact h

theorem parseLabel_append (t : Text) {c : Char} (hc : c ≠ ':') : parseLabel (t ++ [c]) = none := by
  have hnone : stripSuffix ":" (t ++ [c]) = none := by
    rw [Option.eq_none_iff_forall_ne_some]
    intro rest h
    have := List.append_inj_right' (stripSuffix_eq_some.mp h) rfl
    exact hc (List.singleton_inj.mp this)
  rw [parseLabel, hnone]
  rfl

/-- No label appears where a comment goes. -/
theorem label_stripReason {t : Text} (h : parseLabel (trim t) = none) : parseLabel (trim (stripReason t)) = none := by
  unfold stripReason
  split
  · dsimp only
    split
    · next hsemi =>
      obtain ⟨lead, hlead⟩ := List.isSuffixOf_iff_suffix.mp hsemi
      have hhead : trimEnd (before "/*".toList t) = lead ++ [';'] := hlead.symm
      rw [trim_indentOf_append, trim_trimStart, hhead, trim_append_singleton lead (by decide)]
      exact parseLabel_append _ (by decide)
    · exact h
  · exact h

/-! ## Without a goto that ends its line -/

theorem goto_head {t lab : Text} (h : parseGotoLoose t = some lab) : ∃ rest, t = "goto ".toList ++ rest := by
  obtain ⟨rest, hrest, -⟩ := Option.bind_eq_some_iff.mp h
  exact ⟨rest, stripPrefix_eq_some.mp hrest⟩

theorem Row.label?_of_goto {r : Row} {lab : Text} (h : r.goto? = some lab) : r.label? = none := by
  obtain ⟨rest, hrest⟩ := goto_head h
  rw [Row.label?, parseLabel, Option.bind_eq_none_iff]
  intro t ht
  have hcolon := stripSuffix_eq_some.mp ht
  rw [hrest] at hcolon
  cases t with
  | nil => exact absurd hcolon (by simp)
  | cons c cs =>
    have hg : 'g' = c := by
      have := congrArg List.head? hcolon
      simpa using this
    simp [startsWithL, ← hg]

variable {rows : List Row}

theorem dropFallthrough_eq (h : ∀ r ∈ rows, parseGoto r.trimmed = none) : dropFallthrough rows = rows := by
  induction rows with
  | nil => rfl
  | cons r rest ih =>
    rw [dropFallthrough, h r List.mem_cons_self, ih fun q hq => h q (List.mem_cons_of_mem _ hq)]

theorem dropUntargeted_none {parse : Text → Option Text} (h : ∀ r ∈ rows, parse r.trimmed = none) :
    dropUntargeted parse rows = rows.filter fun r => r.label?.isNone := by
  have hno : ∀ lab, isTargeted parse rows lab = false := by
    intro lab
    simp only [isTargeted, List.any_eq_false]
    intro r hr
    simp [h r hr]
  apply List.filter_congr
  intro r hr
  cases hlab : r.label? with
  | none => rfl
  | some lab => simp [hno]

theorem dropUntargeted_eq {parse : Text → Option Text} (h : ∀ r ∈ rows, r.label? = none) :
    dropUntargeted parse rows = rows := by
  apply List.filter_eq_self.mpr
  intro r hr
  simp [h r hr]

/-! ## The loop boundary -/

theorem foldWhileFrom_drop (skip : Nat) (rows : List Row) : foldWhileFrom skip rows = foldWhileFrom 0 (rows.drop skip) := by
  induction skip generalizing rows with
  | zero => rfl
  | succ skip ih =>
    cases rows with
    | nil => rfl
    | cons r rest => exact ih rest

/-- What a fold takes: the blank lines, and the line of the break. -/
theorem boundary_taken {r : Row} {rest : List Row} {cond : Text} {taken : Nat} (h : boundary r rest = some (cond, taken)) :
    isWhileTrue r.trimmed ∧ ∃ blanks next rest', rest = blanks ++ next :: rest' ∧ taken = blanks.length + 1 ∧
      (∀ q ∈ blanks, q.isBlank) ∧ (parseIfNotBreak next.trimmed).isSome := by
  unfold boundary at h
  split at h
  · next hwhile =>
    obtain ⟨found, hfound, hpair⟩ := Option.map_eq_some_iff.mp h
    obtain ⟨next, hnext, hcond⟩ := Option.bind_eq_some_iff.mp hfound
    obtain ⟨rest', hrest'⟩ : ∃ rest', rest.dropWhile Row.isBlank = next :: rest' := List.head?_eq_some_iff.mp hnext
    refine ⟨hwhile, rest.takeWhile Row.isBlank, next, rest', ?_, ?_, ?_, ?_⟩
    · rw [← hrest', List.takeWhile_append_dropWhile]
    · exact (congrArg Prod.snd hpair).symm
    · exact fun q hq => List.mem_takeWhile_imp hq
    · simp [hcond]
  · cases h

theorem foldWhileFrom_origins (rows : List Row) (skip : Nat) :
    List.Sublist ((foldWhileFrom skip rows).map Row.origin) (rows.map Row.origin) := by
  induction rows generalizing skip with
  | nil => cases skip <;> exact List.Sublist.slnil
  | cons r rest ih =>
    cases skip with
    | succ skip => exact (ih skip).cons r.origin
    | zero =>
      rw [foldWhileFrom]
      split
      · exact (ih _).cons_cons r.origin
      · exact (ih _).cons_cons r.origin

theorem label?_boundaryText (r : Row) (cond : Text) : (Row.mk r.origin (boundaryText r cond)).label? = none := by
  change parseLabel (trim (boundaryText r cond)) = none
  have hbrace : boundaryText r cond =
      (List.replicate ((indentOf r.text).map Char.utf8Size).sum ' ' ++ "while (".toList ++ cond ++ ") ".toList) ++ ['\x7b'] := by
    simp [boundaryText]
  rw [hbrace, trim_append_singleton _ (by decide)]
  exact parseLabel_append _ (by decide)

theorem label_foldWhileFrom (h : ∀ r ∈ rows, r.label? = none) (skip : Nat) :
    ∀ r ∈ foldWhileFrom skip rows, r.label? = none := by
  induction rows generalizing skip with
  | nil => cases skip <;> simp [foldWhileFrom]
  | cons q rest ih =>
    have hrest := ih fun r hr => h r (List.mem_cons_of_mem _ hr)
    cases skip with
    | succ skip => exact hrest skip
    | zero =>
      rw [foldWhileFrom]
      split
      · next cond taken _ =>
        intro r hr
        rcases List.mem_cons.mp hr with rfl | hr
        · exact label?_boundaryText q cond
        · exact hrest taken r hr
      · intro r hr
        rcases List.mem_cons.mp hr with rfl | hr
        · exact h r List.mem_cons_self
        · exact hrest 0 r hr

/-- A goto is neither blank, nor a loop, nor a break. -/
theorem Row.goto_alone {r : Row} (h : r.goto?.isSome) :
    r.isBlank = false ∧ isWhileTrue r.trimmed = false ∧ parseIfNotBreak r.trimmed = none := by
  obtain ⟨lab, hlab⟩ := Option.isSome_iff_exists.mp h
  obtain ⟨rest, hrest⟩ := goto_head hlab
  have htrim : trim r.trimmed = r.trimmed := by
    rw [Row.trimmed]
    exact (trim_trimEnd (trimStart r.text)).trans (trim_trimStart r.text)
  refine ⟨?_, ?_, ?_⟩
  · simp [Row.isBlank, hrest]
  · simp [isWhileTrue, startsWith, hrest, List.isPrefixOf]
  · have hif : stripPrefix "if" ("goto ".toList ++ rest) = none := by
      simp [stripPrefix, startsWith, List.isPrefixOf]
    unfold parseIfNotBreak
    rw [htrim, hrest]
    simp only [hif, Option.map_none, Option.bind_none, ite_self]

theorem mem_foldWhileTrueBreak {r : Row} (hr : r ∈ rows) (hgoto : r.goto?.isSome) :
    r ∈ foldWhileTrueBreak rows := by
  obtain ⟨hblank, hwhile, hbreak⟩ := Row.goto_alone hgoto
  unfold foldWhileTrueBreak
  -- the lines behind a fold are fewer
  induction hn : rows.length using Nat.strongRecOn generalizing rows with
  | _ n ih =>
    cases rows with
    | nil => cases hr
    | cons q rest =>
      rw [foldWhileFrom]
      split
      · next cond taken hboundary =>
        obtain ⟨hq, blanks, next, rest', hrest, htaken, hblanks, hnext⟩ := boundary_taken hboundary
        have hmem : r ∈ rest' := by
          rcases List.mem_cons.mp hr with rfl | hr
          · rw [hwhile] at hq
            cases hq
          rw [hrest] at hr
          rcases List.mem_append.mp hr with hin | hin
          · rw [hblanks r hin] at hblank
            cases hblank
          · rcases List.mem_cons.mp hin with rfl | hin
            · rw [hbreak] at hnext
              cases hnext
            · exact hin
        have hdrop : rest.drop taken = rest' := by rw [hrest, htaken]; simp
        rw [foldWhileFrom_drop, hdrop]
        apply List.mem_cons_of_mem
        apply ih rest'.length _ hmem rfl
        simp only [← hn, hrest, List.length_cons, List.length_append]
        omega
      · rcases List.mem_cons.mp hr with rfl | hr
        · exact List.mem_cons_self
        · apply List.mem_cons_of_mem
          exact ih rest.length (by simp [← hn]) hr rfl

/-! ## Without labels -/

theorem behindLabel_none (h : ∀ r ∈ rows, r.label? = none) (lab : Text) : behindLabel lab rows = none := by
  induction rows with
  | nil => rfl
  | cons r rest ih =>
    rw [behindLabel, ih fun q hq => h q (List.mem_cons_of_mem _ hq), h r List.mem_cons_self]
    rfl

/-- The line without the comment behind its goto. -/
def Row.bare (r : Row) : Row := ⟨r.origin, stripReason r.text⟩

theorem foldGotoReturn_eq (h : ∀ r ∈ rows, r.label? = none) : foldGotoReturn rows = rows.map Row.bare := by
  have hrow : foldRow rows = Row.bare := by
    funext r
    have hnone : r.goto?.bind (returnAt rows) = none := by
      rw [Option.bind_eq_none_iff]
      intro lab _
      rw [returnAt, behindLabel_none h]
      rfl
    rw [foldRow, hnone]
    rfl
  rw [foldGotoReturn, hrow]
  apply dropUntargeted_eq
  intro q hq
  obtain ⟨r, hr, rfl⟩ := List.mem_map.mp hq
  exact label_stripReason (h r hr)

theorem labelBodies_nil (h : ∀ r ∈ rows, r.label? = none) (scan : List Row → List Text × List Row)
    (n : Nat) : labelBodies scan n rows = [] := by
  induction n generalizing rows with
  | zero => rfl
  | succ n ih =>
    cases rows with
    | nil => rfl
    | cons r rest =>
      rw [labelBodies, h r List.mem_cons_self]
      exact ih fun q hq => h q (List.mem_cons_of_mem _ hq)

theorem inlineLeafGotoTargets_eq (h : ∀ r ∈ rows, r.label? = none) : inlineLeafGotoTargets rows = rows := by
  have hleaves : leaves rows = [] := by rw [leaves, labelBodies_nil h]; rfl
  rw [inlineLeafGotoTargets, if_pos hleaves]

/-- The line, a return in place of a goto. -/
def Row.returned (r : Row) : Row := if r.goto?.isSome then ⟨r.origin, indentOf r.text ++ "return;".toList⟩ else r

theorem Row.label?_returned {r : Row} (h : r.label? = none) : r.returned.label? = none := by
  unfold Row.returned
  split
  · change parseLabel (trim (indentOf r.text ++ "return;".toList)) = none
    rw [trim_indentOf_append]
    decide
  · exact h

theorem dropFailLeaves_eq (h : ∀ r ∈ rows, r.label? = none) (failLeaves : List Text)
    (targeted : Text → Bool) : dropFailLeaves failLeaves targeted false rows = rows := by
  induction rows with
  | nil => rfl
  | cons r rest ih =>
    rw [dropFailLeaves, h r List.mem_cons_self, ih fun q hq => h q (List.mem_cons_of_mem _ hq)]
    rfl

/-- Without labels, every goto is an orphan. -/
theorem stripSecurityCookieGotos_eq (h : ∀ r ∈ rows, r.label? = none) :
    stripSecurityCookieGotos rows = rows.map Row.returned := by
  have hrow : stripRow rows = Row.returned := by
    funext r
    unfold stripRow Row.returned
    cases r.goto? with
    | none => rfl
    | some lab =>
      have horphan : (rows.all fun q => q.label? ≠ some lab) = true := by
        rw [List.all_eq_true]
        intro q hq
        simp [h q hq]
      simp only [horphan, Bool.or_true, if_true, Option.isSome_some]
  rw [stripSecurityCookieGotos, hrow]
  apply dropFailLeaves_eq
  intro q hq
  obtain ⟨r, hr, rfl⟩ := List.mem_map.mp hq
  exact Row.label?_returned (h r hr)

/-! ## All passes -/

/-- Where no goto ends its line, the first pass takes the labels away and the last one turns
the gotos into returns. -/
theorem cfgOnlyGotos_eq (h : ∀ r ∈ rows, parseGoto r.trimmed = none) :
    cfgOnlyGotos rows =
      (foldWhileTrueBreak (rows.filter fun r => r.label?.isNone)).map fun r => r.bare.returned := by
  have hminimize : minimizeGotos rows = foldWhileTrueBreak (rows.filter fun r => r.label?.isNone) := by
    rw [minimizeGotos, dropFallthrough_eq h, dropUntargeted_none h]
  have hlabels : ∀ r ∈ minimizeGotos rows, r.label? = none := by
    rw [hminimize]
    apply label_foldWhileFrom
    intro r hr
    simpa using (List.mem_filter.mp hr).2
  have hbare : ∀ r ∈ (minimizeGotos rows).map Row.bare, r.label? = none := by
    intro q hq
    obtain ⟨r, hr, rfl⟩ := List.mem_map.mp hq
    exact label_stripReason (hlabels r hr)
  rw [cfgOnlyGotos, foldGotoReturn_eq hlabels, inlineLeafGotoTargets_eq hbare, stripSecurityCookieGotos_eq hbare, hminimize,
    List.map_map]
  rfl

/-- The only line that comes from a goto is a bare return. -/
theorem cfgOnlyGotos_goto (h : ∀ r ∈ rows, parseGoto r.trimmed = none)
    (hnodup : (rows.map Row.origin).Nodup) {r : Row} (hr : r ∈ rows) (hgoto : r.goto?.isSome) :
    ((cfgOnlyGotos rows).filter fun q => q.origin = r.origin).map Row.trimmed = ["return;".toList] := by
  obtain ⟨lab, hlab⟩ := Option.isSome_iff_exists.mp hgoto
  let kept := foldWhileTrueBreak (rows.filter fun r => r.label?.isNone)
  have hmem : r ∈ kept := by
    apply mem_foldWhileTrueBreak _ hgoto
    exact List.mem_filter.mpr ⟨hr, by simp [Row.label?_of_goto hlab]⟩
  have hkept : (kept.map Row.origin).Nodup :=
    hnodup.sublist ((foldWhileFrom_origins _ 0).trans (List.filter_sublist.map Row.origin))
  have horigin : ∀ q : Row, q.bare.returned.origin = q.origin := by
    intro q
    unfold Row.returned
    split
    · rfl
    · rfl
  have honly : kept.filter (fun q => q.origin = r.origin) = [r] := by
    have hsame : ∀ q ∈ kept, q.origin = r.origin ↔ q = r := fun q hq =>
      ⟨fun heq => List.inj_on_of_nodup_map hkept hq hmem heq, congrArg Row.origin⟩
    calc kept.filter (fun q => q.origin = r.origin) = kept.filter (· = r) :=
          List.filter_congr fun q hq => decide_eq_decide.mpr (hsame q hq)
      _ = List.replicate (kept.count r) r := List.filter_eq r
      _ = [r] := by rw [List.count_eq_one_of_mem hkept.of_map hmem]; rfl
  have hreturned : r.bare.returned.trimmed = "return;".toList := by
    have hbare : r.bare.goto? = some lab := goto_stripReason hlab
    rw [Row.returned, hbare]
    exact trim_indentOf_append _ _
  rw [cfgOnlyGotos_eq h, List.filter_map]
  have hcongr : kept.filter ((fun q : Row => decide (q.origin = r.origin)) ∘ fun q => q.bare.returned) = [r] := by
    rw [← honly]
    apply List.filter_congr
    intro q _
    simp [horigin]
  rw [hcongr]
  simp [hreturned]

end Windy.Decompiler.Structure.Fold
