import Windy.Bel.Tokens
import Windy.Mcp.Artifact
import Windy.Mcp.Commit

/- The question that verifies an edit after its commit (`mcp.rs`: the `Commit` branch of
   `call_tool`, `canonical_investigation_input`, and the persistence branches of
   `run_investigation`).

   An edit request is a text with an address, and either the word `comment` and the text of a
   comment, or a name behind the last ` to `. The committed text goes into a question of English
   words, and the same functions that read the request take it out again.

   Texts are lists of characters. That an ASCII text has the same offsets in lower case makes
   positions in the one positions in the other.

   What is proved: the question is kept under the intent `verify`, and it is decoded to the
   address and the text exactly when a symbol has an underscore, does not begin with `0x`, is
   none of three field names and was not cut, when a comment has no quotes, and when neither
   has another address in it (`roundTrips_iff`).

   Correspondence:
     `expected_persisted_symbol`, `expected_persisted_comment` ↔ the same
     `quoted_value`, `parse_edit_request`, `is_persistence_query` ↔ the same
     `canonical_intent`, `canonical_investigation_input` ↔ the same
     the two `format!` of the commit ↔ `verifyQuestion`
     the first two branches of `run_investigation` ↔ `persistenceCheck` -/
namespace Windy.Persisted
open Sketch (asciiLowercase contains containsAny firstHexAddress hexText isWhitespace)
open Bel (Text trim endsToken)
open Commit (EditTarget)

/-! ## Finding -/

/-- `str::find`. -/
def find (needle text : Text) : Option Nat :=
  (List.range (text.length + 1)).find? fun i => needle.isPrefixOf (text.drop i)

/-- `str::rfind`. -/
def rfind (needle text : Text) : Option Nat :=
  (List.range (text.length + 1)).reverse.find? fun i => needle.isPrefixOf (text.drop i)

/-- `str::trim_matches`. -/
def trimMatches (p : Char → Bool) (text : Text) : Text := ((text.dropWhile p).reverse.dropWhile p).reverse

/-- The pieces of letters, digits and underscores. -/
def names (text : Text) : List Text := text.splitOnP endsToken

/-! ## Requests -/

def fieldNames : List Text := ["function_name".toList, "target_id".toList, "investigation_id".toList]

def isSymbol (token : Text) : Bool :=
  token.contains '_' && !"0x".toList.isPrefixOf token && !fieldNames.contains (asciiLowercase token)

def expectedPersistedSymbol (question : Text) : Option Text :=
  match rfind " to ".toList (asciiLowercase question) with
  | some index => (names (question.drop (index + 4))).find? (· ≠ [])
  | none => (names question).find? isSymbol

def singleQuote : Char := Char.ofNat 39

def doubleQuote : Char := Char.ofNat 34

/-- What stands between the first two quotes, if there is a first one. -/
def quotedBy (quote : Char) (value : Text) : Option (Option Text) :=
  (find [quote] value).map fun start =>
    let remainder := value.drop (start + 1)
    (find [quote] remainder).map remainder.take

def quotedValue (value : Text) : Option Text :=
  match quotedBy singleQuote value with
  -- Without a first single quote the function is left.
  | none => none
  | some (some found) => some found
  | some none => (quotedBy doubleQuote value).join

/-- The text behind the word `comment`, up to the address. -/
def unquotedComment (text : Text) : Option Text :=
  let tail := trim text
  let stop := (([" to 0x", " at 0x", " on 0x", " for 0x"].filterMap fun marker =>
    find marker.toList (asciiLowercase tail)).min?).getD tail.length
  let value := trimMatches (fun c => isWhitespace c || c = ':' || c = '-' || c = singleQuote || c = doubleQuote)
    (tail.take stop)
  if value = [] then none else some value

def expectedPersistedComment (question : Text) : Option Text :=
  (find "comment".toList (asciiLowercase question)).bind fun index =>
    (quotedValue question).or (unquotedComment (question.drop (index + 7)))

def genericVerbs : List Text :=
  ["rename".toList, "edit".toList, "change".toList, "comment".toList, "perform".toList, "apply".toList]

def parseEditRequest (question : Text) : Option (Nat × EditTarget × Text) := do
  let va ← firstHexAddress question
  if contains (asciiLowercase question) "comment" then
    let value ← expectedPersistedComment question
    return (va, .functionComment, value)
  else
    let index ← rfind " to ".toList (asciiLowercase question)
    let name ← (names (question.drop (index + 4))).find? (· ≠ [])
    if genericVerbs.contains (asciiLowercase name) then none else return (va, .function, name)

/-! ## Intents -/

def isPersistenceQuery (question : Text) : Bool := containsAny (asciiLowercase question) ["persist", "reopen", "renamed"]

def canonicalIntent (intent question : Text) : String :=
  let requested := asciiLowercase intent
  let lexical := asciiLowercase (intent ++ ' ' :: question)
  if containsAny requested ["edit", "rename", "comment"] then "edit"
  else if contains requested "verify" then "verify"
  else if containsAny lexical ["rename", "comment", "durable edit"] then "edit"
  else if containsAny lexical ["verify", "contradicted", "direct call edge"] then "verify"
  else if contains lexical "dump" then "dump"
  else if containsAny lexical ["capability", "deep index"] then "capability"
  else if containsAny lexical ["compare", "similar"] then "compare"
  else if containsAny lexical ["trace", "caller", "pipeline", "provenance"] then "trace"
  else if containsAny lexical ["read data", "pointer", "structure"] then "read_data"
  else if containsAny lexical ["explain", "summarize", "operations"] then "explain"
  else "locate"

/-- `binding_specificity`: a length is that of the UTF-8 encoding. -/
def bindingSpecificity (binding : Nat × EditTarget × Text) : Nat :=
  let value := binding.2.2
  let long := if 8 ≤ (value.map Char.utf8Size).sum then 2 else 0
  match binding.2.1 with
  | .function => (if value.contains '_' then 4 else 0) + long
  | .functionComment => long + if value.contains ' ' then 4 else 0

def canonicalInvestigationInput (intent question : Text) : String × Text :=
  let suppliedIntent := trim intent
  let canonical := canonicalIntent suppliedIntent question
  let compiledQuestion :=
    if canonical = "edit" then
      match parseEditRequest question, parseEditRequest suppliedIntent with
      | some questionValue, some intentValue =>
        if bindingSpecificity questionValue < bindingSpecificity intentValue then suppliedIntent else question
      | some _, none => question
      | none, some _ => suppliedIntent
      | none, none => question
    else if suppliedIntent = [] ∨ asciiLowercase suppliedIntent = asciiLowercase canonical.toList then question
    else suppliedIntent ++ (". ".toList ++ question)
  (canonical, compiledQuestion)

/-! ## The question -/

/-- The text that is committed for a value. -/
def committed (value : Text) : Text := (Artifact.sanitizeUntrustedText (String.ofList value) 256).toList

def isQuote (c : Char) : Bool := c = singleQuote || c = doubleQuote

/-- What both questions end with. -/
def questionEnd : Text := "persists after reopen. Return exactly PERSISTED or NOT_PERSISTED.".toList

def verifyQuestion (va value : Text) : EditTarget → Text
  | .functionComment => "Verify the function comment ".toList ++ singleQuote :: (value.filter (fun c => !isQuote c) ++
      singleQuote :: (" at".toList ++ ' ' :: (va ++ ' ' :: questionEnd)))
  | .function => "Verify the renamed symbol".toList ++ ' ' :: (value ++ ' ' :: ("at".toList ++ ' ' :: (va ++ ' ' :: questionEnd)))

/-- What an investigation looks up: the comment or the symbol at an address, and what it should be. -/
inductive Check where
  | comment (va : Nat) (expected : Text)
  | symbol (va : Nat) (expected : Text)
  deriving DecidableEq

/-- The persistence branches, for a question under an intent. -/
def persistenceCheck (intent : String) (question : Text) : Option Check :=
  if intent = "verify" ∧ isPersistenceQuery question then
    (firstHexAddress question).bind fun va =>
      (if contains (asciiLowercase question) "comment" then (expectedPersistedComment question).map (.comment va) else none).or
        ((expectedPersistedSymbol question).map (.symbol va))
  else none

/-! ## What should hold -/

def Check.of (va : Nat) (value : Text) : EditTarget → Check
  | .function => .symbol va value
  | .functionComment => .comment va value

/-- The question is kept, and is decoded to the address and the text. -/
structure RoundTrips (va : Nat) (target : EditTarget) (value : Text) : Prop where
  kept : canonicalInvestigationInput "verify".toList (verifyQuestion (hexText va).toList value target) =
    ("verify", verifyQuestion (hexText va).toList value target)
  decoded : persistenceCheck "verify" (verifyQuestion (hexText va).toList value target) = some (Check.of va value target)

/-- The text has no address but this one in the first place. -/
def NoOtherAddress (va : Nat) (text : Text) : Prop := firstHexAddress text = none ∨ firstHexAddress text = some va

def Verifiable (va : Nat) (value : Text) : EditTarget → Prop
  | .function => value.length ≤ 256 ∧ isSymbol value = true ∧ NoOtherAddress va value
  | .functionComment => (∀ c ∈ committed value, isQuote c = false) ∧ NoOtherAddress va (committed value)

/-! ## Finding in parts -/

section Finding
variable {needle text : Text}

theorem find_eq_some_iff {i : Nat} : find needle text = some i ↔
    i ≤ text.length ∧ needle <+: text.drop i ∧ ∀ j < i, ¬ needle <+: text.drop j := by
  rw [find, List.find?_range_eq_some, List.mem_range, List.isPrefixOf_iff_prefix, Nat.lt_succ_iff]
  simp only [Bool.not_eq_true', Bool.eq_false_iff, ne_eq, List.isPrefixOf_iff_prefix]
  tauto

theorem rfind_eq_none_iff : rfind needle text = none ↔ ¬ needle <:+: text := by
  rw [rfind, List.find?_eq_none, List.infix_iff_prefix_suffix]
  constructor
  · rintro h ⟨tail, hneedle, hsuffix⟩
    refine h (text.length - tail.length) ?_ ?_
    · rw [List.mem_reverse, List.mem_range]
      omega
    · rw [List.isPrefixOf_iff_prefix, ← List.suffix_iff_eq_drop.mp hsuffix]
      exact hneedle
  · intro h i _ hstarts
    exact h ⟨text.drop i, List.isPrefixOf_iff_prefix.mp hstarts, List.drop_suffix i text⟩

theorem exists_find (h : needle <:+: text) : ∃ i, find needle text = some i := by
  obtain ⟨tail, hneedle, hsuffix⟩ := List.infix_iff_prefix_suffix.mp h
  rw [← Option.isSome_iff_exists, find, List.find?_isSome]
  refine ⟨text.length - tail.length, List.mem_range.mpr (by omega), ?_⟩
  rw [List.isPrefixOf_iff_prefix, ← List.suffix_iff_eq_drop.mp hsuffix]
  exact hneedle

/-- The last place is the one with none behind it. -/
theorem rfind_eq_some {i : Nat} (hi : i ≤ text.length) (hstarts : needle <+: text.drop i)
    (hlast : ∀ j, i < j → ¬ needle <+: text.drop j) : rfind needle text = some i := by
  cases hfound : rfind needle text with
  | none => exact absurd (List.infix_iff_prefix_suffix.mpr ⟨_, hstarts, List.drop_suffix i text⟩) (rfind_eq_none_iff.mp hfound)
  | some j =>
    obtain ⟨hj, before, after, hsplit, hbefore⟩ := List.find?_eq_some_iff_append.mp hfound
    rcases Nat.lt_trichotomy i j with hlt | rfl | hgt
    · exact absurd (List.isPrefixOf_iff_prefix.mp hj) (hlast j hlt)
    · rfl
    · -- The places behind `j` come before it in the reversed range.
      have hrange : List.range (text.length + 1) = after.reverse ++ (j :: before.reverse) := by
        rw [← List.reverse_reverse (List.range _), hsplit]
        simp
      have hmem : i ∈ before := by
        have hsorted := @List.pairwise_lt_range (text.length + 1)
        have hin : i ∈ List.range (text.length + 1) := List.mem_range.mpr (Nat.lt_succ_of_le hi)
        rw [hrange] at hsorted hin
        rcases List.mem_append.mp hin with hleft | hright
        · have hlt := (List.pairwise_append.mp hsorted).2.2 i hleft j List.mem_cons_self
          omega
        · rcases List.mem_cons.mp hright with rfl | hright
          · omega
          · exact List.mem_reverse.mp hright
      have hnot := hbefore i hmem
      rw [Bool.not_eq_true', Bool.eq_false_iff, ne_eq, List.isPrefixOf_iff_prefix] at hnot
      exact absurd hstarts hnot

theorem contains_iff {text : Text} {needle : String} : contains text needle = true ↔ needle.toList <:+: text := by
  rw [contains, List.any_eq_true, List.infix_iff_prefix_suffix]
  simp only [List.mem_tails, List.isPrefixOf_iff_prefix, and_comm]

/-- A needle without the separator is in one of the parts. -/
theorem infix_append_cons {a b : Text} {c : Char} (hc : c ∉ needle) (hne : needle ≠ []) :
    needle <:+: a ++ c :: b ↔ needle <:+: a ∨ needle <:+: b := by
  constructor
  · rintro ⟨before, after, h⟩
    rw [List.append_assoc, List.append_eq_append_iff] at h
    rcases h with ⟨mid, rfl, hmid⟩ | ⟨mid, rfl, hmid⟩
    · -- The needle begins in the first part, and ends before the separator.
      rcases List.append_eq_append_iff.mp hmid with ⟨rest, rfl, -⟩ | ⟨rest, hneedle, hrest⟩
      · exact .inl ⟨before, rest, by rw [List.append_assoc]⟩
      · cases rest with
        | nil => exact .inl ⟨before, [], by rw [List.append_nil, hneedle, List.append_nil]⟩
        | cons d rest =>
          rw [List.cons_append, List.cons.injEq] at hrest
          rw [hneedle, ← hrest.1] at hc
          exact absurd (List.mem_append_right _ List.mem_cons_self) hc
    · cases mid with
      | nil =>
        rw [List.nil_append] at hmid
        cases needle with
        | nil => exact absurd rfl hne
        | cons d needle =>
          rw [List.cons_append, List.cons.injEq] at hmid
          rw [hmid.1] at hc
          exact absurd List.mem_cons_self hc
      | cons d mid =>
        rw [List.cons_append, List.cons.injEq] at hmid
        exact .inr ⟨mid, after, by rw [List.append_assoc, ← hmid.2]⟩
  · rintro (h | h)
    · exact h.trans (List.infix_append' [] a (c :: b))
    · exact h.trans ⟨a ++ [c], [], by simp⟩

/-- A word between two separators is a piece, and not the first one. -/
theorem mem_tail_splitOn {word text : Text} {c : Char} (hword : c ∉ word) (h : c :: (word ++ [c]) <:+: text) :
    word ∈ (text.splitOn c).tail := by
  obtain ⟨before, after, rfl⟩ := h
  have hsplit : before ++ c :: (word ++ [c]) ++ after = before ++ c :: (word ++ c :: after) := by simp
  rw [hsplit, List.splitOn_append_cons_self, List.splitOn_append_cons_self_of_not_mem hword]
  obtain ⟨first, rest, hfirst⟩ := List.exists_cons_of_ne_nil (List.splitOn_ne_nil c before)
  rw [hfirst]
  exact List.mem_append_right _ List.mem_cons_self

/-- The pieces of a text are parts of it, without the separators. -/
theorem pieces_of_splitOnP (p : Char → Bool) (text : Text) : ∃ first rest, text.splitOnP p = first :: rest ∧ first <+: text ∧
    ∀ piece ∈ first :: rest, piece <:+: text ∧ ∀ c ∈ piece, p c = false := by
  induction text with
  | nil =>
    refine ⟨[], [], List.splitOnP_nil, List.nil_prefix, fun piece hpiece => ?_⟩
    rw [List.mem_singleton.mp hpiece]
    exact ⟨List.infix_rfl, fun c hc => absurd hc List.not_mem_nil⟩
  | cons c text ih =>
    obtain ⟨first, rest, hsplit, hstarts, hpieces⟩ := ih
    rw [List.splitOnP_cons_eq_if_modifyHead, hsplit]
    by_cases hc : p c = true
    · rw [if_pos hc]
      refine ⟨[], first :: rest, rfl, List.nil_prefix, fun piece hpiece => ?_⟩
      rcases List.mem_cons.mp hpiece with rfl | hpiece
      · exact ⟨List.nil_infix, fun c hc => absurd hc List.not_mem_nil⟩
      · exact ⟨List.infix_cons (hpieces piece hpiece).1, (hpieces piece hpiece).2⟩
    · rw [if_neg hc]
      refine ⟨c :: first, rest, rfl, List.cons_prefix_cons.mpr ⟨rfl, hstarts⟩, fun piece hpiece => ?_⟩
      rcases List.mem_cons.mp hpiece with rfl | hpiece
      · refine ⟨(List.cons_prefix_cons.mpr ⟨rfl, hstarts⟩).isInfix, fun d hd => ?_⟩
        rcases List.mem_cons.mp hd with rfl | hd
        · exact Bool.eq_false_iff.mpr hc
        · exact (hpieces first List.mem_cons_self).2 d hd
      · have hmem := hpieces piece (List.mem_cons_of_mem first hpiece)
        exact ⟨List.infix_cons hmem.1, hmem.2⟩

theorem mem_names {text name : Text} (h : name ∈ names text) : name <:+: text ∧ ∀ c ∈ name, endsToken c = false := by
  obtain ⟨first, rest, hsplit, -, hpieces⟩ := pieces_of_splitOnP endsToken text
  rw [names, hsplit] at h
  exact hpieces name h

end Finding

/-! ## Addresses -/

section Addresses

theorem firstHexAddress_append (a b : Text) {c : Char} (hc : (!(Sketch.isHexDigit c || c = 'x' || c = 'X')) = true) :
    firstHexAddress (a ++ c :: b) = (firstHexAddress a).or (firstHexAddress b) := by
  have hsplit : Sketch.hexTokens (a ++ c :: b) = Sketch.hexTokens a ++ Sketch.hexTokens b := List.splitOnP_append_cons a b hc
  rw [firstHexAddress, hsplit, List.findSome?_append]
  rfl

theorem digitChar_hex {d : Nat} (hd : d < 16) : Sketch.isHexDigit d.digitChar = true ∧ Sketch.hexValue d.digitChar = d := by
  have hall : ∀ d < 16, Sketch.isHexDigit d.digitChar = true ∧ Sketch.hexValue d.digitChar = d := by decide
  exact hall d hd

/-- The digits of a number read as the number. -/
theorem toDigits_hex (n : Nat) : (Nat.toDigits 16 n).all Sketch.isHexDigit = true ∧
    (Nat.toDigits 16 n).foldl (fun n c => 16 * n + Sketch.hexValue c) 0 = n ∧ Nat.toDigits 16 n ≠ [] := by
  induction n using Nat.strongRecOn with
  | ind n ih =>
    rw [Nat.toDigits_eq_if (by decide)]
    by_cases hn : n < 16
    · obtain ⟨hhex, hvalue⟩ := digitChar_hex hn
      rw [if_pos hn]
      refine ⟨?_, ?_, List.cons_ne_nil _ _⟩
      · rw [List.all_cons, hhex, List.all_nil, Bool.and_self]
      · rw [List.foldl_cons, List.foldl_nil, hvalue, Nat.mul_zero, Nat.zero_add]
    · obtain ⟨hall, hfold, -⟩ := ih (n / 16) (by omega)
      obtain ⟨hhex, hvalue⟩ := @digitChar_hex (n % 16) (Nat.mod_lt n (by decide))
      rw [if_neg hn]
      refine ⟨?_, ?_, ?_⟩
      · rw [List.all_append, hall, List.all_cons, hhex, List.all_nil, Bool.and_self, Bool.and_self]
      · rw [List.foldl_append, hfold, List.foldl_cons, List.foldl_nil, hvalue]
        omega
      · exact List.append_ne_nil_of_right_ne_nil _ (List.cons_ne_nil _ _)

theorem toList_hexText (va : Nat) : (hexText va).toList = '0' :: 'x' :: Nat.toDigits 16 va := by
  rw [hexText, String.toList_append, String.toList_ofList, String.toList_ofList]
  rfl

theorem hexText_chars (va : Nat) : ∀ c ∈ (hexText va).toList, Sketch.isHexDigit c = true ∨ c = 'x' := by
  intro c hc
  rw [toList_hexText] at hc
  rcases List.mem_cons.mp hc with rfl | hc
  · exact .inl (by decide)
  · rcases List.mem_cons.mp hc with rfl | hc
    · exact .inr rfl
    · exact .inl (List.all_eq_true.mp (toDigits_hex va).1 c hc)

theorem firstHexAddress_hexText {va : Nat} (h : va < 2 ^ 64) : firstHexAddress (hexText va).toList = some va := by
  have hsplit : Sketch.hexTokens (hexText va).toList = [(hexText va).toList] := by
    refine List.splitOnP_eq_singleton fun c hc => ?_
    rcases hexText_chars va c hc with hhex | rfl
    · rw [hhex]
      rfl
    · rfl
  obtain ⟨hall, hfold, hne⟩ := toDigits_hex va
  have hparse : Sketch.parseHex (Nat.toDigits 16 va) = some va := by
    rw [Sketch.parseHex, if_pos ⟨hne, hall⟩, hfold]
    exact if_pos h
  rw [firstHexAddress, hsplit, List.findSome?_cons, toList_hexText]
  have hstrip : Sketch.stripHex true ('0' :: 'x' :: Nat.toDigits 16 va) = some (Nat.toDigits 16 va) := by
    rw [Sketch.stripHex]
  rw [hstrip, Option.bind_some, hparse]

end Addresses

/-! ## Both questions -/

section Questions
variable {va : Nat} {value : Text} {target : EditTarget}

theorem asciiLowercase_append (a b : Text) : asciiLowercase (a ++ b) = asciiLowercase a ++ asciiLowercase b := List.map_append

theorem asciiLowercase_blank (a : Text) : asciiLowercase (' ' :: a) = ' ' :: asciiLowercase a := rfl

theorem suffix_behind (a : Text) (c : Char) (b : Text) : b <:+ a ++ c :: b :=
  (List.suffix_cons c b).trans (List.suffix_append a (c :: b))

theorem questionEnd_suffix (hex value : Text) (target : EditTarget) : questionEnd <:+ verifyQuestion hex value target := by
  have hend : questionEnd <:+ hex ++ ' ' :: questionEnd := suffix_behind hex ' ' questionEnd
  cases target with
  | function =>
    have hat := hend.trans (suffix_behind "at".toList ' ' _)
    exact hat.trans ((suffix_behind value ' ' _).trans (suffix_behind _ ' ' _))
  | functionComment =>
    have hat := hend.trans (suffix_behind " at".toList ' ' _)
    exact hat.trans ((suffix_behind (value.filter fun c => !isQuote c) singleQuote _).trans (suffix_behind _ singleQuote _))

set_option maxRecDepth 4000 in
/-- What the checks look for at the end of a question. -/
theorem words_end : "persist".toList <:+: asciiLowercase questionEnd ∧
    (names questionEnd).find? isSymbol = some "NOT_PERSISTED".toList ∧
    "to".toList ∉ (asciiLowercase questionEnd).splitOn ' ' ∧ ¬ "comment".toList <:+: asciiLowercase questionEnd ∧
    isSymbol "NOT_PERSISTED".toList = true := by
  decide

theorem isPersistenceQuery_question (hex value : Text) (target : EditTarget) :
    isPersistenceQuery (verifyQuestion hex value target) = true := by
  obtain ⟨before, hquestion⟩ := questionEnd_suffix hex value target
  have hfound : contains (asciiLowercase (verifyQuestion hex value target)) "persist" = true := by
    rw [contains_iff, ← hquestion, asciiLowercase_append]
    exact words_end.1.trans (List.suffix_append _ _).isInfix
  rw [isPersistenceQuery, containsAny, List.any_cons, hfound, Bool.true_or]

/-- Under the intent `verify` every question is kept. -/
theorem canonicalInvestigationInput_verify (question : Text) :
    canonicalInvestigationInput "verify".toList question = ("verify", question) := by
  obtain ⟨htrim, hedit, hverify⟩ : trim "verify".toList = "verify".toList ∧
      ¬ containsAny (asciiLowercase "verify".toList) ["edit", "rename", "comment"] = true ∧
      contains (asciiLowercase "verify".toList) "verify" = true := by decide
  have hintent : canonicalIntent "verify".toList question = "verify" := by
    rw [canonicalIntent, if_neg hedit, if_pos hverify]
  rw [canonicalInvestigationInput, htrim, hintent]
  rfl

theorem roundTrips_iff_decoded {v : Text} : RoundTrips va target v ↔
    persistenceCheck "verify" (verifyQuestion (hexText va).toList v target) = some (Check.of va v target) :=
  ⟨RoundTrips.decoded, fun h => ⟨canonicalInvestigationInput_verify _, h⟩⟩

theorem persistenceCheck_question (hex v : Text) : persistenceCheck "verify" (verifyQuestion hex v target) =
    (firstHexAddress (verifyQuestion hex v target)).bind fun va =>
      (if contains (asciiLowercase (verifyQuestion hex v target)) "comment" then
        (expectedPersistedComment (verifyQuestion hex v target)).map (Check.comment va) else none).or
        ((expectedPersistedSymbol (verifyQuestion hex v target)).map (Check.symbol va)) :=
  if_pos ⟨rfl, isPersistenceQuery_question hex v target⟩

theorem isSeparator_blank : (!(Sketch.isHexDigit ' ' || ' ' = 'x' || ' ' = 'X')) = true := by decide

theorem or_some_eq_iff {found : Option Nat} : found.or (some va) = some va ↔ found = none ∨ found = some va := by
  cases found with
  | none => simp
  | some n => simp

end Questions

/-! ## Symbols -/

section Symbols
variable {va : Nat} {v : Text}

/-- What the checks look for is not in the words in front of the name. -/
theorem words_symbol : firstHexAddress "Verify the renamed symbol".toList = none ∧
    (names "Verify the renamed symbol".toList).find? isSymbol = none ∧
    "to".toList ∉ (asciiLowercase "Verify the renamed symbol".toList).splitOn ' ' ∧
    ¬ "comment".toList <:+: asciiLowercase "Verify the renamed symbol".toList ∧
    "Verify the renamed symbol".toList.length = 25 := by
  decide

/-- Nor in the word behind it. -/
theorem words_at : firstHexAddress "at".toList = none ∧ (names "at".toList).find? isSymbol = none ∧
    "to".toList ≠ asciiLowercase "at".toList ∧ ¬ "comment".toList <:+: asciiLowercase "at".toList ∧
    ' ' ∉ asciiLowercase "at".toList ∧ (names "at".toList).find? (· ≠ []) = some "at".toList := by
  decide

theorem words_to : " to ".toList = ' ' :: ("to".toList ++ [' ']) ∧ ' ' ∉ "to".toList ∧ '_' ∉ "to".toList ∧
    asciiLowercase "at".toList ≠ "to".toList := by
  decide

theorem firstHexAddress_words (a v b hex e : Text) :
    firstHexAddress (a ++ ' ' :: (v ++ ' ' :: (b ++ ' ' :: (hex ++ ' ' :: e)))) =
      (firstHexAddress a).or ((firstHexAddress v).or ((firstHexAddress b).or ((firstHexAddress hex).or (firstHexAddress e)))) := by
  rw [firstHexAddress_append a _ isSeparator_blank, firstHexAddress_append v _ isSeparator_blank,
    firstHexAddress_append b _ isSeparator_blank, firstHexAddress_append hex _ isSeparator_blank]

theorem firstHexAddress_symbol (hva : va < 2 ^ 64) :
    firstHexAddress (verifyQuestion (hexText va).toList v .function) = (firstHexAddress v).or (some va) := by
  refine (firstHexAddress_words _ _ _ _ _).trans ?_
  rw [words_symbol.1, words_at.1, firstHexAddress_hexText hva, Option.none_or, Option.none_or, Option.some_or]

theorem asciiLowercase_words (a v b hex e : Text) :
    asciiLowercase (a ++ ' ' :: (v ++ ' ' :: (b ++ ' ' :: (hex ++ ' ' :: e)))) =
      asciiLowercase a ++ ' ' :: (asciiLowercase v ++ ' ' :: (asciiLowercase b ++ ' ' ::
        (asciiLowercase hex ++ ' ' :: asciiLowercase e))) := by
  rw [asciiLowercase_append, asciiLowercase_blank, asciiLowercase_append, asciiLowercase_blank, asciiLowercase_append,
    asciiLowercase_blank, asciiLowercase_append, asciiLowercase_blank]

theorem toLower_hexText (va : Nat) : ∃ rest, asciiLowercase (hexText va).toList = '0' :: 'x' :: rest := by
  rw [toList_hexText]
  exact ⟨_, rfl⟩

theorem ne_hexText (va : Nat) : "to".toList ≠ asciiLowercase (hexText va).toList := by
  obtain ⟨rest, hrest⟩ := toLower_hexText va
  rw [hrest]
  intro h
  have hfirst : 't' = '0' := (List.cons.inj h).1
  revert hfirst
  decide

/-- The characters of names. -/
theorem endsToken_eq_false {c : Char} : endsToken c = false ↔
    (65 ≤ c.toNat ∧ c.toNat ≤ 90) ∨ (97 ≤ c.toNat ∧ c.toNat ≤ 122) ∨ (48 ≤ c.toNat ∧ c.toNat ≤ 57) ∨ c.toNat = 95 := by
  have hunderscore : c = '_' ↔ c.toNat = 95 := Char.toNat_inj.symm
  rw [endsToken, Bool.and_eq_false_iff, Bool.not_eq_false', Bel.isAlphanum_iff, decide_eq_false_iff_not, not_not, hunderscore]
  tauto

theorem endsToken_hexText (va : Nat) : ∀ c ∈ (hexText va).toList, endsToken c = false := by
  intro c hc
  rw [endsToken_eq_false]
  rcases hexText_chars va c hc with hhex | rfl
  · simp only [Sketch.isHexDigit, Char.isDigit, Bool.or_eq_true, Bool.and_eq_true, decide_eq_true_eq, Char.le_def,
      UInt32.le_iff_toNat_le] at hhex
    have htoNat : c.val.toNat = c.toNat := rfl
    have hbounds : 'a'.val.toNat = 97 ∧ 'f'.val.toNat = 102 ∧ 'A'.val.toNat = 65 ∧ 'F'.val.toNat = 70 := by decide
    have hdigits : '0'.val.toNat = 48 ∧ '9'.val.toNat = 57 := by decide
    omega
  · decide

/-- A name in lower case has no blank. -/
theorem blank_not_mem {name : Text} (h : ∀ c ∈ name, endsToken c = false) : ' ' ∉ asciiLowercase name := by
  intro hmem
  obtain ⟨c, hc, hlower⟩ := List.mem_map.mp hmem
  have hname := h c hc
  rw [← Bel.endsToken_toLower, hlower] at hname
  revert hname
  decide

theorem names_words (a v b hex e : Text) : names (a ++ ' ' :: (v ++ ' ' :: (b ++ ' ' :: (hex ++ ' ' :: e)))) =
    names a ++ (names v ++ (names b ++ (names hex ++ names e))) := by
  have hblank : endsToken ' ' = true := by decide
  simp only [names, List.splitOnP_append_cons _ _ hblank]

theorem names_of_name {name : Text} (h : ∀ c ∈ name, endsToken c = false) : names name = [name] := List.splitOnP_eq_singleton h

/-- The question in lower case. -/
theorem asciiLowercase_symbol (hex v : Text) : asciiLowercase (verifyQuestion hex v .function) =
    asciiLowercase "Verify the renamed symbol".toList ++ ' ' :: (asciiLowercase v ++ ' ' :: (asciiLowercase "at".toList ++ ' ' ::
      (asciiLowercase hex ++ ' ' :: asciiLowercase questionEnd))) := asciiLowercase_words _ _ _ _ _

/-- The words of the question, in lower case. -/
theorem splitOn_symbol (hv : ∀ c ∈ v, endsToken c = false) :
    (asciiLowercase (verifyQuestion (hexText va).toList v .function)).splitOn ' ' =
      (asciiLowercase "Verify the renamed symbol".toList).splitOn ' ' ++ (asciiLowercase v :: (asciiLowercase "at".toList ::
        (asciiLowercase (hexText va).toList :: (asciiLowercase questionEnd).splitOn ' '))) := by
  obtain ⟨-, -, -, -, hat, -⟩ := words_at
  rw [asciiLowercase_symbol, List.splitOn_append_cons_self, List.splitOn_append_cons_self_of_not_mem (blank_not_mem hv),
    List.splitOn_append_cons_self_of_not_mem hat, List.splitOn_append_cons_self_of_not_mem (blank_not_mem (endsToken_hexText va))]

/-- There is no ` to ` in the question, unless it is the name. -/
theorem rfind_symbol (hv : ∀ c ∈ v, endsToken c = false) (hto : asciiLowercase v ≠ "to".toList) :
    rfind " to ".toList (asciiLowercase (verifyQuestion (hexText va).toList v .function)) = none := by
  rw [rfind_eq_none_iff, words_to.1]
  intro h
  have hword := List.mem_of_mem_tail (mem_tail_splitOn words_to.2.1 h)
  rw [splitOn_symbol hv] at hword
  obtain ⟨-, -, hfirst, -⟩ := words_symbol
  obtain ⟨-, -, hlast, -⟩ := words_end
  obtain ⟨-, -, hat, -⟩ := words_at
  simp only [List.mem_append, List.mem_cons, hfirst, hlast, hat, ne_hexText, Ne.symm hto, or_self] at hword

theorem find_symbol (hv : ∀ c ∈ v, endsToken c = false) :
    (names (verifyQuestion (hexText va).toList v .function)).find? isSymbol =
      if isSymbol v then some v else some "NOT_PERSISTED".toList := by
  obtain ⟨-, hfirst, -⟩ := words_symbol
  obtain ⟨-, hat, -⟩ := words_at
  obtain ⟨-, hlast, -⟩ := words_end
  have hhex : isSymbol (hexText va).toList = false := by
    have hzero : "0x".toList.isPrefixOf (hexText va).toList = true := by
      rw [toList_hexText, List.isPrefixOf_iff_prefix]
      exact ⟨Nat.toDigits 16 va, rfl⟩
    rw [isSymbol, hzero, Bool.not_true, Bool.and_false, Bool.false_and]
  refine (congrArg (List.find? isSymbol) (names_words _ _ _ _ _)).trans ?_
  rw [names_of_name hv, names_of_name (endsToken_hexText va), List.find?_append, List.find?_append, List.find?_append,
    List.find?_append, hfirst, hat, hlast, List.find?_cons, List.find?_cons, hhex]
  by_cases hsymbol : isSymbol v = true
  · rw [hsymbol]
    rfl
  · rw [Bool.eq_false_iff.mpr hsymbol]
    rfl

/-- Where the name is `to`, the next word is taken for it. -/
theorem expectedPersistedSymbol_to (hv : ∀ c ∈ v, endsToken c = false) (hto : asciiLowercase v = "to".toList) :
    expectedPersistedSymbol (verifyQuestion (hexText va).toList v .function) = some "at".toList := by
  have hlen : v.length = 2 := by
    have hlower := congrArg List.length hto
    rw [asciiLowercase, List.length_map] at hlower
    exact hlower
  obtain ⟨-, -, -, -, hwords⟩ := words_symbol
  have hbefore : (asciiLowercase "Verify the renamed symbol".toList).length = 25 := (List.length_map _).trans hwords
  have hfound : rfind " to ".toList (asciiLowercase (verifyQuestion (hexText va).toList v .function)) = some 25 := by
    refine rfind_eq_some ?_ ?_ ?_
    · rw [asciiLowercase_symbol, List.length_append, hbefore]
      omega
    · rw [asciiLowercase_symbol, ← hbefore, List.drop_left, hto, words_to.1]
      exact ⟨_, rfl⟩
    · intro j hj hstarts
      obtain ⟨k, rfl⟩ := Nat.exists_eq_add_of_lt hj
      rw [asciiLowercase_symbol, Nat.add_assoc, ← hbefore, ← List.drop_drop, List.drop_left, List.drop_succ_cons] at hstarts
      have hword := hstarts.isInfix.trans (List.drop_suffix _ _).isInfix
      rw [words_to.1] at hword
      have hmem := mem_tail_splitOn words_to.2.1 hword
      obtain ⟨-, -, hne, -, hat, -⟩ := words_at
      obtain ⟨-, -, hlast, -⟩ := words_end
      rw [List.splitOn_append_cons_self_of_not_mem (blank_not_mem hv), List.tail_cons,
        List.splitOn_append_cons_self_of_not_mem hat,
        List.splitOn_append_cons_self_of_not_mem (blank_not_mem (endsToken_hexText va))] at hmem
      simp only [List.mem_cons, hlast, hne, ne_hexText, or_self] at hmem
  have hrest : (verifyQuestion (hexText va).toList v .function).drop (25 + 4) =
      "at".toList ++ ' ' :: ((hexText va).toList ++ ' ' :: questionEnd) := by
    have hsplit (a r : Text) : a ++ ' ' :: (v ++ ' ' :: r) = (a ++ ' ' :: (v ++ [' '])) ++ r := by
      rw [List.append_assoc, List.cons_append, List.append_assoc, List.cons_append, List.nil_append]
    have hend : ("Verify the renamed symbol".toList ++ ' ' :: (v ++ [' '])).length = 25 + 4 := by
      rw [List.length_append, List.length_cons, List.length_append, List.length_singleton, hwords, hlen]
    refine (congrArg (List.drop (25 + 4)) (hsplit _ _)).trans ?_
    rw [← hend, List.drop_left]
  have hblank : endsToken ' ' = true := by decide
  obtain ⟨-, -, -, -, -, hat⟩ := words_at
  rw [expectedPersistedSymbol, hfound]
  dsimp only
  rw [hrest, names, List.splitOnP_append_cons _ _ hblank, List.find?_append]
  rw [names] at hat
  rw [hat, Option.some_or]

theorem expectedPersistedSymbol_name {question w : Text} (h : expectedPersistedSymbol question = some w) :
    ∀ c ∈ w, endsToken c = false := by
  rw [expectedPersistedSymbol] at h
  split at h
  · exact (mem_names (List.mem_of_find?_eq_some h)).2
  · exact (mem_names (List.mem_of_find?_eq_some h)).2

/-- A name is decoded exactly when it looks like a symbol. -/
theorem expectedPersistedSymbol_iff (hv : ∀ c ∈ v, endsToken c = false) :
    expectedPersistedSymbol (verifyQuestion (hexText va).toList v .function) = some v ↔ isSymbol v = true := by
  by_cases hto : asciiLowercase v = "to".toList
  · rw [expectedPersistedSymbol_to hv hto]
    constructor
    · intro h
      rw [← Option.some.inj h] at hto
      exact absurd hto words_to.2.2.2
    · intro h
      have hunderscore : '_' ∈ asciiLowercase v := by
        rw [isSymbol, Bool.and_eq_true, Bool.and_eq_true, List.contains_iff_mem] at h
        exact List.mem_map_of_mem h.1.1
      rw [hto] at hunderscore
      exact absurd hunderscore words_to.2.2.1
  · rw [expectedPersistedSymbol, rfind_symbol hv hto]
    dsimp only
    rw [find_symbol hv]
    by_cases hsymbol : isSymbol v = true
    · rw [if_pos hsymbol]
      exact iff_of_true rfl hsymbol
    · rw [if_neg hsymbol]
      refine iff_of_false (fun h => hsymbol ?_) hsymbol
      rw [← Option.some.inj h]
      exact words_end.2.2.2.2

end Symbols

/-! ## Requests -/

section Requests
variable {question value : Text} {va : Nat} {target : EditTarget}

theorem firstHexAddress_lt {text : Text} (h : firstHexAddress text = some va) : va < 2 ^ 64 := by
  obtain ⟨token, -, htoken⟩ := List.exists_of_findSome?_eq_some h
  obtain ⟨digits, -, hparse⟩ := Option.bind_eq_some_iff.mp htoken
  rw [Sketch.parseHex] at hparse
  split at hparse
  · dsimp only at hparse
    split at hparse
    · next hlt =>
      cases hparse
      exact hlt
    · cases hparse
  · cases hparse

theorem parseEditRequest_address (h : parseEditRequest question = some (va, target, value)) : va < 2 ^ 64 := by
  obtain ⟨found, hfound, hrest⟩ := Option.bind_eq_some_iff.mp h
  have hlt := firstHexAddress_lt hfound
  split at hrest
  · obtain ⟨comment, -, heq⟩ := Option.bind_eq_some_iff.mp hrest
    cases heq
    exact hlt
  · obtain ⟨index, -, hname⟩ := Option.bind_eq_some_iff.mp hrest
    obtain ⟨name, -, heq⟩ := Option.bind_eq_some_iff.mp hname
    split at heq
    · cases heq
    · cases heq
      exact hlt

/-- The name of a symbol is a piece of a question without the word `comment`. -/
theorem parseEditRequest_function (h : parseEditRequest question = some (va, .function, value)) :
    (∀ c ∈ value, endsToken c = false) ∧ ¬ "comment".toList <:+: asciiLowercase value := by
  obtain ⟨found, -, hrest⟩ := Option.bind_eq_some_iff.mp h
  split at hrest
  · obtain ⟨comment, -, heq⟩ := Option.bind_eq_some_iff.mp hrest
    cases heq
  · next hcomment =>
    obtain ⟨index, -, hname⟩ := Option.bind_eq_some_iff.mp hrest
    obtain ⟨name, hfind, heq⟩ := Option.bind_eq_some_iff.mp hname
    split at heq
    · cases heq
    cases heq
    obtain ⟨hwithin, hchars⟩ := mem_names (List.mem_of_find?_eq_some hfind)
    refine ⟨hchars, fun hin => hcomment ?_⟩
    rw [contains_iff]
    exact hin.trans ((hwithin.trans (List.drop_suffix _ _).isInfix).map _)

theorem isControl_of_name {c : Char} (h : endsToken c = false) : Artifact.isControl c = false := by
  rw [endsToken_eq_false] at h
  rw [Artifact.isControl, Bool.or_eq_false_iff, Bool.and_eq_false_iff, decide_eq_false_iff_not, decide_eq_false_iff_not,
    decide_eq_false_iff_not]
  omega

/-- A name is committed as it is, or cut. -/
theorem committed_of_name (h : ∀ c ∈ value, endsToken c = false) :
    committed value = value.take 256 ++ if 256 < value.length then [Char.ofNat 0x2026] else [] := by
  have hkept : value.filter (fun c => !Artifact.isControl c) = value := by
    rw [List.filter_eq_self]
    intro c hc
    rw [isControl_of_name (h c hc)]
    rfl
  rw [committed, Artifact.sanitizeUntrustedText, String.toList_ofList, String.toList_ofList, hkept]

theorem committed_eq (h : ∀ c ∈ value, endsToken c = false) (hlen : value.length ≤ 256) : committed value = value := by
  rw [committed_of_name h, List.take_of_length_le hlen, if_neg (Nat.not_lt.mpr hlen), List.append_nil]

theorem length_of_committed (h : ∀ c ∈ value, endsToken c = false) (hname : ∀ c ∈ committed value, endsToken c = false) :
    value.length ≤ 256 := by
  by_contra hlong
  rw [committed_of_name h, if_pos (Nat.lt_of_not_le hlong)] at hname
  exact absurd (hname _ (List.mem_append_right _ List.mem_cons_self)) (by decide)

/-- What there is to the word `comment`, and to the question with it. -/
theorem words_comment : ' ' ∉ "comment".toList ∧ "comment".toList ≠ [] ∧ Char.ofNat 0x2026 ∉ "comment".toList ∧
    'm' ∈ "comment".toList ∧ "comment".toList <:+: asciiLowercase "Verify the function comment ".toList ∧
    singleQuote ∉ "Verify the function comment ".toList ∧ firstHexAddress "Verify the function comment ".toList = none ∧
    firstHexAddress " at".toList = none := by
  decide

theorem not_comment_committed (h : ∀ c ∈ value, endsToken c = false) (hcomment : ¬ "comment".toList <:+: asciiLowercase value) :
    ¬ "comment".toList <:+: asciiLowercase (committed value) := by
  have htake : ¬ "comment".toList <:+: asciiLowercase (value.take 256) :=
    fun hin => hcomment (hin.trans ((List.take_prefix _ _).isInfix.map _))
  rw [committed_of_name h]
  split
  · have hcut : asciiLowercase (value.take 256 ++ [Char.ofNat 0x2026]) =
        asciiLowercase (value.take 256) ++ Char.ofNat 0x2026 :: [] := asciiLowercase_append _ _
    rw [hcut, infix_append_cons words_comment.2.2.1 words_comment.2.1]
    rintro (hin | hin)
    · exact htake hin
    · exact absurd (List.eq_nil_of_infix_nil hin) words_comment.2.1
  · rw [List.append_nil]
    exact htake

/-- The question of a symbol does not have the word `comment`. -/
theorem not_comment_symbol {v : Text} (hv : ¬ "comment".toList <:+: asciiLowercase v) :
    contains (asciiLowercase (verifyQuestion (hexText va).toList v .function)) "comment" = false := by
  obtain ⟨hblank, hne, -, hm, -⟩ := words_comment
  obtain ⟨-, -, -, hfirst, -⟩ := words_symbol
  obtain ⟨-, -, -, hat, -, -⟩ := words_at
  obtain ⟨-, -, -, hlast, -⟩ := words_end
  have hhex : ¬ "comment".toList <:+: asciiLowercase (hexText va).toList := by
    intro h
    obtain ⟨c, hc, hlower⟩ := List.mem_map.mp (h.subset hm)
    have hcase : c.toNat = 'm'.toNat ∨ c.toNat = 'M'.toNat := by
      have hnat := Bel.toNat_toLower c
      have hvalues : 'm'.toNat = 109 ∧ 'M'.toNat = 77 := by decide
      rw [hlower] at hnat
      split at hnat <;> omega
    rcases hcase with hm | hm
    · rw [Char.toNat_inj.mp hm] at hc
      exact absurd (hexText_chars va _ hc) (by decide)
    · rw [Char.toNat_inj.mp hm] at hc
      exact absurd (hexText_chars va _ hc) (by decide)
  rw [Bool.eq_false_iff, ne_eq, contains_iff, asciiLowercase_symbol, infix_append_cons hblank hne, infix_append_cons hblank hne,
    infix_append_cons hblank hne, infix_append_cons hblank hne]
  tauto

end Requests

/-- The question of a name is decoded exactly when this looks like a symbol and has no other address. -/
theorem roundTrips_symbol_iff {va : Nat} {v : Text} (hva : va < 2 ^ 64) (hv : ¬ "comment".toList <:+: asciiLowercase v) :
    RoundTrips va .function v ↔
      expectedPersistedSymbol (verifyQuestion (hexText va).toList v .function) = some v ∧ NoOtherAddress va v := by
  rw [roundTrips_iff_decoded, persistenceCheck_question, not_comment_symbol hv, firstHexAddress_symbol hva, NoOtherAddress,
    ← @or_some_eq_iff va (firstHexAddress v)]
  cases hfound : (firstHexAddress v).or (some va) with
  | none => simp at hfound
  | some n =>
    cases hname : expectedPersistedSymbol (verifyQuestion (hexText va).toList v .function) with
    | none => simp
    | some w => simp [Check.of, and_comm]

/-! ## Comments -/

section Comments
variable {va : Nat} {v : Text}

/-- The comment in the question. -/
def unquoted (v : Text) : Text := v.filter fun c => !isQuote c

theorem not_quote_of_mem {c : Char} (h : c ∈ unquoted v) : c ≠ singleQuote := by
  intro hc
  have hkept := (List.mem_filter.mp h).2
  rw [isQuote, hc] at hkept
  simp at hkept

theorem find_quote {a b : Text} (ha : singleQuote ∉ a) : find [singleQuote] (a ++ singleQuote :: b) = some a.length := by
  rw [find_eq_some_iff]
  refine ⟨?_, ?_, ?_⟩
  · rw [List.length_append]
    omega
  · rw [List.drop_left]
    exact ⟨b, rfl⟩
  · intro j hj hstarts
    rw [List.drop_append_of_le_length (Nat.le_of_lt hj), List.drop_eq_getElem_cons hj, List.cons_append] at hstarts
    rw [(List.cons_prefix_cons.mp hstarts).1] at ha
    exact ha (List.getElem_mem hj)

theorem quotedValue_quoted {a b c : Text} (ha : singleQuote ∉ a) (hb : singleQuote ∉ b) :
    quotedValue (a ++ singleQuote :: (b ++ singleQuote :: c)) = some b := by
  have hdrop : (a ++ singleQuote :: (b ++ singleQuote :: c)).drop (a.length + 1) = b ++ singleQuote :: c := by
    rw [← List.drop_drop, List.drop_left]
    rfl
  rw [quotedValue, quotedBy, find_quote ha, Option.map_some]
  dsimp only
  rw [hdrop, find_quote hb, Option.map_some, List.take_left]

theorem contains_append {words needle : Text} (h : needle <:+: asciiLowercase words) (rest : Text) :
    needle <:+: asciiLowercase (words ++ rest) := by
  rw [asciiLowercase_append]
  exact h.trans (List.prefix_append _ _).isInfix

theorem contains_comment (hex : Text) :
    contains (asciiLowercase (verifyQuestion hex v .functionComment)) "comment" = true := by
  obtain ⟨-, -, -, -, hwords, -⟩ := words_comment
  exact contains_iff.mpr (contains_append hwords _)

theorem expectedPersistedComment_question (hex : Text) :
    expectedPersistedComment (verifyQuestion hex v .functionComment) = some (unquoted v) := by
  obtain ⟨index, hindex⟩ := exists_find (contains_iff.mp (@contains_comment v hex))
  obtain ⟨-, -, -, -, -, hwords, -⟩ := words_comment
  have hquoted : quotedValue (verifyQuestion hex v .functionComment) = some (unquoted v) :=
    quotedValue_quoted hwords fun h => not_quote_of_mem h rfl
  rw [expectedPersistedComment, hindex, Option.bind_some, hquoted, Option.some_or]

theorem isSeparator_quote : (!(Sketch.isHexDigit singleQuote || singleQuote = 'x' || singleQuote = 'X')) = true := by decide

theorem firstHexAddress_comment (hva : va < 2 ^ 64) :
    firstHexAddress (verifyQuestion (hexText va).toList v .functionComment) = (firstHexAddress (unquoted v)).or (some va) := by
  obtain ⟨-, -, -, -, -, -, hwords, hat⟩ := words_comment
  have hparts (a b at' hex e : Text) : firstHexAddress (a ++ singleQuote :: (b ++ singleQuote :: (at' ++ ' ' :: (hex ++ ' ' :: e)))) =
      (firstHexAddress a).or ((firstHexAddress b).or ((firstHexAddress at').or ((firstHexAddress hex).or (firstHexAddress e)))) := by
    rw [firstHexAddress_append a _ isSeparator_quote, firstHexAddress_append b _ isSeparator_quote,
      firstHexAddress_append at' _ isSeparator_blank, firstHexAddress_append hex _ isSeparator_blank]
  refine (hparts _ _ _ _ _).trans ?_
  rw [hwords, hat, firstHexAddress_hexText hva, Option.none_or, Option.none_or, Option.some_or]
  rfl

/-- The question of a comment is decoded exactly when this has no quotes and no other address. -/
theorem roundTrips_comment_iff (hva : va < 2 ^ 64) :
    RoundTrips va .functionComment v ↔ (∀ c ∈ v, isQuote c = false) ∧ NoOtherAddress va v := by
  have hplain : unquoted v = v ↔ ∀ c ∈ v, isQuote c = false := by
    rw [unquoted, List.filter_eq_self]
    simp only [Bool.not_eq_true']
  have hdecoded : RoundTrips va .functionComment v ↔ NoOtherAddress va (unquoted v) ∧ unquoted v = v := by
    rw [roundTrips_iff_decoded, persistenceCheck_question, contains_comment, expectedPersistedComment_question,
      firstHexAddress_comment hva, NoOtherAddress, ← @or_some_eq_iff va (firstHexAddress (unquoted v))]
    cases hfound : (firstHexAddress (unquoted v)).or (some va) with
    | none => simp at hfound
    | some n => simp [Check.of]
  rw [hdecoded, ← hplain]
  constructor
  · rintro ⟨haddress, hsame⟩
    rw [hsame] at haddress
    exact ⟨hsame, haddress⟩
  · rintro ⟨hsame, haddress⟩
    rw [hsame]
    exact ⟨haddress, rfl⟩

end Comments

/-! ## Round trips -/

/-- A committed edit is verified by its question exactly when its text is verifiable. -/
theorem roundTrips_iff {question value : Text} {va : Nat} {target : EditTarget}
    (h : parseEditRequest question = some (va, target, value)) :
    RoundTrips va target (committed value) ↔ Verifiable va value target := by
  have hva := parseEditRequest_address h
  cases target with
  | functionComment => exact roundTrips_comment_iff hva
  | function =>
    obtain ⟨hname, hcomment⟩ := parseEditRequest_function h
    constructor
    · intro htrip
      have hsame := ((roundTrips_symbol_iff hva (not_comment_committed hname hcomment)).mp htrip).1
      have hlen := length_of_committed hname (expectedPersistedSymbol_name hsame)
      rw [committed_eq hname hlen] at htrip
      obtain ⟨hdecoded, haddress⟩ := (roundTrips_symbol_iff hva hcomment).mp htrip
      exact ⟨hlen, (expectedPersistedSymbol_iff hname).mp hdecoded, haddress⟩
    · rintro ⟨hlen, hsymbol, haddress⟩
      rw [committed_eq hname hlen]
      exact (roundTrips_symbol_iff hva hcomment).mpr ⟨(expectedPersistedSymbol_iff hname).mpr hsymbol, haddress⟩

/-- A request to rename the function at 0x140001000. -/
def renameRequest (name : String) : Text := "Rename function 0x140001000 to ".toList ++ name.toList

theorem parse_renameRequest (name : String) (h : name = "list_value_sum" ∨ name = "main") :
    parseEditRequest (renameRequest name) = some (0x140001000, .function, name.toList) := by
  obtain ⟨haddress, hcomment, hto, hname, hverb⟩ : firstHexAddress (renameRequest name) = some 0x140001000 ∧
      contains (asciiLowercase (renameRequest name)) "comment" = false ∧
      rfind " to ".toList (asciiLowercase (renameRequest name)) = some 27 ∧
      (names ((renameRequest name).drop (27 + 4))).find? (· ≠ []) = some name.toList ∧
      genericVerbs.contains (asciiLowercase name.toList) = false := by
    rcases h with rfl | rfl <;> decide
  rw [parseEditRequest, haddress]
  simp only [hcomment, hto, hname, hverb, Option.bind_eq_bind, Option.bind_some, Bool.false_eq_true, if_false]
  rfl

theorem verifiable_listValueSum : "list_value_sum".toList.length ≤ 256 ∧ isSymbol "list_value_sum".toList = true ∧
    firstHexAddress "list_value_sum".toList = none := by
  decide

theorem roundTrips_listValueSum : RoundTrips 0x140001000 .function (committed "list_value_sum".toList) := by
  obtain ⟨hlen, hsymbol, haddress⟩ := verifiable_listValueSum
  exact (roundTrips_iff (parse_renameRequest "list_value_sum" (.inl rfl))).mpr ⟨hlen, hsymbol, .inl haddress⟩

/-- The name `main` has no underscore, and `NOT_PERSISTED` is taken for it. -/
theorem main_not_verified : parseEditRequest (renameRequest "main") = some (0x140001000, .function, "main".toList) ∧
    ¬ RoundTrips 0x140001000 .function (committed "main".toList) := by
  refine ⟨parse_renameRequest "main" (.inr rfl), fun htrip => ?_⟩
  have hdecoded := htrip.decoded
  obtain ⟨hsame, hcheck⟩ : committed "main".toList = "main".toList ∧
      persistenceCheck "verify" (verifyQuestion (hexText 0x140001000).toList (committed "main".toList) .function) =
        some (.symbol 0x140001000 "NOT_PERSISTED".toList) := by
    decide
  rw [hcheck, hsame] at hdecoded
  simp [Check.of] at hdecoded

end Windy.Persisted
