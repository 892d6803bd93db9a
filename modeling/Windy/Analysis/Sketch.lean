import Mathlib

/- Ranking function sketches against a question (`rank_sketches` in `analysis/sketch.rs`).

   A sketch is a summary of one function: counts of what its instructions do, the addresses it calls
   and the motifs that were recognized. The ranking adds up points for what the question and the
   sketch share, keeps the sketches with points, orders them by points and then by address, and cuts
   the list.

   Texts are lists of characters. Scores are `u32`: additions wrap, as in a release build. The
   fields of a sketch that neither the ranking nor the answers read are left out.

   Correspondence:
     `rank_sketches` ↔ `rankSketches` (`scoreOf` for the body of its loop)
     `normalize`, `contains_any` ↔ the same
     `first_hex_address` (`mcp.rs`) ↔ `firstHexAddress` -/
namespace Windy.Sketch

/-! ## Texts -/

/-- `str::contains`. -/
def contains (text : List Char) (needle : String) : Bool :=
  text.tails.any fun tail => needle.toList.isPrefixOf tail

def containsAny (text : List Char) (needles : List String) : Bool :=
  needles.any (contains text)

/-- `str::to_ascii_lowercase`. -/
def asciiLowercase (text : List Char) : List Char := text.map Char.toLower

/-- `char::is_whitespace`. -/
def isWhitespace (c : Char) : Bool :=
  (9 ≤ c.toNat && c.toNat ≤ 13) || c.toNat = 32 || c.toNat = 0x85 || c.toNat = 0xa0 || c.toNat = 0x1680 ||
    (0x2000 ≤ c.toNat && c.toNat ≤ 0x200a) || c.toNat = 0x2028 || c.toNat = 0x2029 || c.toNat = 0x202f ||
    c.toNat = 0x205f || c.toNat = 0x3000

/-- Lower case, with single blanks between the words. -/
def normalize (text : List Char) : List Char :=
  [' '].intercalate (((asciiLowercase text).splitOnP isWhitespace).filter (· ≠ []))

def isHexDigit (c : Char) : Bool :=
  c.isDigit || ('a' ≤ c && c ≤ 'f') || ('A' ≤ c && c ≤ 'F')

def hexValue (c : Char) : Nat :=
  if c.isDigit then c.toNat - 48 else if c.toNat < 97 then c.toNat - 55 else c.toNat - 87

/-- `u64::from_str_radix(digits, 16)` of a text without a sign. -/
def parseHex (digits : List Char) : Option Nat :=
  if digits ≠ [] ∧ digits.all isHexDigit then
    let n := digits.foldl (fun n c => 16 * n + hexValue c) 0
    if n < 2 ^ 64 then some n else none
  else none

/-- The pieces between characters that are neither hexadecimal digits nor `x`. -/
def hexTokens (text : List Char) : List (List Char) :=
  text.splitOnP fun c => !(isHexDigit c || c = 'x' || c = 'X')

def stripHex (upper : Bool) : List Char → Option (List Char)
  | '0' :: 'x' :: digits => some digits
  | '0' :: 'X' :: digits => if upper then some digits else none
  | _ => none

/-- The first address written in a text. -/
def firstHexAddress (text : List Char) : Option Nat :=
  (hexTokens text).findSome? fun token => (stripHex true token).bind parseHex

/-- `format!("{n:#x}")`. -/
def hexText (n : Nat) : String :=
  "0x" ++ String.ofList (Nat.toDigits 16 n)

/-! ## Sketches -/

structure FunctionSketch where
  va : Nat
  size : Nat
  blocks : Nat
  instructions : Nat
  loops : Nat
  directCalls : List Nat
  returns : Nat
  memoryOps : Nat
  byteMemoryOps : Nat
  globalWrites : Nat
  adds : Nat
  subtracts : Nat
  multiplies : Nat
  xors : Nat
  zeroTests : Nat
  motifs : List String

structure RankedSketch where
  va : String
  score : Nat
  evidence : List String
  sketch : FunctionSketch

structure SketchImage where
  sketches : List FunctionSketch
  decodedInstructions : Nat
  candidateLimitReached : Bool
  candidateLimit : Nat
  elapsedMs : Nat

/-- Points and what they were given for. -/
structure Score where
  points : Nat
  evidence : List String

/-- `score += n; evidence.push(why)`. -/
def Score.add (s : Score) (n : Nat) (why : String) : Score :=
  { points := (s.points + n) % 2 ^ 32, evidence := s.evidence ++ [why] }

/-- `if cond { score += n; evidence.push(why) }`. -/
def Score.addIf (s : Score) (cond : Bool) (n : Nat) (why : String) : Score :=
  if cond then s.add n why else s

/-- The words that ask for a motif. -/
def motifWords (motif : String) : List String :=
  if motif = "nul_terminated_byte_loop" then
    ["nul", "null terminated", "cstring", "character count", "string length"]
  else if motif = "bounded_select" then ["clamp", "bounded", "lower", "upper"]
  else if motif = "xor_multiply_hash" then ["hash", "xor", "multiply", "byte processing"]
  else if motif = "arithmetic_dispatch" then ["dispatcher", "dispatch", "add subtract", "arithmetic"]
  else if motif = "conditional_call_pipeline" then
    ["pipeline", "decoder", "validator", "sink", "conditionally", "directly calls both"]
  else if motif = "linked_list_accumulator" then ["linked list", "next pointer", "node", "accumulating"]
  else if motif = "pair_dot_product" then ["dot product", "two field", "two structures"]
  else []

/-- One turn of the loop over a sketch's motifs. -/
def scoreMotif (query : List Char) (sketch : FunctionSketch) (s : Score) (motif : String) : Score :=
  if containsAny query (motifWords motif) then
    ((((((s.add 100 ("motif:" ++ motif)).addIf
        (motif = "nul_terminated_byte_loop" && sketch.byteMemoryOps = 1 && sketch.zeroTests = 1)
        32 "constraint:single_byte_scan").addIf
        (motif = "nul_terminated_byte_loop" && sketch.instructions ≤ 32 && sketch.blocks ≤ 5)
        24 "constraint:compact_leaf").addIf
        (motif = "bounded_select" && sketch.returns ≥ 2 && sketch.memoryOps = 0)
        48 "constraint:pure_two_bound_select").addIf
        (motif = "linked_list_accumulator" && sketch.blocks = 3 && sketch.zeroTests = 1 &&
          sketch.instructions ≤ 32)
        32 "constraint:compact_single_loop").addIf
        (motif = "linked_list_accumulator" && sketch.globalWrites = 0 && sketch.directCalls.isEmpty)
        24 "constraint:side_effect_free_pointer_walk").addIf
        (motif = "linked_list_accumulator" && sketch.adds ≥ 2 && sketch.memoryOps ≥ 3)
        20 "constraint:load_accumulate_advance"
  else s

/-- The sketch the map `by_va` holds for an address: the last one. -/
def byVa (sketches : List FunctionSketch) (va : Nat) : Option FunctionSketch :=
  sketches.reverse.find? fun sketch => sketch.va = va

/-- Every callee is a resident leaf, and some but not all of them write globals. -/
def leafStageChain (sketches : List FunctionSketch) (sketch : FunctionSketch) : Bool :=
  match sketch.directCalls.mapM (byVa sketches) with
  | none => false
  | some callees =>
    callees.all (fun callee => callee.directCalls.isEmpty) &&
      callees.any (fun callee => callee.globalWrites > 0) &&
      callees.any (fun callee => callee.globalWrites = 0)

/-- The body of the ranking loop: the points of one sketch. -/
def scoreOf (sketches : List FunctionSketch) (query : List Char) (address : Option Nat)
    (sketch : FunctionSketch) : Score :=
  let start : Score :=
    if address = some sketch.va then { points := 1000, evidence := ["constraint:exact_address"] }
    else { points := 0, evidence := [] }
  let motifs := sketch.motifs.foldl (scoreMotif query sketch) start
  let calls := sketch.directCalls.length
  let distanceFromThree := min (if calls < 3 then 3 - calls else calls - 3) 3
  let coordinator := containsAny query ["caller", "pipeline", "decoder", "validator"] &&
    sketch.motifs.any (· = "conditional_call_pipeline") && sketch.globalWrites = 0
  let total := (((((((motifs.addIf
      (containsAny query ["call", "caller", "reach", "pipeline"] && !sketch.directCalls.isEmpty)
      (24 - distanceFromThree * 8) ("direct_calls:" ++ toString calls)).addIf
      (containsAny query ["sink", "global writing", "global-writing"] &&
        sketch.directCalls.any fun callee => (byVa sketches callee).any fun value => value.globalWrites > 0)
      80 "verified_callee:global_write").addIf
      (containsAny query ["pipeline", "decoder", "validator", "sink"] && 2 ≤ calls && calls ≤ 4 &&
        leafStageChain sketches sketch)
      160 "verified_graph:leaf_stage_chain").addIf
      coordinator 16 "constraint:delegating_orchestrator").addIf
      (coordinator && sketch.instructions ≤ 32 && sketch.memoryOps ≤ 8)
      24 "constraint:compact_coordinator").addIf
      (containsAny query ["loop", "walk", "traverse"] && sketch.loops > 0)
      12 ("loops:" ++ toString sketch.loops)).addIf
      (containsAny query ["byte", "string"] && sketch.byteMemoryOps > 0)
      8 ("byte_memory_ops:" ++ toString sketch.byteMemoryOps))
  if containsAny query ["aes", "gcm", "encrypt", "cryptographic"] then { points := 0, evidence := [] } else total

/-- The order of the ranking: more points first, then the lower address. -/
def before (a b : RankedSketch) : Bool :=
  a.score > b.score || (a.score = b.score && a.sketch.va ≤ b.sketch.va)

/-- The address a normalized question asks for. -/
def addressConstraint (query : List Char) : Option Nat :=
  (hexTokens query).findSome? fun token => (stripHex false token).bind parseHex

/-- The ranked sketch the loop pushes, if it scores. -/
def rankedOf (sketches : List FunctionSketch) (query : List Char) (sketch : FunctionSketch) :
    Option RankedSketch :=
  let address := addressConstraint query
  if address.any (· ≠ sketch.va) then none
  else
    let score := scoreOf sketches query address sketch
    if score.points > 0 then
      some { va := hexText sketch.va, score := score.points, evidence := score.evidence, sketch := sketch }
    else none

/-- `rank_sketches`. -/
def rankSketches (sketches : List FunctionSketch) (question : List Char) (limit : Nat) : List RankedSketch :=
  let query := normalize question
  ((sketches.filterMap (rankedOf sketches query)).insertionSort fun a b => before a b).take (max 1 (min limit 8))

/-- Some sketch scores for the question. -/
def Scores (sketches : List FunctionSketch) (question : List Char) : Prop :=
  ∃ sketch ∈ sketches, rankedOf sketches (normalize question) sketch ≠ none

/-- The ranking is empty exactly when no sketch scores. -/
theorem rankSketches_eq_nil_iff (sketches : List FunctionSketch) (question : List Char) (limit : Nat) :
    rankSketches sketches question limit = [] ↔ ¬ Scores sketches question := by
  have hlimit : max 1 (min limit 8) ≠ 0 := by omega
  unfold rankSketches Scores
  rw [List.take_eq_nil_iff, or_iff_right hlimit, ← List.length_eq_zero_iff, List.length_insertionSort,
    List.length_eq_zero_iff, List.filterMap_eq_nil_iff]
  simp only [ne_eq, not_exists, not_and, not_not]

end Windy.Sketch
