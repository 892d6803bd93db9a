import Windy.Analysis.Sketch
import Windy.Mcp.Evidence
import Windy.Mcp.Tickets

/- What the `completeness` of an envelope says about the result inside (`normalize_v3_result`,
   `run_sketch_investigation` in `mcp.rs`).

   The normalizer looks at `status`, or at `state` when there is no `status`, and knows the values
   `pending` and `error`. Everything else is called complete: a result that calls itself partial, a
   search that stopped at its deadline, and a status that hides a pending state. Only a result that
   does not fit into the response is called partial, whatever it says about itself.

   An investigation over the resident sketches answers `complete` with no evidence when nothing
   scores, also when the shortlist of sketches was cut.

   What is proved:
     1. `completeness_normalize`: the completeness of every envelope.
     2. `runSketchInvestigation_nothing`, `evidence_found`: when an investigation has
        no evidence.
     3. `not_overstated_iff`: a result, or an investigation over a cut shortlist,
        is overstated exactly when it fits into the response and is not an error
        or reported as pending.

   Correspondence:
     `normalize_v3_result`, `run_sketch_investigation`, `run_compact_capability_investigation`,
     `search_capabilities` ↔ the same
   The tools of the router, with their descriptions and schemas, are a parameter. -/
namespace Windy.Completeness

open Artifact (CallToolResult Server structured sanitizeUntrustedText)
open Sketch (FunctionSketch RankedSketch SketchImage hexText)
open Tickets (ActionTicket Arguments Session)

/-- The completeness an envelope declares. -/
def CallToolResult.completeness (result : CallToolResult) : Option String :=
  (result.structuredContent.bind (Json.get "completeness")).bind Json.asStr

/-- The evidence inside the data of an envelope. -/
def CallToolResult.evidenceDelta (result : CallToolResult) : Option Json :=
  (result.structuredContent.bind (Json.get "data")).bind (Json.get "evidence_delta")

/-- The data of a result says that it is not finished. -/
def DeclaresUnfinished (data : Json) : Prop :=
  (∃ key ∈ ["state", "status"], ∃ value ∈ ["partial", "pending"], data.get key = some (.str value)) ∨
  data.get "timeout_or_partial" = some (.bool true) ∨ data.get "total_kind" = some (.str "lower_bound")

/-! ## Investigations over resident sketches -/

structure Investigation where
  id : String
  intent : String
  question : String
  budget : String

/-- A tool of the router. -/
structure Tool where
  name : String
  description : String
  inputSchema : Json

def strings (items : List String) : Json := .arr (items.map .str)

def asArray : Json → List Json
  | .arr items => items
  | _ => []

def asObject : Json → List (String × Json)
  | .obj fields => fields
  | _ => []

def actionJson (action : ActionTicket) : Json :=
  .object [("purpose", .str action.label), ("execute", .object [("tool", .str "investigation_step"),
    ("arguments", .object [("action_id", .str action.id)])])]

def sketchFactDelta (sketch : FunctionSketch) (score : Nat) (support : List String) : Json :=
  .object [("id", .str ("sketch:" ++ hexText sketch.va)), ("kind", .str "function_sketch"),
    ("address", .str (hexText sketch.va)), ("score", .nat score), ("support", strings support),
    ("facts", .object [("size", .nat sketch.size), ("blocks", .nat sketch.blocks), ("loops", .nat sketch.loops),
      ("calls", strings ((sketch.directCalls.take 6).map hexText)), ("byte_memory", .nat sketch.byteMemoryOps),
      ("memory", .nat sketch.memoryOps), ("add", .nat sketch.adds), ("subtract", .nat sketch.subtracts),
      ("multiply", .nat sketch.multiplies), ("xor", .nat sketch.xors), ("zero_tests", .nat sketch.zeroTests),
      ("motifs", strings sketch.motifs)])]

def sketchDelta (candidate : RankedSketch) : Json :=
  sketchFactDelta candidate.sketch candidate.score candidate.evidence

def sketchSemanticTags (sketch : FunctionSketch) : List String :=
  if "arithmetic_dispatch" ∈ sketch.motifs then ["ADD", "SUBTRACT", "MULTIPLY"]
  else if "xor_multiply_hash" ∈ sketch.motifs then ["BYTE", "XOR", "MULTIPLY"]
  else []

/-- `capability_argument_summary`. -/
def capabilityArgumentSummary (schema : Json) : List Json :=
  let required := (((schema.get "required").map asArray).getD []).filterMap Json.asStr
  (((schema.get "properties").map asObject).getD []).map fun (name, property) =>
    .object [("name", .str name), ("required", .bool (name ∈ required)),
      ("type", (property.get "type").getD (.str "any")),
      ("description", .ofOption (fun text => .str (sanitizeUntrustedText text 120))
        ((property.get "description").bind Json.asStr))]

def isAsciiAlphanumeric (c : Char) : Bool :=
  c.isDigit || ('a' ≤ c && c ≤ 'z') || ('A' ≤ c && c ≤ 'Z')

/-- `str::trim`. -/
def trim (text : List Char) : List Char :=
  ((text.dropWhile Sketch.isWhitespace).reverse.dropWhile Sketch.isWhitespace).reverse

/-- The points of a tool for a query. -/
def toolScore (query : List Char) (terms : List (List Char)) (tool : Tool) : Nat :=
  let name := tool.name.toList
  let haystack := Sketch.asciiLowercase
    (name.map (fun c => if c = '_' then ' ' else c) ++ ' ' :: tool.description.toList)
  (if query ≠ [] ∧ Sketch.contains haystack (String.ofList query) then 100 else 0) +
    (terms.map fun term =>
      (if Sketch.contains name (String.ofList term) then 20 else 0) +
        (if Sketch.contains haystack (String.ofList term) then 5 else 0)).sum

def searchCapabilities (tools : List Tool) (question : String) (limit : Nat) : CallToolResult :=
  let query := Sketch.asciiLowercase (trim question.toList)
  let terms := (query.splitOnP fun c => !isAsciiAlphanumeric c).filter fun term =>
    Utf8.size term ≥ 2
  let ranked := (tools.filterMap fun tool =>
      let score := toolScore query terms tool
      if score = 0 then none
      else some (score, tool.name, Json.object [("capability_id", .str tool.name),
        ("description", .str (sanitizeUntrustedText tool.description 240)),
        ("required", (tool.inputSchema.get "required").getD (.arr [])),
        ("arguments", .arr (capabilityArgumentSummary tool.inputSchema))])).insertionSort
    fun a b => a.1 > b.1 ∨ (a.1 = b.1 ∧ a.2.1 ≤ b.2.1)
  let capabilities := (ranked.take limit).map fun entry => entry.2.2
  structured (.object [("query", .str (String.ofList query)), ("count", .nat capabilities.length),
    ("total_matches", .nat ranked.length), ("capabilities", .arr capabilities)])

/-- `capability_ids`. -/
def capabilityIds (result : CallToolResult) : List String :=
  (((result.structuredContent.bind (Json.get "capabilities")).map asArray).getD []).filterMap fun value =>
    (value.get "capability_id").bind Json.asStr

section Investigate
variable {τ : Type}

def runCompactCapabilityInvestigation (tools : List Tool) (s : Session τ) (investigation : Investigation)
    (targetHandle : String) : Session τ × CallToolResult :=
  let result := searchCapabilities tools investigation.question 3
  let bound :=
    if "list_imports" ∈ capabilityIds result then
      let ticket := s.bindAction investigation.id "list PE imports from the compact catalog" "__catalog_list_imports"
        (Finmap.insert "limit" (.nat 32) (Finmap.insert "offset" (.nat 0)
          (Finmap.insert "target_handle" (.str targetHandle) ∅))) none
      (ticket.2, [actionJson ticket.1])
    else (s, [])
  (bound.1, structured (.object [("state", .str "partial"), ("investigation_id", .str investigation.id),
    ("target_id", .str targetHandle), ("revision", .nat 0), ("stage", .str "catalog"),
    ("evidence_delta", result.structuredContent.getD .null), ("next_actions", .arr bound.2),
    ("uncertainty", .str (if bound.2.isEmpty then "matching capability requires inputs or a deeper target stage"
      else "execute the bound action ticket to obtain evidence"))]))

/-- The tickets to look at the first candidates. -/
def bindWindows (s : Session τ) (investigation : Investigation) (targetHandle path : String) :
    List RankedSketch → Session τ × List Json
  | [] => (s, [])
  | candidate :: rest =>
    let ticket := s.bindAction investigation.id ("inspect bounded function window " ++ candidate.va)
      "__inspect_window" (Finmap.insert "va" (.str candidate.va)
        (Finmap.insert "target_handle" (.str targetHandle) (Finmap.insert "path" (.str path) ∅))) none
    let others := bindWindows ticket.2 investigation targetHandle path rest
    (others.1, actionJson ticket.1 :: others.2)

/-- The verdict on a claim about a resident function. -/
def verifySketch (investigation : Investigation) (targetHandle : String) (sketch : FunctionSketch) :
    CallToolResult :=
  let directCallClaim := Sketch.contains (Sketch.asciiLowercase investigation.question.toList) "directly call"
  let contradicted := directCallClaim && sketch.directCalls.isEmpty
  structured (.object [("state", .str "complete"), ("investigation_id", .str investigation.id),
    ("target_id", .str targetHandle), ("stage", .str "sketch"),
    ("evidence_delta", .arr [sketchFactDelta sketch 0 ["authoritative function range"]]),
    ("verdict", .str (if contradicted then "contradicted" else "unknown")),
    ("answer", .str (if contradicted then "CONTRADICTED" else "UNKNOWN")),
    ("uncertainty", .str (if contradicted then "none"
      else "function sketch cannot prove the requested semantics")),
    ("next_actions", .arr [])])

/-- The answer when one candidate stands out. -/
def uniqueAnswer (investigation : Investigation) (targetHandle : String) (ranked : List RankedSketch)
    (best : RankedSketch) : CallToolResult :=
  structured (.object [("state", .str "complete"), ("investigation_id", .str investigation.id),
    ("intent", .str investigation.intent), ("target_id", .str targetHandle), ("revision", .nat 0),
    ("stage", .str "sketch"),
    ("answer", .object [("address", .str best.va), ("semantic_tags", strings (sketchSemanticTags best.sketch))]),
    ("evidence_delta", .arr [sketchDelta best]), ("omitted", .nat (ranked.length - 1)),
    ("completeness_reason", .str "unique candidate verified by intersecting structural constraints"),
    ("uncertainty", .str "none"), ("next_actions", .arr [])])

/-- The answer with the ranked candidates, which may be none. -/
def rankedAnswer (investigation : Investigation) (targetHandle : String) (image : SketchImage)
    (ranked : List RankedSketch) (actions : List Json) : CallToolResult :=
  structured (.object [("state", .str (if ranked.isEmpty then "complete" else "partial")),
    ("investigation_id", .str investigation.id), ("intent", .str investigation.intent),
    ("target_id", .str targetHandle), ("revision", .nat 0), ("stage", .str "sketch"),
    ("sketch_metrics", .object [("resident_functions", .nat image.sketches.length),
      ("decoded", .nat image.decodedInstructions), ("candidate_limit", .nat image.candidateLimit),
      ("candidate_limit_reached", .bool image.candidateLimitReached), ("elapsed_ms", .nat image.elapsedMs)]),
    ("evidence_delta", .arr (ranked.map sketchDelta)), ("omitted", .nat 0),
    ("uncertainty", .str (if image.candidateLimitReached then
        "resident candidate shortlist reached its RAM cap; whole-image instruction metadata remains " ++
        "available in the disk-backed deep index and exact addresses remain queryable"
      else if actions.isEmpty then "no matching sketch; unsupported rather than guessed"
      else "ranked structural evidence; inspect only if more proof is required")),
    ("next_actions", .arr actions)])

/-- The answer to a question about building the deep index. -/
def deepIndexAnswer (s : Session τ) (investigation : Investigation) (targetHandle : String) :
    Session τ × CallToolResult :=
  let ticket := s.bindAction investigation.id "build or load the compact partitioned deep index"
    "__build_deep_index" (Finmap.insert "target_handle" (.str targetHandle) ∅) none
  (ticket.2, structured (.object [("state", .str "partial"), ("investigation_id", .str investigation.id),
    ("target_id", .str targetHandle), ("stage", .str "sketch"),
    ("evidence_delta", .arr [.object [("id", .str ("capability:" ++ targetHandle ++ ":deep")),
      ("kind", .str "capability"), ("record_bytes", .nat 8), ("partition", .str "section")]]),
    ("uncertainty", .str "deep index is not built until its action is executed"),
    ("next_actions", .arr [actionJson ticket.1])]))

/-- The sketch a claim to verify is about. -/
def claimedSketch (investigation : Investigation) (image : SketchImage) : Option FunctionSketch :=
  if investigation.intent = "verify" then
    (Sketch.firstHexAddress investigation.question.toList).bind fun va =>
      image.sketches.find? fun sketch => sketch.va = va
  else none

/-- The candidate that is proved by a motif or its address and has the most
points alone. -/
def uniqueBest (ranked : List RankedSketch) : Option RankedSketch :=
  match ranked with
  | [] => none
  | best :: rest =>
    let hasSemanticProof := best.evidence.any fun value =>
      "motif:".toList.isPrefixOf value.toList || value = "constraint:exact_address"
    let isUnique := rest.head?.all fun second => best.score > second.score
    if hasSemanticProof && isUnique then some best else none

/-- `run_sketch_investigation`. -/
def runSketchInvestigation (tools : List Tool) (s : Session τ) (investigation : Investigation)
    (targetHandle path : String) (image : SketchImage) : Session τ × CallToolResult :=
  let ranked := Sketch.rankSketches image.sketches investigation.question.toList
    (if investigation.budget = "tiny" then 2 else 3)
  let lowerQuestion := Sketch.asciiLowercase investigation.question.toList
  if investigation.intent = "capability" then
    if Sketch.contains lowerQuestion "deep" && Sketch.contains lowerQuestion "index" then
      deepIndexAnswer s investigation targetHandle
    else runCompactCapabilityInvestigation tools s investigation targetHandle
  else
    match claimedSketch investigation image with
    | some sketch => (s, verifySketch investigation targetHandle sketch)
    | none =>
      match uniqueBest ranked with
      | some best => (s, uniqueAnswer investigation targetHandle ranked best)
      | none =>
        let bound := bindWindows s investigation targetHandle path (ranked.take 2)
        (bound.1, rankedAnswer investigation targetHandle image ranked bound.2)

end Investigate

/-! ## The completeness of an envelope -/

section Envelope
variable (s : Server) (toolName : String) (result : CallToolResult) (budget : Nat)

/-- The data of a result, as the normalizer reads it. -/
def dataOf : Json := result.structuredContent.getD (.object [])

/-- `status`, or `state` when there is no status. -/
def dataState : String :=
  ((((dataOf result).get "status").or ((dataOf result).get "state")).bind Json.asStr).getD ""

/-- The envelope does not fit into the response. -/
def Spills : Prop := budget < Utf8.size (s.envelope toolName result).text

theorem completeness_spilled (h : Spills s toolName result budget) :
    CallToolResult.completeness (s.normalizeV3Result toolName result budget).2 = some "partial" := by
  obtain ⟨data, -, hcontent⟩ := Artifact.normalize_spilled h
  unfold CallToolResult.completeness
  rw [hcontent]
  rfl

theorem completeness_inline (h : ¬ Spills s toolName result budget) :
    CallToolResult.completeness (s.normalizeV3Result toolName result budget).2 =
      some (s.summary result).completeness := by
  unfold CallToolResult.completeness
  rw [Artifact.normalize_inline (Nat.not_lt.mp h)]
  rfl

theorem evidenceDelta_inline (h : ¬ Spills s toolName result budget) :
    CallToolResult.evidenceDelta (s.normalizeV3Result toolName result budget).2 =
      (dataOf result).get "evidence_delta" := by
  unfold CallToolResult.evidenceDelta
  rw [Artifact.normalize_inline (Nat.not_lt.mp h)]
  rfl

theorem summary_completeness_iff :
    (s.summary result).completeness = "complete" ↔
      dataState result ≠ "pending" ∧ dataState result ≠ "error" ∧ result.isError ≠ some true := by
  show (if (dataState result == "pending") = true then "pending"
    else if (result.isError == some true || dataState result == "error") = true then "unknown"
    else "complete") = "complete" ↔ _
  by_cases hpending : dataState result = "pending"
  · simp [hpending]
  · by_cases herror : dataState result = "error"
    · simp [herror]
    · by_cases hfailed : result.isError = some true
      · simp [hpending, hfailed]
      · simp [hpending, herror, hfailed]

/-- An envelope is called complete exactly when it fits into the response and its
data is neither called pending nor an error. -/
theorem completeness_normalize :
    CallToolResult.completeness (s.normalizeV3Result toolName result budget).2 = some "complete" ↔
      ¬ Spills s toolName result budget ∧ dataState result ≠ "pending" ∧ dataState result ≠ "error" ∧
      result.isError ≠ some true := by
  by_cases hspills : Spills s toolName result budget
  · rw [completeness_spilled s toolName result budget hspills]
    simp [hspills]
  · rw [completeness_inline s toolName result budget hspills, Option.some.injEq, summary_completeness_iff]
    simp [hspills]

end Envelope

/-! ## The evidence of an investigation -/

section Evidence
variable {τ : Type} (tools : List Tool) (session : Session τ) (investigation : Investigation)
  (targetHandle path : String) (image : SketchImage)

/-- The investigation has something to report: a capability, the function a claim
is about, or a sketch that scores. -/
def Finds : Prop :=
  investigation.intent = "capability" ∨ (claimedSketch investigation image).isSome ∨
    Sketch.Scores image.sketches investigation.question.toList

variable {investigation image}

/-- Without anything to report the answer is the empty ranking. -/
theorem runSketchInvestigation_nothing (h : ¬ Finds investigation image) :
    (runSketchInvestigation tools session investigation targetHandle path image).2 =
      rankedAnswer investigation targetHandle image [] [] := by
  unfold Finds at h
  push Not at h
  obtain ⟨hintent, hclaimed, hscores⟩ := h
  have hnone : claimedSketch investigation image = none := by simpa using hclaimed
  have hranked := fun limit =>
    (Sketch.rankSketches_eq_nil_iff image.sketches investigation.question.toList limit).mpr hscores
  unfold runSketchInvestigation
  rw [if_neg hintent, hnone, hranked]
  rfl

theorem evidence_capability (hintent : investigation.intent = "capability") :
    (dataOf (runSketchInvestigation tools session investigation targetHandle path image).2).get "evidence_delta" ≠
      some (.arr []) := by
  unfold runSketchInvestigation
  rw [if_pos hintent]
  split
  · show some (Json.arr [_]) ≠ _
    simp
  · show some (Json.object _) ≠ _
    simp [Json.object]

theorem evidence_found (hfinds : Finds investigation image) :
    (dataOf (runSketchInvestigation tools session investigation targetHandle path image).2).get "evidence_delta" ≠
      some (.arr []) := by
  by_cases hintent : investigation.intent = "capability"
  · exact evidence_capability tools session targetHandle path hintent
  unfold runSketchInvestigation
  rw [if_neg hintent]
  cases hclaimed : claimedSketch investigation image with
  | some sketch =>
    show some (Json.arr [_]) ≠ _
    simp
  | none =>
    have hscores : Sketch.Scores image.sketches investigation.question.toList := by
      simpa [Finds, hintent, hclaimed] using hfinds
    have hranked := fun limit => mt
      (Sketch.rankSketches_eq_nil_iff image.sketches investigation.question.toList limit).mp (not_not.mpr hscores)
    dsimp only
    generalize hlist : Sketch.rankSketches image.sketches investigation.question.toList
      (if investigation.budget = "tiny" then 2 else 3) = ranked
    have hne : ranked ≠ [] := by rw [← hlist]; exact hranked _
    cases huniq : uniqueBest ranked with
    | some best =>
      show some (Json.arr [_]) ≠ _
      simp
    | none =>
      show some (Json.arr (ranked.map sketchDelta)) ≠ _
      simpa using hne

end Evidence

/-! ## Overstated results -/

/-- A result that says it is unfinished is not called complete. -/
def ReportsUnfinished (s : Server) (toolName : String) (result : CallToolResult) (budget : Nat) : Prop :=
  DeclaresUnfinished (dataOf result) →
    CallToolResult.completeness (s.normalizeV3Result toolName result budget).2 ≠ some "complete"

/-- An investigation over a shortlist that was cut is not called complete without
evidence. -/
def ReportsCut {τ : Type} (tools : List Tool) (session : Session τ) (investigation : Investigation)
    (targetHandle path : String) (image : SketchImage) (s : Server) (toolName : String) (budget : Nat) : Prop :=
  image.candidateLimitReached = true →
    ¬ (CallToolResult.completeness (s.normalizeV3Result toolName
          (runSketchInvestigation tools session investigation targetHandle path image).2 budget).2 =
          some "complete" ∧
        CallToolResult.evidenceDelta (s.normalizeV3Result toolName
          (runSketchInvestigation tools session investigation targetHandle path image).2 budget).2 =
          some (.arr []))

theorem reportsUnfinished_iff (s : Server) (toolName : String) (result : CallToolResult) (budget : Nat) :
    ReportsUnfinished s toolName result budget ↔
      (DeclaresUnfinished (dataOf result) → dataState result = "pending" ∨ dataState result = "error" ∨
        result.isError = some true ∨ Spills s toolName result budget) := by
  unfold ReportsUnfinished
  refine imp_congr_right fun _ => ?_
  rw [ne_eq, completeness_normalize]
  constructor
  · intro h
    by_contra hno
    push Not at hno
    exact h ⟨hno.2.2.2, hno.1, hno.2.1, hno.2.2.1⟩
  · rintro h ⟨hspills, hpending, herror, hfailed⟩
    exact h.elim hpending fun h => h.elim herror fun h => h.elim hfailed hspills

theorem reportsCut_iff {τ : Type} (tools : List Tool) (session : Session τ) (investigation : Investigation)
    (targetHandle path : String) (image : SketchImage) (s : Server) (toolName : String) (budget : Nat) :
    ReportsCut tools session investigation targetHandle path image s toolName budget ↔
      (image.candidateLimitReached = true → Finds investigation image ∨
        Spills s toolName (rankedAnswer investigation targetHandle image [] []) budget) := by
  unfold ReportsCut
  refine imp_congr_right fun _ => ?_
  by_cases hfinds : Finds investigation image
  · refine iff_of_true ?_ (Or.inl hfinds)
    rintro ⟨hcomplete, hempty⟩
    have hinline := ((completeness_normalize s toolName _ budget).mp hcomplete).1
    rw [evidenceDelta_inline s toolName _ budget hinline] at hempty
    exact evidence_found tools session targetHandle path hfinds hempty
  · rw [runSketchInvestigation_nothing tools session targetHandle path hfinds, or_iff_right hfinds,
      completeness_normalize]
    have hstate : dataState (rankedAnswer investigation targetHandle image [] []) = "complete" := rfl
    have hok : (rankedAnswer investigation targetHandle image [] []).isError = some false := rfl
    rw [hstate, hok]
    by_cases hspills : Spills s toolName (rankedAnswer investigation targetHandle image [] []) budget
    · simp [hspills]
    · rw [evidenceDelta_inline s toolName _ budget hspills]
      have hdelta : (dataOf (rankedAnswer investigation targetHandle image [] [])).get "evidence_delta" =
          some (.arr []) := rfl
      simp [hspills, hdelta]

/-- Completeness is not overstated exactly when an unfinished result is an error,
says pending or error where the normalizer looks, or is too large for the
response; and when an investigation over a cut shortlist finds something or is too
large. -/
theorem not_overstated_iff (s : Server) (toolName : String) (result : CallToolResult) (budget : Nat) {τ : Type}
    (tools : List Tool) (session : Session τ) (investigation : Investigation) (targetHandle path : String)
    (image : SketchImage) :
    (ReportsUnfinished s toolName result budget ↔
      (DeclaresUnfinished (dataOf result) → dataState result = "pending" ∨ dataState result = "error" ∨
        result.isError = some true ∨ Spills s toolName result budget)) ∧
    (ReportsCut tools session investigation targetHandle path image s toolName budget ↔
      (image.candidateLimitReached = true → Finds investigation image ∨
        Spills s toolName (rankedAnswer investigation targetHandle image [] []) budget)) :=
  ⟨reportsUnfinished_iff s toolName result budget,
    reportsCut_iff tools session investigation targetHandle path image s toolName budget⟩

/-- What an action ticket that is not executed yet answers. -/
def partialResult : CallToolResult :=
  structured (.object [("state", .str "partial"), ("evidence_delta", .arr [])])

/-- A shortlist that was cut, with no sketch that could answer. -/
def cutImage : SketchImage :=
  { sketches := [], decodedInstructions := 0, candidateLimitReached := true, candidateLimit := 65536,
    elapsedMs := 0 }

def locateQuestion : Investigation :=
  { id := "case", intent := "locate", question := "find the parser", budget := "tiny" }

/-- A partial result, and a cut shortlist without a match, are both called
complete. -/
theorem partial_is_called_complete :
    ¬ ReportsUnfinished Artifact.emptyServer "investigation_step" partialResult 2048 ∧
    ¬ ReportsCut [] Tickets.Session.oneProject locateQuestion "job" "/tmp/a.exe" cutImage Artifact.emptyServer
        "investigation_step" 2048 := by
  constructor
  · rw [reportsUnfinished_iff]
    intro h
    rcases h (Or.inl ⟨"state", by decide, "partial", by decide, rfl⟩) with hstate | hstate | hfailed | hspills
    · exact absurd hstate (by decide)
    · exact absurd hstate (by decide)
    · exact absurd hfailed (by decide)
    · exact absurd hspills (by rw [Spills, Json.size_text]; decide +kernel)
  · rw [reportsCut_iff]
    intro h
    rcases h rfl with (hintent | hclaimed | ⟨sketch, hsketch, -⟩) | hspills
    · exact absurd hintent (by decide)
    · exact absurd hclaimed (by decide)
    · cases hsketch
    · exact absurd hspills (by rw [Spills, Json.size_text]; decide +kernel)

end Windy.Completeness
