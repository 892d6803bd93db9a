import Windy.Lib.Json

/- Results that are too large for a response, and reading them back
   (`normalize_v3_result`, `read_artifact`, `parse_artifact_cursor` and the
   `evidence_read` branch of `call_tool` in `mcp.rs`).

   Every result is put into an envelope. When the text of the envelope is longer
   than the output budget it is stored as an artifact and the response carries a
   preview and a cursor. `evidence_read` returns a chunk of the artifact's text, and
   this response goes through the same envelope and the same kind of budget.

   Correspondence:
     `normalize_v3_result` ↔ `Server.normalizeV3Result` (`Server.envelope` up to the encoding)
     `read_artifact`, `parse_artifact_cursor` ↔ the same
     `call_tool` (evidence_read) ↔ `Server.evidenceRead`
     `compact_preview` ↔ the same
   `Uuid::new_v4` is a sequence of ids the server draws from; time is in seconds. -/
namespace Windy.Artifact

def defaultInlineBytes : Nat := 2048

def maxInlineBytes : Nat := 8192

/-- `ARTIFACT_TTL` in seconds. -/
def artifactTtl : Nat := 15 * 60

/-- A hyphenated uuid: 36 hexadecimal digits and hyphens. -/
structure Uuid where
  text : String
  length : text.toList.length = 36
  plain : ∀ c ∈ text.toList, c ∈ "0123456789abcdef-".toList

structure StoredArtifact where
  body : String
  created : Nat

/-- What a tool call returns. -/
structure CallToolResult where
  isError : Option Bool
  structuredContent : Option Json
  content : List String

/-- The part of the server that results and artifacts touch. `revision` is the
`op_seq` of the open project with that id. -/
structure Server where
  now : Nat
  revision : String → Option Nat
  investigations : String → Bool
  artifacts : String → Option StoredArtifact
  uuids : Nat → Uuid
  issued : Nat

/-! ## Results -/

def structured (value : Json) : CallToolResult :=
  { isError := some false, structuredContent := some value, content := [value.toText] }

def structuredError (value : Json) : CallToolResult :=
  { isError := some true, structuredContent := some value, content := [value.toText] }

def toolErrorJson (code message : String) (details : Json) (retryable : Bool) : CallToolResult :=
  structuredError (.object [("error", .object
    [("code", .str code), ("message", .str message), ("details", details), ("retryable", .bool retryable)])])

/-- The budget of a response: the requested size within its limits. -/
def outputBudget (requested : Option Nat) : Nat :=
  max 512 (min (requested.getD defaultInlineBytes) maxInlineBytes)

/-- `char::is_control`. -/
def isControl (c : Char) : Bool :=
  c.toNat < 32 || (127 ≤ c.toNat && c.toNat < 160)

def sanitizeUntrustedText (text : String) (maxChars : Nat) : String :=
  let clean := text.toList.filter fun c => !isControl c
  String.ofList (clean.take maxChars ++ if clean.length > maxChars then [Char.ofNat 0x2026] else [])

mutual

/-- The preview of a value that is stored instead of returned. -/
def compactPreview (depth : Nat) : Json → Json
  | .arr values =>
    if 4 ≤ depth then .object [("items", .nat values.length)]
    else
      let items := previewItems depth 2 values
      if values.length > items.length then
        .object [("items", .arr items), ("omitted", .nat (values.length - items.length))]
      else .arr items
  | .obj values =>
    if 4 ≤ depth then .object [("fields", .nat values.length)]
    else
      let out := previewFields depth 20 values []
      if values.length > out.length then
        .obj (Json.insertField "omitted_fields" (.nat (values.length - out.length)) out)
      else .obj out
  | .str text => .str (sanitizeUntrustedText text (if 4 ≤ depth then 256 else 512))
  | other => other

/-- The previews of the first `n` values. -/
def previewItems (depth : Nat) : Nat → List Json → List Json
  | 0, _ => []
  | _ + 1, [] => []
  | n + 1, value :: rest => compactPreview (depth + 1) value :: previewItems depth n rest

/-- The previews of the first `n` fields, added to `out`. -/
def previewFields (depth : Nat) : Nat → List (String × Json) → List (String × Json) → List (String × Json)
  | 0, _, out => out
  | _ + 1, [], out => out
  | n + 1, (key, value) :: rest, out =>
    previewFields depth n rest (Json.insertField key (compactPreview (depth + 1) value) out)

end

namespace Server

/-- `artifacts.retain(..)`: artifacts live for `ARTIFACT_TTL`. -/
def retainArtifacts (s : Server) : Server :=
  { s with artifacts := fun id => (s.artifacts id).filter fun a => decide (s.now - a.created ≤ artifactTtl) }

/-! ## Spilling -/

/-- What `normalize_v3_result` reads off a result. -/
structure Summary where
  data : Json
  state : String
  completeness : String
  targetId : Option String
  revision : Option Nat

def summary (s : Server) (result : CallToolResult) : Summary :=
  let isError := result.isError == some true
  let data := result.structuredContent.getD (.object [])
  let dataState := (((data.get "status").or (data.get "state")).bind Json.asStr).getD ""
  let pending := dataState == "pending"
  let dataFailed := dataState == "error"
  let targetId := ((data.get "project_id").or (data.get "target_id")).bind Json.asStr
  { data := data
    state := if isError || dataFailed then "error" else if pending then "pending" else "complete"
    completeness :=
      if pending then "pending" else if isError || dataFailed then "unknown" else "complete"
    targetId := targetId
    revision := targetId.bind s.revision }

/-- The envelope of a result. -/
def envelope (s : Server) (toolName : String) (result : CallToolResult) : Json :=
  let summary := s.summary result
  .object [("v", .nat 3), ("tool", .str toolName), ("state", .str summary.state),
    ("completeness", .str summary.completeness), ("target_id", .ofOption .str summary.targetId),
    ("revision", .ofOption .nat summary.revision), ("data", summary.data)]

/-- The envelope of a result that was stored under `artifactId`. -/
def spilledEnvelope (s : Server) (toolName : String) (result : CallToolResult) (artifactId : String)
    (data : Json) : Json :=
  let summary := s.summary result
  .object [("v", .nat 3), ("tool", .str toolName), ("state", .str summary.state),
    ("completeness", .str "partial"), ("target_id", .ofOption .str summary.targetId),
    ("revision", .ofOption .nat summary.revision), ("data", data),
    ("artifact", .object [("artifact_id", .str artifactId), ("cursor", .str (artifactId ++ ":0")),
      ("total_bytes", .nat (Utf8.size (s.envelope toolName result).text)),
      ("expires_after_seconds", .nat artifactTtl)])]

/-- A response within the budget: the envelope itself, or a preview and the cursor
of the artifact that holds it. -/
def normalizeV3Result (s : Server) (toolName : String) (result : CallToolResult) (maxOutputBytes : Nat) :
    Server × CallToolResult :=
  let envelope := s.envelope toolName result
  if Utf8.size envelope.text > maxOutputBytes then
    let artifactId := (s.uuids s.issued).text
    let kept := s.retainArtifacts
    let stored := { kept with
      issued := s.issued + 1
      artifacts := Function.update kept.artifacts artifactId
        (some { body := envelope.toText, created := s.now }) }
    let preview := s.spilledEnvelope toolName result artifactId (compactPreview 0 envelope)
    let response :=
      if Utf8.size preview.text > maxOutputBytes then
        s.spilledEnvelope toolName result artifactId (.object [("message",
          .str "result exceeded the inline budget; read the artifact deliberately")])
      else preview
    (stored, { result with
      structuredContent := some response
      content := [toolName ++ ": partial; full result in artifact " ++ artifactId] })
  else
    (s, { result with
      structuredContent := some envelope
      content := [toolName ++ ": " ++ (s.summary result).state] })

/-! ## Reading -/

/-- One chunk of an artifact, from `offset` on. -/
def readArtifact (s : Server) (artifactId : String) (offset maxBytes : Nat) : Server × CallToolResult :=
  let s := s.retainArtifacts
  match s.artifacts artifactId with
  | none =>
    (s, toolErrorJson "ARTIFACT_NOT_FOUND" "artifact is missing or expired"
      (.object [("artifact_id", .str artifactId)]) false)
  | some artifact =>
    let body := artifact.body.toList
    let length := Utf8.size body
    -- Both ends are moved to a character boundary.
    let start := Utf8.ceil body (length - min offset length) (min offset length)
    let stop := Utf8.floor body start (min (start + maxBytes) length)
    (s, structured (.object [("artifact_id", .str artifactId), ("offset", .nat start),
      ("next_cursor", if stop < length then .str (artifactId ++ ":" ++ toString stop) else .null),
      ("total_bytes", .nat length), ("complete", .bool (stop == length)),
      ("chunk", .str (String.ofList (Utf8.before (Utf8.after body start) (stop - start))))]))

end Server

/-- `parse::<usize>()`. -/
def parseUsize (cs : List Char) : Option Nat :=
  let digits := if cs.head? = some '+' then cs.tail else cs
  if digits ≠ [] ∧ digits.all Char.isDigit then
    let n := digits.foldl (fun n c => 10 * n + (c.toNat - '0'.toNat)) 0
    if n < 2 ^ 64 then some n else none
  else none

/-- `rsplit_once(':')`. -/
def rsplitColon (cs : List Char) : Option (List Char × List Char) :=
  if ':' ∈ cs then
    let tail := (cs.reverse.takeWhile (· ≠ ':')).reverse
    some (cs.take (cs.length - tail.length - 1), tail)
  else none

/-- The artifact and the offset a cursor stands for. -/
def parseArtifactCursor (cursor : String) : String × Nat :=
  match rsplitColon cursor.toList with
  | some (id, offset) =>
    match parseUsize offset with
    | some n => (String.ofList id, n)
    | none => (cursor, 0)
  | none => (cursor, 0)

/-- What a call with a missing argument is told to do. -/
def evidenceReadRepair : Json :=
  .object [("repair", .arr [.object [("tool", .str "evidence_read"),
    ("arguments", .object [("investigation_id", .str "<returned investigation_id>"),
      ("cursor", .str "<returned artifact.cursor>")]),
    ("note", .str ("action_id values execute with investigation_step; " ++
      "evidence_read accepts only artifact cursors"))]])]

/-- An `evidence_read` call. -/
def Server.evidenceRead (s : Server) (investigationId cursor : String) (maxBytes : Option Nat) :
    Server × CallToolResult :=
  let pageBytes := max 256 (min (maxBytes.getD 2048) 8192)
  let (s, result) :=
    if investigationId = "" then
      (s, toolErrorJson "INVALID_ARGUMENT" "investigation_id is required" evidenceReadRepair false)
    else if cursor = "" then
      (s, toolErrorJson "INVALID_ARGUMENT" "cursor is required" evidenceReadRepair false)
    else if s.investigations investigationId then
      s.readArtifact (parseArtifactCursor cursor).1 (parseArtifactCursor cursor).2 pageBytes
    else
      (s, toolErrorJson "INVESTIGATION_NOT_FOUND" "investigation is missing or expired" (.object []) false)
  s.normalizeV3Result "evidence_read" result (outputBudget maxBytes)

end Windy.Artifact
