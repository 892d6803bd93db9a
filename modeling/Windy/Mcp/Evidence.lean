import Windy.Mcp.Artifact

/- Reading an artifact back through `evidence_read`.

   A page of an artifact is put into an envelope and measured against the budget of
   the response, which is the size of the page that was asked for. The envelope adds
   more than two hundred bytes, so a full page never fits: its response is spilled
   to an artifact of its own and carries neither the chunk nor the next cursor.

   `artifact_readable_iff`: reading back works exactly when one response can carry
   the whole artifact. -/
namespace Windy.Artifact

open scoped Utf8

/-- What a client gets that reads from a cursor on and follows `data.next_cursor`:
the chunks of its responses, the last one without a next cursor. -/
inductive Reads (investigationId : String) (maxBytes : Nat) : Server → String → List String → Prop
  | last {s s' : Server} {cursor chunk : String} {result : CallToolResult} {envelope data : Json}
      (hcall : s.evidenceRead investigationId cursor (some maxBytes) = (s', result))
      (henvelope : result.structuredContent = some envelope) (hdata : envelope.get "data" = some data)
      (hchunk : data.get "chunk" = some (.str chunk)) (hnext : data.get "next_cursor" = some .null) :
      Reads investigationId maxBytes s cursor [chunk]
  | more {s s' : Server} {cursor chunk next : String} {chunks : List String} {result : CallToolResult}
      {envelope data : Json}
      (hcall : s.evidenceRead investigationId cursor (some maxBytes) = (s', result))
      (henvelope : result.structuredContent = some envelope) (hdata : envelope.get "data" = some data)
      (hchunk : data.get "chunk" = some (.str chunk)) (hnext : data.get "next_cursor" = some (.str next))
      (hrest : Reads investigationId maxBytes s' next chunks) :
      Reads investigationId maxBytes s cursor (chunk :: chunks)

/-- The cursor a response gives for its artifact. -/
def CallToolResult.artifactCursor (result : CallToolResult) : Option String :=
  ((result.structuredContent.bind (Json.get "artifact")).bind (Json.get "cursor")).bind Json.asStr

/-- The body can be read back: from the response's cursor on the reads come to an
end, and their chunks together are the body. -/
def Readable (s : Server) (investigationId : String) (maxBytes : Nat) (response : CallToolResult)
    (body : String) : Prop :=
  ∃ cursor chunks, response.artifactCursor = some cursor ∧
    Reads investigationId maxBytes s cursor chunks ∧ String.join chunks = body

/-! ## The first read -/

/-- The data of a read of a body up to `stop`, from its start on. -/
def firstPage (artifactId : String) (body : List Char) (stop : Nat) : Json :=
  .object [("artifact_id", .str artifactId), ("offset", .nat 0),
    ("next_cursor", if stop < Utf8.size body then .str (artifactId ++ ":" ++ toString stop) else .null),
    ("total_bytes", .nat (Utf8.size body)), ("complete", .bool (stop == Utf8.size body)),
    ("chunk", .str (String.ofList (Utf8.before body stop)))]

theorem firstPage_chunk (artifactId : String) (body : List Char) (stop : Nat) :
    (firstPage artifactId body stop).get "chunk" = some (.str (String.ofList (Utf8.before body stop))) := rfl

theorem firstPage_next (artifactId : String) (body : List Char) (stop : Nat) :
    (firstPage artifactId body stop).get "next_cursor" =
      some (if stop < Utf8.size body then .str (artifactId ++ ":" ++ toString stop) else .null) := rfl

theorem parseArtifactCursor_start (artifactId : String) :
    parseArtifactCursor (artifactId ++ ":0") = (artifactId, 0) := by
  have hchars : (artifactId ++ ":0").toList = artifactId.toList ++ [':', '0'] := by simp
  have hsplit : rsplitColon (artifactId.toList ++ [':', '0']) = some (artifactId.toList, ['0']) := by
    simp [rsplitColon]
  have hzero : parseUsize ['0'] = some 0 := by decide
  unfold parseArtifactCursor
  rw [hchars, hsplit]
  simp only [hzero, String.ofList_toList]

theorem readArtifact_start {s : Server} {artifactId : String} {artifact : StoredArtifact} {maxBytes : Nat}
    (hstored : s.artifacts artifactId = some artifact) (hfresh : s.now - artifact.created ≤ artifactTtl) :
    s.readArtifact artifactId 0 maxBytes = (s.retainArtifacts, structured (firstPage artifactId artifact.body.toList
      (Utf8.floor artifact.body.toList 0 (min maxBytes (Utf8.size artifact.body.toList))))) := by
  have hkept : s.retainArtifacts.artifacts artifactId = some artifact := by
    show (s.artifacts artifactId).filter (fun a => decide (s.now - a.created ≤ artifactTtl)) = some artifact
    rw [hstored]
    exact if_pos (decide_eq_true hfresh)
  have hceil : ∀ fuel, Utf8.ceil artifact.body.toList fuel 0 = 0 := by
    intro fuel
    cases fuel with
    | zero => rfl
    | succ fuel => rw [Utf8.ceil, if_neg (by rw [Utf8.isBoundary_zero]; decide)]
  unfold Server.readArtifact
  simp only [hkept, Nat.zero_min, hceil, Nat.zero_add, Utf8.after_zero, Nat.sub_zero]
  rfl

/-! ## Its length -/

theorem Uuid.escapedSize (id : Uuid) : Json.escapedSize id.text = 36 := by
  have hdigits : ∀ c ∈ "0123456789abcdef-".toList, Json.escapeChar c = [c] ∧ c.utf8Size = 1 := by
    decide
  have hascii : ∀ c ∈ id.text.toList, Json.escapeChar c = [c] ∧ c.utf8Size = 1 :=
    fun c hc => hdigits c (id.plain c hc)
  have hsize : ∀ cs : List Char, (∀ c ∈ cs, Json.escapeChar c = [c] ∧ c.utf8Size = 1) →
      Utf8.size (Json.escape cs) = cs.length := by
    intro cs hcs
    rw [Json.escape_eq_self fun c hc => (hcs c hc).1]
    induction cs with
    | nil => rfl
    | cons c cs ih =>
      rw [Utf8.size_cons, (hcs c List.mem_cons_self).2,
        ih fun d hd => hcs d (List.mem_cons_of_mem c hd), List.length_cons, Nat.add_comm]
  rw [Json.escapedSize, hsize _ hascii, id.length]

/-- The fields of the page and of its envelope, in key order. -/
theorem envelope_firstPage (s : Server) (artifactId : String) (body : List Char) (stop : Nat) :
    s.envelope "evidence_read" (structured (firstPage artifactId body stop)) =
      .obj [("completeness", .str "complete"),
        ("data", .obj [("artifact_id", .str artifactId),
          ("chunk", .str (String.ofList (Utf8.before body stop))),
          ("complete", .bool (stop == Utf8.size body)),
          ("next_cursor",
            if stop < Utf8.size body then .str (artifactId ++ ":" ++ toString stop) else .null),
          ("offset", .num "0"), ("total_bytes", .nat (Utf8.size body))]),
        ("revision", .null), ("state", .str "complete"), ("target_id", .null),
        ("tool", .str "evidence_read"), ("v", .num "3")] := by
  rfl

/-- The length of the envelope but for what varies from page to page. -/
theorem size_envelope_firstPage (s : Server) (id : Uuid) (body : List Char) (stop : Nat) :
    Utf8.size (s.envelope "evidence_read" (structured (firstPage id.text body stop))).text =
      234 + Utf8.size (Json.escape (Utf8.before body stop)) +
        (Json.bool (stop == Utf8.size body)).size +
        (if stop < Utf8.size body then Json.str (id.text ++ ":" ++ toString stop) else .null).size +
        Utf8.size (toString (Utf8.size body)).toList := by
  have hkeys : Json.escapedSize "completeness" = 12 ∧ Json.escapedSize "data" = 4 ∧
      Json.escapedSize "revision" = 8 ∧ Json.escapedSize "state" = 5 ∧ Json.escapedSize "target_id" = 9 ∧
      Json.escapedSize "tool" = 4 ∧ Json.escapedSize "v" = 1 ∧ Json.escapedSize "artifact_id" = 11 ∧
      Json.escapedSize "chunk" = 5 ∧ Json.escapedSize "complete" = 8 ∧ Json.escapedSize "next_cursor" = 11 ∧
      Json.escapedSize "offset" = 6 ∧ Json.escapedSize "total_bytes" = 11 ∧
      Json.escapedSize "evidence_read" = 13 ∧ Utf8.size "0".toList = 1 ∧ Utf8.size "3".toList = 1 := by
    decide
  have hid := id.escapedSize
  have hchunk : Json.escapedSize (String.ofList (Utf8.before body stop)) =
      Utf8.size (Json.escape (Utf8.before body stop)) := by
    rw [Json.escapedSize, String.toList_ofList]
  rw [Json.size_text, envelope_firstPage]
  simp only [Json.size, Json.sizeFields, Json.nat, hchunk]
  omega

/-- The length of the response that would carry the whole body. -/
def wholePageSize (body : String) : Nat :=
  242 + Json.escapedSize body + Utf8.size (toString (Utf8.size body.toList)).toList

theorem wholePageSize_toText (j : Json) :
    wholePageSize j.toText = 242 + Utf8.size (Json.escape j.text) + Utf8.size (toString (Utf8.size j.text)).toList := by
  rw [wholePageSize, Json.escapedSize, Json.toText, String.toList_ofList]

theorem size_wholePage (s : Server) (id : Uuid) (body : String) :
    Utf8.size (s.envelope "evidence_read"
      (structured (firstPage id.text body.toList (Utf8.size body.toList)))).text = wholePageSize body := by
  rw [size_envelope_firstPage, Utf8.before_size, if_neg (Nat.lt_irrefl _), beq_self_eq_true, wholePageSize,
    Json.escapedSize]
  show 234 + _ + 4 + 4 + _ = _
  omega

/-- A page that is not the last one carries a cursor as well. -/
theorem lt_size_firstPage (s : Server) (id : Uuid) {body : List Char} {stop : Nat} (hstop : stop < Utf8.size body)
    (hbound : Utf8.isBoundary body stop = true) :
    stop + 278 ≤ Utf8.size (s.envelope "evidence_read" (structured (firstPage id.text body stop))).text := by
  have hchunk := Json.size_le_escape (Utf8.before body stop)
  rw [Utf8.size_before hbound] at hchunk
  have hcursor : 37 ≤ Json.escapedSize (id.text ++ ":" ++ toString stop) := by
    have hid := id.escapedSize
    have hcolon : Utf8.size (Json.escape [':']) = 1 := rfl
    have hchars : (id.text ++ ":" ++ toString stop).toList = id.text.toList ++ [':'] ++ (toString stop).toList := by
      simp
    rw [Json.escapedSize] at hid ⊢
    rw [hchars, Json.escape, List.flatMap_append, List.flatMap_append, Utf8.size_append, Utf8.size_append]
    simp only [Json.escape] at hid hcolon
    omega
  rw [size_envelope_firstPage, if_pos hstop, beq_eq_false_iff_ne.mpr (Nat.ne_of_lt hstop)]
  show stop + 278 ≤ 234 + _ + 5 + (Json.escapedSize (id.text ++ ":" ++ toString stop) + 2) + _
  omega

/-! ## Spilled results -/

section Spill
variable {s : Server} {toolName : String} {result : CallToolResult} {budget : Nat}

/-- A spilled response has one of two kinds of data, and the cursor of the
artifact's start. -/
theorem normalize_spilled (h : budget < Utf8.size (s.envelope toolName result).text) :
    ∃ data, (data = compactPreview 0 (s.envelope toolName result) ∨
        data = .object [("message",
          .str "result exceeded the inline budget; read the artifact deliberately")]) ∧
      (s.normalizeV3Result toolName result budget).2.structuredContent =
        some (s.spilledEnvelope toolName result (s.uuids s.issued).text data) := by
  unfold Server.normalizeV3Result
  rw [if_pos h]
  dsimp only
  split
  · exact ⟨_, Or.inr rfl, rfl⟩
  · exact ⟨_, Or.inl rfl, rfl⟩

theorem normalize_inline (h : Utf8.size (s.envelope toolName result).text ≤ budget) :
    (s.normalizeV3Result toolName result budget).2.structuredContent = some (s.envelope toolName result) := by
  unfold Server.normalizeV3Result
  rw [if_neg (Nat.not_lt.mpr h)]

/-- The artifact of a spilled result is its whole envelope. -/
theorem normalize_stored (h : budget < Utf8.size (s.envelope toolName result).text) :
    (s.normalizeV3Result toolName result budget).1 =
      { s.retainArtifacts with
        issued := s.issued + 1
        artifacts := Function.update s.retainArtifacts.artifacts (s.uuids s.issued).text
          (some { body := (s.envelope toolName result).toText, created := s.now }) } := by
  unfold Server.normalizeV3Result
  rw [if_pos h]

theorem artifactCursor_spilled (h : budget < Utf8.size (s.envelope toolName result).text) :
    (s.normalizeV3Result toolName result budget).2.artifactCursor =
      some ((s.uuids s.issued).text ++ ":0") := by
  obtain ⟨data, -, hcontent⟩ := normalize_spilled h
  unfold CallToolResult.artifactCursor
  rw [hcontent]
  rfl

end Spill

/-! ## Reading back -/

section ReadBack
variable {s : Server} {id : Uuid} {artifact : StoredArtifact} {investigationId : String} {maxBytes : Nat}

/-- The first read of an artifact: its first page in an envelope. -/
theorem evidenceRead_start (hinvestigation : s.investigations investigationId = true)
    (hnamed : investigationId ≠ "") (hlow : 256 ≤ maxBytes) (hhigh : maxBytes ≤ 8192)
    (hstored : s.artifacts id.text = some artifact) (hfresh : s.now - artifact.created ≤ artifactTtl) :
    s.evidenceRead investigationId (id.text ++ ":0") (some maxBytes) =
      s.retainArtifacts.normalizeV3Result "evidence_read" (structured (firstPage id.text artifact.body.toList
        (Utf8.floor artifact.body.toList 0 (min maxBytes (Utf8.size artifact.body.toList)))))
        (max 512 maxBytes) := by
  have hpage : max 256 (min maxBytes 8192) = maxBytes := by omega
  have hbudget : outputBudget (some maxBytes) = max 512 maxBytes := by
    simp only [outputBudget, Option.getD_some, maxInlineBytes]
    omega
  have hcursor : id.text ++ ":0" ≠ "" := by
    intro h
    have hlength := congrArg String.length h
    simp at hlength
  unfold Server.evidenceRead
  simp only [if_neg hnamed, if_neg hcursor, hinvestigation, if_true, parseArtifactCursor_start, Option.getD_some,
    hpage, hbudget, readArtifact_start hstored hfresh]

/-- A first page that is spilled itself ends the reading: its response has no chunk. -/
theorem not_reads_of_spilled {page : CallToolResult} {s' : Server} {budget : Nat} {cursor : String}
    {chunks : List String} (hread : s.evidenceRead investigationId cursor (some maxBytes) =
      s'.normalizeV3Result "evidence_read" page budget)
    (hspill : budget < Utf8.size (s'.envelope "evidence_read" page).text)
    (hreads : Reads investigationId maxBytes s cursor chunks) : False := by
  obtain ⟨data, hdata, hcontent⟩ := normalize_spilled hspill
  have hnone : data.get "chunk" = none := by
    rcases hdata with hdata | hdata
    · rw [hdata]
      rfl
    · rw [hdata]
      rfl
  have hno : ∀ {t : Server} {r : CallToolResult} {envelope d : Json} {chunk : String},
      s.evidenceRead investigationId cursor (some maxBytes) = (t, r) → r.structuredContent = some envelope →
      envelope.get "data" = some d → d.get "chunk" = some (.str chunk) → False := by
    intro t r envelope d chunk hcall henvelope hd hchunk
    have hr : r = (s'.normalizeV3Result "evidence_read" page budget).2 := by rw [← hread, hcall]
    rw [hr, hcontent] at henvelope
    obtain rfl := Option.some.inj henvelope
    obtain rfl : data = d := Option.some.inj hd
    rw [hnone] at hchunk
    cases hchunk
  cases hreads with
  | last hcall henvelope hd hchunk _ => exact hno hcall henvelope hd hchunk
  | more hcall henvelope hd hchunk _ _ => exact hno hcall henvelope hd hchunk

/-- An artifact that fits one response is read back by one call. -/
theorem reads_whole (hinvestigation : s.investigations investigationId = true)
    (hnamed : investigationId ≠ "") (hlow : 256 ≤ maxBytes) (hhigh : maxBytes ≤ 8192)
    (hstored : s.artifacts id.text = some artifact) (hfresh : s.now - artifact.created ≤ artifactTtl)
    (hfits : wholePageSize artifact.body ≤ maxBytes) :
    Reads investigationId maxBytes s (id.text ++ ":0") [artifact.body] := by
  have hsize : Utf8.size artifact.body.toList ≤ maxBytes := by
    have hescape := Json.size_le_escape artifact.body.toList
    unfold wholePageSize Json.escapedSize at hfits
    omega
  have hread := evidenceRead_start hinvestigation hnamed hlow hhigh hstored hfresh
  rw [Nat.min_eq_right hsize, Utf8.floor_size] at hread
  have hinline : (s.retainArtifacts.normalizeV3Result "evidence_read" (structured
      (firstPage id.text artifact.body.toList (Utf8.size artifact.body.toList))) (max 512 maxBytes)).2.structuredContent =
        some (s.retainArtifacts.envelope "evidence_read" (structured
          (firstPage id.text artifact.body.toList (Utf8.size artifact.body.toList)))) := by
    apply normalize_inline
    rw [size_wholePage]
    omega
  generalize hresponse : s.retainArtifacts.normalizeV3Result "evidence_read" (structured
    (firstPage id.text artifact.body.toList (Utf8.size artifact.body.toList))) (max 512 maxBytes) = response
    at hread hinline
  have hdata : (s.retainArtifacts.envelope "evidence_read" (structured
      (firstPage id.text artifact.body.toList (Utf8.size artifact.body.toList)))).get "data" =
        some (firstPage id.text artifact.body.toList (Utf8.size artifact.body.toList)) := rfl
  refine .last hread hinline hdata ?_ ?_
  · rw [firstPage_chunk, Utf8.before_size, String.ofList_toList]
  · rw [firstPage_next, if_neg (Nat.lt_irrefl _)]

/-- An artifact larger than the smallest budget that does not fit one response
cannot be read: already its first page is spilled. -/
theorem not_reads_of_large (hinvestigation : s.investigations investigationId = true)
    (hnamed : investigationId ≠ "") (hlow : 256 ≤ maxBytes) (hhigh : maxBytes ≤ 8192)
    (hstored : s.artifacts id.text = some artifact) (hfresh : s.now - artifact.created ≤ artifactTtl)
    (hlarge : 512 < Utf8.size artifact.body.toList) (hfits : maxBytes < wholePageSize artifact.body)
    (chunks : List String) : ¬ Reads investigationId maxBytes s (id.text ++ ":0") chunks := by
  have hread := evidenceRead_start hinvestigation hnamed hlow hhigh hstored hfresh
  refine fun hreads => not_reads_of_spilled hread ?_ hreads
  by_cases hsize : Utf8.size artifact.body.toList ≤ maxBytes
  · rw [Nat.min_eq_right hsize, Utf8.floor_size, size_wholePage]
    omega
  · -- The page is at most three bytes short of `maxBytes`, and its envelope adds more than that.
    rw [Nat.min_eq_left (by omega)]
    have hstop := Utf8.floor_le artifact.body.toList 0 maxBytes
    have hpage : maxBytes ≤ Utf8.floor artifact.body.toList 0 maxBytes + 3 := Utf8.le_floor 0 (by omega)
    have henvelope := lt_size_firstPage s.retainArtifacts id (by omega)
      (Utf8.isBoundary_floor artifact.body.toList maxBytes)
    omega

theorem readable_iff_of_stored {response : CallToolResult}
    (hinvestigation : s.investigations investigationId = true)
    (hnamed : investigationId ≠ "") (hlow : 256 ≤ maxBytes) (hhigh : maxBytes ≤ 8192)
    (hstored : s.artifacts id.text = some artifact) (hfresh : s.now - artifact.created ≤ artifactTtl)
    (hlarge : 512 < Utf8.size artifact.body.toList)
    (hcursor : response.artifactCursor = some (id.text ++ ":0")) :
    Readable s investigationId maxBytes response artifact.body ↔ wholePageSize artifact.body ≤ maxBytes := by
  constructor
  · rintro ⟨cursor, chunks, hfrom, hreads, -⟩
    obtain rfl : id.text ++ ":0" = cursor := Option.some.inj (hcursor.symm.trans hfrom)
    by_contra hfits
    exact not_reads_of_large hinvestigation hnamed hlow hhigh hstored hfresh hlarge (by omega) chunks hreads
  · intro hfits
    exact ⟨_, _, hcursor, reads_whole hinvestigation hnamed hlow hhigh hstored hfresh hfits, by simp⟩

end ReadBack

/-- An artifact can be read back exactly when one response can carry all of it. -/
theorem artifact_readable_iff (s : Server) (toolName : String) (result : CallToolResult)
    (requested : Option Nat) (investigationId : String) (maxBytes later : Nat)
    (hspill : outputBudget requested < Utf8.size (s.envelope toolName result).text)
    (hnamed : investigationId ≠ "") (hinvestigation : s.investigations investigationId = true)
    (hlow : 256 ≤ maxBytes) (hhigh : maxBytes ≤ 8192) (hlater : later ≤ artifactTtl) :
    Readable { (s.normalizeV3Result toolName result (outputBudget requested)).1 with now := s.now + later }
        investigationId maxBytes (s.normalizeV3Result toolName result (outputBudget requested)).2
        (s.envelope toolName result).toText ↔
      wholePageSize (s.envelope toolName result).toText ≤ maxBytes := by
  have hcursor := artifactCursor_spilled hspill
  have hserver := normalize_stored hspill
  have hlarge : 512 < Utf8.size (s.envelope toolName result).toText.toList := by
    rw [Json.toText, String.toList_ofList]
    unfold outputBudget at hspill
    omega
  generalize s.normalizeV3Result toolName result (outputBudget requested) = spilled at hcursor hserver ⊢
  generalize (s.envelope toolName result).toText = body at hserver hlarge ⊢
  let artifact : StoredArtifact := ⟨body, s.now⟩
  have hbody : 512 < Utf8.size artifact.body.toList := hlarge
  refine readable_iff_of_stored ?_ hnamed hlow hhigh ?_ ?_ hbody hcursor
  · rw [hserver]
    exact hinvestigation
  · rw [hserver]
    exact Function.update_self _ _ _
  · show s.now + later - s.now ≤ artifactTtl
    omega

/-- A server with one investigation and nothing stored. -/
def emptyServer : Server :=
  { now := 0
    revision := fun _ => none
    investigations := fun id => id == "case"
    artifacts := fun _ => none
    uuids := fun _ => ⟨"7f0c1d9a-52b4-4e63-9c8e-0d1b2a3c4d5e", by decide, by decide⟩
    issued := 0 }

/-- A result of a few hundred bytes. -/
def rowsResult : CallToolResult :=
  structured (.object [("rows", .arr (List.replicate 150 .null))])

theorem size_rowsResult : Utf8.size (emptyServer.envelope "investigation_step" rowsResult).text = 881 := by
  rw [Json.size_text]
  decide +kernel

theorem rowsResult_spills :
    outputBudget (some 512) < Utf8.size (emptyServer.envelope "investigation_step" rowsResult).text := by
  rw [size_rowsResult]
  decide

/-- With the largest page the result is read back by one call. -/
theorem rowsResult_readable :
    Readable { (emptyServer.normalizeV3Result "investigation_step" rowsResult (outputBudget (some 512))).1 with
        now := emptyServer.now + 5 } "case" 8192
      (emptyServer.normalizeV3Result "investigation_step" rowsResult (outputBudget (some 512))).2
      (emptyServer.envelope "investigation_step" rowsResult).toText := by
  refine (artifact_readable_iff emptyServer "investigation_step" rowsResult (some 512) "case" 8192 5
    rowsResult_spills (by decide) (by decide) (by decide) (by decide) (by decide)).mpr ?_
  have hescaped := Json.size_escape_le (emptyServer.envelope "investigation_step" rowsResult).text
  have hdigits : Utf8.size (toString 881).toList = 3 := by decide +kernel
  rw [size_rowsResult] at hescaped
  rw [wholePageSize_toText, size_rowsResult, hdigits]
  omega

/-- With the smallest page it cannot be read at all. -/
theorem rowsResult_unreadable :
    ¬ Readable { (emptyServer.normalizeV3Result "investigation_step" rowsResult (outputBudget (some 512))).1 with
        now := emptyServer.now + 5 } "case" 256
      (emptyServer.normalizeV3Result "investigation_step" rowsResult (outputBudget (some 512))).2
      (emptyServer.envelope "investigation_step" rowsResult).toText := by
  rintro ⟨cursor, chunks, hfrom, hreads, -⟩
  have hcursor := Option.some.inj ((artifactCursor_spilled rowsResult_spills).symm.trans hfrom)
  have hserver := normalize_stored rowsResult_spills
  have hlarge : 512 < Utf8.size (emptyServer.envelope "investigation_step" rowsResult).toText.toList := by
    rw [Json.toText, String.toList_ofList]
    exact rowsResult_spills
  have hfits : 256 < wholePageSize (emptyServer.envelope "investigation_step" rowsResult).toText := by
    have hescaped := Json.size_le_escape (emptyServer.envelope "investigation_step" rowsResult).text
    rw [size_rowsResult] at hescaped
    rw [wholePageSize_toText]
    omega
  generalize emptyServer.normalizeV3Result "investigation_step" rowsResult (outputBudget (some 512)) = spilled
    at hserver hreads
  generalize (emptyServer.envelope "investigation_step" rowsResult).toText = body at hserver hlarge hfits
  rw [hserver, ← hcursor] at hreads
  let artifact : StoredArtifact := ⟨body, emptyServer.now⟩
  have hbody : 512 < Utf8.size artifact.body.toList := hlarge
  refine not_reads_of_large rfl (by decide) (by decide) (by decide) ?_ ?_ hbody hfits chunks hreads
  · exact Function.update_self (emptyServer.uuids emptyServer.issued).text (some artifact)
      emptyServer.retainArtifacts.artifacts
  · show 0 + 5 - 0 ≤ 15 * 60
    decide

end Windy.Artifact
