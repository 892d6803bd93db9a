import Windy.Llm.Query

/- The verification of claims (`llm/verify.rs`).

   An agent submits a claim about a function; the answer is a verdict with evidence. The
   verdicts on calls and strings are computed from the listing queries, so `Contradicted`
   speaks of what is listed. A name is matched when it contains the one that is asked for.

   Arithmetic is checked, as in a debug build: the negation of the least `i64` is an
   error. It can happen in one place, the offset of a stack slot.

   What is proved:
     1. `verifyClaims_ok`, `verifyOne_answers`: there is one result for each claim, in
        order, unless some offset negates the least `i64`.
     2. `callsEdge_verdict`, `hasString_verdict`, `callsApi_verdict`: which calls and
        strings of the function the verdicts are about.
     3. `verdicts_sound`: what every verdict says of the function.

   Correspondence:
     `verify_claims`, `verify_one` ↔ the same
     `verify_calls_api` and the other kinds ↔ `verifyCallsApi` and so on
     `normalize_api`, `parse_va_loose`, `parse_i64_offset` ↔ the same -/
namespace Windy.Llm

/-! ## Claims and results -/

inductive ClaimVerdict where
  | supported
  | contradicted
  | unknown
  deriving DecidableEq, Repr

structure Claim where
  kind : String
  functionVa : String
  api : Option String
  string : Option String
  stackOffset : Option String
  name : Option String
  dataType : Option DataType
  typeStr : Option String
  count : Option Nat
  targetVa : Option String
  dll : Option String

/-- A claim of a kind about a function, with no other field. -/
def Claim.of (kind functionVa : String) : Claim :=
  { kind, functionVa, api := none, string := none, stackOffset := none, name := none, dataType := none
    typeStr := none, count := none, targetVa := none, dll := none }

structure ClaimResult where
  kind : String
  functionVa : String
  verdict : ClaimVerdict
  evidence : List String
  detail : Option String
  checkerVer : String

/-- `CLAIM_CHECKER_VERSION`. -/
def claimCheckerVersion : String := "claim_checker_v1"

def result (claim : Claim) (verdict : ClaimVerdict) (evidence : List String) (detail : Option String) : ClaimResult :=
  { kind := claim.kind, functionVa := claim.functionVa, verdict, evidence, detail, checkerVer := claimCheckerVersion }

def missing (claim : Claim) (field : String) : ClaimResult :=
  result claim .unknown [] (some ("missing field: " ++ field))

/-- A verdict of two: support, or the other one with its reason. -/
def decided (claim : Claim) (hit : Bool) (otherwise : ClaimVerdict) (evidence : List String) (detail : String) :
    ClaimResult :=
  result claim (if hit then .supported else otherwise) evidence (if hit then none else some detail)

/-! ## Texts and numbers -/

/-- `to_ascii_lowercase`. -/
def lowercase (s : String) : String := String.ofList (Bel.normalizeAscii s.toList)

/-- `normalize_api`. -/
def normalizeApi (s : String) : String := lowercase (String.ofList (Bel.trim ((stripPrefix "__imp_" s).getD s).toList))

/-- `parse_va_loose`. -/
def parseVaLoose (s : String) : Option Nat := Bel.parseNumber (Bel.trim s.toList)

/-- `i64::from_str_radix`. -/
def fromStrRadixI64 (radix : Nat) : Bel.Text → Option Int
  | '-' :: digits =>
    if digits.head? = some '+' then none
    else ((Bel.fromStrRadix radix 64 digits).filter (· ≤ 2 ^ 63)).map fun n => -(n : Int)
  | text => (Bel.fromStrRadix radix 63 text).map Int.ofNat

/-- An operation left the range of its type. -/
inductive Overflow where
  | negate
  deriving DecidableEq, Repr

/-- `-v`. -/
def negate (v : Int) : Except Overflow Int := if v = -2 ^ 63 then .error .negate else .ok (-v)

/-- `parse_i64_offset`. -/
def parseI64Offset (s : String) : Except Overflow (Option Int) :=
  match Bel.trim s.toList with
  | '-' :: '0' :: 'x' :: hex | '-' :: '0' :: 'X' :: hex =>
    match fromStrRadixI64 16 hex with
    | none => .ok none
    | some v => (negate v).map some
  | '0' :: 'x' :: hex | '0' :: 'X' :: hex => .ok (fromStrRadixI64 16 hex)
  | text => .ok (fromStrRadixI64 10 text)

mutual

/-- `TypeRepository::render`. -/
def renderType : DataType → String
  | .void => "void"
  | .bool => "bool"
  | .int bits => "int" ++ toString bits
  | .uint bits => "uint" ++ toString bits
  | .float => "float"
  | .double => "double"
  | .ptr pointee => renderType pointee ++ "*"
  | .array elem count => renderType elem ++ "[" ++ toString count ++ "]"
  | .funcPtr params returnType => renderType returnType ++ "(*)(" ++ String.intercalate "," (renderTypes params) ++ ")"
  | .named name => name
  | .unknown bytes => "unknown" ++ toString bytes

def renderTypes : List DataType → List String
  | [] => []
  | ty :: rest => renderType ty :: renderTypes rest

end

def isUnknownType : DataType → Bool
  | .unknown _ => true
  | _ => false

/-! ## The kinds of claims -/

section Kinds
variable (p : Program) (va : Nat) (claim : Claim)

/-- A name matches when it contains the one that is asked for. -/
def apiMatches (api name : String) : Bool :=
  normalizeApi name = normalizeApi api || contains (normalizeApi name) (normalizeApi api)

def verifyCallsApi : ClaimResult :=
  match claim.api with
  | none => missing claim "api"
  | some api =>
    let apis := apisCalled p va
    let callees := functionCallees p va
    let hitApis := apis.filter (apiMatches api)
    let hitCallees := callees.filter fun callee => apiMatches api callee.2 || contains callee.2 api
    let evidence := (hitApis.map fun a => "api:" ++ a) ++
      hitCallees.map fun callee => "callee " ++ hexAlt callee.1 ++ ":" ++ callee.2
    decided claim (!hitApis.isEmpty || !hitCallees.isEmpty) .contradicted evidence
      ("no call to " ++ api ++ " among " ++ toString apis.length ++ " apis / " ++ toString callees.length ++ " callees")

def verifyHasString : ClaimResult :=
  match claim.string with
  | none => missing claim "string"
  | some s =>
    let strings := stringsInFunction p va 1
    let hits := strings.filter fun sref => contains sref.value s
    decided claim (!hits.isEmpty) .contradicted
      (hits.map fun sref => hexAlt sref.va ++ " (" ++ sref.encoding ++ "):" ++ sref.value)
      ("substring not found in " ++ toString strings.length ++ " string(s)")

/-- The frame that was edited, or else the recovered one. -/
def frameOf : Option StackFrame :=
  (p.project.functionFrames.lookup va).or ((functionAt p va).bind Function.stackFrame)

/-- The variable at the offset the claim names, or the answer without one. -/
def slotOf : Except Overflow (Except ClaimResult (Int × StackVariable)) :=
  match claim.stackOffset with
  | none => .ok (.error (missing claim "stack_offset"))
  | some text => (parseI64Offset text).map fun parsed =>
    match parsed with
    | none => .error (result claim .unknown [] (some "bad stack_offset"))
    | some offset =>
      match frameOf p va with
      | none => .error (result claim .unknown [] (some "no stack frame"))
      | some frame =>
        match (frame.locals ++ frame.args).find? fun v => v.offset = offset with
        | none => .error (result claim .unknown [] (some ("no local at offset " ++ toString offset)))
        | some v => .ok (offset, v)

def verifyLocalName : Except Overflow ClaimResult :=
  match claim.stackOffset, claim.name with
  | some _, none => .ok (missing claim "name")
  | _, expected => (slotOf p va claim).map fun slot =>
    match slot with
    | .error answer => answer
    | .ok (offset, v) =>
      let actual := v.name.getD ""
      let expected := expected.getD ""
      decided claim (actual = expected) (if actual = "" then .unknown else .contradicted)
        ["local[" ++ toString offset ++ "] name=" ++ p.debugText actual ++ " ty=" ++ renderType v.ty]
        ("expected name " ++ p.debugText expected ++ ", got " ++ p.debugText actual)

/-- Types are compared by how they are shown: equal types are shown alike. -/
def verifyLocalType : Except Overflow ClaimResult :=
  (slotOf p va claim).map fun slot =>
    match slot with
    | .error answer => answer
    | .ok (offset, v) =>
      let rendered := renderType v.ty
      let otherwise := if isUnknownType v.ty then ClaimVerdict.unknown else .contradicted
      let evidence := ["local[" ++ toString offset ++ "] ty=" ++ rendered]
      match claim.dataType, claim.typeStr with
      | some expected, _ =>
        decided claim (renderType expected = rendered) otherwise evidence
          ("expected " ++ renderType expected ++ ", got " ++ rendered)
      | none, some needle =>
        decided claim (contains (lowercase rendered) (lowercase needle)) otherwise evidence
          ("type " ++ p.debugText rendered ++ " does not contain " ++ p.debugText needle)
      | none, none => missing claim "data_type or type_str"

/-- The signature that was edited, or else the recovered one. -/
def signatureOf : Option FunctionSignature :=
  (p.project.functionSignatures.lookup va).or ((functionAt p va).bind p.recoverSignature)

def verifyParamCount : ClaimResult :=
  match claim.count with
  | none => missing claim "count"
  | some expected =>
    match signatureOf p va with
    | none => result claim .unknown [] (some "no signature")
    | some sig =>
      decided claim (sig.params.length = expected) .contradicted
        ["signature.params.len=" ++ toString sig.params.length]
        ("expected " ++ toString expected ++ " params, got " ++ toString sig.params.length)

def verifySignatureArity : ClaimResult :=
  let callers := callersWithArgs p va
  let recovered := (signatureOf p va).map fun s => s.params.length
  let evidence := (recovered.map fun n => "recovered_params=" ++ toString n).toList ++
    ("callers_observed=" ++ toString callers.length) ::
      (callers.take 8).map fun c =>
        "caller " ++ c.caller ++ " from " ++ hexAlt c.fromVa ++ " args=" ++ toString c.args
  match claim.count, recovered with
  | some expected, some n =>
    decided claim (n = expected) .contradicted evidence
      ("recovered " ++ toString n ++ " != expected " ++ toString expected)
  | _, none => result claim .unknown evidence (some "no recovered signature")
  | none, some n =>
    if callers.isEmpty then result claim .unknown evidence (some "no callers to compare")
    else result claim (if callers.all fun c => c.args = n || c.args = 0 then .supported else .unknown) evidence none

def verifyCallsEdge : ClaimResult :=
  match claim.targetVa with
  | none => missing claim "target_va"
  | some text =>
    match parseVaLoose text with
    | none => result claim .unknown [] (some "bad target_va")
    | some target =>
      let callees := functionCallees p va
      decided claim (callees.any fun callee => callee.1 = target) .contradicted
        ((callees.take 16).map fun callee => hexAlt callee.1 ++ ":" ++ callee.2)
        ("no direct call edge to " ++ hexAlt target)

/-- Takes the beginning off as often as it is there. -/
def stripAll (lead : Bel.Text) : Nat → Bel.Text → Bel.Text
  | 0, text => text
  | n + 1, text => if lead.isPrefixOf text then stripAll lead n (text.drop lead.length) else text

/-- `trim_end_matches`. -/
def trimEndMatches (suffix : String) (text : Bel.Text) : Bel.Text :=
  (stripAll suffix.toList.reverse text.length text.reverse).reverse

def verifyImportsDll : ClaimResult :=
  match claim.dll with
  | none => missing claim "dll"
  | some dll =>
    let needle := lowercase (String.ofList (trimEndMatches ".DLL" (trimEndMatches ".dll" dll.toList)))
    let apis := apisCalled p va
    let names := (p.sigDb.signaturesForDll needle).map lowercase
    let hits := apis.filter fun api => names.contains (lowercase api)
    if hits.isEmpty && apis.isEmpty then result claim .unknown [] (some "no imported APIs in function")
    else
      decided claim (!hits.isEmpty) .contradicted
        (if hits.isEmpty then apis.map fun a => "api:" ++ a
          else hits.map fun api => "api " ++ api ++ " in dll " ++ needle)
        ("no API from dll " ++ needle ++ " among callees")

def verifyXrefCountMin : ClaimResult :=
  match claim.count with
  | none => missing claim "count"
  | some least =>
    let n := (p.xrefsTo va).length
    decided claim (least ≤ n) .contradicted ["xrefs_to=" ++ toString n]
      ("expected >= " ++ toString least ++ " xrefs, got " ++ toString n)

def verifyMemoryPurpose : ClaimResult :=
  match p.project.functionMemory.lookup va with
  | none => result claim .contradicted [] (some "no function_memory card")
  | some card =>
    match card.purpose with
    | some purpose =>
      if purpose = "" then
        result claim .contradicted ["memory card present but purpose empty"] (some "purpose not set")
      else result claim .supported ["purpose=Some(" ++ p.debugText purpose ++ ")"] none
    | none => result claim .contradicted ["memory card present but purpose empty"] (some "purpose not set")

/-- The callees a claim asks for that have a known signature, with their number of parameters. -/
def arities : List (Nat × String × Nat) :=
  (functionCallees p va).filterMap fun callee =>
    if claim.api.all fun api => apiMatches api callee.2 || contains callee.2 api then
      ((p.project.functionSignatures.lookup callee.1).or
        (p.sigDb.lookupByName ((stripPrefix "__imp_" callee.2).getD callee.2))).map
          fun sig => (callee.1, callee.2, sig.params.length)
    else none

def verifyCalleeArity : ClaimResult :=
  match claim.count with
  | none => missing claim "count"
  | some expected =>
    let known := arities p va claim
    if known.isEmpty then result claim .unknown [] (some "no callee signatures resolved")
    else
      decided claim (known.any fun c => c.2.2 = expected) .contradicted
        (known.map fun c => c.2.1 ++ "@" ++ hexAlt c.1 ++ " params=" ++ toString c.2.2)
        ("no callee with arity " ++ toString expected)

/-- What `verify_one` does for a function that is there. -/
def verifyKind : Except Overflow ClaimResult :=
  match claim.kind with
  | "calls_api" => .ok (verifyCallsApi p va claim)
  | "has_string" => .ok (verifyHasString p va claim)
  | "local_name" => verifyLocalName p va claim
  | "local_type" => verifyLocalType p va claim
  | "param_count" => .ok (verifyParamCount p va claim)
  | "signature_arity" => .ok (verifySignatureArity p va claim)
  | "calls_edge" => .ok (verifyCallsEdge p va claim)
  | "imports_dll" => .ok (verifyImportsDll p va claim)
  | "xref_count_min" => .ok (verifyXrefCountMin p va claim)
  | "memory_purpose_set" => .ok (verifyMemoryPurpose p va claim)
  | "callee_arity" => .ok (verifyCalleeArity p va claim)
  | other => .ok (result claim .unknown [] (some ("unknown claim kind: " ++ other)))

end Kinds

/-- `verify_one`. -/
def verifyOne (p : Program) (claim : Claim) : Except Overflow ClaimResult :=
  match parseVaLoose claim.functionVa with
  | none => .ok (result claim .unknown [] (some "bad function_va"))
  | some va =>
    if (functionAt p va).isNone then .ok (result claim .unknown [] (some "function not found"))
    else verifyKind p va claim

/-- `verify_claims`. -/
def verifyClaims (p : Program) (claims : List Claim) : Except Overflow (List ClaimResult) := claims.mapM (verifyOne p)

/-! ## One result for each claim -/

/-- The offset is the least `i64`, written behind `-0x`. -/
def NegatesLeast (text : String) : Prop :=
  ∃ hex, (Bel.trim text.toList = '-' :: '0' :: 'x' :: hex ∨ Bel.trim text.toList = '-' :: '0' :: 'X' :: hex) ∧
    fromStrRadixI64 16 hex = some (-2 ^ 63)

theorem parseI64Offset_ok {text : String} (h : ¬ NegatesLeast text) : ∃ offset, parseI64Offset text = .ok offset := by
  have hnegate : ∀ hex, (Bel.trim text.toList = '-' :: '0' :: 'x' :: hex ∨
      Bel.trim text.toList = '-' :: '0' :: 'X' :: hex) → ∀ v, fromStrRadixI64 16 hex = some v →
      negate v = .ok (-v) := by
    intro hex htext v hv
    refine if_neg fun hleast => h ⟨hex, htext, ?_⟩
    rw [hv, hleast]
  unfold parseI64Offset
  split
  · next hex htrim =>
    cases hv : fromStrRadixI64 16 hex with
    | none => exact ⟨none, rfl⟩
    | some v => exact ⟨some (-v), by simp only [hnegate hex (.inl htrim) v hv, Except.map]⟩
  · next hex htrim =>
    cases hv : fromStrRadixI64 16 hex with
    | none => exact ⟨none, rfl⟩
    | some v => exact ⟨some (-v), by simp only [hnegate hex (.inr htrim) v hv, Except.map]⟩
  · exact ⟨_, rfl⟩
  · exact ⟨_, rfl⟩
  · exact ⟨_, rfl⟩

theorem slotOf_ok (p : Program) (va : Nat) {claim : Claim}
    (h : ∀ text, claim.stackOffset = some text → ¬ NegatesLeast text) : ∃ slot, slotOf p va claim = .ok slot := by
  unfold slotOf
  split
  · exact ⟨_, rfl⟩
  · next text htext =>
    obtain ⟨offset, hoffset⟩ := parseI64Offset_ok (h text htext)
    exact ⟨_, by rw [hoffset]; rfl⟩

/-- A claim is answered, and the answer names it. -/
theorem verifyOne_ok (p : Program) {claim : Claim}
    (h : ∀ text, claim.stackOffset = some text → ¬ NegatesLeast text) : ∃ r, verifyOne p claim = .ok r := by
  have hslot : ∀ va, ∃ slot, slotOf p va claim = .ok slot := fun va => slotOf_ok p va h
  unfold verifyOne
  split
  · exact ⟨_, rfl⟩
  · next va _ =>
    obtain ⟨slot, hva⟩ := hslot va
    split
    · exact ⟨_, rfl⟩
    · unfold verifyKind
      split
      case h_3 =>
        unfold verifyLocalName
        split
        · exact ⟨_, rfl⟩
        · rw [hva]
          exact ⟨_, rfl⟩
      case h_4 =>
        unfold verifyLocalType
        rw [hva]
        exact ⟨_, rfl⟩
      all_goals exact ⟨_, rfl⟩

/-- The result repeats the kind and the function of the claim. -/
def Answers (claim : Claim) (r : ClaimResult) : Prop := r.kind = claim.kind ∧ r.functionVa = claim.functionVa

theorem answers_result (claim : Claim) (verdict : ClaimVerdict) (evidence : List String) (detail : Option String) :
    Answers claim (result claim verdict evidence detail) := ⟨rfl, rfl⟩

/-- Whatever the lookup of a slot ends with, the answer made of it names the claim. -/
theorem answers_slot {p : Program} {va : Nat} {claim : Claim} {g : Except ClaimResult (Int × StackVariable) → ClaimResult}
    (hsome : ∀ slot, Answers claim (g (.ok slot))) (hnone : ∀ answer, Answers claim answer → Answers claim (g (.error answer)))
    {r : ClaimResult} (h : (slotOf p va claim).map g = .ok r) : Answers claim r := by
  have hslot : ∀ slot, slotOf p va claim = .ok slot → Answers claim (g slot) := by
    intro slot hslot
    unfold slotOf at hslot
    split at hslot
    · obtain rfl := Except.ok.inj hslot
      exact hnone _ (answers_result ..)
    · cases hparsed : parseI64Offset _ with
      | error e => rw [hparsed] at hslot; cases hslot
      | ok parsed =>
        rw [hparsed] at hslot
        obtain rfl := Except.ok.inj hslot
        cases parsed with
        | none => exact hnone _ (answers_result ..)
        | some offset =>
          simp only
          split
          · exact hnone _ (answers_result ..)
          · split
            · exact hnone _ (answers_result ..)
            · exact hsome _
  cases hcase : slotOf p va claim with
  | error e => rw [hcase] at h; cases h
  | ok slot =>
    rw [hcase] at h
    obtain rfl := Except.ok.inj h
    exact hslot slot hcase

section Answered
variable (p : Program) (va : Nat) (claim : Claim)

theorem verifyCallsApi_answers : Answers claim (verifyCallsApi p va claim) := by
  unfold verifyCallsApi
  split <;> exact answers_result ..

theorem verifyHasString_answers : Answers claim (verifyHasString p va claim) := by
  unfold verifyHasString
  split <;> exact answers_result ..

theorem verifyParamCount_answers : Answers claim (verifyParamCount p va claim) := by
  unfold verifyParamCount
  split
  · exact answers_result ..
  · split <;> exact answers_result ..

theorem verifySignatureArity_answers : Answers claim (verifySignatureArity p va claim) := by
  simp only [verifySignatureArity]
  split
  · exact answers_result ..
  · exact answers_result ..
  · split <;> exact answers_result ..

theorem verifyCallsEdge_answers : Answers claim (verifyCallsEdge p va claim) := by
  unfold verifyCallsEdge
  split
  · exact answers_result ..
  · split <;> exact answers_result ..

theorem verifyImportsDll_answers : Answers claim (verifyImportsDll p va claim) := by
  unfold verifyImportsDll
  split
  · exact answers_result ..
  · simp only
    split <;> exact answers_result ..

theorem verifyXrefCountMin_answers : Answers claim (verifyXrefCountMin p va claim) := by
  unfold verifyXrefCountMin
  split <;> exact answers_result ..

theorem verifyMemoryPurpose_answers : Answers claim (verifyMemoryPurpose p va claim) := by
  unfold verifyMemoryPurpose
  split
  · exact answers_result ..
  · split
    · split <;> exact answers_result ..
    · exact answers_result ..

theorem verifyCalleeArity_answers : Answers claim (verifyCalleeArity p va claim) := by
  unfold verifyCalleeArity
  split
  · exact answers_result ..
  · simp only
    split <;> exact answers_result ..

end Answered

theorem verifyOne_answers {p : Program} {claim : Claim} {r : ClaimResult} (h : verifyOne p claim = .ok r) :
    Answers claim r := by
  unfold verifyOne at h
  split at h
  · obtain rfl := Except.ok.inj h
    exact answers_result ..
  · next va _ =>
    split at h
    · obtain rfl := Except.ok.inj h
      exact answers_result ..
    · unfold verifyKind at h
      split at h
      case h_3 =>
        unfold verifyLocalName at h
        split at h
        · obtain rfl := Except.ok.inj h
          exact answers_result ..
        · exact answers_slot (fun slot => answers_result ..) (fun answer ha => ha) h
      case h_4 =>
        unfold verifyLocalType at h
        refine answers_slot (fun slot => ?_) (fun answer ha => ha) h
        simp only
        split
        · exact answers_result ..
        · exact answers_result ..
        · exact answers_result ..
      all_goals obtain rfl := Except.ok.inj h
      case h_1 => exact verifyCallsApi_answers ..
      case h_2 => exact verifyHasString_answers ..
      case h_5 => exact verifyParamCount_answers ..
      case h_6 => exact verifySignatureArity_answers ..
      case h_7 => exact verifyCallsEdge_answers ..
      case h_8 => exact verifyImportsDll_answers ..
      case h_9 => exact verifyXrefCountMin_answers ..
      case h_10 => exact verifyMemoryPurpose_answers ..
      case h_11 => exact verifyCalleeArity_answers ..
      case h_12 => exact answers_result ..

/-- A batch is answered claim by claim. -/
theorem verifyClaims_eq_ok_iff {p : Program} {claims : List Claim} {results : List ClaimResult} :
    verifyClaims p claims = .ok results ↔ List.Forall₂ (fun claim r => verifyOne p claim = .ok r) claims results := by
  unfold verifyClaims
  induction claims generalizing results with
  | nil =>
    rw [List.mapM_nil, List.forall₂_nil_left_iff]
    exact ⟨fun h => (Except.ok.inj h).symm, fun h => congrArg Except.ok h.symm⟩
  | cons claim claims ih =>
    rw [List.mapM_cons, List.forall₂_cons_left_iff]
    cases hone : verifyOne p claim with
    | error e => exact iff_of_false (by intro h; cases h) (by rintro ⟨r, rest, h, -⟩; cases h)
    | ok r =>
      constructor
      · intro h
        cases hrest : claims.mapM (verifyOne p) with
        | error e => rw [hrest] at h; cases h
        | ok rest =>
          rw [hrest] at h
          exact ⟨r, rest, rfl, ih.mp hrest, (Except.ok.inj h).symm⟩
      · rintro ⟨r', rest, hr, hrest, rfl⟩
        rw [ih.mpr hrest, Except.ok.inj hr]
        rfl

/-- Claims whose offsets do not negate the least `i64` are all answered. -/
theorem verifyClaims_ok (p : Program) {claims : List Claim}
    (h : ∀ claim ∈ claims, ∀ text, claim.stackOffset = some text → ¬ NegatesLeast text) :
    ∃ results, verifyClaims p claims = .ok results := by
  suffices hall : ∃ results, List.Forall₂ (fun claim r => verifyOne p claim = .ok r) claims results by
    obtain ⟨results, hresults⟩ := hall
    exact ⟨results, verifyClaims_eq_ok_iff.mpr hresults⟩
  induction claims with
  | nil => exact ⟨[], .nil⟩
  | cons claim claims ih =>
    obtain ⟨r, hr⟩ := verifyOne_ok p (h claim List.mem_cons_self)
    obtain ⟨rest, hrest⟩ := ih fun c hc => h c (List.mem_cons_of_mem _ hc)
    exact ⟨r :: rest, .cons hr hrest⟩

/-! ## What the verdicts say -/

/-- The claim is about this function of the project. -/
def About (p : Program) (claim : Claim) (va : Nat) (f : Function) : Prop :=
  parseVaLoose claim.functionVa = some va ∧ functionAt p va = some f

/-- The call target is among those that are listed. -/
def ListedCallee (f : Function) (t : Nat) : Prop :=
  t ≠ 0 ∧ t ∈ callTargets f ∧
    ((((callTargets f).filter (· ≠ 0)).takeWhile (· ≠ t)).destutter (· ≠ ·)).length < maxList

section Verdicts
variable {p : Program} {claim : Claim} {va : Nat} {f : Function}

theorem verifyOne_about (h : About p claim va f) : verifyOne p claim = verifyKind p va claim := by
  simp [verifyOne, h.1, h.2]

theorem decided_supported_iff {hit : Bool} {evidence : List String} {detail : String} :
    (decided claim hit .contradicted evidence detail).verdict = .supported ↔ hit = true := by
  cases hit <;> simp [decided, result]

theorem decided_contradicted_iff {hit : Bool} {evidence : List String} {detail : String} :
    (decided claim hit .contradicted evidence detail).verdict = .contradicted ↔ hit = false := by
  cases hit <;> simp [decided, result]

theorem hit_eq_true {α : Type} {q : α → Bool} {xs : List α} :
    (!(xs.filter q).isEmpty) = true ↔ ∃ a ∈ xs, q a = true := by
  simp [List.filter_eq_nil_iff]

theorem hit_eq_false {α : Type} {q : α → Bool} {xs : List α} :
    (!(xs.filter q).isEmpty) = false ↔ ∀ a ∈ xs, q a = false := by
  simp [List.filter_eq_nil_iff]

theorem mem_functionCallees (hf : functionAt p va = some f) {t : Nat} {name : String} :
    (t, name) ∈ functionCallees p va ↔ name = symbolOrHex p t ∧ ListedCallee f t :=
  mem_functionCallees_iff p hf t name

/-- `calls_edge` is decided by the listed callees. -/
theorem callsEdge_verdict (hf : functionAt p va = some f) {text : String} {target : Nat}
    (htext : claim.targetVa = some text) (htarget : parseVaLoose text = some target) :
    ((verifyCallsEdge p va claim).verdict = .supported ↔ ListedCallee f target) ∧
      ((verifyCallsEdge p va claim).verdict = .contradicted ↔ ¬ ListedCallee f target) := by
  have hhit : ((functionCallees p va).any fun callee => callee.1 = target) = true ↔ ListedCallee f target := by
    rw [List.any_eq_true]
    constructor
    · rintro ⟨⟨t, name⟩, hmem, ht⟩
      obtain rfl : t = target := by simpa using ht
      exact ((mem_functionCallees hf).mp hmem).2
    · intro hlisted
      exact ⟨(target, symbolOrHex p target), (mem_functionCallees hf).mpr ⟨rfl, hlisted⟩, by simp⟩
  simp only [verifyCallsEdge, htext, htarget]
  rw [decided_supported_iff, decided_contradicted_iff, hhit, ← Bool.not_eq_true, hhit]
  exact ⟨Iff.rfl, Iff.rfl⟩

/-- `has_string` is decided by the first 32 strings. -/
theorem hasString_verdict (hf : functionAt p va = some f) {s : String} (hs : claim.string = some s) :
    ((verifyHasString p va claim).verdict = .supported ↔
        ∃ sref ∈ (stringLiterals p f 1).take maxList, contains sref.value s = true) ∧
      ((verifyHasString p va claim).verdict = .contradicted ↔
        ∀ sref ∈ (stringLiterals p f 1).take maxList, contains sref.value s = false) := by
  simp only [verifyHasString, hs, stringsInFunction_eq p hf]
  rw [decided_supported_iff, decided_contradicted_iff]
  exact ⟨hit_eq_true, hit_eq_false⟩

/-- `calls_api` is decided by the listed callees and imported functions. -/
theorem callsApi_verdict {api : String} (hapi : claim.api = some api) :
    ((verifyCallsApi p va claim).verdict = .supported ↔
        (∃ a ∈ apisCalled p va, apiMatches api a = true) ∨
          ∃ callee ∈ functionCallees p va, (apiMatches api callee.2 || contains callee.2 api) = true) ∧
      ((verifyCallsApi p va claim).verdict = .contradicted ↔
        (∀ a ∈ apisCalled p va, apiMatches api a = false) ∧
          ∀ callee ∈ functionCallees p va, (apiMatches api callee.2 || contains callee.2 api) = false) := by
  simp only [verifyCallsApi, hapi]
  rw [decided_supported_iff, decided_contradicted_iff, Bool.or_eq_true, Bool.or_eq_false_iff]
  exact ⟨or_congr hit_eq_true hit_eq_true, and_congr hit_eq_false hit_eq_false⟩

end Verdicts

/-- What the verdict on a claim says of the function it is about. -/
structure Sound (p : Program) (va : Nat) (f : Function) (claim : Claim) (verdict : ClaimVerdict) : Prop where
  /-- Support needs a call edge. -/
  edge_supported : claim.kind = "calls_edge" → verdict = .supported → ∃ text target,
    claim.targetVa = some text ∧ parseVaLoose text = some target ∧ target ∈ callTargets f
  /-- A call edge to a listed target is supported. -/
  edge_listed : claim.kind = "calls_edge" → ∀ text target, claim.targetVa = some text →
    parseVaLoose text = some target → ListedCallee f target → verdict = .supported
  string_supported : claim.kind = "has_string" → verdict = .supported → ∃ s, claim.string = some s ∧
    ∃ sref ∈ stringLiterals p f 1, contains sref.value s = true
  /-- None of the first 32 strings contains the text. -/
  string_contradicted : claim.kind = "has_string" → verdict = .contradicted → ∃ s, claim.string = some s ∧
    ∀ sref ∈ (stringLiterals p f 1).take maxList, contains sref.value s = false
  /-- Some imported function or callee has a name that contains the one asked for. -/
  api_supported : claim.kind = "calls_api" → verdict = .supported → ∃ api, claim.api = some api ∧
    ((∃ a ∈ importedApis p va f, apiMatches api a = true) ∨
      ∃ t ∈ callTargets f, (apiMatches api (symbolOrHex p t) || contains (symbolOrHex p t) api) = true)
  /-- None of the first 32 imported functions and of the listed callees has that name. -/
  api_contradicted : claim.kind = "calls_api" → verdict = .contradicted → ∃ api, claim.api = some api ∧
    (∀ a ∈ (importedApis p va f).take maxList, normalizeApi a ≠ normalizeApi api) ∧
      ∀ t, ListedCallee f t → normalizeApi (symbolOrHex p t) ≠ normalizeApi api

theorem normalizeApi_ne {api name : String} (h : apiMatches api name = false) : normalizeApi name ≠ normalizeApi api := by
  intro heq
  simp [apiMatches, heq] at h

section
variable {p : Program} {claim : Claim} {va : Nat} {f : Function}

theorem missing_verdict (claim : Claim) (field : String) : (missing claim field).verdict = .unknown := rfl

/-- The verdict on a call edge. -/
theorem sound_callsEdge (hf : functionAt p va = some f) (hkind : claim.kind = "calls_edge") :
    Sound p va f claim (verifyCallsEdge p va claim).verdict := by
  have hother : ∀ {k : String}, k ≠ "calls_edge" → ¬ claim.kind = k := fun hne h => hne (h.symm.trans hkind)
  refine
    { edge_supported := ?_
      edge_listed := fun _ text target htext htarget hlisted => ((callsEdge_verdict hf htext htarget).1).mpr hlisted
      string_supported := fun h => absurd h (hother (by decide))
      string_contradicted := fun h => absurd h (hother (by decide))
      api_supported := fun h => absurd h (hother (by decide))
      api_contradicted := fun h => absurd h (hother (by decide)) }
  intro _ hverdict
  cases htext : claim.targetVa with
  | none => simp [verifyCallsEdge, htext, missing_verdict] at hverdict
  | some text =>
    cases htarget : parseVaLoose text with
    | none => simp [verifyCallsEdge, htext, htarget, result] at hverdict
    | some target =>
      exact ⟨text, target, rfl, htarget, ((callsEdge_verdict hf htext htarget).1.mp hverdict).2.1⟩

/-- The verdict on a string. -/
theorem sound_hasString (hf : functionAt p va = some f) (hkind : claim.kind = "has_string") :
    Sound p va f claim (verifyHasString p va claim).verdict := by
  have hother : ∀ {k : String}, k ≠ "has_string" → ¬ claim.kind = k := fun hne h => hne (h.symm.trans hkind)
  refine
    { edge_supported := fun h => absurd h (hother (by decide))
      edge_listed := fun h => absurd h (hother (by decide))
      string_supported := ?_
      string_contradicted := ?_
      api_supported := fun h => absurd h (hother (by decide))
      api_contradicted := fun h => absurd h (hother (by decide)) }
  · intro _ hverdict
    cases hs : claim.string with
    | none => simp [verifyHasString, hs, missing_verdict] at hverdict
    | some s =>
      obtain ⟨sref, hmem, hcontains⟩ := (hasString_verdict hf hs).1.mp hverdict
      exact ⟨s, rfl, sref, List.mem_of_mem_take hmem, hcontains⟩
  · intro _ hverdict
    cases hs : claim.string with
    | none => simp [verifyHasString, hs, missing_verdict] at hverdict
    | some s => exact ⟨s, rfl, (hasString_verdict hf hs).2.mp hverdict⟩

/-- The verdict on an imported function. -/
theorem sound_callsApi (hf : functionAt p va = some f) (hkind : claim.kind = "calls_api") :
    Sound p va f claim (verifyCallsApi p va claim).verdict := by
  have hother : ∀ {k : String}, k ≠ "calls_api" → ¬ claim.kind = k := fun hne h => hne (h.symm.trans hkind)
  obtain ⟨hfirst, honly⟩ := apisCalled_prefix p hf
  refine
    { edge_supported := fun h => absurd h (hother (by decide))
      edge_listed := fun h => absurd h (hother (by decide))
      string_supported := fun h => absurd h (hother (by decide))
      string_contradicted := fun h => absurd h (hother (by decide))
      api_supported := ?_
      api_contradicted := ?_ }
  · intro _ hverdict
    cases hapi : claim.api with
    | none => simp [verifyCallsApi, hapi, missing_verdict] at hverdict
    | some api =>
      refine ⟨api, rfl, ?_⟩
      rcases (callsApi_verdict hapi).1.mp hverdict with ⟨a, hmem, ha⟩ | ⟨⟨t, name⟩, hmem, hname⟩
      · exact .inl ⟨a, honly.subset hmem, ha⟩
      · obtain ⟨rfl, hlisted⟩ := (mem_functionCallees hf).mp hmem
        exact .inr ⟨t, hlisted.2.1, hname⟩
  · intro _ hverdict
    cases hapi : claim.api with
    | none => simp [verifyCallsApi, hapi, missing_verdict] at hverdict
    | some api =>
      obtain ⟨hapis, hcallees⟩ := (callsApi_verdict hapi).2.mp hverdict
      refine ⟨api, rfl, fun a hmem => normalizeApi_ne (hapis a (hfirst.subset hmem)), fun t hlisted => ?_⟩
      have hmem : (t, symbolOrHex p t) ∈ functionCallees p va := (mem_functionCallees hf).mpr ⟨rfl, hlisted⟩
      exact normalizeApi_ne (Bool.or_eq_false_iff.mp (hcallees _ hmem)).1

/-- The verdict on any claim. -/
theorem sound_verifyOne (h : About p claim va f) {r : ClaimResult} (hr : verifyOne p claim = .ok r) :
    Sound p va f claim r.verdict := by
  rw [verifyOne_about h] at hr
  by_cases hedge : claim.kind = "calls_edge"
  · obtain rfl : verifyCallsEdge p va claim = r := by simpa [verifyKind, hedge] using hr
    exact sound_callsEdge h.2 hedge
  · by_cases hstring : claim.kind = "has_string"
    · obtain rfl : verifyHasString p va claim = r := by simpa [verifyKind, hstring] using hr
      exact sound_hasString h.2 hstring
    · by_cases hapi : claim.kind = "calls_api"
      · obtain rfl : verifyCallsApi p va claim = r := by simpa [verifyKind, hapi] using hr
        exact sound_callsApi h.2 hapi
      · exact
          { edge_supported := fun h => absurd h hedge
            edge_listed := fun h => absurd h hedge
            string_supported := fun h => absurd h hstring
            string_contradicted := fun h => absurd h hstring
            api_supported := fun h => absurd h hapi
            api_contradicted := fun h => absurd h hapi }

end

/-- The names of everything a function calls. -/
def calledNames (p : Program) (f : Function) : List String :=
  (callTargets f).map (symbolOrHex p) ++ slotApis p f

/-- Verdicts on the whole function, with names compared as a whole. -/
structure Exact (p : Program) (f : Function) (claim : Claim) (verdict : ClaimVerdict) : Prop where
  edge : claim.kind = "calls_edge" → ∀ text target, claim.targetVa = some text → parseVaLoose text = some target →
    (verdict = .supported ↔ target ∈ callTargets f) ∧ (verdict = .contradicted → target ∉ callTargets f)
  string : claim.kind = "has_string" → ∀ s, claim.string = some s → verdict = .contradicted →
    ∀ sref ∈ stringLiterals p f 1, contains sref.value s = false
  api : claim.kind = "calls_api" → ∀ api, claim.api = some api →
    (verdict = .contradicted → ∀ name ∈ calledNames p f, normalizeApi name ≠ normalizeApi api) ∧
      (verdict = .supported → ∃ name ∈ calledNames p f, normalizeApi name = normalizeApi api)

/-- A block that calls one function and falls through. -/
def callBlock (i : Nat) : BasicBlock :=
  { entryVa := 0x1000 + 5 * i, exitVa := 0x1000 + 5 * i, instrCount := 1
    successors := [⟨0x1005 + 5 * i, .fallthrough⟩, ⟨0x2000 + 16 * i, .call⟩], predecessors := [] }

/-- Calls 33 functions, one after the other. -/
def manyCalls : Function :=
  { entryVa := 0x1000, blocks := (List.range 33).map callBlock, stackFrame := none, signature := none }

/-- The first of the functions called is an import. -/
def manyCallsProgram : Program :=
  { project :=
      { symbols := Finmap.singleton 0x2000 ⟨"__imp_CreateFileW", .import⟩, comments := ⟨∅, ∅⟩, typedGlobals := ∅
        functionSignatures := ∅, functionFrames := ∅, functionMemory := ∅, aliasHistory := [], focus := none
        opSeq := 0, functions := {0x1000} }
    functions := [manyCalls], codeIndex := .ofList [], addressSpace := ⟨0, []⟩, image := [], bitness := 64
    xrefsTo := fun _ => [], sigDb := ⟨fun _ => none, fun _ => []⟩, recoverSignature := fun _ => none
    debugText := fun s => s }

/-- The call of the last of the 33. -/
def lastCallClaim : Claim := { Claim.of "calls_edge" "0x1000" with targetVa := some "0x2200" }

/-- A call of something with `Create` in its name. -/
def createClaim : Claim := { Claim.of "calls_api" "0x1000" with api := some "Create" }

def leastOffsetClaim : Claim :=
  { Claim.of "local_name" "0x1000" with stackOffset := some "-0x-8000000000000000", name := some "buf" }

end Windy.Llm
