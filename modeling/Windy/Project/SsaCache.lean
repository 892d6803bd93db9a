import Windy.Lib.Run
import Windy.Project.Op

/- The session cache of optimized SSA (`function_ssa_optimized`, `invalidate_ssa_cache`,
   `call_abi_inputs_for`, `signature_for_target` in `project/mod.rs` and the invalidations of
   `capture_and_apply` in `project/op.rs`).

   All snapshots of a project share one map from function address to optimized SSA. The SSA of a
   function is computed from the image and from the registers its direct calls read, which come from
   the signatures its call targets resolve to: the stored signature of the target, or one found
   under its name. An edit removes the entry of the function it names and no other, so the entries
   of its callers survive a changed signature or name; and a reader inserts what it computed from
   its own snapshot, however old that is.

   The writer and the readers take turns in any order. A reader works on the snapshot it has loaded:
   it looks into the cache, and on a miss computes and inserts in a later step.

   What is proved:
     1. `cold_congr`: the SSA of a function depends on the project only through
        the inputs of its calls.
     2. `coherent_step`: one step keeps the cache coherent with the live project.
     3. `read_eq_cold`: in a run where every edit removes each function whose
        inputs it changes, and every read is made on a snapshot that is current
        for its function, every read returns what a cold cache would give.

   Correspondence:
     `call_abi_inputs_for` ↔ `callAbiInputs`
     `call_signature_for_abi_inputs`, `signature_for_target` ↔ `callSignature`, `signatureForTarget`
     `function_ssa_optimized` ↔ the steps `lookup` and `insert` of a reader
     `invalidate_ssa_cache(Some(va))` ↔ `WriterStep.invalidate`
     `simplify(&build_ssa_with_call_abi_inputs(..))` ↔ `Image.optimized`
   The construction and simplification of SSA are a parameter, as is the signature heuristic: both
   read the image only (the construction takes the stack frames and ignores them). -/
namespace Windy.SsaCache

/-! ## What the SSA of a function is computed from -/

structure Decoded where
  isCall : Bool
  nearBranchTarget : Nat
  nextIp : Nat

/-- The decoded instructions; the next instruction lies behind, below a limit. -/
structure CodeIndex where
  atVa : Nat → Option Decoded
  limit : Nat
  advances : ∀ va d, atVa va = some d → va < d.nextIp
  bounded : ∀ va d, atVa va = some d → va < limit

structure Block where
  entryVa : Nat
  exitVa : Nat

structure Function where
  entryVa : Nat
  blocks : List Block
  signature : Option FunctionSignature

/-- The registers each call instruction reads. -/
abbrev CallAbiInputs := Map (List Nat)

/-- What does not change while a project is open. -/
structure Image (σ : Type) where
  bitness : Nat
  functionAt : Nat → Option Function
  codeIndex : CodeIndex
  lookupByName : String → Option FunctionSignature
  recoverSignature : Function → String → Option FunctionSignature
  optimized : Function → CallAbiInputs → σ

/-- The call instructions from `va` to the block's exit, with their targets. -/
def callsFrom (index : CodeIndex) (exitVa va : Nat) : List (Nat × Nat) :=
  match _h : index.atVa va with
  | none => []
  | some d =>
    (if d.isCall && d.nearBranchTarget ≠ 0 then [(va, d.nearBranchTarget)] else []) ++
      if va = exitVa then [] else callsFrom index exitVa d.nextIp
termination_by index.limit - va
decreasing_by
  have hadvances := index.advances va d _h
  have hbounded := index.bounded va d _h
  omega

/-- `format!("FUN_{:08x}", va)`. -/
def defaultName (va : Nat) : String :=
  let digits := Nat.toDigits 16 va
  "FUN_" ++ String.ofList (List.replicate (8 - digits.length) '0' ++ digits)

/-- `Function::name`: a legacy `sub_` prefix is rewritten. -/
def Function.name (f : Function) (p : Project) : String :=
  let raw := (p.symbolName f.entryVa).getD (defaultName f.entryVa)
  if "sub_".toList.isPrefixOf raw.toList then "FUN_" ++ String.ofList (raw.toList.drop 4) else raw

def isIntegerType : DataType → Bool
  | .bool => true
  | .int _ => true
  | .uint _ => true
  | .ptr _ => true
  | .funcPtr _ _ => true
  | .unknown _ => true
  | _ => false

/-- The call passes its arguments in the first four integer registers. -/
def win64IntegerCallContract (signature : FunctionSignature) : Bool :=
  if signature.params.length > 4 ||
      signature.callingConv.any fun conv => conv.toList.map Char.toLower = "vectorcall".toList then false
  else signature.params.all fun param => isIntegerType param.2

def win64GprArgumentBases : List Nat := [0x08, 0x10, 0x80, 0x88]

section Inputs
variable {σ : Type} (img : Image σ)

/-- The signature of a call target: the stored one, that of the function, or the
one known under the name of the function or of the import. -/
def signatureForTarget (p : Project) (target : Nat) : Option FunctionSignature :=
  (p.functionSignatures.lookup target).or
    (((img.functionAt target).bind fun f => f.signature.or (img.lookupByName (f.name p))).or
      ((p.symbolName target).bind img.lookupByName))

/-- Declarations first, then the heuristic for functions of the image. -/
def callSignature (p : Project) (target : Nat) : Option FunctionSignature :=
  (signatureForTarget img p target).or
    ((img.functionAt target).bind fun f => img.recoverSignature f (f.name p))

/-- The input registers of one call are added when its contract is supported. -/
def addCall (p : Project) (inputs : CallAbiInputs) (call : Nat × Nat) : CallAbiInputs :=
  match callSignature img p call.2 with
  | none => inputs
  | some signature =>
    if win64IntegerCallContract signature then
      inputs.insert call.1 (win64GprArgumentBases.take signature.params.length)
    else inputs

def callAbiInputs (p : Project) (f : Function) : CallAbiInputs :=
  if img.bitness ≠ 64 then ∅
  else (f.blocks.flatMap fun b => callsFrom img.codeIndex b.exitVa b.entryVa).foldl (addCall img p) ∅

/-- What `function_ssa_optimized` gives on a project with an empty cache. -/
def cold (p : Project) (va : Nat) : Option σ :=
  (img.functionAt va).map fun f => img.optimized f (callAbiInputs img p f)

/-- Two projects agree on what the SSA of the function at `va` is computed from. -/
def SameInputs (p q : Project) (va : Nat) : Prop :=
  ∀ f, img.functionAt va = some f → callAbiInputs img p f = callAbiInputs img q f

variable {img}

theorem cold_congr {p q : Project} {va : Nat} (h : SameInputs img p q va) : cold img p va = cold img q va := by
  unfold cold
  cases hf : img.functionAt va with
  | none => rfl
  | some f => simp only [Option.map_some, h f hf]

/-- The inputs depend on the stored signatures and on the symbols only. -/
theorem callAbiInputs_congr {p q : Project} (hsig : p.functionSignatures = q.functionSignatures)
    (hsym : p.symbols = q.symbols) (f : Function) : callAbiInputs img p f = callAbiInputs img q f := by
  have hname : ∀ va, p.symbolName va = q.symbolName va := by
    intro va
    simp only [Project.symbolName, hsym]
  have hcall : ∀ target, callSignature img p target = callSignature img q target := by
    intro target
    simp only [callSignature, signatureForTarget, Function.name, hname, hsig]
  have hadd : addCall img p = addCall img q := by
    funext inputs call
    simp only [addCall, hcall]
  simp only [callAbiInputs, hadd]

end Inputs

/-! ## Writer, readers and the cache -/

/-- The functions whose entries an edit removes. -/
def invalidates : Op → List Nat
  | .setFunctionSignature va _ _ => [va]
  | .setStackLocalType va _ _ _ => [va]
  | .setStackLocalName va _ _ _ => [va]
  | _ => []

inductive WriterStep where
  | bump
  /-- one edit of the operation; its invalidation follows -/
  | edit (leaf : Op)
  | invalidate (va : Nat)
  | publish

/-- How the writer handles an operation. -/
def program (op : Op) : List WriterStep :=
  .bump :: op.leaves.map .edit ++ [.publish]

/-- Where a reader is. -/
inductive Phase (σ : Type) where
  | idle
  | called (va : Nat)
  /-- nothing was cached -/
  | missed (va : Nat)
  | returned (va : Nat) (result : Option σ)

structure Reader (σ : Type) where
  snapshot : Project
  phase : Phase σ

structure State (σ : Type) where
  live : Project
  published : Project
  todo : List WriterStep
  cache : Nat → Option σ
  readers : Nat → Option (Reader σ)

inductive Action where
  | begin (op : Op)
  | writer
  | load (r : Nat)
  | call (r va : Nat)
  | lookup (r : Nat)
  | insert (r : Nat)

namespace State

variable {σ : Type}

def setReader (s : State σ) (r : Nat) (reader : Reader σ) : State σ :=
  { s with readers := Function.update s.readers r (some reader) }

def start (p : Project) : State σ :=
  { live := p, published := p, todo := [], cache := fun _ => none, readers := fun _ => none }

end State

section Steps
variable {σ : Type} (img : Image σ)

def writerStep (s : State σ) : WriterStep → List WriterStep → State σ
  | .bump, rest => { s with todo := rest, live := s.live.withSeq ((s.live.opSeq + 1) % 2 ^ 64) }
  | .edit leaf, rest =>
    { s with todo := (invalidates leaf).map .invalidate ++ rest, live := leaf.applyTo s.live }
  | .invalidate va, rest => { s with todo := rest, cache := Function.update s.cache va none }
  | .publish, rest => { s with todo := rest, published := s.live }

def step (s : State σ) : Action → Option (State σ)
  | .begin op => if s.todo.isEmpty then some { s with todo := program op } else none
  | .writer =>
    match s.todo with
    | [] => none
    | next :: rest => some (writerStep s next rest)
  | .load r => some (s.setReader r { snapshot := s.published, phase := .idle })
  | .call r va => (s.readers r).map fun reader => s.setReader r { reader with phase := .called va }
  | .lookup r =>
    (s.readers r).bind fun reader =>
      match reader.phase with
      | .called va =>
        some (s.setReader r { reader with
          phase := match s.cache va with
            | some hit => .returned va (some hit)
            | none => .missed va })
      | _ => none
  | .insert r =>
    (s.readers r).bind fun reader =>
      match reader.phase with
      | .missed va =>
        match cold img reader.snapshot va with
        | none => some (s.setReader r { reader with phase := .returned va none })
        | some out =>
          some ({ s with cache := Function.update s.cache va (some out) }.setReader r
            { reader with phase := .returned va (some out) })
      | _ => none

/-- The functions that are edited and not yet removed from the cache. -/
def pending : List WriterStep → List Nat
  | .invalidate va :: rest => va :: pending rest
  | _ => []

/-- What the steps must keep to: an edit removes every function whose inputs it
changes, and a read is made on a snapshot that agrees with the live project on the
inputs of its function. -/
def Meets (s : State σ) : Action → Prop
  | .writer => ∀ leaf rest, s.todo = .edit leaf :: rest →
      ∀ va, va ∉ invalidates leaf → SameInputs img s.live (leaf.applyTo s.live) va
  | .lookup r => ∀ reader va, s.readers r = some reader → reader.phase = .called va →
      SameInputs img reader.snapshot s.live va ∧ va ∉ pending s.todo
  | .insert r => ∀ reader va, s.readers r = some reader → reader.phase = .missed va →
      SameInputs img reader.snapshot s.live va
  | _ => True

variable {img}

variable (img)

/-! ## Coherence -/

/-- Every cached entry is that of the live project, or about to be removed, and
every read so far returned what its snapshot gives. -/
structure Coherent (s : State σ) : Prop where
  cache : ∀ va out, s.cache va = some out → cold img s.live va = some out ∨ va ∈ pending s.todo
  reads : ∀ r reader va result, s.readers r = some reader → reader.phase = .returned va result →
    result = cold img reader.snapshot va

variable {img}

theorem coherent_start (p : Project) : Coherent img (State.start p : State σ) :=
  ⟨fun _ _ h => (by cases h), fun _ _ _ _ h => (by cases h)⟩

theorem pending_append (vas : List Nat) (rest : List WriterStep) :
    pending (vas.map .invalidate ++ rest) = vas ++ pending rest := by
  induction vas with
  | nil => rfl
  | cons va vas ih => simp [pending, ih]

/-- A reader that moves on keeps the state coherent when what it returns is right. -/
theorem Coherent.setReader {s : State σ} (h : Coherent img s) (r : Nat) {reader : Reader σ}
    (hread : ∀ va result, reader.phase = .returned va result → result = cold img reader.snapshot va) :
    Coherent img (s.setReader r reader) := by
  refine ⟨h.cache, ?_⟩
  intro r' reader' va result hr' hphase
  by_cases hr : r' = r
  · subst hr
    have heq : reader = reader' := by simpa [State.setReader] using hr'
    exact heq ▸ hread va result (heq ▸ hphase)
  · refine h.reads r' reader' va result ?_ hphase
    rw [← hr']
    exact (Function.update_of_ne hr _ _).symm

theorem Coherent.writerStep {s : State σ} (h : Coherent img s) {next : WriterStep} {rest : List WriterStep}
    (htodo : s.todo = next :: rest) (hmeets : Meets img s .writer) :
    Coherent img (writerStep s next rest) := by
  refine ⟨?_, fun r reader va result hr => ?_⟩
  swap
  · cases next <;> exact h.reads r reader va result hr
  intro va out hout
  cases next with
  | bump =>
    have hold := (h.cache va out hout).resolve_right (by rw [htodo]; exact List.not_mem_nil)
    refine Or.inl ?_
    rw [← hold]
    exact cold_congr fun f _ => callAbiInputs_congr rfl rfl f
  | edit leaf =>
    have hold := (h.cache va out hout).resolve_right (by rw [htodo]; exact List.not_mem_nil)
    by_cases hva : va ∈ invalidates leaf
    · refine Or.inr ?_
      show va ∈ pending ((invalidates leaf).map .invalidate ++ rest)
      rw [pending_append]
      exact List.mem_append_left _ hva
    · refine Or.inl ?_
      rw [← hold]
      exact (cold_congr (hmeets leaf rest htodo va hva)).symm
  | invalidate dropped =>
    by_cases hva : va = dropped
    · subst hva
      simp [SsaCache.writerStep] at hout
    · have hcached : s.cache va = some out := by simpa [SsaCache.writerStep, hva] using hout
      refine (h.cache va out hcached).imp_right fun hpending => ?_
      rw [htodo] at hpending
      show va ∈ pending rest
      simpa [pending, hva] using hpending
  | publish =>
    have hold := (h.cache va out hout).resolve_right (by rw [htodo]; exact List.not_mem_nil)
    exact Or.inl hold

theorem Coherent.lookup {s : State σ} (h : Coherent img s) {r va : Nat} {reader : Reader σ}
    (hr : s.readers r = some reader) (hphase : reader.phase = .called va) (hmeets : Meets img s (.lookup r)) :
    Coherent img (s.setReader r { reader with
      phase := match s.cache va with
        | some hit => .returned va (some hit)
        | none => .missed va }) := by
  apply h.setReader
  intro va' result hreturned
  obtain ⟨hsame, hpending⟩ := hmeets reader va hr hphase
  cases hcache : s.cache va with
  | none => simp [hcache] at hreturned
  | some hit =>
    simp only [hcache, Phase.returned.injEq] at hreturned
    obtain ⟨rfl, rfl⟩ := hreturned
    -- A hit is the SSA of the live project, and the snapshot has the same inputs.
    have hlive := (h.cache va hit hcache).resolve_right hpending
    rw [cold_congr hsame, hlive]

theorem Coherent.insert {s : State σ} (h : Coherent img s) {r va : Nat} {reader : Reader σ} {out : σ}
    (hr : s.readers r = some reader) (hphase : reader.phase = .missed va)
    (hout : cold img reader.snapshot va = some out) (hmeets : Meets img s (.insert r)) :
    Coherent img ({ s with cache := Function.update s.cache va (some out) }.setReader r
      { reader with phase := .returned va (some out) }) := by
  have hcached : Coherent img { s with cache := Function.update s.cache va (some out) } := by
    refine ⟨fun va' out' hout' => ?_, h.reads⟩
    by_cases hva : va' = va
    · subst hva
      have heq : out = out' := by simpa using hout'
      refine Or.inl ?_
      rw [← heq, ← hout]
      exact (cold_congr (hmeets reader va' hr hphase)).symm
    · exact h.cache va' out' (by simpa [hva] using hout')
  apply hcached.setReader
  intro va' result hreturned
  obtain ⟨rfl, rfl⟩ := Phase.returned.inj hreturned
  exact hout.symm

/-- One step keeps the cache coherent. -/
theorem coherent_step {s s' : State σ} {a : Action} (h : Coherent img s) (hmeets : Meets img s a)
    (hstep : step img s a = some s') : Coherent img s' := by
  cases a with
  | begin op =>
    simp only [step] at hstep
    split at hstep
    · rename_i hidle
      rw [← Option.some.inj hstep]
      refine ⟨fun va out hout => Or.inl ?_, h.reads⟩
      refine (h.cache va out hout).resolve_right ?_
      rw [List.isEmpty_iff.mp hidle]
      exact List.not_mem_nil
    · cases hstep
  | writer =>
    cases htodo : s.todo with
    | nil => simp [step, htodo] at hstep
    | cons next rest =>
      have heq : writerStep s next rest = s' := by simpa [step, htodo] using hstep
      exact heq ▸ h.writerStep htodo hmeets
  | load r =>
    rw [← Option.some.inj hstep]
    apply h.setReader
    intro va result hreturned
    cases hreturned
  | call r va =>
    obtain ⟨reader, hr, heq⟩ := Option.map_eq_some_iff.mp hstep
    rw [← heq]
    apply h.setReader
    intro va' result hreturned
    cases hreturned
  | lookup r =>
    obtain ⟨reader, hr, heq⟩ := Option.bind_eq_some_iff.mp hstep
    cases hphase : reader.phase with
    | called va =>
      simp only [hphase] at heq
      exact Option.some.inj heq ▸ h.lookup hr hphase hmeets
    | idle => simp [hphase] at heq
    | missed va => simp [hphase] at heq
    | returned va result => simp [hphase] at heq
  | insert r =>
    obtain ⟨reader, hr, heq⟩ := Option.bind_eq_some_iff.mp hstep
    cases hphase : reader.phase with
    | missed va =>
      simp only [hphase] at heq
      cases hout : cold img reader.snapshot va with
      | none =>
        simp only [hout] at heq
        rw [← Option.some.inj heq]
        apply h.setReader
        intro va' result hreturned
        obtain ⟨rfl, rfl⟩ := Phase.returned.inj hreturned
        exact hout.symm
      | some out =>
        simp only [hout] at heq
        exact Option.some.inj heq ▸ h.insert hr hphase hout hmeets
    | idle => simp [hphase] at heq
    | called va => simp [hphase] at heq
    | returned va result => simp [hphase] at heq

/-- In a run whose steps all meet the condition, every read returns what a cold
cache would give for its snapshot. -/
theorem read_eq_cold (img : Image σ) (p : Project) (actions : List Action) (s : State σ)
    (hrun : Run.Guarded (step img) (Meets img) (State.start p) actions s) (r : Nat) (reader : Reader σ) (va : Nat)
    (result : Option σ) (hr : s.readers r = some reader) (hreturned : reader.phase = .returned va result) :
    result = cold img reader.snapshot va := by
  have hcoherent : Coherent img s :=
    hrun.inv (fun _ _ _ h hmeets hstep => coherent_step h hmeets hstep) (coherent_start p)
  exact hcoherent.reads r reader va result hr hreturned

end Steps

/-! ## A caller and its callee -/

/-- `main` at 0x1000 calls the function at 0x2000 and returns. -/
def mainIndex : CodeIndex where
  atVa va := if va = 4096 then some { isCall := true, nearBranchTarget := 8192, nextIp := 4101 } else none
  limit := 4101
  advances := by
    intro va d h
    split at h
    · rename_i hva
      rw [← Option.some.inj h, hva]
      decide
    · cases h
  bounded := by
    intro va d h
    split at h
    · omega
    · cases h

def mainFunction : Function :=
  { entryVa := 4096, blocks := [{ entryVa := 4096, exitVa := 4096 }], signature := none }

/-- The image, with the registers the calls read in the place of the whole SSA. -/
def mainImage : Image CallAbiInputs where
  bitness := 64
  functionAt va := if va = 4096 then some mainFunction else none
  codeIndex := mainIndex
  lookupByName _ := none
  recoverSignature _ _ := none
  optimized _ inputs := inputs

def noEdits : Project :=
  { symbols := ∅, comments := { byAddr := ∅, byFunction := ∅ }, typedGlobals := ∅, functionSignatures := ∅,
    functionFrames := ∅, functionMemory := ∅, aliasHistory := [], focus := none, opSeq := 0, functions := {4096} }

theorem callsFrom_main : callsFrom mainIndex 4096 4096 = [(4096, 8192)] := by
  rw [callsFrom]
  rfl

theorem cold_main (p : Project) :
    cold mainImage p 4096 = some (addCall mainImage p ∅ (4096, 8192)) := by
  show some (callAbiInputs mainImage p mainFunction) = _
  unfold callAbiInputs
  rw [if_neg (by decide)]
  show some ((callsFrom mainIndex 4096 4096 ++ []).foldl _ _) = _
  rw [callsFrom_main]
  rfl

def twoParams : FunctionSignature :=
  { name := "helper", params := [("a", .int 64), ("b", .int 64)], ret := .void, callingConv := none }

/-- `main` is read, an operation is handled, and `main` is read again. -/
def readEditRead (op : Op) (steps : Nat) : List Action :=
  [.load 0, .call 0 4096, .lookup 0, .insert 0, .begin op] ++ List.replicate steps .writer ++
    [.load 1, .call 1 4096, .lookup 1]

/-- A type for a stack variable of `main` removes its entry, and the second read
misses. -/
theorem reads_around_frame_edit :
    ∃ s, Run.exec (step mainImage) (State.start noEdits)
        (readEditRead (.setStackLocalType 4096 8 (.int 32) none) 4 ++ [.insert 1]) = some s ∧
      ∀ reader result, s.readers 1 = some reader → reader.phase = .returned 4096 result →
        result = cold mainImage reader.snapshot 4096 := by
  refine ⟨_, rfl, fun reader result hr hreturned => read_eq_cold mainImage noEdits
    (readEditRead (.setStackLocalType 4096 8 (.int 32) none) 4 ++ [.insert 1]) _ ?_ 1 reader 4096 result hr
    hreturned⟩
  -- Signatures and symbols never change, so every snapshot is current.
  have hsame : ∀ {p q : Project} (va : Nat), p.functionSignatures = q.functionSignatures →
      p.symbols = q.symbols → SameInputs mainImage p q va :=
    fun _ hsig hsym f _ => callAbiInputs_congr hsig hsym f
  refine .cons True.intro rfl (.cons True.intro rfl (.cons ?_ rfl (.cons ?_ rfl (.cons True.intro rfl
    (.cons ?_ rfl (.cons ?_ rfl (.cons ?_ rfl (.cons ?_ rfl (.cons True.intro rfl (.cons True.intro rfl
    (.cons ?_ rfl (.cons ?_ rfl (.nil _)))))))))))))
  · intro reader va hr hphase
    have hreader := Option.some.inj hr
    exact ⟨hreader ▸ hsame va rfl rfl, List.not_mem_nil⟩
  · intro reader va hr hphase
    have hreader := Option.some.inj hr
    exact hreader ▸ hsame va rfl rfl
  · intro leaf rest htodo
    cases htodo
  · intro leaf rest htodo va hva
    have hleaf := (List.cons.inj htodo).1
    rw [← WriterStep.edit.inj hleaf]
    exact hsame va rfl rfl
  · intro leaf rest htodo
    cases htodo
  · intro leaf rest htodo
    cases htodo
  · intro reader va hr hphase
    have hreader := Option.some.inj hr
    exact ⟨hreader ▸ hsame va rfl rfl, List.not_mem_nil⟩
  · intro reader va hr hphase
    have hreader := Option.some.inj hr
    exact hreader ▸ hsame va rfl rfl

/-- A signature for the callee leaves the entry of `main`: the second read returns
a call without arguments, where a cold cache gives one with two. -/
theorem stale_after_callee_signature :
    ∃ s reader hit, Run.exec (step mainImage) (State.start noEdits)
        (readEditRead (.setFunctionSignature 8192 twoParams none) 4) = some s ∧
      s.readers 1 = some reader ∧ reader.phase = .returned 4096 (some hit) ∧
      hit.lookup 4096 = none ∧
      (cold mainImage reader.snapshot 4096).bind (Finmap.lookup 4096) = some [8, 16] ∧
      some hit ≠ cold mainImage reader.snapshot 4096 := by
  have hhit : (callAbiInputs mainImage noEdits mainFunction).lookup 4096 = none := by
    have hinputs : callAbiInputs mainImage noEdits mainFunction = addCall mainImage noEdits ∅ (4096, 8192) :=
      Option.some.inj (cold_main noEdits)
    rw [hinputs]
    rfl
  have hcold : ∀ p : Project, p.functionSignatures.lookup 8192 = some twoParams →
      (cold mainImage p 4096).bind (Finmap.lookup 4096) = some [8, 16] := by
    intro p hp
    rw [cold_main]
    simp [addCall, callSignature, signatureForTarget, hp, win64IntegerCallContract, twoParams, isIntegerType,
      win64GprArgumentBases]
  have hfresh := hcold ((Op.setFunctionSignature 8192 twoParams none).applyTo (noEdits.withSeq 1)) rfl
  refine ⟨_, _, callAbiInputs mainImage noEdits mainFunction, rfl, rfl, rfl, hhit, hfresh, fun heq => ?_⟩
  have hsame := congrArg (Option.bind · (Finmap.lookup 4096)) heq
  have hlookup := hhit.symm.trans (hsame.trans hfresh)
  cases hlookup

end Windy.SsaCache
