import Windy.Analysis.Closed
import Windy.Analysis.SketchFacts

/- The two builders of sketches (`analysis/sketch.rs`).

   `build` goes over the blocks of a discovered function: it counts what their instructions in
   the index do, and takes the edges that lead back to or before the start of their block for
   loops. `sketch_range` decodes the bytes of a range and takes the branches for loops that
   lead back to or before themselves. A block that ends in a call has an edge to the callee.

   What is proved: for a function whose blocks tile a range of a section, both agree on all
   facts exactly when as many blocks end in a call with an edge back as end in a branch back
   without an edge, and no call has the target zero (`sketchesAgree_iff`). Of sections that
   overlap the index has entries between those of a block; then what it has for the blocks
   must also give the same counts (`OwnFacts`).

   Correspondence:
     the first loop of `build` ↔ `buildLoops`
     the loops over its instructions ↔ `buildFacts` (`buildStep`), over `blockInstrs`
     `Function::size` ↔ `functionSize` (`blockLastLen`)
     the record of `build` ↔ `buildSketch`
   What an index entry has besides its flow and its target is a parameter, `detail`. -/
namespace Windy

/-! ## Decoded blocks -/

namespace Discovery

variable {inp : Input}

variable (inp) in
/-- The block is what decoding makes of its start, but for the kinds of its edges. -/
def DecodedBlock (e : Nat) (b : BasicBlock) : Prop :=
  ∃ c t, t.entry = e ∧ b.exitVa = (decodeBlock inp c t b.entryVa).2.exitVa ∧
    b.instrCount = (decodeBlock inp c t b.entryVa).2.instrCount ∧
    b.successors.map Edge.target = (decodeBlock inp c t b.entryVa).2.successors.map Edge.target

theorem DecodedBlock.finished {t : Task} (h : ∀ b ∈ t.blocks, DecodedBlock inp t.entry b) {b : BasicBlock}
    (hb : b ∈ withPredecessors (keptBlocks t)) : DecodedBlock inp t.entry b := by
  obtain ⟨b₁, hb₁, rfl⟩ := List.mem_map.mp hb
  obtain ⟨b₀, hb₀, rfl⟩ := List.mem_map.mp hb₁
  obtain ⟨c, t', hentry, hexit, hcount, htargets⟩ := h b₀ (List.mem_filter.mp hb₀).1
  refine ⟨c, t', hentry, hexit, hcount, ?_⟩
  rw [← htargets, List.map_map]
  exact List.map_congr_left fun e _ => rewriteEdge_target t.entry e

variable (inp) in
/-- All blocks are decoded ones. -/
structure BlocksDecoded (s : State) : Prop where
  task : ∀ t, s.task = some t → ∀ b ∈ t.blocks, DecodedBlock inp t.entry b
  functions : ∀ f ∈ s.functions, ∀ b ∈ f.blocks, DecodedBlock inp f.entryVa b

theorem start_blocksDecoded : BlocksDecoded inp (start inp) where
  task t ht := by cases ht
  functions f hf := by cases hf

theorem BlocksDecoded.step {s s' : State} (hr : Reached inp s) (h : BlocksDecoded inp s) (hstep : step inp s = some s') :
    BlocksDecoded inp s' := by
  refine ⟨fun t' ht' b hb => ?_, ?_⟩
  · obtain ⟨t, ht, hentry, hmem | ⟨start, rest, -, -, rfl, -⟩⟩ := (step_move hstep).task_block (reached_sound hr) ht' hb
    · rw [← hentry]
      exact h.task t ht b hmem
    · exact ⟨_, t, hentry, rfl, rfl, rfl⟩
  · cases step_move hstep with
    | @finish t htask =>
      intro f hf b hb
      rcases KeyedList.mem_of_mem_put hf with rfl | hmem
      · exact DecodedBlock.finished (h.task t htask) hb
      · exact h.functions f hmem b hb
    | pass | ignore | gaps | enter | decode => exact h.functions
    | filters htask =>
      intro f' hf' b hb
      obtain ⟨f, hf, hentry, hblocks⟩ := filters_functions (reached_sound hr) htask f' hf'
      rw [hblocks] at hb
      rw [hentry]
      exact h.functions f hf b (List.mem_filter.mp hb).1

theorem reached_blocksDecoded {s : State} (h : Reached inp s) : BlocksDecoded inp s :=
  Machine.inv_of_reaches start_blocksDecoded (fun _ _ hr hdecoded hstep => hdecoded.step hr hstep) h

/-- The blocks of the result are decoded ones. -/
theorem decoded_of_mem {f : Function} (hf : f ∈ discover inp) {b : BasicBlock} (hb : b ∈ f.blocks) :
    DecodedBlock inp f.entryVa b :=
  (reached_blocksDecoded (reached_finalState inp)).functions f hf b hb

theorem DecodedBlock.walked {e : Nat} {b : BasicBlock} (h : DecodedBlock inp e b) : ∃ c t w, t.entry = e ∧
    Walked inp c t b.entryVa b.entryVa (span inp b) w ∧
    b.exitVa = ((span inp b).getLast?.map DecodedInstr.ip).getD b.entryVa ∧ b.instrCount = (span inp b).length ∧
    b.successors.map Edge.target = (endEdges inp c e w).2.map Edge.target := by
  obtain ⟨c, t, rfl, hexit, hcount, htargets⟩ := h
  have hwalk := @walkFrom_walked inp c t b.entryVa
  have hspan : span inp b = (walkFrom inp c t b.entryVa).1 := by
    rw [span, hcount]
    exact hwalk.sweep_eq
  rw [hspan]
  exact ⟨c, t, _, rfl, hwalk, hexit, hcount, htargets⟩

theorem blocks_ordered_of_mem {f : Function} (hf : f ∈ discover inp) : KeyedList.Ordered BasicBlock.entryVa f.blocks :=
  (reached_sound (reached_finalState inp)).blocks_ordered f hf

end Discovery

/-! ## The builder over blocks -/

namespace Sketch
open Discovery (Input discover span isExecutableTarget)

/-- The rest of an index entry: what the sketches read of it besides its flow. -/
structure Detail where
  mnemonic : Mnemonic
  operands : List Operand
  memorySize : Nat
  memoryBase : Register

def blockLastLen (b : BasicBlock) : Nat := if b.instrCount = 0 then 0 else (b.exitVa - b.entryVa + 1) / b.instrCount

def functionSize (f : Function) : Nat :=
  match f.blocks.getLast? with
  | none => 0
  | some b => b.exitVa - f.entryVa + blockLastLen b

/-- One round of the innermost loop of `build`. -/
def buildStep (f : Facts) (i : Insn) : Facts :=
  { f.count i with calls := if i.flowControl = .call then insert i.nearBranchTarget f.calls else f.calls }

/-- The edges back to or before the start of their block. -/
def buildLoops (f : Function) : Nat :=
  ((f.blocks.flatMap fun b => b.successors.map fun e => (b, e)).filter fun p =>
    p.2.target ≠ 0 && p.2.target ≤ p.1.entryVa).length

section Build
variable (code : CodeIndex) (detail : DecodedInstr → Detail)

def insnOf (d : DecodedInstr) : Insn where
  len := d.len
  flowControl := d.flowControl
  nearBranchTarget := d.nearBranchTarget
  mnemonic := (detail d).mnemonic
  operands := (detail d).operands
  memorySize := (detail d).memorySize
  memoryBase := (detail d).memoryBase

/-- What the index has for a block. -/
def blockInstrs (b : BasicBlock) : List DecodedInstr :=
  (code.window b.entryVa b.instrCount).takeWhile fun d => d.ip ≤ b.exitVa

def buildFacts (f : Function) : Facts :=
  { ((f.blocks.flatMap (blockInstrs code)).map (insnOf detail)).foldl buildStep Facts.zero with loops := buildLoops f }

def buildSketch (f : Function) : WholeSketch :=
  (buildFacts code detail f).toSketch f.entryVa (functionSize f) f.blocks.length

end Build

/-! ## What the builders should agree on -/

/-- The same facts, and the same motifs as far as these do not depend on the number of blocks. -/
structure SketchesAgree (a b : WholeSketch) : Prop where
  instructions : a.instructions = b.instructions
  conditionalBranches : a.conditionalBranches = b.conditionalBranches
  loops : a.loops = b.loops
  directCalls : a.directCalls = b.directCalls
  returns : a.returns = b.returns
  memoryOps : a.memoryOps = b.memoryOps
  byteMemoryOps : a.byteMemoryOps = b.byteMemoryOps
  globalWrites : a.globalWrites = b.globalWrites
  adds : a.adds = b.adds
  subtracts : a.subtracts = b.subtracts
  multiplies : a.multiplies = b.multiplies
  xors : a.xors = b.xors
  zeroTests : a.zeroTests = b.zeroTests
  constants : a.constants = b.constants
  leafMotifs : (a.blocks ≤ 16 ↔ b.blocks ≤ 16) → ∀ motif, motif ≠ "conditional_call_pipeline" →
    (motif ∈ a.motifs ↔ motif ∈ b.motifs)
  pipelineMotif : (a.blocks ≤ 24 ↔ b.blocks ≤ 24) →
    ("conditional_call_pipeline" ∈ a.motifs ↔ "conditional_call_pipeline" ∈ b.motifs)

/-- The entries lie one behind the other: no two executable sections have an address in common. -/
def Linear (code : CodeIndex) : Prop := code.instrs.Pairwise fun d d' => d.nextIp ≤ d'.ip

/-- An instruction does not depend on the bytes behind it. -/
def Local (decode : Nat → List UInt8 → Nat → Insn) : Prop :=
  ∀ bitness bytes ip n, (decode bitness bytes ip).len ≤ n → decode bitness (bytes.take n) ip = decode bitness bytes ip

section Tiled
variable (decode : Nat → List UInt8 → Nat → Insn) (bitness : Nat) (image : List UInt8) (inp : Input)
  (detail : DecodedInstr → Detail)

/-- The end of the last instruction of a block. -/
def blockEnd (b : BasicBlock) : Nat := ((span inp b).getLast?.map DecodedInstr.nextIp).getD b.entryVa

/-- The blocks share no address and make up the range, which lies in the file part of a section and is decoded from it. -/
structure Tiled (s : Section) (f : Function) (stop : Nat) : Prop where
  disjoint : f.blocks.Pairwise fun b b' => ∀ v,
    ¬ ((b.entryVa ≤ v ∧ v < blockEnd inp b) ∧ b'.entryVa ≤ v ∧ v < blockEnd inp b')
  union : ∀ v, (∃ b ∈ f.blocks, b.entryVa ≤ v ∧ v < blockEnd inp b) ↔ f.entryVa ≤ v ∧ v < stop
  nonempty : f.entryVa < stop
  ofSection : Loader.sectionAtVa inp.space f.entryVa = .some s
  inFile : stop - (inp.space.imageBase + s.vaddr) ≤ min (s.rawAddr + s.rawSize) image.length - s.rawAddr
  decoded : ∀ b ∈ f.blocks, ∀ d ∈ span inp b, insnOf detail d = decode bitness
    ((image.take (s.rawAddr + s.rawSize)).drop (s.rawAddr + (d.ip - (inp.space.imageBase + s.vaddr)))) d.ip

/-- What both loops note of the instructions, with what they note differently left out. -/
def countedFacts (instrs : List DecodedInstr) : Facts := (instrs.map (insnOf detail)).foldl Facts.count Facts.zero

/-- The index has for the blocks what they were decoded from, as far as the facts can tell. -/
structure OwnFacts (f : Function) : Prop where
  counts : { countedFacts detail (f.blocks.flatMap (blockInstrs inp.code)) with constants := ∅ } =
    { countedFacts detail (f.blocks.flatMap (span inp)) with constants := ∅ }
  constants : ((countedFacts detail (f.blocks.flatMap (blockInstrs inp.code))).constants.sort (· ≤ ·)).take 16 =
    ((countedFacts detail (f.blocks.flatMap (span inp))).constants.sort (· ≤ ·)).take 16
  calls : ∀ va, va ≠ 0 →
    ((∃ d ∈ f.blocks.flatMap (blockInstrs inp.code), d.flowControl = .call ∧ d.nearBranchTarget = va) ↔
      ∃ d ∈ f.blocks.flatMap (span inp), d.flowControl = .call ∧ d.nearBranchTarget = va)

/-- The block ends in a call with an edge to or before its start. -/
def endsInCallBack (b : BasicBlock) : Bool :=
  (span inp b).getLast?.any fun d => d.flowControl = .call && isExecutableTarget inp d.nearBranchTarget &&
    d.nearBranchTarget ≤ b.entryVa

/-- The block ends in a branch to or before itself that has no edge to or before the start of the block. -/
def endsInBranchBack (b : BasicBlock) : Bool :=
  (span inp b).getLast?.any fun d => (d.flowControl = .conditionalBranch || d.flowControl = .unconditionalBranch) &&
    d.nearBranchTarget ≤ d.ip && !(isExecutableTarget inp d.nearBranchTarget && d.nearBranchTarget ≤ b.entryVa)

end Tiled

/-! ## The instructions of a block -/

section Window
variable {code : CodeIndex} {inp : Input}

/-- The position of the next instruction is the next position. -/
theorem next_position (hlinear : Linear code) {i j : Nat} {d d' : DecodedInstr} (hi : code.instrs[i]? = some d)
    (hj : code.instrs[j]? = some d') (hnext : d'.ip = d.nextIp) : j = i + 1 := by
  have hpairs := List.pairwise_iff_getElem.mp hlinear
  obtain ⟨hilt, rfl⟩ := List.getElem?_eq_some_iff.mp hi
  obtain ⟨hjlt, rfl⟩ := List.getElem?_eq_some_iff.mp hj
  have hpos := (code.instrs[i]).ip_lt_nextIp
  rcases Nat.lt_trichotomy j (i + 1) with hlt | heq | hgt
  · rcases Nat.lt_succ_iff_lt_or_eq.mp hlt with hji | rfl
    · have hback := hpairs j i hjlt hilt hji
      have hlen := (code.instrs[j]).ip_lt_nextIp
      omega
    · omega
  · exact heq
  · have hmid : i + 1 < code.instrs.length := by omega
    have hleft := hpairs i (i + 1) hilt hmid (Nat.lt_succ_self i)
    have hright := hpairs (i + 1) j hmid hjlt hgt
    have hlen := (code.instrs[i + 1]).ip_lt_nextIp
    omega

theorem take_drop_eq_sweep (hlinear : Linear code) {va i n : Nat} (hsearch : code.search va = .ok i)
    (hlen : (code.sweep va n).length = n) : (code.instrs.drop i).take n = code.sweep va n := by
  induction n generalizing va i with
  | zero => rfl
  | succ n ih =>
    cases hat : code.atVa va with
    | none => simp [CodeIndex.sweep, hat] at hlen
    | some d =>
      rw [CodeIndex.sweep_succ hat] at hlen ⊢
      have hget : code.instrs[i]? = some d := by
        rw [CodeIndex.atVa, hsearch] at hat
        exact hat
      obtain ⟨hilt, hd⟩ := List.getElem?_eq_some_iff.mp hget
      rw [List.drop_eq_getElem_cons hilt, List.take_succ_cons, hd]
      congr 1
      have hrest : (code.sweep d.nextIp n).length = n := Nat.succ.inj hlen
      cases n with
      | zero => rfl
      | succ n =>
        cases hnext : code.search d.nextIp with
        | error j => simp [CodeIndex.sweep, CodeIndex.atVa, hnext] at hrest
        | ok j =>
          obtain ⟨d', hd', hip⟩ := Option.map_eq_some_iff.mp (code.search_ok d.nextIp j hnext)
          obtain rfl := next_position hlinear hget hd' hip
          exact ih hnext hrest

/-- What the index has for a decoded block is what it was decoded from. -/
theorem blockInstrs_eq (hlinear : Linear inp.code) {e : Nat} {b : BasicBlock} (h : Discovery.DecodedBlock inp e b) :
    blockInstrs inp.code b = span inp b := by
  obtain ⟨c, t, w, -, hwalk, hexit, hcount, -⟩ := h.walked
  have hwindow : inp.code.window b.entryVa b.instrCount = span inp b := by
    cases hsearch : inp.code.search b.entryVa with
    | ok i =>
      rw [CodeIndex.window, hsearch]
      exact take_drop_eq_sweep hlinear hsearch hcount.symm
    | error i =>
      have hat : inp.code.atVa b.entryVa = none := by
        rw [CodeIndex.atVa, hsearch]
      have hempty : span inp b = [] := by
        rw [span]
        cases b.instrCount with
        | zero => rfl
        | succ n => simp [CodeIndex.sweep, hat]
      rw [hempty] at hcount ⊢
      rw [hcount, CodeIndex.window]
      exact List.take_zero
  have hpairs : (span inp b).Pairwise fun d d' => d.ip < d'.ip := CodeIndex.sweep_pairwise b.entryVa b.instrCount
  rw [blockInstrs, hwindow, List.takeWhile_eq_self_iff]
  intro d hd
  rw [decide_eq_true_eq, hexit]
  obtain ⟨init, last, hspan⟩ := (List.eq_nil_or_concat (span inp b)).resolve_left (List.ne_nil_of_mem hd)
  rw [List.concat_eq_append] at hspan
  rw [hspan] at hd hpairs ⊢
  rw [List.getLast?_concat]
  change d.ip ≤ last.ip
  rcases List.mem_append.mp hd with hd | hd
  · exact Nat.le_of_lt ((List.pairwise_append.mp hpairs).2.2 d hd last List.mem_cons_self)
  · rw [List.mem_singleton.mp hd]

end Window

/-! ## Loops -/

section Loops
variable {inp : Input}
open Discovery (Claims WalkEnd Walked)

/-- The instruction has an edge to or before this start of its block. -/
def edgeBack (inp : Input) (start : Nat) (d : DecodedInstr) : Bool :=
  (d.flowControl = .conditionalBranch || d.flowControl = .unconditionalBranch || d.flowControl = .call) &&
    isExecutableTarget inp d.nearBranchTarget && d.nearBranchTarget ≤ start

/-- How many of these targets are at or before this start. -/
def backs (start : Nat) (targets : List Nat) : Nat := targets.countP fun target => target ≠ 0 && target ≤ start

theorem backs_behind {start va : Nat} (h : start < va) : backs start [va] = 0 := by
  simp [backs, h]

theorem backs_append (start : Nat) (targets targets' : List Nat) :
    backs start (targets ++ targets') = backs start targets + backs start targets' := List.countP_append

theorem branchTo_targets (c : Claims) (e va : Nat) (kind : EdgeKind) :
    (Discovery.branchTo inp c e va kind).2.map Edge.target = if isExecutableTarget inp va then [va] else [] := by
  rw [Discovery.branchTo]
  split
  · split <;> rfl
  · rfl

/-- An edge to a target counts if it leads back. -/
theorem backs_target (start va : Nat) :
    backs start (if isExecutableTarget inp va then [va] else []) =
      if isExecutableTarget inp va && va ≤ start then 1 else 0 := by
  by_cases hexec : isExecutableTarget inp va = true
  · have hva := Discovery.ne_zero_of_isExecutableTarget hexec
    simp [hexec, backs, hva]
  · rw [if_neg hexec]
    simp [hexec, backs]

/-- An edge to what follows counts nothing. -/
theorem backs_next {start va : Nat} (h : start < va) : backs start (if isExecutableTarget inp va then [va] else []) = 0 := by
  split
  · exact backs_behind h
  · rfl

/-- The edge to the target of a branch or a call is the one that counts. -/
theorem edgeBack_target {start : Nat} {d : DecodedInstr} (hflow : d.flowControl = .unconditionalBranch ∨
    d.flowControl = .conditionalBranch ∨ d.flowControl = .call) :
    (if edgeBack inp start d then 1 else 0) =
      backs start (if isExecutableTarget inp d.nearBranchTarget then [d.nearBranchTarget] else []) := by
  rw [backs_target]
  rcases hflow with h | h | h <;> simp [edgeBack, h]

theorem flowEdges_backs (c : Claims) (e : Nat) {start : Nat} {d : DecodedInstr} (hnext : d.flowControl ≠ .next)
    (hbehind : start < d.nextIp) :
    backs start ((Discovery.flowEdges inp c e d).2.map Edge.target) = if edgeBack inp start d then 1 else 0 := by
  rw [Discovery.flowEdges]
  cases hflow : d.flowControl with
  | next => exact absurd hflow hnext
  | unconditionalBranch =>
    rw [edgeBack_target (.inl hflow)]
    dsimp only
    split
    · split <;> rfl
    · rfl
  | conditionalBranch =>
    rw [edgeBack_target (.inr (.inl hflow))]
    dsimp only
    rw [List.map_append, branchTo_targets, branchTo_targets, backs_append, backs_next hbehind, Nat.zero_add]
  | call =>
    rw [edgeBack_target (.inr (.inr hflow))]
    dsimp only
    split
    · rw [List.map_append, branchTo_targets, backs_append, backs_next hbehind, Nat.zero_add]
      rfl
    · rw [branchTo_targets, backs_next hbehind]
      rfl
  | indirectBranch => simp [edgeBack, hflow, backs]
  | indirectCall =>
    have hback : edgeBack inp start d = false := by simp [edgeBack, hflow]
    rw [hback]
    dsimp only
    split
    · simp [backs, hbehind]
    · simp [backs]
  | ret => simp [edgeBack, hflow, backs]
  | interrupt => simp [edgeBack, hflow, backs]
  | exception => simp [edgeBack, hflow, backs]
  | xbeginXabortXend => simp [edgeBack, hflow, backs]

/-- The edges of a block that lead back are those of its last instruction. -/
theorem endEdges_backs {c : Claims} {t : Discovery.Task} {start : Nat} {ds : List DecodedInstr} {w : WalkEnd} (e : Nat)
    (h : Walked inp c t start start ds w) :
    backs start ((Discovery.endEdges inp c e w).2.map Edge.target) =
      if ds.getLast?.any (edgeBack inp start) then 1 else 0 := by
  cases hlast : ds.getLast? with
  | none =>
    rw [List.getLast?_eq_none_iff] at hlast
    subst hlast
    cases h with
    | undecoded => rfl
    | foreign => rfl
    | hardEntry hat hne => exact absurd rfl hne
    | ownBlock hat hne => exact absurd rfl hne
  | some d =>
    rw [Option.any_some]
    have hle := h.le_ip (List.mem_of_getLast? hlast)
    have hbehind : start < d.nextIp := Nat.lt_of_le_of_lt hle d.ip_lt_nextIp
    rcases h.last hlast with ⟨rfl, hflow⟩ | ⟨hflow, hrest⟩
    · exact flowEdges_backs c e hflow hbehind
    · have hback : edgeBack inp start d = false := by simp [edgeBack, hflow]
      rw [hback]
      cases hrest with
      | undecoded => rfl
      | foreign => rfl
      | hardEntry => exact backs_behind hbehind
      | ownBlock => exact backs_behind hbehind

/-- What only the last instruction of a walk can be is counted there. -/
theorem countP_walked {c : Claims} {t : Discovery.Task} {start va : Nat} {ds : List DecodedInstr} {w : WalkEnd}
    (h : Walked inp c t start va ds w) {p : DecodedInstr → Bool} (hp : ∀ d, p d = true → d.flowControl ≠ .next) :
    ds.countP p = if ds.getLast?.any p then 1 else 0 := by
  induction h with
  | undecoded | hardEntry | foreign | ownBlock => rfl
  | terminator => exact List.countP_singleton
  | @next va d ds w hat hpass hflow hrest ih =>
    have hnot : p d = false := by
      rw [← Bool.not_eq_true]
      exact fun hd => hp d hd hflow
    rw [List.countP_cons_of_neg (by simp [hnot]), ih]
    cases ds with
    | nil => simp [hnot]
    | cons d' ds => rfl

/-- One in each block with the property. -/
theorem countP_flatMap_ends {α β : Type} {blocks : List α} {g : α → List β} {p : β → Bool} {q : α → Bool}
    (h : ∀ b ∈ blocks, (g b).countP p = if q b then 1 else 0) : (blocks.flatMap g).countP p = blocks.countP q := by
  induction blocks with
  | nil => rfl
  | cons b blocks ih =>
    rw [List.flatMap_cons, List.countP_append, h b List.mem_cons_self, ih fun b' hb' => h b' (List.mem_cons_of_mem b hb'),
      List.countP_cons, Nat.add_comm]

/-- A property that comes in two ways, never in both. -/
theorem countP_either {α : Type} {l : List α} {p q r : α → Bool} (h : ∀ a ∈ l, p a = (q a || r a) ∧ ¬ (q a ∧ r a)) :
    l.countP p = l.countP q + l.countP r := by
  induction l with
  | nil => rfl
  | cons a l ih =>
    obtain ⟨hp, hnot⟩ := h a List.mem_cons_self
    rw [List.countP_cons, List.countP_cons, List.countP_cons, ih fun b hb => h b (List.mem_cons_of_mem a hb), hp]
    revert hnot
    cases q a <;> cases r a <;> simp <;> omega

theorem buildLoops_eq {e : Nat} {f : Function} (h : ∀ b ∈ f.blocks, Discovery.DecodedBlock inp e b) :
    buildLoops f = f.blocks.countP fun b => (span inp b).getLast?.any (edgeBack inp b.entryVa) := by
  rw [buildLoops, ← List.countP_eq_length_filter]
  refine countP_flatMap_ends fun b hb => ?_
  obtain ⟨c, t, w, -, hwalk, -, -, htargets⟩ := (h b hb).walked
  rw [← endEdges_backs e hwalk, ← htargets, backs, List.countP_map, List.countP_map]
  rfl

/-- The loops of the range are the branches back to or before themselves. -/
def branchBack (d : DecodedInstr) : Bool :=
  (d.flowControl = .conditionalBranch || d.flowControl = .unconditionalBranch) && d.nearBranchTarget ≤ d.ip

theorem rangeLoops_eq {e : Nat} {f : Function} (h : ∀ b ∈ f.blocks, Discovery.DecodedBlock inp e b) :
    (f.blocks.flatMap (span inp)).countP branchBack = f.blocks.countP fun b => (span inp b).getLast?.any branchBack := by
  refine countP_flatMap_ends fun b hb => ?_
  obtain ⟨c, t, w, -, hwalk, -, -, -⟩ := (h b hb).walked
  refine countP_walked hwalk fun d hd hnext => ?_
  simp [branchBack, hnext] at hd

/-- The block ends in a branch with an edge to or before its start. -/
def endsInLoop (inp : Input) (b : BasicBlock) : Bool :=
  (span inp b).getLast?.any fun d => (d.flowControl = .conditionalBranch || d.flowControl = .unconditionalBranch) &&
    isExecutableTarget inp d.nearBranchTarget && d.nearBranchTarget ≤ b.entryVa

theorem endsInEdgeBack_eq (b : BasicBlock) : (span inp b).getLast?.any (edgeBack inp b.entryVa) =
    (endsInLoop inp b || endsInCallBack inp b) ∧ ¬ (endsInLoop inp b ∧ endsInCallBack inp b) := by
  rw [endsInLoop, endsInCallBack]
  cases (span inp b).getLast? with
  | none => simp
  | some d =>
    simp only [Option.any_some, edgeBack]
    cases d.flowControl <;> cases isExecutableTarget inp d.nearBranchTarget <;> simp

theorem endsInBranch_eq (b : BasicBlock) : (span inp b).getLast?.any branchBack =
    (endsInLoop inp b || endsInBranchBack inp b) ∧ ¬ (endsInLoop inp b ∧ endsInBranchBack inp b) := by
  rw [endsInLoop, endsInBranchBack]
  cases hlast : (span inp b).getLast? with
  | none => simp
  | some d =>
    have hle : b.entryVa ≤ d.ip := (CodeIndex.mem_sweep (List.mem_of_getLast? hlast)).1
    simp only [Option.any_some, branchBack]
    by_cases htarget : d.nearBranchTarget ≤ b.entryVa
    · have hback : d.nearBranchTarget ≤ d.ip := htarget.trans hle
      cases d.flowControl <;> cases isExecutableTarget inp d.nearBranchTarget <;> simp [htarget, hback]
    · cases d.flowControl <;> cases isExecutableTarget inp d.nearBranchTarget <;> simp [htarget]

/-- Both count the same loops exactly when there are as many calls back as branches back without an edge. -/
theorem loops_eq_iff {e : Nat} {f : Function} (h : ∀ b ∈ f.blocks, Discovery.DecodedBlock inp e b) :
    buildLoops f = (f.blocks.flatMap (span inp)).countP branchBack ↔
      f.blocks.countP (endsInCallBack inp) = f.blocks.countP (endsInBranchBack inp) := by
  rw [buildLoops_eq h, rangeLoops_eq h, countP_either fun b _ => endsInEdgeBack_eq b,
    countP_either fun b _ => endsInBranch_eq b]
  exact Nat.add_left_cancel_iff

end Loops

/-! ## The same instructions -/

section Instructions
variable {inp : Input} {decode : Nat → List UInt8 → Nat → Insn} {bitness : Nat} {image : List UInt8}
  {detail : DecodedInstr → Detail} {s : Section} {f : Function} {stop : Nat}

/-- The instructions follow each other through the range. -/
def Consecutive : Nat → List DecodedInstr → Nat → Prop
  | lo, [], hi => lo = hi
  | lo, d :: ds, hi => d.ip = lo ∧ Consecutive d.nextIp ds hi

theorem Consecutive.append {lo mid hi : Nat} {ds ds' : List DecodedInstr} (h : Consecutive lo ds mid) (h' : Consecutive mid ds' hi) :
    Consecutive lo (ds ++ ds') hi := by
  induction ds generalizing lo with
  | nil =>
    cases h
    exact h'
  | cons d ds ih => exact ⟨h.1, ih h.2⟩

theorem Consecutive.le {lo hi : Nat} {ds : List DecodedInstr} (h : Consecutive lo ds hi) : lo ≤ hi := by
  induction ds generalizing lo with
  | nil => exact Nat.le_of_eq h
  | cons d ds ih =>
    have hrest := ih h.2
    have hlt := d.ip_lt_nextIp
    have hip := h.1
    omega

/-- A block goes from its start to its end. -/
theorem consecutive_span (b : BasicBlock) : Consecutive b.entryVa (span inp b) (blockEnd inp b) := by
  have hsweep (va n : Nat) : Consecutive va (inp.code.sweep va n)
      (((inp.code.sweep va n).getLast?.map DecodedInstr.nextIp).getD va) := by
    induction n generalizing va with
    | zero => rfl
    | succ n ih =>
      cases hat : inp.code.atVa va with
      | none =>
        have hempty : inp.code.sweep va (n + 1) = [] := by simp [CodeIndex.sweep, hat]
        rw [hempty]
        rfl
      | some d =>
        rw [CodeIndex.sweep_succ hat]
        have hrest := ih d.nextIp
        refine ⟨CodeIndex.atVa_ip hat, ?_⟩
        cases htail : inp.code.sweep d.nextIp n with
        | nil => rfl
        | cons d' ds =>
          rw [htail] at hrest
          rw [List.getLast?_cons_cons]
          cases hlast : (d' :: ds).getLast? with
          | none => exact absurd (List.getLast?_eq_none_iff.mp hlast) (List.cons_ne_nil _ _)
          | some last =>
            rw [hlast] at hrest
            exact hrest
  exact hsweep b.entryVa b.instrCount

/-- Blocks in the order of their starts that share no address and make up a range follow each other. -/
theorem consecutive_blocks {blocks : List BasicBlock} (hordered : KeyedList.Ordered BasicBlock.entryVa blocks)
    (hdisjoint : blocks.Pairwise fun b b' => ∀ v,
      ¬ ((b.entryVa ≤ v ∧ v < blockEnd inp b) ∧ b'.entryVa ≤ v ∧ v < blockEnd inp b'))
    {lo hi : Nat} (hle : lo ≤ hi)
    (hunion : ∀ v, (∃ b ∈ blocks, b.entryVa ≤ v ∧ v < blockEnd inp b) ↔ lo ≤ v ∧ v < hi) :
    Consecutive lo (blocks.flatMap (span inp)) hi := by
  induction blocks generalizing lo with
  | nil =>
    have hnone : ¬ (lo ≤ lo ∧ lo < hi) := fun h => by
      obtain ⟨b, hb, -⟩ := (hunion lo).mpr h
      cases hb
    change lo = hi
    omega
  | cons b blocks ih =>
    obtain ⟨hbehind, hordered⟩ := List.pairwise_cons.mp hordered
    obtain ⟨hapart, hdisjoint⟩ := List.pairwise_cons.mp hdisjoint
    have hspan := @consecutive_span inp b
    have hlength := hspan.le
    rw [List.flatMap_cons]
    by_cases hempty : b.entryVa = blockEnd inp b
    · -- A block without instructions has no address of the range.
      have hnil : span inp b = [] := by
        cases hcase : span inp b with
        | nil => rfl
        | cons d ds =>
          rw [hcase] at hspan
          have hrest := hspan.2.le
          have hlt := d.ip_lt_nextIp
          have hip := hspan.1
          omega
      rw [hnil]
      refine ih hordered hdisjoint hle fun v => ?_
      rw [← hunion v]
      refine ⟨fun ⟨b', hb', hv⟩ => ⟨b', List.mem_cons_of_mem b hb', hv⟩, fun ⟨b', hb', hv⟩ => ?_⟩
      rcases List.mem_cons.mp hb' with rfl | hb'
      · omega
      · exact ⟨b', hb', hv⟩
    · have hstart := (hunion b.entryVa).mp ⟨b, List.mem_cons_self, Nat.le_refl _, by omega⟩
      have hend := (hunion (blockEnd inp b - 1)).mp ⟨b, List.mem_cons_self, by omega, by omega⟩
      have hlo : lo = b.entryVa := by
        by_contra hne
        obtain ⟨b', hb', hv, -⟩ := (hunion lo).mpr ⟨Nat.le_refl lo, by omega⟩
        rcases List.mem_cons.mp hb' with rfl | hb'
        · omega
        · have hlt := hbehind b' hb'
          omega
      subst hlo
      refine hspan.append (ih hordered hdisjoint (by omega) fun v => ⟨fun ⟨b', hb', hv⟩ => ?_, fun hv => ?_⟩)
      · have hin := (hunion v).mp ⟨b', List.mem_cons_of_mem b hb', hv⟩
        have hout := hapart b' hb' v
        omega
      · obtain ⟨b', hb', hv'⟩ := (hunion v).mpr ⟨by omega, hv.2⟩
        rcases List.mem_cons.mp hb' with rfl | hb'
        · omega
        · exact ⟨b', hb', hv'⟩

/-- The bytes of the range give the same instructions. -/
theorem decodeAll_eq (hlocal : Local decode) {lo hi base offset : Nat} {ds : List DecodedInstr} (hds : Consecutive lo ds hi)
    (hbase : base ≤ lo) (hfits : offset + (hi - base) ≤ image.length)
    (hdecoded : ∀ d ∈ ds, insnOf detail d = decode bitness (image.drop (offset + (d.ip - base))) d.ip) :
    decodeAll decode bitness ((image.drop (offset + (lo - base))).take (hi - lo)) lo =
      ds.map fun d => (d.ip, insnOf detail d) := by
  induction ds generalizing lo with
  | nil =>
    cases hds
    rw [Nat.sub_self]
    rfl
  | cons d ds ih =>
    obtain ⟨rfl, hrest⟩ := hds
    have hle := hrest.le
    have hlt := d.ip_lt_nextIp
    have hnext : d.nextIp = d.ip + d.len := rfl
    have hsame : decode bitness ((image.drop (offset + (d.ip - base))).take (hi - d.ip)) d.ip = insnOf detail d := by
      rw [hdecoded d List.mem_cons_self]
      refine hlocal bitness _ d.ip _ ?_
      rw [← hdecoded d List.mem_cons_self]
      change d.len ≤ hi - d.ip
      omega
    have hlen : (insnOf detail d).len = d.len := rfl
    have hpos := d.len_pos
    have hsome : (image.drop (offset + (d.ip - base))).take (hi - d.ip) ≠ [] := by
      rw [← List.length_pos_iff, List.length_take, List.length_drop]
      omega
    have hwrap : (d.ip + d.len) % 2 ^ 64 = d.nextIp := Nat.mod_eq_of_lt d.end_lt
    have htail : ((image.drop (offset + (d.ip - base))).take (hi - d.ip)).drop d.len =
        (image.drop (offset + (d.nextIp - base))).take (hi - d.nextIp) := by
      have hdrop : offset + (d.ip - base) + d.len = offset + (d.nextIp - base) := by omega
      have htake : hi - d.ip - d.len = hi - d.nextIp := by omega
      rw [List.drop_take, List.drop_drop, hdrop, htake]
    rw [decodeAll_of_pos hsome (by rw [hsame, hlen]; omega), hsame, hlen, htail, hwrap,
      ih hrest (by omega) fun d' hd' => hdecoded d' (List.mem_cons_of_mem d hd')]
    rfl

theorem Consecutive.lt {lo hi : Nat} {ds : List DecodedInstr} (h : Consecutive lo ds hi) : ∀ d ∈ ds, d.ip < hi := by
  induction ds generalizing lo with
  | nil => exact fun d hd => absurd hd List.not_mem_nil
  | cons d ds ih =>
    intro d' hd'
    rcases List.mem_cons.mp hd' with rfl | hd'
    · exact Nat.lt_of_lt_of_le d'.ip_lt_nextIp h.2.le
    · exact ih h.2 d' hd'

/-- The blocks of a tiled function follow each other through the range. -/
theorem Tiled.consecutive (h : Tiled decode bitness image inp detail s f stop) (hf : f ∈ discover inp) :
    Consecutive f.entryVa (f.blocks.flatMap (span inp)) stop :=
  consecutive_blocks (Discovery.blocks_ordered_of_mem hf) h.disjoint (Nat.le_of_lt h.nonempty) h.union

/-- The sketch of the range, from the instructions of the blocks. -/
theorem Tiled.sketchRange_eq (h : Tiled decode bitness image inp detail s f stop) (hf : f ∈ discover inp)
    (hsized : Loader.Sized inp.space) (hlocal : Local decode) :
    sketchRange decode bitness image inp.space f.entryVa stop = .some
      ((rangeFacts ((f.blocks.flatMap (span inp)).map fun d => (d.ip, insnOf detail d))).toSketch f.entryVa (stop - f.entryVa)
        (1 + (rangeFacts ((f.blocks.flatMap (span inp)).map fun d => (d.ip, insnOf detail d))).conditionalBranches +
          (rangeFacts ((f.blocks.flatMap (span inp)).map fun d => (d.ip, insnOf detail d))).loops)) := by
  have hds := h.consecutive hf
  have hne := h.nonempty
  have hinFile := h.inFile
  obtain ⟨-, hcontains⟩ := Loader.sectionAtVa_contains h.ofSection
  obtain ⟨-, -, haddr, hsize⟩ := hsized.fields s (Loader.sectionAtVa_contains h.ofSection).1
  have hcontained := Loader.sectionContainsVa_eq_true.mp hcontains
  have hoffset : Loader.sectionVaToOffset s inp.space.imageBase f.entryVa =
      .some (s.rawAddr + (f.entryVa - inp.space.imageBase - s.vaddr)) :=
    (Loader.sectionVaToOffset_eq_some haddr hsize).mpr ⟨hcontains, by omega, rfl⟩
  have hbytes : rangeBytes image inp.space f.entryVa stop = .some
      (((image.take (s.rawAddr + s.rawSize)).drop (s.rawAddr + (f.entryVa - (inp.space.imageBase + s.vaddr)))).take
        (stop - f.entryVa)) := by
    refine (rangeBytes_eq_some hsized).mpr ⟨s, _, h.ofSection, hoffset, by omega, ?_⟩
    rw [Nat.sub_sub, List.drop_take, List.take_take]
    congr 1
    omega
  have hfits : s.rawAddr + (stop - (inp.space.imageBase + s.vaddr)) ≤ (image.take (s.rawAddr + s.rawSize)).length := by
    rw [List.length_take]
    omega
  have hdecoded : ∀ d ∈ f.blocks.flatMap (span inp), insnOf detail d = decode bitness
      ((image.take (s.rawAddr + s.rawSize)).drop (s.rawAddr + (d.ip - (inp.space.imageBase + s.vaddr)))) d.ip := by
    intro d hd
    obtain ⟨b, hb, hd⟩ := List.mem_flatMap.mp hd
    exact h.decoded b hb d hd
  have hall := decodeAll_eq hlocal hds hcontained.2.1 hfits hdecoded
  have hwhile : ((f.blocks.flatMap (span inp)).map fun d => (d.ip, insnOf detail d)).takeWhile (fun d => d.1 < stop) =
      (f.blocks.flatMap (span inp)).map fun d => (d.ip, insnOf detail d) := by
    rw [List.takeWhile_eq_self_iff]
    intro p hp
    obtain ⟨d, hd, rfl⟩ := List.mem_map.mp hp
    exact decide_eq_true (hds.lt d hd)
  have hcount : (rangeFacts ((f.blocks.flatMap (span inp)).map fun d => (d.ip, insnOf detail d))).instructions ≠ 0 := by
    rw [rangeFacts_instructions, List.length_map]
    intro hzero
    rw [List.length_eq_zero_iff.mp hzero] at hds
    exact Nat.ne_of_lt hne hds
  rw [sketchRange, if_neg (Nat.not_le.mpr hne), hbytes, Outcome.some_bind, hall, hwhile]
  dsimp only
  rw [if_neg hcount]
  rfl

end Instructions

/-! ## The same facts -/

section Counts

/-- The facts that both loops count alike. -/
def Facts.common (f : Facts) : Facts := { f with loops := 0, calls := ∅ }

/-- The counters are the fields of a sketch. -/
theorem Facts.counts_eq {f f' : Facts} (hinstructions : f.instructions = f'.instructions)
    (hbranches : f.conditionalBranches = f'.conditionalBranches) (hreturns : f.returns = f'.returns)
    (hmemory : f.memoryOps = f'.memoryOps) (hbytes : f.byteMemoryOps = f'.byteMemoryOps)
    (hwrites : f.globalWrites = f'.globalWrites) (hadds : f.adds = f'.adds) (hsubtracts : f.subtracts = f'.subtracts)
    (hmultiplies : f.multiplies = f'.multiplies) (hxors : f.xors = f'.xors) (hzero : f.zeroTests = f'.zeroTests) :
    ({ f.common with constants := ∅ } : Facts) = { f'.common with constants := ∅ } := by
  rw [Facts.common, Facts.common, hinstructions, hbranches, hreturns, hmemory, hbytes, hwrites, hadds, hsubtracts, hmultiplies,
    hxors, hzero]

theorem common_foldl {ι : Type} {step : Facts → ι → Facts} {insn : ι → Insn}
    (hstep : ∀ f d, (step f d).common = f.common.count (insn d)) (ds : List ι) (f : Facts) :
    (ds.foldl step f).common = (ds.map insn).foldl Facts.count f.common := by
  induction ds generalizing f with
  | nil => rfl
  | cons d ds ih => rw [List.foldl_cons, ih, hstep, List.map_cons, List.foldl_cons]

theorem rangeFacts_common (ds : List (Nat × Insn)) :
    (rangeFacts ds).common = (ds.map Prod.snd).foldl Facts.count Facts.zero :=
  common_foldl (fun _ _ => rfl) ds Facts.zero

theorem buildStep_common (is : List Insn) :
    (is.foldl buildStep Facts.zero).common = is.foldl Facts.count Facts.zero := by
  have hfold := @common_foldl Insn buildStep (fun i => i) (fun _ _ => rfl) is Facts.zero
  rw [List.map_id'] at hfold
  exact hfold

theorem rangeFacts_loops (ds : List (Nat × Insn)) : (rangeFacts ds).loops = ds.countP fun d =>
    (d.2.flowControl = .conditionalBranch || d.2.flowControl = .unconditionalBranch) && d.2.nearBranchTarget ≤ d.1 := by
  have hfold (f : Facts) : (ds.foldl rangeStep f).loops = f.loops + ds.countP fun d =>
      (d.2.flowControl = .conditionalBranch || d.2.flowControl = .unconditionalBranch) && d.2.nearBranchTarget ≤ d.1 := by
    induction ds generalizing f with
    | nil => rfl
    | cons d ds ih =>
      rw [List.foldl_cons, ih, List.countP_cons, rangeStep]
      dsimp only
      rw [bump]
      split <;> omega
  exact (hfold Facts.zero).trans (Nat.zero_add _)

theorem mem_rangeFacts_calls (ds : List (Nat × Insn)) (va : Nat) :
    va ∈ (rangeFacts ds).calls ↔ ∃ d ∈ ds, d.2.flowControl = .call ∧ d.2.nearBranchTarget = va ∧ va ≠ 0 := by
  have hfold (f : Facts) : va ∈ (ds.foldl rangeStep f).calls ↔
      va ∈ f.calls ∨ ∃ d ∈ ds, d.2.flowControl = .call ∧ d.2.nearBranchTarget = va ∧ va ≠ 0 := by
    induction ds generalizing f with
    | nil => simp
    | cons d ds ih =>
      rw [List.foldl_cons, ih, rangeStep]
      dsimp only
      split
      · rename_i hcall
        simp only [Finset.mem_insert, List.exists_mem_cons_iff]
        constructor
        · rintro ((rfl | hmem) | hrest)
          · exact .inr (.inl ⟨hcall.1, rfl, hcall.2⟩)
          · exact .inl hmem
          · exact .inr (.inr hrest)
        · rintro (hmem | ⟨-, rfl, -⟩ | hrest)
          · exact .inl (.inr hmem)
          · exact .inl (.inl rfl)
          · exact .inr hrest
      · rename_i hother
        simp only [List.exists_mem_cons_iff]
        refine or_congr_right (iff_of_eq ?_)
        rw [eq_iff_iff, or_iff_right]
        rintro ⟨hcall, rfl, hne⟩
        exact hother ⟨hcall, hne⟩
  exact (hfold Facts.zero).trans (or_iff_right (Finset.notMem_empty va))

theorem mem_buildStep_calls (is : List Insn) (va : Nat) :
    va ∈ (is.foldl buildStep Facts.zero).calls ↔ ∃ i ∈ is, i.flowControl = .call ∧ i.nearBranchTarget = va := by
  have hfold (f : Facts) : va ∈ (is.foldl buildStep f).calls ↔
      va ∈ f.calls ∨ ∃ i ∈ is, i.flowControl = .call ∧ i.nearBranchTarget = va := by
    induction is generalizing f with
    | nil => simp
    | cons i is ih =>
      rw [List.foldl_cons, ih, buildStep]
      dsimp only
      split
      · rename_i hcall
        simp only [Finset.mem_insert, List.exists_mem_cons_iff, hcall, true_and, or_assoc, or_left_comm, eq_comm]
      · rename_i hother
        simp only [List.exists_mem_cons_iff, hother, false_and, false_or]
  exact (hfold Facts.zero).trans (or_iff_right (Finset.notMem_empty va))

theorem mem_motifIf {cond : Bool} {name motif : String} : motif ∈ motifIf cond name ↔ cond = true ∧ motif = name := by
  rw [motifIf]
  split
  · rename_i h
    simp [h]
  · rename_i h
    simp [h]

/-- The motifs of leaves do not depend on whether there are at most 24 blocks, the other one only on this. -/
theorem motifs_leaf (f : Facts) (few16 few24 few24' : Bool) {motif : String} (h : motif ≠ "conditional_call_pipeline") :
    motif ∈ motifs f few16 few24 ↔ motif ∈ motifs f few16 few24' := by
  simp only [motifs, List.mem_append, mem_motifIf, h, and_false]

theorem motifs_pipeline (f : Facts) (few16 few16' few24 : Bool) :
    "conditional_call_pipeline" ∈ motifs f few16 few24 ↔ "conditional_call_pipeline" ∈ motifs f few16' few24 := by
  simp only [motifs, List.mem_append, mem_motifIf, String.reduceEq, and_false, false_or, or_false, and_true]

/-- Two sketches agree exactly when the counters, the listed constants, the loops and the calls do. -/
theorem toSketch_agree_iff (f f' : Facts) (va size blocks va' size' blocks' : Nat) :
    SketchesAgree (f.toSketch va size blocks) (f'.toSketch va' size' blocks') ↔
    ({ f.common with constants := ∅ } = { f'.common with constants := ∅ } ∧
      (f.constants.sort (· ≤ ·)).take 16 = (f'.constants.sort (· ≤ ·)).take 16) ∧ f.loops = f'.loops ∧ f.calls = f'.calls := by
  constructor
  · intro h
    have hsort : f.calls.sort (· ≤ ·) = f'.calls.sort (· ≤ ·) := h.directCalls
    refine ⟨⟨?_, h.constants⟩, h.loops, ?_⟩
    · exact Facts.counts_eq h.instructions h.conditionalBranches h.returns h.memoryOps h.byteMemoryOps h.globalWrites h.adds
        h.subtracts h.multiplies h.xors h.zeroTests
    · rw [← Finset.sort_toFinset f.calls (· ≤ ·), hsort, Finset.sort_toFinset]
  · rintro ⟨⟨hcommon, hconstants⟩, hloops, hcalls⟩
    have hself (g : Facts) : g =
        { { g.common with constants := ∅ } with loops := g.loops, calls := g.calls, constants := g.constants } := rfl
    have hfacts : f = { f' with constants := f.constants } := by
      rw [hself f, hself f', hcommon, hloops, hcalls]
    refine ⟨?_, ?_, ?_, ?_, ?_, ?_, ?_, ?_, ?_, ?_, ?_, ?_, ?_, hconstants, ?_, ?_⟩ <;> rw [hfacts] <;> try rfl
    · intro hfew motif hmotif
      have hfew : blocks ≤ 16 ↔ blocks' ≤ 16 := hfew
      change motif ∈ motifs f' (blocks ≤ 16) (blocks ≤ 24) ↔ motif ∈ motifs f' (blocks' ≤ 16) (blocks' ≤ 24)
      rw [decide_eq_decide.mpr hfew]
      exact motifs_leaf f' _ _ _ hmotif
    · intro hfew
      have hfew : blocks ≤ 24 ↔ blocks' ≤ 24 := hfew
      change "conditional_call_pipeline" ∈ motifs f' (blocks ≤ 16) (blocks ≤ 24) ↔
        "conditional_call_pipeline" ∈ motifs f' (blocks' ≤ 16) (blocks' ≤ 24)
      rw [decide_eq_decide.mpr hfew]
      exact motifs_pipeline f' _ _ _

end Counts

/-! ## The two builders -/

section Builders
variable {inp : Input} {decode : Nat → List UInt8 → Nat → Insn} {bitness : Nat} {image : List UInt8}
  {detail : DecodedInstr → Detail} {s : Section} {f : Function} {stop : Nat}

/-- Where no two entries of the index overlap, it has for the blocks just what they were decoded from. -/
theorem ownFacts_of_linear (hlinear : Linear inp.code) (hf : f ∈ discover inp) : OwnFacts inp detail f := by
  have hblocks : f.blocks.flatMap (blockInstrs inp.code) = f.blocks.flatMap (span inp) :=
    List.flatMap_congr fun b hb => blockInstrs_eq hlinear (Discovery.decoded_of_mem hf hb)
  refine ⟨?_, ?_, ?_⟩
  · rw [hblocks]
  · rw [hblocks]
  · intro va _
    rw [hblocks]

theorem calls_eq_iff (ws ds : List DecodedInstr) :
    ((ws.map (insnOf detail)).foldl buildStep Facts.zero).calls = (rangeFacts (ds.map fun d => (d.ip, insnOf detail d))).calls ↔
    (∀ va, va ≠ 0 → ((∃ d ∈ ws, d.flowControl = .call ∧ d.nearBranchTarget = va) ↔
      ∃ d ∈ ds, d.flowControl = .call ∧ d.nearBranchTarget = va)) ∧
      ∀ d ∈ ws, d.flowControl = .call → d.nearBranchTarget ≠ 0 := by
  have hbuild (va : Nat) : va ∈ ((ws.map (insnOf detail)).foldl buildStep Facts.zero).calls ↔
      ∃ d ∈ ws, d.flowControl = .call ∧ d.nearBranchTarget = va := by
    simp only [mem_buildStep_calls, List.mem_map, exists_exists_and_eq_and, insnOf]
  have hrange (va : Nat) : va ∈ (rangeFacts (ds.map fun d => (d.ip, insnOf detail d))).calls ↔
      ∃ d ∈ ds, d.flowControl = .call ∧ d.nearBranchTarget = va ∧ va ≠ 0 := by
    simp only [mem_rangeFacts_calls, List.mem_map, exists_exists_and_eq_and, insnOf]
  rw [Finset.ext_iff]
  constructor
  · intro hsame
    refine ⟨fun va hne => ?_, fun d hd hcall hzero => ?_⟩
    · rw [← hbuild va, hsame va, hrange va]
      simp only [hne, ne_eq, not_false_eq_true, and_true]
    · obtain ⟨_, -, -, -, hne⟩ := (hrange 0).mp ((hsame 0).mp ((hbuild 0).mpr ⟨d, hd, hcall, hzero⟩))
      exact hne rfl
  · rintro ⟨hsame, hzero⟩ va
    rw [hbuild, hrange]
    by_cases hva : va = 0
    · subst hva
      constructor
      · rintro ⟨d, hd, hcall, htarget⟩
        exact absurd htarget (hzero d hd hcall)
      · rintro ⟨_, -, -, -, hne⟩
        exact absurd rfl hne
    · rw [hsame va hva]
      simp only [hva, ne_eq, not_false_eq_true, and_true]

theorem end_1006 : 0x1001 + 5 < 2 ^ 64 := by decide

theorem end_1007 : 0x1006 + 1 < 2 ^ 64 := by decide

/-- `ret`, `call $-1`, `ret` -/
def callBackImage : List UInt8 := [0xc3, 0xe8, 0xfa, 0xff, 0xff, 0xff, 0xc3]

/-- A call back over less than 256 bytes, a return, and one byte for anything else. -/
def callBackDecode : Nat → List UInt8 → Nat → Insn := fun _ bytes ip =>
  if bytes.head? = some 0xe8 then ⟨5, .call, ip + 5 + (bytes.getD 1 0).toNat - 256, .other, [], 0, .none⟩
  else if bytes.head? = some 0xc3 then ⟨1, .ret, 0, .other, [], 0, .none⟩
  else ⟨1, .next, 0, .other, [], 0, .none⟩

def callBackInstrs : List DecodedInstr :=
  [Discovery.flowInstr 0x1000 1 .ret 0 Nat.one_pos Discovery.end_1001,
   Discovery.flowInstr 0x1001 5 .call 0x1000 (Nat.succ_pos 4) end_1006,
   Discovery.flowInstr 0x1006 1 .ret 0 Nat.one_pos end_1007]

def callBackInput : Input :=
  { code := .ofList callBackInstrs, space := Discovery.textSpace, seeds := [0x1001], entryHints := [] }

def plainDetail (_ : DecodedInstr) : Detail := ⟨.other, [], 0, .none⟩

/-- The block of the callee. -/
def calleeBlock : BasicBlock := ⟨0x1000, 0x1000, 1, [⟨0, .ret⟩], []⟩

/-- The blocks of the caller; the edge of the call to an entry is a tail call's in the end. -/
def callerBlocks : List BasicBlock :=
  [⟨0x1001, 0x1001, 1, [⟨0x1006, .fallthrough⟩, ⟨0x1000, .tailCall⟩], []⟩,
   ⟨0x1006, 0x1006, 1, [⟨0, .ret⟩], [⟨0x1001, .fallthrough⟩]⟩]

theorem local_callBackDecode : Local callBackDecode := by
  intro bitness bytes ip n hlen
  cases bytes with
  | nil => rw [List.take_nil]
  | cons byte bytes =>
    have hpos : 1 ≤ n := by
      refine Nat.le_trans ?_ hlen
      rw [callBackDecode]
      split
      · exact Nat.le_add_left 1 4
      · split <;> exact Nat.le_refl 1
    obtain ⟨m, rfl⟩ := Nat.exists_eq_add_of_le' hpos
    rw [List.take_succ_cons, callBackDecode, callBackDecode, List.head?_cons, List.head?_cons]
    by_cases hcall : some byte = some 0xe8
    · rw [if_pos hcall, if_pos hcall]
      rw [callBackDecode, List.head?_cons, if_pos hcall] at hlen
      have hsecond : (byte :: bytes.take m).getD 1 0 = (byte :: bytes).getD 1 0 := by
        rw [List.getD_cons_succ, List.getD_cons_succ, List.getD_eq_getElem?_getD, List.getD_eq_getElem?_getD,
          List.getElem?_take_of_lt (by dsimp only at hlen; omega)]
      rw [hsecond]
    · rw [if_neg hcall, if_neg hcall]

theorem linear_callBack : Linear callBackInput.code := by
  change callBackInstrs.Pairwise fun d d' => d.nextIp ≤ d'.ip
  decide

theorem sized_callBack : Loader.Sized callBackInput.space := ⟨by decide, by decide⟩

theorem discover_callee : ∃ f ∈ discover callBackInput, f.entryVa = 0x1000 ∧ f.blocks = [calleeBlock] := by
  have hany : (discover callBackInput).any (fun f => f.entryVa = 0x1000 && f.blocks = [calleeBlock]) = true := by
    decide +kernel
  simpa using hany

theorem discover_caller : ∃ f ∈ discover callBackInput, f.entryVa = 0x1001 ∧ f.blocks = callerBlocks := by
  have hany : (discover callBackInput).any (fun f => f.entryVa = 0x1001 && f.blocks = callerBlocks) = true := by
    decide +kernel
  simpa using hany

theorem span_callee : span callBackInput calleeBlock = [Discovery.flowInstr 0x1000 1 .ret 0 Nat.one_pos Discovery.end_1001] := rfl

theorem span_caller : callerBlocks.flatMap (span callBackInput) =
    [Discovery.flowInstr 0x1001 5 .call 0x1000 (Nat.succ_pos 4) end_1006,
     Discovery.flowInstr 0x1006 1 .ret 0 Nat.one_pos end_1007] := rfl

theorem sectionAtVa_callBack (va : Nat) (hva : va = 0x1000 ∨ va = 0x1001) :
    Loader.sectionAtVa callBackInput.space va = .some ⟨0x1000, 0x1000, 0, 0x1000, 2 ^ 29⟩ := by
  refine Outcome.find_eq_some.mpr ⟨[], [], rfl, ?_, fun _ hy => absurd hy List.not_mem_nil⟩
  rcases hva with rfl | rfl
  · decide
  · decide

theorem bytes_callBack (n : Nat) : (callBackImage.take (0 + 0x1000)).drop (0 + n) = callBackImage.drop n := by
  rw [Nat.zero_add, Nat.zero_add, List.take_of_length_le (by decide)]

theorem tiled_callee {f : Function} (hentry : f.entryVa = 0x1000) (hblocks : f.blocks = [calleeBlock]) :
    Tiled callBackDecode 64 callBackImage callBackInput plainDetail ⟨0x1000, 0x1000, 0, 0x1000, 2 ^ 29⟩ f 0x1001 where
  disjoint := by
    rw [hblocks]
    exact List.pairwise_singleton _ _
  union va := by
    rw [hblocks, hentry]
    simp only [List.mem_singleton, exists_eq_left]
    exact Iff.rfl
  nonempty := by
    rw [hentry]
    decide
  ofSection := by
    rw [hentry]
    exact sectionAtVa_callBack _ (.inl rfl)
  inFile := by decide
  decoded := by
    rw [hblocks]
    intro b hb d hd
    rw [List.mem_singleton.mp hb, span_callee] at hd
    rw [List.mem_singleton.mp hd]
    change _ = callBackDecode 64 ((callBackImage.take (0 + 0x1000)).drop (0 + 0)) 0x1000
    rw [bytes_callBack]
    rfl

end Builders

end Sketch

end Windy
