import Windy.Lib.Dominance
import Windy.Decompiler.Ssa.Lower
import Windy.Decompiler.Ssa.Simplify

/- What re-pointing does to the bytes an operand reads (`decompiler/ssa/simplify.rs`,
   `decompiler/ssa/lower.rs`).

   A location is a whole register container, and an operation defines all of it, however few
   bytes it writes. A copy makes its result an alias of its input whatever its width, and a
   phi an alias of what all its arguments are aliases of.

   In a run each variable stands for what its container held when the variable was last
   defined. A copy writes the bytes it has and leaves the others as they were; a block is
   entered with its phis, each with the argument of the predecessor; any other operation may
   put anything into its result.

   What is proved:
     1. `comes_root`: the root of a variable is what it comes from through copies and through
        phis whose arguments all come from it.
     2. `repointed_agrees`: in a renamed function, if each copy on the way from a used variable
        to its root writes the bytes that the operand reads, from the same places, and no phi
        on the way stands at the entry, the operand reads the same bytes in both, in every run.
     3. `movAl_not_agrees`: behind a copy to AL the eight bytes of RAX are not those of RBX.

   Correspondence:
     `value_location`, `visit_reads`, `resolve_op` ↔ the same
     what `rename` sees to ↔ `Renamed`
     the operands behind the uses of an operation ↔ `operandUses` -/
namespace Windy.Decompiler.Widths

open Dominance
open Lower (registerContainerBase getOutput resolvePtr regBases)
open Simplify (flatOps find Aliasing aliasing copyStep phiStep phiRounds phiValue resolveVar SingleDefs)

/-! ## Operands -/

def valueLocation (instructionVa : Nat) (vn : Varnode) : Option Location :=
  match vn.space with
  | .register => some (.register (registerContainerBase vn.offset))
  | .unique => some (.unique instructionVa vn.offset vn.size)
  | .ram | .const => none

def visitReads : PcodeOp → List Varnode
  | .copy _ input | .cast _ input => [input]
  | .load _ ptr => [ptr]
  | .store ptr val => [ptr, val]
  | .branch dest | .branchInd dest | .call dest | .callInd dest | .ret dest => [dest]
  | .cbranch dest cond => [dest, cond]
  | .intAdd _ left right | .intSub _ left right | .intMult _ left right | .intAnd _ left right
  | .intOr _ left right | .intXor _ left right | .intEq _ left right | .intNotEq _ left right
  | .intLess _ left right | .intSLess _ left right => [left, right]
  | .callOther _ reads | .other _ reads => reads

/-- The locations of values; constants and memory have none. -/
def valueUses (instructionVa : Nat) (vns : List Varnode) : List Location := vns.filterMap (valueLocation instructionVa)

/-- The pointer of a load or a store is a use of its own only in a temporary. -/
def pointerUse (ptr : Varnode) : List Varnode := if ptr.space = .unique then [ptr] else []

/-- What an operation defines and uses, but for the inputs of a resolved call. -/
def resolveOp (instr : List PcodeOp) (instructionVa : Nat) : PcodeOp → Option Location × List Location
  | .store ptr val => (some (resolvePtr instr ptr), valueUses instructionVa (val :: pointerUse ptr))
  | .load out ptr => (valueLocation instructionVa out, resolvePtr instr ptr :: valueUses instructionVa (pointerUse ptr))
  | op => ((getOutput op).bind (valueLocation instructionVa), valueUses instructionVa (visitReads op))

/-- The inputs of a resolved call stand behind what it uses. -/
def addInputs (inputs uses : List Location) : List Location :=
  inputs.foldl (fun uses input => if input ∈ uses then uses else uses ++ [input]) uses

/-- The p-code of an instruction. -/
def instructionOps (ssa : SsaFunction) (va : Nat) : List PcodeOp :=
  (flatOps ssa).filterMap fun op =>
    match op.kind with
    | .pcode code => if op.va = va then some code else none
    | .phi _ _ => none

/-- The operations are where lowering puts them. -/
def Lowered (ssa : SsaFunction) : Prop :=
  ∃ callAbiInputs : Nat → List Location, ∀ op ∈ flatOps ssa, ∀ code, op.kind = .pcode code →
    let resolved := resolveOp (instructionOps ssa op.va) op.va code
    op.def?.map SsaVar.location = resolved.1 ∧
      op.uses.map SsaVar.location = if op.kind.isCall then addInputs (callAbiInputs op.va) resolved.2 else resolved.2

/-- The operands behind the uses of an operation, with none for the slot of a load. -/
def usedOperands : PcodeOp → List (Option Varnode)
  | .store ptr val => located (val :: pointerUse ptr)
  | .load _ ptr => none :: located (pointerUse ptr)
  | op => located (visitReads op)
where
  located (vns : List Varnode) : List (Option Varnode) :=
    (vns.filter fun vn => vn.space = .register || vn.space = .unique).map some

/-- The variables that are used for an operand of the p-code, each with its operand. -/
def operandUses (op : SsaOp) : List (SsaVar × Varnode) :=
  match op.kind with
  | .phi _ _ => []
  | .pcode code => (op.uses.zip (usedOperands code)).filterMap fun entry => entry.2.map (entry.1, ·)

/-- The place in its container where a varnode starts. -/
def start (vn : Varnode) : Nat :=
  match vn.space with
  | .register => vn.offset - registerContainerBase vn.offset
  | _ => 0

/-- The places in its container that a varnode takes up. -/
def Reads (vn : Varnode) (i : Nat) : Prop :=
  start vn ≤ i ∧ i < start vn + vn.size ∧
    (vn.space = .register → registerContainerBase vn.offset ∈ regBases → i < 8)

/-! ## Runs -/

/-- The bytes of a container by their places. -/
abbrev Contents := Nat → UInt8

structure Store where
  /-- What the container held when the variable was last defined. -/
  defined : SsaVar → Contents
  held : Location → Contents

def operandBytes (input : Varnode) (c : Contents) : Contents := fun i => if i < input.size then c (start input + i) else 0

/-- The bytes a varnode takes up are replaced, the others stay. -/
def overwrite (out : Varnode) (bytes c : Contents) : Contents := fun i =>
  if start out ≤ i ∧ i < start out + out.size then bytes (i - start out) else c i

def Store.define (s : Store) (v : SsaVar) (c : Contents) : Store where
  defined := Function.update s.defined v c
  held := Function.update s.held v.location c

@[simp] theorem Store.define_self (s : Store) (v : SsaVar) (c : Contents) : (s.define v c).defined v = c :=
  Function.update_self _ _ _

theorem Store.define_of_ne (s : Store) {v w : SsaVar} (hne : w ≠ v) (c : Contents) :
    (s.define v c).defined w = s.defined w := Function.update_of_ne hne _ _

/-- What an operation may do. A phi is taken where its block is entered. -/
def Runs (op : SsaOp) (s s' : Store) : Prop :=
  match op.kind with
  | .phi _ _ => s' = s
  | .pcode code =>
    match code, op.def?, op.uses.head? with
    | .copy out input, some d, some used =>
      s' = s.define d (overwrite out (operandBytes input (s.defined used)) (s.held d.location))
    | _, some d, _ => ∃ c, s'.defined = Function.update s.defined d c ∧ s'.held d.location = c
    | _, none, _ => s'.defined = s.defined

/-- A block is entered from a predecessor: each phi takes the argument of its slot. -/
structure Enters (block : SsaBlock) (slot : Nat) (s s' : Store) : Prop where
  taken : ∀ op ∈ block.ops, ∀ out args, op.kind = .phi out args → ∀ a, args[slot]? = some (some a) →
    s'.defined out = s.defined a
  others : ∀ v, (∀ op ∈ block.ops, ∀ args, op.kind ≠ .phi v args) → s'.defined v = s.defined v
  held_eq : s'.held = s.held

/-- A place in front of an operation of a block, or behind its last one. -/
abbrev Point := Nat × Nat

def entry (ssa : SsaFunction) : Point := (ssa.start, 0)

inductive Next (ssa : SsaFunction) : Point → Point → Prop
  | op {b i : Nat} {block : SsaBlock} {op : SsaOp} (hblock : ssa.blocks[b]? = some block)
      (hop : block.ops[i]? = some op) : Next ssa (b, i) (b, i + 1)
  | jump {b b' slot : Nat} {block block' : SsaBlock} (hblock : ssa.blocks[b]? = some block)
      (hnext : b' ∈ block.successorIds) (hblock' : ssa.blocks[b']? = some block')
      (hslot : block'.predecessorIds[slot]? = some b) : Next ssa (b, block.ops.length) (b', 0)

inductive Does (ssa : SsaFunction) : Point → Point → Store → Store → Prop
  | op {b i : Nat} {block : SsaBlock} {op : SsaOp} {s s' : Store} (hblock : ssa.blocks[b]? = some block)
      (hop : block.ops[i]? = some op) (hruns : Runs op s s') : Does ssa (b, i) (b, i + 1) s s'
  | jump {b b' slot : Nat} {block block' : SsaBlock} {s s' : Store} (hblock : ssa.blocks[b]? = some block)
      (hnext : b' ∈ block.successorIds) (hblock' : ssa.blocks[b']? = some block')
      (hslot : block'.predecessorIds[slot]? = some b) (henters : Enters block' slot s s') :
      Does ssa (b, block.ops.length) (b', 0) s s'

/-- The points that were come past, the last one first, and what is held then. Before anything is
run a variable stands for what its container holds. -/
inductive Exec (ssa : SsaFunction) : List Point → Store → Prop
  | start (held : Location → Contents) : Exec ssa [entry ssa] ⟨fun v => held v.location, held⟩
  | step {p q : Point} {past : List Point} {s s' : Store} (hexec : Exec ssa (p :: past) s)
      (hdoes : Does ssa p q s s') : Exec ssa (q :: p :: past) s'

/-! ## Renaming -/

/-- Where a variable has just been defined: behind its operation, or for a phi where its block is
entered. -/
inductive DefinedAt (ssa : SsaFunction) (v : SsaVar) : Point → Prop
  | phi {b : Nat} {block : SsaBlock} {op : SsaOp} {args : List (Option SsaVar)} (hblock : ssa.blocks[b]? = some block)
      (hop : op ∈ block.ops) (hkind : op.kind = .phi v args) : DefinedAt ssa v (b, 0)
  | op {b i : Nat} {block : SsaBlock} {op : SsaOp} {code : PcodeOp} (hblock : ssa.blocks[b]? = some block)
      (hop : block.ops[i]? = some op) (hkind : op.kind = .pcode code) (hdef : op.def? = some v) : DefinedAt ssa v (b, i + 1)

/-- The variable has been defined whenever this point is come to, if it is defined at all. -/
def Reached (ssa : SsaFunction) (v : SsaVar) (p : Point) : Prop :=
  ∀ d, DefinedAt ssa v d → ¬ Avoids (Next ssa) d (entry ssa) p

/-- What renaming sees to: a variable has one definition, which dominates its uses, and a phi has an
argument for each predecessor, whose definition dominates the end of the predecessor. -/
structure Renamed (ssa : SsaFunction) : Prop where
  single : SingleDefs ssa
  phi_def : ∀ op ∈ flatOps ssa, ∀ out args, op.kind = .phi out args → op.def? = some out
  uses_reached : ∀ b block i op, ssa.blocks[b]? = some block → block.ops[i]? = some op →
    ∀ v ∈ op.uses, Reached ssa v (b, i)
  args_length : ∀ block ∈ ssa.blocks, ∀ op ∈ block.ops, ∀ (out : SsaVar) (args : List (Option SsaVar)),
    op.kind = .phi out args → args.length = block.predecessorIds.length
  args_reached : ∀ block ∈ ssa.blocks, ∀ op ∈ block.ops, ∀ (out : SsaVar) (args : List (Option SsaVar)),
    op.kind = .phi out args → ∀ (slot p : Nat) (pred : SsaBlock) (a : SsaVar), block.predecessorIds[slot]? = some p →
      ssa.blocks[p]? = some pred → args[slot]? = some (some a) → Reached ssa a (p, pred.ops.length)

/-! ## Where a variable comes from -/

/-- The variable comes from `r` through copies, and through phis whose arguments all come from it,
each of them a good one. -/
inductive Comes (ssa : SsaFunction) (good : Nat → SsaOp → Prop) (r : SsaVar) : SsaVar → Prop
  | root : Comes ssa good r r
  | copy {b : Nat} {block : SsaBlock} {op : SsaOp} {out input : Varnode} {v t : SsaVar}
      (hblock : ssa.blocks[b]? = some block) (hop : op ∈ block.ops) (hkind : op.kind = .pcode (.copy out input))
      (hdef : op.def? = some v) (hused : op.uses.head? = some t) (hgood : good b op) (h : Comes ssa good r t) :
      Comes ssa good r v
  | phi {b : Nat} {block : SsaBlock} {op : SsaOp} {v : SsaVar} {args : List (Option SsaVar)}
      (hblock : ssa.blocks[b]? = some block) (hop : op ∈ block.ops) (hkind : op.kind = .phi v args)
      (hargs : ∀ arg ∈ args, arg.isSome) (hgood : good b op) (h : ∀ a, some a ∈ args → Comes ssa good r a) :
      Comes ssa good r v

/-- The operation is one of those between the variable and `r`. -/
inductive OnWay (ssa : SsaFunction) (r : SsaVar) : SsaVar → Nat → SsaOp → Prop
  | here {b : Nat} {block : SsaBlock} {op : SsaOp} {v : SsaVar} (hblock : ssa.blocks[b]? = some block)
      (hop : op ∈ block.ops) (hdef : op.def? = some v) (hne : v ≠ r) : OnWay ssa r v b op
  | copy {op via : SsaOp} {out input : Varnode} {v t : SsaVar} {b : Nat} (hop : op ∈ flatOps ssa)
      (hkind : op.kind = .pcode (.copy out input)) (hdef : op.def? = some v) (hused : op.uses.head? = some t)
      (hne : v ≠ r) (h : OnWay ssa r t b via) : OnWay ssa r v b via
  | phi {op via : SsaOp} {args : List (Option SsaVar)} {v a : SsaVar} {b : Nat} (hop : op ∈ flatOps ssa)
      (hkind : op.kind = .phi v args) (hne : v ≠ r) (harg : some a ∈ args) (h : OnWay ssa r a b via) : OnWay ssa r v b via

/-- The copy writes this place of its container, from the same place of its input's. -/
def Carries (out input : Varnode) (i : Nat) : Prop :=
  start input = start out ∧ start out ≤ i ∧ i < start out + out.size ∧ i < start out + input.size

/-- A copy carries these places, and a phi does not stand at the entry. -/
def Passes (ssa : SsaFunction) (places : Nat → Prop) (b : Nat) (op : SsaOp) : Prop :=
  match op.kind with
  | .pcode (.copy out input) => ∀ i, places i → Carries out input i
  | .pcode _ => True
  | .phi _ _ => b ≠ ssa.start

/-- Where `simplify` re-points a use. -/
def root (ssa : SsaFunction) (v : SsaVar) : SsaVar := find (aliasing ssa).links v

/-- In every run each operand reads the same bytes in the root of the variable it is used for. -/
def Agrees (ssa : SsaFunction) : Prop :=
  ∀ b i past s, Exec ssa ((b, i) :: past) s → ∀ block op, ssa.blocks[b]? = some block → block.ops[i]? = some op →
    ∀ use ∈ operandUses op, ∀ place, Reads use.2 place → s.defined use.1 place = s.defined (root ssa use.1) place

/-! ## Roots -/

section Roots
variable {ssa : SsaFunction} {good good' : Nat → SsaOp → Prop} {r v w : SsaVar}

theorem mem_flatOps {op : SsaOp} :
    op ∈ flatOps ssa ↔ ∃ (b : Nat) (block : SsaBlock), ssa.blocks[b]? = some block ∧ op ∈ block.ops := by
  rw [Simplify.flatOps, List.mem_flatMap]
  constructor
  · rintro ⟨block, hblock, hop⟩
    obtain ⟨b, hb⟩ := List.mem_iff_getElem?.mp hblock
    exact ⟨b, block, hb, hop⟩
  · rintro ⟨b, block, hb, hop⟩
    exact ⟨block, List.mem_of_getElem? hb, hop⟩

theorem Comes.trans (h : Comes ssa good r w) (h' : Comes ssa good w v) : Comes ssa good r v := by
  induction h' with
  | root => exact h
  | copy hblock hop hkind hdef hused hgood _ ih => exact .copy hblock hop hkind hdef hused hgood ih
  | phi hblock hop hkind hargs hgood _ ih => exact .phi hblock hop hkind hargs hgood ih

/-- What is on the way of a variable is what it comes through. -/
theorem Comes.of_onWay (hphi : ∀ op ∈ flatOps ssa, ∀ out args, op.kind = .phi out args → op.def? = some out)
    (h : Comes ssa good' r v) (hall : ∀ b op, OnWay ssa r v b op → good b op) : Comes ssa good r v := by
  induction h with
  | root => exact .root
  | @copy b block op out input v t hblock hop hkind hdef hused _ _ ih =>
    by_cases hne : v = r
    · exact hne ▸ .root
    · refine .copy hblock hop hkind hdef hused (hall b op (.here hblock hop hdef hne)) (ih fun b' via hvia => ?_)
      exact hall b' via (.copy (mem_flatOps.mpr ⟨b, block, hblock, hop⟩) hkind hdef hused hne hvia)
  | @phi b block op v args hblock hop hkind hargs _ _ ih =>
    by_cases hne : v = r
    · exact hne ▸ .root
    · have hmem : op ∈ flatOps ssa := mem_flatOps.mpr ⟨b, block, hblock, hop⟩
      refine .phi hblock hop hkind hargs (hall b op (.here hblock hop (hphi op hmem v args hkind) hne)) ?_
      exact fun a ha => ih a ha fun b' via hvia => hall b' via (.phi hmem hkind hne ha hvia)

/-- What is known of the links while they are made: they lead from a root to what it comes from,
and the variables that were linked have the root of what they were linked for. -/
structure Linked (ssa : SsaFunction) (links : List (SsaVar × SsaVar)) : Prop where
  comes : ∀ v, Comes ssa (fun _ _ => True) (find links v) v
  idem : ∀ v, find links (find links v) = find links v
  copy : ∀ op ∈ flatOps ssa, ∀ out input v t, op.kind = .pcode (.copy out input) → op.def? = some v →
    op.uses.head? = some t → find links v = v ∨ find links v = find links t
  phi : ∀ op ∈ flatOps ssa, ∀ out args, op.kind = .phi out args →
    find links out = out ∨ ∀ a, some a ∈ args → find links a = find links out

theorem linked_nil : Linked ssa [] where
  comes := fun _ => .root
  idem := fun _ => rfl
  copy := fun _ _ _ _ _ _ _ _ _ => .inl rfl
  phi := fun _ _ _ _ _ => .inl rfl

theorem SingleDefs.op_unique (h : SingleDefs ssa) {op op' : SsaOp} (hop : op ∈ flatOps ssa) (hop' : op' ∈ flatOps ssa)
    (hdef : op.def? = some v) (hdef' : op'.def? = some v) : op = op' := by
  obtain ⟨i, hi⟩ := List.mem_iff_getElem?.mp hop
  obtain ⟨j, hj⟩ := List.mem_iff_getElem?.mp hop'
  obtain rfl := h.index_unique hi hj hdef hdef'
  exact Option.some.inj (hi.symm.trans hj)

variable {links : List (SsaVar × SsaVar)}

theorem find_cons (d t v : SsaVar) : find ((d, t) :: links) v = if find links v = d then t else find links v := rfl

/-- Variables with one root keep one root. -/
theorem find_cons_congr (l : SsaVar × SsaVar) (h : find links v = find links w) : find (l :: links) v = find (l :: links) w := by
  simp only [Simplify.find, h]

/-- A link from a variable that is its own root to the root of something else. -/
theorem Linked.cons (h : Linked ssa links) {d t : SsaVar} (hd : find links d = d) (ht : find links t = t) (hne : d ≠ t)
    (hcomes : Comes ssa (fun _ _ => True) t d)
    (hcopy : ∀ op ∈ flatOps ssa, ∀ out input u, op.kind = .pcode (.copy out input) → op.def? = some d →
      op.uses.head? = some u → find links u = t)
    (hphi : ∀ op ∈ flatOps ssa, ∀ args, op.kind = .phi d args → ∀ a, some a ∈ args → find links a = t) :
    Linked ssa ((d, t) :: links) := by
  have hself : find ((d, t) :: links) d = t := by rw [find_cons, if_pos hd]
  have hroot : ∀ {u}, find links u = t → find ((d, t) :: links) u = t := by
    intro u hu
    rw [find_cons, hu, if_neg (Ne.symm hne)]
  have hold : ∀ {v}, v ≠ d → find links v = v → find ((d, t) :: links) v = v := by
    intro v hv hfind
    rw [find_cons, hfind, if_neg hv]
  constructor
  · intro v
    rw [find_cons]
    split
    next hv => exact hcomes.trans (hv ▸ h.comes v)
    next => exact h.comes v
  · intro v
    by_cases hv : find links v = d
    · rw [find_cons d t v, if_pos hv]
      exact hroot ht
    · rw [find_cons d t v, if_neg hv]
      exact hold hv (h.idem v)
  · intro op hop out input v u hkind hdef hused
    by_cases hv : v = d
    · rw [hv] at hdef ⊢
      exact .inr (hself.trans (hroot (hcopy op hop out input u hkind hdef hused)).symm)
    · rcases h.copy op hop out input v u hkind hdef hused with hfind | hfind
      · exact .inl (hold hv hfind)
      · exact .inr (find_cons_congr _ hfind)
  · intro op hop out args hkind
    by_cases hout : out = d
    · rw [hout] at hkind ⊢
      exact .inr fun a ha => (hroot (hphi op hop args hkind a ha)).trans hself.symm
    · rcases h.phi op hop out args hkind with hfind | hfind
      · exact .inl (hold hout hfind)
      · exact .inr fun a ha => find_cons_congr _ (hfind a ha)

theorem mem_of_mapM_resolveVar {a : Aliasing} {args : List (Option SsaVar)} {values : List Simplify.ResolvedArg}
    (h : args.mapM (fun arg => arg.map (resolveVar a)) = some values) :
    (args = [] → values = []) ∧ ∀ arg ∈ args, ∃ v, arg = some v ∧ resolveVar a v ∈ values := by
  induction args generalizing values with
  | nil =>
    obtain rfl : values = [] := by simpa using h.symm
    exact ⟨fun _ => rfl, fun _ harg => absurd harg List.not_mem_nil⟩
  | cons arg args ih =>
    rw [List.mapM_cons] at h
    obtain ⟨value, hvalue, hrest⟩ := Option.bind_eq_some_iff.mp h
    obtain ⟨values', hvalues, heq⟩ := Option.bind_eq_some_iff.mp hrest
    obtain rfl : value :: values' = values := Option.some.inj heq
    obtain ⟨v, rfl, rfl⟩ := Option.map_eq_some_iff.mp hvalue
    refine ⟨fun hnil => absurd hnil (List.cons_ne_nil _ _), fun arg harg => ?_⟩
    rcases List.mem_cons.mp harg with rfl | harg
    · exact ⟨v, rfl, List.mem_cons_self⟩
    · obtain ⟨w, heq, hmem⟩ := (ih hvalues).2 arg harg
      exact ⟨w, heq, List.mem_cons_of_mem _ hmem⟩

theorem find_of_resolveVar {a : Aliasing} {t : SsaVar} (h : resolveVar a v = .var t) : find a.links v = t := by
  simp only [Simplify.resolveVar] at h
  split at h
  · cases h
  · exact Simplify.ResolvedArg.var.inj h

/-- The arguments of a phi that has a variable's value are defined and have that root. -/
theorem phiValue_var {a : Aliasing} {args : List (Option SsaVar)} {t : SsaVar} (h : phiValue a args = some (.var t)) :
    args ≠ [] ∧ ∀ arg ∈ args, ∃ v, arg = some v ∧ find a.links v = t := by
  unfold Simplify.phiValue at h
  split at h
  next first rest hvalues =>
    split at h
    next hall =>
      obtain rfl := Option.some.inj h
      obtain ⟨hnil, hmem⟩ := mem_of_mapM_resolveVar hvalues
      refine ⟨fun hempty => List.cons_ne_nil _ _ (hnil hempty), fun arg harg => ?_⟩
      obtain ⟨v, rfl, hv⟩ := hmem arg harg
      refine ⟨v, rfl, find_of_resolveVar ?_⟩
      rcases List.mem_cons.mp hv with heq | hv
      · exact heq
      · simpa using List.all_eq_true.mp hall _ hv
    next => cases h
  next => cases h

section Passes
variable (hsingle : SingleDefs ssa)
  (hphiDef : ∀ op ∈ flatOps ssa, ∀ out args, op.kind = .phi out args → op.def? = some out)
include hsingle hphiDef

theorem linked_copyStep {work : List SsaOp} {a : Aliasing} (h : Linked ssa a.links) {op : SsaOp} (hop : op ∈ flatOps ssa) :
    Linked ssa (copyStep work a op).links := by
  unfold Simplify.copyStep
  split
  next out input d hkind hdef =>
    split
    next => exact h
    next =>
      split
      next => exact h
      next t hused =>
        dsimp only
        split
        next => exact h
        next hne =>
          -- the copy has not been linked before, or both sides would have one root
          have hd : find a.links d = d := (h.copy op hop out input d t hkind hdef hused).resolve_right hne
          rw [hd] at hne ⊢
          obtain ⟨b, block, hblock, hmem⟩ := mem_flatOps.mp hop
          refine h.cons hd (h.idem t) hne (.copy hblock hmem hkind hdef hused trivial (h.comes t)) ?_ ?_
          · intro op' hop' out' input' u _ hdef' hused'
            obtain rfl := SingleDefs.op_unique hsingle hop hop' hdef hdef'
            rw [Option.some.inj (hused'.symm.trans hused)]
          · intro op' hop' args hkind'
            obtain rfl := SingleDefs.op_unique hsingle hop hop' hdef (hphiDef op' hop' d args hkind')
            rw [hkind] at hkind'
            cases hkind'
  next => exact h

theorem linked_phiStep {s : Aliasing × Bool} (h : Linked ssa s.1.links) {op : SsaOp} (hop : op ∈ flatOps ssa) :
    Linked ssa (phiStep s op).1.links := by
  unfold Simplify.phiStep
  split
  next out args hkind =>
    split
    next t hvalue =>
      dsimp only
      obtain ⟨hnonempty, hargs⟩ := phiValue_var hvalue
      have hsame : ∀ v, some v ∈ args → find s.1.links v = t := by
        intro v hv
        obtain ⟨v', heq, hfind⟩ := hargs _ hv
        rw [Option.some.inj heq]
        exact hfind
      obtain ⟨arg, harg⟩ := List.exists_mem_of_ne_nil args hnonempty
      obtain ⟨v, rfl, hv⟩ := hargs arg harg
      have ht : find s.1.links t = t := by rw [← hv, h.idem]
      rw [ht]
      split
      next => exact h
      next hne =>
        -- a phi that was linked before has the root of its arguments
        have hout : find s.1.links out = out := by
          rcases h.phi op hop out args hkind with hfind | hfind
          · exact hfind
          · exact absurd ((hfind v harg).symm.trans hv) hne
        rw [hout] at hne ⊢
        obtain ⟨b, block, hblock, hmem⟩ := mem_flatOps.mp hop
        have hcomes : Comes ssa (fun _ _ => True) t out := by
          refine .phi hblock hmem hkind (fun arg ha => ?_) trivial (fun v hv => hsame v hv ▸ h.comes v)
          obtain ⟨v, rfl, -⟩ := hargs arg ha
          rfl
        refine h.cons hout ht hne hcomes ?_ ?_
        · intro op' hop' out' input' u hkind' hdef'
          obtain rfl := SingleDefs.op_unique hsingle hop hop' (hphiDef op hop out args hkind) hdef'
          rw [hkind] at hkind'
          cases hkind'
        · intro op' hop' args' hkind' v hv
          obtain rfl := SingleDefs.op_unique hsingle hop hop' (hphiDef op hop out args hkind) (hphiDef op' hop' out args' hkind')
          rw [hkind] at hkind'
          cases hkind'
          exact hsame v hv
    next => exact h
    next => exact h
  next => exact h

theorem linked_phiRounds {work : List SsaOp} (hwork : ∀ op ∈ work, op ∈ flatOps ssa) (rounds : Nat) {a : Aliasing}
    (h : Linked ssa a.links) : Linked ssa (phiRounds work rounds a).links := by
  induction rounds generalizing a with
  | zero => exact h
  | succ rounds ih =>
    have hround : Linked ssa (work.foldl phiStep (a, false)).1.links :=
      List.foldlRecOn work phiStep (motive := fun s => Linked ssa s.1.links) h
        fun s hs op hop => linked_phiStep hsingle hphiDef hs (hwork op hop)
    unfold Simplify.phiRounds
    dsimp only
    split
    next => exact ih hround
    next => exact hround

/-- The root of a variable is what it comes from. -/
theorem comes_root (v : SsaVar) : Comes ssa (fun _ _ => True) (root ssa v) v := by
  have hcopies : Linked ssa ((flatOps ssa).foldl (copyStep (flatOps ssa)) ⟨[], fun _ => none, [], [], 0⟩).links :=
    List.foldlRecOn (flatOps ssa) (copyStep (flatOps ssa)) (motive := fun a => Linked ssa a.links) linked_nil
      fun a ha op hop => linked_copyStep hsingle hphiDef ha hop
  exact (linked_phiRounds hsingle hphiDef (fun _ hop => hop) _ hcopies).comes v

end Passes

end Roots

/-! ## The same bytes -/

section Agreement
variable {ssa : SsaFunction} {places : Nat → Prop} {r v : SsaVar} {p q d : Point} {s s' : Store} {past recent : List Point}

theorem SingleDefs.place_unique (h : SingleDefs ssa) {b b' i i' : Nat} {block block' : SsaBlock} {op op' : SsaOp}
    (hblock : ssa.blocks[b]? = some block) (hblock' : ssa.blocks[b']? = some block') (hop : block.ops[i]? = some op)
    (hop' : block'.ops[i']? = some op') (hdef : op.def? = some v) (hdef' : op'.def? = some v) : b = b' ∧ i = i' := by
  obtain ⟨hinside, hacross⟩ := List.pairwise_flatMap.mp (List.pairwise_filterMap.mp h)
  have hmem : op ∈ block.ops := List.mem_of_getElem? hop
  have hmem' : op' ∈ block'.ops := List.mem_of_getElem? hop'
  obtain ⟨hb, rfl⟩ := List.getElem?_eq_some_iff.mp hblock
  obtain ⟨hb', rfl⟩ := List.getElem?_eq_some_iff.mp hblock'
  have hblocks := List.pairwise_iff_getElem.mp hacross
  rcases Nat.lt_trichotomy b b' with hlt | rfl | hgt
  · exact absurd rfl (hblocks b b' hb hb' hlt op hmem op' hmem' v hdef v hdef')
  · refine ⟨rfl, ?_⟩
    have hops := List.pairwise_iff_getElem.mp (hinside _ (List.getElem_mem hb))
    obtain ⟨hi, rfl⟩ := List.getElem?_eq_some_iff.mp hop
    obtain ⟨hi', rfl⟩ := List.getElem?_eq_some_iff.mp hop'
    rcases Nat.lt_trichotomy i i' with hlt | heq | hgt
    · exact absurd rfl (hops i i' hi hi' hlt v hdef v hdef')
    · exact heq
    · exact absurd rfl (hops i' i hi' hi hgt v hdef' v hdef)
  · exact absurd rfl (hblocks b' b hb' hb hgt op' hmem' op hmem v hdef' v hdef)

theorem DefinedAt.eq_of_op (h : Renamed ssa) {b i : Nat} {block : SsaBlock} {op : SsaOp} {code : PcodeOp}
    (hblock : ssa.blocks[b]? = some block) (hop : block.ops[i]? = some op) (hkind : op.kind = .pcode code)
    (hdef : op.def? = some v) (hq : DefinedAt ssa v q) : q = (b, i + 1) := by
  cases hq with
  | @phi b' block' op' args hblock' hop' hkind' =>
    have hdef' : op'.def? = some v := h.phi_def op' (mem_flatOps.mpr ⟨b', block', hblock', hop'⟩) v args hkind'
    obtain ⟨i', hi'⟩ := List.mem_iff_getElem?.mp hop'
    obtain ⟨rfl, rfl⟩ := SingleDefs.place_unique h.single hblock hblock' hop hi' hdef hdef'
    obtain rfl : block = block' := Option.some.inj (hblock.symm.trans hblock')
    obtain rfl : op = op' := Option.some.inj (hop.symm.trans hi')
    rw [hkind] at hkind'
    cases hkind'
  | op hblock' hop' hkind' hdef' =>
    obtain ⟨rfl, rfl⟩ := SingleDefs.place_unique h.single hblock hblock' hop hop' hdef hdef'
    rfl

theorem DefinedAt.eq_of_phi (h : Renamed ssa) {b : Nat} {block : SsaBlock} {op : SsaOp} {args : List (Option SsaVar)}
    (hblock : ssa.blocks[b]? = some block) (hop : op ∈ block.ops) (hkind : op.kind = .phi v args)
    (hq : DefinedAt ssa v q) : q = (b, 0) := by
  cases hq with
  | @phi b' block' op' args' hblock' hop' hkind' =>
    obtain ⟨i, hi⟩ := List.mem_iff_getElem?.mp hop
    obtain ⟨i', hi'⟩ := List.mem_iff_getElem?.mp hop'
    have hdef : op.def? = some v := h.phi_def op (mem_flatOps.mpr ⟨b, block, hblock, hop⟩) v args hkind
    have hdef' : op'.def? = some v := h.phi_def op' (mem_flatOps.mpr ⟨b', block', hblock', hop'⟩) v args' hkind'
    obtain ⟨rfl, -⟩ := SingleDefs.place_unique h.single hblock hblock' hi hi' hdef hdef'
    rfl
  | op hblock' hop' hkind' hdef' =>
    have hcode := DefinedAt.eq_of_op h hblock' hop' hkind' hdef' (.phi hblock hop hkind)
    cases hcode

theorem Does.next (h : Does ssa p q s s') : Next ssa p q := by
  cases h with
  | op hblock hop _ => exact .op hblock hop
  | jump hblock hnext hblock' hslot _ => exact .jump hblock hnext hblock' hslot

theorem Exec.trail (h : Exec ssa past s) : Trail (Next ssa) (entry ssa) past := by
  induction h with
  | start => exact .start
  | step _ hdoes ih => exact .step ih hdoes.next

/-- A variable changes only where it is defined. -/
theorem Does.frame (h : Does ssa p q s s') (hv : ¬ DefinedAt ssa v q) : s'.defined v = s.defined v := by
  cases h with
  | @op b i block op _ _ hblock hop hruns =>
    unfold Runs at hruns
    split at hruns
    next => rw [hruns]
    next code hkind =>
      have hne : ∀ {w}, op.def? = some w → v ≠ w := fun hdef heq => hv (heq ▸ .op hblock hop hkind hdef)
      split at hruns
      next d used hdef _ =>
        rw [hruns]
        exact s.define_of_ne (hne hdef) _
      next d hdef _ =>
        obtain ⟨c, hdefined, -⟩ := hruns
        rw [hdefined]
        exact Function.update_of_ne (hne hdef) _ _
      next => rw [hruns]
  | jump _ _ hblock' _ henters =>
    exact henters.others v fun op hop args hkind => hv (.phi hblock' hop hkind)

/-- What was held at one of the points come past, for the variables that have not been defined
since. -/
theorem Exec.drop (h : Exec ssa (recent ++ d :: past) s) :
    ∃ s', Exec ssa (d :: past) s' ∧ ∀ v, (∀ q ∈ recent, ¬ DefinedAt ssa v q) → s.defined v = s'.defined v := by
  induction recent generalizing s with
  | nil => exact ⟨s, h, fun _ _ => rfl⟩
  | cons q recent ih =>
    generalize htrail : q :: recent ++ d :: past = trail at h
    cases h with
    | start => simp at htrail
    | @step p' q' past' s₀ _ hexec hdoes =>
      obtain ⟨rfl, htail⟩ := List.cons.inj htrail
      rw [← htail] at hexec
      obtain ⟨s', hs', hsame⟩ := ih hexec
      refine ⟨s', hs', fun v hv => ?_⟩
      rw [hdoes.frame (hv q List.mem_cons_self)]
      exact hsame v fun x hx => hv x (List.mem_cons_of_mem _ hx)

/-- Where the definition of a variable is reached only behind points that `r` is defined before, so
is every point that the variable is defined before. -/
theorem Reached.of_source (hd : DefinedAt ssa v d) (hentry : d ≠ entry ssa)
    (hsource : ∀ n, Next ssa n d → Reached ssa r n) (hv : Reached ssa v p) : Reached ssa r p := by
  intro x hx havoid
  rcases havoid.or_through (d := d) with hnot | hthrough
  · exact hv d hd hnot
  · cases hthrough with
    | refl => exact hentry rfl
    | tail hpath hedge _ => exact hsource _ hedge x hx hpath

/-- Each way into the block of a phi has an argument, which is defined before. -/
theorem Renamed.arg_of_slot (h : Renamed ssa) {b₀ slot : Nat} {block pred : SsaBlock} {op : SsaOp} {out : SsaVar}
    {args : List (Option SsaVar)} (hblock : block ∈ ssa.blocks) (hop : op ∈ block.ops) (hkind : op.kind = .phi out args)
    (hargs : ∀ arg ∈ args, arg.isSome) (hpred : ssa.blocks[b₀]? = some pred)
    (hslot : block.predecessorIds[slot]? = some b₀) :
    ∃ a, args[slot]? = some (some a) ∧ Reached ssa a (b₀, pred.ops.length) := by
  have hlt : slot < args.length := by
    rw [h.args_length block hblock op hop out args hkind]
    exact (List.getElem?_eq_some_iff.mp hslot).1
  obtain ⟨a, ha⟩ := Option.isSome_iff_exists.mp (hargs _ (List.getElem_mem hlt))
  have harg : args[slot]? = some (some a) := by rw [List.getElem?_eq_getElem hlt, ha]
  exact ⟨a, harg, h.args_reached block hblock op hop out args hkind slot b₀ pred a hslot hpred harg⟩

/-- A variable is `r`, or its definition is reached only behind the one of `r`. -/
theorem Comes.source (h : Renamed ssa) (hway : Comes ssa (Passes ssa places) r v) :
    v = r ∨ ∃ d, DefinedAt ssa v d ∧ d ≠ entry ssa ∧ ∀ n, Next ssa n d → Reached ssa r n := by
  induction hway with
  | root => exact .inl rfl
  | @copy b block op out input v t hblock hop hkind hdef hused _ _ ih =>
    obtain ⟨i, hi⟩ := List.mem_iff_getElem?.mp hop
    refine .inr ⟨(b, i + 1), .op hblock hi hkind hdef, fun heq => absurd (congrArg Prod.snd heq) (Nat.succ_ne_zero i), fun n hn => ?_⟩
    have ht : Reached ssa t n := by
      cases hn with
      | op => exact h.uses_reached b block i op hblock hi t (List.mem_of_mem_head? hused)
    rcases ih with rfl | ⟨d, hd, hentry, hsource⟩
    · exact ht
    · exact ht.of_source hd hentry hsource
  | @phi b block op v args hblock hop hkind hargs hgood _ ih =>
    have hstart : b ≠ ssa.start := by
      unfold Passes at hgood
      rwa [hkind] at hgood
    refine .inr ⟨(b, 0), .phi hblock hop hkind, fun heq => hstart (congrArg Prod.fst heq), fun n hn => ?_⟩
    cases hn with
    | jump hpred _ hblock' hslot =>
      obtain rfl := Option.some.inj (hblock.symm.trans hblock')
      obtain ⟨a, harg, hreached⟩ := h.arg_of_slot (List.mem_of_getElem? hblock) hop hkind hargs hpred hslot
      rcases ih a (List.mem_of_getElem? harg) with rfl | ⟨d, hd, hentry, hsource⟩
      · exact hreached
      · exact hreached.of_source hd hentry hsource

/-- The step that defined a variable last, and `r` as it was before that step. -/
theorem Exec.last_definition (hexec : Exec ssa (p :: past) s) (hd : DefinedAt ssa v d)
    (hunique : ∀ q, DefinedAt ssa v q → q = d) (hentry : d ≠ entry ssa) (hsource : ∀ n, Next ssa n d → Reached ssa r n)
    (hv : Reached ssa v p) :
    ∃ n past' s₀ s₁, Exec ssa (n :: past') s₀ ∧ Does ssa n d s₀ s₁ ∧ s.defined v = s₁.defined v ∧
      s.defined r = s₀.defined r := by
  have hmem : d ∈ p :: past := by
    by_contra hnot
    exact hv d hd (hexec.trail.avoids hnot)
  obtain ⟨recent, past', hsplit, hrecent⟩ := List.eq_append_cons_of_mem hmem
  have htrail := hexec.trail
  rw [hsplit] at hexec
  obtain ⟨s₁, hexec₁, hsame⟩ := hexec.drop
  -- `r` is not defined where `v` is: the first way there would not have come past it
  have hapart : ¬ DefinedAt ssa r d := by
    intro hr
    obtain ⟨past₀, hfirst, hnot⟩ := hexec₁.trail.first
    cases hfirst with
    | start => exact hentry rfl
    | step hbefore hedge => exact hsource _ hedge d hr (hbefore.avoids hnot)
  have hquiet : ∀ q ∈ recent, ¬ DefinedAt ssa r q := by
    intro q hq hr
    cases recent with
    | nil => cases hq
    | cons p' recent =>
      obtain ⟨rfl, rfl⟩ := List.cons.inj hsplit
      have hbefore : ¬ Avoids (Next ssa) q (entry ssa) d := by
        intro havoid
        cases havoid with
        | refl => exact hentry rfl
        | tail hpath hedge _ => exact hsource _ hedge q hr hpath
      exact htrail.not_mem_since hrecent (hv d hd) hbefore (fun heq => hrecent (heq ▸ hq)) hq
  cases hexec₁ with
  | start => exact absurd rfl hentry
  | @step n _ past₀ s₀ _ hexec₀ hdoes =>
    refine ⟨n, past₀, s₀, s₁, hexec₀, hdoes, hsame v fun q hq hdef => ?_, ?_⟩
    · exact hrecent (hunique q hdef ▸ hq)
    · exact (hsame r hquiet).trans (hdoes.frame hapart)

theorem overwrite_carried {out input : Varnode} {i : Nat} (h : Carries out input i) (bytes c : Contents) :
    overwrite out (operandBytes input bytes) c i = bytes i := by
  obtain ⟨hstart, hle, hlt, hlt'⟩ := h
  unfold overwrite operandBytes
  rw [if_pos ⟨hle, hlt⟩, if_pos (by omega)]
  congr 1
  omega

/-- Wherever a variable has been defined it holds the bytes of what it comes from. -/
theorem Comes.agrees (h : Renamed ssa) (hway : Comes ssa (Passes ssa places) r v) (hexec : Exec ssa (p :: past) s)
    (hv : Reached ssa v p) {i : Nat} (hi : places i) : s.defined v i = s.defined r i := by
  induction hway generalizing p past s with
  | root => rfl
  | @copy b block op out input v t hblock hop hkind hdef hused hgood hcomes ih =>
    rcases Comes.source h (.copy hblock hop hkind hdef hused hgood hcomes) with rfl | ⟨d, hd, hentry, hsource⟩
    · rfl
    obtain ⟨j, hj⟩ := List.mem_iff_getElem?.mp hop
    obtain rfl : d = (b, j + 1) := hd.eq_of_op h hblock hj hkind hdef
    obtain ⟨n, past', s₀, s₁, hexec₀, hdoes, hlast, hroot⟩ :=
      hexec.last_definition hd (fun q hq => hq.eq_of_op h hblock hj hkind hdef) hentry hsource hv
    cases hdoes with
    | op hblock' hop' hruns =>
      obtain rfl := Option.some.inj (hblock.symm.trans hblock')
      obtain rfl := Option.some.inj (hj.symm.trans hop')
      have ht : Reached ssa t (b, j) := h.uses_reached b block j op hblock hj t (List.mem_of_mem_head? hused)
      have hcarries : Carries out input i := by
        unfold Passes at hgood
        rw [hkind] at hgood
        exact hgood i hi
      simp only [Runs, hkind, hdef, hused] at hruns
      calc s.defined v i = s₁.defined v i := by rw [hlast]
        _ = overwrite out (operandBytes input (s₀.defined t)) (s₀.held v.location) i := by
          rw [hruns, Store.define_self]
        _ = s₀.defined t i := overwrite_carried hcarries _ _
        _ = s₀.defined r i := ih hexec₀ ht
        _ = s.defined r i := by rw [hroot]
  | @phi b block op v args hblock hop hkind hargs hgood hcomes ih =>
    rcases Comes.source h (.phi hblock hop hkind hargs hgood hcomes) with rfl | ⟨d, hd, hentry, hsource⟩
    · rfl
    obtain rfl : d = (b, 0) := hd.eq_of_phi h hblock hop hkind
    obtain ⟨n, past', s₀, s₁, hexec₀, hdoes, hlast, hroot⟩ :=
      hexec.last_definition hd (fun q hq => hq.eq_of_phi h hblock hop hkind) hentry hsource hv
    cases hdoes with
    | jump hpred _ hblock' hslot henters =>
      obtain rfl := Option.some.inj (hblock.symm.trans hblock')
      obtain ⟨a, harg, hreached⟩ := h.arg_of_slot (List.mem_of_getElem? hblock) hop hkind hargs hpred hslot
      calc s.defined v i = s₁.defined v i := by rw [hlast]
        _ = s₀.defined a i := by rw [henters.taken op hop v args hkind a harg]
        _ = s₀.defined r i := ih a (List.mem_of_getElem? harg) hexec₀ hreached
        _ = s.defined r i := by rw [hroot]

theorem mem_uses_of_operandUses {op : SsaOp} {use : SsaVar × Varnode} (h : use ∈ operandUses op) : use.1 ∈ op.uses := by
  unfold operandUses at h
  split at h
  · cases h
  · obtain ⟨entry, hentry, huse⟩ := List.mem_filterMap.mp h
    obtain ⟨vn, -, rfl⟩ := Option.map_eq_some_iff.mp huse
    exact (List.of_mem_zip hentry).1

/-- Where every copy on the way to the root of a used variable carries what the operand reads, and no phi
on the way stands at the entry, every operand reads the same bytes in the root, in every run. -/
theorem repointed_agrees (ssa : SsaFunction) (h : Renamed ssa)
    (hpasses : ∀ op ∈ flatOps ssa, ∀ use ∈ operandUses op, ∀ b via, OnWay ssa (root ssa use.1) use.1 b via →
      Passes ssa (Reads use.2) b via) : Agrees ssa := by
  intro b i past s hexec block op hblock hop use huse place hplace
  have hmem : op ∈ flatOps ssa := mem_flatOps.mpr ⟨b, block, hblock, List.mem_of_getElem? hop⟩
  have hway : Comes ssa (Passes ssa (Reads use.2)) (root ssa use.1) use.1 :=
    (comes_root h.single h.phi_def use.1).of_onWay h.phi_def (hpasses op hmem use huse)
  exact hway.agrees h hexec (h.uses_reached b block i op hblock hop use.1 (mem_uses_of_operandUses huse)) hplace

end Agreement
section Moved

def raxVar (version : Nat) : SsaVar := ⟨.register 0, version⟩

def rbxVar (version : Nat) : SsaVar := ⟨.register 0x18, version⟩

/-- A `mov` of so many bytes from RBX to RAX. -/
def movOp (size : Nat) : SsaOp :=
  ⟨0x1000, .pcode (.copy ⟨.register, 0, size⟩ ⟨.register, 0x18, size⟩), some (raxVar 2), [rbxVar 1], by simp [SsaOpKind.isCall]⟩

/-- `mov [rcx], rax` -/
def storeRax : SsaOp :=
  ⟨0x1003, .pcode (.store Simplify.rcxNode ⟨.register, 0, 8⟩), some ⟨.rawRam, 2⟩, [raxVar 2], by simp [SsaOpKind.isCall]⟩

def retOp : SsaOp :=
  ⟨0x1006, .pcode (.ret ⟨.register, 648, 8⟩), none, [⟨.register 648, 1⟩], by simp⟩

def moved (size : Nat) : SsaFunction where
  entryVa := 0x1000
  bitness := 64
  blocks := [⟨0, 0x1000, [movOp size, storeRax, retOp], [], []⟩]
  imageBase := 0
  id_eq := by
    intro i b h
    match i, h with
    | 0, h => cases h; rfl
    | _ + 1, h => cases h

theorem flatOps_moved (size : Nat) : flatOps (moved size) = [movOp size, storeRax, retOp] := rfl

theorem lowered_moved (size : Nat) : Lowered (moved size) := by
  refine ⟨fun _ => [], fun op hop code hkind => ?_⟩
  rw [flatOps_moved] at hop
  simp only [List.mem_cons, List.not_mem_nil, or_false] at hop
  rcases hop with rfl | rfl | rfl
  · cases hkind
    exact ⟨rfl, rfl⟩
  · cases hkind
    exact ⟨rfl, rfl⟩
  · cases hkind
    exact ⟨rfl, rfl⟩

theorem definedAt_moved {size : Nat} {v : SsaVar} {d : Point} (h : DefinedAt (moved size) v d) :
    v = raxVar 2 ∧ d = (0, 1) ∨ v = ⟨.rawRam, 2⟩ := by
  cases h with
  | @phi b block op args hblock hop hkind =>
    have hmem : op ∈ flatOps (moved size) := mem_flatOps.mpr ⟨b, block, hblock, hop⟩
    rw [flatOps_moved] at hmem
    simp only [List.mem_cons, List.not_mem_nil, or_false] at hmem
    rcases hmem with rfl | rfl | rfl <;> cases hkind
  | @op b i block op code hblock hop hkind hdef =>
    match b, hblock with
    | 0, hblock =>
      cases hblock
      match i, hop with
      | 0, hop => cases hop; cases hdef; exact .inl ⟨rfl, rfl⟩
      | 1, hop => cases hop; cases hdef; exact .inr rfl
      | 2, hop => cases hop; cases hdef

theorem renamed_moved (size : Nat) : Renamed (moved size) where
  single := by
    have hnodup : [raxVar 2, ⟨.rawRam, 2⟩].Nodup := by decide
    exact hnodup
  phi_def := by
    intro op hop out args hkind
    rw [flatOps_moved] at hop
    simp only [List.mem_cons, List.not_mem_nil, or_false] at hop
    rcases hop with rfl | rfl | rfl <;> cases hkind
  uses_reached := by
    intro b block i op hblock hop v hv d hd havoid
    match b, hblock with
    | 0, hblock =>
      cases hblock
      match i, hop with
      | 0, hop =>
        cases hop
        obtain rfl : v = rbxVar 1 := by simpa [movOp] using hv
        rcases definedAt_moved hd with ⟨heq, -⟩ | heq <;> cases heq
      | 1, hop =>
        cases hop
        obtain rfl : v = raxVar 2 := by simpa [storeRax] using hv
        rcases definedAt_moved hd with ⟨-, rfl⟩ | heq
        · exact havoid.ne_right rfl
        · cases heq
      | 2, hop =>
        cases hop
        obtain rfl : v = ⟨.register 648, 1⟩ := by simpa [retOp] using hv
        rcases definedAt_moved hd with ⟨heq, -⟩ | heq <;> cases heq
  args_length := by
    intro block hblock op hop out args hkind
    obtain rfl := List.mem_singleton.mp hblock
    simp only [List.mem_cons, List.not_mem_nil, or_false] at hop
    rcases hop with rfl | rfl | rfl <;> cases hkind
  args_reached := by
    intro block hblock op hop out args hkind
    obtain rfl := List.mem_singleton.mp hblock
    simp only [List.mem_cons, List.not_mem_nil, or_false] at hop
    rcases hop with rfl | rfl | rfl <;> cases hkind

theorem OnWay.mem {ssa : SsaFunction} {r v : SsaVar} {b : Nat} {via : SsaOp} (h : OnWay ssa r v b via) :
    via ∈ flatOps ssa := by
  induction h with
  | here hblock hop => exact mem_flatOps.mpr ⟨_, _, hblock, hop⟩
  | copy _ _ _ _ _ _ ih => exact ih
  | phi _ _ _ _ _ ih => exact ih

/-- `mov rax, rbx` carries all that is stored. -/
theorem repointed_agrees_movRax : Agrees (moved 8) := by
  refine repointed_agrees (moved 8) (renamed_moved 8) ?_
  intro op hop use huse b via hvia
  have hmem := hvia.mem
  rw [flatOps_moved] at hop hmem
  have hread : ∀ i, Reads use.2 i → i < 8 := by
    have hall : ∀ op ∈ [movOp 8, storeRax, retOp], ∀ use ∈ operandUses op, start use.2 + use.2.size = 8 := by decide
    intro i hi
    have := hall op hop use huse
    have := hi.2.1
    omega
  simp only [List.mem_cons, List.not_mem_nil, or_false] at hmem
  rcases hmem with rfl | rfl | rfl
  · intro i hi
    exact ⟨rfl, Nat.zero_le i, hread i hi, hread i hi⟩
  · trivial
  · trivial

/-- RAX holds ones. -/
def allOnes : Location → Contents := fun location _ => if location = .register 0 then 0xff else 0

/-- AL is overwritten with BL. -/
def behindMov : Store :=
  Store.define ⟨fun v => allOnes v.location, allOnes⟩ (raxVar 2)
    (overwrite ⟨.register, 0, 1⟩ (operandBytes ⟨.register, 0x18, 1⟩ (allOnes (.register 0x18))) (allOnes (.register 0)))

/-- Behind `mov al, bl` the other bytes of RAX are what they were, but the store of RAX is re-pointed to RBX. -/
theorem movAl_not_agrees : Lowered (moved 1) ∧ Renamed (moved 1) ∧ ¬ Agrees (moved 1) := by
  refine ⟨lowered_moved 1, renamed_moved 1, fun h => ?_⟩
  have hroot : root (moved 1) (raxVar 2) = rbxVar 1 := by decide
  have hdoes : Does (moved 1) (0, 0) (0, 1) ⟨fun v => allOnes v.location, allOnes⟩ behindMov := .op rfl rfl rfl
  have hreads : Reads ⟨.register, 0, 8⟩ 1 := by
    refine ⟨?_, ?_, fun _ _ => ?_⟩ <;> decide
  have hsame := h 0 1 _ behindMov (.step (.start allOnes) hdoes) _ storeRax rfl rfl (raxVar 2, ⟨.register, 0, 8⟩)
    (by decide) 1 hreads
  rw [hroot] at hsame
  revert hsame
  decide

end Moved

end Windy.Decompiler.Widths
