import Mathlib

/- The project state that operations edit (`project/mod.rs`, `symbols.rs`, `comments.rs`,
   `memory.rs`, `types.rs`), with its stores.

   Every annotation store of the source is a map keyed by a virtual address (`HashMap` or `BTreeMap`
   over `u64`); here each is a `Finmap`, so two stores are equal exactly when every lookup agrees,
   whatever the iteration order. Virtual addresses and the operation counter are natural numbers:
   the code compares and stores them and never computes with an address.

   The fields of `Project` that operations neither read nor write (the image, the signature
   databases, the PDB) are left out. Of the analysis only the entry addresses of the discovered
   functions remain: `function_at` is read by `SetFocus`. -/
namespace Windy

/-- A store keyed by virtual address. -/
abbrev Map (β : Type) := Finmap (fun _ : Nat => β)

/-- `u64::saturating_add`. -/
def saturatingAdd (a b : Nat) : Nat := min (a + b) (2 ^ 64 - 1)

/-- A compact type node (`types::DataType`). -/
inductive DataType where
  | void
  | bool
  | int (bits : Nat)
  | uint (bits : Nat)
  | float
  | double
  | ptr (pointee : DataType)
  | array (elem : DataType) (count : Nat)
  | funcPtr (params : List DataType) (returnType : DataType)
  | named (name : String)
  | unknown (bytes : Nat)
  deriving Repr

inductive SymbolKind where
  | import
  | export
  | function
  | data
  | user
  deriving DecidableEq, Repr

structure Symbol where
  name : String
  kind : SymbolKind
  deriving DecidableEq, Repr

/-- One rename event in the alias lineage. -/
structure AliasEvent where
  va : Nat
  oldName : String
  newName : String
  source : String
  seq : Nat
  deriving DecidableEq, Repr

inductive CommentScope where
  | address
  | function
  deriving DecidableEq, Repr

structure FunctionSignature where
  name : String
  params : List (String × DataType)
  ret : DataType
  callingConv : Option String

structure StackVariable where
  name : Option String
  ty : DataType
  offset : Int
  size : Nat

structure StackFrame where
  localSize : Nat
  argSize : Nat
  returnAddrOffset : Int
  locals : List StackVariable
  args : List StackVariable

/-- `StackFrame::default()`. -/
def StackFrame.default : StackFrame :=
  { localSize := 0, argSize := 0, returnAddrOffset := 0, locals := [], args := [] }

/-- A durable per-function memory card. -/
structure FunctionMemoryCard where
  va : Nat
  purpose : Option String
  tags : List String
  keyApis : List String
  keyStrings : List String
  purity : Option String
  confidence : Nat
  updatedSeq : Nat
  deriving DecidableEq, Repr

/-- `FunctionMemoryCard::default()`. -/
def FunctionMemoryCard.default : FunctionMemoryCard :=
  { va := 0, purpose := none, tags := [], keyApis := [], keyStrings := [],
    purity := none, confidence := 0, updatedSeq := 0 }

/-- The card that stands for "remove the entry" (`tags == ["__clear__"]` with
no purpose). -/
def FunctionMemoryCard.isClear (card : FunctionMemoryCard) : Bool :=
  card.tags == ["__clear__"] && card.purpose.isNone

/-- Comments keyed by address and by function entry. -/
structure CommentStore where
  byAddr : Map String
  byFunction : Map String

def CommentStore.get (c : CommentStore) (va : Nat) : CommentScope → Option String
  | .address => c.byAddr.lookup va
  | .function => c.byFunction.lookup va

def CommentStore.set (c : CommentStore) (va : Nat) (scope : CommentScope) (text : String) :
    CommentStore :=
  match scope with
  | .address => { c with byAddr := c.byAddr.insert va text }
  | .function => { c with byFunction := c.byFunction.insert va text }

/-- The project as its operations see it. `functions` holds the entry
addresses of the discovered functions. -/
structure Project where
  symbols : Map Symbol
  comments : CommentStore
  typedGlobals : Map DataType
  functionSignatures : Map FunctionSignature
  functionFrames : Map StackFrame
  functionMemory : Map FunctionMemoryCard
  aliasHistory : List AliasEvent
  focus : Option Nat
  opSeq : Nat
  functions : Finset Nat

namespace Project

/-- `symbols.name(va)`. -/
def symbolName (p : Project) (va : Nat) : Option String := (p.symbols.lookup va).map Symbol.name

/-- `function_at(va).is_some()`. -/
def hasFunction (p : Project) (va : Nat) : Bool := va ∈ p.functions

/-- `project.op_seq = n`. -/
def withSeq (p : Project) (n : Nat) : Project := { p with opSeq := n }

@[simp] theorem withSeq_opSeq (p : Project) (n : Nat) : (p.withSeq n).opSeq = n := rfl

theorem withSeq_eq_self {p : Project} {n : Nat} (h : p.opSeq = n) : p.withSeq n = p := by
  subst h; rfl

end Project

/-! ## Stack variables -/

/-- The variable `upsert_stack_var` creates. -/
def freshStackVar (offset : Int) : StackVariable :=
  { name := none, ty := .unknown 0, offset := offset, size := 0 }

/-- `upsert_stack_var` on the list it selects: mutate the first variable at
`offset`, or push a mutated fresh one and sort by offset (a stable sort). -/
def upsertList (offset : Int) (mutate : StackVariable → StackVariable)
    (list : List StackVariable) : List StackVariable :=
  match list.findIdx? (fun v => v.offset = offset) with
  | some i => list.modify i mutate
  | none => (list ++ [mutate (freshStackVar offset)]).insertionSort (fun a b => a.offset ≤ b.offset)

/-- `upsert_stack_var`: positive offsets are arguments, the rest locals. -/
def upsertStackVar (frame : StackFrame) (offset : Int)
    (mutate : StackVariable → StackVariable) : StackFrame :=
  if offset > 0 then { frame with args := upsertList offset mutate frame.args }
  else { frame with locals := upsertList offset mutate frame.locals }

/-- The variable the capture of an old name or type looks at: the first one at
`offset` among the locals and then the arguments. -/
def StackFrame.findVar (frame : StackFrame) (offset : Int) : Option StackVariable :=
  (frame.locals ++ frame.args).find? (fun v => v.offset = offset)

/-! ## Signatures -/

/-- The signature `SetParamName` creates for a function that has none. -/
def Project.defaultSignature (p : Project) (va : Nat) : FunctionSignature :=
  { name := (p.symbolName va).getD "sub", params := [], ret := .unknown 0, callingConv := none }

/-- `while params.len() <= index { params.push((format!("arg{i}"), Unknown(0))) }`. -/
def extendParams (params : List (String × DataType)) (index : Nat) : List (String × DataType) :=
  params ++ (List.range' params.length (index + 1 - params.length)).map
    (fun i => ("arg" ++ toString i, DataType.unknown 0))

theorem extendParams_length (params : List (String × DataType)) (index : Nat) :
    (extendParams params index).length = max params.length (index + 1) := by
  simp only [extendParams, List.length_append, List.length_map, List.length_range']
  omega

theorem extendParams_of_lt {params : List (String × DataType)} {index : Nat}
    (h : index < params.length) : extendParams params index = params := by
  have h0 : index + 1 - params.length = 0 := by omega
  simp [extendParams, h0]

/-- `params[index].0 = name`. -/
def setParamName (params : List (String × DataType)) (index : Nat) (name : String) :
    List (String × DataType) :=
  params.modify index (fun param => (name, param.2))

theorem setParamName_length (params : List (String × DataType)) (index : Nat) (name : String) :
    (setParamName params index name).length = params.length := by
  simp [setParamName]

end Windy
