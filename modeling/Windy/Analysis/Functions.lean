import Windy.Analysis.CodeIndex
import Windy.Lib.KeyedList
import Windy.Project.State

/- Functions, their blocks and their edges (`analysis/functions.rs`).

   A block is a run of instructions from its first address to the address of its last
   instruction. The table of functions and the blocks of a function stand in the order of
   their addresses. The fields nothing below reads (the identity of a function, which is
   its entry, and its list of outgoing calls, which stays empty) are left out. -/
namespace Windy

inductive EdgeKind where
  | fallthrough
  | unconditional
  | conditional
  | call
  | tailCall
  | indirect
  | ret
  deriving DecidableEq, Repr

structure Edge where
  target : Nat
  kind : EdgeKind
  deriving DecidableEq, Repr

structure BasicBlock where
  entryVa : Nat
  exitVa : Nat
  instrCount : Nat
  successors : List Edge
  predecessors : List Edge
  deriving DecidableEq, Repr

structure Function where
  entryVa : Nat
  blocks : List BasicBlock
  stackFrame : Option StackFrame
  signature : Option FunctionSignature

/-- The functions in the order of their entries. -/
abbrev FunctionTable := List Function

/-- `FunctionTable::get`. -/
def FunctionTable.get (table : FunctionTable) (va : Nat) : Option Function := KeyedList.get Function.entryVa va table

end Windy
