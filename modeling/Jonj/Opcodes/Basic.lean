import Mathlib.Tactic

/-!
# Op arrays

The instructions of a compiled function and the tables that name instructions by their
number. The operands of an instruction are unions in the source; here `op1` and `op2`
are the numbers that the functions of this development read from them.
-/
namespace Jonj.Opcodes

inductive Opcode where
  | nop
  | jmp
  | goto
  | jmpz
  | jmpnz
  | jmpznz
  | jmpzEx
  | jmpnzEx
  | jmpSet
  | jmpSetVar
  | feReset
  | feFetch
  | new
  | catch
  | fastCall
  | fastRet
  | return
  | declareInheritedClassDelayed
  /-- An instruction that names no other one. -/
  | other (code : Nat)
  deriving DecidableEq, Repr

structure Op where
  opcode : Opcode
  op1 : Nat
  op2 : Nat
  /-- `result.opline_num`, the next entry of the early-binding list; `(zend_uint)-1` is `none`. -/
  result : Option Nat
  extendedValue : Nat
  /-- For a `GOTO`, whether the literal of its second operand is an `IS_LONG`. -/
  resolved : Bool
  lineno : Nat
  deriving DecidableEq, Repr

structure BrkContElement where
  /-- `-1`, for a loop without a variable to free, is `none`. -/
  start : Option Nat
  cont : Nat
  brk : Nat
  parent : Int
  deriving DecidableEq, Repr

/-- There is no catch block when `catchOp` is 0 and no finally block when `finallyOp` is. -/
structure TryCatchElement where
  tryOp : Nat
  catchOp : Nat
  finallyOp : Nat
  finallyEnd : Nat
  deriving DecidableEq, Repr

/-- Only the opcodes before `last` belong to the array. -/
structure OpArray where
  opcodes : Nat → Op
  last : Nat
  brkContArray : List BrkContElement
  tryCatchArray : List TryCatchElement
  /-- The head of the early-binding list; `(zend_uint)-1` is `none`. -/
  earlyBinding : Option Nat

end Jonj.Opcodes
