import Jonj.Lib.CChar
import Jonj.Lib.Decimal
import Jonj.Lib.OrderedMap

/-!
# Values and their memory

Zvals have addresses, since serialization asks whether it has met a zval before. Arrays point
to hash tables and objects to their property tables; both are insertion-ordered maps. The
type `D` of doubles is left open.
-/
namespace Jonj.Serialize

open Decimal

def ascii (text : String) : Bytes := text.toList.map fun c => UInt8.ofNat c.toNat

abbrev Long := BitVec 64

abbrev Addr := Nat

/-- A string. Its length is kept in an `int`. -/
structure Str where
  bytes : Bytes
  fits : bytes.length < 2 ^ 31
  deriving DecidableEq

inductive Key where
  | long (index : Long)
  | string (name : Str)
  deriving DecidableEq

abbrev Table := OrderedMap Key Addr

inductive Value (D : Type) where
  | null
  | bool (b : Bool)
  | long (v : Long)
  | double (d : D)
  | string (s : Str)
  | array (ht : Nat)
  | object (handle : Nat)

structure Zval (D : Type) where
  isRef : Bool
  value : Value D

structure Object where
  className : Str
  properties : Table

structure Memory (D : Type) where
  zvals : Addr → Zval D
  tables : Nat → Table
  objects : Nat → Object

/-- `zend_hash_num_elements`: the count is a `uint` and returned as an `int`. -/
def numElements (ht : Table) : BitVec 32 := BitVec.ofNat 32 ht.size

def printUnsigned (n : Nat) : Bytes := writeDigits 20 n []

/-- `smart_str_append_long` of a `long`. -/
def printLong (v : Long) : Bytes :=
  if v.toInt < 0 then ascii "-" ++ printUnsigned (-v).toNat else printUnsigned v.toNat

/-- `smart_str_append_long` of an `int`, which is negated as an `int` and then widened. -/
def printInt (v : BitVec 32) : Bytes :=
  if v.toInt < 0 then ascii "-" ++ printUnsigned ((-v).signExtend 64).toNat
  else printUnsigned v.toNat

/-- `ZEND_HANDLE_NUMERIC`: the index that a string key stands for. -/
def handleNumeric (key : Bytes) : Option Long :=
  let negative := key.head? = some 45
  let tmp := if negative then key.tail else key
  match tmp with
  | [] => none
  | c :: _ =>
    if ¬ isDigit c then none
    else if c = 48 ∧ key.length + 1 > 2 then none  -- numbers with leading zeros
    else if tmp.length > 19 then none  -- number too long
    else if ¬ tmp.all isDigit then none
    else
      let idx : Long := BitVec.ofNat 64 (readDigits 0 tmp)
      if negative then if (idx - 1).toNat ≥ 2 ^ 63 then none else some (-idx)
      else if idx.toNat ≥ 2 ^ 63 then none else some idx

/-- The key under which the `zend_symtable` functions keep a string. -/
def symtableKey (s : Str) : Key :=
  match handleNumeric s.bytes with
  | some index => .long index
  | none => .string s

theorem printLong_length (v : Long) : (printLong v).length ≤ 21 := by
  have short : ∀ n, (printUnsigned n).length ≤ 20 := writeDigits_length 20
  rw [printLong]
  split
  · have bound := short (-v).toNat
    simp only [List.length_append, ascii]
    have one : ("-".toList.map fun c => UInt8.ofNat c.toNat).length = 1 := rfl
    omega
  · have bound := short v.toNat
    omega

/-- `convert_to_string` of a key. -/
def Key.toStr : Key → Str
  | .long index => ⟨printLong index, by have short := printLong_length index; omega⟩
  | .string name => name

end Jonj.Serialize
