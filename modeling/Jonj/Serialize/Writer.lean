import Jonj.Serialize.Basic

/-!
# `jonj_var_serialize`

Classes have no `__sleep` method and no serialize handler, and no exception is pending. The text is
kept in a `smart_str`. It only grows, so that as long as the whole of it is shorter than
`SmartStr.limit`, no call that appends to it fails; beyond that the model says nothing.
-/
namespace Jonj.Serialize

open Function

/-- The keys of `var_hash`: the address of an object or of a zval. -/
inductive VarKey where
  | zval (z : Addr)
  | object (handle : Nat)
  deriving DecidableEq

/-- The writer's state. `nApplyCount` is kept by table. -/
structure Writer where
  buf : Bytes
  varHash : VarKey → Option Long
  /-- `zend_hash_num_elements(var_hash)`, before it is cut to an `int`. -/
  varCount : Nat
  nApplyCount : Nat → Nat
  /-- Where the record of each variable in `varHash` starts. -/
  firstAt : VarKey → Option Nat
  /-- The variables that were written as `R:` or `r:`, with the numbers. -/
  references : List (VarKey × Long)
  /-- Where the elements start that were left out. -/
  leftOut : List Nat

/-- What `jonj_var_serialize_long` writes. -/
def longRecord (val : Long) : Bytes := ascii "i:" ++ printLong val ++ ascii ";"

/-- What `jonj_var_serialize_string` writes. -/
def stringRecord (str : Str) : Bytes :=
  ascii "s:" ++ printInt (BitVec.ofNat 32 str.bytes.length) ++ ascii ":\"" ++
    str.bytes ++ ascii "\";"

/-- What `jonj_var_serialize_class_name` writes. -/
def className (name : Str) : Bytes :=
  ascii "O:" ++ printInt (BitVec.ofNat 32 name.bytes.length) ++ ascii ":\"" ++ name.bytes ++
    ascii "\":"

def keyRecord : Key → Bytes
  | .long index => longRecord index
  | .string name => stringRecord name

namespace Writer

/-- After `JONJ_VAR_SERIALIZE_INIT`. -/
def init : Writer where
  buf := []
  varHash _ := none
  varCount := 0
  nApplyCount _ := 0
  firstAt _ := none
  references := []
  leftOut := []

def append (w : Writer) (text : Bytes) : Writer := { w with buf := w.buf ++ text }

end Writer

variable {D : Type} (gcvt : D → Bytes) (mem : Memory D)

def varKey (struc : Addr) : VarKey :=
  match (mem.zvals struc).value with
  | .object handle => .object handle
  | _ => .zval struc

namespace Writer

/-- `jonj_add_var_hash`, with the old number if the variable is there already. -/
def addVarHash (w : Writer) (var : Addr) : Writer × Option Long :=
  let p := varKey mem var
  match w.varHash p with
  | some varOld =>
    -- non-refs are counted separately by the unserializer
    (if (mem.zvals var).isRef then w else { w with varCount := w.varCount + 1 }, some varOld)
  | none =>
    let varNo : Long := (BitVec.ofNat 32 (w.varCount + 1)).signExtend 64
    ({ w with
      varHash := update w.varHash p (some varNo)
      varCount := w.varCount + 1
      firstAt := update w.firstAt p (some w.buf.length) }, none)

/-- A variable that is not a reference counts again when it is met again. -/
theorem addVarHash_seen {w : Writer} {var : Addr} {varOld : Long}
    (seen : w.varHash (varKey mem var) = some varOld) :
    w.addVarHash mem var = (if (mem.zvals var).isRef then w
      else { w with varCount := w.varCount + 1 }, some varOld) := by
  simp only [addVarHash, seen]

/-- A new variable gets the next number. -/
theorem addVarHash_new {w : Writer} {var : Addr} (new : w.varHash (varKey mem var) = none) :
    w.addVarHash mem var = ({ w with
      varHash := update w.varHash (varKey mem var)
        (some ((BitVec.ofNat 32 (w.varCount + 1)).signExtend 64))
      varCount := w.varCount + 1
      firstAt := update w.firstAt (varKey mem var) (some w.buf.length) }, none) := by
  simp only [addVarHash, new]

@[simp] theorem addVarHash_buf (w : Writer) (var : Addr) :
    (w.addVarHash mem var).1.buf = w.buf := by
  cases seen : w.varHash (varKey mem var) with
  | none => rw [addVarHash_new mem seen]
  | some varOld =>
    rw [addVarHash_seen mem seen]
    split <;> rfl

@[simp] theorem addVarHash_nApplyCount (w : Writer) (var : Addr) :
    (w.addVarHash mem var).1.nApplyCount = w.nApplyCount := by
  cases seen : w.varHash (varKey mem var) with
  | none => rw [addVarHash_new mem seen]
  | some varOld =>
    rw [addVarHash_seen mem seen]
    split <;> rfl

def reference (w : Writer) (var : Addr) (tag : String) (varNo : Long) : Writer :=
  { w.append (ascii tag ++ printLong varNo ++ ascii ";") with
    references := w.references ++ [(varKey mem var, varNo)] }

def enter (w : Writer) (ht : Nat) : Writer :=
  { w with nApplyCount := update w.nApplyCount ht (w.nApplyCount ht + 1) }

def leave (w : Writer) (ht : Nat) : Writer :=
  { w with nApplyCount := update w.nApplyCount ht (w.nApplyCount ht - 1) }

/-- One turn of the loop over a table. -/
def element (intern : Writer → Addr → Option Writer) (w : Writer) (entry : Key × Addr) :
    Option Writer :=
  let w := w.append (keyRecord entry.1)
  match (mem.zvals entry.2).value with
  | .array ht =>
    if w.nApplyCount ht > 1 then
      -- we should still add element even if it's not OK
      some { w.append (ascii "N;") with leftOut := w.leftOut ++ [w.buf.length] }
    else (intern (w.enter ht) entry.2).map (·.leave ht)
  | _ => intern w entry.2

def nested (intern : Writer → Addr → Option Writer) (w : Writer) (myht : Table) : Option Writer :=
  let i := numElements myht
  let w := w.append (printInt i ++ ascii ":\x7b")
  (if i.toInt > 0 then myht.entries.foldlM (element mem intern) w else some w).map
    (·.append (ascii "\x7d"))

/-- The switch over the type. -/
def serializeValue (intern : Writer → Addr → Option Writer) (w : Writer) : Value D → Option Writer
  | .bool b => some (w.append (ascii "b:" ++ printLong (if b then 1 else 0) ++ ascii ";"))
  | .null => some (w.append (ascii "N;"))
  | .long v => some (w.append (longRecord v))
  | .double d => some (w.append (ascii "d:" ++ gcvt d ++ ascii ";"))
  | .string s => some (w.append (stringRecord s))
  | .object handle =>
    nested mem intern (w.append (className (mem.objects handle).className))
      (mem.objects handle).properties
  | .array ht => nested mem intern (w.append (ascii "a:")) (mem.tables ht)

/-- `jonj_var_serialize_intern`; the first argument bounds the depth of the recursion. -/
def serializeIntern : Nat → Writer → Addr → Option Writer
  | 0, _, _ => none
  | depth + 1, w, struc =>
    let zval := mem.zvals struc
    let added := w.addVarHash mem struc
    match added.2 with
    | none => added.1.serializeValue gcvt mem (serializeIntern depth) zval.value
    | some varAlready =>
      if zval.isRef then some (added.1.reference mem struc "R:" varAlready)
      else
        match zval.value with
        | .object _ => some (added.1.reference mem struc "r:" varAlready)
        | value => added.1.serializeValue gcvt mem (serializeIntern depth) value

end Writer

end Jonj.Serialize
