import Jonj.Fcgi.Refinement
import Jonj.Lib.CChar

/-!
# Parameters of a request

`fcgi_get_params` stores the pairs of a record; `fcgi_getenv`, `fcgi_putenv` and `fcgi_loadenv`
use the table afterwards. The hash of a name is computed from `unsigned char` pointers into the
record and from `char` pointers to C strings.
-/
namespace Jonj.Fcgi

/-! ### The code -/

/-- The conversion of an `unsigned char` to `unsigned int`. -/
def ofUnsignedChar (b : UInt8) : UInt32 := b.toUInt32

/-- `FCGI_HASH_FUNC`, of the memory that the pointer points to. -/
def fcgiHashFunc (toInt : UInt8 → UInt32) (var : Nat → UInt8) (varLen : UInt32) : UInt32 :=
  if varLen < 3 then varLen
  else (toInt (var 3) <<< 2) + (toInt (var (varLen.toNat - 2)) <<< 4) +
    (toInt (var (varLen.toNat - 1)) <<< 2) + varLen

/-- The memory that begins with the bytes. -/
def view (bytes : Bytes) (beyond : Nat → UInt8) (i : Nat) : UInt8 :=
  (bytes[i]?).getD (beyond (i - bytes.length))

/-- One of the two lengths of a pair, and the bytes after it. -/
def readLength : Bytes → Option (UInt32 × Bytes)
  | [] => none
  | b :: rest =>
    if b < 128 then some (b.toUInt32, rest)
    else
      match rest with
      | b₂ :: b₁ :: b₀ :: more =>
        -- `p + 3 >= end` also refuses a length that ends the record
        if more = [] then none
        else some (((b.toUInt32 &&& 0x7f) <<< 24) ||| (b₂.toUInt32 <<< 16) ||| (b₁.toUInt32 <<< 8)
          ||| b₀.toUInt32,
          more)
      | _ => none

/-- The lengths of the next pair, and the bytes from its name on. -/
def readLengths (record : Bytes) : Option (UInt32 × UInt32 × Bytes) := do
  let (nameLen, rest) ← readLength record
  let (valLen, rest) ← readLength rest
  if nameLen + valLen > UInt32.ofNat rest.length then none else some (nameLen, valLen, rest)

/-- The length takes one byte at least, so that the loop over the record ends. -/
theorem readLength_shorter {record rest : Bytes} {len : UInt32}
    (isLength : readLength record = some (len, rest)) :
    rest.length < record.length := by
  revert isLength
  fun_cases readLength record
  all_goals simp +contextual [eq_comm]
  all_goals omega

theorem readLengths_shorter {record p : Bytes} {nameLen valLen : UInt32}
    (isPair : readLengths record = some (nameLen, valLen, p)) : p.length < record.length := by
  simp only [readLengths, Option.bind_eq_bind, Option.bind_eq_some_iff] at isPair
  obtain ⟨⟨n, rest⟩, name, ⟨v, rest'⟩, val, fits⟩ := isPair
  split at fits
  · cases fits
  · obtain ⟨rfl, rfl, rfl⟩ := fits
    exact (readLength_shorter val).trans (readLength_shorter name)

/-- `fcgi_get_params`, with the memory behind the record. -/
def getParams (beyond : Nat → UInt8) (record : Bytes) (env : Hash) : Hash × Bool :=
  if record = [] then (env, true)
  else
    match _isPair : readLengths record with
    | none => (env, false)
    | some (nameLen, valLen, p) =>
      getParams beyond (p.drop (nameLen + valLen).toNat)
        (env.set (fcgiHashFunc ofUnsignedChar (view p beyond) nameLen) p nameLen
          (p.drop nameLen.toNat) valLen)
termination_by record.length
decreasing_by
  have shorter := readLengths_shorter _isPair
  rw [List.length_drop]
  omega

/-- The memory of a C string. -/
def cString (bytes : Bytes) : Nat → UInt8 := view bytes fun _ => 0

/-- The hash of a name that is given as a C string. -/
def hashOfName (signed : Bool) (name : Bytes) : UInt32 :=
  fcgiHashFunc (ofChar signed) (cString name) (UInt32.ofNat name.length)

/-- `fcgi_getenv` -/
def getenv (signed : Bool) (env : Hash) (name : Bytes) : Option Bytes :=
  env.get (hashOfName signed name) name (UInt32.ofNat name.length)

/-- `fcgi_putenv`; a missing value deletes the variable. -/
def putenv (signed : Bool) (env : Hash) (name : Bytes) : Option Bytes → Hash
  | none => env.del (hashOfName signed name) name (UInt32.ofNat name.length)
  | some val =>
    env.set (hashOfName signed name) name (UInt32.ofNat name.length) val (UInt32.ofNat val.length)

/-- `fcgi_loadenv` -/
def loadenv (env : Hash) : List (Bytes × Bytes) := env.apply

end Jonj.Fcgi
