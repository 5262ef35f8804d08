import Jonj.Serialize.RoundTrip

/-!
# The session serializers

`jonj` writes a name, a bar and the value; `jonj_binary` writes the length of the name as a
byte, the name and the value. All variables of a session share one `var_hash`.
-/
namespace Jonj.Session

open Serialize

variable {D : Type} (gcvt : D → Bytes) (env : Env D) (mem : Memory D)

/-! ### Encoding -/

/-- `PS_ENCODE_LOOP`. The loop finds every key of the table it walks over, so the branch for
a variable that is not there is left out. The outer option is the bound on the recursion,
the inner one is `FAILURE`. -/
def psEncodeLoop (code : Writer → Str → Addr → Option (Option Writer)) :
    Writer → List (Key × Addr) → Option (Option Writer)
  | w, [] => some (some w)
  | w, (.long _, _) :: rest => psEncodeLoop code w rest  -- skipping numeric key
  | w, (.string key, struc) :: rest =>
    match code w key struc with
    | some (some w) => psEncodeLoop code w rest
    | result => result

def psDelimiter : UInt8 := 124

def psUndefMarker : UInt8 := 33

def psBinUndef : Nat := 128

def psBinMax : Nat := 127

def encodeVar (depth : Nat) (w : Writer) (key : Str) (struc : Addr) : Option (Option Writer) :=
  let w := w.append key.bytes
  if psDelimiter ∈ key.bytes ∨ psUndefMarker ∈ key.bytes then some none
  else ((w.append [psDelimiter]).serializeIntern gcvt mem depth struc).map some

def encodeVarBinary (depth : Nat) (w : Writer) (key : Str) (struc : Addr) :
    Option (Option Writer) :=
  if key.bytes.length > psBinMax then some (some w)
  else
    ((w.append (UInt8.ofNat key.bytes.length :: key.bytes)).serializeIntern gcvt mem
      depth struc).map
      some

/-- The text and its length, which is returned in an `int`. -/
def finishEncode (result : Option (Option Writer)) : Option (Option (Bytes × BitVec 32)) :=
  result.map fun w => w.map fun w => (w.buf, BitVec.ofNat 32 w.buf.length)

/-- `PS_SERIALIZER_ENCODE_FUNC(jonj)` on the session array. -/
def encode (depth : Nat) (session : Nat) : Option (Option (Bytes × BitVec 32)) :=
  finishEncode (psEncodeLoop (encodeVar gcvt mem depth) .init (mem.tables session).entries)

/-- `PS_SERIALIZER_ENCODE_FUNC(jonj_binary)` on the session array. -/
def encodeBinary (depth : Nat) (session : Nat) : Option (Option (Bytes × BitVec 32)) :=
  finishEncode (psEncodeLoop (encodeVarBinary gcvt mem depth) .init (mem.tables session).entries)

/-! ### Decoding -/

/-- A name from the data, which is shorter than an `int` can count. -/
def nameOf (bytes : Bytes) : Str :=
  if fits : bytes.length < 2 ^ 31 then ⟨bytes, fits⟩ else ⟨[], by simp⟩

def setSessionVar (session : Nat) (r : Reader D) (name : Str) (stateVal : Addr) : Reader D :=
  r.update (.array session) (.string name) stateVal

def addSessionVar (session : Nat) (r : Reader D) (name : Str) : Reader D :=
  if (r.mem.tables session).contains (.string name) then r
  else
    let (r, emptyVar) := r.allocZval
    r.update (.array session) (.string name) emptyVar

/-- The part that both decoders share: the value of a variable is read and stored. The name
is skipped if it is the name of the symbol table or of the session array itself. -/
def decodeVar (special : Bytes → Bool) (session depth : Nat) (r : Reader D) (name : Bytes)
    (hasValue : Bool) : Reader D × Bool :=
  let skip := special name
  if hasValue then
    let (r, current) := r.allocZval
    match r.unserialize env depth current true with
    | (r, none) => (r, false)
    | (r, some current) =>
      if skip then (r, true)
      else (addSessionVar session (setSessionVar session r (nameOf name) current)
        (nameOf name), true)
  else if skip then (r, true)
  else (addSessionVar session r (nameOf name), true)

/-- The loop of `PS_SERIALIZER_DECODE_FUNC(jonj)`; every turn uses up input. -/
def decodeLoop (special : Bytes → Bool) (session depth : Nat) : Nat → Reader D → Reader D × Bool
  | 0, r => (r, true)
  | turns + 1, r =>
    if psDelimiter ∉ r.input then (r, true)
    else
      let name := r.input.takeWhile (· ≠ psDelimiter)
      let rest := r.input.drop (name.length + 1)
      let hasValue := r.input.head? ≠ some psUndefMarker
      match decodeVar env special session depth { r with input := rest }
          (if hasValue then name else name.tail) hasValue with
      | (r, true) => decodeLoop special session depth turns r
      | failed => failed

/-- The loop of `PS_SERIALIZER_DECODE_FUNC(jonj_binary)`. -/
def decodeLoopBinary (special : Bytes → Bool) (session depth : Nat) :
    Nat → Reader D → Reader D × Bool
  | 0, r => (r, true)
  | turns + 1, r =>
    match r.input with
    | [] => (r, true)
    | first :: rest =>
      let namelen := first.toNat % psBinUndef
      if r.input.length ≤ namelen then (r, false)
      else
        match decodeVar env special session depth { r with input := rest.drop namelen }
            (rest.take namelen) (first.toNat < psBinUndef) with
        | (r, true) => decodeLoopBinary special session depth turns r
        | failed => failed

/-- The bytes from `val` up to `endptr`. -/
def bytesOf (val : Bytes) (vallen : BitVec 32) : Bytes := val.take vallen.toInt.toNat

/-- `PS_SERIALIZER_DECODE_FUNC(jonj)` into the session array. -/
def decode (special : Bytes → Bool) (session depth : Nat) (r : Reader D) (val : Bytes)
    (vallen : BitVec 32) : Reader D × Bool :=
  decodeLoop env special session depth (val.length + 1) { r with input := bytesOf val vallen }

/-- `PS_SERIALIZER_DECODE_FUNC(jonj_binary)` into the session array. -/
def decodeBinary (special : Bytes → Bool) (session depth : Nat) (r : Reader D) (val : Bytes)
    (vallen : BitVec 32) : Reader D × Bool :=
  decodeLoopBinary env special session depth (val.length + 1)
    { r with input := bytesOf val vallen }

end Jonj.Session
