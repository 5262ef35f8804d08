import Jonj.Serialize.Basic

/-!
# `jonj_var_unserialize`

No class has an unserialize handler. The bytes up to `max` are followed by a NUL, so no rule
of the scanner matches across `max`. What is only kept for destruction (the `dtor` entries)
and where a failed call stopped is left out.
-/
namespace Jonj.Serialize

open Decimal

/-! ### The scanner -/

/-- What the rules of the scanner match. -/
inductive Token where
  | ref (id : Long)
  | objectRef (id : Long)
  | null
  | bool (b : Bool)
  | long (v : Long)
  | double (text : Bytes)
  | string (len : Nat)
  | escaped (len : Nat)
  | array (elements : Long)
  | oldObject (elements : Long)
  | object (custom : Bool) (len : Nat)

/-- The input after the text, if it starts with it. -/
def skip (text : String) (input : Bytes) : Option Bytes :=
  if (ascii text).isPrefixOf input then some (input.drop (ascii text).length) else none

/-- The loop over the digits; the result wraps around. -/
def parseDigits (digits : Bytes) : Long := BitVec.ofNat 64 (readDigits 0 digits)

def dropSign (text : Bytes) : Bytes :=
  if text.head? = some 43 ∨ text.head? = some 45 then text.tail else text

/-- `parse_iv2`; there need not be a digit. -/
def parseIv2 (p : Bytes) : Long × Bytes :=
  let result := parseDigits ((dropSign p).takeWhile isDigit)
  (if p.head? = some 45 then -result else result, (dropSign p).dropWhile isDigit)

/-- `iv`, with what `parse_iv` makes of it. -/
def scanIv (input : Bytes) : Option (Long × Bytes) :=
  if (dropSign input).takeWhile isDigit = [] then none else some (parseIv2 input)

/-- `uiv`, with what `parse_uiv` makes of it. -/
def scanUiv (input : Bytes) : Option (Long × Bytes) :=
  let body := if input.head? = some 43 then input.tail else input
  let digits := body.takeWhile isDigit
  if digits = [] then none else some (parseDigits digits, body.dropWhile isDigit)

/-- `NAN`, `INF`, `-INF`, or `iv | nv | nvexp`. -/
def isDoubleText (text : Bytes) : Bool :=
  if text = ascii "NAN" ∨ text = ascii "INF" ∨ text = ascii "-INF" then true
  else
    let body := dropSign text
    let whole := body.takeWhile isDigit
    let afterWhole := body.dropWhile isDigit
    let fraction := if afterWhole.head? = some 46 then afterWhole.tail.takeWhile isDigit else []
    let afterFraction :=
      if afterWhole.head? = some 46 then afterWhole.tail.dropWhile isDigit else afterWhole
    if whole = [] ∧ fraction = [] then false
    else if afterFraction = [] then true
    else if afterFraction.head? = some 101 ∨ afterFraction.head? = some 69 then
      -- the exponent is `[+-]? iv`, so it may have two signs
      let exponent := dropSign (dropSign afterFraction.tail)
      exponent ≠ [] ∧ exponent.all isDigit
    else false

/-- The rule that matches at the cursor, and the input after it. -/
@[simp] def scan (input : Bytes) : Option (Token × Bytes) :=
  match input with
  | 82 :: rest => do  -- R
    let (id, rest) ← (skip ":" rest).bind scanIv
    return (.ref id, ← skip ";" rest)
  | 114 :: rest => do  -- r
    let (id, rest) ← (skip ":" rest).bind scanIv
    return (.objectRef id, ← skip ";" rest)
  | 78 :: rest => do  -- N
    return (.null, ← skip ";" rest)
  | 98 :: rest =>  -- b
    match skip ":" rest with
    | some (48 :: rest) => (skip ";" rest).map (.bool false, ·)
    | some (49 :: rest) => (skip ";" rest).map (.bool true, ·)
    | _ => none
  | 105 :: rest => do  -- i
    let (v, rest) ← (skip ":" rest).bind scanIv
    return (.long v, ← skip ";" rest)
  | 100 :: rest => do  -- d
    let rest ← skip ":" rest
    let text := rest.takeWhile (· ≠ 59)
    if isDoubleText text then
      return (.double text, ← skip ";" (rest.drop text.length))
    else none
  | 115 :: rest => do  -- s
    let (len, rest) ← (skip ":" rest).bind scanUiv
    return (.string len.toNat, ← skip ":\"" rest)
  | 83 :: rest => do  -- S
    let (len, rest) ← (skip ":" rest).bind scanUiv
    return (.escaped len.toNat, ← skip ":\"" rest)
  | 97 :: rest => do  -- a
    let (elements, rest) ← (skip ":" rest).bind scanUiv
    return (.array elements, ← skip ":\x7b" rest)
  | 111 :: rest => do  -- o
    let (elements, rest) ← (skip ":" rest).bind scanIv
    return (.oldObject elements, ← skip ":\"" rest)
  | 79 :: rest => do  -- O
    let (len, rest) ← (skip ":" rest).bind scanUiv
    return (.object false len.toNat, ← skip ":\"" rest)
  | 67 :: rest => do  -- C
    let (len, rest) ← (skip ":" rest).bind scanUiv
    return (.object true len.toNat, ← skip ":\"" rest)
  | _ => none

/-! ### The reader's state -/

structure ClassEntry where
  name : Str
  /-- The properties of a new object. -/
  defaults : Table

/-- What the reader asks the rest of the program. -/
structure Env (D : Type) where
  strtod : Bytes → D
  /-- `zend_lookup_class`, with autoloading and the unserialize callback. -/
  lookupClass : Bytes → Option ClassEntry
  standardClass : ClassEntry
  incompleteClass : ClassEntry
  magicMember : Str

structure Reader (D : Type) where
  /-- The bytes from `*p` up to `max`. -/
  input : Bytes
  mem : Memory D
  nextZval : Addr
  nextTable : Nat
  nextObject : Nat
  /-- The chunks of `var_entries`. -/
  varHash : List (List Addr)
  /-- How much input was left when each slot was filled. -/
  pushedAt : List Nat

def varEntriesMax : Nat := 1024

def varPush (varHash : List (List Addr)) (rval : Addr) : List (List Addr) :=
  match varHash.getLast? with
  | none => [[rval]]
  | some last =>
    if last.length = varEntriesMax then varHash ++ [[rval]]
    else varHash.dropLast ++ [last ++ [rval]]

def varAccess : List (List Addr) → Int → Option Addr
  | [], _ => none
  | chunk :: next, id =>
    if id ≥ varEntriesMax ∧ chunk.length = varEntriesMax then varAccess next (id - varEntriesMax)
    else if id < 0 ∨ id ≥ chunk.length then none
    else chunk[id.toNat]?

/-- The table that nested data goes to. -/
inductive Target where
  | array (ht : Nat)
  | object (handle : Nat)

namespace Reader

variable {D : Type} (env : Env D)

/-- `ALLOC_INIT_ZVAL` -/
def allocZval (r : Reader D) : Reader D × Addr :=
  ({ r with
    mem := { r.mem with zvals := Function.update r.mem.zvals r.nextZval ⟨false, .null⟩ }
    nextZval := r.nextZval + 1 }, r.nextZval)

/-- `INIT_PZVAL` and the value. -/
def setValue (r : Reader D) (rval : Addr) (value : Value D) : Reader D :=
  { r with mem := { r.mem with zvals := Function.update r.mem.zvals rval ⟨false, value⟩ } }

def setIsRef (r : Reader D) (z : Addr) (isRef : Bool) : Reader D :=
  { r with mem := { r.mem with
      zvals := Function.update r.mem.zvals z { r.mem.zvals z with isRef } } }

/-- `array_init` -/
def initArray (r : Reader D) (rval : Addr) : Reader D :=
  { r.setValue rval (.array r.nextTable) with
    mem := { (r.setValue rval (.array r.nextTable)).mem with
      tables := Function.update r.mem.tables r.nextTable .empty }
    nextTable := r.nextTable + 1 }

/-- `object_init_ex` -/
def initObject (r : Reader D) (rval : Addr) (ce : ClassEntry) : Reader D :=
  { r.setValue rval (.object r.nextObject) with
    mem := { (r.setValue rval (.object r.nextObject)).mem with
      objects := Function.update r.mem.objects r.nextObject ⟨ce.name, ce.defaults⟩ }
    nextObject := r.nextObject + 1 }

/-- `zend_hash_update` and its relatives, on the table of an array or an object. -/
def update (r : Reader D) (target : Target) (key : Key) (data : Addr) : Reader D :=
  match target with
  | .array ht =>
    { r with mem := { r.mem with
        tables := Function.update r.mem.tables ht ((r.mem.tables ht).put key data) } }
  | .object handle =>
    let object := r.mem.objects handle
    { r with mem := { r.mem with
        objects := Function.update r.mem.objects handle
          { object with properties := object.properties.put key data } } }

/-- The key that the type of `key` and the kind of table give. -/
def tableKey (target : Target) : Value D → Option Key
  | .long index =>
    match target with
    | .array _ => some (.long index)
    | .object _ => some (.string (Key.long index).toStr)
  | .string name =>
    match target with
    | .array _ => some (symtableKey name)
    | .object _ => some (.string name)
  | _ => none

def fail (r : Reader D) : Reader D × Option Addr := ({ r with input := [] }, none)

/-- `process_nested_data`; `unserialize` reads one value, with or without `var_hash`. -/
def processNestedData
    (unserialize : Reader D → Addr → Bool → Reader D × Option Addr) (target : Target) :
    Nat → Reader D → Reader D × Bool
  | 0, r => (r, true)
  | elements + 1, r =>
    let (r, key) := r.allocZval
    match unserialize r key false with
    | (r, none) => (r, false)
    | (r, some key) =>
      match tableKey target (r.mem.zvals key).value with
      | none => (r, false)
      | some k =>
        let (r, data) := r.allocZval
        let before := r.input
        match unserialize r data true with
        | (r, none) => (r, false)
        | (r, some data) =>
          let r := r.update target k data
          let last := before[before.length - r.input.length - 1]?
          if elements ≠ 0 ∧ last ≠ some 59 ∧ last ≠ some 125 then (r, false)
          else processNestedData unserialize target elements r

def finishNestedData (r : Reader D) (rval : Addr) : Reader D × Option Addr :=
  match r.input with
  | 125 :: rest => ({ r with input := rest }, some rval)
  | _ => r.fail

/-- Nested data up to the closing brace. -/
def readNested (unserialize : Reader D → Addr → Bool → Reader D × Option Addr)
    (r : Reader D) (rval : Addr) (target : Target) (elements : Long) : Reader D × Option Addr :=
  if elements.toInt < 0 then r.fail
  else
    match processNestedData unserialize target elements.toNat r with
    | (r, true) => r.finishNestedData rval
    | (r, false) => r.fail

/-- `unserialize_str`, on as many characters as are wanted. -/
def unserializeStr : Nat → Bytes → Option (Bytes × Bytes)
  | 0, input => some ([], input)
  | len + 1, input =>
    match input with
    | [] => none
    | 92 :: high :: low :: rest => do
      let h ← hexValue high
      let l ← hexValue low
      let (str, rest) ← unserializeStr len rest
      return ((h * 16 + l) :: str, rest)
    | c :: rest => do
      if c = 92 then none
      else
        let (str, rest) ← unserializeStr len rest
        return (c :: str, rest)

/-- The end of a string record. A string must fit an `int`. -/
def finishString (r : Reader D) (rval : Addr) (str rest : Bytes) : Reader D × Option Addr :=
  if fits : str.length < 2 ^ 31 then
    match skip "\";" rest with
    | some rest => ({ r.setValue rval (.string ⟨str, fits⟩) with input := rest }, some rval)
    | none => r.fail
  else r.fail

def isClassChar (c : UInt8) : Bool :=
  isDigit c || c = 95 || (97 ≤ c && c ≤ 122) || (65 ≤ c && c ≤ 90) || 127 ≤ c || c = 92

/-- `object_custom`, for a class without an unserialize handler. -/
def objectCustom (r : Reader D) (rval : Addr) (ce : ClassEntry) : Reader D × Option Addr :=
  let (datalen, rest) := parseIv2 (r.input.drop 2)
  let data := rest.drop 2
  if datalen.toInt < 0 ∨ data.length ≤ datalen.toNat then r.fail
  else { r.initObject rval ce with input := data.drop datalen.toNat }.finishNestedData rval

def storeClassName (r : Reader D) (handle : Nat) (name : Str) : Reader D :=
  let (r, val) := r.allocZval
  (r.setValue val (.string name)).update (.object handle) (.string env.magicMember) val

/-- The records of objects, after the scanner has matched up to the class name. -/
def readObject (unserialize : Reader D → Addr → Bool → Reader D × Option Addr) (r : Reader D)
    (rval : Addr) (custom : Bool) (len : Nat) (input : Bytes) : Reader D × Option Addr :=
  if fits : len < 2 ^ 31 then
    let className := input.take len
    let rest := input.drop len
    if input.length < len ∨ len = 0 ∨ (skip "\":" rest).isNone ∨
      ¬ className.all isClassChar then r.fail
    else
      let name : Str := ⟨className, by
        have short := List.length_take_le len input
        simp only [className]
        omega⟩
      let found := env.lookupClass className
      let ce := found.getD env.incompleteClass
      let r := { r with input := rest }
      if custom then
        let handle := r.nextObject
        let (r, ret) := r.objectCustom rval ce
        if ret.isSome ∧ found.isNone then (r.storeClassName env handle name, ret) else (r, ret)
      else if rest.length ≤ 2 then r.fail
      else
        -- neither the number of elements nor the two bytes after it are checked
        let (elements, rest) := parseIv2 (rest.drop 2)
        let handle := r.nextObject
        let r := { r.initObject rval ce with input := rest.drop 2 }
        let r := if found.isNone then r.storeClassName env handle name else r
        r.readNested unserialize rval (.object handle) elements
  else r.fail

/-- `var_push` of the value that is about to be read, unless it is an `R:` record. -/
def push (r : Reader D) (rval : Addr) (hash : Bool) : Reader D :=
  if hash ∧ r.input.head? ≠ some 82 then
    { r with varHash := varPush r.varHash rval, pushedAt := r.pushedAt ++ [r.input.length] }
  else r

/-- The actions of the rules; `rest` is the input after the match. -/
def act (unserialize : Reader D → Addr → Bool → Reader D × Option Addr) (r : Reader D)
    (rval : Addr) (hash : Bool) (rest : Bytes) : Token → Reader D × Option Addr
  | .ref id =>
    match if hash then varAccess r.varHash ((id - 1).toInt) else none with
    | none => r.fail
    | some z => ({ r.setIsRef z true with input := rest }, some z)
  | .objectRef id =>
    match if hash then varAccess r.varHash ((id - 1).toInt) else none with
    | none => r.fail
    | some z => if z = rval then r.fail else ({ r.setIsRef z false with input := rest }, some z)
  | .null => ({ r.setValue rval .null with input := rest }, some rval)
  | .bool b => ({ r.setValue rval (.bool b) with input := rest }, some rval)
  | .long v => ({ r.setValue rval (.long v) with input := rest }, some rval)
  | .double text => ({ r.setValue rval (.double (env.strtod text)) with input := rest }, some rval)
  | .string len =>
    if rest.length < len then r.fail else r.finishString rval (rest.take len) (rest.drop len)
  | .escaped len =>
    if rest.length < len then r.fail
    else
      match unserializeStr len rest with
      | none => r.fail
      | some (str, rest) => r.finishString rval str rest
  | .array elements =>
    if ¬ hash then r.fail
    else
      { r.initArray rval with input := rest }.readNested unserialize rval
        (.array r.nextTable) elements
  | .oldObject elements =>
    if ¬ hash then r.fail
    else
      -- `*p` is still at the start: the elements follow the number and two more bytes
      { r.initObject rval env.standardClass with input := rest }.readNested unserialize rval
        (.object r.nextObject) elements
  | .object custom len =>
    if ¬ hash then r.fail else r.readObject env unserialize rval custom len rest

/-- `jonj_var_unserialize`; the first argument bounds the depth of the recursion. -/
def unserialize : Nat → Reader D → Addr → Bool → Reader D × Option Addr
  | 0, r, _, _ => r.fail
  | depth + 1, r, rval, hash =>
    if r.input = [] then r.fail
    else
      match scan r.input with
      | none => (r.push rval hash).fail
      | some (token, rest) => (r.push rval hash).act env (unserialize depth) rval hash rest token

end Reader

end Jonj.Serialize
