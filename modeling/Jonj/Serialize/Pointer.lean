import Jonj.Serialize.Basic

/-!
# `jonj_var_unserialize` on a buffer

The reader as it moves its pointers. No pointer is kept from going beyond `max`, so what the code
reads and where it stops is a matter of proof. Zvals, tables, classes and the code that a class
brings along are left open: `Env` lists what the reader asks of them. Every loop and the recursion
run at most as many rounds as they are given, and are `none` beyond.
-/
namespace Jonj.Serialize.Pointer

open Decimal

/-- The byte at an address. -/
abbrev Buffer := Nat → UInt8

section scanner

variable (buf : Buffer)

/-! ### Numbers -/

/-- `parse_iv2` and `parse_uiv`, after the sign. -/
def parseDigits : Nat → Long → Nat → Option (Long × Nat)
  | 0, _, _ => none
  | rounds + 1, result, p =>
    if isDigit (buf p) then parseDigits rounds
      (result * 10 + BitVec.ofNat 64 (digitValue (buf p))) (p + 1)
    else some (result, p)

def afterSign (p : Nat) : Nat := if buf p = 45 ∨ buf p = 43 then p + 1 else p

def parseIv2 (rounds p : Nat) : Option (Long × Nat) :=
  (parseDigits buf rounds 0 (afterSign buf p)).map fun (result, q) =>
    (if buf p = 45 then -result else result, q)

def parseIv (rounds p : Nat) : Option Long := (parseIv2 buf rounds p).map Prod.fst

/-- A `size_t` -/
def parseUiv (rounds p : Nat) : Option Nat :=
  (parseDigits buf rounds 0 (if buf p = 43 then p + 1 else p)).map fun number => number.1.toNat

/-! ### The rules of the scanner

A part of a rule is `some none` where it does not match. -/

def skipDigits : Nat → Nat → Option Nat
  | 0, _ => none
  | rounds + 1, cursor =>
    if isDigit (buf cursor) then skipDigits rounds (cursor + 1) else some cursor

def matchText : Bytes → Nat → Option Nat
  | [], cursor => some cursor
  | c :: text, cursor => if buf cursor = c then matchText text (cursor + 1) else none

/-- `iv` -/
def skipIv (rounds cursor : Nat) : Option (Option Nat) :=
  (skipDigits buf rounds (afterSign buf cursor)).map fun after =>
    if after = afterSign buf cursor then none else some after

/-- `uiv` -/
def skipUiv (rounds cursor : Nat) : Option (Option Nat) :=
  let body := if buf cursor = 43 then cursor + 1 else cursor
  (skipDigits buf rounds body).map fun after => if after = body then none else some after

/-- `[eE] [+-]? iv`, or nothing. -/
def skipExponent (rounds cursor : Nat) : Option (Option Nat) :=
  if buf cursor = 101 ∨ buf cursor = 69 then skipIv buf rounds (afterSign buf (cursor + 1))
    else some (some cursor)

/-- `iv | nv | nvexp` -/
def skipDouble (rounds cursor : Nat) : Option (Option Nat) :=
  (skipDigits buf rounds (afterSign buf cursor)).bind fun whole =>
    if buf whole = 46 then
      (skipDigits buf rounds (whole + 1)).bind fun fraction =>
        -- there is a digit before or after the point
        if whole = afterSign buf cursor ∧ fraction = whole + 1 then some none
          else skipExponent buf rounds fraction
    else if whole = afterSign buf cursor then some none
    else skipExponent buf rounds whole

inductive Rule where
  | ref
  | objectRef
  | null
  | bool
  | long
  | special
  | double
  | string
  | escaped
  | array
  | oldObject
  | object
  | brace
  | any
  deriving DecidableEq, Repr

/-- A colon, a part that the argument matches, and a text. -/
def field (part : Nat → Option (Option Nat)) (tail : Bytes) (cursor : Nat) : Option (Option Nat) :=
  match matchText buf (ascii ":") cursor with
  | none => some none
  | some cursor => (part cursor).map fun after => after.bind (matchText buf tail)

def matchOne (texts : List Bytes) (cursor : Nat) : Option Nat :=
  texts.findSome? fun text => matchText buf text cursor

/-- The rule, or `any` if it does not match. -/
def Rule.orAny (rule : Rule) (start : Nat) : Option Nat → Rule × Nat
  | some cursor => (rule, cursor)
  | none => (.any, start + 1)

/-- The rule that matches at `start`, and `YYCURSOR` after it. -/
def scan (rounds start : Nat) : Option (Rule × Nat) :=
  let c := buf start
  let next := start + 1
  if c = 82 then (field buf (skipIv buf rounds) (ascii ";") next).map (Rule.ref.orAny start)
  else if c = 114 then (field buf (skipIv buf rounds) (ascii ";") next).map
    (Rule.objectRef.orAny start)
  else if c = 78 then some (Rule.null.orAny start (matchText buf (ascii ";") next))
  else if c = 98 then some (Rule.bool.orAny start (matchOne buf [ascii ":0;", ascii ":1;"] next))
  else if c = 105 then (field buf (skipIv buf rounds) (ascii ";") next).map (Rule.long.orAny start)
  else if c = 100 then
    match matchOne buf [ascii ":NAN;", ascii ":INF;", ascii ":-INF;"] next with
    | some cursor => some (.special, cursor)
    | none => (field buf (skipDouble buf rounds) (ascii ";") next).map (Rule.double.orAny start)
  else if c = 115 then (field buf (skipUiv buf rounds) (ascii ":\"") next).map
    (Rule.string.orAny start)
  else if c = 83 then (field buf (skipUiv buf rounds) (ascii ":\"") next).map
    (Rule.escaped.orAny start)
  else if c = 97 then (field buf (skipUiv buf rounds) (ascii ":\x7b") next).map
    (Rule.array.orAny start)
  else if c = 111 then (field buf (skipIv buf rounds) (ascii ":\"") next).map
    (Rule.oldObject.orAny start)
  else if c = 79 ∨ c = 67 then (field buf (skipUiv buf rounds) (ascii ":\"") next).map
    (Rule.object.orAny start)
  else if c = 125 then some (.brace, next)
  else some (.any, next)

/-! ### Strings -/

def bytes (p len : Nat) : Bytes := (List.range len).map fun i => buf (p + i)

/-- The loop of `unserialize_str`: the string and the pointer after it, or NULL. -/
def unserializeStr (last : Nat) : Nat → Nat → Bytes → Option (Bytes × Nat)
  | 0, p, str => some (str, p)
  | len + 1, p, str =>
    if p ≥ last then none
    else if buf p ≠ 92 then unserializeStr last len (p + 1) (str ++ [buf p])
    else
      match hexValue (buf (p + 1)) with
      | none => none
      | some high =>
        match hexValue (buf (p + 2)) with
        | none => none
        | some low => unserializeStr last len (p + 3) (str ++ [high * 16 + low])

def isClassChar (c : UInt8) : Bool :=
  isDigit c || c = 95 || (97 ≤ c && c ≤ 122) || (65 ≤ c && c ≤ 90) || 127 ≤ c || c = 92

/-- `strspn` for these characters. -/
def strspn : Nat → Nat → Option Nat
  | 0, _ => none
  | rounds + 1, p => if isClassChar (buf p) then (strspn rounds (p + 1)).map (· + 1) else some 0

end scanner

/-! ### What the reader asks for -/

inductive Scalar where
  | null
  | bool (v : Long)
  | long (v : Long)
  /-- `NAN`, `INF` and `-INF` -/
  | special (text : Bytes)
  | double (text : Bytes)
  | string (str : Bytes)

inductive Warning where
  /-- `Insufficient data for unserializing - %ld required, %ld present` -/
  | insufficientData (required present : Int)
  /-- `Class %s has no unserializer` -/
  | noUnserializer
  /-- `Bad unserialize data` -/
  | badData
  /-- `Erroneous data format for unserializing '%s'` -/
  | erroneousFormat
  /-- `defined (%s) but not found` -/
  | callbackNotFound
  /-- `Function %s() hasn't defined the class it was called for` -/
  | classNotDefined
  /-- `Unexpected end of serialized data` -/
  | unexpectedEnd

/-- The rest of the program, with states `σ`, zvals `ρ`, hash tables `τ` and classes `γ`. -/
structure Env (σ ρ τ γ : Type) where
  /-- `ALLOC_INIT_ZVAL` -/
  allocInitZval : σ → σ × ρ
  varPush : σ → ρ → σ
  varAccess : σ → Long → Option ρ
  /-- `*rval == *rval_ref` -/
  sameZval : σ → ρ → ρ → Bool
  /-- `*rval = *rval_ref`, with the reference flag set or cleared. -/
  refer : σ → ρ → ρ → Bool → σ
  assign : σ → ρ → Scalar → σ
  /-- `Z_TYPE_P` is `IS_LONG` or `IS_STRING`. -/
  isKey : σ → ρ → Bool
  isObject : σ → ρ → Bool
  /-- `array_init_size` -/
  arrayInit : σ → ρ → Long → σ
  arrval : σ → ρ → τ
  objprop : σ → ρ → τ
  /-- The value goes to the table of an array, or of an object; what was there is kept for
  destruction. -/
  update : σ → τ → Bool → ρ → ρ → σ
  /-- `var_push_dtor_no_addref`, when reading fails. -/
  pushDtor : σ → ρ → σ
  /-- A partially constructed object is cleaned and becomes NULL. -/
  wipe : σ → ρ → σ
  /-- An object with `__wakeup` is stored for the delayed call. -/
  delayWakeup : σ → ρ → σ
  /-- `object_init_ex` -/
  objectInit : σ → ρ → γ → σ
  storeClassName : σ → ρ → Bytes → σ
  standardClass : γ
  incompleteClass : γ
  /-- `ce->serialize != NULL` -/
  serializes : γ → Bool
  /-- `ce->unserialize`, which may run any code. -/
  unserializer : γ → Option (σ → ρ → Bytes → σ × Bool)
  lookupClass : σ → Bytes → σ × Option γ
  exception : σ → Bool
  /-- There is an `unserialize_callback_func`. -/
  hasCallback : σ → Bool
  callCallback : σ → Bytes → σ × Bool
  warn : σ → Warning → σ

/-! ### Nested data and objects -/

section reader

variable {σ ρ τ γ : Type} (env : Env σ ρ τ γ) (buf : Buffer) (max : Nat)

/-- The state, `*p` and whether 1 is returned. -/
abbrev Outcome (σ : Type) := σ × Nat × Bool

/-- `process_nested_data`; `read` is the recursive call, with or without `var_hash`. -/
def processNestedData (read : σ → ρ → Bool → Nat → Option (Outcome σ)) (ht : τ) (objprops : Bool) :
    Nat → σ → Nat → Option (Outcome σ)
  | 0, w, p => some (w, p, true)
  | elements + 1, w, p =>
    let (w, key) := env.allocInitZval w
    (read w key false p).bind fun (w, p, ok) =>
      if ¬ ok then some (env.pushDtor w key, p, false)
      else if ¬ env.isKey w key then some (env.pushDtor w key, p, false)
      else
        let (w, data) := env.allocInitZval w
        (read w data true p).bind fun (w, p, ok) =>
          if ¬ ok then some (env.pushDtor (env.pushDtor w key) data, p, false)
          else
            let w := env.update w ht objprops key data
            if elements ≠ 0 ∧ buf (p - 1) ≠ 59 ∧ buf (p - 1) ≠ 125 then some (w, p - 1, false)
            else processNestedData read ht objprops elements w p

def finishNestedData (w : σ) (p : Nat) : Outcome σ :=
  if p ≥ max ∨ buf p ≠ 125 then (w, p, false) else (w, p + 1, true)

def objectCustom (rounds : Nat) (w : σ) (rval : ρ) (p : Nat) (ce : γ) : Option (Outcome σ) :=
  (parseIv2 buf rounds (p + 2)).map fun (datalen, q) =>
    let p := q + 2
    if datalen.toInt < 0 ∨ (max : Int) - p ≤ datalen.toInt then
      (env.warn w (.insufficientData datalen.toInt ((max : Int) - p)), p, false)
    else
      match env.unserializer ce with
      | none =>
        finishNestedData buf max (env.objectInit (env.warn w .noUnserializer) rval ce)
          (p + datalen.toNat)
      | some unserialize =>
        let (w, success) := unserialize w rval (bytes buf p datalen.toNat)
        if success then finishNestedData buf max w (p + datalen.toNat) else (w, p, false)

/-- `object_common1`: the state, `*p` and the number of elements, which is -1 after an error. -/
def objectCommon1 (rounds : Nat) (w : σ) (rval : ρ) (p : Nat) (ce : γ) : Option (σ × Nat × Long) :=
  if p + 2 ≥ max then some (env.warn w .badData, p, -1)
  else
    (parseIv2 buf rounds (p + 2)).map fun (elements, q) =>
      if env.serializes ce then (env.warn w .erroneousFormat, q + 2, -1)
      else (env.objectInit w rval ce, q + 2, elements)

def objectCommon2 (read : σ → ρ → Bool → Nat → Option (Outcome σ)) (w : σ) (rval : ρ) (p : Nat)
    (elements : Long) :
    Option (Outcome σ) :=
  if ¬ env.isObject w rval then some (w, p, false)
  else
    (processNestedData env buf read (env.objprop w rval) true elements.toInt.toNat w p).map
      fun (w, p, ok) =>
      if ¬ ok then (env.wipe w rval, p, false)
      else if ¬ env.isObject w rval then (w, p, false)
      else finishNestedData buf max (env.delayWakeup w rval) p

/-- The class of an object record and whether it is the incomplete class; nothing after an
exception. -/
def findClass (w : σ) (name : Bytes) : σ × Option (γ × Bool) :=
  match env.lookupClass w name with
  | (w, some ce) => (w, if env.exception w then none else some (ce, false))
  | (w, none) =>
    if env.exception w then (w, none)
    else if ¬ env.hasCallback w then (w, some (env.incompleteClass, true))
    else
      let (w, success) := env.callCallback w name
      if env.exception w then (w, none)
      else if ¬ success then (env.warn w .callbackNotFound, some (env.incompleteClass, true))
      else
        -- the callback function may have defined the class
        match env.lookupClass w name with
        | (w, some ce) => (w, some (ce, false))
        | (w, none) => (env.warn w .classNotDefined, some (env.incompleteClass, true))

/-- The difference `max - p` as a `size_t`. -/
def sizeUpTo (p : Nat) : Nat := (max + 2 ^ 64 - p) % 2 ^ 64

/-- The action of `object ":" uiv ":" ["]`. -/
def readObject (read : σ → ρ → Bool → Nat → Option (Outcome σ)) (rounds : Nat) (w : σ) (rval : ρ)
    (start cursor : Nat) :
    Option (Outcome σ) :=
  (parseUiv buf rounds (start + 2)).bind fun len =>
    if sizeUpTo max cursor < len ∨ len = 0 then some (w, start + 2, false)
    else if buf (cursor + len) ≠ 34 then some (w, cursor + len, false)
    else if buf (cursor + len + 1) ≠ 58 then some (w, cursor + len + 1, false)
    else
      (strspn buf rounds cursor).bind fun len3 =>
        if len3 ≠ len then some (w, cursor + len3, false)
        else
          let name := bytes buf cursor len
          match findClass env w name with
          | (w, none) => some (w, start, false)
          | (w, some (ce, incomplete)) =>
            if buf start = 67 then
              (objectCustom env buf max rounds w rval (cursor + len) ce).map fun (w, p, ok) =>
                (if ok ∧ incomplete then env.storeClassName w rval name else w, p, ok)
            else
              (objectCommon1 env buf max rounds w rval (cursor + len) ce).bind
                fun (w, p, elements) =>
                if elements.toInt < 0 then some (w, p, false)
                else
                  let w := if incomplete then env.storeClassName w rval name else w
                  objectCommon2 env buf max read w rval p elements

/-- The end of a string record, after the characters. -/
def finishString (w : σ) (rval : ρ) (cursor : Nat) (str : Bytes) : Outcome σ :=
  if buf cursor ≠ 34 then (w, cursor, false)
  else if buf (cursor + 1) ≠ 59 then (w, cursor + 1, false)
  else (env.assign w rval (.string str), cursor + 2, true)

/-- The actions; `start` is `*p` and `cursor` is `YYCURSOR`. -/
def act (read : σ → ρ → Bool → Nat → Option (Outcome σ)) (rounds : Nat) (w : σ) (rval : ρ)
    (hash : Bool) (start cursor : Nat) : Rule → Option (Outcome σ)
  | .ref =>
    if ¬ hash then some (w, cursor, false)
    else
      (parseIv buf rounds (start + 2)).map fun number =>
        if number - 1 = -1 then (w, cursor, false)
        else
          match env.varAccess w (number - 1) with
          | none => (w, cursor, false)
          | some rvalRef => (env.refer w rval rvalRef true, cursor, true)
  | .objectRef =>
    if ¬ hash then some (w, cursor, false)
    else
      (parseIv buf rounds (start + 2)).map fun number =>
        if number - 1 = -1 then (w, cursor, false)
        else
          match env.varAccess w (number - 1) with
          | none => (w, cursor, false)
          | some rvalRef =>
            if env.sameZval w rval rvalRef then (w, cursor, false)
            else (env.refer w rval rvalRef false, cursor, true)
  | .null => some (env.assign w rval .null, cursor, true)
  | .bool =>
    (parseIv buf rounds (start + 2)).map fun v => (env.assign w rval (.bool v), cursor, true)
  | .long =>
    (parseIv buf rounds (start + 2)).map fun v => (env.assign w rval (.long v), cursor, true)
  | .special =>
    some (env.assign w rval (.special (bytes buf (start + 2) (cursor - start - 3))), cursor, true)
  | .double =>
    some (env.assign w rval (.double (bytes buf (start + 2) (cursor - start - 3))), cursor, true)
  | .string =>
    (parseUiv buf rounds (start + 2)).map fun len =>
      if sizeUpTo max cursor < len then (w, start + 2, false)
      else finishString env buf w rval (cursor + len) (bytes buf cursor len)
  | .escaped =>
    (parseUiv buf rounds (start + 2)).map fun len =>
      if sizeUpTo max cursor < len then (w, start + 2, false)
      else
        match unserializeStr buf (cursor + sizeUpTo max cursor) len cursor [] with
        | none => (w, start, false)
        | some (str, cursor) => finishString env buf w rval cursor str
  | .array =>
    (parseIv buf rounds (start + 2)).bind fun elements =>
      if ¬ hash then some (w, cursor, false)
      else if elements.toInt < 0 then some (w, cursor, false)
      else
        let w := env.arrayInit w rval elements
        (processNestedData env buf read (env.arrval w rval) false elements.toInt.toNat w cursor).map
          fun (w, p, ok) =>
          if ¬ ok then (w, p, false) else finishNestedData buf max w p
  | .oldObject =>
    if ¬ hash then some (w, start, false)
    else
      -- `*p` is still at the start of the record
      (objectCommon1 env buf max rounds w rval start env.standardClass).bind fun (w, p, elements) =>
        if elements.toInt < 0 then some (w, p, false)
          else objectCommon2 env buf max read w rval p elements
  | .object =>
    if ¬ hash then some (w, start, false) else readObject env buf max read rounds w rval
      start cursor
  | .brace => some (env.warn w .unexpectedEnd, start, false)
  | .any => some (w, start, false)

def jonjVarUnserialize : Nat → σ → ρ → Bool → Nat → Option (Outcome σ)
  | 0, _, _, _, _ => none
  | rounds + 1, w, rval, hash, p =>
    if p ≥ max then some (w, p, false)
    else
      let w := if hash ∧ buf p ≠ 82 then env.varPush w rval else w
      (scan buf rounds p).bind fun (rule, cursor) =>
        act env buf max (jonjVarUnserialize rounds) rounds w rval hash p cursor rule

end reader

end Jonj.Serialize.Pointer
