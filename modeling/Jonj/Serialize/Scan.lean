import Jonj.Serialize.Writer
import Jonj.Serialize.Reader

/-!
# What the reader makes of the writer's records

One lemma for each kind of record that `jonj_var_serialize` writes.
-/
namespace Jonj.Serialize

open Decimal List Reader

/-! ### Numbers -/

variable {n : Nat}

theorem isDigit_of_mem_printUnsigned {c : UInt8} (member : c ∈ printUnsigned n) :
    isDigit c = true := isDigit_of_mem_writeDigits member

theorem parseDigits_printUnsigned (fits : n < 2 ^ 64) :
    parseDigits (printUnsigned n) = BitVec.ofNat 64 n := by
  have read : readDigits 0 (writeDigits 20 n []) = n := readDigits_writeDigits (by omega)
  rw [parseDigits, printUnsigned, read]

variable {rest : Bytes}

theorem span_printUnsigned (n : Nat) (stop : ∀ c ∈ rest.head?, isDigit c = false) :
    (printUnsigned n ++ rest).takeWhile isDigit = printUnsigned n ∧
      (printUnsigned n ++ rest).dropWhile isDigit = rest :=
  span_digits (fun _ member => isDigit_of_mem_printUnsigned member) stop

private theorem printUnsigned_cons (n : Nat) :
    ∃ c rest, printUnsigned n = c :: rest ∧ isDigit c = true := by
  obtain ⟨c, rest, same⟩ := exists_cons_of_ne_nil (writeDigits_ne_nil 19 n)
  refine ⟨c, rest, same, ?_⟩
  exact isDigit_of_mem_printUnsigned (n := n) (by rw [printUnsigned, same]; simp)

theorem head_printUnsigned_append (n : Nat) (rest : Bytes) :
    (printUnsigned n ++ rest).head? ≠ some 43 ∧ (printUnsigned n ++ rest).head? ≠ some 45 := by
  obtain ⟨c, more, same, digit⟩ := printUnsigned_cons n
  rw [same]
  constructor <;>
  · intro sign
    cases sign
    cases digit

theorem dropSign_printUnsigned (n : Nat) (rest : Bytes) :
    dropSign (printUnsigned n ++ rest) = printUnsigned n ++ rest := by
  obtain ⟨plus, minus⟩ := head_printUnsigned_append n rest
  rw [dropSign, if_neg (not_or.mpr ⟨plus, minus⟩)]

theorem printUnsigned_ne_nil (n : Nat) : printUnsigned n ≠ [] := writeDigits_ne_nil 19 n

/-- The number is read up to the byte that ends it. -/
theorem parseIv2_printUnsigned (fits : n < 2 ^ 64) (stop : ∀ c ∈ rest.head?, isDigit c = false) :
    parseIv2 (printUnsigned n ++ rest) = (BitVec.ofNat 64 n, rest) := by
  obtain ⟨digits, after⟩ := span_printUnsigned n stop
  rw [parseIv2, dropSign_printUnsigned, digits, after,
    if_neg (head_printUnsigned_append n rest).2, parseDigits_printUnsigned fits]

/-- Also `LONG_MIN` comes back, through its unsigned absolute value. -/
theorem parseIv2_printLong (v : Long)
    (stop : ∀ c ∈ rest.head?, isDigit c = false) : parseIv2 (printLong v ++ rest) = (v, rest) := by
  rw [printLong]
  split
  · obtain ⟨digits, after⟩ := span_printUnsigned (-v).toNat stop
    have body : dropSign (ascii "-" ++ printUnsigned (-v).toNat ++ rest) =
      printUnsigned (-v).toNat ++ rest := rfl
    have back : BitVec.ofNat 64 (-v).toNat = -v := by rw [BitVec.ofNat_toNat, BitVec.setWidth_eq]
    rw [parseIv2, body, digits, after, parseDigits_printUnsigned (BitVec.isLt _), back]
    simp [ascii]
  · rw [parseIv2_printUnsigned v.isLt stop]
    simp

theorem scanIv_printLong (v : Long) (stop : ∀ c ∈ rest.head?, isDigit c = false) :
    scanIv (printLong v ++ rest) = some (v, rest) := by
  have some : (dropSign (printLong v ++ rest)).takeWhile isDigit ≠ [] := by
    rw [printLong]
    split
    · have body : dropSign (ascii "-" ++ printUnsigned (-v).toNat ++ rest) =
          printUnsigned (-v).toNat ++ rest := rfl
      rw [body, (span_printUnsigned _ stop).1]
      exact printUnsigned_ne_nil _
    · rw [dropSign_printUnsigned, (span_printUnsigned _ stop).1]
      exact printUnsigned_ne_nil _
  rw [scanIv, if_neg some, parseIv2_printLong v stop]

theorem scanUiv_printUnsigned (fits : n < 2 ^ 64) (stop : ∀ c ∈ rest.head?, isDigit c = false) :
    scanUiv (printUnsigned n ++ rest) = some (BitVec.ofNat 64 n, rest) := by
  obtain ⟨digits, after⟩ := span_printUnsigned n stop
  have plus := (head_printUnsigned_append n rest).1
  simp only [scanUiv, if_neg plus, digits, after, if_neg (printUnsigned_ne_nil n),
    parseDigits_printUnsigned fits]

theorem printInt_of_nonneg {v : BitVec 32} (nonneg : 0 ≤ v.toInt) :
    printInt v = printUnsigned v.toNat := by
  rw [printInt, if_neg (by omega)]

theorem toInt_ofNat (fits : n < 2 ^ 31) : (BitVec.ofNat 32 n).toInt = n := by
  rw [BitVec.toInt_eq_toNat_bmod, BitVec.toNat_ofNat, Int.bmod_def]
  omega

private theorem printInt_length (fits : n < 2 ^ 31) :
    printInt (BitVec.ofNat 32 n) = printUnsigned n := by
  rw [printInt_of_nonneg (by rw [toInt_ofNat fits]; omega), BitVec.toNat_ofNat,
    Nat.mod_eq_of_lt (by omega)]

theorem skip_append (text : String) (rest : Bytes) :
    skip text (ascii text ++ rest) = some rest := by
  have starts : (ascii text).isPrefixOf (ascii text ++ rest) = true :=
    List.isPrefixOf_iff_prefix.mpr (prefix_append _ _)
  rw [skip, if_pos starts, drop_left]

/-! ### Records -/

theorem notDigit_semicolon (rest : Bytes) : ∀ c ∈ (ascii ";" ++ rest).head?, isDigit c = false := by
  intro c first
  cases first
  rfl

theorem notDigit_colon (rest : Bytes) : ∀ c ∈ (58 :: rest : Bytes).head?, isDigit c = false := by
  intro c first
  cases first
  rfl

private theorem scan_long (v : Long) (rest : Bytes) :
    scan (longRecord v ++ rest) = some (.long v, rest) := by
  have shape : longRecord v ++ rest = 105 :: (ascii ":" ++
      (printLong v ++ (ascii ";" ++ rest))) := by
    simp [longRecord, ascii]
  rw [shape]
  simp only [scan, skip_append, Option.bind_some, scanIv_printLong v (notDigit_semicolon rest)]
  rfl

theorem scan_ref (n : Long) (rest : Bytes) :
    scan (ascii "R:" ++ printLong n ++ ascii ";" ++ rest) = some (.ref n, rest) := by
  have shape : ascii "R:" ++ printLong n ++ ascii ";" ++ rest =
      82 :: (ascii ":" ++ (printLong n ++ (ascii ";" ++ rest))) := by simp [ascii]
  rw [shape]
  simp only [scan, skip_append, Option.bind_some, scanIv_printLong n (notDigit_semicolon rest)]
  rfl

theorem scan_objectRef (n : Long) (rest : Bytes) :
    scan (ascii "r:" ++ printLong n ++ ascii ";" ++ rest) = some (.objectRef n, rest) := by
  have shape : ascii "r:" ++ printLong n ++ ascii ";" ++ rest =
      114 :: (ascii ":" ++ (printLong n ++ (ascii ";" ++ rest))) := by simp [ascii]
  rw [shape]
  simp only [scan, skip_append, Option.bind_some, scanIv_printLong n (notDigit_semicolon rest)]
  rfl

theorem scanLength (fits : n < 2 ^ 31) (rest : Bytes) :
    scanUiv (printInt (BitVec.ofNat 32 n) ++ (58 :: rest)) =
      some (BitVec.ofNat 64 n, 58 :: rest) := by
  rw [printInt_length fits]
  exact scanUiv_printUnsigned (by omega) (notDigit_colon rest)

theorem toNat_length (fits : n < 2 ^ 31) : (BitVec.ofNat 64 n).toNat = n := by
  rw [BitVec.toNat_ofNat, Nat.mod_eq_of_lt (by omega)]

/-- The scanner stops behind the opening quote. -/
theorem scan_string (str : Str) (rest : Bytes) : scan (stringRecord str ++ rest) =
      some (.string str.bytes.length, str.bytes ++ (ascii "\";" ++ rest)) := by
  have shape : stringRecord str ++ rest = 115 :: (ascii ":" ++
      (printInt (BitVec.ofNat 32 str.bytes.length) ++
        (58 :: 34 :: (str.bytes ++ (ascii "\";" ++ rest))))) := by
    simp [stringRecord, ascii]
  rw [shape]
  simp only [scan, skip_append, Option.bind_some, scanLength str.fits]
  change some (Token.string (BitVec.ofNat 64 str.bytes.length).toNat, _) = _
  rw [toNat_length str.fits]
  rfl

theorem scan_className (name : Str) (rest : Bytes) : scan (className name ++ rest) =
      some (.object false name.bytes.length, name.bytes ++ (ascii "\":" ++ rest)) := by
  have shape : className name ++ rest = 79 :: (ascii ":" ++
      (printInt (BitVec.ofNat 32 name.bytes.length) ++
        (58 :: 34 :: (name.bytes ++ (ascii "\":" ++ rest))))) := by
    simp [className, ascii]
  rw [shape]
  simp only [scan, skip_append, Option.bind_some, scanLength name.fits]
  change some (Token.object false (BitVec.ofNat 64 name.bytes.length).toNat, _) = _
  rw [toNat_length name.fits]
  rfl

variable {count : BitVec 32}

private theorem scan_array (nonneg : 0 ≤ count.toInt) (rest : Bytes) :
    scan (ascii "a:" ++ (printInt count ++ ascii ":\x7b") ++ rest) =
      some (.array (BitVec.ofNat 64 count.toNat), rest) := by
  have shape : ascii "a:" ++ (printInt count ++ ascii ":\x7b") ++ rest = 97 :: (ascii ":" ++
      (printInt count ++ (58 :: 123 :: rest))) := by
    simp [ascii]
  have bound : count.toNat < 2 ^ 64 := by omega
  rw [shape, printInt_of_nonneg nonneg]
  simp only [scan, skip_append, Option.bind_some, scanUiv_printUnsigned bound (notDigit_colon _)]
  rfl

/-- A negative count is refused by the scanner: its pattern has no minus sign. -/
theorem scan_negativeArray (negative : count.toInt < 0) (rest : Bytes) :
    scan (ascii "a:" ++ (printInt count ++ ascii ":\x7b") ++ rest) = none := by
  rw [printInt, if_pos negative]
  rfl

/-- The pattern of a double is tried up to the semicolon. -/
theorem scan_double {text : Bytes} (accepted : isDoubleText text = true) (plain : 59 ∉ text)
    (rest : Bytes) :
    scan (ascii "d:" ++ text ++ ascii ";" ++ rest) = some (.double text, rest) := by
  have shape : ascii "d:" ++ text ++ ascii ";" ++
      rest = 100 :: (ascii ":" ++ (text ++ (59 :: rest))) := by
    simp [ascii]
  have upTo : (text ++ (59 :: rest)).takeWhile (fun c => decide (c ≠ 59)) = text := by
    rw [takeWhile_append_of_pos (by
      intro c member
      have other : c ≠ 59 := fun same => plain (same ▸ member)
      simpa using other)]
    simp
  rw [shape]
  simp only [scan, skip_append, Option.bind_some, Option.bind_eq_bind, upTo, accepted, if_true,
    drop_left]
  rfl

section records

variable {D : Type} {env : Env D} {depth : Nat} {r : Reader D} {rval : Addr} {rest : Bytes}
  {hash : Bool}

/-- A call is the scan, the slot and the action of the token. -/
theorem unserialize_of_scan {token : Token} (scanned : scan r.input = some (token, rest)) :
    unserialize env (depth + 1) r rval hash = (r.push rval hash).act env (unserialize env depth)
      rval hash rest token := by
  have some : r.input ≠ [] := by
    intro empty
    rw [empty] at scanned
    cases scanned
  rw [unserialize, if_neg some, scanned]

theorem unserialize_null (input : r.input = ascii "N;" ++ rest) :
    unserialize env (depth + 1) r rval hash =
      ({ (r.push rval hash).setValue rval .null with input := rest }, some rval) := by
  rw [unserialize_of_scan (by rw [input]; rfl)]
  rfl

theorem unserialize_bool {b : Bool}
    (input : r.input = ascii "b:" ++ printLong (if b then 1 else 0) ++ ascii ";" ++ rest) :
    unserialize env (depth + 1) r rval hash =
      ({ (r.push rval hash).setValue rval (.bool b) with input := rest }, some rval) := by
  have scanned : scan r.input = some (.bool b, rest) := by
    rw [input]
    cases b <;> rfl
  rw [unserialize_of_scan scanned]
  rfl

theorem unserialize_long {v : Long} (input : r.input = longRecord v ++ rest) :
    unserialize env (depth + 1) r rval hash =
      ({ (r.push rval hash).setValue rval (.long v) with input := rest }, some rval) := by
  rw [unserialize_of_scan (by rw [input]; exact scan_long v rest)]
  rfl

theorem unserialize_string {str : Str} (input : r.input = stringRecord str ++ rest) :
    unserialize env (depth + 1) r rval hash =
      ({ (r.push rval hash).setValue rval (.string str) with input := rest }, some rval) := by
  rw [unserialize_of_scan (by rw [input]; exact scan_string str rest)]
  have long : ¬ (str.bytes ++ (ascii "\";" ++ rest)).length < str.bytes.length := by simp
  simp only [act, if_neg long, take_left', drop_left', finishString,
    dif_pos str.fits, skip_append]

theorem unserialize_array (nonneg : 0 ≤ count.toInt)
    (input : r.input = ascii "a:" ++ (printInt count ++ ascii ":\x7b") ++ rest) :
    unserialize env (depth + 1) r rval true =
      { (r.push rval true).initArray rval with input := rest }.readNested
        (unserialize env depth) rval (.array (r.push rval true).nextTable)
        (BitVec.ofNat 64 count.toNat) := by
  rw [unserialize_of_scan (by rw [input]; exact scan_array nonneg rest)]
  rfl

def Key.value : Key → Value D
  | .long index => .long index
  | .string name => .string name

/-- A key is read like a value, but gets no slot. -/
theorem unserialize_key {key : Key} (input : r.input = keyRecord key ++ rest) :
    unserialize env (depth + 1) r rval false = ({ r.setValue rval key.value with input := rest },
      some rval) := by
  cases key with
  | long index => exact unserialize_long input
  | string name => exact unserialize_string input

/-- The state in which the value after a key is read, and where it goes. -/
def Reader.afterKey (r : Reader D) (key : Key) (rest : Bytes) : Reader D × Addr :=
  Reader.allocZval { r.allocZval.1.setValue r.nextZval key.value with input := rest }

/-- One element: its key, then its value with one level less. -/
theorem processNestedData_succ {target : Target} {key k : Key} {count : Nat}
    (input : r.input = keyRecord key ++ rest)
    (kept : tableKey target (key.value : Value D) = some k) :
    processNestedData (unserialize env (depth + 1)) target (count + 1) r =
      match unserialize env (depth + 1) (r.afterKey key rest).1 (r.afterKey key rest).2 true with
      | (r, none) => (r, false)
      | (r, some data) =>
        if count ≠ 0 ∧ rest[rest.length - (r.update target k data).input.length - 1]? ≠ some 59 ∧
            rest[rest.length - (r.update target k data).input.length - 1]? ≠ some 125 then
          (r.update target k data, false)
        else
          processNestedData (unserialize env (depth + 1)) target count
            (r.update target k data) := by
  have read : unserialize env (depth + 1) r.allocZval.1 r.nextZval false =
      ({ r.allocZval.1.setValue r.nextZval key.value with input := rest }, some r.nextZval) :=
    unserialize_key input
  have value : ((r.allocZval.1.setValue r.nextZval (key.value : Value D)).mem.zvals
    r.nextZval).value =
      key.value := by simp [setValue]
  have keyAt : r.allocZval.2 = r.nextZval := rfl
  rw [processNestedData]
  simp only [keyAt, read, value, kept]
  rfl

@[simp] theorem update_input (target : Target) (k : Key) (data : Addr) :
    (r.update target k data).input = r.input := by
  cases target <;> rfl

/-- The loop goes on after a value that ends with a semicolon or a brace. -/
theorem processNestedData_next {target : Target} {key k : Key} {count : Nat} {r' : Reader D}
    {data : Addr} (input : r.input = keyRecord key ++ rest)
    (kept : tableKey target (key.value : Value D) = some k)
    (read : unserialize env (depth + 1) (r.afterKey key rest).1 (r.nextZval + 1) true =
      (r', some data))
    (ends : rest[rest.length - r'.input.length - 1]? = some 59 ∨
      rest[rest.length - r'.input.length - 1]? = some 125) :
    processNestedData (unserialize env (depth + 1)) target (count + 1) r =
      processNestedData (unserialize env (depth + 1)) target count (r'.update target k data) := by
  have goOn : ¬ (count ≠ 0 ∧ rest[rest.length - (r'.update target k data).input.length -
    1]? ≠ some 59 ∧
      rest[rest.length - (r'.update target k data).input.length - 1]? ≠ some 125) := by
    rw [update_input]
    rintro ⟨_, semicolon, brace⟩
    exact ends.elim semicolon brace
  have dataAt : (r.afterKey key rest).2 = r.nextZval + 1 := rfl
  rw [processNestedData_succ input kept, dataAt, read]
  exact if_neg goOn

end records

end Jonj.Serialize
