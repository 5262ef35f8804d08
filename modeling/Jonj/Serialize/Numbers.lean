import Jonj.Serialize.References

/-!
# The numbers of a record

`parse_iv2` takes as many digits as there are and lets the result wrap around. This is what it does
to the records whose number is the value itself (`i:`) or the number of elements (`a:`).
-/
namespace Jonj.Serialize

open Decimal List Reader

inductive Sign where
  | bare
  | plus
  | minus
  deriving DecidableEq, Repr

def Sign.text : Sign → Bytes
  | bare => []
  | plus => ascii "+"
  | minus => ascii "-"

/-- What `iv` matches. -/
structure Numeral where
  sign : Sign
  digits : Bytes
  nonempty : digits ≠ []
  allDigits : ∀ c ∈ digits, isDigit c = true

namespace Numeral

def text (n : Numeral) : Bytes := n.sign.text ++ n.digits

/-- The number that the text stands for. -/
def value (n : Numeral) : Int :=
  match n.sign with
  | .minus => -(readDigits 0 n.digits : Int)
  | _ => readDigits 0 n.digits

def Representable (n : Numeral) : Prop := -2 ^ 63 ≤ n.value ∧ n.value < 2 ^ 63

instance (n : Numeral) : Decidable n.Representable :=
  inferInstanceAs (Decidable (-2 ^ 63 ≤ n.value ∧ n.value < 2 ^ 63))

variable {n : Numeral} {rest : Bytes}

section

variable (n : Numeral)

theorem head_digits (rest : Bytes) :
    (n.digits ++ rest).head? ≠ some 43 ∧ (n.digits ++ rest).head? ≠ some 45 := by
  obtain ⟨c, more, same⟩ := exists_cons_of_ne_nil n.nonempty
  have digit : isDigit c = true := n.allDigits c (by rw [same]; exact mem_cons_self)
  rw [same]
  constructor <;>
  · intro sign
    cases sign
    cases digit

theorem dropSign_text (rest : Bytes) : dropSign (n.text ++ rest) = n.digits ++ rest := by
  obtain ⟨plus, minus⟩ := n.head_digits rest
  cases kind : n.sign with
  | bare =>
    rw [text, kind, Sign.text, nil_append, dropSign, if_neg (not_or.mpr ⟨plus, minus⟩)]
  | plus =>
    rw [text, kind, append_assoc]
    rfl
  | minus =>
    rw [text, kind, append_assoc]
    rfl

private theorem head_text (rest : Bytes) : (n.text ++ rest).head? = some 45 ↔ n.sign = .minus := by
  cases kind : n.sign with
  | bare => simpa [text, kind, Sign.text] using (n.head_digits rest).2
  | plus => simp [text, kind, Sign.text, ascii]
  | minus => simp [text, kind, Sign.text, ascii]

private theorem parseIv2_text (stop : ∀ c ∈ rest.head?, isDigit c = false) :
    parseIv2 (n.text ++ rest) = (BitVec.ofInt 64 n.value, rest) := by
  obtain ⟨digits, after⟩ := span_digits n.allDigits stop
  have read : parseDigits n.digits = BitVec.ofInt 64 (readDigits 0 n.digits : Int) := by
    rw [parseDigits, BitVec.ofInt_natCast]
  simp only [parseIv2, n.dropSign_text, digits, after, n.head_text, read, value]
  cases n.sign with
  | minus => simp [BitVec.ofInt_neg]
  | _ => simp

private theorem scanIv_text (stop : ∀ c ∈ rest.head?, isDigit c = false) :
    scanIv (n.text ++ rest) = some (BitVec.ofInt 64 n.value, rest) := by
  rw [scanIv, n.dropSign_text, (span_digits n.allDigits stop).1, if_neg n.nonempty,
    n.parseIv2_text stop]

private theorem scanUiv_text (unsigned : n.sign ≠ .minus)
    (stop : ∀ c ∈ rest.head?, isDigit c = false) :
    scanUiv (n.text ++ rest) = some (BitVec.ofInt 64 n.value, rest) := by
  obtain ⟨digits, after⟩ := span_digits n.allDigits stop
  have body : (if (n.text ++ rest).head? = some 43 then (n.text ++ rest).tail else n.text ++ rest) =
      n.digits ++ rest := by
    cases kind : n.sign with
    | bare =>
      rw [text, kind, Sign.text, nil_append, if_neg (n.head_digits rest).1]
    | plus =>
      rw [text, kind, append_assoc]
      rfl
    | minus => exact absurd kind unsigned
  have positive : n.value = (readDigits 0 n.digits : Int) := by
    rw [value]
    cases kind : n.sign with
    | minus => exact absurd kind unsigned
    | _ => rfl
  simp only [scanUiv, body, digits, after, if_neg n.nonempty, parseDigits, positive,
    BitVec.ofInt_natCast]

theorem toInt_value_iff : (BitVec.ofInt 64 n.value).toInt = n.value ↔ n.Representable := by
  rw [BitVec.toInt_ofInt, Representable, Int.bmod_def]
  omega

end

end Numeral

/-! ### Elements -/

section elements

variable {D : Type} (unserialize : Reader D → Addr → Bool → Reader D × Option Addr)
    (target : Target)

/-- How many turns of the loop of `process_nested_data` read a key and a value. -/
def Reader.elementsRead : Nat → Reader D → Nat
  | 0, _ => 0
  | elements + 1, r =>
    match unserialize r.allocZval.1 r.allocZval.2 false with
    | (_, none) => 0
    | (r, some key) =>
      match Reader.tableKey target (r.mem.zvals key).value with
      | none => 0
      | some k =>
        match unserialize r.allocZval.1 r.allocZval.2 true with
        | (_, none) => 0
        | (r, some data) => Reader.elementsRead elements (r.update target k data) + 1

private theorem elementsRead_of_done {elements : Nat} {r r' : Reader D}
    (done : processNestedData unserialize target elements r = (r', true)) :
    elementsRead unserialize target elements r = elements := by
  induction elements generalizing r with
  | zero => rfl
  | succ elements ih =>
    rw [processNestedData] at done
    rw [elementsRead]
    rcases read : unserialize r.allocZval.1 r.allocZval.2 false with ⟨r₁, _ | key⟩
    · simp only [read] at done
      cases done
    simp only [read] at done ⊢
    cases kept : tableKey target (r₁.mem.zvals key).value with
    | none =>
      simp only [kept] at done
      cases done
    | some k =>
      simp only [kept] at done ⊢
      rcases second : unserialize r₁.allocZval.1 r₁.allocZval.2 true with ⟨r₂, _ | data⟩
      · simp only [second] at done
        cases done
      simp only [second] at done ⊢
      split at done
      · cases done
      · rw [ih done]

end elements

/-! ### What a record takes of the input -/

theorem length_skip {text : String} {input rest : Bytes} (skipped : skip text input = some rest) :
    rest.length + (ascii text).length = input.length := by
  rw [skip] at skipped
  split at skipped
  next begins =>
    obtain rfl := Option.some.inj skipped
    have inside := (List.isPrefixOf_iff_prefix.mp begins).length_le
    rw [length_drop]
    omega
  next => cases skipped

theorem length_dropSign_le (text : Bytes) : (dropSign text).length ≤ text.length := by
  rw [dropSign]
  split
  · rw [length_tail]
    omega
  · rfl

theorem length_parseIv2_le (p : Bytes) : (parseIv2 p).2.length ≤ p.length :=
  (dropWhile_sublist _).length_le.trans (length_dropSign_le p)

/-- Digits that are there are taken. -/
theorem length_dropWhile_lt {text : Bytes} (some : text.takeWhile isDigit ≠ []) :
    (text.dropWhile isDigit).length < text.length := by
  have whole := congrArg length (takeWhile_append_dropWhile (p := isDigit) (l := text))
  have positive := length_pos_iff.mpr some
  rw [length_append] at whole
  omega

private theorem length_scanIv {input rest : Bytes} {v : Long}
    (scanned : scanIv input = some (v, rest)) :
    rest.length < input.length := by
  rw [scanIv] at scanned
  split at scanned
  next => cases scanned
  next some =>
    obtain rfl := congrArg Prod.snd (Option.some.inj scanned)
    exact (length_dropWhile_lt some).trans_le (length_dropSign_le input)

private theorem length_scanUiv {input rest : Bytes} {v : Long}
    (scanned : scanUiv input = some (v, rest)) :
    rest.length < input.length := by
  have shorter : (if input.head? = some 43 then input.tail else input).length ≤ input.length := by
    split
    · rw [length_tail]
      omega
    · rfl
  rw [scanUiv] at scanned
  generalize (if input.head? = some 43 then input.tail else input) = body at scanned shorter
  split at scanned
  next => cases scanned
  next some =>
    obtain rfl := congrArg Prod.snd (Option.some.inj scanned)
    exact (length_dropWhile_lt some).trans_le shorter

/-- A colon, a number and the bytes behind it. -/
theorem length_field {scanNumber : Bytes → Option (Long × Bytes)}
    (shortens : ∀ {input rest v}, scanNumber input = some (v, rest) → rest.length < input.length)
    {behind : String} {input middle rest : Bytes} {v : Long}
    (number : (skip ":" input).bind scanNumber = some (v, middle))
    (ends : skip behind middle = some rest) (one : 1 ≤ (ascii behind).length) :
    rest.length + 3 ≤ input.length := by
  obtain ⟨digits, colon, number⟩ := Option.bind_eq_some_iff.mp number
  have first : digits.length + 1 = input.length := length_skip colon
  have second := shortens number
  have third := length_skip ends
  omega

/-- A rule matches two bytes (`N;`) or more than three. -/
theorem length_scan {input rest : Bytes} {token : Token}
    (scanned : scan input = some (token, rest)) :
    token = .null ∧ rest.length + 2 ≤ input.length ∨ rest.length + 4 ≤ input.length := by
  unfold scan at scanned
  split at scanned
  case h_3 text =>
    obtain ⟨rest', ends, same⟩ := Option.bind_eq_some_iff.mp scanned
    cases same
    have second : rest.length + 1 = text.length := length_skip ends
    rw [length_cons]
    exact .inl ⟨rfl, by omega⟩
  case h_4 text =>
    refine .inr ?_
    split at scanned
    case h_3 => cases scanned
    all_goals
      next digit colon =>
      obtain ⟨rest', ends, same⟩ := Option.map_eq_some_iff.mp scanned
      cases same
      have first : _ + 1 = text.length := length_skip colon
      have second : rest.length + 1 = digit.length := length_skip ends
      simp only [length_cons] at first ⊢
      omega
  case h_6 text =>
    refine .inr ?_
    obtain ⟨body, colon, scanned⟩ := Option.bind_eq_some_iff.mp scanned
    dsimp only at scanned
    split at scanned
    next accepted =>
      obtain ⟨rest', ends, same⟩ := Option.bind_eq_some_iff.mp scanned
      cases same
      have first : body.length + 1 = text.length := length_skip colon
      have second : rest.length + 1 = _ := length_skip ends
      have some : body.takeWhile (· ≠ 59) ≠ [] := by
        intro none
        rw [none] at accepted
        cases accepted
      have positive := length_pos_iff.mpr some
      have inside := (List.takeWhile_prefix (l := body) (· ≠ 59)).length_le
      rw [length_drop] at second
      rw [length_cons]
      omega
    next => cases scanned
  case h_13 => cases scanned
  all_goals
    refine .inr ?_
    obtain ⟨⟨v, middle⟩, number, scanned⟩ := Option.bind_eq_some_iff.mp scanned
    obtain ⟨rest', ends, same⟩ := Option.bind_eq_some_iff.mp scanned
    cases same
    rw [length_cons]
    first
      | exact Nat.succ_le_succ (length_field length_scanIv number ends (by decide))
      | exact Nat.succ_le_succ (length_field length_scanUiv number ends (by decide))
section consumption

variable {D : Type} {env : Env D} {r r' : Reader D} {rval z : Addr} {hash : Bool} {rest : Bytes}
  {unserialize : Reader D → Addr → Bool → Reader D × Option Addr}

/-- A value takes two bytes at least, and a key four of them. -/
structure Consumes (unserialize : Reader D → Addr → Bool → Reader D × Option Addr) : Prop where
  value : ∀ {r rval hash r' z}, unserialize r rval hash = (r', some z) →
    r'.input.length + 2 ≤ r.input.length
  key : ∀ {r rval r' z target k}, unserialize r rval false = (r', some z) →
    tableKey target (r'.mem.zvals z).value = some k → r'.input.length + 4 ≤ r.input.length

theorem length_finishNestedData (done : r.finishNestedData rval = (r', some z)) :
    r'.input.length + 1 = r.input.length := by
  rw [finishNestedData] at done
  split at done
  next brace =>
    cases done
    rw [brace, length_cons]
  next => cases done

private theorem length_finishString {str : Bytes}
    (done : r.finishString rval str rest = (r', some z)) :
    r'.input.length ≤ rest.length := by
  rw [finishString] at done
  split at done
  next =>
    split at done
    next ends =>
      cases done
      have skipped := length_skip ends
      dsimp only at skipped ⊢
      omega
    next => cases done
  next => cases done

private theorem length_unserializeStr {len : Nat} {input str : Bytes}
    (done : unserializeStr len input = some (str, rest)) : rest.length ≤ input.length := by
  induction len generalizing input str with
  | zero =>
    cases done
    rfl
  | succ len ih =>
    rw [unserializeStr.eq_def] at done
    dsimp only at done
    split at done
    next => cases done
    next high low text =>
      obtain ⟨h, -, done⟩ := Option.bind_eq_some_iff.mp done
      obtain ⟨l, -, done⟩ := Option.bind_eq_some_iff.mp done
      obtain ⟨⟨str', rest'⟩, more, same⟩ := Option.bind_eq_some_iff.mp done
      cases same
      exact (ih more).trans (Nat.le_add_right _ 3)
    next c text _ =>
      split at done
      next => cases done
      next =>
        obtain ⟨⟨str', rest'⟩, more, same⟩ := Option.bind_eq_some_iff.mp done
        cases same
        exact (ih more).trans (Nat.le_succ _)

theorem Consumes.processNestedData (consumes : Consumes unserialize) {target : Target} {n : Nat}
    (done : processNestedData unserialize target n r = (r', true)) :
    r'.input.length + 6 * n ≤ r.input.length := by
  induction n generalizing r with
  | zero =>
    cases done
    rfl
  | succ n ih =>
    rw [Reader.processNestedData] at done
    rcases read : unserialize r.allocZval.1 r.allocZval.2 false with ⟨r₁, _ | key⟩
    · simp only [read] at done
      cases done
    simp only [read] at done
    cases kept : tableKey target (r₁.mem.zvals key).value with
    | none =>
      simp only [kept] at done
      cases done
    | some k =>
      simp only [kept] at done
      rcases second : unserialize r₁.allocZval.1 r₁.allocZval.2 true with ⟨r₂, _ | data⟩
      · simp only [second] at done
        cases done
      simp only [second] at done
      split at done
      · cases done
      · have others := ih done
        have first : r₁.input.length + 4 ≤ r.allocZval.1.input.length := consumes.key read kept
        have two : r₂.input.length + 2 ≤ r₁.allocZval.1.input.length := consumes.value second
        rw [update_input] at others
        change r₁.input.length + 4 ≤ r.input.length at first
        change r₂.input.length + 2 ≤ r₁.input.length at two
        omega

theorem Consumes.readNested (consumes : Consumes unserialize) {target : Target} {elements : Long}
    (done : r.readNested unserialize rval target elements = (r', some z)) :
    r'.input.length + 6 * elements.toNat + 1 ≤ r.input.length := by
  rw [Reader.readNested] at done
  split at done
  next => cases done
  next =>
    split at done
    next nested =>
      have inside := consumes.processNestedData nested
      have brace := length_finishNestedData done
      omega
    next => cases done

private theorem length_objectCustom {ce : ClassEntry}
    (done : r.objectCustom rval ce = (r', some z)) :
    r'.input.length ≤ r.input.length := by
  rw [objectCustom] at done
  dsimp only at done
  split at done
  next => cases done
  next =>
    have brace := length_finishNestedData done
    have number := length_parseIv2_le (r.input.drop 2)
    simp only [length_drop] at brace number
    omega

theorem Consumes.readObject (consumes : Consumes unserialize) {custom : Bool} {len : Nat}
    (done : r.readObject env unserialize rval custom len rest = (r', some z)) :
    r'.input.length ≤ rest.length := by
  have stored (r : Reader D) (handle : Nat) (name : Str) :
      (r.storeClassName env handle name).input = r.input := update_input _ _ _
  have shorter : (rest.drop len).length ≤ rest.length := by
    rw [length_drop]
    omega
  rw [Reader.readObject] at done
  split at done
  next =>
    dsimp only at done
    split at done
    next => cases done
    split at done
    next =>
      rcases read : Reader.objectCustom { r with input := rest.drop len } rval
        ((env.lookupClass (rest.take len)).getD env.incompleteClass) with ⟨r₁, _ | z₁⟩
      · simp [read] at done
      have inside : r₁.input.length ≤ (rest.drop len).length := length_objectCustom read
      simp only [read] at done
      split at done
      · cases done
        rw [stored]
        omega
      · cases done
        omega
    next =>
    split at done
    next => cases done
    have nested := consumes.readNested done
    have number := length_parseIv2_le ((rest.drop len).drop 2)
    split at nested <;> simp only [stored, length_drop] at nested number <;> omega
  next => cases done

theorem Consumes.act (consumes : Consumes unserialize) {token : Token}
    (done : r.act env unserialize rval hash rest token = (r', some z)) :
    r'.input.length ≤ rest.length := by
  cases token with
  | ref id =>
    simp only [Reader.act] at done
    split at done
    next => cases done
    next => cases done; rfl
  | objectRef id =>
    simp only [Reader.act] at done
    split at done
    next => cases done
    next =>
      split at done
      next => cases done
      next => cases done; rfl
  | string len =>
    simp only [Reader.act] at done
    split at done
    next => cases done
    next =>
      have ends := length_finishString done
      rw [length_drop] at ends
      omega
  | escaped len =>
    simp only [Reader.act] at done
    split at done
    next => cases done
    next =>
      split at done
      next => cases done
      next read => exact (length_finishString done).trans (length_unserializeStr read)
  | array elements =>
    simp only [Reader.act] at done
    split at done
    next => cases done
    next =>
      have nested := consumes.readNested done
      dsimp only at nested
      omega
  | oldObject elements =>
    simp only [Reader.act] at done
    split at done
    next => cases done
    next =>
      have nested := consumes.readNested done
      dsimp only at nested
      omega
  | object custom len =>
    simp only [Reader.act] at done
    split at done
    next => cases done
    next => exact consumes.readObject done
  | _ =>
    cases done
    rfl

private theorem consumes_unserialize (env : Env D) (depth : Nat) :
    Consumes (Reader.unserialize env depth) := by
  induction depth with
  | zero => exact ⟨nofun, nofun⟩
  | succ depth ih =>
    refine ⟨fun {r rval hash r' z} done => ?_, fun {r rval r' z target k} done kept => ?_⟩
    · rw [Reader.unserialize] at done
      split at done
      next => cases done
      next =>
        split at done
        next => cases done
        next scanned =>
          have matched := length_scan scanned
          have acted := ih.act done
          omega
    · rw [Reader.unserialize] at done
      split at done
      next => cases done
      next =>
        split at done
        next => cases done
        next scanned =>
          have acted := ih.act done
          rcases length_scan scanned with ⟨rfl, -⟩ | four
          · cases done
            simp [setValue, tableKey] at kept
          · omega

end consumption

/-! ### The records -/

/-- `i:<iv>;` or `a:<uiv>:{` -/
inductive NumberRecord where
  | long (n : Numeral)
  | array (n : Numeral) (unsigned : n.sign ≠ .minus)

namespace NumberRecord

def number : NumberRecord → Numeral
  | long n => n
  | array n _ => n

def text : NumberRecord → Bytes
  | long n => ascii "i:" ++ n.text ++ ascii ";"
  | array n _ => ascii "a:" ++ n.text ++ ascii ":\x7b"

/-- The number of elements that the reader makes of the number. -/
def count (n : Numeral) : Nat := (BitVec.ofInt 64 n.value).toNat

/-- The number is in range, or the record is rejected with every text that makes it no longer than
the limit: its number of elements becomes negative, or so many elements would take more bytes. -/
def Harmless (limit : Nat) : NumberRecord → Prop
  | long n => n.Representable ∨ limit < (long n).text.length
  | array n unsigned => n.Representable ∨ 2 ^ 63 ≤ count n ∨
      limit < (array n unsigned).text.length + 6 * count n + 1

variable {D : Type} (env : Env D) (depth : Nat) (r : Reader D) (rval : Addr)

/-- The elements that a call of `jonj_var_unserialize` for an array record reads. -/
def elementsOf (n : Numeral) (rest : Bytes) : Nat :=
  Reader.elementsRead (Reader.unserialize env depth) (.array (r.push rval true).nextTable)
    (count n) { (r.push rval true).initArray rval with input := rest }

/-- An accepted record has the value, or as many elements, as its number says. -/
def ReadRight (rest : Bytes) (hash : Bool) : NumberRecord → Prop
  | long n => ∀ r' z, Reader.unserialize env (depth + 1) r rval hash = (r', some z) →
      ∃ v : Long, (r'.mem.zvals z).value = .long v ∧ v.toInt = n.value
  | array n _ => (Reader.unserialize env (depth + 1) r rval hash).2.isSome →
      (elementsOf env depth r rval n rest : Int) = n.value

end NumberRecord

section records

variable {D : Type} {env : Env D} {depth : Nat} {r : Reader D} {rval : Addr} {hash : Bool}
    {rest : Bytes}

theorem unserialize_numeral {n : Numeral} (input : r.input = (NumberRecord.long n).text ++ rest) :
    unserialize env (depth + 1) r rval hash =
      ({ (r.push rval hash).setValue rval (.long (BitVec.ofInt 64 n.value)) with input := rest },
        some rval) := by
  have shape : (NumberRecord.long n).text ++
      rest = 105 :: (ascii ":" ++ (n.text ++ (ascii ";" ++ rest))) := by
    simp [NumberRecord.text, ascii]
  have scanned : scan r.input = some (.long (BitVec.ofInt 64 n.value), rest) := by
    rw [input, shape]
    simp only [scan, skip_append, Option.bind_some, n.scanIv_text (notDigit_semicolon rest)]
    rfl
  rw [unserialize_of_scan scanned]
  rfl

section

variable {n : Numeral} {unsigned : n.sign ≠ .minus}
    (input : r.input = (NumberRecord.array n unsigned).text ++ rest)

include input

theorem unserialize_counted : unserialize env (depth + 1) r rval hash =
      if ¬ hash then (r.push rval hash).fail else
        { (r.push rval hash).initArray rval with input := rest }.readNested
          (unserialize env depth) rval
          (.array (r.push rval hash).nextTable) (BitVec.ofInt 64 n.value) := by
  have shape : (NumberRecord.array n unsigned).text ++
      rest = 97 :: (ascii ":" ++ (n.text ++ (58 :: 123 :: rest))) := by
    simp [NumberRecord.text, ascii]
  have scanned : scan r.input = some (.array (BitVec.ofInt 64 n.value), rest) := by
    rw [input, shape]
    simp only [scan, skip_append, Option.bind_some, n.scanUiv_text unsigned (notDigit_colon _)]
    rfl
  rw [unserialize_of_scan scanned]
  rfl

/-- An array record is only accepted with a number of elements that is not negative as a `long`, and
all of them are read. -/
theorem accepted_array (accepted : (unserialize env (depth + 1) r rval hash).2.isSome) :
    0 ≤ (BitVec.ofInt 64 n.value).toInt ∧
      NumberRecord.elementsOf env depth r rval n rest = NumberRecord.count n ∧
      6 * NumberRecord.count n + 1 ≤ rest.length := by
  rw [unserialize_counted input] at accepted
  cases hash with
  | false => simp [fail] at accepted
  | true =>
    rw [if_neg (by simp)] at accepted
    obtain ⟨z, accepted⟩ := Option.isSome_iff_exists.mp accepted
    have taken := (consumes_unserialize env depth).readNested (Prod.ext rfl accepted)
    rw [readNested] at accepted
    split at accepted
    · cases accepted
    next nonneg =>
    refine ⟨by omega, ?_, ?_⟩
    · split at accepted
      next r' done => exact elementsRead_of_done _ _ done
      next => cases accepted
    · exact (Nat.add_le_add_right (Nat.le_add_left _ _) 1).trans taken

end

/-- So many elements `i:0;N;` are read. -/
theorem processNestedData_copies {ht count : Nat}
    (input : r.input = (replicate count (ascii "i:0;N;")).flatten ++ rest) :
    ∃ r', processNestedData (unserialize env (depth + 1)) (.array ht) count r = (r', true) ∧
      r'.input = rest := by
  induction count generalizing r with
  | zero => exact ⟨r, rfl, input⟩
  | succ count ih =>
    have key : r.input = keyRecord (.long 0) ++
        (ascii "N;" ++ ((replicate count (ascii "i:0;N;")).flatten ++ rest)) := by
      rw [input, replicate_succ, flatten_cons, append_assoc]
      rfl
    have ends (l : Bytes) : (ascii "N;" ++ l)[(ascii "N;" ++ l).length - l.length - 1]? =
        some 59 := by
      rw [length_append, Nat.add_sub_cancel]
      rfl
    rw [processNestedData_next key rfl (unserialize_null rfl) (.inl (ends _))]
    exact ih (update_input _ _ _)

end records

section iff

variable {D : Type} (env : Env D)

/-- A reader in front of a text, with nothing in its memory. -/
def Reader.before (text : Bytes) : Reader D where
  input := text
  mem := ⟨fun _ => ⟨false, .null⟩, fun _ => .empty, fun _ => ⟨env.magicMember, .empty⟩⟩
  nextZval := 1
  nextTable := 0
  nextObject := 0
  varHash := []
  pushedAt := []

theorem toInt_count {n : Numeral} (small : NumberRecord.count n < 2 ^ 63) :
    (NumberRecord.count n : Int) = (BitVec.ofInt 64 n.value).toInt := by
  rw [NumberRecord.count] at small ⊢
  rw [BitVec.toInt_eq_toNat_of_lt (by omega)]

/-- A record that is not harmless can be completed to one that is read wrong. -/
theorem exists_read_wrong {record : NumberRecord} {limit : Nat} (wrong : ¬ record.Harmless limit) :
    ∃ rest, (record.text ++ rest).length ≤ limit ∧
      ¬ record.ReadRight env 1 (.before env (record.text ++ rest)) 0 rest true := by
  cases record with
  | long n =>
    obtain ⟨outside, room⟩ := not_or.mp wrong
    refine ⟨[], by rw [append_nil]; omega, fun right => outside ?_⟩
    obtain ⟨v, value, same⟩ := right _ _ (unserialize_numeral rfl)
    have stored : v = BitVec.ofInt 64 n.value := by
      simp only [Reader.setValue, Function.update_self, Value.long.injEq] at value
      exact value.symm
    rw [← n.toInt_value_iff, ← stored, same]
  | array n unsigned =>
    obtain ⟨outside, room⟩ := not_or.mp wrong
    obtain ⟨small, room⟩ := not_or.mp room
    have elements := toInt_count (by omega : NumberRecord.count n < 2 ^ 63)
    refine ⟨(replicate (NumberRecord.count n) (ascii "i:0;N;")).flatten ++
      [125], ?_, fun right => ?_⟩
    · have six : (ascii "i:0;N;").length = 6 := rfl
      simp only [length_append, length_flatten, map_replicate, sum_replicate, six, length_singleton,
        smul_eq_mul]
      omega
    · generalize text : (replicate (NumberRecord.count n) (ascii "i:0;N;")).flatten ++ [125] = rest
        at right
      set r := Reader.before env ((NumberRecord.array n unsigned).text ++ rest) with start
      have input : r.input = (NumberRecord.array n unsigned).text ++ rest := rfl
      obtain ⟨r', nested, brace⟩ := @processNestedData_copies D env 0 _ [125]
        (r.push 0 true).nextTable (NumberRecord.count n)
        (show Reader.input { (r.push 0 true).initArray 0 with input := rest } = _ from text.symm)
      have accepted : (unserialize env 2 r 0 true).2.isSome := by
        rw [unserialize_counted input, if_neg (by simp), readNested, if_neg (by omega)]
        rw [NumberRecord.count] at nested
        rw [nested]
        simp [finishNestedData, brace]
      refine outside (n.toInt_value_iff.mp ?_)
      rw [← elements, ← (accepted_array input accepted).2.1]
      exact right accepted

/-- The records with a number are read right, in every text up to a length, if and only if they are
harmless. -/
theorem numberRecord_iff (record : NumberRecord) (limit : Nat) :
    (∀ depth r rval hash rest, r.input = record.text ++ rest → r.input.length ≤ limit →
      record.ReadRight env depth r rval rest hash) ↔ record.Harmless limit := by
  constructor
  · intro right
    by_contra wrong
    obtain ⟨rest, short, misread⟩ := exists_read_wrong env wrong
    exact misread (right 1 _ 0 true rest rfl short)
  intro harmless depth r rval hash rest input short
  cases record with
  | long n =>
    rw [input, length_append] at short
    have fits := n.toInt_value_iff.mpr (harmless.resolve_right (by omega))
    rw [NumberRecord.ReadRight, unserialize_numeral input]
    intro r' z result
    cases result
    exact ⟨_, by simp [Reader.setValue], fits⟩
  | array n unsigned =>
    intro accepted
    obtain ⟨nonneg, all, room⟩ := accepted_array input accepted
    rw [input, length_append] at short
    have small : NumberRecord.count n < 2 ^ 63 := by
      by_contra large
      have negative := BitVec.toInt_neg_iff.mpr (show 2 ^ 64 ≤ 2 * NumberRecord.count n by omega)
      omega
    rw [all, toInt_count small]
    rcases harmless with fits | negative | long
    · exact n.toInt_value_iff.mpr fits
    · omega
    · omega

end iff

/-- 2^64 reads as 0, and as no elements. -/
theorem numbers_wrap :
    (∃ r', Reader.unserialize sampleEnv 1 (.start (ascii "i:18446744073709551616;")) 0 true =
      (r', some 0) ∧
      (r'.mem.zvals 0).value = .long 0) ∧
    (Reader.unserialize sampleEnv 1 (.start (ascii "a:18446744073709551616:\x7b\x7d")) 0 true).2 =
      some 0 ∧
    readDigits 0 (ascii "18446744073709551616") = 2 ^ 64 := by
  refine ⟨⟨_, rfl, ?_⟩, ?_, by decide⟩
  · rfl
  · decide

end Jonj.Serialize
