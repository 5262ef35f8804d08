import Jonj.Fcgi.Params

/-!
# The environment that the web server sent

The table is a map from a hash and a name to a value. It is a map from names as long as the hash of
a name in a record is the hash of the same name as a C string. The two differ in the byte behind a
name of three bytes and in the sign of the bytes that are hashed.
-/
namespace Jonj.Fcgi

open List Function OrderedMap

/-! ### What is sent -/

/-- A pair, and for each of its lengths whether it is sent in four bytes. -/
structure Pair where
  name : Bytes
  val : Bytes
  wideName : Bool
  wideVal : Bool

/-- A length in one byte or in four bytes. -/
def encodeLength (wide : Bool) (n : Nat) : Bytes :=
  if wide then
    [UInt8.ofNat (128 + n / 2 ^ 24), UInt8.ofNat (n / 2 ^ 16), UInt8.ofNat (n / 2 ^ 8),
      UInt8.ofNat n]
  else [UInt8.ofNat n]

/-- The lengths that the encoding can express. -/
def Expressible (wide : Bool) (n : Nat) : Prop := n < if wide then 2 ^ 31 else 128

def encode : List Pair → Bytes
  | [] => []
  | p :: rest => encodeLength p.wideName p.name.length ++ (encodeLength p.wideVal p.val.length ++
      (p.name ++ (p.val ++ encode rest)))

/-- An `FCGI_PARAMS` record, and the memory behind it in the buffer. -/
structure Record where
  pairs : List Pair
  beyond : Nat → UInt8
  names : ∀ p ∈ pairs, Expressible p.wideName p.name.length
  vals : ∀ p ∈ pairs, Expressible p.wideVal p.val.length
  /-- `FCGI_MAX_LENGTH` -/
  length_le : (encode pairs).length ≤ 0xffff

/-- The records are stored one after the other, until one is refused. -/
def receive : List Record → Hash → Hash × Bool
  | [], env => (env, true)
  | r :: rest, env =>
    match getParams r.beyond (encode r.pairs) env with
    | (env, true) => receive rest env
    | (env, false) => (env, false)

/-- The value of the last pair with the name. -/
def sent (pairs : List Pair) (name : Bytes) : Option Bytes :=
  ((pairs.filter fun p => decide (p.name = name)).getLast?).map Pair.val

structure Name where
  bytes : Bytes
  short : bytes.length < 2 ^ 31

/-- The environment is the map. -/
structure Refines (signed : Bool) (env : Hash) (m : Bytes → Option Bytes) : Prop where
  getenv_eq : ∀ name : Name, getenv signed env name.bytes = m name.bytes
  once : ((loadenv env).map Prod.fst).Nodup
  reported : ∀ name val, (name, val) ∈ loadenv env ↔ m name = some val

/-- No copy was written beyond the end of its data segment. -/
def InBounds (env : Hash) : Prop := env.data.pos ≤ env.data.size

/-- `fcgi_putenv` of a C string, or of no value, which deletes. -/
structure Put where
  name : Name
  val : Option Bytes
  noNul : ∀ bytes ∈ val, 0 ∉ bytes

/-- The environment is the map, now and after each later call. -/
def Stays (signed : Bool) (env : Hash) (m : Bytes → Option Bytes) : List Put → Prop
  | [] => Refines signed env m ∧ InBounds env
  | op :: ops => (Refines signed env m ∧ InBounds env) ∧
      Stays signed (putenv signed env op.name.bytes op.val) (update m op.name.bytes op.val) ops

/-! ### Which names have one hash -/

/-- The bytes of a name that `FCGI_HASH_FUNC` reads. -/
def hashedBytes (name : Bytes) : Bytes := (name.drop 3).take 1 ++ name.drop (name.length - 2)

/-- The name has the same hash in a record, where the given byte follows, and as a C string. -/
def SameHash (signed : Bool) (name : Bytes) (next : UInt8) : Prop :=
  3 ≤ name.length → (name.length = 3 → next = 0) ∧ (signed → ∀ b ∈ hashedBytes name, b < 128)

/-- Every pair has the same hash in the record and as a C string. -/
def SameHashes (signed : Bool) (beyond : Nat → UInt8) : List Pair → Prop
  | [] => True
  | p :: rest =>
    SameHash signed p.name (view (p.val ++ encode rest) beyond 0) ∧ SameHashes signed beyond rest

theorem view_of_lt {bytes : Bytes} {i : Nat} (inside : i < bytes.length) (tail : Bytes)
    (beyond : Nat → UInt8) :
    view (bytes ++ tail) beyond i = bytes[i] := by
  rw [view, getElem?_append_left inside, getElem?_eq_getElem inside, Option.getD_some]

private theorem view_length (bytes tail : Bytes) (beyond : Nat → UInt8) :
    view (bytes ++ tail) beyond bytes.length = view tail beyond 0 := by
  rw [view, getElem?_append_right (Nat.le_refl _), length_append, Nat.sub_self]
  congr 2
  omega

private theorem cString_of_lt {bytes : Bytes} {i : Nat} (inside : i < bytes.length) :
    cString bytes i = bytes[i] := by
  have viewed := view_of_lt inside [] fun _ => 0
  rwa [append_nil] at viewed

private theorem cString_length (bytes : Bytes) : cString bytes bytes.length = 0 := by
  rw [cString, view, getElem?_eq_none (Nat.le_refl _), Option.getD_none]

private theorem toNat_ofUnsignedChar (b : UInt8) : (ofUnsignedChar b).toNat = b.toNat := rfl

private theorem toNat_fcgiHashFunc (toInt : UInt8 → UInt32) (var : Nat → UInt8) {varLen : UInt32}
    (long : 3 ≤ varLen.toNat) :
    (fcgiHashFunc toInt var varLen).toNat =
      (4 * (toInt (var 3)).toNat + 16 * (toInt (var (varLen.toNat - 2))).toNat +
        4 * (toInt (var (varLen.toNat - 1))).toNat + varLen.toNat) % 2 ^ 32 := by
  have notShort : ¬ varLen < 3 := by
    exact Nat.not_lt.mpr long
  rw [fcgiHashFunc, if_neg notShort]
  simp
  omega

private theorem mem_hashedBytes {name : Bytes} (long : 3 ≤ name.length) {b : UInt8} :
    b ∈ hashedBytes name ↔ b = name[name.length - 2] ∨ b = name[name.length - 1] ∨
      ∃ more : 3 < name.length, b = name[3] := by
  have ending : name.drop (name.length - 2) = [name[name.length - 2], name[name.length - 1]] := by
    rw [drop_eq_getElem_cons (by omega), drop_eq_getElem_cons (by omega),
      drop_eq_nil_of_le (by omega)]
    congr 3
    omega
  rw [hashedBytes, ending]
  by_cases more : 3 < name.length
  · rw [drop_eq_getElem_cons more, take_succ_cons]
    simp only [mem_append, mem_cons, not_mem_nil, or_false, more, exists_true_left]
    tauto
  · rw [drop_eq_nil_of_le (by omega)]
    simp [more]

/-- The hash reads the byte behind a name of three letters. -/
theorem hash_eq_iff (signed : Bool) {name : Bytes} (short : name.length < 2 ^ 31) (tail : Bytes)
    (beyond : Nat → UInt8) :
    fcgiHashFunc ofUnsignedChar (view (name ++ tail) beyond) (UInt32.ofNat name.length) =
      hashOfName signed name ↔
      SameHash signed name (view tail beyond 0) := by
  have len : (UInt32.ofNat name.length).toNat = name.length := by
    exact Nat.mod_eq_of_lt (by omega)
  rw [SameHash]
  by_cases long : 3 ≤ name.length
  · have long' : 3 ≤ (UInt32.ofNat name.length).toNat := by rwa [len]
    rw [← UInt32.toNat_inj, hashOfName, toNat_fcgiHashFunc _ _ long',
      toNat_fcgiHashFunc _ _ long', len,
      view_of_lt (show name.length - 2 < name.length by omega),
      view_of_lt (show name.length - 1 < name.length by omega),
      cString_of_lt (show name.length - 2 < name.length by omega),
      cString_of_lt (show name.length - 1 < name.length by omega)]
    simp only [long, mem_hashedBytes, forall_eq_or_imp, toNat_ofUnsignedChar, forall_const,
      UInt8.lt_iff_toNat_lt]
    have second := toNat_ofChar signed name[name.length - 2]
    have last := toNat_ofChar signed name[name.length - 1]
    have secondLt := name[name.length - 2].toNat_lt
    have lastLt := name[name.length - 1].toNat_lt
    -- each negative byte makes the hash of the record larger by a multiple of `1024`
    by_cases three : name.length = 3
    · have third : cString name 3 = 0 := by rw [← three, cString_length]
      have next : view (name ++ tail) beyond 3 = view tail beyond 0 := by
        rw [← view_length name, three]
      have zero : (ofChar signed 0).toNat = 0 := by cases signed <;> rfl
      have nextLt := (view tail beyond 0).toNat_lt
      have isZero : view tail beyond 0 = 0 ↔ (view tail beyond 0).toNat = 0 := by
        rw [← UInt8.toNat_inj]; rfl
      rw [third, next, isZero]
      simp only [three, Nat.lt_irrefl, IsEmpty.exists_iff, forall_const]
      simp only [three] at second last secondLt lastLt
      cases signed <;> simp at second last ⊢ <;> omega
    · have more : 3 < name.length := by omega
      rw [cString_of_lt more, view_of_lt more]
      have third := toNat_ofChar signed name[3]
      simp only [three, more, exists_true_left, forall_eq]
      cases signed <;> simp at second last third ⊢ <;> omega
  · have notLong : UInt32.ofNat name.length < 3 := by
      rw [UInt32.lt_iff_toNat_lt, len]
      exact Nat.not_le.mp long
    simp [hashOfName, fcgiHashFunc, notLong, long]

/-! ### Reading a record -/

private theorem shiftLeft_or {a b : Nat} (k : Nat) (below : b < 2 ^ k) :
    a <<< k ||| b = 2 ^ k * a + b := by
  rw [Nat.shiftLeft_eq, Nat.mul_comm, Nat.two_pow_add_eq_or_of_lt below]

/-- A length of four bytes at the end of the record is not read. -/
theorem readLength_encodeLength {wide : Bool} {n : Nat} (expressible : Expressible wide n)
    (rest : Bytes) :
    readLength (encodeLength wide n ++ rest) = if wide = true ∧ rest = [] then none
      else some (UInt32.ofNat n, rest) := by
  unfold Expressible at expressible
  cases wide with
  | false =>
    simp only [Bool.false_eq_true, if_false] at expressible
    have small : UInt8.ofNat n < 128 := by
      exact (Nat.mod_le _ _).trans_lt expressible
    have same : (UInt8.ofNat n).toUInt32 = UInt32.ofNat n := by
      rw [← UInt32.toNat_inj]
      simp
      omega
    simp [encodeLength, readLength, small, same]
  | true =>
    simp only [if_true] at expressible
    have large : ¬ UInt8.ofNat (128 + n / 2 ^ 24) < 128 := by
      rw [UInt8.lt_iff_toNat_lt]
      simp
      omega
    simp only [encodeLength, readLength, if_true, cons_append, nil_append, large,
      if_false, true_and]
    split
    · rfl
    congr 2
    rw [← UInt32.toNat_inj]
    have high : (128 + n / 2 ^ 24) % 2 ^ 8 &&& 127 = n / 2 ^ 24 := by
      rw [show 127 = 2 ^ 7 - 1 by rfl, Nat.and_two_pow_sub_one_eq_mod]
      omega
    simp only [UInt32.toNat_or, UInt32.toNat_shiftLeft, UInt32.toNat_and, UInt8.toNat_toUInt32,
      UInt8.toNat_ofNat', UInt32.toNat_ofNat', UInt32.toNat_ofNat, high, Nat.or_assoc]
    have shifted : ∀ a k : Nat, a * 2 ^ k < 2 ^ 32 → a <<< k % 2 ^ 32 = a <<< k := by
      intro a k below
      rw [Nat.shiftLeft_eq, Nat.mod_eq_of_lt below]
    rw [shifted _ 24 (by omega), shifted _ 16 (by omega), shifted _ 8 (by omega),
      shiftLeft_or 8 (by omega), shiftLeft_or 16 (by omega), shiftLeft_or 24 (by omega)]
    omega

theorem toNat_ofNat_length {bytes : Bytes} (short : bytes.length < 2 ^ 32) :
    (UInt32.ofNat bytes.length).toNat = bytes.length := by
  exact Nat.mod_eq_of_lt short

/-- The lengths of the first pair are read back; four bytes of length are refused at the end. -/
theorem readLengths_encode {p : Pair} {rest : List Pair}
    (name : Expressible p.wideName p.name.length) (val : Expressible p.wideVal p.val.length)
    (short : (encode (p :: rest)).length ≤ 0xffff) :
    readLengths (encode (p :: rest)) = none ∨ readLengths (encode (p :: rest)) =
        some (UInt32.ofNat p.name.length, UInt32.ofNat p.val.length, p.name ++
          (p.val ++ encode rest)) := by
  simp only [encode, length_append] at short
  simp only [encode, readLengths, readLength_encodeLength name]
  split
  · exact .inl rfl
  simp only [Option.bind_eq_bind, Option.bind_some, readLength_encodeLength val]
  split
  · exact .inl rfl
  right
  have fits : ¬ UInt32.ofNat p.name.length + UInt32.ofNat p.val.length >
      UInt32.ofNat (p.name ++ (p.val ++ encode rest)).length := by
    have lenName := toNat_ofNat_length (show p.name.length < 2 ^ 32 by omega)
    have lenVal := toNat_ofNat_length (show p.val.length < 2 ^ 32 by omega)
    have total : (p.name ++ (p.val ++ encode rest)).length =
        p.name.length + (p.val.length + (encode rest).length) := by
      rw [length_append, length_append]
    rw [gt_iff_lt, UInt32.lt_iff_toNat_lt, UInt32.toNat_add, toNat_ofNat_length (by omega)]
    omega
  rw [Option.bind_some, if_neg fits]

/-- The hash that `fcgi_get_params` computes for a pair. -/
def recordHash (beyond : Nat → UInt8) (p : Pair) (rest : List Pair) : UInt32 :=
  fcgiHashFunc ofUnsignedChar (view (p.name ++ (p.val ++ encode rest)) beyond)
    (UInt32.ofNat p.name.length)

variable {var val : Bytes}

namespace Hash

private theorem find_take (h : Hash) (hashValue : UInt32) {var' : Bytes} {varLen : UInt32}
    (same : var.take varLen.toNat = var'.take varLen.toNat) (n : Nat) (p : Option Addr) :
    h.find hashValue var varLen n p = h.find hashValue var' varLen n p := by
  fun_induction h.find hashValue var varLen n p with
  | case1 n a found =>
    rw [matches_, same, ← matches_] at found
    rw [find, if_pos found]
  | case2 n a notFound ih =>
    rw [matches_, same, ← matches_] at notFound
    rw [find, if_neg notFound, ih]
  | case3 n p isEnd => rw [find.eq_2 _ _ _ _ _ _ isEnd]

theorem set_take (h : Hash) (hashValue : UInt32) {var' val' : Bytes} {varLen valLen : UInt32}
    (sameVar : var.take varLen.toNat = var'.take varLen.toNat)
    (sameVal : val.take valLen.toNat = val'.take valLen.toNat) :
    h.set hashValue var varLen val valLen = h.set hashValue var' varLen val' valLen := by
  simp only [set, h.find_take hashValue sameVar, Data.strndup, sameVar, sameVal]

end Hash

variable {env : Hash}

/-- One turn of the loop: the first pair is stored, and the rest is read. -/
theorem getParams_encode (beyond : Nat → UInt8) {p : Pair} {rest : List Pair}
    (name : Expressible p.wideName p.name.length) (val : Expressible p.wideVal p.val.length)
    (short : (encode (p :: rest)).length ≤ 0xffff)
    (accepted : (getParams beyond (encode (p :: rest)) env).2 = true) :
    getParams beyond (encode (p :: rest)) env =
      getParams beyond (encode rest) (env.set (recordHash beyond p rest) p.name
        (UInt32.ofNat p.name.length) p.val
        (UInt32.ofNat p.val.length)) := by
  have notEmpty : encode (p :: rest) ≠ [] := by
    rw [encode, encodeLength]
    split <;> simp
  rw [getParams, if_neg notEmpty] at accepted ⊢
  rcases readLengths_encode name val short with refused | read
  · split at accepted
    · cases accepted
    next isPair => rw [refused] at isPair; cases isPair
  split
  next isPair => rw [read] at isPair; cases isPair
  next nameLen valLen from_ isPair =>
  rw [read, Option.some.injEq, Prod.mk.injEq] at isPair
  obtain ⟨rfl, rfl, rfl⟩ := isPair
  simp only [encode, length_append] at short
  have lenName := toNat_ofNat_length (show p.name.length < 2 ^ 32 by omega)
  have lenVal := toNat_ofNat_length (show p.val.length < 2 ^ 32 by omega)
  have sum : (UInt32.ofNat p.name.length + UInt32.ofNat p.val.length).toNat = p.name.length +
      p.val.length := by
    rw [UInt32.toNat_add, lenVal]
    omega
  rw [sum, ← append_assoc, ← length_append, drop_left, append_assoc, lenName, drop_left]
  congr 1
  apply Hash.set_take
  · rw [lenName, take_left, take_length]
  · rw [lenVal, take_left, take_length]

/-! ### The map that the table represents -/

/-- The pairs of a record with the keys under which they are stored. -/
def keyed (beyond : Nat → UInt8) : List Pair → List ((UInt32 × Bytes) × Bytes)
  | [] => []
  | p :: rest => ((recordHash beyond p rest, p.name), p.val) :: keyed beyond rest

def stored (records : List Record) : List ((UInt32 × Bytes) × Bytes) :=
  records.flatMap fun r => keyed r.beyond r.pairs

/-- A table with bounds: a data segment is at most as long as an `unsigned int` says. -/
structure Holds (env : Hash) (m : OrderedMap (UInt32 × Bytes) Bytes) : Prop where
  represents : env.Represents m
  inBounds : InBounds env
  size : env.data.size < 2 ^ 32

theorem Data.strndup_size {d : Data} (size : d.size < 2 ^ 32) (str : Bytes) (strLen : UInt32) :
    (d.strndup str strLen).1.size < 2 ^ 32 := by
  simp only [strndup, reserve, write]
  split
  · exact UInt32.toNat_lt _
  · exact size

/-- The sum `str_len + 1` is zero for the longest string, and the copy leaves its segment. -/
theorem Data.strndup_overflow {d : Data} (size : d.size < 2 ^ 32) (str : Bytes) {strLen : UInt32}
    (longest : strLen.toNat = 2 ^ 32 - 1) :
    (d.strndup str strLen).1.size < (d.strndup str strLen).1.pos := by
  have wraps : strLen + 1 = 0 := by
    rw [← UInt32.toNat_inj, UInt32.toNat_add, longest]
    rfl
  have full : d.pos + (2 ^ 32 - 1) + 1 ≥ d.size := by omega
  have notLonger : ¬ (0 : UInt32) > hashSegSize := by decide
  simp only [strndup, reserve, write, wraps, if_neg notLonger, longest, if_pos full]
  decide

theorem Hash.set_data (h : Hash) (hashValue : UInt32) (var : Bytes) (varLen : UInt32) (val : Bytes)
    (valLen : UInt32) (size : h.data.size < 2 ^ 32) :
    ∃ d : Data, d.size < 2 ^ 32 ∧ (h.set hashValue var varLen val valLen).data =
      (d.strndup val valLen).1 := by
  rw [set]
  split
  · exact ⟨h.data, size, rfl⟩
  · exact ⟨(h.data.strndup var varLen).1, Data.strndup_size size var varLen, rfl⟩

theorem Hash.del_data (h : Hash) (hashValue : UInt32) (var : Bytes) (varLen : UInt32) :
    (h.del hashValue var varLen).data = h.data := by
  rw [del]
  split
  · rfl
  · split <;> rfl

variable {m : OrderedMap (UInt32 × Bytes) Bytes}

/-- Within the bounds, storing keeps the table the one of the map. -/
theorem Holds.set (holds : Holds env m) (hashValue : UInt32) (shortVar : var.length < 2 ^ 32)
    (shortVal : val.length < 2 ^ 32 - 1) :
    Holds (env.set hashValue var (UInt32.ofNat var.length) val (UInt32.ofNat val.length))
      (m.put (hashValue, var) val) := by
  have lenVal := toNat_ofNat_length (show val.length < 2 ^ 32 by omega)
  obtain ⟨d, size, data⟩ := env.set_data hashValue var (UInt32.ofNat var.length) val
    (UInt32.ofNat val.length)
    holds.size
  constructor
  · exact holds.represents.set hashValue (toNat_ofNat_length shortVar) lenVal
  · rw [InBounds, data]
    exact d.strndup_fits val (by rwa [lenVal])
  · rw [data]
    exact Data.strndup_size size val _

theorem Holds.del (holds : Holds env m) (hashValue : UInt32) (shortVar : var.length < 2 ^ 32) :
    Holds (env.del hashValue var (UInt32.ofNat var.length)) (m.erase (hashValue, var)) := by
  constructor
  · exact holds.represents.del hashValue (toNat_ofNat_length shortVar)
  · rw [InBounds, Hash.del_data]
    exact holds.inBounds
  · rw [Hash.del_data]
    exact holds.size

theorem Holds.clean (clean : env.Clean) : Holds env .empty := by
  constructor
  · refine ⟨[], ?_, rfl⟩
    constructor
    · exact clean.list
    · exact nodup_nil
    · simp
    · rw [clean.idx]
      exact Nat.zero_le _
    · exact fun i => ⟨[], clean.hashTable i, nodup_nil, by simp⟩
    all_goals simp
  · rw [InBounds, clean.pos]
    exact Nat.zero_le _
  · rw [clean.size]
    exact UInt32.toNat_lt _

/-- The pairs of a record are stored one after the other. -/
theorem Holds.getParams {beyond : Nat → UInt8} {pairs : List Pair} (holds : Holds env m)
    (names : ∀ p ∈ pairs, Expressible p.wideName p.name.length)
    (vals : ∀ p ∈ pairs, Expressible p.wideVal p.val.length)
    (short : (encode pairs).length ≤ 0xffff)
    (accepted : (Fcgi.getParams beyond (encode pairs) env).2 = true) :
    Holds (Fcgi.getParams beyond (encode pairs) env).1 (m.putAll (keyed beyond pairs)) := by
  induction pairs generalizing env m with
  | nil => simpa [encode, Fcgi.getParams, keyed, putAll] using holds
  | cons p rest ih =>
    have step := getParams_encode beyond (names p (by simp)) (vals p (by simp)) short accepted
    rw [step] at accepted ⊢
    simp only [encode, length_append] at short
    exact ih (holds.set _ (by omega) (by omega)) (fun q member => names q (by simp [member]))
      (fun q member => vals q (by simp [member])) (by omega) accepted

variable {records : List Record}

/-- All records that are accepted. -/
theorem Holds.receive {env' : Hash} (holds : Holds env m)
    (accepted : Fcgi.receive records env = (env', true)) :
    Holds env' (m.putAll (stored records)) := by
  induction records generalizing env m with
  | nil =>
    obtain ⟨rfl, -⟩ := Prod.mk.inj accepted
    exact holds
  | cons r rest ih =>
    rw [Fcgi.receive] at accepted
    split at accepted
    next next isNext =>
      have kept := holds.getParams r.names r.vals r.length_le (by rw [isNext])
      rw [isNext] at kept
      rw [stored, flatMap_cons, putAll_append]
      exact ih kept accepted
    · cases accepted

/-! ### One hash for each name -/

/-- Every name is stored under its hash as a C string. -/
def Hashed (signed : Bool) (m : OrderedMap (UInt32 × Bytes) Bytes) : Prop :=
  ∀ k ∈ m.keys, k.1 = hashOfName signed k.2

/-- The map from names that a map with hashes stands for. -/
def byName (signed : Bool) (m : OrderedMap (UInt32 × Bytes) Bytes) (name : Bytes) : Option Bytes :=
  m.lookup (hashOfName signed name, name)

variable {signed : Bool}

theorem getenv_eq_byName (rep : env.Represents m) (name : Name) :
    getenv signed env name.bytes = byName signed m name.bytes :=
  rep.get_eq (toNat_ofNat_length (name.short.trans (by omega)))

theorem mem_loadenv_iff (rep : env.Represents m)
    {name : Bytes} : (name, val) ∈ loadenv env ↔ ∃ hash, ((hash, name), val) ∈ m.entries := by
  rw [loadenv, rep.apply_eq]
  simp

/-- If every name has its own hash, a lookup by name is one in the map. -/
theorem refines_byName (rep : env.Represents m) (hashed : Hashed signed m) :
    Refines signed env (byName signed m) := by
  constructor
  · exact getenv_eq_byName rep
  · rw [loadenv, rep.apply_eq, map_map, map_reverse, nodup_reverse]
    have keysOnce := m.nodup
    have names : m.entries.map (Prod.fst ∘ fun e => (e.1.2, e.2)) = m.keys.map Prod.snd := by
      rw [OrderedMap.keys, map_map]
      rfl
    rw [names]
    apply Nodup.map_on _ keysOnce
    intro k member k' member' same
    exact Prod.ext (by rw [hashed k member, hashed k' member', same]) same
  · intro name val
    rw [mem_loadenv_iff rep, byName, OrderedMap.lookup_eq_some_iff]
    constructor
    · rintro ⟨hash, member⟩
      have isHash : hash = hashOfName signed name := hashed _ (mem_map_of_mem member)
      rwa [← isHash]
    · exact fun member => ⟨_, member⟩

/-- A name under another hash cannot be found, or is reported twice. -/
theorem Refines.hashed {spec : Bytes → Option Bytes} (refines : Refines signed env spec)
    (rep : env.Represents m) (short : ∀ k ∈ m.keys, k.2.length < 2 ^ 31) : Hashed signed m := by
  intro k isKey
  obtain ⟨e, member, rfl⟩ := mem_map.mp isKey
  have isValue : spec e.1.2 = some e.2 :=
    (refines.reported _ _).mp ((mem_loadenv_iff rep).mpr ⟨e.1.1, member⟩)
  have found : byName signed m e.1.2 = some e.2 := by
    rw [← isValue, ← refines.getenv_eq ⟨e.1.2, short _ isKey⟩]
    exact (getenv_eq_byName rep ⟨e.1.2, short _ isKey⟩).symm
  have other := lookup_eq_some_iff.mp found
  have namesOnce := refines.once
  rw [loadenv, rep.apply_eq, map_map, map_reverse, nodup_reverse] at namesOnce
  have same := inj_on_of_nodup_map namesOnce member other rfl
  exact congrArg (fun e => e.1.1) same

/-! ### Later calls -/

theorem Stays.now {spec : Bytes → Option Bytes} {ops : List Put}
    (stays : Stays signed env spec ops) : Refines signed env spec ∧ InBounds env := by
  cases ops with
  | nil => exact stays
  | cons op ops => exact stays.1

/-- The map after a call. -/
def after (signed : Bool) (m : OrderedMap (UInt32 × Bytes) Bytes) (op : Put) :
    OrderedMap (UInt32 × Bytes) Bytes :=
  match op.val with
  | none => m.erase (hashOfName signed op.name.bytes, op.name.bytes)
  | some val => m.put (hashOfName signed op.name.bytes, op.name.bytes) val

def Put.Short (op : Put) : Prop := ∀ val ∈ op.val, val.length < 2 ^ 32 - 1

theorem Holds.putenv (signed : Bool) (holds : Holds env m) {op : Put} (short : op.Short) :
    Holds (Fcgi.putenv signed env op.name.bytes op.val) (after signed m op) := by
  have shortName : op.name.bytes.length < 2 ^ 32 := op.name.short.trans (by omega)
  rw [after]
  split
  next isNone =>
    rw [isNone]
    exact holds.del _ shortName
  next val isSome =>
    rw [isSome]
    exact holds.set _ shortName (short val isSome)

theorem Hashed.after (hashed : Hashed signed m) (op : Put) : Hashed signed (after signed m op) := by
  intro k isKey
  rw [Fcgi.after] at isKey
  split at isKey
  · obtain ⟨e, member, rfl⟩ := mem_map.mp isKey
    exact hashed _ (mem_map_of_mem (mem_of_mem_filter member))
  rw [keys_put] at isKey
  split at isKey
  · exact hashed k isKey
  · rcases mem_append.mp isKey with old | new
    · exact hashed k old
    · rw [mem_singleton.mp new]

private theorem byName_after (signed : Bool) (m : OrderedMap (UInt32 × Bytes) Bytes) (op : Put) :
    byName signed (after signed m op) = update (byName signed m) op.name.bytes op.val := by
  funext name
  have isKey : (hashOfName signed name, name) = (hashOfName signed op.name.bytes, op.name.bytes) ↔
      name = op.name.bytes := by
    rw [Prod.mk.injEq, and_iff_right_iff_imp]
    rintro rfl
    rfl
  rw [byName, after, update_apply]
  split
  next isNone => rw [lookup_erase, isNone, byName, if_congr isKey rfl rfl]
  next val isSome => rw [lookup_put, isSome, byName, if_congr isKey rfl rfl]

/-- A value that is too long is cut off, or written beyond its segment. -/
theorem putenv_tooLong (holds : Holds env m) {name : Name} (long : 2 ^ 32 - 1 ≤ val.length)
    (inBounds : InBounds (Fcgi.putenv signed env name.bytes (some val))) :
    getenv signed (Fcgi.putenv signed env name.bytes (some val)) name.bytes ≠ some val := by
  generalize isLen : UInt32.ofNat val.length = len at *
  have shortName : name.bytes.length < 2 ^ 32 := name.short.trans (by omega)
  have wraps : len.toNat = val.length % 2 ^ 32 := by rw [← isLen, UInt32.toNat_ofNat']
  by_cases longest : len.toNat = 2 ^ 32 - 1
  · obtain ⟨d, size, data⟩ := env.set_data (hashOfName signed name.bytes) name.bytes
      (UInt32.ofNat name.bytes.length) val len holds.size
    have outside := Data.strndup_overflow size val longest
    rw [InBounds, Fcgi.putenv, isLen, data] at inBounds
    omega
  have cut : Fcgi.putenv signed env name.bytes (some val) =
      env.set (hashOfName signed name.bytes) name.bytes (UInt32.ofNat name.bytes.length)
        (val.take len.toNat) len := by
    rw [Fcgi.putenv, isLen]
    exact env.set_take _ rfl (by rw [take_take, Nat.min_self])
  have lenCut : len.toNat = (val.take len.toNat).length := by
    rw [length_take]
    omega
  have rep := holds.represents.set (hashOfName signed name.bytes)
    (toNat_ofNat_length shortName) lenCut
  rw [cut, getenv_eq_byName rep, byName, lookup_put, if_pos rfl]
  intro same
  have lengths := congrArg length (Option.some.inj same)
  omega

/-- From an environment that is the map on, the calls keep it so exactly if no value is too long. -/
theorem stays_iff_short (holds : Holds env m) (hashed : Hashed signed m) (ops : List Put) :
    Stays signed env (byName signed m) ops ↔ ∀ op ∈ ops, op.Short := by
  have now : Refines signed env (byName signed m) ∧ InBounds env :=
    ⟨refines_byName holds.represents hashed, holds.inBounds⟩
  induction ops generalizing env m with
  | nil => simpa [Stays] using now
  | cons op ops ih =>
    rw [Stays, and_iff_right now, ← byName_after, forall_mem_cons]
    by_cases short : op.Short
    · have next := holds.putenv signed short
      have nextHashed := hashed.after op
      rw [and_iff_right short]
      exact ih next nextHashed ⟨refines_byName next.represents nextHashed, next.inBounds⟩
    refine iff_of_false ?_ fun all => short all.1
    intro stays
    simp only [Put.Short, not_forall, Nat.not_lt] at short
    obtain ⟨val, isVal, long⟩ := short
    obtain ⟨refines, inBounds⟩ := stays.now
    rw [isVal] at inBounds refines
    apply putenv_tooLong holds long inBounds
    rw [refines.getenv_eq, byName_after, update_self, isVal]

/-! ### The whole environment -/

private theorem map_keyed (beyond : Nat → UInt8) (pairs : List Pair) :
    (keyed beyond pairs).map (fun e => (e.1.2, e.2)) = pairs.map fun p => (p.name, p.val) := by
  induction pairs with
  | nil => rfl
  | cons p rest ih => rw [keyed, map_cons, map_cons, ih]

theorem map_stored (records : List Record) : (stored records).map (fun e => (e.1.2, e.2)) =
      (records.flatMap Record.pairs).map fun p => (p.name, p.val) := by
  simp only [stored, map_flatMap, map_keyed]

/-- When the keys of a record are those that `fcgi_getenv` computes. -/
theorem keyed_hashed_iff {beyond : Nat → UInt8} {pairs : List Pair}
    (short : (encode pairs).length ≤ 0xffff) :
    (∀ e ∈ keyed beyond pairs, e.1.1 = hashOfName signed e.1.2) ↔
      SameHashes signed beyond pairs := by
  induction pairs with
  | nil => simp [keyed, SameHashes]
  | cons p rest ih =>
    simp only [encode, length_append] at short
    rw [keyed, forall_mem_cons, SameHashes, ih (by omega), recordHash,
      hash_eq_iff signed (by omega)]

/-- The last pair of a name wins. -/
theorem sent_eq_byName (hashed : ∀ e ∈ stored records, e.1.1 = hashOfName signed e.1.2) :
    sent (records.flatMap Record.pairs) = byName signed
      (OrderedMap.empty.putAll (stored records)) := by
  funext name
  have ofName : (stored records).filter (fun e => decide (e.1 = (hashOfName signed name, name))) =
      (stored records).filter fun e => decide (e.1.2 = name) := by
    apply filter_congr
    intro e member
    rw [decide_eq_decide, Prod.ext_iff]
    constructor
    · exact And.right
    · rintro rfl
      exact ⟨hashed e member, rfl⟩
  have both := congrArg (fun l => ((l.filter fun e => decide (e.1 = name)).getLast?).map Prod.snd)
    (map_stored records)
  simp only [filter_map, getLast?_map, Option.map_map, comp_def] at both
  rw [byName, lookup_putAll, ofName, both]
  simp [sent, OrderedMap.lookup, OrderedMap.empty]

private theorem stored_short {e : (UInt32 × Bytes) × Bytes} (member : e ∈ stored records) :
    e.1.2.length < 2 ^ 31 := by
  have inPairs : (e.1.2, e.2) ∈ (stored records).map fun e => (e.1.2, e.2) := mem_map_of_mem member
  rw [map_stored] at inPairs
  obtain ⟨p, inRecords, same⟩ := mem_map.mp inPairs
  obtain ⟨r, -, inRecord⟩ := mem_flatMap.mp inRecords
  have expressible := r.names p inRecord
  rw [Expressible, (Prod.mk.inj same).1] at expressible
  split at expressible <;> omega

/-- After accepted records and under later calls, the environment is the map that was sent exactly
if every name has the same hash in its record and as a C string, and no later value is too long. -/
theorem environment_stays_iff (signed : Bool) (records : List Record) {env env' : Hash}
    (clean : env.Clean) (accepted : receive records env = (env', true)) (ops : List Put) :
    Stays signed env' (sent (records.flatMap Record.pairs)) ops ↔
      (∀ r ∈ records, SameHashes signed r.beyond r.pairs) ∧ ∀ op ∈ ops, op.Short := by
  have holds := (Holds.clean clean).receive accepted
  have isKey : ∀ k, k ∈ (OrderedMap.empty.putAll (stored records)).keys ↔
      k ∈ (stored records).map Prod.fst := by
    intro k
    rw [OrderedMap.mem_keys_putAll]
    simp [OrderedMap.keys, OrderedMap.empty]
  have hashed_iff : Hashed signed (OrderedMap.empty.putAll (stored records)) ↔
      ∀ e ∈ stored records, e.1.1 = hashOfName signed e.1.2 := by
    simp only [Hashed, isKey, forall_mem_map]
  have same_iff : (∀ e ∈ stored records, e.1.1 = hashOfName signed e.1.2) ↔
      ∀ r ∈ records, SameHashes signed r.beyond r.pairs := by
    simp only [stored, forall_mem_flatMap]
    exact forall₂_congr fun r _ => keyed_hashed_iff r.length_le
  rw [← same_iff]
  constructor
  · intro stays
    have hashed : Hashed signed (OrderedMap.empty.putAll (stored records)) := by
      apply stays.now.1.hashed holds.represents
      intro k member
      obtain ⟨e, isStored, rfl⟩ := mem_map.mp ((isKey k).mp member)
      exact stored_short isStored
    have good := hashed_iff.mp hashed
    rw [sent_eq_byName good] at stays
    exact ⟨good, (stays_iff_short holds hashed ops).mp stays⟩
  · rintro ⟨good, short⟩
    rw [sent_eq_byName good]
    exact (stays_iff_short holds (hashed_iff.mpr good) ops).mpr short

/-- The table of a new request. -/
def initial : Hash where
  hashTable := fun _ => none
  list := none
  block := 0
  idx := 0
  mem := fun _ =>
    { hashValue := 0, varLen := 0, var := (0, 0), valLen := 0, val := none, next := none,
      listNext := none }
  data := { seg := 0, pos := 0, size := hashSegSize.toNat, bytes := fun _ _ => 0 }

private theorem initial_clean : initial.Clean := ⟨fun _ => rfl, rfl, rfl, rfl, rfl, rfl, rfl⟩

/-- The record of one pair, both lengths in one byte. -/
def single (name val : Bytes) (shortName : name.length < 128) (shortVal : val.length < 128) :
    Record where
  pairs := [{ name, val, wideName := false, wideVal := false }]
  beyond := fun _ => 0
  names := by simpa [Expressible] using shortName
  vals := by simpa [Expressible] using shortVal
  length_le := by
    simp [encode, encodeLength]
    omega

/-- The pair `ABCD=x`. -/
def fourLetters : Record := single [65, 66, 67, 68] [120] (by simp) (by simp)

/-- The pair `ABC=x`. -/
def threeLetters : Record := single [65, 66, 67] [120] (by simp) (by simp)

/-- A record is received, and then `fcgi_putenv` is called twice. -/
theorem environment_stays_iff_fourLetters : ∃ env', receive [fourLetters] initial = (env', true) ∧
      Stays true env' (sent fourLetters.pairs)
        [⟨⟨[65, 66, 67], by simp⟩, some [121], by simp⟩,
          ⟨⟨[65, 66, 67, 68], by simp⟩, none, by simp⟩] := by
  have accepted : receive [fourLetters] initial = ((receive [fourLetters] initial).1, true) := by
    simp [receive, fourLetters, single, getParams, encode, encodeLength, readLengths, readLength]
  refine ⟨_, accepted, (environment_stays_iff true [fourLetters] initial_clean accepted
    _).mpr ⟨?_, ?_⟩⟩
  · simp [fourLetters, single, SameHashes, SameHash, hashedBytes]
  · simp [Put.Short]

/-- The third byte after the beginning of `ABC` in the record is the `x` of the value. -/
theorem threeLetters_notFound :
    ∃ env', receive [threeLetters] initial = (env', true) ∧
      sent threeLetters.pairs [65, 66, 67] = some [120] ∧
      getenv true env' [65, 66, 67] = none ∧ getenv false env' [65, 66, 67] = none := by
  refine ⟨(receive [threeLetters] initial).1, Prod.ext rfl ?_, rfl, ?_⟩
  · decide +kernel
  · decide +kernel

end Jonj.Fcgi
