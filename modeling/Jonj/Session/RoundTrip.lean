import Jonj.Session.Basic

/-!
# What the session decoders restore

The records of a session follow one another without a length. The decoders find the next name
because reading a value stops at the end of its text, whatever the value holds: `unserialize_text`
says this for any rest of the input, and the records are read by induction over the variables.
-/
namespace Jonj.Session

open Serialize List

variable {D : Type}

/-- The variables with a string key, which are the ones a session keeps. -/
def stringKeyed (elements : List (Key × PhpValue)) : List (Key × PhpValue) :=
  elements.filter fun e => match e.1 with
    | .string _ => true
    | .long _ => false

/-- What both encoders write: a header with the name, then the value. -/
def recordsText (header : Str → Bytes) : List (Key × PhpValue) → Bytes
  | [] => []
  | (.long _, _) :: rest => recordsText header rest
  | (.string name, v) :: rest => header name ++ (v.text ++ recordsText header rest)

def delimited (name : Str) : Bytes := name.bytes ++ [psDelimiter]

def counted (name : Str) : Bytes := UInt8.ofNat name.bytes.length :: name.bytes

/-- The `jonj` format has no way to write the name. -/
def Refused (name : Str) : Prop := psDelimiter ∈ name.bytes ∨ psUndefMarker ∈ name.bytes

def HoldsVariables (mem : Memory D) (session : Nat) (elements : List (Key × PhpValue)) : Prop :=
  RepresentsElements mem Set.univ Set.univ (mem.tables session).entries elements

/-! ### The encoders -/

variable {elements : List (Key × PhpValue)} {name : Str} {w : Writer}

section encode

variable {gcvt : D → Bytes} {mem : Memory D} {depth : Nat}

section

variable {v : PhpValue} {struc : Addr} (small : v.Small)
    (stored : Represents mem Set.univ Set.univ struc v) (deep : v.height < depth)
    (idle : ∀ height, w.Above mem height)

include small stored deep idle

/-- A variable of the `jonj` format is its name, the delimiter and its value. -/
theorem encodeVar_text (writable : ¬ Refused name) :
    ∃ w', encodeVar gcvt mem depth w name struc = some (some w') ∧
      Wrote w w' (delimited name ++ v.text) := by
  have headed : Wrote w ((w.append name.bytes).append [psDelimiter]) (delimited name) :=
    (wrote_append w _).trans (wrote_append _ _)
  obtain ⟨w', ran, wrote⟩ := serializeIntern_text small stored
    ((idle _).of_wrote headed) deep
  refine ⟨w', ?_, headed.trans wrote⟩
  rw [Refused] at writable
  rw [encodeVar, if_neg writable, ran]
  rfl

/-- A variable of the `jonj_binary` format is preceded by the length of its name. -/
theorem encodeVarBinary_text (short : name.bytes.length ≤ psBinMax) :
    ∃ w', encodeVarBinary gcvt mem depth w name struc = some (some w') ∧
      Wrote w w' (counted name ++ v.text) := by
  have headed : Wrote w (w.append (counted name)) (counted name) := wrote_append w _
  obtain ⟨w', ran, wrote⟩ := serializeIntern_text small stored
    ((idle _).of_wrote headed) deep
  refine ⟨w', ?_, headed.trans wrote⟩
  rw [encodeVarBinary, if_neg (by omega)]
  rw [counted] at ran
  rw [ran]
  rfl

end

variable {code : Writer → Str → Addr → Option (Option Writer)} {header : Str → Bytes}

/-- The encoder of a variable writes the header of its name and the value. -/
def Codes (mem : Memory D) (code : Writer → Str → Addr → Option (Option Writer))
    (header : Str → Bytes) (e : Key × PhpValue) : Prop :=
  ∀ name, e.1 = .string name → ∀ (w : Writer) (struc : Addr),
    Represents mem Set.univ Set.univ struc e.2 → (∀ height, w.Above mem height) →
    ∃ w', code w name struc = some (some w') ∧ Wrote w w' (header name ++ e.2.text)

private theorem psEncodeLoop_text {entries : List (Key × Addr)}
    (each : ∀ e ∈ elements, Codes mem code header e)
    (stored : RepresentsElements mem Set.univ Set.univ entries elements)
    (idle : ∀ height, w.Above mem height) :
    ∃ w', psEncodeLoop code w entries = some (some w') ∧
      Wrote w w' (recordsText header elements) := by
  rw [representsElements_iff] at stored
  induction stored generalizing w with
  | nil => exact ⟨w, rfl, (append_nil _).symm, rfl⟩
  | @cons entry e _ _ one _ ih =>
    obtain ⟨key, struc⟩ := entry
    obtain ⟨key', v⟩ := e
    obtain ⟨rfl, value⟩ := one
    rw [forall_mem_cons] at each
    cases key with
    | long index =>
      exact ih each.2 idle
    | string name =>
      obtain ⟨w₁, coded, wrote⟩ := each.1 name rfl w struc value idle
      obtain ⟨w₂, looped, wrote'⟩ := ih each.2 fun height => (idle height).of_wrote wrote
      refine ⟨w₂, ?_, ?_⟩
      · rw [psEncodeLoop, coded]
        exact looped
      · rw [recordsText, ← append_assoc]
        exact wrote.trans wrote'

/-- One name that is refused ends the loop without a result. -/
theorem encodeLoop_refused {entries : List (Key × Addr)} (small : ∀ e ∈ elements, e.2.Small)
    (deep : ∀ e ∈ elements, e.2.height < depth)
    (stored : RepresentsElements mem Set.univ Set.univ entries elements)
    (idle : ∀ height, w.Above mem height)
    (refused : ∃ e ∈ elements, ∃ name, e.1 = .string name ∧ Refused name) :
    psEncodeLoop (encodeVar gcvt mem depth) w entries = some none := by
  rw [representsElements_iff] at stored
  induction stored generalizing w with
  | nil => simp at refused
  | @cons entry e _ _ one _ ih =>
    obtain ⟨key, struc⟩ := entry
    obtain ⟨key', v⟩ := e
    obtain ⟨rfl, value⟩ := one
    rw [forall_mem_cons] at small deep
    simp only [mem_cons, exists_eq_or_imp] at refused
    cases key with
    | long index => exact ih small.2 deep.2 idle (refused.resolve_left (by simp))
    | string first =>
      by_cases here : Refused first
      · rw [psEncodeLoop, show encodeVar gcvt mem depth w first struc = some none from if_pos here]
      -- the refused name is a later one
      obtain ⟨w', coded, wrote⟩ := encodeVar_text small.1 value deep.1 idle here
      rw [psEncodeLoop, coded]
      refine ih small.2 deep.2 (fun height => (idle height).of_wrote wrote)
        (refused.resolve_left ?_)
      rintro ⟨name, string, bad⟩
      cases string
      exact here bad

theorem above_init (mem : Memory D) (height : Nat) : Writer.init.Above mem height :=
  fun _ _ busy _ => absurd rfl busy

private theorem finishEncode_text {session : Nat} (each : ∀ e ∈ elements, Codes mem code header e)
    (stored : HoldsVariables mem session elements) :
    finishEncode (psEncodeLoop code .init (mem.tables session).entries) =
      some (some (recordsText header elements,
        BitVec.ofNat 32 (recordsText header elements).length)) := by
  obtain ⟨w, ran, wrote⟩ := psEncodeLoop_text each stored (above_init mem)
  have buf : w.buf = recordsText header elements := wrote.buf
  rw [ran, ← buf]
  rfl

end encode

/-! ### The decoders -/

variable {r : Reader D}

section decode

variable {env : Env D} {special : Bytes → Bool} {session depth : Nat}

private theorem nameOf_bytes (name : Str) : nameOf name.bytes = name := by
  rw [nameOf, dif_pos name.fits]

private theorem addSessionVar_present (present : (.string name) ∈ (r.mem.tables session).keys) :
    addSessionVar session r name = r := by
  have found : (r.mem.tables session).contains (.string name) = true := decide_eq_true present
  rw [addSessionVar, if_pos found]

/-- A record is read up to its end, and its variable becomes the last one of the session. -/
theorem decodeVar_text {v : PhpValue} {rest : Bytes} (small : v.Small) (normal : v.Normal)
    (deep : v.height < depth) (plain : special name.bytes = false)
    (input : r.input = v.text ++ rest) (inside : session < r.nextTable)
    (absent : (.string name) ∉ (r.mem.tables session).keys) :
    ∃ r' current, decodeVar env special session depth r name.bytes true = (r', true) ∧
      r.Filled r' session [(.string name, current)] [(.string name, v)] rest := by
  obtain ⟨r₂, read, done⟩ : ∃ r₂,
      Reader.unserialize env depth r.allocZval.1 r.nextZval true = (r₂, some r.nextZval) ∧
        r.allocZval.1.Read r₂ r.nextZval v rest :=
    unserialize_text small normal input deep (Nat.lt_succ_self _)
  have filled := Reader.Filled.of_read (r := r) done inside absent le_rfl
    (Nat.lt_succ_self _) rfl rfl
    (fun z old => by simp [Reader.allocZval, old.ne])
  refine ⟨_, _, ?_, filled⟩
  have present : (.string name) ∈
      ((r₂.update (.array session) (.string name) r.nextZval).mem.tables session).keys := by
    rw [OrderedMap.keys, filled.entries]
    simp
  rw [decodeVar]
  change Reader.unserialize env depth r.allocZval.1 r.allocZval.2 true = _ at read
  simp only [plain, if_true, read, Bool.false_eq_true, if_false, nameOf_bytes, setSessionVar]
  rw [addSessionVar_present present]

private theorem takeWhile_delimited (writable : ¬ Refused name) (rest : Bytes) :
    (delimited name ++ rest).takeWhile (fun c => decide (c ≠ psDelimiter)) = name.bytes := by
  have without : ∀ c ∈ name.bytes, decide (c ≠ psDelimiter) = true := by
    intro c member
    rw [decide_eq_true_iff]
    rintro rfl
    exact writable (.inl member)
  rw [delimited, append_assoc, takeWhile_append_of_pos without]
  simp

/-- One turn reads one variable. -/
theorem decodeLoop_record {r' : Reader D} {rest : Bytes} {turns : Nat} {ok : Bool}
    (writable : ¬ Refused name) (input : r.input = delimited name ++ rest)
    (decoded : decodeVar env special session depth { r with input := rest } name.bytes true =
      (r', ok)) :
    decodeLoop env special session depth (turns + 1) r =
      if ok then decodeLoop env special session depth turns r' else (r', false) := by
  have delimiter : psDelimiter ∈ delimited name ++ rest := by simp [delimited]
  have valued : (delimited name ++ rest).head? ≠ some psUndefMarker := by
    intro marked
    rw [delimited] at marked
    cases bytes : name.bytes with
    | nil =>
      rw [bytes] at marked
      cases marked
    | cons first others =>
      rw [bytes] at marked
      refine writable (.inr ?_)
      rw [bytes, ← Option.some.inj marked]
      exact mem_cons_self
  have dropped : (delimited name ++ rest).drop (name.bytes.length + 1) = rest := by
    rw [drop_append_of_le_length (by simp [delimited]), drop_of_length_le (by simp [delimited])]
    rfl
  rw [decodeLoop, input]
  simp only [delimiter, not_true_eq_false, if_false, takeWhile_delimited writable, valued, dropped,
    ne_eq, not_false_eq_true, decide_true, if_true, decoded]
  cases ok <;> rfl

private theorem decodeVar_unread {name : Bytes} (unread :
      (r.allocZval.1.unserialize env depth r.allocZval.2 true).2 = none) :
    decodeVar env special session depth r name true =
      ((r.allocZval.1.unserialize env depth r.allocZval.2 true).1, false) := by
  rcases read : r.allocZval.1.unserialize env depth r.allocZval.2 true with ⟨r', _ | z⟩
  · simp [decodeVar, read]
  · rw [read] at unread
    cases unread

private theorem decodeLoopBinary_record {r' : Reader D} {rest : Bytes} {turns : Nat}
    (short : name.bytes.length ≤ psBinMax) (input : r.input = counted name ++ rest)
    (decoded : decodeVar env special session depth { r with input := rest } name.bytes true =
      (r', true)) :
    decodeLoopBinary env special session depth (turns + 1) r =
      decodeLoopBinary env special session depth turns r' := by
  rw [psBinMax] at short
  have count : (UInt8.ofNat name.bytes.length).toNat = name.bytes.length := by
    rw [UInt8.toNat_ofNat']
    omega
  have namelen : name.bytes.length % psBinUndef = name.bytes.length := by
    rw [psBinUndef]
    omega
  have valued : name.bytes.length < psBinUndef := by
    rw [psBinUndef]
    omega
  rw [counted, cons_append] at input
  rw [decodeLoopBinary, input]
  simp only [count, namelen, valued]
  rw [if_neg (by simp), take_left, drop_left, decide_true, decoded]

/-- A decoder that reads the records one by one fills the session. -/
theorem decode_records (env : Env D) {loop : Nat → Reader D → Reader D × Bool}
    {header : Str → Bytes}
    (readable : Str → Prop) (nonempty : ∀ name, header name ≠ [])
    (done : ∀ turns (r : Reader D), r.input = [] → loop turns r = (r, true))
    (record : ∀ name turns (r r' : Reader D) rest, readable name → r.input = header name ++ rest →
      decodeVar env special session depth { r with input := rest } name.bytes true = (r', true) →
      loop (turns + 1) r = loop turns r') {turns : Nat}
    (small : ∀ e ∈ elements, e.2.Small) (normal : ∀ e ∈ elements, e.2.Normal)
    (deep : ∀ e ∈ elements, e.2.height < depth)
    (plain : ∀ e ∈ elements, ∀ name, e.1 = .string name →
      special name.bytes = false ∧ readable name)
    (fresh : ((r.mem.tables session).keys ++ elements.map Prod.fst).Nodup)
    (inside : session < r.nextTable) (input : r.input = recordsText header elements)
    (enough : r.input.length < turns) :
    ∃ r' added, loop turns r = (r', true) ∧
      r.Filled r' session added (stringKeyed elements) [] := by
  induction elements generalizing r turns with
  | nil => exact ⟨r, [], done turns r input, Reader.filled_nil input⟩
  | cons e elements ih =>
    obtain ⟨key, v⟩ := e
    rw [forall_mem_cons] at small normal deep plain
    cases key with
    | long index =>
      have fresh' : ((r.mem.tables session).keys ++ elements.map Prod.fst).Nodup := by
        apply Nodup.sublist _ fresh
        exact (sublist_cons_self _ _).append_left _
      exact ih small.2 normal.2 deep.2 plain.2 fresh' inside input enough
    | string name =>
      obtain ⟨turns, rfl⟩ := Nat.exists_eq_succ_of_ne_zero (Nat.ne_zero_of_lt enough)
      rw [recordsText] at input
      obtain ⟨free, found⟩ := plain.1 name rfl
      have absent : (.string name) ∉ (r.mem.tables session).keys := by
        rw [nodup_append] at fresh
        exact fun member => fresh.2.2 _ member _ mem_cons_self rfl
      obtain ⟨r₁, current, decoded, one⟩ : ∃ r₁ current,
          decodeVar env special session depth
            { r with input := v.text ++ recordsText header elements }
            name.bytes true = (r₁, true) ∧
          Reader.Filled { r with input := v.text ++ recordsText header elements } r₁ session
            [(.string name, current)] [(.string name, v)] (recordsText header elements) :=
        decodeVar_text small.1 normal.1 deep.1 free rfl inside absent
      have fresh' : ((r₁.mem.tables session).keys ++ elements.map Prod.fst).Nodup := by
        rw [OrderedMap.keys, one.entries]
        simpa [OrderedMap.keys] using fresh
      have enough' : r₁.input.length < turns := by
        have used := length_pos_of_ne_nil (nonempty name)
        rw [one.input]
        rw [input] at enough
        simp only [length_append] at enough
        omega
      obtain ⟨r', added, looped, filled⟩ := ih small.2 normal.2 deep.2 plain.2
        fresh' (inside.trans_le one.nextTable) one.input enough'
      have all := Reader.Filled.trans (by exact inside) one filled
      refine ⟨r', _, ?_, all.input, all.nextZval, all.nextTable, all.zvals, all.tables, all.entries,
        all.stored⟩
      rw [record name turns r r₁ _ found input decoded]
      exact looped

theorem bytesOf_all {text : Bytes} (short : text.length < 2 ^ 31) :
    bytesOf text (BitVec.ofNat 32 text.length) = text := by
  rw [bytesOf, toInt_ofNat short, Int.toNat_natCast, take_length]

/-- Decoding the text into an empty session gives the variables with a string key, and no
others. -/
def Restores (decoder : Nat → Reader D → Bytes → BitVec 32 → Reader D × Bool) (text : Bytes)
    (elements : List (Key × PhpValue)) : Prop :=
  ∀ (r : Reader D) (session : Nat), session < r.nextTable → (r.mem.tables session).entries = [] →
    ∃ r', decoder session r text (BitVec.ofNat 32 text.length) = (r', true) ∧
      HoldsVariables r'.mem session (stringKeyed elements)

theorem Restores.of_filled {decoder : Nat → Reader D → Bytes → BitVec 32 → Reader D × Bool}
    {text : Bytes}
    (decoded : ∀ (r : Reader D) (session : Nat), session < r.nextTable →
      (r.mem.tables session).entries = [] →
      ∃ r' added, decoder session r text (BitVec.ofNat 32 text.length) = (r', true) ∧
        Reader.Filled { r with input := text } r' session added (stringKeyed elements) []) :
    Restores decoder text elements := by
  intro r session inside empty
  obtain ⟨r', added, ran, filled⟩ := decoded r session inside empty
  refine ⟨r', ran, ?_⟩
  have entries : (r'.mem.tables session).entries = added := by
    rw [filled.entries, empty]
    rfl
  rw [HoldsVariables, entries]
  exact filled.stored.everywhere

theorem fresh_of_empty (nodup : (elements.map Prod.fst).Nodup)
    (empty : (r.mem.tables session).entries = []) :
    ((r.mem.tables session).keys ++ elements.map Prod.fst).Nodup := by
  rw [OrderedMap.keys, empty]
  exact nodup

section restores

variable {elements : List (Key × PhpValue)} (nodup : (elements.map Prod.fst).Nodup)
  (small : ∀ e ∈ elements, e.2.Small) (normal : ∀ e ∈ elements, e.2.Normal)
  (deep : ∀ e ∈ elements, e.2.height < depth)
include nodup small normal deep

/-- The `jonj` format restores the variables. -/
theorem decode_restores (plain : ∀ e ∈ elements, ∀ name, e.1 = .string name →
      special name.bytes = false ∧ ¬ Refused name)
    (short : (recordsText delimited elements).length < 2 ^ 31) :
    Restores (fun session => decode env special session depth)
      (recordsText delimited elements) elements := by
  apply Restores.of_filled
  intro r session inside empty
  rw [decode, bytesOf_all short]
  refine decode_records env (fun name => ¬ Refused name) ?_ ?_ ?_ small normal deep plain
    (fresh_of_empty nodup empty) inside rfl (Nat.lt_succ_self _)
  · simp [delimited]
  · intro turns r done
    cases turns with
    | zero => rfl
    | succ turns =>
      rw [decodeLoop, done]
      simp
  · exact fun name turns r r' rest writable input decoded =>
      decodeLoop_record writable input decoded

/-- The `jonj_binary` format restores the variables. -/
theorem decodeBinary_restores (plain : ∀ e ∈ elements, ∀ name, e.1 = .string name →
      special name.bytes = false ∧ name.bytes.length ≤ psBinMax)
        (short : (recordsText counted elements).length < 2 ^ 31) :
    Restores (fun session => decodeBinary env special session depth)
      (recordsText counted elements) elements := by
  apply Restores.of_filled
  intro r session inside empty
  rw [decodeBinary, bytesOf_all short]
  refine decode_records env (fun name => name.bytes.length ≤ psBinMax) ?_ ?_ ?_ small
    normal deep plain
    (fresh_of_empty nodup empty) inside rfl (Nat.lt_succ_self _)
  · simp [counted]
  · intro turns r done
    cases turns with
    | zero => rfl
    | succ turns => rw [decodeLoopBinary, done]
  · exact fun name turns r r' rest short input decoded =>
      decodeLoopBinary_record short input decoded

end restores

end decode

/-! ### Both together -/

section session

variable (gcvt : D → Bytes) (env : Env D) {mem : Memory D} {depth session : Nat}
  {elements : List (Key × PhpValue)}

private theorem keys_nodup (stored : HoldsVariables mem session elements) :
    (elements.map Prod.fst).Nodup := by
  have keys := RepresentsElements.keys_eq stored
  rw [← keys]
  exact (mem.tables session).nodup

private theorem length_recordsText (elements : List (Key × PhpValue)) :
    (recordsText counted elements).length = (recordsText delimited elements).length := by
  induction elements with
  | nil => rfl
  | cons e elements ih =>
    obtain ⟨_ | name, v⟩ := e
    · exact ih
    · simp only [recordsText, counted, delimited, length_append, length_cons, length_nil, ih]

/-- A session whose text a `smart_str` can hold is written and restored, by the `jonj` serializer
unless it refuses a name, by the binary one if no name is too long. -/
theorem session_restored {special : Bytes → Bool} (stored : HoldsVariables mem session elements)
    (plain : ∀ e ∈ elements, ∀ name, e.1 = .string name → special name.bytes = false)
    (small : ∀ e ∈ elements, e.2.Small) (normal : ∀ e ∈ elements, e.2.Normal)
    (short : (recordsText delimited elements).length < SmartStr.limit)
    (deep : ∀ e ∈ elements, e.2.height < depth) :
    (encode gcvt mem depth session = some none ↔
      ∃ e ∈ elements, ∃ name, e.1 = .string name ∧ Refused name) ∧
    ((∀ e ∈ elements, ∀ name, e.1 = .string name → ¬ Refused name) →
      ∃ text, encode gcvt mem depth session = some (some (text, BitVec.ofNat 32 text.length)) ∧
        text.length < SmartStr.limit ∧
        Restores (fun session => decode env special session depth) text elements) ∧
    ((∀ e ∈ elements, ∀ name, e.1 = .string name → name.bytes.length ≤ psBinMax) →
      ∃ text, encodeBinary gcvt mem depth session =
          some (some (text, BitVec.ofNat 32 text.length)) ∧ text.length < SmartStr.limit ∧
        Restores (fun session => decodeBinary env special session depth) text elements) := by
  have int : SmartStr.limit ≤ 2 ^ 31 := by decide
  have nodup := keys_nodup stored
  have written : (∀ e ∈ elements, ∀ name, e.1 = .string name → ¬ Refused name) →
      encode gcvt mem depth session = some (some (recordsText delimited elements,
        BitVec.ofNat 32 (recordsText delimited elements).length)) := by
    intro writable
    apply finishEncode_text _ stored
    intro e member name string w struc value idle
    exact encodeVar_text (small e member) value (deep e member) idle (writable e member name string)
  refine ⟨⟨?_, ?_⟩, ?_, ?_⟩
  · intro failed
    by_contra none
    push Not at none
    rw [written none] at failed
    cases failed
  · intro refused
    rw [encode, encodeLoop_refused small deep stored (above_init mem) refused]
    rfl
  · intro writable
    refine ⟨_, written writable, short, ?_⟩
    exact decode_restores nodup small normal deep (fun e member name string =>
      ⟨plain e member name string, writable e member name string⟩) (short.trans_le int)
  · intro names
    rw [← length_recordsText] at short
    refine ⟨recordsText counted elements, ?_, short, ?_⟩
    · apply finishEncode_text _ stored
      intro e member name string w struc value idle
      exact encodeVarBinary_text (small e member) value (deep e member) idle
        (names e member name string)
    · exact decodeBinary_restores nodup small normal deep (fun e member name string =>
        ⟨plain e member name string, names e member name string⟩) (short.trans_le int)

end session

/-- The names that the decoders skip in an ordinary request. -/
def isReserved (name : Bytes) : Bool := name == ascii "GLOBALS" || name == ascii "_SESSION"

/-- `array("k" => 5, 7 => null)` -/
def sampleSession : Memory Unit where
  zvals z := ⟨false, if z = 0 then .long 5 else .null⟩
  tables _ := ⟨[(.string sampleKey, 0), (.long 7, 1)], by decide⟩
  objects := sample.objects

theorem session_restored_sample :
    let elements : List (Key × PhpValue) := [(.string sampleKey, .long 5), (.long 7, .null)]
    (encode (fun _ => []) sampleSession 1 0 = some none ↔
      ∃ e ∈ elements, ∃ name, e.1 = .string name ∧ Refused name) ∧
    ((∀ e ∈ elements, ∀ name, e.1 = .string name → ¬ Refused name) →
      ∃ text, encode (fun _ => []) sampleSession 1 0 =
          some (some (text, BitVec.ofNat 32 text.length)) ∧ text.length < SmartStr.limit ∧
        Restores (fun session => decode sampleEnv isReserved session 1) text elements) ∧
    ((∀ e ∈ elements, ∀ name, e.1 = .string name → name.bytes.length ≤ psBinMax) →
      ∃ text, encodeBinary (fun _ => []) sampleSession 1 0 =
          some (some (text, BitVec.ofNat 32 text.length)) ∧ text.length < SmartStr.limit ∧
        Restores (fun session => decodeBinary sampleEnv isReserved session 1) text elements) := by
  intro elements
  refine session_restored _ sampleEnv ?_ ?_ ?_ ?_ (by decide) ?_
  · simp [elements, HoldsVariables, RepresentsElements, Represents, sampleSession]
  · simp [elements, isReserved, sampleKey, ascii]
  · simp [elements, PhpValue.Small]
  · simp [elements, PhpValue.Normal]
  · simp [elements, PhpValue.height]

private theorem nodup_sampleKey : ([(Key.string sampleKey, (0 : Addr))].map Prod.fst).Nodup :=
  nodup_singleton _

/-- A session with one variable, an array of as many nulls. -/
def oneArray (n : Nat) (fits : n ≤ 2 ^ 64) : Memory Unit where
  zvals z := ⟨false, if z = 0 then .array 1 else .null⟩
  tables ht := if ht = 0 then ⟨[(.string sampleKey, 0)], nodup_sampleKey⟩
    else (nulls n fits : Memory Unit).tables ht
  objects := sample.objects

private theorem holds_oneArray {n : Nat} (fits : n ≤ 2 ^ 64) : HoldsVariables (oneArray n fits) 0
    [(.string sampleKey, .array (nullElements (indices n 1)))] := by
  refine ⟨rfl, ⟨1, trivial, trivial, rfl, represents_nulls ?_⟩, trivial⟩
  intro e member
  obtain ⟨i, _, rfl⟩ := mem_map.mp member
  rfl

/-- An array that an `int` cannot count is written without its elements and with a negative number;
the decoder stops there. -/
theorem hugeArray_lost :
    ∃ (mem : Memory Unit) (name : Str) (v : PhpValue), HoldsVariables mem 0 [(.string name, v)] ∧
      isReserved name.bytes = false ∧ ¬ Refused name ∧ v.Normal ∧
      ∃ text, encode (fun _ => []) mem 1 0 = some (some (text, BitVec.ofNat 32 text.length)) ∧
        text.length < SmartStr.limit ∧
        ∀ (depth session : Nat) (r : Reader Unit), (r.mem.tables session).entries = [] →
          ((decode sampleEnv isReserved session depth r text
            (BitVec.ofNat 32 text.length)).1.mem.tables
            session).entries = [] := by
  obtain ⟨n, fits, value, negative⟩ : ∃ n ≤ 2 ^ 64, n = 2 ^ 31 ∧ (BitVec.ofNat 32 n).toInt < 0 :=
    ⟨2 ^ 31, by omega, rfl, by decide⟩
  have count : numElements ((oneArray n fits).tables 1) = BitVec.ofNat 32 n :=
    numElements_indices fits 1
  rw [← count] at negative
  have plain : ¬ Refused sampleKey := by
    simp [Refused, sampleKey, psDelimiter, psUndefMarker]
  obtain ⟨w, ran, buf⟩ := @serialize_negative _ (fun _ => []) (oneArray n fits) 0 1 rfl negative
    ((Writer.init.append sampleKey.bytes).append [psDelimiter])
  have text : w.buf = ascii "k|a:-18446744071562067968:\x7b\x7d" := by
    rw [buf, count, value]
    decide
  have coded : encodeVar (fun _ => []) (oneArray n fits) 1 .init sampleKey 0 = some (some w) := by
    simp only [encodeVar]
    rw [if_neg (show ¬ (psDelimiter ∈ _ ∨ psUndefMarker ∈ _) from plain), ran]
    rfl
  have encoded : encode (fun _ => []) (oneArray n fits) 1 0 =
      some (some (w.buf, BitVec.ofNat 32 w.buf.length)) := by
    have entries : ((oneArray n fits).tables 0).entries = [(.string sampleKey, 0)] := rfl
    simp [encode, entries, psEncodeLoop, coded, finishEncode]
  refine ⟨oneArray n fits, sampleKey, _, holds_oneArray fits, by decide, plain, normal_indices fits,
    w.buf, encoded, by rw [text]; decide, fun depth session r empty => ?_⟩
  rw [decode, bytesOf_all (by rw [text]; decide), text]
  -- the name is found, and its value is not read
  obtain ⟨unread, untouched⟩ := @unserialize_unscanned Unit depth
    (Reader.allocZval { r with input := ascii "a:-18446744071562067968:\x7b\x7d" }).1 sampleEnv
    r.nextZval true rfl
  have stopped := @decodeLoop_record Unit sampleKey
    { r with input := ascii "k|a:-18446744071562067968:\x7b\x7d" } sampleEnv isReserved
      session depth
    _ _ 28 _ plain rfl (decodeVar_unread unread)
  rw [show (ascii "k|a:-18446744071562067968:\x7b\x7d").length = 28 from rfl, stopped]
  exact (congrArg (fun mem => (mem.tables session).entries) untouched).trans empty

end Jonj.Session
