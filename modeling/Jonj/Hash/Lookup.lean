import Jonj.Lib.OrderedMap
import Jonj.Hash.Links

/-!
# Keys and lookups

A bucket stands for an integer key or for a byte string. The lookups accept a
bucket on its key pointer alone; this is sound as long as equal pointers point at
equal bytes and no integer bucket carries a pointer. Under these invariants every
chain search finds the bucket of the key and nothing else.
-/
namespace Jonj.Hash

open DoublyLinked List

variable {α : Type}

inductive HKey where
  | int (h : UInt64)
  | str (bytes : List UInt8)
  deriving DecidableEq, Repr

def Bucket.key (b : Bucket α) : HKey :=
  if b.nKeyLength = 0 then .int b.h else .str (b.arKey.bytes.take b.nKeyLength.toNat)

/-- The `arKey` field of the bucket at `p`: NULL, an interned string, or the copy
behind the bucket. -/
def StoredAt (p : Addr) (k : CStr) : Prop :=
  k = .null ∨
    ((∃ n, k.ptr = .interned n) ∨ k.ptr = .bucket p) ∧ k.bytes ≠ [] ∧ k.bytes.length < 2 ^ 32

/-- A string bucket holds its full key and the hash of it. -/
structure BucketOk (p : Addr) (b : Bucket α) : Prop where
  stored : StoredAt p b.arKey
  string : b.nKeyLength ≠ 0 → b.arKey.ptr ≠ .null ∧
    b.nKeyLength.toNat = b.arKey.bytes.length ∧
    b.h = zendInlineHashFunc b.arKey.bytes b.nKeyLength

/-- Every allocated bucket is in order, and equal key pointers mean equal bytes. -/
structure MemOk (mem : Mem α) : Prop where
  bucket : ∀ p ∈ mem.live, BucketOk p (mem.cells p)
  agree : ∀ p ∈ mem.live, ∀ q ∈ mem.live, (mem.cells p).arKey.ptr = (mem.cells q).arKey.ptr →
    (mem.cells p).arKey.bytes = (mem.cells q).arKey.bytes

/-- The pointer a caller passes: where it is the key pointer of an allocated
bucket, the caller's bytes are the ones stored there. -/
def CStr.Agrees (mem : Mem α) (arKey : CStr) : Prop :=
  ∀ p ∈ mem.live, (mem.cells p).arKey.ptr = arKey.ptr → (mem.cells p).arKey.bytes = arKey.bytes

/-- No integer bucket of the list carries a key pointer. -/
def Plain (mem : Mem α) (xs : List Addr) : Prop :=
  ∀ p ∈ xs, (mem.cells p).nKeyLength = 0 → (mem.cells p).arKey = .null

/-! ### Chain searches -/

private theorem chainSearch_eq_find {mem : Mem α} {last : Addr → Option Addr} {c : List Addr}
    (links : Links (fun p => (mem.cells p).pNext) last c) (test : Bucket α → Bool) (fuel : Nat)
    (enough : c.length ≤ fuel) :
    chainSearch mem test fuel c.head? = c.find? fun p => test (mem.cells p) := by
  -- generalised to the suffix the search has not looked at
  suffices suffix : ∀ fuel l r, c = l ++ r → r.length ≤ fuel →
      chainSearch mem test fuel r.head? = r.find? fun p => test (mem.cells p) from
    suffix fuel [] c rfl enough
  intro fuel l r split short
  induction r generalizing fuel l with
  | nil => cases fuel <;> rfl
  | cons p r ih =>
    cases fuel with
    | zero => cases short
    | succ fuel =>
      have after : (mem.cells p).pNext = r.head? := (links l p r split).1
      simp only [length_cons] at short
      simp only [head?_cons, chainSearch, find?_cons, after]
      cases test (mem.cells p) with
      | true => rfl
      | false => simpa using ih fuel (l ++ [p]) (by simp [split]) (by omega)

section

variable {mem : Mem α} {ht : HashTable} {xs : List Addr} (wf : Wf mem ht xs)

include wf

/-- A search goes along the chain of its slot. -/
theorem search_chain {h : UInt64} {c : List Addr} (chain : Chain mem ht xs (ht.nIndex h) c)
    (test : Bucket α → Bool) : search mem ht h test = c.find? fun p => test (mem.cells p) := by
  have short : c.length ≤ mem.live.length :=
    (subperm_of_subset chain.nodup fun p member =>
      wf.live p ((chain.mem_iff p).mp member).1).length_le
  rw [search, chain.head, chainSearch_eq_find chain.links test _ short]

theorem search_eq (h : UInt64) (test : Bucket α → Bool) :
    ∃ c : List Addr, (∀ p, p ∈ c ↔ p ∈ xs ∧ ht.nIndex (mem.cells p).h = ht.nIndex h) ∧
      search mem ht h test = c.find? fun p => test (mem.cells p) := by
  obtain ⟨c, chain⟩ := wf.chains _ (nIndex_le ht h)
  exact ⟨c, chain.mem_iff, search_chain wf chain test⟩

/-- A search that a key decides: it finds the bucket with that key, wherever the
bucket is on its chain. -/
theorem search_eq_find {h : UInt64} {test : Bucket α → Bool} {k : HKey}
    (distinct : (xs.map fun p => (mem.cells p).key).Nodup)
    (decides : ∀ p ∈ xs, test (mem.cells p) = true → (mem.cells p).key = k)
    (found : ∀ p ∈ xs, (mem.cells p).key = k → test (mem.cells p) = true ∧
      ht.nIndex (mem.cells p).h = ht.nIndex h) :
    search mem ht h test = xs.find? fun p => decide ((mem.cells p).key = k) := by
  obtain ⟨c, mem_iff, searched⟩ := search_eq wf h test
  rw [searched]
  have unique : ∀ p ∈ xs, ∀ q ∈ xs, (mem.cells p).key = (mem.cells q).key → p = q :=
    fun p hp q hq => inj_on_of_nodup_map distinct hp hq
  cases hits : c.find? fun p => test (mem.cells p) with
  | some p =>
    have accepted : test (mem.cells p) = true := by
      simpa using find?_some hits
    have member := ((mem_iff p).mp (mem_of_find?_eq_some hits)).1
    have keyed := decides p member accepted
    cases other : xs.find? fun p => decide ((mem.cells p).key = k) with
    | none =>
      have absent := find?_eq_none.mp other p member
      simp [keyed] at absent
    | some q =>
      have keyed' : (mem.cells q).key = k := by simpa using find?_some other
      rw [unique p member q (mem_of_find?_eq_some other) (keyed.trans keyed'.symm)]
  | none =>
    symm
    rw [find?_eq_none]
    intro p member
    simp only [decide_eq_true_eq]
    intro keyed
    obtain ⟨accepted, slot⟩ := found p member keyed
    exact find?_eq_none.mp hits p ((mem_iff p).mpr ⟨member, slot⟩) accepted

end

/-! ### The three tests -/

variable {b : Bucket α}

theorem key_str_of_ne (string : b.nKeyLength ≠ 0) :
    b.key = .str (b.arKey.bytes.take b.nKeyLength.toNat) :=
  if_neg string

variable {p : Addr}

theorem BucketOk.key_eq (ok : BucketOk p b) (string : b.nKeyLength ≠ 0) :
    b.key = .str b.arKey.bytes := by
  rw [key_str_of_ne string, (ok.string string).2.1, take_length]

theorem BucketOk.of_key (ok : BucketOk p b) {bytes : List UInt8}
    (keyed : b.key = .str bytes) : b.nKeyLength ≠ 0 ∧ b.arKey.bytes = bytes ∧
      b.nKeyLength.toNat = bytes.length ∧ b.h = zendInlineHashFunc bytes b.nKeyLength := by
  have string : b.nKeyLength ≠ 0 := by
    intro zero
    simp [Bucket.key, zero] at keyed
  have bytesEq : b.arKey.bytes = bytes := by
    have stored := ok.key_eq string
    rw [keyed] at stored
    exact (HKey.str.inj stored).symm
  obtain ⟨_, length, hash⟩ := ok.string string
  exact ⟨string, bytesEq, bytesEq ▸ length, bytesEq ▸ hash⟩

theorem key_int_iff {h : UInt64} : b.key = .int h ↔ b.nKeyLength = 0 ∧ b.h = h := by
  unfold Bucket.key
  split
  next zero => simp [zero]
  next string => simp [string]

/-- A caller's string with its length, as every string call passes them. -/
structure Passed (arKey : CStr) (nKeyLength : UInt32) : Prop where
  nonzero : nKeyLength ≠ 0
  length : nKeyLength.toNat = arKey.bytes.length
  notNull : arKey.ptr ≠ .null

theorem Key.passed (key : Key) : Passed key.toCStr key.nKeyLength := by
  have length : key.nKeyLength.toNat = key.bytes.length :=
    UInt32.toNat_ofNat_of_lt' (by simpa using key.fits)
  refine ⟨?_, length, key.notNull⟩
  intro zero
  rw [zero] at length
  exact key.nonempty (eq_nil_of_length_eq_zero (by simpa using length.symm))

theorem BucketOk.passed (ok : BucketOk p b) (string : b.nKeyLength ≠ 0) :
    Passed b.arKey b.nKeyLength :=
  ⟨string, (ok.string string).2.1, (ok.string string).1⟩

variable {nKeyLength : UInt32} {arKey : CStr}

theorem Passed.key_eq (passed : Passed arKey nKeyLength) (length : b.nKeyLength = nKeyLength)
    (bytes : b.arKey.bytes.take nKeyLength.toNat = arKey.bytes.take nKeyLength.toNat) :
    b.key = .str arKey.bytes := by
  rw [key_str_of_ne (length ▸ passed.nonzero), length, bytes, passed.length, take_length]

section tests

variable {mem : Mem α} {ht : HashTable} {xs : List Addr}

private theorem keyMatches_sound (memOk : MemOk mem) (plain : Plain mem xs)
    (live : ∀ p ∈ xs, p ∈ mem.live) {h : UInt64} (passed : Passed arKey nKeyLength)
    (agrees : arKey.Agrees mem) (member : p ∈ xs)
    (accepted : keyMatches arKey nKeyLength h (mem.cells p) = true) :
    (mem.cells p).key = .str arKey.bytes := by
  have ok := memOk.bucket p (live p member)
  simp only [keyMatches, Bool.or_eq_true, Bool.and_eq_true, decide_eq_true_eq, memcmpEq] at accepted
  rcases accepted with pointer | ⟨⟨_, length⟩, bytes⟩
  · have string : (mem.cells p).nKeyLength ≠ 0 := by
      intro zero
      have null := plain p member zero
      rw [null] at pointer
      exact passed.notNull pointer.symm
    rw [ok.key_eq string, agrees p (live p member) pointer]
  · exact passed.key_eq length bytes

theorem keyMatches_complete (memOk : MemOk mem) (live : ∀ p ∈ xs, p ∈ mem.live)
    (passed : Passed arKey nKeyLength) (member : p ∈ xs)
    (keyed : (mem.cells p).key = .str arKey.bytes) :
    (mem.cells p).h = zendInlineHashFunc arKey.bytes nKeyLength ∧
      (mem.cells p).nKeyLength = nKeyLength ∧ (mem.cells p).arKey.bytes = arKey.bytes := by
  obtain ⟨_, bytes, length, hash⟩ := (memOk.bucket p (live p member)).of_key keyed
  have same : (mem.cells p).nKeyLength = nKeyLength :=
    UInt32.toNat_inj.mp (length.trans passed.length.symm)
  exact ⟨same ▸ hash, same, bytes⟩

theorem search_key (wf : Wf mem ht xs) (memOk : MemOk mem) (plain : Plain mem xs)
    (distinct : (xs.map fun p => (mem.cells p).key).Nodup) (passed : Passed arKey nKeyLength)
    (agrees : arKey.Agrees mem) :
    search mem ht (zendInlineHashFunc arKey.bytes nKeyLength)
        (keyMatches arKey nKeyLength (zendInlineHashFunc arKey.bytes nKeyLength)) =
      xs.find? fun p => decide ((mem.cells p).key = .str arKey.bytes) := by
  apply search_eq_find wf distinct
  · exact fun p member => keyMatches_sound memOk plain wf.live passed agrees member
  · intro p member keyed
    obtain ⟨hash, length, bytes⟩ := keyMatches_complete memOk wf.live passed member keyed
    exact ⟨by simp [keyMatches, hash, length, memcmpEq, bytes], by rw [hash]⟩

theorem search_index (wf : Wf mem ht xs) (distinct : (xs.map fun p => (mem.cells p).key).Nodup)
    (h : UInt64) :
    search mem ht h (indexMatches h) = xs.find? fun p => decide ((mem.cells p).key = .int h) := by
  apply search_eq_find wf distinct
  · simp [indexMatches, key_int_iff]
  · intro p _ keyed
    obtain ⟨zero, hash⟩ := key_int_iff.mp keyed
    exact ⟨by simp [indexMatches, zero, hash], by rw [hash]⟩

/-- Deletion by string compares bytes only and finds the same bucket. -/
theorem search_del_key (wf : Wf mem ht xs) (memOk : MemOk mem)
    (distinct : (xs.map fun p => (mem.cells p).key).Nodup) (passed : Passed arKey nKeyLength) :
    search mem ht (zendInlineHashFunc arKey.bytes nKeyLength)
        (delMatches arKey nKeyLength (zendInlineHashFunc arKey.bytes nKeyLength)) =
      xs.find? fun p => decide ((mem.cells p).key = .str arKey.bytes) := by
  apply search_eq_find wf distinct
  · intro p member accepted
    simp only [delMatches, Bool.and_eq_true, Bool.or_eq_true, decide_eq_true_eq, memcmpEq]
      at accepted
    obtain ⟨⟨_, length⟩, zero | bytes⟩ := accepted
    · exact absurd (length ▸ zero) passed.nonzero
    · exact passed.key_eq length bytes
  · intro p member keyed
    obtain ⟨hash, length, bytes⟩ := keyMatches_complete memOk wf.live passed member keyed
    exact ⟨by simp [delMatches, hash, length, memcmpEq, bytes], by rw [hash]⟩

/-- Deletion by index passes the length zero, which only integer buckets have. -/
theorem search_del_index (wf : Wf mem ht xs) (distinct : (xs.map fun p => (mem.cells p).key).Nodup)
    (arKey : CStr) (h : UInt64) :
    search mem ht h (delMatches arKey 0 h) = xs.find? fun p =>
      decide ((mem.cells p).key = .int h) := by
  apply search_eq_find wf distinct
  · intro p _ accepted
    simp only [delMatches, Bool.and_eq_true, decide_eq_true_eq] at accepted
    exact key_int_iff.mpr ⟨accepted.1.2, accepted.1.1⟩
  · intro p _ keyed
    obtain ⟨zero, hash⟩ := key_int_iff.mp keyed
    exact ⟨by simp [delMatches, zero, hash], by rw [hash]⟩

end tests

end Jonj.Hash
