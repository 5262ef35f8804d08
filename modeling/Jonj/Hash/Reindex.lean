import Jonj.Hash.World
import Jonj.Hash.Renumber

/-!
# Renumbering a table

`zend_hash_reindex` gives every bucket a new integer key but leaves `arKey` as it
was. A string lookup accepts a bucket whose key pointer is the one it was given
before it looks at `h` or `nKeyLength`, so a stale pointer can be found again, and
is found exactly when the old key hashes to the slot of the new index.
-/
namespace Jonj.Hash

open DoublyLinked List

variable {α : Type}

/-- The buckets of `l` carry the numbers from 0 on. -/
def NumberedTo (mem : Mem α) (l : List Addr) : Prop :=
  ∀ (i : Nat) q, l[i]? = some q →
    (mem.cells q).h = UInt64.ofNat i ∧ (mem.cells q).nKeyLength = 0

private theorem relabelled_all (offset : UInt64) (cs : List (Core α)) (i : Nat) :
    (relabelled false offset cs)[i]? = cs[i]?.map fun c =>
      c.numbered (offset + UInt64.ofNat i) := by
  induction cs generalizing offset i with
  | nil => rfl
  | cons c cs ih =>
    rw [relabelled, if_pos (by rfl)]
    cases i with
    | zero => simp
    | succ i =>
      have successor : offset + 1 + UInt64.ofNat i = offset + UInt64.ofNat (i + 1) := by
        rw [UInt64.ofNat_add, UInt64.add_assoc, UInt64.add_comm 1]
        rfl
      rw [getElem?_cons_succ, getElem?_cons_succ, ih, successor]

/-! ### The whole call -/

/-- A table as the operations leave it behind, with an element count that has not
wrapped. Integer buckets may carry the pointer of a key they had before. -/
structure WellFormed (mem : Mem α) (ht : HashTable) (xs : List Addr) : Prop extends
    Wf mem ht xs where
  memOk : MemOk mem
  exact : ht.nNumOfElements.toNat = xs.length

theorem zendHashReindex_spec {mem : Mem α} {ht : HashTable} {xs : List Addr}
    (wellFormed : WellFormed mem ht xs) :
    Wf (zendHashReindex mem ht false).1 (zendHashReindex mem ht false).2 xs ∧
      ((zendHashReindex mem ht false).2.nTableMask = ht.nTableMask ∧
        (zendHashReindex mem ht false).2.nNumOfElements = ht.nNumOfElements) ∧
      (zendHashReindex mem ht false).1.live = mem.live ∧
      NumberedTo (zendHashReindex mem ht false).1 xs ∧
      (∀ x, ((zendHashReindex mem ht false).1.cells x).arKey = (mem.cells x).arKey ∧
        ((zendHashReindex mem ht false).1.cells x).pData = (mem.cells x).pData) ∧
      ∀ x, x ∉ xs → (zendHashReindex mem ht false).1.cells x = mem.cells x := by
  have wf := wellFormed.toWf
  by_cases zero : ht.nNumOfElements = 0
  · have unchanged : zendHashReindex mem ht false =
      (mem, { ht with nNextFreeElement := 0 }) := if_pos zero
    have empty : xs = [] := by
      have exact := wellFormed.exact
      rw [zero] at exact
      exact eq_nil_of_length_eq_zero exact.symm
    rw [unchanged]
    refine ⟨wf.withNextFree 0, ⟨rfl, rfl⟩, rfl, ?_, fun _ => ⟨rfl, rfl⟩, fun _ _ => rfl⟩
    rw [empty]
    intro i q position
    cases position
  · have mask : ht.nTableMask = ht.nTableSize - 1 := by
      rcases wf.mask with ⟨_, empty⟩ | mask
      · have count := wf.count
        rw [empty] at count
        exact absurd count zero
      · exact mask
    obtain ⟨wf', table, live, _, relabels, outside⟩ :=
      @zendHashReindex_relabels _ false _ _ _ wf.listed mask zero _ rfl
    have coreAt : ∀ (i : Nat) q, xs[i]? = some q →
        ((zendHashReindex mem ht false).1.cells q).core =
          (mem.cells q).core.numbered (UInt64.ofNat i) := by
      intro i q position
      have entry := congrArg (fun l => l[i]?) relabels
      simp only [relabelled_all, cores, getElem?_map, position, Option.map_some,
        UInt64.zero_add] at entry
      exact Option.some.inj entry
    refine ⟨wf', ⟨by rw [table], by rw [table]⟩, live, fun i q position => ?_, fun x => ?_, outside⟩
    · have core := coreAt i q position
      exact ⟨congrArg Core.h core, congrArg Core.nKeyLength core⟩
    by_cases member : x ∈ xs
    · obtain ⟨i, position⟩ := mem_iff_getElem?.mp member
      have core := coreAt i x position
      exact ⟨congrArg Core.arKey core, congrArg Core.pData core⟩
    · rw [outside x member]
      exact ⟨rfl, rfl⟩

/-- The renumbered table is one of the same kind, with the stale pointers in it. -/
theorem zendHashReindex_wellFormed {mem : Mem α} {ht : HashTable} {xs : List Addr}
    (wellFormed : WellFormed mem ht xs) :
    WellFormed (zendHashReindex mem ht false).1 (zendHashReindex mem ht false).2 xs := by
  obtain ⟨wf, ⟨-, count⟩, live, numbered, kept, outside⟩ := zendHashReindex_spec wellFormed
  refine ⟨wf, ⟨fun p used => ?_, fun p used q used' => ?_⟩, count ▸ wellFormed.exact⟩
  · rw [live] at used
    have before := wellFormed.memOk.bucket p used
    by_cases member : p ∈ xs
    · obtain ⟨i, position⟩ := mem_iff_getElem?.mp member
      refine ⟨(kept p).1.symm ▸ before.stored, fun string => ?_⟩
      exact absurd (numbered i p position).2 string
    · rw [outside p member]
      exact before
  · rw [(kept p).1, (kept q).1]
    rw [live] at used used'
    exact wellFormed.memOk.agree p used q used'

theorem search_none_iff {mem : Mem α} {ht : HashTable} {xs : List Addr} (wf : Wf mem ht xs)
    (h : UInt64) (test : Bucket α → Bool) : search mem ht h test = none ↔
      ∀ p ∈ xs, ht.nIndex (mem.cells p).h = ht.nIndex h → test (mem.cells p) = false := by
  obtain ⟨c, mem_iff, searched⟩ := search_eq wf h test
  simp [searched, find?_eq_none, mem_iff]

/-- The table holds the integer keys from 0 on, in list order, and no string key. -/
structure Reindexed (pemalloc : Pemalloc) (mem : Mem α) (ht : HashTable) (xs : List Addr) :
    Prop where
  keys : xs.map (fun p => (mem.cells p).key) =
    (range xs.length).map fun i => .int (UInt64.ofNat i)
  forward : ∀ n, xs.length ≤ n → forwardWalk mem ht n = xs
  indexFind : ∀ h, zendHashIndexFind mem ht h = xs[h.toNat]?.map fun p => (mem.cells p).pData
  absent : ∀ key : Key, key.toCStr.Agrees mem →
    zendHashFind mem ht key.toCStr key.nKeyLength = none ∧
      zendHashQuickFind mem ht key.toCStr key.nKeyLength key.hash = none ∧
      zendHashExists mem ht key.toCStr key.nKeyLength = false ∧
      zendHashQuickExists mem ht key.toCStr key.nKeyLength key.hash = false
  update : ∀ (key : Key) (v : α), key.toCStr.Agrees mem →
    ∃ p, p ∉ xs ∧
      (zendHashAddOrUpdate pemalloc mem ht key.toCStr key.nKeyLength v .update).pDest = some p ∧
      (∀ n, xs.length + 1 ≤ n → forwardWalk
        (zendHashAddOrUpdate pemalloc mem ht key.toCStr key.nKeyLength v .update).mem
        (zendHashAddOrUpdate pemalloc mem ht key.toCStr key.nKeyLength v .update).ht n =
          xs ++ [p]) ∧
      ∀ q ∈ xs, entry (zendHashAddOrUpdate pemalloc mem ht key.toCStr key.nKeyLength v
        .update).mem q
        = entry mem q

/-- No bucket keeps the pointer of a key that hashes to the slot of its number. -/
def NoStaleSlot (mem : Mem α) (ht : HashTable) (xs : List Addr) : Prop :=
  ∀ (i : Nat) p, xs[i]? = some p → (mem.cells p).arKey.ptr ≠ .null →
    ht.nIndex (zendInlineHashFunc (mem.cells p).arKey.bytes
      (UInt32.ofNat (mem.cells p).arKey.bytes.length)) ≠ ht.nIndex (UInt64.ofNat i)

section reindexed

variable {mem : Mem α} {ht : HashTable} {xs : List Addr}

section

variable (numbered : NumberedTo mem xs)

include numbered

theorem NumberedTo.keys :
    xs.map (fun p => (mem.cells p).key) = (range xs.length).map fun i => .int (UInt64.ofNat i) := by
  apply ext_getElem?
  intro i
  rw [getElem?_map, getElem?_map]
  cases position : xs[i]? with
  | none =>
    rw [getElem?_eq_none (by simpa using position)]
    rfl
  | some p =>
    have bound : i < xs.length := (List.getElem?_eq_some_iff.mp position).1
    obtain ⟨hash, length⟩ := numbered i p position
    rw [getElem?_range bound]
    simp [key_int_iff, hash, length]

theorem NumberedTo.distinct (small : xs.length < 2 ^ 32) :
    (xs.map fun p => (mem.cells p).key).Nodup := by
  rw [numbered.keys]
  refine nodup_range.map_on fun i hi j hj same => ?_
  have equal := congrArg UInt64.toNat (HKey.int.inj same)
  simp only [mem_range, UInt64.toNat_ofNat'] at hi hj equal
  omega

theorem NumberedTo.key_iff (small : xs.length < 2 ^ 32) {i : Nat} {p : Addr}
    (position : xs[i]? = some p) (h : UInt64) : (mem.cells p).key = .int h ↔ i = h.toNat := by
  have bound : i < xs.length := (List.getElem?_eq_some_iff.mp position).1
  obtain ⟨hash, length⟩ := numbered i p position
  have index : (UInt64.ofNat i).toNat = i :=
    UInt64.toNat_ofNat_of_lt' (bound.trans (small.trans (by decide)))
  rw [key_int_iff, hash, ← UInt64.toNat_inj, index]
  simp [length]

theorem NumberedTo.indexFind (wf : Wf mem ht xs) (small : xs.length < 2 ^ 32) (h : UInt64) :
    zendHashIndexFind mem ht h = xs[h.toNat]?.map fun p => (mem.cells p).pData := by
  rw [zendHashIndexFind, search_index wf (numbered.distinct small)]
  cases hit : xs.find? fun p => decide ((mem.cells p).key = .int h) with
  | some p =>
    obtain ⟨member, keyed⟩ := find_some_iff hit
    obtain ⟨i, position⟩ := mem_iff_getElem?.mp member
    rw [← (numbered.key_iff small position h).mp keyed, position]
  | none =>
    cases position : xs[h.toNat]? with
    | none => rfl
    | some p =>
      have keyed := (numbered.key_iff small position h).mpr rfl
      have missed := find?_eq_none.mp hit p (mem_of_getElem? position)
      simp [keyed] at missed

end

/-- Only the pointer can make a string lookup accept an integer bucket. -/
theorem keyMatches_integer {b : Bucket α} (integer : b.nKeyLength = 0) (key : Key) (h : UInt64) :
    keyMatches key.toCStr key.nKeyLength h b = decide (b.arKey.ptr = key.ptr) := by
  have nonzero := key.passed.nonzero
  rw [keyMatches, integer, decide_eq_false (Ne.symm nonzero)]
  simp

/-- A string lookup fails exactly when no bucket of the slot has the caller's pointer. -/
theorem NumberedTo.search_none_iff (numbered : NumberedTo mem xs) (wf : Wf mem ht xs) (key : Key) :
    search mem ht key.hash (keyMatches key.toCStr key.nKeyLength key.hash) = none ↔
      ∀ (i : Nat) p, xs[i]? = some p → (mem.cells p).arKey.ptr = key.ptr →
        ht.nIndex (UInt64.ofNat i) ≠ ht.nIndex key.hash := by
  rw [Hash.search_none_iff wf]
  constructor
  · intro none i p position pointer slot
    obtain ⟨hash, length⟩ := numbered i p position
    have rejected := none p (mem_of_getElem? position) (by rw [hash, slot])
    rw [keyMatches_integer length, pointer] at rejected
    simp at rejected
  intro none p member slot
  obtain ⟨i, position⟩ := mem_iff_getElem?.mp member
  obtain ⟨hash, length⟩ := numbered i p position
  rw [keyMatches_integer length, decide_eq_false_iff_not]
  exact fun pointer => none i p position pointer (hash ▸ slot)

private theorem checkInit_eq (wf : Wf mem ht xs) (nonempty : xs ≠ []) : checkInit ht = ht := by
  unfold checkInit
  split
  next uninitialized => exact absurd (wf.empty_of_mask_zero uninitialized) nonempty
  · rfl

private theorem update_appends {pemalloc : Pemalloc} (fresh : pemalloc.Fresh) (wf : Wf mem ht xs)
    (key : Key) (v : α)
    (missed : search mem ht key.hash (keyMatches key.toCStr key.nKeyLength key.hash) = none) :
    ∃ p, p ∉ xs ∧
      (zendHashAddOrUpdate pemalloc mem ht key.toCStr key.nKeyLength v .update).pDest = some p ∧
      (∀ n, xs.length + 1 ≤ n → forwardWalk (zendHashAddOrUpdate pemalloc mem ht key.toCStr
        key.nKeyLength v .update).mem
        (zendHashAddOrUpdate pemalloc mem ht key.toCStr key.nKeyLength v .update).ht n = xs ++
          [p]) ∧ ∀ q ∈ xs,
        entry (zendHashAddOrUpdate pemalloc mem ht key.toCStr key.nKeyLength v .update).mem q =
          entry mem q := by
  have missed' : search mem (checkInit ht) key.hash
      (keyMatches key.toCStr key.nKeyLength key.hash) = none := by
    by_cases empty : xs = []
    · rw [Hash.search_none_iff (checkInit_wf wf).1, empty]
      simp
    · rw [checkInit_eq wf empty]
      exact missed
  rw [zendHashAddOrUpdate_eq]
  unfold zendHashQuickAddOrUpdate
  simp only [Key.hash] at missed'
  simp only [missed']
  obtain ⟨p, linked⟩ := insertBucket_linked fresh (checkInit_wf wf).1 (checkInit_mask wf)
    (fun p => { h := key.hash, nKeyLength := key.nKeyLength, pData := v, pListNext := none,
                pListLast := none, pNext := none, pLast := none,
                arKey := storedKey key.toCStr key.nKeyLength p }) (fun _ => rfl) id rfl
  have unused : p ∉ mem.live := linked.address ▸ fresh mem.clock mem.live
  refine ⟨p, fun member => unused (wf.live p member), linked.dest, ?_, ?_⟩
  · intro n enough
    exact linked.wf.ordered.forwardWalk (by simpa using enough)
  intro q member
  have apart : q ≠ pemalloc mem.clock mem.live := fun same =>
    unused (linked.address ▸ same ▸ wf.live q member)
  exact (entry_congr (linked.cores.core q)).trans
    (by rw [entry, entry, alloc_cells_of_ne apart])

end reindexed

/-- Renumbering leaves no string key behind exactly when no stale pointer hashes to
the slot of its new number. -/
theorem zendHashReindex_reindexed_iff {pemalloc : Pemalloc} (fresh : pemalloc.Fresh) {mem : Mem α}
    {ht : HashTable} {xs : List Addr} (wellFormed : WellFormed mem ht xs) :
    Reindexed pemalloc (zendHashReindex mem ht false).1 (zendHashReindex mem ht false).2 xs ↔
      NoStaleSlot mem ht xs := by
  obtain ⟨wf, ⟨mask, -⟩, live, numbered, kept, -⟩ := zendHashReindex_spec wellFormed
  have small : xs.length < 2 ^ 32 := wellFormed.exact ▸ ht.nNumOfElements.toNat_lt
  have slots : ∀ h, (zendHashReindex mem ht false).2.nIndex h = ht.nIndex h := nIndex_congr mask
  constructor
  · intro reindexed i p position notNull slot
    -- the stale key itself is the caller's key
    have inLive : p ∈ mem.live := wellFormed.live p (mem_of_getElem? position)
    obtain ⟨nonempty, fits⟩ : (mem.cells p).arKey.bytes ≠ [] ∧
        (mem.cells p).arKey.bytes.length < 2 ^ 32 := by
      rcases (wellFormed.memOk.bucket p inLive).stored with null | ⟨_, bounds⟩
      · exact absurd (congrArg CStr.ptr null) notNull
      · exact bounds
    let key : Key := ⟨(mem.cells p).arKey, nonempty, fits, notNull⟩
    have agrees : key.toCStr.Agrees (zendHashReindex mem ht false).1 := by
      intro q used same
      rw [live] at used
      rw [(kept q).1] at same ⊢
      exact wellFormed.memOk.agree q used p inLive same
    have absent := (reindexed.absent key agrees).2.2.2
    have missed := (numbered.search_none_iff wf key).mp (by
      simpa [zendHashQuickExists] using absent)
    exact missed i p position (congrArg CStr.ptr (kept p).1) (by rw [slots, slots]; exact slot.symm)
  · intro noStale
    have missed : ∀ key : Key, key.toCStr.Agrees (zendHashReindex mem ht false).1 →
        search (zendHashReindex mem ht false).1 (zendHashReindex mem ht false).2 key.hash
          (keyMatches key.toCStr key.nKeyLength key.hash) = none := by
      intro key agrees
      rw [numbered.search_none_iff wf key]
      intro i p position pointer slot
      have inLive : p ∈ (zendHashReindex mem ht false).1.live :=
        wf.live p (mem_of_getElem? position)
      have bytes := agrees p inLive pointer
      rw [(kept p).1] at pointer bytes
      rw [slots, slots] at slot
      have notStale := noStale i p position (pointer ▸ key.notNull)
      rw [bytes] at notStale
      exact notStale slot.symm
    refine ⟨numbered.keys, ?_, numbered.indexFind wf small, ?_, ?_⟩
    · exact fun n enough => wf.ordered.forwardWalk enough
    · intro key agrees
      have none := missed key agrees
      simp only [Key.hash] at none
      simp [zendHashFind, zendHashQuickFind, zendHashExists, zendHashQuickExists, Key.hash, none]
    · exact fun key v agrees => update_appends fresh wf key v (missed key agrees)

/-- The interned literal `"k"`; its hash is 0 modulo 8. -/
def literalK : Key := ⟨⟨.interned 0, [107, 0]⟩, by decide, by decide, by decide⟩

/-- `array("k" => ...)`. -/
def singleton : Inserted Unit :=
  zendHashAddOrUpdate nextAddress ⟨fun _ => blankBucket, [], 0⟩ (zendHashInit 8) literalK.toCStr
    literalK.nKeyLength () .update

private theorem singleton_rel :
    ∃ xs sp, TableRel singleton.mem singleton.ht xs sp ∧ MemOk singleton.mem ∧ xs.length = 1 := by
  have ok : MemOk (⟨fun _ => blankBucket, [], 0⟩ : Mem Unit) := ⟨by simp, by simp⟩
  obtain ⟨xs, outcome⟩ := zendHashQuickAddOrUpdate_rel nextAddress_fresh ok
    (zendHashInit_rel _ 8) literalK.passed (by simp [CStr.Agrees]) ()
      (by simp : HashFlag.update ≠ .nextInsert)
  refine ⟨xs, _, outcome.rel, outcome.ok, ?_⟩
  have size := congrArg length outcome.rel.entries
  rw [length_map] at size
  exact size.symm

theorem singleton_wellFormed : ∃ xs, WellFormed singleton.mem singleton.ht xs := by
  obtain ⟨xs, sp, rel, ok, size⟩ := singleton_rel
  exact ⟨xs, rel.wf, ok, (by decide : singleton.ht.nNumOfElements.toNat = 1).trans size.symm⟩

/-- The interned literals `"a"` and `"b"`; their hashes are 6 and 7 modulo 8. -/
def literalA : Key := ⟨⟨.interned 2, [97, 0]⟩, by decide, by decide, by decide⟩

@[inherit_doc literalA]
def literalB : Key := ⟨⟨.interned 4, [98, 0]⟩, by decide, by decide, by decide⟩

def firstOfPair : Inserted Unit :=
  zendHashAddOrUpdate nextAddress ⟨fun _ => blankBucket, [], 0⟩ (zendHashInit 8) literalA.toCStr
    literalA.nKeyLength () .update

/-- `array("a" => ..., "b" => ...)`. -/
def pair : Inserted Unit :=
  zendHashAddOrUpdate nextAddress firstOfPair.mem firstOfPair.ht literalB.toCStr
    literalB.nKeyLength () .update

theorem pair_wellFormed : WellFormed pair.mem pair.ht [1, 2] := by
  have ok : MemOk (⟨fun _ => blankBucket, [], 0⟩ : Mem Unit) := ⟨by simp, by simp⟩
  obtain ⟨xs, first⟩ := zendHashQuickAddOrUpdate_rel nextAddress_fresh ok (zendHashInit_rel _ 8)
    literalA.passed (by simp [CStr.Agrees]) () (by simp : HashFlag.update ≠ .nextInsert)
  obtain ⟨ys, second⟩ := zendHashQuickAddOrUpdate_rel nextAddress_fresh first.ok first.rel
    literalB.passed (by unfold CStr.Agrees; decide) () (by simp : HashFlag.update ≠ .nextInsert)
  have size := congrArg length second.rel.entries
  rw [length_map] at size
  have listed : ys = [1, 2] := by
    rw [← second.rel.wf.ordered.forwardWalk size.symm.le]
    decide
  rw [← listed]
  refine ⟨second.rel.wf, second.ok, ?_⟩
  rw [listed]
  decide

/-- `"a"` and `"b"` are not in the slots 0 and 1. -/
theorem pair_noStaleSlot : NoStaleSlot pair.mem pair.ht [1, 2] := by
  intro i p position
  rcases i with _ | _ | i
  · cases position
    decide
  · cases position
    decide
  · cases position

theorem zendHashReindex_reindexed_iff_pair :
    Reindexed nextAddress (zendHashReindex pair.mem pair.ht false).1
      (zendHashReindex pair.mem pair.ht false).2 [1, 2] :=
  (zendHashReindex_reindexed_iff nextAddress_fresh pair_wellFormed).mpr pair_noStaleSlot

/-- After `sort` of `array("k" => ...)` the key `"k"` is still found. -/
theorem sorted_key_found : (∃ xs, WellFormed singleton.mem singleton.ht xs) ∧
      literalK.toCStr.Agrees (zendHashReindex singleton.mem singleton.ht false).1 ∧
      zendHashFind (zendHashReindex singleton.mem singleton.ht false).1
        (zendHashReindex singleton.mem singleton.ht false).2 literalK.toCStr
          literalK.nKeyLength = some () ∧
      zendHashExists (zendHashReindex singleton.mem singleton.ht false).1
        (zendHashReindex singleton.mem singleton.ht false).2 literalK.toCStr
          literalK.nKeyLength = true := by
  refine ⟨singleton_wellFormed, ?_, by decide, by decide⟩
  unfold CStr.Agrees
  decide

end Jonj.Hash
