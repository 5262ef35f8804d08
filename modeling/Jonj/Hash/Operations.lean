import Jonj.Hash.Refinement

/-!
# The public operations on one table

Each call of the source follows its counterpart on `Spec`. The three insertion
functions end in the same steps; the two string variants are equal once the
quick one is given the hash of the key.
-/
namespace Jonj.Hash

open DoublyLinked List

variable {α : Type}

/-- What an insertion of `v` under the key `k` has done, measured against the
abstract result `out`. -/
structure Outcome (mem : Mem α) (xs : List Addr) (k : HKey) (v : α) (out : Spec α × Bool)
    (r : Inserted α) (xs' : List Addr) : Prop extends Moved mem xs r.mem r.ht xs' out.1 where
  status : r.pDest.isSome = out.2
  dest : ∀ p, r.pDest = some p → p ∈ xs' ∧ entry r.mem p = (k, v)

variable {pemalloc : Pemalloc} {k : HKey}

section outcomes

variable {mem : Mem α} {ht : HashTable} {xs : List Addr} {sp : Spec α}

theorem TableRel.checkInit (rel : TableRel mem ht xs sp) : TableRel mem (checkInit ht) xs sp :=
  rel.cores (checkInit_wf rel.wf).1 (fun _ _ => rfl) (checkInit_nNextFreeElement ht)

/-- A flag other than `HASH_UPDATE` refuses a key that is present. -/
theorem outcome_refused (ok : MemOk mem) (rel : TableRel mem ht xs sp) {v : α}
    {flag : HashFlag} (present : k ∈ sp.map.keys) (refuses : flag ≠ .update) :
    Outcome mem xs k v (sp.insert k v flag) ⟨mem, ht, none⟩ xs := by
  have out : sp.insert k v flag = (sp, false) := by
    simp [Spec.insert, Spec.storeNew, refuses, present]
  rw [out]
  exact ⟨⟨rel, ok, Frame.refl mem xs⟩, rfl, by simp⟩

/-- A key that is present gets the new data in its place. -/
theorem outcome_updated (ok : MemOk mem) (rel : TableRel mem ht xs sp) {v : α} {p : Addr}
    (member : p ∈ xs) (keyed : (mem.cells p).key = k) : Outcome mem xs k v (sp.insert k v .update)
      ⟨mem.modify p fun b => { b with pData := v }, ht, some p⟩ xs := by
  have present : k ∈ sp.map.keys := keyed ▸ rel.mem_keys member
  have out : sp.insert k v .update = ({ sp with map := sp.map.put k v }, true) := by
    cases k <;> simp [Spec.insert, Spec.store, present]
  rw [out]
  refine ⟨⟨keyed ▸ rel.setData member v, setData_memOk ok p v, setData_frame member v⟩, rfl, ?_⟩
  rintro q ⟨⟩
  refine ⟨member, ?_⟩
  simp only [entry, modify_cells, if_true]
  exact congrArg (·, v) keyed

theorem insert_absent {v : α} {flag : HashFlag} (absent : k ∉ sp.map.keys) :
    sp.insert k v flag = (sp.store k v, true) := by
  unfold Spec.insert Spec.storeNew
  simp [absent]

/-- A new key comes last, and grows the table if it is full. -/
theorem outcome_stored (fresh : pemalloc.Fresh) (ok : MemOk mem)
    (rel : TableRel mem ht xs sp) (mask : ht.nTableMask = ht.nTableSize - 1)
    (b : Addr → Bucket α) (storable : ∀ p ∉ mem.live, Storable mem p (b p)) {v : α}
    {h : UInt64} (keyed : ∀ p, (b p).key = k) (data : ∀ p, (b p).pData = v)
    (hash : ∀ p, (b p).h = h) (absent : k ∉ sp.map.keys) (nextFree : UInt64 → UInt64)
    (stored : (sp.store k v).nextFree = nextFree sp.nextFree) (flag : HashFlag) :
    ∃ xs', Outcome mem xs k v (sp.insert k v flag)
      (insertBucket pemalloc mem ht h b nextFree) xs' := by
  obtain ⟨p, dest, tableRel, memOk, frame, new⟩ :=
    insertBucket_rel fresh ok rel mask b storable keyed data hash absent nextFree rfl
  rw [← stored] at tableRel
  rw [insert_absent absent]
  refine ⟨xs ++ [p], ⟨tableRel, memOk, frame⟩, by rfl, ?_⟩
  intro q returned
  cases dest.symm.trans returned
  exact ⟨by simp, new⟩

theorem checkInit_mask (wf : Wf mem ht xs) :
    (checkInit ht).nTableMask = (checkInit ht).nTableSize - 1 := by
  rw [(checkInit_wf wf).2]
  unfold checkInit
  split <;> rfl

end outcomes

/-! ### String keys -/

variable {nKeyLength : UInt32} {mem : Mem α} {arKey : CStr}

/-- The key is stored by its address if it is interned, and copied if not. -/
theorem storedKey_storable (passed : Passed arKey nKeyLength) (agrees : arKey.Agrees mem)
    (ok : MemOk mem) (v : α) (p : Addr) (unused : p ∉ mem.live) : Storable mem p
      { h := zendInlineHashFunc arKey.bytes nKeyLength, nKeyLength := nKeyLength, pData := v,
        pListNext := none, pListLast := none, pNext := none, pLast := none,
        arKey := storedKey arKey nKeyLength p } := by
  have nonempty : arKey.bytes ≠ [] := by
    intro empty
    have length := passed.length
    rw [empty] at length
    exact passed.nonzero (UInt32.toNat_inj.mp (by simpa using length))
  have fits : arKey.bytes.length < 2 ^ 32 := passed.length ▸ nKeyLength.toNat_lt
  unfold storedKey
  split
  next interned =>
    have pointer : ∃ n, arKey.ptr = .interned n := by
      cases kind : arKey.ptr <;> simp_all [isInterned]
    refine ⟨⟨.inr ⟨.inl pointer, nonempty, fits⟩, fun _ => ?_⟩, ?_, agrees⟩
    · exact ⟨passed.notNull, passed.length, rfl⟩
    · exact fun zero => absurd zero passed.nonzero
  rw [passed.length, take_length]
  refine ⟨⟨.inr ⟨.inr rfl, nonempty, fits⟩, fun _ => ?_⟩, ?_, ?_⟩
  · exact ⟨by simp, passed.length, rfl⟩
  · exact fun zero => absurd zero passed.nonzero
  -- nothing allocated points behind a bucket that is not allocated
  intro q live same
  exfalso
  rcases (ok.bucket q live).stored with null | ⟨⟨n, interned⟩ | own, _⟩
  · rw [null] at same
    cases same
  · rw [interned] at same
    cases same
  · rw [own] at same
    cases same
    exact unused live

variable {ht : HashTable} {sp : Spec α} {xs : List Addr}

/-- The insertion under a string key refines the abstract one. -/
theorem zendHashQuickAddOrUpdate_rel (fresh : pemalloc.Fresh) (ok : MemOk mem)
    (rel : TableRel mem ht xs sp) (passed : Passed arKey nKeyLength) (agrees : arKey.Agrees mem)
    (v : α) {flag : HashFlag} (string : flag ≠ .nextInsert) :
    ∃ xs', Outcome mem xs (.str arKey.bytes) v (sp.insert (.str arKey.bytes) v flag)
      (zendHashQuickAddOrUpdate pemalloc mem ht arKey nKeyLength
        (zendInlineHashFunc arKey.bytes nKeyLength) v flag) xs' := by
  have rel' := rel.checkInit
  unfold zendHashQuickAddOrUpdate
  simp only
  rw [search_key rel'.wf ok rel'.plain rel'.distinct passed agrees]
  cases hit : xs.find? fun p => decide ((mem.cells p).key = .str arKey.bytes) with
  | some p =>
    obtain ⟨member, keyed⟩ := find_some_iff hit
    have present := keyed ▸ rel'.mem_keys member
    cases flag with
    | add => exact ⟨xs, outcome_refused ok rel' present (by simp)⟩
    | update => exact ⟨xs, outcome_updated ok rel' member keyed⟩
    | nextInsert => exact absurd rfl string
  | none =>
    refine outcome_stored fresh ok rel' (checkInit_mask rel.wf)
      _ (storedKey_storable passed agrees ok v)
      (fun p => passed.key_eq rfl ?_) (fun _ => rfl) (fun _ => rfl)
        (rel'.not_mem_keys hit) id rfl flag
    unfold storedKey
    split <;> simp

private theorem connectToGlobalDllist_setBucket (mem : Mem α) (ht : HashTable) (p : Addr) (i : Nat)
    (q : Option Addr) :
    connectToGlobalDllist mem (ht.setBucket i q) p =
      ((connectToGlobalDllist mem ht p).1, (connectToGlobalDllist mem ht p).2.setBucket i q) := by
  refine Prod.ext rfl ?_
  simp only [connectGlobal_ht]
  rfl

/-- The two functions differ in who computes the hash. -/
theorem zendHashAddOrUpdate_eq (pemalloc : Pemalloc) (mem : Mem α) (ht : HashTable) (arKey : CStr)
    (nKeyLength : UInt32) (v : α) (flag : HashFlag) :
    zendHashAddOrUpdate pemalloc mem ht arKey nKeyLength v flag =
      zendHashQuickAddOrUpdate pemalloc mem ht arKey nKeyLength
        (zendInlineHashFunc arKey.bytes nKeyLength) v flag := by
  unfold zendHashAddOrUpdate zendHashQuickAddOrUpdate
  simp only [connectToGlobalDllist_setBucket]

/-! ### Integer keys -/

/-- The insertion under an integer key or under the next free one. -/
theorem zendHashIndexUpdateOrNextInsert_rel (fresh : pemalloc.Fresh) (ok : MemOk mem)
    (rel : TableRel mem ht xs sp) (h : UInt64) (v : α) (flag : HashFlag) {k : UInt64}
    (index : k = if flag = .nextInsert then sp.nextFree else h) :
    ∃ xs', Outcome mem xs (.int k) v (sp.insert (.int k) v flag)
      (zendHashIndexUpdateOrNextInsert pemalloc mem ht h v flag) xs' := by
  have rel' := rel.checkInit
  unfold zendHashIndexUpdateOrNextInsert
  simp only [rel'.next, ← index]
  rw [search_index rel'.wf rel'.distinct]
  cases hit : xs.find? fun p => decide ((mem.cells p).key = .int k) with
  | some p =>
    obtain ⟨member, keyed⟩ := find_some_iff hit
    have present := keyed ▸ rel'.mem_keys member
    cases flag with
    | add => exact ⟨xs, outcome_refused ok rel' present (by simp)⟩
    | update => exact ⟨xs, outcome_updated ok rel' member keyed⟩
    | nextInsert => exact ⟨xs, outcome_refused ok rel' present (by simp)⟩
  | none =>
    have absent := rel'.not_mem_keys hit
    have stored : (sp.store (.int k) v).nextFree = nextFreeAfter sp.nextFree k := by
      simp [Spec.store, absent]
    have storable : ∀ p ∉ mem.live, Storable mem p
        { h := k, nKeyLength := 0, pData := v, pListNext := none, pListLast := none,
          pNext := none, pLast := none, arKey := .null } := by
      refine fun p _ => ⟨⟨.inl rfl, fun string => absurd rfl string⟩, fun _ => rfl, ?_⟩
      intro q live null
      rcases (ok.bucket q live).stored with empty | ⟨⟨n, interned⟩ | own, _⟩
      · rw [empty]
      · cases interned.symm.trans null
      · cases own.symm.trans null
    exact outcome_stored fresh ok rel' (checkInit_mask rel.wf) _ storable
      (fun _ => key_int_iff.mpr ⟨rfl, rfl⟩) (fun _ => rfl) (fun _ => rfl) absent
      (nextFreeAfter · k) stored flag

/-! ### Deletion -/

private theorem erase_entries {l r : List Addr} {p : Addr}
    (rel : TableRel mem ht (l ++ p :: r) sp) :
    (sp.map.erase (mem.cells p).key).entries = (l ++ r).map (entry mem) := by
  have distinct := rel.distinct
  rw [map_append, map_cons, nodup_middle, nodup_cons] at distinct
  -- the keys are distinct, so the filter drops the bucket and nothing else
  have others : ∀ q ∈ l ++ r, decide ((entry mem q).1 ≠ (mem.cells p).key) = true := by
    intro q member
    apply decide_eq_true
    intro same
    apply distinct.1
    rw [← map_append]
    exact same ▸ mem_map_of_mem (f := fun p => (mem.cells p).key) member
  have left := filter_eq_self.mpr fun q member => others q (mem_append_left r member)
  have right := filter_eq_self.mpr fun q member => others q (mem_append_right l member)
  simp only [OrderedMap.erase, rel.entries, filter_map, map_append, filter_append]
  rw [filter_cons_of_neg (by simp [entry])]
  exact congrArg₂ (fun a b => a.map (entry mem) ++ b.map (entry mem)) left right

/-- A bucket that is taken out of list and chain. -/
theorem zendHashBucketDelete_rel {l r : List Addr} (ok : MemOk mem) {p : Addr}
    (rel : TableRel mem ht (l ++ p :: r) sp) :
    Moved mem (l ++ p :: r) (zendHashBucketDelete mem ht p).1
      (zendHashBucketDelete mem ht p).2 (l ++ r)
      { sp with map := sp.map.erase (mem.cells p).key } := by
  obtain ⟨wf, cores, live, next, outside⟩ := zendHashBucketDelete_wf rel.wf
  have kept : ∀ q ∈ l ++ r, q ∈ l ++ p :: r := by
    intro q member
    simp only [mem_append, mem_cons] at member ⊢
    tauto
  refine ⟨⟨wf, ?_, ?_, next.trans rel.next⟩, ?_, ?_, ?_, ?_⟩
  · exact Plain.congr (fun q member => rel.plain q (kept q member)) fun q _ => cores q
  · rw [erase_entries rel]
    exact map_congr_left fun q _ => (entry_congr (cores q)).symm
  · refine ok.cores ?_ cores
    rw [live]
    exact fun q => mem_of_mem_erase
  · exact fun x _ absent => outside x absent
  · intro x used absent
    have other : x ≠ p := fun same => absent (by simp [same])
    rw [live]
    exact (mem_erase_of_ne other).mpr used
  · exact fun x member => .inl (kept x member)

/-- `zend_hash_del_key_or_index`, once the bucket is found. -/
theorem delete_rel (ok : MemOk mem) (rel : TableRel mem ht xs sp) {h : UInt64} {flag : DelFlag}
    (found : search mem ht (if flag = .key then zendInlineHashFunc arKey.bytes nKeyLength else h)
        (delMatches arKey nKeyLength (if flag = .key then
          zendInlineHashFunc arKey.bytes nKeyLength else h)) =
      xs.find? fun p => decide ((mem.cells p).key = k)) :
    ∃ xs', Moved mem xs (zendHashDelKeyOrIndex mem ht arKey nKeyLength h flag).1
        (zendHashDelKeyOrIndex mem ht arKey nKeyLength h flag).2.1 xs' (sp.delete k).1 ∧
      (zendHashDelKeyOrIndex mem ht arKey nKeyLength h flag).2.2 = (sp.delete k).2 := by
  unfold zendHashDelKeyOrIndex
  simp only [found]
  cases hit : xs.find? fun p => decide ((mem.cells p).key = k) with
  | some p =>
    obtain ⟨member, keyed⟩ := find_some_iff hit
    have present : k ∈ sp.map.keys := keyed ▸ rel.mem_keys member
    obtain ⟨l, r, rfl⟩ := append_of_mem member
    have moved := zendHashBucketDelete_rel ok rel
    rw [keyed] at moved
    simp only [Spec.delete, if_pos present]
    exact ⟨l ++ r, moved, trivial⟩
  | none =>
    have absent := rel.not_mem_keys hit
    simp only [Spec.delete, if_neg absent]
    exact ⟨xs, ⟨rel, ok, Frame.refl mem xs⟩, trivial⟩

/-- `zend_hash_clean` leaves an empty table. -/
theorem zendHashClean_rel (ok : MemOk mem) (rel : TableRel mem ht xs sp) :
    Moved mem xs (zendHashClean mem ht).1 (zendHashClean mem ht).2 [] Spec.init := by
  obtain ⟨wf, cells, live, next⟩ := zendHashClean_wf rel.wf
  rw [← diff_eq_foldl] at live
  refine ⟨⟨wf, by simp [Plain], rfl, next⟩, ?_, ?_, ?_, by simp⟩
  · refine ok.cores ?_ fun p => by rw [cells]
    rw [live]
    exact diff_subset mem.live xs
  · exact fun x _ _ => by rw [cells]
  · intro x used absent
    rw [live]
    exact mem_diff_of_mem used absent

end Jonj.Hash
