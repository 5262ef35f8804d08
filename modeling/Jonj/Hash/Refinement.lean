import Jonj.Hash.Lookup

/-!
# One table as an ordered map

`Spec` is what a table is for: a finite map in order of first insertion, with the
counter that `zend_hash_next_index_insert` draws from. `TableRel` relates it to a
table in memory, and each operation of the source is shown to follow its
counterpart on `Spec`. Since other tables live in the same memory, every result
carries a `Frame`.
-/
namespace Jonj.Hash

open DoublyLinked List

variable {α : Type}

/-! ### The abstract table -/

structure Spec (α : Type) where
  map : OrderedMap HKey α
  nextFree : UInt64

def Spec.init : Spec α := ⟨OrderedMap.empty, 0⟩

/-- Store under a key. A new integer key moves the free counter. -/
def Spec.store (sp : Spec α) (k : HKey) (v : α) : Spec α where
  map := sp.map.put k v
  nextFree := match k with
    | .int h => if k ∈ sp.map.keys then sp.nextFree else nextFreeAfter sp.nextFree h
    | .str _ => sp.nextFree

/-- Store only a key that is absent; the flag tells whether it was. -/
def Spec.storeNew (sp : Spec α) (k : HKey) (v : α) : Spec α × Bool :=
  if k ∈ sp.map.keys then (sp, false) else (sp.store k v, true)

def Spec.insert (sp : Spec α) (k : HKey) (v : α) (flag : HashFlag) : Spec α × Bool :=
  if flag = .update then (sp.store k v, true) else sp.storeNew k v

def Spec.delete (sp : Spec α) (k : HKey) : Spec α × Bool :=
  if k ∈ sp.map.keys then ({ sp with map := sp.map.erase k }, true) else (sp, false)

/-- Store the entries of another table one after the other. -/
def Spec.copyFrom (sp : Spec α) (ctor : α → α) (source : List (HKey × α)) : Spec α :=
  source.foldl (fun sp e => sp.store e.1 (ctor e.2)) sp

/-- Store the entries of another table; without `overwrite` only the absent keys. -/
def Spec.mergeFrom (sp : Spec α) (ctor : α → α) (overwrite : Bool) (source : List (HKey × α)) :
    Spec α :=
  source.foldl (fun sp e =>
    if overwrite then sp.store e.1 (ctor e.2) else (sp.storeNew e.1 (ctor e.2)).1) sp

/-! ### The relation -/

def entry (mem : Mem α) (p : Addr) : HKey × α := ((mem.cells p).key, (mem.cells p).pData)

structure TableRel (mem : Mem α) (ht : HashTable) (xs : List Addr) (sp : Spec α) : Prop where
  wf : Wf mem ht xs
  plain : Plain mem xs
  entries : sp.map.entries = xs.map (entry mem)
  next : ht.nNextFreeElement = sp.nextFree

/-- From one table's view of a step: the cells of all other allocated buckets stay,
and the table only gains buckets that were not allocated. -/
structure Frame (mem mem' : Mem α) (xs xs' : List Addr) : Prop where
  cells : ∀ x ∈ mem.live, x ∉ xs → mem'.cells x = mem.cells x
  live : ∀ x ∈ mem.live, x ∉ xs → x ∈ mem'.live
  gained : ∀ x ∈ xs', x ∈ xs ∨ x ∉ mem.live

theorem Frame.refl (mem : Mem α) (xs : List Addr) : Frame mem mem xs xs :=
  ⟨fun _ _ _ => rfl, fun _ live _ => live, fun _ member => .inl member⟩

theorem Frame.trans {a b c : Mem α} {xs ys zs : List Addr} (first : Frame a b xs ys)
    (second : Frame b c ys zs) : Frame a c xs zs := by
  have outside : ∀ x ∈ a.live, x ∉ xs → x ∉ ys := by
    intro x live absent gained
    rcases first.gained x gained with old | new
    · exact absent old
    · exact new live
  refine ⟨?_, ?_, ?_⟩
  · intro x live absent
    exact (second.cells x (first.live x live absent) (outside x live absent)).trans
      (first.cells x live absent)
  · intro x live absent
    exact second.live x (first.live x live absent) (outside x live absent)
  intro x gained
  rcases second.gained x gained with old | new
  · exact first.gained x old
  by_cases live : x ∈ a.live
  · by_cases member : x ∈ xs
    · exact .inl member
    · exact absurd (first.live x live member) new
  · exact .inr live

variable {mem' mem : Mem α}

/-- Buckets that are in use and not in the table do not get into it. -/
theorem Frame.disjoint {xs xs' ys : List Addr} (frame : Frame mem mem' xs xs')
    (live : ∀ y ∈ ys, y ∈ mem.live) (disjoint : ∀ y ∈ ys, y ∉ xs) : ∀ y ∈ ys, y ∉ xs' := by
  intro y member gained
  rcases frame.gained y gained with old | new
  · exact disjoint y member old
  · exact new (live y member)

/-- A step of one table that ends in the abstract table `sp`. -/
structure Moved (mem : Mem α) (xs : List Addr) (mem' : Mem α) (ht : HashTable) (xs' : List Addr)
    (sp : Spec α) : Prop where
  rel : TableRel mem' ht xs' sp
  ok : MemOk mem'
  frame : Frame mem mem' xs xs'

private theorem key_congr {b c : Bucket α} (same : b.core = c.core) : b.key = c.key := by
  have length := congrArg Core.nKeyLength same
  have hash := congrArg Core.h same
  have arKey := congrArg Core.arKey same
  simp only [Bucket.core] at length hash arKey
  simp only [Bucket.key, length, hash, arKey]

variable {p : Addr}

theorem Plain.congr {xs : List Addr} (plain : Plain mem xs)
    (same : ∀ p ∈ xs, (mem'.cells p).core = (mem.cells p).core) :
    Plain mem' xs := by
  intro p member zero
  have arKey := congrArg Core.arKey (same p member)
  have length := congrArg Core.nKeyLength (same p member)
  simp only [Bucket.core] at arKey length
  exact arKey.trans (plain p member (length ▸ zero))

theorem entry_congr (same : (mem'.cells p).core = (mem.cells p).core) :
    entry mem' p = entry mem p :=
  Prod.ext (key_congr same) (congrArg Core.pData same)

theorem BucketOk.congr {b c : Bucket α} (ok : BucketOk p b) (hash : c.h = b.h)
    (length : c.nKeyLength = b.nKeyLength) (arKey : c.arKey = b.arKey) : BucketOk p c := by
  refine ⟨arKey ▸ ok.stored, ?_⟩
  rw [hash, length, arKey]
  exact ok.string

theorem MemOk.congr (ok : MemOk mem) (live : ∀ p ∈ mem'.live, p ∈ mem.live)
    (hash : ∀ p, (mem'.cells p).h = (mem.cells p).h)
    (length : ∀ p, (mem'.cells p).nKeyLength = (mem.cells p).nKeyLength)
    (arKey : ∀ p, (mem'.cells p).arKey = (mem.cells p).arKey) : MemOk mem' where
  bucket p member := (ok.bucket p (live p member)).congr (hash p) (length p) (arKey p)
  agree p hp q hq := by
    rw [arKey p, arKey q]
    exact ok.agree p (live p hp) q (live q hq)

theorem MemOk.cores (ok : MemOk mem) (live : ∀ p ∈ mem'.live, p ∈ mem.live)
    (same : ∀ p, (mem'.cells p).core = (mem.cells p).core) : MemOk mem' :=
  ok.congr live (fun p => congrArg Core.h (same p)) (fun p => congrArg Core.nKeyLength (same p))
    (fun p => congrArg Core.arKey (same p))

section relation

variable {mem mem' : Mem α} {ht ht' : HashTable} {xs : List Addr} {sp : Spec α}

theorem TableRel.keys (rel : TableRel mem ht xs sp) :
    sp.map.keys = xs.map fun p => (mem.cells p).key := by
  rw [OrderedMap.keys, rel.entries, map_map]
  rfl

theorem TableRel.distinct (rel : TableRel mem ht xs sp) :
    (xs.map fun p => (mem.cells p).key).Nodup :=
  rel.keys ▸ sp.map.nodup

/-- Links and counters may change under the relation as long as key and data stay. -/
theorem TableRel.cores (rel : TableRel mem ht xs sp) (wf : Wf mem' ht' xs)
    (same : ∀ p ∈ xs, (mem'.cells p).core = (mem.cells p).core)
    (next : ht'.nNextFreeElement = ht.nNextFreeElement) : TableRel mem' ht' xs sp where
  wf := wf
  plain := rel.plain.congr same
  entries := by
    rw [rel.entries]
    exact map_congr_left fun p member => (entry_congr (same p member)).symm
  next := next.trans rel.next

/-- A table is not affected by what a step does to other tables. -/
theorem TableRel.frame {ys ys' : List Addr} (rel : TableRel mem ht xs sp)
    (frame : Frame mem mem' ys ys') (disjoint : ∀ p ∈ xs, p ∉ ys) : TableRel mem' ht xs sp := by
  have kept : ∀ p ∈ xs, mem'.cells p = mem.cells p := fun p member =>
    frame.cells p (rel.wf.live p member) (disjoint p member)
  refine rel.cores ?_ (fun p member => by rw [kept p member]) rfl
  apply rel.wf.frame
  · exact fun p member => frame.live p (rel.wf.live p member) (disjoint p member)
  all_goals exact fun p member => by rw [kept p member]

theorem find_some_iff {k : HKey}
    (hit : (xs.find? fun p => decide ((mem.cells p).key = k)) = some p) :
    p ∈ xs ∧ (mem.cells p).key = k :=
  ⟨mem_of_find?_eq_some hit, by simpa using find?_some hit⟩

/-- A lookup in the map is a search of the list. -/
theorem TableRel.lookup_eq (rel : TableRel mem ht xs sp) (k : HKey) : sp.map.lookup k =
      (xs.find? fun p => decide ((mem.cells p).key = k)).map fun p => (mem.cells p).pData := by
  rw [OrderedMap.lookup, rel.entries, find?_map, Option.map_map]
  rfl

theorem TableRel.mem_keys (rel : TableRel mem ht xs sp) (member : p ∈ xs) :
    (mem.cells p).key ∈ sp.map.keys := by
  rw [rel.keys]
  exact mem_map_of_mem (f := fun p => (mem.cells p).key) member

theorem TableRel.not_mem_keys (rel : TableRel mem ht xs sp) {k : HKey}
    (miss : (xs.find? fun p => decide ((mem.cells p).key = k)) = none) : k ∉ sp.map.keys := by
  rw [rel.keys]
  intro present
  obtain ⟨p, member, keyed⟩ := mem_map.mp present
  exact find?_eq_none.mp miss p member (by simpa using keyed)

/-! ### Storing into a bucket that exists -/

/-- Data may be written in place. -/
theorem TableRel.setData (rel : TableRel mem ht xs sp) (member : p ∈ xs) (v : α) :
    TableRel (mem.modify p fun b => { b with pData := v }) ht xs
      { sp with map := sp.map.put (mem.cells p).key v } := by
  refine ⟨?_, ?_, ?_, rel.next⟩
  · apply rel.wf.frame
    · exact rel.wf.live
    · exact fun q _ => modify_field Bucket.h mem p q _ fun _ => rfl
    · exact fun q _ => modify_field Bucket.pListNext mem p q _ fun _ => rfl
    · exact fun q _ => modify_field Bucket.pListLast mem p q _ fun _ => rfl
    · exact fun q _ => modify_field Bucket.pNext mem p q _ fun _ => rfl
    · exact fun q _ => modify_field Bucket.pLast mem p q _ fun _ => rfl
  · intro q inside zero
    rw [modify_field Bucket.nKeyLength _ _ _ _ (by exact fun _ => rfl)] at zero
    rw [modify_field Bucket.arKey _ _ _ _ (by exact fun _ => rfl)]
    exact rel.plain q inside zero
  · rw [OrderedMap.put_present (rel.mem_keys member), OrderedMap.replaceEntries, rel.entries,
      map_map]
    refine map_congr_left fun q inside => ?_
    have unique : (mem.cells q).key = (mem.cells p).key → q = p :=
      inj_on_of_nodup_map rel.distinct inside member
    by_cases same : (mem.cells q).key = (mem.cells p).key
    · obtain rfl := unique same
      simp only [Function.comp_apply, entry, if_true, modify_cells]
      rfl
    · have other : q ≠ p := fun equal => same (by rw [equal])
      simp [entry, same, modify_cells, other]

theorem setData_memOk (ok : MemOk mem) (p : Addr) (v : α) :
    MemOk (mem.modify p fun b => { b with pData := v }) :=
  ok.congr (fun _ member => member) (fun q => modify_field Bucket.h mem p q _ fun _ => rfl)
    (fun q => modify_field Bucket.nKeyLength mem p q _ fun _ => rfl)
    (fun q => modify_field Bucket.arKey mem p q _ fun _ => rfl)

theorem setData_frame (member : p ∈ xs) (v : α) :
    Frame mem (mem.modify p fun b => { b with pData := v }) xs xs := by
  refine ⟨?_, fun _ live _ => live, fun _ inside => .inl inside⟩
  intro x _ absent
  have other : x ≠ p := fun same => absent (same ▸ member)
  rw [modify_cells, if_neg other]

end relation

/-! ### Inserting a new bucket -/

variable {pemalloc : Pemalloc}

section insertNew

variable {mem : Mem α} {ht : HashTable} {xs : List Addr} {sp : Spec α}

/-- A bucket that may be allocated at `p`: its key is in order and agrees with
every key pointer in use. -/
structure Storable (mem : Mem α) (p : Addr) (b : Bucket α) : Prop where
  ok : BucketOk p b
  plain : b.nKeyLength = 0 → b.arKey = .null
  agrees : ∀ q ∈ mem.live, (mem.cells q).arKey.ptr = b.arKey.ptr →
    (mem.cells q).arKey.bytes = b.arKey.bytes

theorem alloc_cells_of_ne {b : Addr → Bucket α} {x : Addr}
    (other : x ≠ pemalloc mem.clock mem.live) :
    (mem.alloc pemalloc b).1.cells x = mem.cells x := by
  simp [Mem.alloc, Function.update_of_ne other]

/-- An allocated bucket does not break the keys of others. -/
theorem alloc_memOk (ok : MemOk mem) (b : Addr → Bucket α)
    (fresh : pemalloc mem.clock mem.live ∉ mem.live)
    (storable : Storable mem (pemalloc mem.clock mem.live) (b (pemalloc mem.clock mem.live))) :
    MemOk (mem.alloc pemalloc b).1 := by
  set p := pemalloc mem.clock mem.live with hp
  have new : (mem.alloc pemalloc b).1.cells p = b p := by simp [Mem.alloc, ← hp]
  have old : ∀ q ∈ mem.live, (mem.alloc pemalloc b).1.cells q = mem.cells q := fun q member =>
    alloc_cells_of_ne fun same => fresh (by rw [← hp] at same; exact same ▸ member)
  constructor
  · intro q member
    rcases mem_cons.mp member with rfl | inside
    · rw [new]
      exact storable.ok
    · rw [old q inside]
      exact ok.bucket q inside
  intro q hq r hr
  rcases mem_cons.mp hq with rfl | insideQ <;> rcases mem_cons.mp hr with rfl | insideR
  · exact fun _ => rfl
  · rw [new, old r insideR]
    exact fun same => (storable.agrees r insideR same.symm).symm
  · rw [new, old q insideQ]
    exact fun same => storable.agrees q insideQ same
  · rw [old q insideQ, old r insideR]
    exact ok.agree q insideQ r insideR

/-- The common tail of the insertions: allocate, link, count, and grow if full.
`nextFree` is what happens to the free counter in between. -/
def insertBucket (pemalloc : Pemalloc) (mem : Mem α) (ht : HashTable) (h : UInt64)
    (b : Addr → Bucket α) (nextFree : UInt64 → UInt64) : Inserted α :=
  let (mem, p) := mem.alloc pemalloc b
  let mem := connectToBucketDllist mem p (ht.arBuckets (ht.nIndex h))
  let ht := ht.setBucket (ht.nIndex h) (some p)
  let (mem, ht) := connectToGlobalDllist mem ht p
  let ht := { ht with nNextFreeElement := nextFree ht.nNextFreeElement }
  let ht := { ht with nNumOfElements := ht.nNumOfElements + 1 }
  let (mem, ht) := zendHashIfFullDoResize mem ht
  ⟨mem, ht, some p⟩

structure Linked (pemalloc : Pemalloc) (mem : Mem α) (ht : HashTable) (xs : List Addr)
    (b : Addr → Bucket α) (nextFree : UInt64 → UInt64) (r : Inserted α) (p : Addr) : Prop where
  address : p = pemalloc mem.clock mem.live
  dest : r.pDest = some p
  wf : Wf r.mem r.ht (xs ++ [p])
  cores : SameCores (mem.alloc pemalloc b).1 r.mem
  outside : ∀ x, x ∉ xs → x ≠ p → r.mem.cells x = mem.cells x
  next : r.ht.nNextFreeElement = nextFree ht.nNextFreeElement

theorem insertBucket_linked (fresh : pemalloc.Fresh) (wf : Wf mem ht xs)
    (mask : ht.nTableMask = ht.nTableSize - 1) (b : Addr → Bucket α) {h : UInt64}
    (hash : ∀ p, (b p).h = h) (nextFree : UInt64 → UInt64) {r : Inserted α}
    (returned : r = insertBucket pemalloc mem ht h b nextFree) :
    ∃ p, Linked pemalloc mem ht xs b nextFree r p := by
  obtain ⟨p, address⟩ : ∃ p, p = pemalloc mem.clock mem.live := ⟨_, rfl⟩
  have unused : p ∉ mem.live := address ▸ fresh mem.clock mem.live
  have outside : p ∉ xs := fun member => unused (wf.live p member)
  have apart : ∀ q ∈ xs, q ≠ p := fun q member same => outside (same ▸ member)
  set allocated := (mem.alloc pemalloc b).1 with hallocated
  have liveEq : allocated.live = p :: mem.live := by rw [address]; rfl
  have new : allocated.cells p = b p := by rw [address]; simp [hallocated, Mem.alloc]
  have old : ∀ q, q ≠ p → allocated.cells q = mem.cells q := fun q other =>
    alloc_cells_of_ne (address ▸ other)
  have allocatedWf : Wf allocated ht xs := by
    apply wf.frame
    · intro q member
      exact mem_cons_of_mem _ (wf.live q member)
    all_goals exact fun q member => by rw [old q (apart q member)]
  set linked := connectToGlobalDllist
    (connectToBucketDllist allocated p (ht.arBuckets (ht.nIndex h)))
    (ht.setBucket (ht.nIndex h) (some p)) p with link
  set resized := zendHashIfFullDoResize linked.1
    { linked.2 with nNextFreeElement := nextFree linked.2.nNextFreeElement,
                    nNumOfElements := linked.2.nNumOfElements + 1 } with resize
  have kept : linked.2.nNextFreeElement = ht.nNextFreeElement := by
    rw [connectGlobal_ht]
    rfl
  obtain ⟨linkedWf, linkedCores, linkedOutside⟩ := link_wf allocatedWf mask outside
    (by rw [liveEq]; exact mem_cons_self) (by rw [new, hash p]) link
  obtain ⟨resizedWf, resizedCores, resizedNext, resizedOutside⟩ :=
    zendHashIfFullDoResize_wf (linkedWf.withNextFree (nextFree linked.2.nNextFreeElement))
  have shape : r = ⟨resized.1, resized.2, some p⟩ := by
    rw [returned, resize, link, address]
    rfl
  rw [shape]
  refine ⟨p, address, rfl, resizedWf, linkedCores.trans resizedCores, ?_,
    resizedNext.trans (congrArg nextFree kept)⟩
  intro x notIn other
  exact (resizedOutside x (by simp [notIn, other])).trans
    ((linkedOutside x notIn other).trans (old x other))

/-- The insertion of a key that is absent. -/
theorem insertBucket_rel (fresh : pemalloc.Fresh) (ok : MemOk mem) (rel : TableRel mem ht xs sp)
    (mask : ht.nTableMask = ht.nTableSize - 1) (b : Addr → Bucket α)
    (storable : ∀ p ∉ mem.live, Storable mem p (b p)) {k : HKey} {v : α} {h : UInt64}
    (keyed : ∀ p, (b p).key = k) (data : ∀ p, (b p).pData = v) (hash : ∀ p, (b p).h = h)
    (absent : k ∉ sp.map.keys) (nextFree : UInt64 → UInt64) {r : Inserted α}
    (returned : r = insertBucket pemalloc mem ht h b nextFree) : ∃ p, r.pDest = some p ∧
      TableRel r.mem r.ht (xs ++ [p]) ⟨sp.map.put k v, nextFree sp.nextFree⟩ ∧ MemOk r.mem ∧
      Frame mem r.mem xs (xs ++ [p]) ∧ entry r.mem p = (k, v) := by
  obtain ⟨p, linked⟩ := insertBucket_linked fresh rel.wf mask b hash nextFree returned
  have address := linked.address
  have cores := linked.cores
  have unused : p ∉ mem.live := address ▸ fresh mem.clock mem.live
  have apart : ∀ q ∈ xs, q ≠ p := fun q member same =>
    unused (same ▸ rel.wf.live q member)
  have new : (mem.alloc pemalloc b).1.cells p = b p := by rw [address]; simp [Mem.alloc]
  have old : ∀ q, q ≠ p → (mem.alloc pemalloc b).1.cells q = mem.cells q := fun q other =>
    alloc_cells_of_ne (address ▸ other)
  have memOk : MemOk (mem.alloc pemalloc b).1 :=
    alloc_memOk ok b (address ▸ unused) (storable _ (address ▸ unused))
  have entryNew : entry r.mem p = (k, v) := by
    rw [entry_congr (cores.core p), entry, new, keyed p, data p]
  refine ⟨p, linked.dest, ⟨linked.wf, ?_, ?_, linked.next.trans (congrArg nextFree rel.next)⟩, ?_,
    ?_, entryNew⟩
  · refine Plain.congr (fun q member zero => ?_) fun q _ => cores.core q
    rcases mem_append.mp member with inside | single
    · rw [old q (apart q inside)] at zero ⊢
      exact rel.plain q inside zero
    · rw [mem_singleton.mp single, new] at zero ⊢
      exact (storable p unused).plain zero
  · rw [OrderedMap.put_absent absent, rel.entries, map_append]
    congr 1
    · refine map_congr_left fun q member => ?_
      rw [entry_congr (cores.core q), entry, entry, old q (apart q member)]
    · rw [map_singleton, entryNew]
  · refine memOk.cores ?_ cores.core
    rw [cores.live]
    exact fun _ member => member
  · refine ⟨?_, ?_, ?_⟩
    · exact fun x live notIn => linked.outside x notIn fun same => unused (same ▸ live)
    · intro x live _
      rw [cores.live]
      exact mem_cons_of_mem _ live
    · intro x member
      rcases mem_append.mp member with inside | single
      · exact .inl inside
      · rw [mem_singleton.mp single]
        exact .inr unused

end insertNew

end Jonj.Hash
