import Mathlib.Tactic

/-!
# The hash table of `zend_hash.c`

Buckets live in a memory indexed by address. A table keeps the heads of its slot
chains, both ends of the insertion-order list and the cursor. Every function
below is the C function with the pointer writes in the order of the source; loops
over a chain or over the list are bounded by the number of allocated buckets.

Data is stored by value: where `pData` is kept (`pDataPtr` or a separate block)
cannot be observed. Destructors act outside the table and are left out, and so
are the fields that only they and the apply functions read.
-/
namespace Jonj.Hash

abbrev Addr := Nat

/-- A `const char *` that is used as a key. -/
inductive KeyPtr where
  | null
  /-- An address between `interned_strings_start` and `interned_strings_end`. -/
  | interned (offset : Nat)
  /-- `(const char*)(p + 1)`: the copy that a bucket keeps behind itself. -/
  | bucket (p : Addr)
  /-- Any other memory. -/
  | other (n : Nat)
  deriving DecidableEq, Repr

/-- A key pointer together with the bytes it points at. -/
structure CStr where
  ptr : KeyPtr
  bytes : List UInt8
  deriving DecidableEq, Repr

def CStr.null : CStr := ⟨.null, []⟩

/-- The key argument of a string call. The length counts the terminating NUL and
is asserted to be nonzero by the functions that insert. -/
structure Key extends CStr where
  nonempty : bytes ≠ []
  fits : bytes.length < 2 ^ 32
  notNull : ptr ≠ .null

def Key.nKeyLength (key : Key) : UInt32 := UInt32.ofNat key.bytes.length

structure Bucket (α : Type) where
  h : UInt64
  nKeyLength : UInt32
  pData : α
  pListNext : Option Addr
  pListLast : Option Addr
  pNext : Option Addr
  pLast : Option Addr
  arKey : CStr

structure HashTable where
  nTableSize : UInt32
  nTableMask : UInt32
  nNumOfElements : UInt32
  nNextFreeElement : UInt64
  pInternalPointer : Option Addr
  pListHead : Option Addr
  pListTail : Option Addr
  arBuckets : Nat → Option Addr

/-- The bucket memory. `live` holds the allocated addresses and `clock` counts the
allocations made so far. -/
structure Mem (α : Type) where
  cells : Addr → Bucket α
  live : List Addr
  clock : Nat

variable {α : Type}

def Mem.modify (mem : Mem α) (p : Addr) (f : Bucket α → Bucket α) : Mem α :=
  { mem with cells := Function.update mem.cells p (f (mem.cells p)) }

/-- `p->field = ...` under a test that `p` is not NULL. -/
def Mem.modify? (mem : Mem α) (p : Option Addr) (f : Bucket α → Bucket α) : Mem α :=
  match p with
  | none => mem
  | some p => mem.modify p f

/-- The allocator: the address handed out depends on its own history, which the
clock stands for, and on what is allocated. -/
abbrev Pemalloc := Nat → List Addr → Addr

/-- `pemalloc` never returns memory that is in use. -/
def Pemalloc.Fresh (pemalloc : Pemalloc) : Prop := ∀ clock live, pemalloc clock live ∉ live

def Mem.alloc (pemalloc : Pemalloc) (mem : Mem α) (b : Addr → Bucket α) : Mem α × Addr :=
  let p := pemalloc mem.clock mem.live
  ({ cells := Function.update mem.cells p (b p), live := p :: mem.live, clock := mem.clock + 1 }, p)

def Mem.pefree (mem : Mem α) (p : Addr) : Mem α := { mem with live := mem.live.erase p }

def isInterned : KeyPtr → Bool
  | .interned _ => true
  | _ => false

/-- `*arKey++` reads a signed `char`, widened to `ulong` before the addition. -/
def charToUlong (c : UInt8) : UInt64 := c.toInt8.toInt64.toUInt64

def hashStep (hash : UInt64) (c : UInt8) : UInt64 := ((hash <<< 5) + hash) + charToUlong c

/-- The loop of `zend_inline_hash_func`, unrolled eight times, and the `switch`
that falls through the remaining bytes. -/
def inlineHashLoop (hash : UInt64) : List UInt8 → UInt64
  | c₁ :: c₂ :: c₃ :: c₄ :: c₅ :: c₆ :: c₇ :: c₈ :: rest =>
    inlineHashLoop (hashStep (hashStep (hashStep (hashStep (hashStep (hashStep (hashStep
      (hashStep hash c₁) c₂) c₃) c₄) c₅) c₆) c₇) c₈) rest
  | short => short.foldl hashStep hash

def zendInlineHashFunc (arKey : List UInt8) (nKeyLength : UInt32) : UInt64 :=
  inlineHashLoop 5381 (arKey.take nKeyLength.toNat)

/-- `h & ht->nTableMask`. -/
def HashTable.nIndex (ht : HashTable) (h : UInt64) : Nat :=
  (h &&& ht.nTableMask.toUInt64).toNat

/-- `ht->arBuckets[i] = p`. -/
def HashTable.setBucket (ht : HashTable) (i : Nat) (p : Option Addr) : HashTable :=
  { ht with arBuckets := Function.update ht.arBuckets i p }

/-- `memset(ht->arBuckets, 0, ht->nTableSize * sizeof(Bucket *))`. -/
def HashTable.clearBuckets (ht : HashTable) : HashTable :=
  { ht with arBuckets := fun i => if i < ht.nTableSize.toNat then none else ht.arBuckets i }

/-- `while ((1U << i) < nSize) i++`, from `i` on. -/
def tableBits (nSize : UInt32) : Nat → Nat → Nat
  | 0, i => i
  | fuel + 1, i => if 2 ^ i < nSize.toNat then tableBits nSize fuel (i + 1) else i

/-- `arBuckets` starts out at the shared cell `uninitialized_bucket`, which is NULL. -/
def zendHashInit (nSize : UInt32) : HashTable where
  nTableSize :=
    if 0x80000000 ≤ nSize then 0x80000000 else UInt32.ofNat (2 ^ tableBits nSize 32 3)
  nTableMask := 0
  nNumOfElements := 0
  nNextFreeElement := 0
  pInternalPointer := none
  pListHead := none
  pListTail := none
  arBuckets := fun _ => none

/-- The lazy first allocation of `CHECK_INIT`. -/
def checkInit (ht : HashTable) : HashTable :=
  if ht.nTableMask = 0 then
    { ht with arBuckets := fun _ => none, nTableMask := ht.nTableSize - 1 }
  else ht

def connectToBucketDllist (mem : Mem α) (p : Addr) (listHead : Option Addr) : Mem α :=
  let mem := mem.modify p fun b => { b with pNext := listHead }
  let mem := mem.modify p fun b => { b with pLast := none }
  mem.modify? (mem.cells p).pNext fun b => { b with pLast := some p }

def connectToGlobalDllistEx (mem : Mem α) (ht : HashTable) (p : Addr) (last next : Option Addr) :
    Mem α × HashTable :=
  let mem := mem.modify p fun b => { b with pListLast := last }
  let mem := mem.modify p fun b => { b with pListNext := next }
  let mem := mem.modify? last fun b => { b with pListNext := some p }
  let ht := if last = none then { ht with pListHead := some p } else ht
  let mem := mem.modify? next fun b => { b with pListLast := some p }
  let ht := if next = none then { ht with pListTail := some p } else ht
  (mem, ht)

def connectToGlobalDllist (mem : Mem α) (ht : HashTable) (p : Addr) : Mem α × HashTable :=
  let (mem, ht) := connectToGlobalDllistEx mem ht p ht.pListTail none
  (mem, if ht.pInternalPointer = none then { ht with pInternalPointer := some p } else ht)

def rehashLoop : Nat → Option Addr → Mem α → HashTable → Mem α × HashTable
  | 0, _, mem, ht => (mem, ht)
  | _ + 1, none, mem, ht => (mem, ht)
  | fuel + 1, some p, mem, ht =>
    let nIndex := ht.nIndex (mem.cells p).h
    let mem := connectToBucketDllist mem p (ht.arBuckets nIndex)
    let ht := ht.setBucket nIndex (some p)
    rehashLoop fuel (mem.cells p).pListNext mem ht

def zendHashRehash (mem : Mem α) (ht : HashTable) : Mem α × HashTable :=
  if ht.nNumOfElements = 0 then (mem, ht)
  else rehashLoop mem.live.length ht.pListHead mem ht.clearBuckets

def zendHashDoResize (mem : Mem α) (ht : HashTable) : Mem α × HashTable :=
  if (0 : UInt32) < ht.nTableSize <<< 1 then
    zendHashRehash mem
      { ht with nTableSize := ht.nTableSize <<< 1, nTableMask := (ht.nTableSize <<< 1) - 1 }
  else (mem, ht)

def zendHashIfFullDoResize (mem : Mem α) (ht : HashTable) : Mem α × HashTable :=
  if ht.nTableSize < ht.nNumOfElements then zendHashDoResize mem ht else (mem, ht)

/-- `while (p != NULL) { if (match) ...; p = p->pNext; }`: the first bucket of a
chain that a test accepts. -/
def chainSearch (mem : Mem α) (test : Bucket α → Bool) : Nat → Option Addr → Option Addr
  | 0, _ => none
  | _ + 1, none => none
  | fuel + 1, some p =>
    if test (mem.cells p) then some p else chainSearch mem test fuel (mem.cells p).pNext

def search (mem : Mem α) (ht : HashTable) (h : UInt64) (test : Bucket α → Bool) : Option Addr :=
  chainSearch mem test mem.live.length (ht.arBuckets (ht.nIndex h))

/-- `!memcmp(p->arKey, arKey, nKeyLength)`. -/
def memcmpEq (a b : CStr) (nKeyLength : UInt32) : Bool :=
  decide (a.bytes.take nKeyLength.toNat = b.bytes.take nKeyLength.toNat)

/-- The test of the string lookups: the pointer alone, or hash, length and bytes. -/
def keyMatches (arKey : CStr) (nKeyLength : UInt32) (h : UInt64) (p : Bucket α) : Bool :=
  decide (p.arKey.ptr = arKey.ptr) ||
    (decide (p.h = h) && decide (p.nKeyLength = nKeyLength) && memcmpEq p.arKey arKey nKeyLength)

def indexMatches (h : UInt64) (p : Bucket α) : Bool :=
  decide (p.nKeyLength = 0) && decide (p.h = h)

/-- The test of `zend_hash_del_key_or_index`, which has no pointer shortcut. -/
def delMatches (arKey : CStr) (nKeyLength : UInt32) (h : UInt64) (p : Bucket α) : Bool :=
  decide (p.h = h) && decide (p.nKeyLength = nKeyLength) &&
    (decide (p.nKeyLength = 0) || memcmpEq p.arKey arKey nKeyLength)

inductive HashFlag where
  | update
  | add
  | nextInsert
  deriving DecidableEq, Repr

/-- What an insertion leaves behind: the bucket `*pDest` points into, or `none`
for FAILURE. -/
structure Inserted (α : Type) where
  mem : Mem α
  ht : HashTable
  pDest : Option Addr

/-- The key stored in a new string bucket: the caller's pointer when it is
interned, otherwise a copy behind the bucket. -/
def storedKey (arKey : CStr) (nKeyLength : UInt32) (p : Addr) : CStr :=
  if isInterned arKey.ptr then arKey else ⟨.bucket p, arKey.bytes.take nKeyLength.toNat⟩

def zendHashQuickAddOrUpdate (pemalloc : Pemalloc) (mem : Mem α) (ht : HashTable) (arKey : CStr)
    (nKeyLength : UInt32) (h : UInt64) (pData : α) (flag : HashFlag) : Inserted α :=
  let ht := checkInit ht
  let nIndex := ht.nIndex h
  match search mem ht h (keyMatches arKey nKeyLength h) with
  | some p =>
    if flag = .add then ⟨mem, ht, none⟩
    else ⟨mem.modify p fun b => { b with pData := pData }, ht, some p⟩
  | none =>
    let (mem, p) := mem.alloc pemalloc fun p =>
      { h := h, nKeyLength := nKeyLength, pData := pData, pListNext := none, pListLast := none,
        pNext := none, pLast := none, arKey := storedKey arKey nKeyLength p }
    let mem := connectToBucketDllist mem p (ht.arBuckets nIndex)
    let ht := ht.setBucket nIndex (some p)
    let (mem, ht) := connectToGlobalDllist mem ht p
    let ht := { ht with nNumOfElements := ht.nNumOfElements + 1 }
    let (mem, ht) := zendHashIfFullDoResize mem ht
    ⟨mem, ht, some p⟩

/-- `_zend_hash_add_or_update`: as the quick variant, but it computes the hash
itself and links the list before the slot. -/
def zendHashAddOrUpdate (pemalloc : Pemalloc) (mem : Mem α) (ht : HashTable) (arKey : CStr)
    (nKeyLength : UInt32) (pData : α) (flag : HashFlag) : Inserted α :=
  let ht := checkInit ht
  let h := zendInlineHashFunc arKey.bytes nKeyLength
  let nIndex := ht.nIndex h
  match search mem ht h (keyMatches arKey nKeyLength h) with
  | some p =>
    if flag = .add then ⟨mem, ht, none⟩
    else ⟨mem.modify p fun b => { b with pData := pData }, ht, some p⟩
  | none =>
    let (mem, p) := mem.alloc pemalloc fun p =>
      { h := h, nKeyLength := nKeyLength, pData := pData, pListNext := none, pListLast := none,
        pNext := none, pLast := none, arKey := storedKey arKey nKeyLength p }
    let mem := connectToBucketDllist mem p (ht.arBuckets nIndex)
    let (mem, ht) := connectToGlobalDllist mem ht p
    let ht := ht.setBucket nIndex (some p)
    let ht := { ht with nNumOfElements := ht.nNumOfElements + 1 }
    let (mem, ht) := zendHashIfFullDoResize mem ht
    ⟨mem, ht, some p⟩

def longMax : UInt64 := 0x7fffffffffffffff

/-- The update of `nNextFreeElement` after a new integer key: a signed comparison,
then a saturating successor. -/
def nextFreeAfter (nextFree h : UInt64) : UInt64 :=
  if nextFree.toInt64 ≤ h.toInt64 then (if h < longMax then h + 1 else longMax) else nextFree

def zendHashIndexUpdateOrNextInsert (pemalloc : Pemalloc) (mem : Mem α) (ht : HashTable)
    (h : UInt64) (pData : α) (flag : HashFlag) : Inserted α :=
  let ht := checkInit ht
  let h := if flag = .nextInsert then ht.nNextFreeElement else h
  let nIndex := ht.nIndex h
  match search mem ht h (indexMatches h) with
  | some p =>
    if flag = .nextInsert ∨ flag = .add then ⟨mem, ht, none⟩
    else ⟨mem.modify p fun b => { b with pData := pData }, ht, some p⟩
  | none =>
    let (mem, p) := mem.alloc pemalloc fun _ =>
      { h := h, nKeyLength := 0, pData := pData, pListNext := none, pListLast := none,
        pNext := none, pLast := none, arKey := .null }
    let mem := connectToBucketDllist mem p (ht.arBuckets nIndex)
    let ht := ht.setBucket nIndex (some p)
    let (mem, ht) := connectToGlobalDllist mem ht p
    let ht := { ht with nNextFreeElement := nextFreeAfter ht.nNextFreeElement h }
    let ht := { ht with nNumOfElements := ht.nNumOfElements + 1 }
    let (mem, ht) := zendHashIfFullDoResize mem ht
    ⟨mem, ht, some p⟩

def zendHashBucketDelete (mem : Mem α) (ht : HashTable) (p : Addr) : Mem α × HashTable :=
  let ht := match (mem.cells p).pLast with
    | some _ => ht
    | none => ht.setBucket (ht.nIndex (mem.cells p).h) (mem.cells p).pNext
  let mem := mem.modify? (mem.cells p).pLast fun b => { b with pNext := (mem.cells p).pNext }
  let mem := mem.modify? (mem.cells p).pNext fun b => { b with pLast := (mem.cells p).pLast }
  let ht := match (mem.cells p).pListLast with
    | some _ => ht
    | none => { ht with pListHead := (mem.cells p).pListNext }
  let mem := mem.modify? (mem.cells p).pListLast
    fun b => { b with pListNext := (mem.cells p).pListNext }
  let ht := match (mem.cells p).pListNext with
    | some _ => ht
    | none => { ht with pListTail := (mem.cells p).pListLast }
  let mem := mem.modify? (mem.cells p).pListNext
    fun b => { b with pListLast := (mem.cells p).pListLast }
  let ht := if ht.pInternalPointer = some p then
    { ht with pInternalPointer := (mem.cells p).pListNext } else ht
  let ht := { ht with nNumOfElements := ht.nNumOfElements - 1 }
  (mem.pefree p, ht)

inductive DelFlag where
  | key
  | index
  | keyQuick
  deriving DecidableEq, Repr

/-- `zend_hash_del_key_or_index`; the flag of the result is SUCCESS. -/
def zendHashDelKeyOrIndex (mem : Mem α) (ht : HashTable) (arKey : CStr) (nKeyLength : UInt32)
    (h : UInt64) (flag : DelFlag) : Mem α × HashTable × Bool :=
  let h := if flag = .key then zendInlineHashFunc arKey.bytes nKeyLength else h
  match search mem ht h (delMatches arKey nKeyLength h) with
  | some p =>
    let (mem, ht) := zendHashBucketDelete mem ht p
    (mem, ht, true)
  | none => (mem, ht, false)

/-- The loop of `zend_hash_clean` that releases the buckets. -/
def cleanLoop : Nat → Option Addr → Mem α → Mem α
  | 0, _, mem => mem
  | _ + 1, none, mem => mem
  | fuel + 1, some q, mem => cleanLoop fuel (mem.cells q).pListNext (mem.pefree q)

def zendHashClean (mem : Mem α) (ht : HashTable) : Mem α × HashTable :=
  let p := ht.pListHead
  let ht := if ht.nTableMask ≠ 0 then ht.clearBuckets else ht
  let ht := { ht with pListHead := none, pListTail := none, nNumOfElements := 0,
                      nNextFreeElement := 0, pInternalPointer := none }
  (cleanLoop mem.live.length p mem, ht)

/-- `if (pCopyConstructor) pCopyConstructor(new_entry)`. -/
def copyConstruct (ctor : Option (α → α)) (mem : Mem α) (entry : Option Addr) : Mem α :=
  match ctor with
  | none => mem
  | some f => mem.modify? entry fun b => { b with pData := f b.pData }

def copyLoop (pemalloc : Pemalloc) (source : HashTable) (ctor : Option (α → α))
    (setTargetPointer : Bool) :
    Nat → Option Addr → Mem α → HashTable → Mem α × HashTable
  | 0, _, mem, target => (mem, target)
  | _ + 1, none, mem, target => (mem, target)
  | fuel + 1, some p, mem, target =>
    let target := if setTargetPointer && decide (source.pInternalPointer = some p) then
      { target with pInternalPointer := none } else target
    let b := mem.cells p
    let r := if b.nKeyLength ≠ 0 then
        zendHashQuickAddOrUpdate pemalloc mem target b.arKey b.nKeyLength b.h b.pData .update
      else zendHashIndexUpdateOrNextInsert pemalloc mem target b.h b.pData .update
    let mem := copyConstruct ctor r.mem r.pDest
    copyLoop pemalloc source ctor setTargetPointer fuel (mem.cells p).pListNext mem r.ht

def zendHashCopy (pemalloc : Pemalloc) (mem : Mem α) (target source : HashTable)
    (ctor : Option (α → α)) : Mem α × HashTable :=
  let setTargetPointer := decide (target.pInternalPointer = none)
  let (mem, target) := copyLoop pemalloc source ctor setTargetPointer mem.live.length
    source.pListHead mem target
  (mem, if target.pInternalPointer = none then
    { target with pInternalPointer := target.pListHead } else target)

/-- `zend_hash_find`: the bucket whose data is returned, or FAILURE. -/
def zendHashFind (mem : Mem α) (ht : HashTable) (arKey : CStr) (nKeyLength : UInt32) : Option α :=
  let h := zendInlineHashFunc arKey.bytes nKeyLength
  (search mem ht h (keyMatches arKey nKeyLength h)).map fun p => (mem.cells p).pData

def zendHashQuickFind (mem : Mem α) (ht : HashTable) (arKey : CStr) (nKeyLength : UInt32)
    (h : UInt64) : Option α :=
  (search mem ht h (keyMatches arKey nKeyLength h)).map fun p => (mem.cells p).pData

def zendHashExists (mem : Mem α) (ht : HashTable) (arKey : CStr) (nKeyLength : UInt32) : Bool :=
  let h := zendInlineHashFunc arKey.bytes nKeyLength
  (search mem ht h (keyMatches arKey nKeyLength h)).isSome

def zendHashQuickExists (mem : Mem α) (ht : HashTable) (arKey : CStr) (nKeyLength : UInt32)
    (h : UInt64) : Bool :=
  (search mem ht h (keyMatches arKey nKeyLength h)).isSome

def zendHashIndexFind (mem : Mem α) (ht : HashTable) (h : UInt64) : Option α :=
  (search mem ht h (indexMatches h)).map fun p => (mem.cells p).pData

def zendHashIndexExists (mem : Mem α) (ht : HashTable) (h : UInt64) : Bool :=
  (search mem ht h (indexMatches h)).isSome

/-- The loop of `_zend_hash_merge`; `overwrite` selects HASH_UPDATE over HASH_ADD. -/
def mergeLoop (pemalloc : Pemalloc) (ctor : Option (α → α)) (overwrite : Bool) :
    Nat → Option Addr → Mem α → HashTable → Mem α × HashTable
  | 0, _, mem, target => (mem, target)
  | _ + 1, none, mem, target => (mem, target)
  | fuel + 1, some p, mem, target =>
    let b := mem.cells p
    let r := if b.nKeyLength ≠ 0 then
        zendHashQuickAddOrUpdate pemalloc mem target b.arKey b.nKeyLength b.h b.pData
          (if overwrite then .update else .add)
      else if overwrite || !zendHashIndexExists mem target b.h then
        zendHashIndexUpdateOrNextInsert pemalloc mem target b.h b.pData .update
      else ⟨mem, target, none⟩
    let mem := copyConstruct ctor r.mem r.pDest
    mergeLoop pemalloc ctor overwrite fuel (mem.cells p).pListNext mem r.ht

def zendHashMerge (pemalloc : Pemalloc) (mem : Mem α) (target source : HashTable)
    (ctor : Option (α → α)) (overwrite : Bool) : Mem α × HashTable :=
  let (mem, target) := mergeLoop pemalloc ctor overwrite mem.live.length source.pListHead mem target
  (mem, { target with pInternalPointer := target.pListHead })

/-- The loop of `zend_hash_reindex`; returns the final `offset` as well. -/
def reindexLoop (onlyIntegerKeys : Bool) :
    Nat → Option Addr → UInt64 → Mem α → HashTable → Mem α × HashTable × UInt64
  | 0, _, offset, mem, ht => (mem, ht, offset)
  | _ + 1, none, offset, mem, ht => (mem, ht, offset)
  | fuel + 1, some p, offset, mem, ht =>
    let renumber := !onlyIntegerKeys || decide ((mem.cells p).nKeyLength = 0)
    let mem := if renumber then
      mem.modify p fun b => { b with h := offset, nKeyLength := 0 } else mem
    let offset := if renumber then offset + 1 else offset
    let nIndex := ht.nIndex (mem.cells p).h
    let mem := connectToBucketDllist mem p (ht.arBuckets nIndex)
    let ht := ht.setBucket nIndex (some p)
    reindexLoop onlyIntegerKeys fuel (mem.cells p).pListNext offset mem ht

def zendHashReindex (mem : Mem α) (ht : HashTable) (onlyIntegerKeys : Bool) :
    Mem α × HashTable :=
  if ht.nNumOfElements = 0 then (mem, { ht with nNextFreeElement := 0 })
  else
    let (mem, ht, offset) := reindexLoop onlyIntegerKeys mem.live.length ht.pListHead 0 mem
      ht.clearBuckets
    (mem, { ht with nNextFreeElement := offset })

end Jonj.Hash
