import Mathlib.Tactic

/-!
# The free lists of `zend_alloc.c`

The memory that the free lists live in is one function for each field of `zend_mm_free_block`, next
to the arrays and bitmaps of `zend_mm_heap` that the lists use. Sizes are for 64-bit machines
without debug information: a header has 16 bytes, the smallest block 32. A function is `none` where
the source ends in `zend_mm_panic`, follows a NULL pointer, or does not end a walk down a tree
within as many steps as a size has bits.
-/
namespace Jonj.Alloc

open Function

abbrev Addr := Nat

inductive BlockType
  | free
  | used
  | guard
  deriving DecidableEq, Repr

/-- `info._size` and `info._prev`: a size and the type in its low bits. -/
structure Info where
  type : BlockType
  size : Nat
  deriving DecidableEq, Repr

/-- A `zend_mm_free_block *`. `small` and `rest` are the heads that `ZEND_MM_SMALL_FREE_BUCKET` and
`ZEND_MM_REST_BUCKET` make out of two pointers of the heap. -/
inductive FreePtr
  | null
  | block (p : Addr)
  | small (index : Nat)
  | rest
  deriving DecidableEq, Repr

/-- A `zend_mm_free_block **` into a tree. -/
inductive Slot
  | bucket (index : Nat)
  | child (p : Addr) (one : Bool)
  deriving DecidableEq, Repr

/-- The field `parent`; `restBlock` is `ZEND_MM_REST_BLOCK`. -/
inductive Parent
  | null
  | restBlock
  | slot (s : Slot)
  deriving DecidableEq, Repr

structure FreeLists where
  size : Addr → Info
  prevFreeBlock : FreePtr → FreePtr
  nextFreeBlock : FreePtr → FreePtr
  parent : Addr → Parent
  child : Addr → Bool → Option Addr
  largeFreeBuckets : Nat → Option Addr
  freeBitmap : BitVec 64
  largeFreeBitmap : BitVec 64
  restCount : Int

def numBuckets : Nat := 64

def alignedMinHeaderSize : Nat := 32

def maxSmallSize : Nat := numBuckets * 8 + alignedMinHeaderSize

def bucketIndex (trueSize : Nat) : Nat := trueSize / 8 - alignedMinHeaderSize / 8

def zendMmHighBit (size : Nat) : Nat := size.log2

def zendMmLowBit (bitmap : BitVec 64) : Nat :=
  ((List.range 64).find? fun i => bitmap.getLsbD i).getD 0

/-- `m >> (ZEND_MM_NUM_BUCKETS-1)` -/
def topBit (m : Nat) : Bool := m.testBit 63

namespace FreeLists

/-- `zend_mm_init`: the lists of a new heap, in memory that holds anything. -/
def zendMmInit (h : FreeLists) : FreeLists :=
  let heads : (FreePtr → FreePtr) → FreePtr → FreePtr := fun links p =>
    match p with
    | .small i => .small i
    | .rest => .rest
    | p => links p
  { h with
    freeBitmap := 0#64
    largeFreeBitmap := 0#64
    prevFreeBlock := heads h.prevFreeBlock
    nextFreeBlock := heads h.nextFreeBlock
    largeFreeBuckets := fun _ => none
    restCount := 0 }

def freeBlockSize (h : FreeLists) (p : Addr) : Nat := (h.size p).size

def load (h : FreeLists) : Slot → Option Addr
  | .bucket index => h.largeFreeBuckets index
  | .child p one => h.child p one

def store (h : FreeLists) (s : Slot) (v : Option Addr) : FreeLists :=
  match s with
  | .bucket index => { h with largeFreeBuckets := update h.largeFreeBuckets index v }
  | .child p one => { h with child := update h.child p (update (h.child p) one v) }

def setParent (h : FreeLists) (p : Addr) (v : Parent) : FreeLists :=
  { h with parent := update h.parent p v }

def setNext (h : FreeLists) (p v : FreePtr) : FreeLists :=
  { h with nextFreeBlock := update h.nextFreeBlock p v }

def setPrev (h : FreeLists) (p v : FreePtr) : FreeLists :=
  { h with prevFreeBlock := update h.prevFreeBlock p v }

/-- The block becomes a node of its own behind the slot. -/
def link (h : FreeLists) (p : Slot) (mmBlock : Addr) : FreeLists :=
  let h := h.store p (some mmBlock)
  let h := h.setParent mmBlock (.slot p)
  (h.setPrev (.block mmBlock) (.block mmBlock)).setNext (.block mmBlock) (.block mmBlock)

/-- The loop of `zend_mm_add_to_free_list` over a tree that is not empty. -/
def addLoop (h : FreeLists) (mmBlock : Addr) (size : Nat) : Nat → Nat → Slot → Option FreeLists
  | 0, _, _ => none
  | fuel + 1, m, p =>
    match h.load p with
    | none => none
    | some prev =>
      if h.freeBlockSize prev ≠ size then
        let p := Slot.child prev (topBit m)
        match h.load p with
        | none => some (h.link p mmBlock)
        | some _ => addLoop h mmBlock size fuel (m * 2 % 2 ^ 64) p
      else
        let next := h.nextFreeBlock (.block prev)
        let h := (h.setPrev next (.block mmBlock)).setNext (.block prev) (.block mmBlock)
        let h := (h.setNext (.block mmBlock) next).setPrev (.block mmBlock) (.block prev)
        some (h.setParent mmBlock .null)

def zendMmAddToFreeList (h : FreeLists) (mmBlock : Addr) : Option FreeLists :=
  let size := h.freeBlockSize mmBlock
  if maxSmallSize ≤ size then
    let index := zendMmHighBit size
    let p := Slot.bucket index
    let h := (h.store (.child mmBlock true) none).store (.child mmBlock false) none
    match h.load p with
    | none =>
      let h := h.link p mmBlock
      some { h with largeFreeBitmap := h.largeFreeBitmap ||| BitVec.twoPow 64 index }
    | some _ => h.addLoop mmBlock size numBuckets (size * 2 ^ (numBuckets - index) % 2 ^ 64) p
  else
    let index := bucketIndex size
    let prev := FreePtr.small index
    let h := if h.prevFreeBlock prev = prev then
        { h with freeBitmap := h.freeBitmap ||| BitVec.twoPow 64 index } else h
    let next := h.nextFreeBlock prev
    let h := (h.setPrev (.block mmBlock) prev).setNext (.block mmBlock) next
    some ((h.setPrev next (.block mmBlock)).setNext prev (.block mmBlock))

/-- `while (*(cp = &(prev->child[prev->child[1] != NULL])) != NULL)`, with `rp` and `prev` after the
loop. -/
def lastLeaf (h : FreeLists) : Nat → Slot → Addr → Option (Slot × Addr)
  | 0, _, _ => none
  | fuel + 1, rp, prev =>
    let cp := Slot.child prev (h.child prev true).isSome
    match h.load cp with
    | none => some (rp, prev)
    | some q => lastLeaf h fuel cp q

/-- `ZEND_MM_CHECK_TREE`: a block that its `parent` does not point at is a corrupted heap. -/
def checkTree (h : FreeLists) (p : Addr) : Option Slot :=
  match h.parent p with
  | .slot s => if h.load s = some p then some s else none
  | _ => none

/-- `if ((prev->child[i] = mm_block->child[i])) ...` -/
def adopt (h : FreeLists) (mmBlock prev : Addr) (one : Bool) : Option FreeLists :=
  let c := h.child mmBlock one
  let h := h.store (.child prev one) c
  match c with
  | none => some h
  | some c => (h.checkTree c).map fun _ => h.setParent c (.slot (.child prev one))

/-- `subst_block`: `prev` takes the place of the block in its tree. -/
def substBlock (h : FreeLists) (mmBlock prev : Addr) : Option FreeLists :=
  (h.checkTree mmBlock).bind fun s =>
    let h := (h.store s (some prev)).setParent prev (.slot s)
    (h.adopt mmBlock prev false).bind fun h => h.adopt mmBlock prev true

/-- The first branch of `zend_mm_remove_from_free_list`: the block is a node of its own. -/
def removeAlone (h : FreeLists) (mmBlock : Addr) : Option FreeLists :=
  let rp := Slot.child mmBlock (h.child mmBlock true).isSome
  match h.load rp with
  | none =>
    let index := zendMmHighBit (h.freeBlockSize mmBlock)
    (h.checkTree mmBlock).map fun s =>
      let h := h.store s none
      if s = .bucket index then
        { h with largeFreeBitmap := h.largeFreeBitmap &&& ~~~ BitVec.twoPow 64 index } else h
  | some prev =>
    (h.lastLeaf numBuckets rp prev).bind fun leaf => (h.store leaf.1 none).substBlock mmBlock leaf.2

def zendMmRemoveFromFreeList (h : FreeLists) (mmBlock : Addr) : Option FreeLists :=
  let prev := h.prevFreeBlock (.block mmBlock)
  let next := h.nextFreeBlock (.block mmBlock)
  if prev = .block mmBlock then
    if next ≠ .block mmBlock then none else h.removeAlone mmBlock
  else if h.nextFreeBlock prev ≠ .block mmBlock ∨ h.prevFreeBlock next ≠ .block mmBlock then none
  else
    let h := (h.setNext prev next).setPrev next prev
    if h.freeBlockSize mmBlock < maxSmallSize then
      let index := bucketIndex (h.freeBlockSize mmBlock)
      if prev = next ∧ h.prevFreeBlock (.small index) = h.nextFreeBlock (.small index) then
        some { h with freeBitmap := h.freeBitmap &&& ~~~ BitVec.twoPow 64 index }
      else some h
    else
      match h.parent mmBlock with
      | .restBlock => some { h with restCount := h.restCount - 1 }
      | .null => some h
      | .slot _ =>
        match prev with
        | .block prev => h.substBlock mmBlock prev
        | _ => none

/-! ### The search -/

structure BestFit where
  fit : Option Addr
  size : Nat

/-- What the first loop of the search ends with. -/
inductive Walked
  | exact (p : Addr)
  | ended (best : BestFit) (rst : Option Addr)

/-- A block that is large enough and smaller than the best one so far. -/
def improve (h : FreeLists) (trueSize : Nat) (p : Addr) (best : BestFit) : BestFit :=
  if trueSize ≤ h.freeBlockSize p ∧ h.freeBlockSize p < best.size then
    ⟨some p, h.freeBlockSize p⟩ else best

/-- The loop down the path of the bits of `true_size`. -/
def searchPath (h : FreeLists) (trueSize : Nat) :
    Nat → Nat → Addr → BestFit → Option Addr → Option Walked
  | 0, _, _, _, _ => none
  | fuel + 1, m, p, best, rst =>
    if h.freeBlockSize p = trueSize then some (.exact p)
    else
      let best := h.improve trueSize p best
      if topBit m = false then
        let rst := if (h.child p true).isSome then h.child p true else rst
        match h.child p false with
        | some p => searchPath h trueSize fuel (m * 2 % 2 ^ 64) p best rst
        | none => some (.ended best rst)
      else
        match h.child p true with
        | some p => searchPath h trueSize fuel (m * 2 % 2 ^ 64) p best rst
        | none => some (.ended best rst)

/-- `for (p = rst; p; p = p->child[p->child[0] != NULL])` -/
def searchRest (h : FreeLists) (trueSize : Nat) : Nat → Option Addr → BestFit → Option Walked
  | _, none, best => some (.ended best none)
  | 0, some _, _ => none
  | fuel + 1, some p, best =>
    if h.freeBlockSize p = trueSize then some (.exact p)
    -- the source compares with `>` here: an equal size has just returned
    else searchRest h trueSize fuel (h.child p (h.child p false).isSome) (h.improve trueSize p best)

/-- `while ((p = p->child[p->child[0] != NULL]))` -/
def searchSmallest (h : FreeLists) : Nat → Addr → Addr → Option Addr
  | 0, _, _ => none
  | fuel + 1, p, bestFit =>
    match h.child p (h.child p false).isSome with
    | none => some bestFit
    | some p =>
      searchSmallest h fuel p (if h.freeBlockSize p < h.freeBlockSize bestFit then p else bestFit)

/-- `return p->next_free_block` -/
def returnNext (h : FreeLists) (p : Addr) : Option Addr :=
  match h.nextFreeBlock (.block p) with
  | .block q => some q
  | _ => none

/-- The part of the search that looks at the buckets of larger sizes; `bitmap` starts with the
bucket `index`. -/
def searchLarger (h : FreeLists) (index : Nat) (bitmap : BitVec 64) : Option (Option Addr) :=
  match h.largeFreeBuckets (index + zendMmLowBit bitmap) with
  | none => none
  | some p => (h.searchSmallest numBuckets p p).bind fun p => (h.returnNext p).map some

/-- `zend_mm_search_large_block`; the inner `none` is NULL. -/
def zendMmSearchLargeBlock (h : FreeLists) (trueSize : Nat) : Option (Option Addr) :=
  let index := zendMmHighBit trueSize
  let bitmap := h.largeFreeBitmap >>> index
  if bitmap = 0#64 then some none
  else if bitmap.getLsbD 0 then
    match h.largeFreeBuckets index with
    | none => none
    | some p =>
      -- best_size = -1
      (h.searchPath trueSize numBuckets (trueSize * 2 ^ (numBuckets - index) % 2 ^ 64) p
        ⟨none, 2 ^ 64 - 1⟩ none).bind
        fun
        | .exact p => (h.returnNext p).map some
        | .ended best rst =>
          (h.searchRest trueSize numBuckets rst best).bind fun
          | .exact p => (h.returnNext p).map some
          | .ended best _ =>
            match best.fit with
            | some p => (h.returnNext p).map some
            | none =>
              if bitmap >>> 1 = 0#64 then some none else h.searchLarger (index + 1) (bitmap >>> 1)
  else h.searchLarger index bitmap

end FreeLists

end Jonj.Alloc
