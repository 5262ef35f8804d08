import Jonj.Lib.CChar
import Jonj.Lib.OrderedMap
import Jonj.Lib.SinglyLinked

/-!
# The environment of a FastCGI request

`fcgi_hash` of `fastcgi.c`: 128 chains of buckets, a list of all buckets ever used, and copies of
the strings in data segments.
-/
namespace Jonj.Fcgi

open Function

/-! ### Data segments -/

/-- A data segment and an offset into it. -/
abbrev Ptr := Nat × Nat

structure Data where
  /-- The number of the current segment. -/
  seg : Nat
  pos : Nat
  /-- The length of the current segment. -/
  size : Nat
  bytes : Nat → Nat → UInt8

def hashSegSize : UInt32 := 4096

namespace Data

def read (d : Data) (p : Ptr) (len : Nat) : Bytes :=
  (List.range len).map fun i => d.bytes p.1 (p.2 + i)

def write (d : Data) (p : Ptr) (str : Bytes) : Data :=
  { d with bytes := fun s o =>
      if s = p.1 ∧ p.2 ≤ o then (str[o - p.2]?).getD (d.bytes s o) else d.bytes s o }

def reserve (d : Data) (strLen : UInt32) : Data :=
  if d.pos + strLen.toNat + 1 ≥ d.size then
    { d with
      seg := d.seg + 1
      pos := 0
      size := (if strLen + 1 > hashSegSize then strLen + 1 else hashSegSize).toNat }
  else d

/-- `fcgi_hash_strndup` -/
def strndup (d : Data) (str : Bytes) (strLen : UInt32) : Data × Ptr :=
  let d := d.reserve strLen
  let ret := (d.seg, d.pos)
  ({ d.write ret (str.take strLen.toNat ++ [0]) with pos := d.pos + strLen.toNat + 1 }, ret)

end Data

/-! ### The table -/

/-- A block of buckets and an index into it. -/
abbrev Addr := Nat × Nat

structure Bucket where
  hashValue : UInt32
  varLen : UInt32
  var : Ptr
  valLen : UInt32
  /-- Nothing if the variable was deleted. -/
  val : Option Ptr
  next : Option Addr
  listNext : Option Addr

structure Hash where
  hashTable : Nat → Option Addr
  list : Option Addr
  /-- The number of the current block, and the first free index in it. -/
  block : Nat
  idx : Nat
  mem : Addr → Bucket
  data : Data

def hashTableSize : Nat := 128

/-- `hash_value & FCGI_HASH_TABLE_MASK` -/
def slot (hashValue : UInt32) : Nat := (hashValue &&& 127).toNat

namespace Hash

/-- The state after `fcgi_hash_init` or `fcgi_hash_clean`; memory is not cleared. -/
structure Clean (h : Hash) : Prop where
  hashTable : ∀ i, h.hashTable i = none
  list : h.list = none
  block : h.block = 0
  idx : h.idx = 0
  seg : h.data.seg = 0
  pos : h.data.pos = 0
  size : h.data.size = hashSegSize.toNat

/-- No chain is longer than the number of buckets in use. -/
def bound (h : Hash) : Nat := h.block * hashTableSize + h.idx

/-- The test of the loops: hash, length and `memcmp`. -/
def matches_ (h : Hash) (hashValue : UInt32) (var : Bytes) (varLen : UInt32) (a : Addr) : Bool :=
  (h.mem a).hashValue = hashValue && (h.mem a).varLen = varLen &&
    h.data.read (h.mem a).var varLen.toNat = var.take varLen.toNat

def find (h : Hash) (hashValue : UInt32) (var : Bytes) (varLen : UInt32) :
    Nat → Option Addr → Option Addr
  | n + 1, some a =>
    if h.matches_ hashValue var varLen a then some a
      else find h hashValue var varLen n (h.mem a).next
  | _, _ => none

def fresh (h : Hash) : Addr := if h.idx ≥ hashTableSize then (h.block + 1, 0) else (h.block, h.idx)

/-- The assignments to `p->val_len` and `p->val`; the copy is in the data. -/
def setVal (h : Hash) (p : Addr) (data : Data) (valLen : UInt32) (val : Option Ptr) : Hash :=
  { h with data, mem := update h.mem p { h.mem p with valLen, val } }

def setNext (h : Hash) (p : Addr) (next : Option Addr) : Hash :=
  { h with mem := update h.mem p { h.mem p with next } }

/-- `fcgi_hash_set` -/
def set (h : Hash) (hashValue : UInt32) (var : Bytes) (varLen : UInt32) (val : Bytes)
    (valLen : UInt32) : Hash :=
  let idx := slot hashValue
  match h.find hashValue var varLen h.bound (h.hashTable idx) with
  | some p =>
    let (data, copy) := h.data.strndup val valLen
    h.setVal p data valLen (some copy)
  | none =>
    let p := h.fresh
    let (data, var) := h.data.strndup var varLen
    let (data, val) := data.strndup val valLen
    { hashTable := update h.hashTable idx (some p)
      list := some p
      block := p.1
      idx := p.2 + 1
      mem := update h.mem p
        { hashValue, varLen, var, valLen, val := some val, next := h.hashTable idx,
          listNext := h.list }
      data }

/-- The loop of `fcgi_hash_del`, with the bucket whose `next` was followed last. -/
def findLink (h : Hash) (hashValue : UInt32) (var : Bytes) (varLen : UInt32) :
    Nat → Option Addr → Option Addr → Option (Option Addr × Addr)
  | n + 1, prev, some a =>
    if h.matches_ hashValue var varLen a then some (prev, a)
    else findLink h hashValue var varLen n (some a) (h.mem a).next
  | _, _, _ => none

/-- `fcgi_hash_del` -/
def del (h : Hash) (hashValue : UInt32) (var : Bytes) (varLen : UInt32) : Hash :=
  let idx := slot hashValue
  match h.findLink hashValue var varLen h.bound none (h.hashTable idx) with
  | none => h
  | some (prev, a) =>
    let h := h.setVal a h.data 0 none
    -- `*p` is the head of the chain or the `next` of the bucket before
    match prev with
    | none => { h with hashTable := update h.hashTable idx (h.mem a).next }
    | some b => h.setNext b (h.mem a).next

/-- `fcgi_hash_get`, with the value that the returned pointer and length stand for. -/
def get (h : Hash) (hashValue : UInt32) (var : Bytes) (varLen : UInt32) : Option Bytes := do
  let a ← h.find hashValue var varLen h.bound (h.hashTable (slot hashValue))
  let val ← (h.mem a).val
  some (h.data.read val (h.mem a).valLen.toNat)

/-- The calls of `func` that the loop of `fcgi_hash_apply` makes. -/
def applyFrom (h : Hash) : Nat → Option Addr → List (Bytes × Bytes)
  | n + 1, some a =>
    let rest := applyFrom h n (h.mem a).listNext
    match (h.mem a).val with
    | some val =>
      (h.data.read (h.mem a).var (h.mem a).varLen.toNat,
        h.data.read val (h.mem a).valLen.toNat) :: rest
    | none => rest
  | _, _ => []

/-- `fcgi_hash_apply` -/
def apply (h : Hash) : List (Bytes × Bytes) := h.applyFrom h.bound h.list

end Hash

end Jonj.Fcgi
