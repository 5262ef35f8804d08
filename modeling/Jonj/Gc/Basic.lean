import Mathlib.Data.BitVec
import Jonj.Lib.TrialDeletion.Graph

/-!
# The cycle collector of `zend_gc.c`

Two kinds of nodes carry a reference count and a `buffered` field: zvals and the
entries of the objects store. The low two bits of `buffered` are the colour, the
rest is a pointer into the root buffer; for a zval that is being freed the same
field is the link of the list of such zvals.

The recursive functions follow the source; a `goto tail_call` is a call in last
position. Recursion is bounded by `depth`, loops over the root buffer by its size,
and running out of either is `none`.
-/
namespace Jonj.Gc

open Function

open TrialDeletion (Color)

abbrev Node (Z O : Type) := Z ⊕ O

/-- What a pointer of the collector can point at. -/
inductive Ptr (Z : Type) where
  | null
  /-- `&GC_G(roots)`. -/
  | roots
  /-- `&GC_G(buf)[i]`. -/
  | slot (i : Nat)
  | zval (z : Z)
  /-- `FREE_LIST_END`. -/
  | freeListEnd
  deriving DecidableEq, Repr

/-- A pointer with a colour in its low bits. -/
structure Tagged (Z : Type) where
  addr : Ptr Z
  color : Color
  deriving DecidableEq, Repr

/-- What `get_gc` reports: the table, which may have NULL entries, and the
properties, which may be missing altogether. -/
structure GcData (Z : Type) where
  table : List (Option Z)
  props : Option (List Z)

/-- The type of a zval, as far as the collector looks at it. -/
inductive Kind (Z O : Type) where
  | array (symbolTable : Bool) (elements : List Z)
  | object (handle : O)
  | other

/-- The graph the collector walks. -/
structure Heap (Z O : Type) where
  kind : Z → Kind Z O
  /-- `EG(objects_store).object_buckets` is not NULL. -/
  objectBuckets : Bool
  valid : O → Bool
  /-- The `get_gc` handler, which may be NULL. -/
  getGc : O → Option (GcData Z)

structure RootBuffer (Z O : Type) where
  prev : Ptr Z
  next : Ptr Z
  /-- `handle` and `u`: a zval when the handle is 0. -/
  entry : Node Z O

/-- The collector's globals, and the fields of the nodes that it reads and writes. -/
structure GcState (Z O : Type) where
  gcEnabled : Bool
  gcActive : Bool
  buf : Nat → RootBuffer Z O
  rootsPrev : Ptr Z
  rootsNext : Ptr Z
  unused : Ptr Z
  firstUnused : Nat
  lastUnused : Nat
  zvalToFree : Ptr Z
  freeList : Ptr Z
  nextToFree : Ptr Z
  /-- `zend_uint`. -/
  refcount : Node Z O → BitVec 32
  buffered : Node Z O → Tagged Z

variable {Z O : Type}

/-- `valid && get_gc != NULL`, and what it then returns. -/
def Heap.gcData (heap : Heap Z O) (handle : O) : Option (GcData Z) :=
  if heap.valid handle then heap.getGc handle else none

/-- The zvals that the loops over `table` and `props` visit, in this order. -/
def GcData.values (data : GcData Z) : List Z := data.table.reduceOption ++ data.props.getD []

def Heap.values (heap : Heap Z O) (handle : O) : List Z :=
  ((heap.gcData handle).map GcData.values).getD []

/-- `Z_TYPE_P(pz) == IS_ARRAY && Z_ARRVAL_P(pz) == &EG(symbol_table)`. -/
def Heap.isSymbolTable (heap : Heap Z O) (pz : Z) : Bool :=
  match heap.kind pz with
  | .array symbolTable _ => symbolTable
  | _ => false

def GcState.color (g : GcState Z O) (n : Node Z O) : Color := (g.buffered n).color

def GcState.address (g : GcState Z O) (n : Node Z O) : Ptr Z := (g.buffered n).addr

section nodes

variable [DecidableEq Z] [DecidableEq O]

def GcState.setBuffered (g : GcState Z O) (n : Node Z O) (b : Tagged Z) : GcState Z O :=
  { g with buffered := update g.buffered n b }

def GcState.setColor (g : GcState Z O) (n : Node Z O) (c : Color) : GcState Z O :=
  g.setBuffered n { g.buffered n with color := c }

def GcState.setAddress (g : GcState Z O) (n : Node Z O) (p : Ptr Z) : GcState Z O :=
  g.setBuffered n { g.buffered n with addr := p }

def GcState.addRef (g : GcState Z O) (n : Node Z O) : GcState Z O :=
  { g with refcount := update g.refcount n (g.refcount n + 1) }

def GcState.delRef (g : GcState Z O) (n : Node Z O) : GcState Z O :=
  { g with refcount := update g.refcount n (g.refcount n - 1) }

/-- `pz->refcount__gc++`, except for the symbol table. -/
def GcState.addRefChild (heap : Heap Z O) (g : GcState Z O) (pz : Z) : GcState Z O :=
  if heap.isSymbolTable pz then g else g.addRef (.inl pz)

/-- `pz->refcount__gc--`, except for the symbol table. -/
def GcState.delRefChild (heap : Heap Z O) (g : GcState Z O) (pz : Z) : GcState Z O :=
  if heap.isSymbolTable pz then g else g.delRef (.inl pz)

/-! ### The traversals -/

def zvalMarkGrey (heap : Heap Z O) : Nat → GcState Z O → Z → Option (GcState Z O)
  | 0, _, _ => none
  | depth + 1, g, pz =>
    if g.color (.inl pz) ≠ .grey then
      let g := g.setColor (.inl pz) .grey
      match heap.kind pz with
      | .object handle =>
        if heap.objectBuckets then
          let g := g.delRef (.inr handle)
          if g.color (.inr handle) ≠ .grey then
            let g := g.setColor (.inr handle) .grey
            (heap.values handle).foldlM
              (fun g pz => zvalMarkGrey heap depth (g.delRefChild heap pz) pz) g
          else some g
        else some g
      | .array symbolTable elements =>
        if symbolTable then some (g.setColor (.inl pz) .black)
        else elements.foldlM (fun g pz => zvalMarkGrey heap depth (g.delRefChild heap pz) pz) g
      | .other => some g
    else some g

def zobjMarkGrey (heap : Heap Z O) (depth : Nat) (g : GcState Z O) (handle : O) :
    Option (GcState Z O) :=
  if g.color (.inr handle) ≠ .grey then
    let g := g.setColor (.inr handle) .grey
    (heap.values handle).foldlM
      (fun g pz => zvalMarkGrey heap depth (g.delRefChild heap pz) pz) g
  else some g

def zvalScanBlack (heap : Heap Z O) : Nat → GcState Z O → Z → Option (GcState Z O)
  | 0, _, _ => none
  | depth + 1, g, pz =>
    let g := g.setColor (.inl pz) .black
    -- a child is given its reference back, and is visited unless it is black
    let child := fun (g : GcState Z O) pz =>
      let g := g.addRefChild heap pz
      if g.color (.inl pz) ≠ .black then zvalScanBlack heap depth g pz else some g
    match heap.kind pz with
    | .object handle =>
      if heap.objectBuckets then
        let g := g.addRef (.inr handle)
        if g.color (.inr handle) ≠ .black then
          let g := g.setColor (.inr handle) .black
          (heap.values handle).foldlM child g
        else some g
      else some g
    | .array symbolTable elements => if symbolTable then some g else elements.foldlM child g
    | .other => some g

def zobjScanBlack (heap : Heap Z O) (depth : Nat) (g : GcState Z O) (handle : O) :
    Option (GcState Z O) :=
  let g := g.setColor (.inr handle) .black
  (heap.values handle).foldlM (fun (g : GcState Z O) pz =>
    let g := g.addRefChild heap pz
    if g.color (.inl pz) ≠ .black then zvalScanBlack heap depth g pz else some g) g

def zvalScan (heap : Heap Z O) (maxDepth : Nat) : Nat → GcState Z O → Z → Option (GcState Z O)
  | 0, _, _ => none
  | depth + 1, g, pz =>
    if g.color (.inl pz) = .grey then
      if 0 < g.refcount (.inl pz) then zvalScanBlack heap maxDepth g pz
      else
        let g := g.setColor (.inl pz) .white
        match heap.kind pz with
        | .object handle =>
          if heap.objectBuckets then
            if g.color (.inr handle) = .grey then
              if 0 < g.refcount (.inr handle) then zobjScanBlack heap maxDepth g handle
              else
                let g := g.setColor (.inr handle) .white
                (heap.values handle).foldlM (fun g pz => zvalScan heap maxDepth depth g pz) g
            else some g
          else some g
        | .array symbolTable elements =>
          if symbolTable then some (g.setColor (.inl pz) .black)
          else elements.foldlM (fun g pz => zvalScan heap maxDepth depth g pz) g
        | .other => some g
    else some g

def zobjScan (heap : Heap Z O) (maxDepth : Nat) (g : GcState Z O) (handle : O) :
    Option (GcState Z O) :=
  if heap.objectBuckets then
    if g.color (.inr handle) = .grey then
      if 0 < g.refcount (.inr handle) then zobjScanBlack heap maxDepth g handle
      else
        let g := g.setColor (.inr handle) .white
        (heap.values handle).foldlM (fun g pz => zvalScan heap maxDepth maxDepth g pz) g
    else some g
  else some g

/-- `restore refcount and put into list to free`. -/
def GcState.putToFree (g : GcState Z O) (pz : Z) : GcState Z O :=
  let g := g.addRef (.inl pz)
  { g.setBuffered (.inl pz) ⟨g.zvalToFree, .black⟩ with zvalToFree := .zval pz }

def zvalCollectWhite (heap : Heap Z O) : Nat → GcState Z O → Z → Option (GcState Z O)
  | 0, _, _ => none
  | depth + 1, g, pz =>
    -- the whole field is compared: a zval that is still buffered is passed over
    if g.buffered (.inl pz) = ⟨.null, .white⟩ then
      let g := g.setColor (.inl pz) .black
      let child := fun (g : GcState Z O) pz =>
        zvalCollectWhite heap depth (g.addRefChild heap pz) pz
      match heap.kind pz with
      | .object handle =>
        if heap.objectBuckets ∧ g.buffered (.inr handle) = ⟨.null, .white⟩ then
          let g := g.setColor (.inr handle) .purple
          match heap.gcData handle with
          | some data =>
            match data.props with
            | none => data.table.reduceOption.foldlM child (g.putToFree pz)
            | some props => do
              let g ← data.table.reduceOption.foldlM child g
              props.foldlM child (g.putToFree pz)
          | none => some (g.putToFree pz)
        else some (g.putToFree pz)
      | .array _ elements => elements.foldlM child (g.putToFree pz)
      | .other => some (g.putToFree pz)
    else some g

def zobjCollectWhite (heap : Heap Z O) (depth : Nat) (g : GcState Z O) (handle : O) :
    Option (GcState Z O) :=
  if heap.objectBuckets then
    if g.buffered (.inr handle) = ⟨.null, .white⟩ then
      let g := g.setColor (.inr handle) .purple
      (heap.values handle).foldlM
        (fun g pz => zvalCollectWhite heap depth (g.addRefChild heap pz) pz) g
    else some g
  else some g

end nodes

/-! ### The root buffer -/

def GcState.next (g : GcState Z O) : Ptr Z → Ptr Z
  | .roots => g.rootsNext
  | .slot i => (g.buf i).next
  | _ => .null

def GcState.prev (g : GcState Z O) : Ptr Z → Ptr Z
  | .roots => g.rootsPrev
  | .slot i => (g.buf i).prev
  | _ => .null

def GcState.setNext (g : GcState Z O) (p q : Ptr Z) : GcState Z O :=
  match p with
  | .roots => { g with rootsNext := q }
  | .slot i => { g with buf := update g.buf i { g.buf i with next := q } }
  | _ => g

def GcState.setPrev (g : GcState Z O) (p q : Ptr Z) : GcState Z O :=
  match p with
  | .roots => { g with rootsPrev := q }
  | .slot i => { g with buf := update g.buf i { g.buf i with prev := q } }
  | _ => g

def gcRemoveFromBuffer (g : GcState Z O) (root : Ptr Z) : GcState Z O :=
  let g := g.setPrev (g.next root) (g.prev root)
  let g := g.setNext (g.prev root) (g.next root)
  let g := g.setPrev root g.unused
  { g with unused := root }

section roots

variable [DecidableEq Z] [DecidableEq O]

/-- The loop `while (current != &GC_G(roots))`, which goes on from the slot it was at
even when that slot has been taken off the list. -/
def rootsLoop (body : GcState Z O → Nat → Option (GcState Z O)) :
    Nat → Ptr Z → GcState Z O → Option (GcState Z O)
  | _, .roots, g => some g
  | n + 1, .slot i, g => do
    let g ← body g i
    rootsLoop body n (g.buf i).next g
  | _, _, _ => none

def markRoot (heap : Heap Z O) (depth : Nat) (g : GcState Z O) (i : Nat) : Option (GcState Z O) :=
  match (g.buf i).entry with
  | .inr handle =>
    if heap.objectBuckets then
      if g.color (.inr handle) = .purple then zobjMarkGrey heap depth g handle
      else some (gcRemoveFromBuffer (g.setAddress (.inr handle) .null) (.slot i))
    else some g
  | .inl pz =>
    if g.color (.inl pz) = .purple then zvalMarkGrey heap depth g pz
    else some (gcRemoveFromBuffer (g.setAddress (.inl pz) .null) (.slot i))

def gcMarkRoots (heap : Heap Z O) (depth : Nat) (g : GcState Z O) : Option (GcState Z O) :=
  rootsLoop (markRoot heap depth) g.lastUnused g.rootsNext g

def scanRoot (heap : Heap Z O) (depth : Nat) (g : GcState Z O) (i : Nat) : Option (GcState Z O) :=
  match (g.buf i).entry with
  | .inr handle => zobjScan heap depth g handle
  | .inl pz => zvalScan heap depth depth g pz

def gcScanRoots (heap : Heap Z O) (depth : Nat) (g : GcState Z O) : Option (GcState Z O) :=
  rootsLoop (scanRoot heap depth) g.lastUnused g.rootsNext g

def collectRoot (heap : Heap Z O) (depth : Nat) (g : GcState Z O) (i : Nat) :
    Option (GcState Z O) :=
  do
  let g ← match (g.buf i).entry with
    | .inr handle =>
      if heap.objectBuckets then
        zobjCollectWhite heap depth (g.setAddress (.inr handle) .null) handle
      else some g
    | .inl pz => zvalCollectWhite heap depth (g.setAddress (.inl pz) .null) pz
  some (gcRemoveFromBuffer g (.slot i))

def gcCollectRoots (heap : Heap Z O) (depth : Nat) (g : GcState Z O) : Option (GcState Z O) :=
  rootsLoop (collectRoot heap depth) g.lastUnused g.rootsNext g

/-- The three passes of `gc_collect_cycles`. -/
def gcPasses (heap : Heap Z O) (depth : Nat) (g : GcState Z O) : Option (GcState Z O) := do
  let g ← gcMarkRoots heap depth { g with zvalToFree := .freeListEnd, gcActive := true }
  let g ← gcScanRoots heap depth g
  gcCollectRoots heap depth g

end roots

end Jonj.Gc
