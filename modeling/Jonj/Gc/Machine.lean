import Jonj.Gc.Graph

/-!
# The collector as a re-entrant machine

`gc_collect_cycles` runs destructors, which may call the collector again, and the two
functions that buffer a possible root run it when the buffer is full. The machine
keeps the calls that are in progress on a stack. Its labels are the calls that the
program makes and the moments at which the function on top of the stack goes on.

The memory of a zval that has been freed is initialised again by `GC_ZVAL_INIT`
before it is used; here that happens when it is freed.
-/
namespace Jonj.Gc

open Function

open TrialDeletion (Color)

/-- The `orig_free_list` and `orig_next_to_free` of a collection. -/
structure Saved (Z : Type) where
  freeList : Ptr Z
  nextToFree : Ptr Z

/-- A function in progress, and where it will go on. -/
inductive Call (Z O : Type) where
  /-- The program itself, or code that the collector has called. -/
  | program
  /-- `gc_zval_possible_root` and `gc_zobj_possible_root`, after `gc_collect_cycles()`;
  `zv` is the argument and `n` was to be buffered. -/
  | possibleRoot (zv : Z) (n : Node Z O)
  /-- `gc_collect_cycles`, at `p` in the loop that calls destructors. -/
  | destructors (p : Ptr Z) (orig : Saved Z)
  /-- The same, after the destructor of `handle` has been called for `p`. -/
  | destructed (p : Ptr Z) (handle : O) (orig : Saved Z)
  /-- `gc_collect_cycles`, at `p` in the loop that destroys zvals. -/
  | destroy (p : Ptr Z) (orig : Saved Z)
  /-- The same, after the contents of a zval have been destroyed. -/
  | destroyed (orig : Saved Z)
  /-- `gc_collect_cycles`, at `p` in the loop that frees zvals. -/
  | free (p : Ptr Z) (orig : Saved Z)

structure Machine (Z O : Type) where
  heap : Heap Z O
  /-- `bucket.obj.dtor` is not NULL. -/
  dtor : O → Bool
  destructorCalled : O → Bool
  g : GcState Z O
  stack : List (Call Z O)

/-- What the program can do, and the return to the function below it. -/
inductive Label (Z O : Type) where
  | gcZvalPossibleRoot (zv : Z)
  | gcZobjPossibleRoot (zv : Z)
  | gcRemoveZvalFromBuffer (zv : Z)
  | gcRemoveZobjFromBuffer (handle : O)
  | gcCollectCycles
  /-- Anything else: the program changes its values and their counts. -/
  | mutate (heap : Heap Z O) (dtor destructorCalled : O → Bool) (refcount : Node Z O → BitVec 32)
  | return
  /-- The function on top of the stack goes on. -/
  | goOn

variable {Z O : Type}

/-- The pointer is not NULL and not in the root buffer. -/
def Ptr.outside : Ptr Z → Bool
  | .null => false
  | .slot _ => false
  | _ => true

def GcState.after (g : GcState Z O) : Ptr Z → Ptr Z
  | .zval z => g.address (.inl z)
  | _ => .null

section slots

variable [DecidableEq Z] [DecidableEq O]

/-- A slot from the list of unused ones or, if there is none, from the end. -/
def GcState.takeSlot (g : GcState Z O) : Option (Nat × GcState Z O) :=
  match g.unused with
  | .slot i => some (i, { g with unused := (g.buf i).prev })
  | _ =>
    if g.firstUnused ≠ g.lastUnused then
      some (g.firstUnused, { g with firstUnused := g.firstUnused + 1 })
    else none

/-- `newRoot` is put in front of the roots and records `n`. -/
def GcState.linkRoot (g : GcState Z O) (newRoot : Nat) (n : Node Z O) : GcState Z O :=
  let g := g.setColor n .purple
  let g := g.setNext (.slot newRoot) g.rootsNext
  let g := g.setPrev (.slot newRoot) .roots
  let g := g.setPrev g.rootsNext (.slot newRoot)
  let g := { g with rootsNext := .slot newRoot }
  let g := g.setAddress n (.slot newRoot)
  { g with buf := update g.buf newRoot { g.buf newRoot with entry := n } }

/-- The macro `GC_REMOVE_ZVAL_FROM_BUFFER` with `gc_remove_zval_from_buffer`. -/
def gcRemoveZvalFromBuffer (g : GcState Z O) (zv : Z) : GcState Z O :=
  if g.address (.inl zv) ≠ .null then
    if g.freeList ≠ .null ∧ g.color (.inl zv) = .black ∧ (g.address (.inl zv)).outside then
      -- garbage that is going to be deleted by the running collection
      if g.nextToFree = .zval zv then { g with nextToFree := g.address (.inl zv) } else g
    else (gcRemoveFromBuffer g (g.address (.inl zv))).setBuffered (.inl zv) ⟨.null, .black⟩
  else g

def gcRemoveZobjFromBuffer (g : GcState Z O) (handle : O) : GcState Z O :=
  if g.address (.inr handle) ≠ .null ∧ ¬ g.gcActive then
    (gcRemoveFromBuffer g (g.address (.inr handle))).setBuffered (.inr handle) ⟨.null, .black⟩
  else g

end slots

section machine

variable [DecidableEq Z] [DecidableEq O] [Fintype Z]

/-- The passes of `gc_collect_cycles`; the rest of it is left on the stack. -/
def Machine.gcCollectCycles (m : Machine Z O) : Option (Machine Z O) :=
  if m.g.rootsNext ≠ .roots then
    if m.g.gcActive then some m
    else do
      let g ← gcPasses m.heap (Fintype.card Z + 1) m.g
      let orig : Saved Z := ⟨g.freeList, g.nextToFree⟩
      let g := { g with freeList := g.zvalToFree, zvalToFree := .null, gcActive := false }
      some { m with g, stack := .destructors g.freeList orig :: m.stack }
  else some m

/-- What the two functions do with a value that is not purple and has no address. -/
def Machine.buffer (m : Machine Z O) (zv : Z) (n : Node Z O) : Option (Machine Z O) :=
  if m.g.color n ≠ .purple ∧ m.g.address n = .null then
    match m.g.takeSlot with
    | some (newRoot, g) => some { m with g := g.linkRoot newRoot n }
    | none =>
      if m.g.gcEnabled then
        Machine.gcCollectCycles
          { m with g := m.g.addRef (.inl zv), stack := .possibleRoot zv n :: m.stack }
      else some m
  else some m

/-- What is buffered after the collection: `gc_zobj_possible_root` reads the handle of its argument
again, which is undefined if the argument is no object any more. -/
def Machine.targetAfter (m : Machine Z O) (zv : Z) : Node Z O → Option (Node Z O)
  | .inl pz => some (.inl pz)
  | .inr _ =>
    match m.heap.kind zv with
    | .object handle => some (.inr handle)
    | _ => none

/-- The rest of the two functions, after the collection. -/
def Machine.bufferAfter (m : Machine Z O) (zv : Z) (n : Node Z O) : Option (Machine Z O) :=
  let g := m.g.delRef (.inl zv)
  match g.unused with
  | .slot newRoot =>
    (m.targetAfter zv n).map fun n =>
      { m with g := { g with unused := (g.buf newRoot).prev }.linkRoot newRoot n }
  | _ => some { m with g }

def Machine.gcZobjPossibleRoot (m : Machine Z O) (zv : Z) (handle : O) : Option (Machine Z O) :=
  if (m.heap.getGc handle).isNone ∨ ¬ m.heap.objectBuckets then some m
  else m.buffer zv (.inr handle)

def Machine.gcZvalPossibleRoot (m : Machine Z O) (zv : Z) : Option (Machine Z O) :=
  if m.g.freeList ≠ .null ∧ m.g.address (.inl zv) ≠ .null ∧ m.g.color (.inl zv) = .black ∧
      (m.g.address (.inl zv)).outside then
    -- garbage that is going to be deleted by the running collection
    some m
  else
    match m.heap.kind zv with
    | .object handle =>
      if m.heap.objectBuckets ∧ m.heap.valid handle then m.gcZobjPossibleRoot zv handle
      else some m
    | _ => m.buffer zv (.inl zv)

/-- The object of a zval on the list to free, if nothing else refers to it. -/
def Machine.garbageObject (m : Machine Z O) (z : Z) : Option O :=
  match m.heap.kind z with
  | .object handle =>
    if m.heap.objectBuckets ∧ m.heap.valid handle ∧ m.g.refcount (.inr handle) = 0 then some handle
    else none
  | _ => none

/-- `Z_TYPE(p->z) = IS_NULL`. -/
def Heap.setNull (heap : Heap Z O) (z : Z) : Heap Z O :=
  { heap with kind := update heap.kind z .other }

/-- One step of the function on top of the stack; `below` is the rest of the stack. -/
def Machine.goOn (m : Machine Z O) (below : List (Call Z O)) : Call Z O → Option (Machine Z O)
  | .program => none
  | .possibleRoot zv n => Machine.bufferAfter { m with stack := below } zv n
  | .destructors p orig =>
    match p with
    | .freeListEnd => some { m with stack := .destroy m.g.freeList orig :: below }
    | .zval z =>
      match m.garbageObject z with
      | some handle =>
        if m.dtor handle ∧ ¬ m.destructorCalled handle then
          some { m with
            destructorCalled := update m.destructorCalled handle true
            g := m.g.addRef (.inr handle)
            stack := .program :: .destructed p handle orig :: below }
        else some { m with stack := .destructors (m.g.after p) orig :: below }
      | none => some { m with stack := .destructors (m.g.after p) orig :: below }
    | _ => none
  | .destructed p handle orig =>
    some { m with g := m.g.delRef (.inr handle)
                  stack := .destructors (m.g.after p) orig :: below }
  | .destroy p orig =>
    match p with
    | .freeListEnd => some { m with stack := .free m.g.freeList orig :: below }
    | .zval z =>
      let m := { m with g := { m.g with nextToFree := m.g.after p } }
      match m.heap.kind z with
      | .object _ =>
        match m.garbageObject z with
        | some handle =>
          -- `zend_objects_store_del_ref_by_handle_ex` may run any code
          some { m with
            heap := m.heap.setNull z
            g := { m.g with refcount := update m.g.refcount (.inr handle) 1 }
            stack := .program :: .destroyed orig :: below }
        | none => some { m with stack := .destroyed orig :: below }
      | _ =>
        -- so may `zend_hash_destroy` and `zval_dtor`
        some { m with heap := m.heap.setNull z, stack := .program :: .destroyed orig :: below }
    | _ => none
  | .destroyed orig => some { m with stack := .destroy m.g.nextToFree orig :: below }
  | .free p orig =>
    match p with
    | .freeListEnd =>
      some { m with g := { m.g with freeList := orig.freeList, nextToFree := orig.nextToFree }
                    stack := below }
    | .zval z =>
      some { m with g := m.g.setBuffered (.inl z) ⟨.null, .black⟩
                    stack := .free (m.g.after p) orig :: below }
    | _ => none

/-- The zvals for which a call in progress holds a reference. -/
def waitingZvals (stack : List (Call Z O)) : List Z :=
  stack.filterMap fun
    | .possibleRoot zv _ => some zv
    | _ => none

variable [Fintype O]

/-- Every reference to a zval is counted: those in the heap, that of a list of zvals to
free, and those of the calls in progress. -/
def Machine.Sound (m : Machine Z O) : Prop :=
  ∀ z, m.heap.graph.edgesFrom Finset.univ (.inl z) +
    (if (m.g.address (.inl z)).outside then 1 else 0) + (waitingZvals m.stack).count z ≤
      (m.g.refcount (.inl z)).toNat

instance (m : Machine Z O) : Decidable m.Sound := by
  unfold Machine.Sound
  infer_instance

/-- The program acts only while it is on top of the stack, and keeps the counts sound. -/
def Machine.step (m : Machine Z O) (label : Label Z O) : Option (Machine Z O) :=
  match m.stack, label with
  | .program :: _, .gcZvalPossibleRoot zv => m.gcZvalPossibleRoot zv
  | .program :: _, .gcZobjPossibleRoot zv =>
    match m.heap.kind zv with
    | .object handle => m.gcZobjPossibleRoot zv handle
    | _ => none
  | .program :: _, .gcRemoveZvalFromBuffer zv =>
    some { m with g := Gc.gcRemoveZvalFromBuffer m.g zv }
  | .program :: _, .gcRemoveZobjFromBuffer handle =>
    if m.heap.objectBuckets then some { m with g := Gc.gcRemoveZobjFromBuffer m.g handle } else none
  | .program :: _, .gcCollectCycles => m.gcCollectCycles
  | .program :: _, .mutate heap dtor destructorCalled refcount =>
    let m' := { m with heap, dtor, destructorCalled, g := { m.g with refcount } }
    if heap.objectBuckets = m.heap.objectBuckets ∧ m'.Sound then some m' else none
  | .program :: below, .return => some { m with stack := below }
  | call :: below, .goOn => m.goOn below call
  | _, _ => none

end machine

end Jonj.Gc
