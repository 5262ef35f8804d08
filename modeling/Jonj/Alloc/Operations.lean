import Jonj.Alloc.Search

/-!
# Runs of adds and removes

A run starts with the lists of a new heap and adds and removes blocks, as the allocator does when it
frees and takes them. A block gets its size when it is added; it is added when it is in no list, and
removed when it is in one. Every such run goes through, and what the search returns afterwards is
said in terms of the blocks that the run has left in the lists.
-/
namespace Jonj.Alloc

open BitTrie Circular FreeLists List Function

/-- A block of the given size is freed, or a free block is taken. -/
inductive FreeOp
  | add (a : Addr) (size : Nat)
  | remove (a : Addr)
  deriving DecidableEq, Repr

namespace FreeOp

/-- The free blocks and their sizes after an operation. -/
def held (blocks : List (Addr × Nat)) : FreeOp → List (Addr × Nat)
  | add a size => (a, size) :: blocks
  | remove a => blocks.filter fun b => decide (b.1 ≠ a)

/-- A block is added with a size that a block can have, and only if it is not in a list; only free
blocks are removed. -/
def Permitted (blocks : List (Addr × Nat)) : FreeOp → Prop
  | add a size =>
    (∀ b ∈ blocks, b.1 ≠ a) ∧ alignedMinHeaderSize ≤ size ∧ size % 8 = 0 ∧ size < 2 ^ 64
  | remove a => ∃ b ∈ blocks, b.1 = a

instance (blocks : List (Addr × Nat)) (op : FreeOp) : Decidable (Permitted blocks op) := by
  cases op <;> unfold Permitted <;> infer_instance

/-- The shape of the lists after an operation, with the sizes that the blocks have got so far. -/
def lists (state : Lists × (Addr → Nat)) : FreeOp → Lists × (Addr → Nat)
  | add a size =>
    let sizes := update state.2 a size
    (state.1.add sizes a, sizes)
  | remove a => (state.1.remove a, state.2)

end FreeOp

def heldAfter (blocks : List (Addr × Nat)) (ops : List FreeOp) : List (Addr × Nat) :=
  ops.foldl FreeOp.held blocks

def AllPermitted (blocks : List (Addr × Nat)) : List FreeOp → Prop
  | [] => True
  | op :: ops => op.Permitted blocks ∧ AllPermitted (op.held blocks) ops

instance decidableAllPermitted (blocks : List (Addr × Nat)) (ops : List FreeOp) :
    Decidable (AllPermitted blocks ops) := by
  induction ops generalizing blocks with
  | nil => exact isTrue trivial
  | cons op ops ih =>
    unfold AllPermitted
    infer_instance

def listsAfter (state : Lists × (Addr → Nat)) (ops : List FreeOp) : Lists × (Addr → Nat) :=
  ops.foldl FreeOp.lists state

namespace FreeLists

def setSize (h : FreeLists) (a : Addr) (v : Info) : FreeLists :=
  { h with size := update h.size a v }

def apply (h : FreeLists) : FreeOp → Option FreeLists
  | .add a size => (h.setSize a ⟨.free, size⟩).zendMmAddToFreeList a
  | .remove a => h.zendMmRemoveFromFreeList a

def runOps (h : FreeLists) : List FreeOp → Option FreeLists
  | [] => some h
  | op :: ops => (h.apply op).bind fun h => h.runOps ops

end FreeLists

variable {h : FreeLists} {lists : Lists}

private theorem holds_init (memory : FreeLists) : Holds memory.zendMmInit .empty := by
  refine ⟨⟨fun _ => rfl, fun _ => trivial, fun _ => nodup_nil, ?_, ?_⟩,
    ⟨fun _ => ⟨rfl, rfl⟩, fun _ => nodup_nil, ?_, ?_⟩⟩
  · intro i a member
    cases member
  · simp [zendMmInit, Lists.empty]
  · intro i a member
    cases member
  · intro i _ set
    simp [zendMmInit] at set

variable {a : Addr}

theorem Holds.setSize (holds : Holds h lists) (absent : lists.Absent a) (v : Info) :
    Holds (h.setSize a v) lists := by
  have sizes : ∀ b, b ≠ a → (h.setSize a v).freeBlockSize b = h.freeBlockSize b := by
    intro b other
    simp [freeBlockSize, FreeLists.setSize, other]
  refine ⟨⟨fun i => ?_, fun i => ?_, holds.large.nodup, fun i b member => ?_, holds.large.bitmap⟩,
    ⟨holds.small.ring, holds.small.nodup, fun i b member => ?_, holds.small.bitmap⟩⟩
  · exact tree_congr (holds.large.tree i) rfl fun _ _ => ⟨rfl, rfl, rfl, fun _ => rfl⟩
  · refine Trie.valid_congr (holds.large.valid i) fun b member => sizes b ?_
    rintro rfl
    exact absent.large i member
  · rw [sizes b (by rintro rfl; exact absent.large i member)]
    exact holds.large.size i b member
  · rw [sizes b (by rintro rfl; exact absent.small i member)]
    exact holds.small.size i b member

/-- The lists hold the free blocks of the run. -/
structure Follows (h : FreeLists) (state : Lists × (Addr → Nat)) (blocks : List (Addr × Nat)) :
    Prop where
  holds : Holds h state.1
  sizes : h.freeBlockSize = state.2
  listed : ∀ a, ¬ state.1.Absent a ↔ ∃ b ∈ blocks, b.1 = a
  size : ∀ b ∈ blocks, state.2 b.1 = b.2

private theorem absent_add {sizes : Addr → Nat} {b : Addr} :
    (lists.add sizes a).Absent b ↔ lists.Absent b ∧ b ≠ a := by
  by_cases large : maxSmallSize ≤ sizes a
  · rw [Lists.add, if_pos large]
    generalize zendMmHighBit (sizes a) = index
    have inTree : ∀ i, b ∈ (update lists.large index
        (Trie.insert sizes (sizeBit index) a 0 (lists.large index)) i).elements ↔
          b ∈ (lists.large i).elements ∨ i = index ∧ b = a := by
      intro i
      by_cases same : i = index
      · subst same
        simp [Trie.mem_elements_insert, or_comm]
      · simp [same]
    constructor
    · intro absent
      refine ⟨⟨fun i member => absent.large i ((inTree i).mpr (.inl member)), absent.small⟩,
        fun same => ?_⟩
      exact absent.large index ((inTree index).mpr (.inr ⟨rfl, same⟩))
    rintro ⟨absent, other⟩
    refine ⟨fun i member => ?_, absent.small⟩
    rcases (inTree i).mp member with before | ⟨_, same⟩
    · exact absent.large i before
    · exact other same
  · rw [Lists.add, if_neg large]
    generalize bucketIndex (sizes a) = index
    have inRing : ∀ i, b ∈ update lists.small index (a :: lists.small index) i ↔
        b ∈ lists.small i ∨ i = index ∧ b = a := by
      intro i
      by_cases same : i = index
      · subst same
        simp [or_comm]
      · simp [same]
    constructor
    · intro absent
      refine ⟨⟨absent.large, fun i member => absent.small i ((inRing i).mpr (.inl member))⟩,
        fun same => ?_⟩
      exact absent.small index ((inRing index).mpr (.inr ⟨rfl, same⟩))
    rintro ⟨absent, other⟩
    refine ⟨absent.large, fun i member => ?_⟩
    rcases (inRing i).mp member with before | ⟨_, same⟩
    · exact absent.small i before
    · exact other same

private theorem mem_remove_large (holds : Holds h lists) {b : Addr} (i : Nat) :
    b ∈ ((lists.remove a).large i).elements ↔ b ∈ (lists.large i).elements ∧ b ≠ a := by
  simp only [Lists.remove]
  split
  next member =>
    have perm := Trie.elements_remove member
    have nodup := perm.nodup_iff.mp (holds.large.nodup i)
    rw [perm.mem_iff, mem_cons]
    constructor
    · intro inside
      refine ⟨.inr inside, ?_⟩
      rintro rfl
      exact (nodup_cons.mp nodup).1 inside
    · rintro ⟨same | inside, other⟩
      · exact absurd same other
      · exact inside
  next notMember =>
    constructor
    · intro inside
      refine ⟨inside, ?_⟩
      rintro rfl
      exact notMember inside
    · exact fun both => both.1

private theorem absent_remove (holds : Holds h lists) {b : Addr} :
    (lists.remove a).Absent b ↔ lists.Absent b ∨ b = a := by
  have inRing : ∀ i, b ∈ (lists.remove a).small i ↔ b ≠ a ∧ b ∈ lists.small i :=
    fun i => (holds.small.nodup i).mem_erase_iff
  constructor
  · intro absent
    by_cases same : b = a
    · exact .inr same
    refine .inl ⟨fun i member => ?_, fun i member => ?_⟩
    · exact absent.large i ((mem_remove_large holds i).mpr ⟨member, same⟩)
    · exact absent.small i ((inRing i).mpr ⟨same, member⟩)
  · intro which
    refine ⟨fun i member => ?_, fun i member => ?_⟩
    · obtain ⟨inside, other⟩ := (mem_remove_large holds i).mp member
      exact which.elim (fun absent => absent.large i inside) other
    · obtain ⟨other, inside⟩ := (inRing i).mp member
      exact which.elim (fun absent => absent.small i inside) other

variable {state : Lists × (Addr → Nat)} {blocks : List (Addr × Nat)}

private theorem follows_apply {op : FreeOp} (follows : Follows h state blocks)
    (permitted : op.Permitted blocks) :
    ∃ h', h.apply op = some h' ∧ Follows h' (op.lists state) (op.held blocks) := by
  cases op with
  | add a size =>
    obtain ⟨fresh, atLeast, aligned, word⟩ := permitted
    have absent : state.1.Absent a := by
      by_contra listed
      obtain ⟨b, member, same⟩ := (follows.listed a).mp listed
      exact fresh b member same
    have sizes : (h.setSize a ⟨.free, size⟩).freeBlockSize = update state.2 a size := by
      funext b
      rw [← follows.sizes]
      by_cases same : b = a
      · simp [freeBlockSize, FreeLists.setSize, same]
      · simp [freeBlockSize, FreeLists.setSize, same]
    -- an aligned size is not the `-1` that `best_size` starts with
    obtain ⟨h', ends, holds', size'⟩ :=
      add_spec (follows.holds.setSize absent ⟨.free, size⟩) absent (by
      rw [sizes, update_self]
      omega)
    rw [sizes] at holds'
    refine ⟨h', ends, holds', ?_, ?_, ?_⟩
    · refine Eq.trans ?_ sizes
      unfold freeBlockSize
      rw [size']
    · intro b
      simp only [FreeOp.lists, FreeOp.held, absent_add, mem_cons]
      constructor
      · intro listed
        by_cases same : b = a
        · exact ⟨(a, size), .inl rfl, same.symm⟩
        · obtain ⟨c, member, equal⟩ := (follows.listed b).mp fun none => listed ⟨none, same⟩
          exact ⟨c, .inr member, equal⟩
      · rintro ⟨c, rfl | member, rfl⟩ ⟨none, other⟩
        · exact other rfl
        · exact (follows.listed c.1).mpr ⟨c, member, rfl⟩ none
    · intro b member
      simp only [FreeOp.lists, FreeOp.held, mem_cons] at member ⊢
      rcases member with rfl | before
      · simp
      · rw [update_of_ne (fresh b before)]
        exact follows.size b before
  | remove a =>
    obtain ⟨h', ends, holds', size'⟩ := remove_spec follows.holds ((follows.listed a).mpr permitted)
    refine ⟨h', ends, holds', ?_, ?_, ?_⟩
    · unfold freeBlockSize
      rw [size']
      exact follows.sizes
    · intro b
      simp only [FreeOp.lists, FreeOp.held, absent_remove follows.holds, mem_filter,
        decide_eq_true_eq, not_or]
      rw [follows.listed b]
      constructor
      · rintro ⟨⟨c, member, rfl⟩, other⟩
        exact ⟨c, ⟨member, other⟩, rfl⟩
      · rintro ⟨c, ⟨member, other⟩, rfl⟩
        exact ⟨⟨c, member, rfl⟩, other⟩
    · intro b member
      exact follows.size b (mem_filter.mp member).1

theorem follows_run {ops : List FreeOp} (follows : Follows h state blocks)
    (permitted : AllPermitted blocks ops) :
    ∃ h', h.runOps ops = some h' ∧ Follows h' (listsAfter state ops) (heldAfter blocks ops) := by
  induction ops generalizing h state blocks with
  | nil => exact ⟨h, rfl, follows⟩
  | cons op ops ih =>
    obtain ⟨first, later⟩ := permitted
    obtain ⟨h₁, ends, follows₁⟩ := follows_apply follows first
    obtain ⟨h', run, follows'⟩ := ih follows₁ later
    exact ⟨h', by rw [runOps, ends]; exact run, follows'⟩

theorem follows_init (memory : FreeLists) :
    Follows memory.zendMmInit (.empty, memory.freeBlockSize) [] := by
  refine ⟨holds_init memory, rfl, fun a => ?_, by simp⟩
  refine iff_of_false (fun listed => listed ⟨?_, ?_⟩) (by simp)
  · exact fun i => not_mem_nil
  · exact fun i => not_mem_nil

/-- The large blocks of the lists are the free blocks from `ZEND_MM_MAX_SMALL_SIZE` on. -/
theorem Follows.large_iff (follows : Follows h state blocks) :
    (∃ i, a ∈ (state.1.large i).elements) ↔ (a, h.freeBlockSize a) ∈ blocks ∧
      maxSmallSize ≤ h.freeBlockSize a := by
  constructor
  · rintro ⟨i, member⟩
    obtain ⟨b, isBlock, rfl⟩ := (follows.listed a).mp fun absent => absent.large i member
    have size := follows.size b isBlock
    rw [← follows.sizes] at size
    exact ⟨by rw [size]; exact isBlock, (follows.holds.large.size i _ member).1⟩
  rintro ⟨isBlock, large⟩
  by_contra none
  refine (follows.listed a).mpr ⟨_, isBlock, rfl⟩
    ⟨fun i member => none ⟨i, member⟩, fun i member => ?_⟩
  have small := (follows.holds.small.size i a member).1
  omega

/-- The large free blocks after a run. -/
def largeFree (ops : List FreeOp) : List (Addr × Nat) :=
  (heldAfter [] ops).filter fun b => decide (maxSmallSize ≤ b.2)

theorem Follows.mem_largeFree {ops : List FreeOp} (follows : Follows h state (heldAfter [] ops))
    {b : Addr × Nat} :
    b ∈ largeFree ops ↔ (∃ i, b.1 ∈ (state.1.large i).elements) ∧ h.freeBlockSize b.1 = b.2 := by
  rw [largeFree, mem_filter, decide_eq_true_eq, follows.large_iff]
  constructor
  · rintro ⟨isBlock, large⟩
    have size := follows.size b isBlock
    rw [← follows.sizes] at size
    rw [size]
    exact ⟨⟨isBlock, large⟩, rfl⟩
  · rintro ⟨⟨isBlock, large⟩, size⟩
    rw [size] at isBlock large
    exact ⟨isBlock, large⟩

/-- After every run the search returns a large free block that is large enough, and NULL only if
there is none. -/
theorem searchLargeBlock_finds (memory : FreeLists) (ops : List FreeOp)
    (permitted : AllPermitted [] ops) (trueSize : Nat) :
    ∃ h found, memory.zendMmInit.runOps ops = some h ∧
      h.zendMmSearchLargeBlock trueSize = some found ∧
      (∀ q, found = some q → (q, h.freeBlockSize q) ∈ largeFree ops ∧
        trueSize ≤ h.freeBlockSize q) ∧
      (found = none ↔ ∀ b ∈ largeFree ops, b.2 < trueSize) := by
  obtain ⟨h, run, follows⟩ := follows_run (follows_init memory) permitted
  rcases search_sufficient follows.holds.large trueSize with ⟨i, q, member, found,
    enough⟩ | ⟨found, small⟩
  · have isFree : (q, h.freeBlockSize q) ∈ largeFree ops :=
      follows.mem_largeFree.mpr ⟨⟨i, member⟩, rfl⟩
    refine ⟨h, some q, run, found, ?_, ?_⟩
    · intro q' same
      obtain rfl := Option.some.inj same
      exact ⟨isFree, enough⟩
    · refine iff_of_false (by simp) fun tooSmall => ?_
      exact absurd (tooSmall _ isFree) (Nat.not_lt.mpr enough)
  · refine ⟨h, none, run, found, by simp, iff_of_true rfl fun b isFree => ?_⟩
    obtain ⟨⟨i, member⟩, size⟩ := follows.mem_largeFree.mp isFree
    rw [← size]
    exact small i b.1 member

def blank : FreeLists where
  size := fun _ => ⟨.free, 0⟩
  prevFreeBlock := fun _ => .null
  nextFreeBlock := fun _ => .null
  parent := fun _ => .null
  child := fun _ _ => none
  largeFreeBuckets := fun _ => none
  freeBitmap := 0#64
  largeFreeBitmap := 0#64
  restCount := 0

theorem searchLargeBlock_finds_two : ∃ h found,
    blank.zendMmInit.runOps [.add 4096 1000, .add 8192 600] = some h ∧
      h.zendMmSearchLargeBlock 304 = some found ∧
      (∀ q, found = some q → (q, h.freeBlockSize q) ∈ largeFree [.add 4096 1000, .add 8192 600] ∧
        304 ≤ h.freeBlockSize q) ∧
      (found = none ↔ ∀ b ∈ largeFree [.add 4096 1000, .add 8192 600], b.2 < 304) :=
  searchLargeBlock_finds blank [.add 4096 1000, .add 8192 600] (by decide) 304

/-- Of two free blocks with 1000 and 600 bytes, added in this order, the search for 304 bytes
returns the larger one: it is the root of its tree, and the walk does not look at its left child. -/
theorem search_returns_larger : AllPermitted [] [.add 4096 1000, .add 8192 600] ∧
    largeFree [.add 4096 1000, .add 8192 600] = [(8192, 600), (4096, 1000)] ∧
    ((blank.zendMmInit.runOps [.add 4096 1000, .add 8192 600]).bind fun h =>
      h.zendMmSearchLargeBlock 304) =
      some (some 4096) := by
  decide +kernel

/-- After every run the block that the search returns is a smallest one that is large enough, if and
only if the shape of the trees shows such a block to the search. -/
theorem searchLargeBlock_least_iff (memory : FreeLists) (ops : List FreeOp)
    (permitted : AllPermitted [] ops) (trueSize : Nat) :
    ∃ h, memory.zendMmInit.runOps ops = some h ∧
      ((∀ q, h.zendMmSearchLargeBlock trueSize = some (some q) →
          ∀ b ∈ largeFree ops, trueSize ≤ b.2 → h.freeBlockSize q ≤ b.2) ↔
        LeastShown h.freeBlockSize (listsAfter (.empty, memory.freeBlockSize) ops).1.large
          trueSize) := by
  obtain ⟨h, run, follows⟩ := follows_run (follows_init memory) permitted
  refine ⟨h, run, ?_⟩
  rw [← search_least follows.holds.large trueSize]
  refine forall_congr' fun q => forall_congr' fun _ => ?_
  constructor
  · intro least i a member enough
    exact least (a, h.freeBlockSize a) (follows.mem_largeFree.mpr ⟨⟨i, member⟩, rfl⟩) enough
  intro least b isFree enough
  obtain ⟨⟨i, member⟩, size⟩ := follows.mem_largeFree.mp isFree
  rw [← size] at enough ⊢
  exact least i b.1 member enough

theorem searchLargeBlock_least_iff_two :
    ∃ h, blank.zendMmInit.runOps [.add 4096 1000, .add 8192 600] = some h ∧
      ((∀ q, h.zendMmSearchLargeBlock 304 = some (some q) →
          ∀ b ∈ largeFree [.add 4096 1000, .add 8192 600], 304 ≤ b.2 → h.freeBlockSize q ≤ b.2) ↔
            LeastShown h.freeBlockSize
          (listsAfter (.empty, blank.freeBlockSize) [.add 4096 1000, .add 8192 600]).1.large 304) :=
  searchLargeBlock_least_iff blank [.add 4096 1000, .add 8192 600] (by decide) 304

end Jonj.Alloc
