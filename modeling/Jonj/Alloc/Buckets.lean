import Jonj.Alloc.TreeOps

/-!
# The free lists as a whole

`Holds h lists` says which blocks the free lists of the heap hold: a trie for each bucket of large
sizes and a ring for each small size. Adding and removing a block keep this up, whatever list the
block is in. The list of the rest blocks is filled by `zend_mm_add_to_rest_list` only, which is not
used here.
-/
namespace Jonj.Alloc

open BitTrie Circular FreeLists List Function

/-! ### Sizes and their bits -/

variable {index : Nat}

theorem sizeBit_eq {size d : Nat} (small : index < 64) (less : d < index) :
    sizeBit index size d = size.testBit (index - 1 - d) := by
  have shift : 64 - index + d ≤ 63 := by omega
  have place : 63 - (64 - index + d) = index - 1 - d := by omega
  rw [sizeBit, topBit, numBuckets, Nat.testBit_mod_two_pow, Nat.testBit_mul_two_pow, place]
  simp [shift]

variable {i : Nat}

private theorem testBit_above {size : Nat} (above : size.log2 < i) : size.testBit i = false := by
  apply Nat.testBit_lt_two_pow
  calc size < 2 ^ (size.log2 + 1) := Nat.lt_log2_self
    _ ≤ 2 ^ i := Nat.pow_le_pow_right (by omega) above

/-- Sizes of one bucket that agree on a bit as the tree reads it agree on that bit. -/
theorem testBit_eq {x y : Nat} (small : index < 64) (high : x.log2 = index) (high' : y.log2 = index)
    (positive : x ≠ 0) (positive' : y ≠ 0)
    (agree : i < index → sizeBit index x (index - 1 - i) = sizeBit index y (index - 1 - i)) :
    x.testBit i = y.testBit i := by
  rcases Nat.lt_trichotomy i index with below | rfl | above
  · have same := agree below
    rw [sizeBit_eq small (by omega), sizeBit_eq small (by omega)] at same
    rwa [show index - 1 - (index - 1 - i) = i by omega] at same
  · rw [← high, Nat.testBit_log2 positive, high, ← high', Nat.testBit_log2 positive']
  · rw [testBit_above (by omega), testBit_above (by omega)]

theorem log2_lt_of_lt {size : Nat} (bound : size < 2 ^ 64) : size.log2 < 64 := by
  by_cases zero : size = 0
  · rw [zero]
    decide
  · exact (Nat.log2_lt zero).mpr bound

/-! ### What the lists hold -/

@[ext] structure Lists where
  large : Nat → Trie Addr
  small : Nat → List Addr

namespace Lists

def empty : Lists := ⟨fun _ => .nil, fun _ => []⟩

structure Absent (lists : Lists) (a : Addr) : Prop where
  large : ∀ i, a ∉ (lists.large i).elements
  small : ∀ i, a ∉ lists.small i

/-- The lists after a block of the given size was added. -/
def add (lists : Lists) (size : Addr → Nat) (a : Addr) : Lists :=
  if maxSmallSize ≤ size a then
    let index := zendMmHighBit (size a)
    { lists with large :=
        Function.update lists.large index (Trie.insert size (sizeBit index) a 0
          (lists.large index)) }
  else
    let index := bucketIndex (size a)
    { lists with small := Function.update lists.small index (a :: lists.small index) }

def remove (lists : Lists) (a : Addr) : Lists where
  large := fun i => if a ∈ (lists.large i).elements then (lists.large i).remove a else lists.large i
  small := fun i => (lists.small i).erase a

end Lists

/-- The trees of the large blocks and their bitmap. -/
structure HoldsLarge (h : FreeLists) (large : Nat → Trie Addr) : Prop where
  tree : ∀ i, Tree h (.bucket i) (large i)
  valid : ∀ i, Trie.Valid h.freeBlockSize (sizeBit i) 0 (large i)
  nodup : ∀ i, (large i).elements.Nodup
  size : ∀ i, ∀ a ∈ (large i).elements,
    maxSmallSize ≤ h.freeBlockSize a ∧ h.freeBlockSize a < 2 ^ 64 - 1 ∧
      zendMmHighBit (h.freeBlockSize a) = i
  bitmap : ∀ i < 64, h.largeFreeBitmap.getLsbD i = true ↔ large i ≠ .nil

/-- The rings of the small blocks. A bit of their bitmap that is set belongs to a ring with blocks
in it. -/
structure HoldsSmall (h : FreeLists) (small : Nat → List Addr) : Prop where
  ring : ∀ i, Ring h.nextFreeBlock h.prevFreeBlock (.small i :: (small i).map .block)
  nodup : ∀ i, (small i).Nodup
  size : ∀ i, ∀ a ∈ small i, h.freeBlockSize a < maxSmallSize ∧ bucketIndex (h.freeBlockSize a) = i
  bitmap : ∀ i < 64, h.freeBitmap.getLsbD i = true → small i ≠ []

structure Holds (h : FreeLists) (lists : Lists) : Prop where
  large : HoldsLarge h lists.large
  small : HoldsSmall h lists.small

variable {inside : List FreePtr} {large : Nat → Trie Addr} {a : Addr} {head : FreePtr}
    {l : List Addr}

section

variable {h h' : FreeLists} {lists : Lists}

theorem HoldsLarge.height (holds : HoldsLarge h large) (i : Nat) :
    (large i).height ≤ numBuckets := by
  by_cases empty : (large i).elements = []
  · rw [Trie.eq_nil_of_elements (holds.valid i) empty]
    exact Nat.zero_le _
  obtain ⟨a, member⟩ := exists_mem_of_ne_nil _ empty
  have index : i < 64 := by
    obtain ⟨_, bound, high⟩ := holds.size i a member
    rw [← high]
    exact log2_lt_of_lt (by omega)
  have bound := @Trie.height_le Addr h.freeBlockSize (sizeBit i) i 0 (large i)
    (holds.valid i) (by omega)
    (fun _ _ _ _ e less => absurd less (by omega))
    (fun a memberA b memberB agree => by
      obtain ⟨largeA, _, highA⟩ := holds.size i a memberA
      obtain ⟨largeB, _, highB⟩ := holds.size i b memberB
      simp only [maxSmallSize, numBuckets, alignedMinHeaderSize] at largeA largeB
      exact Nat.eq_of_testBit_eq fun k => testBit_eq index highA highB (by omega)
        (by omega) fun less => agree _ (by omega))
  rw [numBuckets]
  omega

theorem HoldsLarge.index_eq (holds : HoldsLarge h large) {j : Nat}
    (inI : a ∈ (large i).elements) (inJ : a ∈ (large j).elements) : i = j :=
  (holds.size i a inI).2.2.symm.trans (holds.size j a inJ).2.2

/-- A change inside one bucket of large blocks does not touch a ring with a head. -/
theorem Frame.ring {inside : List Addr} {s : Slot} (frame : Frame h h' inside s)
    (ring : Ring h.nextFreeBlock h.prevFreeBlock (head :: l.map .block))
    (other : ∀ a, head ≠ .block a) (apart : ∀ a ∈ l, a ∉ inside) :
    Ring h'.nextFreeBlock h'.prevFreeBlock (head :: l.map .block) := by
  have outside : ∀ p ∈ head :: l.map .block, ∀ q ∈ inside, p ≠ .block q := by
    rintro p member q isInside rfl
    rcases mem_cons.mp member with isHead | later
    · exact other q isHead.symm
    · obtain ⟨b, inRing, same⟩ := mem_map.mp later
      cases same
      exact apart _ inRing isInside
  exact ring_congr ring (fun p member => frame.next p (outside p member)) fun p member =>
    frame.prev p (outside p member)

theorem HoldsSmall.frame {small : Nat → List Addr} {inside : List Addr} {s : Slot}
    (holds : HoldsSmall h small) (frame : Frame h h' inside s)
    (apart : ∀ i, ∀ a ∈ small i, a ∉ inside) : HoldsSmall h' small := by
  refine ⟨fun i => frame.ring (holds.ring i) (by simp) (apart i), holds.nodup, ?_, ?_⟩
  · intro i a member
    rw [freeBlockSize, frame.size]
    exact holds.size i a member
  · intro i less set
    rw [frame.freeBitmap] at set
    exact holds.bitmap i less set

theorem Holds.not_large (holds : Holds h lists) {j : Nat} (small : a ∈ lists.small j) :
    a ∉ (lists.large i).elements :=
  fun large => absurd (holds.small.size j a small).1 (Nat.not_lt.mpr (holds.large.size i a large).1)

/-- The lists after one bucket of large blocks has changed, in its own blocks and in blocks that are
in no list. -/
theorem Holds.setLarge {inside : List Addr} {t : Trie Addr} (holds : Holds h lists)
    (frame : Frame h h' inside (.bucket index)) (tree : Tree h' (.bucket index) t)
    (own : ∀ a ∈ inside, a ∈ (lists.large index).elements ∨ lists.Absent a)
    (valid : Trie.Valid h.freeBlockSize (sizeBit index) 0 t) (nodup : t.elements.Nodup)
    (size : ∀ a ∈ t.elements, maxSmallSize ≤ h.freeBlockSize a ∧ h.freeBlockSize a < 2 ^ 64 - 1 ∧
      zendMmHighBit (h.freeBlockSize a) = index)
    (bitmap : ∀ i < 64, h'.largeFreeBitmap.getLsbD i = true ↔
      Function.update lists.large index t i ≠ .nil) :
    Holds h' { lists with large := Function.update lists.large index t } := by
  have sizes : h'.freeBlockSize = h.freeBlockSize := by
    funext a
    simp only [freeBlockSize, frame.size]
  have apart : ∀ a ∈ inside, (∀ i, i ≠ index → a ∉ (lists.large i).elements) ∧
      ∀ i, a ∉ lists.small i := by
    intro a member
    rcases own a member with here | absent
    · exact ⟨fun i other inI => other (holds.large.index_eq inI here), fun i small =>
        holds.not_large small here⟩
    · exact ⟨fun i _ => absent.large i, absent.small⟩
  have everywhere := fun P here there => (@forall_update_iff _ _ _ lists.large index t P).mpr
    ⟨here, there⟩
  refine ⟨⟨everywhere (fun i t => Tree h' (.bucket i) t) tree fun i other => ?_, ?_, ?_,
    ?_, bitmap⟩,
    holds.small.frame frame fun i a small inside => (apart a inside).2 i small⟩
  · exact frame.tree (holds.large.tree i) (fun a inI inside => (apart a inside).1 i other inI)
      (by simpa using other)
      (by rintro _ _ _ ⟨⟩) (by simp)
  · rw [sizes]
    exact everywhere (fun i t => Trie.Valid h.freeBlockSize (sizeBit i) 0 t) valid fun i _ =>
      holds.large.valid i
  · exact everywhere (fun _ t => t.elements.Nodup) nodup fun i _ => holds.large.nodup i
  · rw [sizes]
    exact everywhere (fun i t => ∀ a ∈ t.elements, maxSmallSize ≤ h.freeBlockSize a ∧
      h.freeBlockSize a < 2 ^ 64 - 1 ∧
      zendMmHighBit (h.freeBlockSize a) = i) size fun i _ => holds.large.size i

/-! ### Adding a block -/

theorem getLsbD_setBit (bitmap : BitVec 64) (less : i < 64) :
    (bitmap ||| BitVec.twoPow 64 index).getLsbD i = true ↔ bitmap.getLsbD i = true ∨ i = index := by
  rw [BitVec.getLsbD_or, BitVec.getLsbD_twoPow, Bool.or_eq_true, Bool.and_eq_true,
    decide_eq_true_eq, decide_eq_true_eq]
  constructor
  · rintro (old | ⟨_, same⟩)
    · exact .inl old
    · exact .inr same.symm
  · rintro (old | rfl)
    · exact .inl old
    · exact .inr ⟨less, rfl⟩

theorem getLsbD_clear (bitmap : BitVec 64) (less : i < 64) :
    (bitmap &&& ~~~ BitVec.twoPow 64 index).getLsbD i = true ↔ bitmap.getLsbD i = true ∧
      i ≠ index := by
  rw [BitVec.getLsbD_and, BitVec.getLsbD_not, BitVec.getLsbD_twoPow]
  simp only [less, decide_true, Bool.true_and, Bool.and_eq_true, Bool.not_eq_true',
    Bool.and_eq_false_imp,
    decide_eq_true_eq, decide_eq_false_iff_not]
  constructor
  · rintro ⟨set, other⟩
    exact ⟨set, fun same => other (same ▸ less) same.symm⟩
  · rintro ⟨set, other⟩
    exact ⟨set, fun _ same => other same.symm⟩

/-- The writes that empty the children of a new block are invisible in the lists. -/
theorem clearChildren_frame (h : FreeLists) (a : Addr) (s : Slot) :
    Frame h ((h.store (.child a true) none).store (.child a false) none) [a] s := by
  refine ⟨by simp, by simp, by simp, ?_, by simp, by simp, by simp⟩
  intro s' _ other
  simp [other a (by simp)]

theorem Frame.setLargeFreeBitmap {inside : List Addr} {s : Slot} (frame : Frame h h' inside s)
    (bitmap : BitVec 64) :
    Frame h { h' with largeFreeBitmap := bitmap } inside s :=
  ⟨frame.parent, frame.next, frame.prev, fun s' different other => by
    rw [← frame.load s' different other]
    cases s' <;> rfl, frame.size, frame.freeBitmap, frame.restCount⟩

private theorem insert_ne_nil (key : Addr → Nat) (bit : Nat → Nat → Bool) (a : Addr) (d : Nat)
    (t : Trie Addr) :
    Trie.insert key bit a d t ≠ .nil := by
  intro nil
  have member := (@Trie.mem_elements_insert _ key bit a a d t).mpr (.inl rfl)
  rw [nil] at member
  cases member

private theorem add_large (holds : Holds h lists) (absent : lists.Absent a)
    (large : maxSmallSize ≤ h.freeBlockSize a) (bound : h.freeBlockSize a < 2 ^ 64 - 1) :
    ∃ h', h.zendMmAddToFreeList a = some h' ∧ Holds h' (lists.add h.freeBlockSize a) ∧
      h'.size = h.size := by
  set index := zendMmHighBit (h.freeBlockSize a) with isIndex
  set h₁ := (h.store (.child a true) none).store (.child a false) none with cleared
  have frame₁ : Frame h h₁ [a] (.child a true) := clearChildren_frame h a _
  have leaf : ∀ one, h₁.load (.child a one) = none := by
    intro one
    cases one <;> simp [h₁]
  have tree₁ : ∀ i, Tree h₁ (.bucket i) (lists.large i) := by
    intro i
    refine frame₁.tree (holds.large.tree i) ?_ (by simp) (by rintro _ _ _ ⟨⟩) ?_
    · intro b member isA
      exact absent.large i (mem_singleton.mp isA ▸ member)
    · rintro b member one ⟨⟩
      exact absent.large i member
  have outside : SlotOutside (.bucket index) (a :: (lists.large index).elements) := by
    rintro _ _ _ ⟨⟩
  -- the tree of the bucket
  have added : ∃ h₂, h.zendMmAddToFreeList a = some h₂ ∧
      Tree h₂ (.bucket index) (Trie.insert h.freeBlockSize (sizeBit index) a 0
        (lists.large index)) ∧
      Frame h₁ h₂ (a :: (lists.large index).elements) (.bucket index) ∧
      ∀ i < 64, h₂.largeFreeBitmap.getLsbD i = true ↔ h.largeFreeBitmap.getLsbD i = true ∨
        i = index := by
    rw [zendMmAddToFreeList, if_pos large]
    simp only [← cleared, ← isIndex]
    have treeI := tree₁ index
    by_cases empty : lists.large index = .nil
    · rw [empty] at treeI outside ⊢
      have free : h₁.load (.bucket index) = none := treeI
      simp only [free]
      refine ⟨_, rfl, tree_congr (link_tree leaf outside) rfl fun _ _ =>
        ⟨rfl, rfl, rfl, fun _ => rfl⟩,
        (link_frame h₁ _ a).setLargeFreeBitmap _, ?_⟩
      intro i less
      exact getLsbD_setBit _ less
    · obtain ⟨q, taken⟩ := treeI.exists_load empty
      simp only [taken]
      obtain ⟨h₂, ends, tree₂, frame₂, bitmap⟩ := @addLoop_spec h₁ a index 0 numBuckets _ _
        treeI empty (nodup_cons.mpr ⟨absent.large _, holds.large.nodup _⟩) leaf outside
          (holds.large.height _)
      refine ⟨h₂, ends, tree₂, frame₂, ?_⟩
      intro i less
      rw [bitmap]
      refine ⟨.inl, ?_⟩
      rintro (old | rfl)
      · exact old
      · exact (holds.large.bitmap _ less).mpr empty
  obtain ⟨h₂, ends, tree₂, frame₂, bitmap⟩ := added
  have frame : Frame h h₂ (a :: (lists.large index).elements) (.bucket index) :=
    (frame₁.mono (by simp) (.inr ⟨a, by simp, true, rfl⟩)).trans frame₂
  have perm := @Trie.elements_insert _ h.freeBlockSize (sizeBit index) a 0 (lists.large index)
  have lists' : lists.add h.freeBlockSize a = { lists with
      large := Function.update lists.large index
        (Trie.insert h.freeBlockSize (sizeBit index) a 0 (lists.large index)) } :=
    if_pos large
  refine ⟨h₂, ends, ?_, frame.size⟩
  rw [lists']
  refine holds.setLarge frame tree₂ ?_ (Trie.valid_insert (holds.large.valid _)) ?_ ?_ ?_
  · exact forall_mem_cons.mpr ⟨.inr absent, fun b member => .inl member⟩
  · exact perm.nodup_iff.mpr (nodup_cons.mpr ⟨absent.large _, holds.large.nodup _⟩)
  · intro b member
    rcases Trie.mem_elements_insert.mp member with rfl | old
    · exact ⟨large, bound, rfl⟩
    · exact holds.large.size _ b old
  · intro i less
    rw [bitmap i less]
    by_cases here : i = index
    · rw [here, update_self]
      exact iff_of_true (.inr rfl) (insert_ne_nil _ _ _ _ _)
    · rw [update_of_ne here, ← holds.large.bitmap i less]
      exact or_iff_left here

/-! ### Rings with a head -/

/-- Only the links of some pointers, the bitmap of the small sizes and the counter of the rest
blocks have changed. -/
structure LinksFrame (h h' : FreeLists) (inside : List FreePtr) : Prop where
  next : ∀ p, p ∉ inside → h'.nextFreeBlock p = h.nextFreeBlock p
  prev : ∀ p, p ∉ inside → h'.prevFreeBlock p = h.prevFreeBlock p
  parent : h'.parent = h.parent
  load : ∀ s, h'.load s = h.load s
  size : h'.size = h.size
  largeFreeBitmap : h'.largeFreeBitmap = h.largeFreeBitmap

theorem LinksFrame.ring (frame : LinksFrame h h' inside)
    (ring : Ring h.nextFreeBlock h.prevFreeBlock (head :: l.map .block)) (atHead : head ∉ inside)
    (blocks : ∀ a ∈ l, .block a ∉ inside) :
    Ring h'.nextFreeBlock h'.prevFreeBlock (head :: l.map .block) := by
  have apart : ∀ p ∈ head :: l.map .block, p ∉ inside :=
    forall_mem_cons.mpr ⟨atHead, forall_mem_map.mpr blocks⟩
  exact ring_congr ring (fun p member => frame.next p (apart p member)) fun p member =>
    frame.prev p (apart p member)

theorem LinksFrame.sizes (frame : LinksFrame h h' inside) : h'.freeBlockSize = h.freeBlockSize := by
  funext a
  simp only [freeBlockSize, frame.size]

theorem HoldsLarge.links (holds : HoldsLarge h large) (frame : LinksFrame h h' inside)
    (apart : ∀ i, ∀ a ∈ (large i).elements, .block a ∉ inside) : HoldsLarge h' large := by
  refine ⟨fun i => ?_, fun i => ?_, holds.nodup, fun i => ?_, fun i less => ?_⟩
  · refine tree_congr (holds.tree i) (frame.load _) fun a member =>
      ⟨?_, ?_, ?_, fun one => frame.load _⟩
    · rw [frame.parent]
    · exact frame.next _ (apart i a member)
    · exact frame.prev _ (apart i a member)
  · rw [frame.sizes]
    exact holds.valid i
  · rw [frame.sizes]
    exact holds.size i
  · rw [frame.largeFreeBitmap]
    exact holds.bitmap i less

/-- The lists after one small ring has changed, in its own blocks and in blocks that are in no
list. -/
theorem Holds.setSmall (holds : Holds h lists) (frame : LinksFrame h h' inside)
    (heads : ∀ i, i ≠ index → .small i ∉ inside)
    (own : ∀ a, .block a ∈ inside → a ∈ lists.small index ∨ lists.Absent a)
    (ring : Ring h'.nextFreeBlock h'.prevFreeBlock (.small index :: l.map .block)) (nodup : l.Nodup)
    (size : ∀ a ∈ l, h.freeBlockSize a < maxSmallSize ∧ bucketIndex (h.freeBlockSize a) = index)

    (bitmap : ∀ i < 64, h'.freeBitmap.getLsbD i = true →
      Function.update lists.small index l i ≠ []) :
    Holds h' { lists with small := Function.update lists.small index l } := by
  have apart : ∀ a, .block a ∈ inside →
      (∀ i, a ∉ (lists.large i).elements) ∧ ∀ i, i ≠ index → a ∉ lists.small i := by
    intro a member
    rcases own a member with here | absent
    · exact ⟨fun i => holds.not_large here, fun i other twice =>
        other ((holds.small.size i a twice).2.symm.trans (holds.small.size index a here).2)⟩
    · exact ⟨absent.large, fun i _ => absent.small i⟩
  have everywhere := fun P here there => (@forall_update_iff _ _ _ lists.small index l P).mpr
    ⟨here, there⟩
  refine ⟨holds.large.links frame fun i a large inside => (apart a inside).1 i large,
    ⟨?_, ?_, ?_, bitmap⟩⟩
  · exact everywhere (fun i l => Ring h'.nextFreeBlock h'.prevFreeBlock (.small i :: l.map .block))
      ring fun i other =>
      frame.ring (holds.small.ring i) (heads i other) fun a small inside =>
        (apart a inside).2 i other small
  · exact everywhere (fun _ l => l.Nodup) nodup fun i _ => holds.small.nodup i
  · rw [frame.sizes]
    exact everywhere (fun i l => ∀ a ∈ l, h.freeBlockSize a < maxSmallSize ∧
      bucketIndex (h.freeBlockSize a) = i) size
      fun i _ => holds.small.size i

/-- The writes that put a block behind the head of a ring. -/
def joinHead (h : FreeLists) (head : FreePtr) (a : Addr) : FreeLists :=
  let next := h.nextFreeBlock head
  let h := (h.setPrev (.block a) head).setNext (.block a) next
  (h.setPrev next (.block a)).setNext head (.block a)

private theorem joinHead_ring {l : List FreePtr}
    (ring : Ring h.nextFreeBlock h.prevFreeBlock (head :: l)) (nodup : (head :: l).Nodup)
    (new : .block a ∉ head :: l) :
    Ring (joinHead h head a).nextFreeBlock (joinHead h head a).prevFreeBlock
      (head :: .block a :: l) := by
  have notHead : FreePtr.block a ≠ head := fun same => new (by simp [same])
  have nextMem : h.nextFreeBlock head ∈ head :: l := (neighbours_mem ring (by simp)).2
  have notNext : FreePtr.block a ≠ h.nextFreeBlock head := fun same => new (same ▸ nextMem)
  refine ring_insert ring nodup new ?_ ?_ ?_ ?_ ?_ ?_
  · simp [joinHead, setNext, setPrev]
  · simp [joinHead, setNext, setPrev, notHead]
  · simp [joinHead, setNext, setPrev, notNext]
  · simp [joinHead, setNext, setPrev]
  · intro p member
    have other : p ≠ head := fun same => (nodup_cons.mp nodup).1 (same ▸ member)
    have notA : p ≠ .block a := fun same => new (by simp [← same, member])
    simp [joinHead, setNext, setPrev, other, notA]
  · intro p member other
    have notA : p ≠ .block a := fun same => new (same ▸ member)
    simp [joinHead, setNext, setPrev, other, notA]

private theorem joinHead_frame {head : FreePtr} {a : Addr} {l : List FreePtr}
    (ring : Ring h.nextFreeBlock h.prevFreeBlock (head :: l)) :
    LinksFrame h (joinHead h head a) (.block a :: head :: l) := by
  have nextMem : h.nextFreeBlock head ∈ head :: l := (neighbours_mem ring (by simp)).2
  refine ⟨?_, ?_, rfl, ?_, rfl, rfl⟩
  · intro p outside
    simp only [mem_cons, not_or] at outside
    simp [joinHead, setNext, setPrev, outside.1, outside.2.1]
  · intro p outside
    have notNext : p ≠ h.nextFreeBlock head := fun same =>
      outside (mem_cons_of_mem _ (same ▸ nextMem))
    simp only [mem_cons, not_or] at outside
    simp [joinHead, setNext, setPrev, outside.1, notNext]
  · simp [joinHead]

theorem nodup_head (nodup : l.Nodup) (other : ∀ a, head ≠ .block a) :
    (head :: l.map .block).Nodup := by
  refine nodup_cons.mpr ⟨?_, (nodup_map_iff fun _ _ => FreePtr.block.inj).mpr nodup⟩
  intro member
  obtain ⟨a, _, same⟩ := mem_map.mp member
  exact other a same.symm

theorem block_mem_iff (other : ∀ a, head ≠ .block a) : .block a ∈ head :: l.map .block ↔ a ∈ l := by
  simp [(other a).symm]

theorem LinksFrame.setFreeBitmap (frame : LinksFrame h h' inside) (bitmap : BitVec 64) :
    LinksFrame h { h' with freeBitmap := bitmap } inside :=
  ⟨frame.next, frame.prev, frame.parent,
    fun s => by rw [← frame.load s]; cases s <;> rfl, frame.size,
    frame.largeFreeBitmap⟩

private theorem add_small (holds : Holds h lists) (absent : lists.Absent a)
    (small : h.freeBlockSize a < maxSmallSize) :
    ∃ h', h.zendMmAddToFreeList a = some h' ∧ Holds h' (lists.add h.freeBlockSize a) ∧
      h'.size = h.size := by
  set index := bucketIndex (h.freeBlockSize a) with isIndex
  have old := holds.small.ring index
  have nodup : (FreePtr.small index :: (lists.small index).map .block).Nodup :=
    nodup_head (holds.small.nodup index) (by simp)
  have new : FreePtr.block a ∉ FreePtr.small index :: (lists.small index).map .block := by
    rw [block_mem_iff (by simp)]
    exact absent.small index
  have ring := joinHead_ring old nodup new
  have frame₁ := @joinHead_frame h _ a _ old
  -- the bit is set where the ring was empty
  obtain ⟨bitmap, ends, bits⟩ : ∃ bitmap, h.zendMmAddToFreeList a =
      some { joinHead h (.small index) a with freeBitmap := bitmap } ∧
      ∀ i < 64, bitmap.getLsbD i = true → h.freeBitmap.getLsbD i = true ∨ i = index := by
    rw [zendMmAddToFreeList, if_neg (Nat.not_le.mpr small)]
    simp only [← isIndex]
    by_cases empty : h.prevFreeBlock (.small index) = .small index
    · rw [if_pos empty]
      exact ⟨h.freeBitmap ||| BitVec.twoPow 64 index, rfl, fun i less set =>
        (getLsbD_setBit _ less).mp set⟩
    · rw [if_neg empty]
      exact ⟨h.freeBitmap, rfl, fun i _ set => .inl set⟩
  have frame := frame₁.setFreeBitmap bitmap
  have lists' : lists.add h.freeBlockSize a =
      { lists with small := Function.update lists.small index (a :: lists.small index) } :=
    if_neg (Nat.not_le.mpr small)
  refine ⟨_, ends, ?_, frame.size⟩
  rw [lists']
  refine holds.setSmall frame (fun i other => by simp [other]) ?_ ring ?_ ?_ ?_
  · intro b inside
    rcases mem_cons.mp inside with same | inRing
    · cases same
      exact .inr absent
    · exact .inl ((block_mem_iff (by simp)).mp inRing)
  · exact nodup_cons.mpr ⟨absent.small index, holds.small.nodup index⟩
  · intro b member
    rcases mem_cons.mp member with rfl | old
    · exact ⟨small, rfl⟩
    · exact holds.small.size index b old
  · intro i less set
    by_cases here : i = index
    · rw [here, update_self]
      exact cons_ne_nil _ _
    · rw [update_of_ne here]
      exact holds.small.bitmap i less ((bits i less set).resolve_right here)

/-! ### Removing a block -/

section

variable (holds : Holds h lists)

include holds

theorem Holds.remove_of_large (member : a ∈ (lists.large i).elements) :
    lists.remove a =
      { lists with large := Function.update lists.large i ((lists.large i).remove a) } := by
  have notSmall : ∀ j, a ∉ lists.small j := fun j inSmall =>
    absurd (holds.small.size j a inSmall).1 (Nat.not_lt.mpr (holds.large.size i a member).1)
  have large : (lists.remove a).large = Function.update lists.large i
      ((lists.large i).remove a) := by
    funext j
    simp only [Lists.remove]
    by_cases here : j = i
    · rw [here, if_pos member, update_self]
    · rw [if_neg fun inside => here (holds.large.index_eq inside member), update_of_ne here]
  have small : (lists.remove a).small = lists.small := funext fun j => erase_of_not_mem (notSmall j)
  exact Lists.ext large small

theorem Holds.remove_of_small (member : a ∈ lists.small i) :
    lists.remove a =
      { lists with small := Function.update lists.small i ((lists.small i).erase a) } := by
  have notLarge : ∀ j, a ∉ (lists.large j).elements := fun j inLarge =>
    absurd (holds.small.size i a member).1 (Nat.not_lt.mpr (holds.large.size j a inLarge).1)
  have large : (lists.remove a).large = lists.large := funext fun j => if_neg (notLarge j)
  have small : (lists.remove a).small = Function.update lists.small i
      ((lists.small i).erase a) := by
    funext j
    simp only [Lists.remove]
    by_cases here : j = i
    · rw [here, update_self]
    · rw [update_of_ne here, erase_of_not_mem]
      exact fun inside => here ((holds.small.size j a inside).2.symm.trans
        (holds.small.size i a member).2)
  exact Lists.ext large small

abbrev FreeLists.Removes (h : FreeLists) (lists : Lists) (a : Addr) : Prop :=
  ∃ h', h.zendMmRemoveFromFreeList a = some h' ∧ Holds h' (lists.remove a) ∧ h'.size = h.size

private theorem remove_large (member : a ∈ (lists.large i).elements)  : h.Removes lists a := by
  obtain ⟨large, bound, high⟩ := holds.large.size i a member
  obtain ⟨h', ends, tree, frame, bitmap⟩ :=
    remove_tree (holds.large.tree i) member (holds.large.nodup i)
    (by rintro _ _ _ ⟨⟩) (holds.large.height i) large
  rw [high] at bitmap
  have perm := Trie.elements_remove member
  have nodup := perm.nodup_iff.mp (holds.large.nodup i)
  refine ⟨h', ends, ?_, frame.size⟩
  rw [holds.remove_of_large member]
  refine holds.setLarge frame tree (fun b => .inl) (Trie.valid_remove (holds.large.valid i) member)
    (nodup_cons.mp nodup).2 ?_ ?_
  · exact fun b inside => holds.large.size i b (Trie.remove_subset member inside)
  · intro j less
    rw [bitmap, clearBit]
    have nonempty : lists.large i ≠ .nil := by
      intro nil
      rw [nil] at member
      cases member
    by_cases here : j = i
    · subst here
      rw [update_self]
      by_cases nil : (lists.large j).remove a = .nil
      · simp [nil]
      · rw [if_neg fun both => nil both.2, holds.large.bitmap j less]
        exact iff_of_true nonempty nil
    rw [update_of_ne here, ← holds.large.bitmap j less]
    split
    · rw [getLsbD_clear _ less]
      exact and_iff_left here
    · rfl

end

private theorem unlink_head (other : ∀ a, head ≠ .block a)
    (ring : Ring h.nextFreeBlock h.prevFreeBlock (head :: l.map .block)) (nodup : l.Nodup)
    (member : a ∈ l) :
    Ring (unlink h (.block a)).nextFreeBlock (unlink h (.block a)).prevFreeBlock
      (head :: (l.erase a).map .block) ∧
      LinksFrame h (unlink h (.block a)) (head :: l.map .block) ∧
        h.prevFreeBlock (.block a) ≠ .block a := by
  have nodup' := nodup_head nodup other
  have inRing : FreePtr.block a ∈ head :: l.map .block := (block_mem_iff other).mpr member
  have neighbours := neighbours_mem ring inRing
  refine ⟨?_, ?_, ?_⟩
  · obtain ⟨us, vs, rfl⟩ := append_of_mem member
    have notBefore : a ∉ us := fun inside => (nodup_append.mp nodup).2.2 a inside a (by simp) rfl
    rw [erase_append_right _ notBefore]
    have shrunk := @unlink_ring h head (.block a) (us.map .block) (vs.map .block)
      (by simpa using ring)
      (by simpa using nodup')
    simpa using shrunk
  · refine ⟨fun p outside => unlink_next ?_, fun p outside => unlink_prev ?_,
      rfl, by simp, rfl, rfl⟩
    · rintro rfl
      exact outside neighbours.1
    · rintro rfl
      exact outside neighbours.2
  · exact company_of_ring ring nodup' inRing
      (ne_nil_of_mem (mem_map_of_mem (f := FreePtr.block) member))

private theorem remove_small (holds : Holds h lists) (member : a ∈ lists.small i) :
    h.Removes lists a := by
  obtain ⟨small, index⟩ := holds.small.size i a member
  have old := holds.small.ring i
  obtain ⟨ring, frame₁, company⟩ := unlink_head (by simp) old (holds.small.nodup i) member
  have inRing : FreePtr.block a ∈ FreePtr.small i :: (lists.small i).map .block :=
    (block_mem_iff (by simp)).mpr member
  -- an emptied ring loses its bit
  obtain ⟨bitmap, ends, bits⟩ : ∃ bitmap, h.zendMmRemoveFromFreeList a =
      some { unlink h (.block a) with freeBitmap := bitmap } ∧
      ∀ j < 64, bitmap.getLsbD j = true → h.freeBitmap.getLsbD j = true ∧
        (j = i → (lists.small i).erase a ≠ []) := by
    rw [remove_small_eq old inRing company small, index]
    by_cases alone : (lists.small i).erase a = []
    · have single : lists.small i = [a] := by
        have perm := perm_cons_erase member
        rw [alone] at perm
        exact perm_singleton.mp perm
      rw [alone] at ring
      have prevA : h.prevFreeBlock (.block a) = .small i := by
        rw [single] at old
        exact old.1.2
      have nextA : h.nextFreeBlock (.block a) = .small i := by
        rw [single] at old
        exact old.2.1
      rw [if_pos ⟨prevA.trans nextA.symm, ring.2.trans ring.1.symm⟩]
      refine ⟨_, rfl, fun j less set => ?_⟩
      obtain ⟨was, other⟩ := (getLsbD_clear _ less).mp set
      exact ⟨was, fun here => absurd here other⟩
    · split
      · exact ⟨_, rfl, fun j less set => ⟨((getLsbD_clear _ less).mp set).1, fun _ => alone⟩⟩
      · exact ⟨h.freeBitmap, rfl, fun j _ set => ⟨set, fun _ => alone⟩⟩
  have frame := frame₁.setFreeBitmap bitmap
  refine ⟨_, ends, ?_, frame.size⟩
  rw [holds.remove_of_small member]
  refine holds.setSmall frame (fun j other => by simp [other])
    (fun b inside => .inl ((block_mem_iff (by simp)).mp inside)) ring
      ((holds.small.nodup i).erase a) ?_ ?_
  · exact fun b inside => holds.small.size i b (mem_of_mem_erase inside)
  · intro j less set
    obtain ⟨was, left⟩ := bits j less set
    by_cases here : j = i
    · rw [here, update_self]
      exact left here
    · rw [update_of_ne here]
      exact holds.small.bitmap j less was

/-! ### Either list -/

theorem add_spec (holds : Holds h lists) (absent : lists.Absent a)
    (bound : h.freeBlockSize a < 2 ^ 64 - 1) :
    ∃ h', h.zendMmAddToFreeList a = some h' ∧ Holds h' (lists.add h.freeBlockSize a) ∧
      h'.size = h.size := by
  by_cases large : maxSmallSize ≤ h.freeBlockSize a
  · exact add_large holds absent large bound
  · exact add_small holds absent (Nat.not_le.mp large)

theorem remove_spec (holds : Holds h lists) (listed : ¬ lists.Absent a)  : h.Removes lists a := by
  by_cases large : ∃ i, a ∈ (lists.large i).elements
  · obtain ⟨i, member⟩ := large
    exact remove_large holds member
  by_cases small : ∃ i, a ∈ lists.small i
  · obtain ⟨i, member⟩ := small
    exact remove_small holds member
  exact absurd ⟨fun i inside => large ⟨i, inside⟩, fun i inside => small ⟨i, inside⟩⟩ listed

end

end Jonj.Alloc
