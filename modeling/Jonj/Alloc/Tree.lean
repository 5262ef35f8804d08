import Jonj.Alloc.FreeList
import Jonj.Lib.BitTrie
import Jonj.Lib.Circular

/-!
# The trees of large free blocks

`Tree h s t` says that the pointers behind the slot `s` form the trie `t`: a node is a ring of
blocks of one size, of which only the first one is linked into the tree. Every operation is shown to
do on the pointers what its counterpart does on the trie, and to leave everything else alone.
-/
namespace Jonj.Alloc

open BitTrie Circular FreeLists List

/-! ### Reading after writing -/

section fields

variable (h : FreeLists)

/-- A slot is a bucket or a child of a block; the stores do not overlap. -/
@[simp] theorem load_store (s s' : Slot) (v : Option Addr) :
    (h.store s v).load s' = if s' = s then v else h.load s' := by
  cases s with
  | bucket i =>
    cases s' with
    | bucket j => simp [store, load, Function.update_apply]
    | child p one => simp [store, load]
  | child p one =>
    cases s' with
    | bucket j => simp [store, load]
    | child q other =>
      by_cases same : q = p
      · subst same
        simp [store, load, Function.update_apply]
      · simp [store, load, same]

section

variable (s : Slot) (v : Option Addr)

@[simp] theorem parent_store : (h.store s v).parent = h.parent := by cases s <;> rfl

@[simp] theorem next_store : (h.store s v).nextFreeBlock = h.nextFreeBlock := by
  cases s <;> rfl

@[simp] theorem prev_store : (h.store s v).prevFreeBlock = h.prevFreeBlock := by
  cases s <;> rfl

@[simp] theorem size_store : (h.store s v).size = h.size := by cases s <;> rfl

@[simp] theorem freeBitmap_store : (h.store s v).freeBitmap = h.freeBitmap := by
  cases s <;> rfl

@[simp] theorem largeFreeBitmap_store : (h.store s v).largeFreeBitmap = h.largeFreeBitmap := by
  cases s <;> rfl

@[simp] theorem restCount_store : (h.store s v).restCount = h.restCount := by
  cases s <;> rfl

end

@[simp] theorem load_setParent (p : Addr) (v : Parent) (s : Slot) :
    (h.setParent p v).load s = h.load s := by
  cases s <;> rfl

@[simp] theorem load_setNext (p v : FreePtr) (s : Slot) : (h.setNext p v).load s = h.load s := by
  cases s <;> rfl

@[simp] theorem load_setPrev (p v : FreePtr) (s : Slot) : (h.setPrev p v).load s = h.load s := by
  cases s <;> rfl

theorem child_eq_load (p : Addr) (one : Bool) : h.child p one = h.load (.child p one) := rfl

end fields

/-- Everything but the links of the blocks in `inside`, their slots and the slot `s` is the same. -/
structure Frame (h h' : FreeLists) (inside : List Addr) (s : Slot) : Prop where
  parent : ∀ p, p ∉ inside → h'.parent p = h.parent p
  next : ∀ p, (∀ q ∈ inside, p ≠ .block q) → h'.nextFreeBlock p = h.nextFreeBlock p
  prev : ∀ p, (∀ q ∈ inside, p ≠ .block q) → h'.prevFreeBlock p = h.prevFreeBlock p
  load : ∀ s', s' ≠ s → (∀ q ∈ inside, ∀ one, s' ≠ .child q one) → h'.load s' = h.load s'
  size : h'.size = h.size
  freeBitmap : h'.freeBitmap = h.freeBitmap
  restCount : h'.restCount = h.restCount

variable {h h' : FreeLists} {inside : List Addr} {s : Slot}

/-- A frame may name more blocks, and the slot may belong to one of them. -/
theorem Frame.mono {inside' : List Addr} {s' : Slot} (frame : Frame h h' inside s)
    (subset : ∀ q ∈ inside, q ∈ inside') (slot : s = s' ∨ ∃ q ∈ inside', ∃ one, s = .child q one) :
    Frame h h' inside' s' := by
  refine ⟨?_, ?_, ?_, ?_, frame.size, frame.freeBitmap, frame.restCount⟩
  · exact fun p absent => frame.parent p fun member => absent (subset p member)
  · exact fun p other => frame.next p fun q member => other q (subset q member)
  · exact fun p other => frame.prev p fun q member => other q (subset q member)
  intro s'' different other
  refine frame.load s'' ?_ fun q member => other q (subset q member)
  rcases slot with rfl | ⟨q, member, one, rfl⟩
  · exact different
  · exact other q member one

theorem Frame.trans {h'' : FreeLists} (first : Frame h h' inside s)
    (second : Frame h' h'' inside s) : Frame h h'' inside s := by
  refine ⟨?_, ?_, ?_, ?_, second.size.trans first.size, second.freeBitmap.trans first.freeBitmap,
    second.restCount.trans first.restCount⟩
  · exact fun p absent => (second.parent p absent).trans (first.parent p absent)
  · exact fun p other => (second.next p other).trans (first.next p other)
  · exact fun p other => (second.prev p other).trans (first.prev p other)
  · exact fun s' different other => (second.load s' different other).trans
      (first.load s' different other)

/-! ### Trees -/

/-- The node of a ring: its first block stands in the tree. -/
structure NodeAt (h : FreeLists) (s : Slot) (p : Addr) (others : List Addr) : Prop where
  load : h.load s = some p
  ring : Ring h.nextFreeBlock h.prevFreeBlock ((p :: others).map .block)
  parent : h.parent p = .slot s
  null : ∀ q ∈ others, h.parent q = .null

def Tree (h : FreeLists) : Slot → Trie Addr → Prop
  | s, .nil => h.load s = none
  | s, .node ring left right => ∃ p others, ring = p :: others ∧ NodeAt h s p others ∧
      Tree h (.child p false) left ∧ Tree h (.child p true) right

/-- The fields of a block that a tree depends on. -/
structure SameAt (h h' : FreeLists) (a : Addr) : Prop where
  parent : h'.parent a = h.parent a
  next : h'.nextFreeBlock (.block a) = h.nextFreeBlock (.block a)
  prev : h'.prevFreeBlock (.block a) = h.prevFreeBlock (.block a)
  child : ∀ one, h'.load (.child a one) = h.load (.child a one)

theorem ring_same {ring : List Addr}
    (links : Ring h.nextFreeBlock h.prevFreeBlock (ring.map .block))
    (next : ∀ a ∈ ring, h'.nextFreeBlock (.block a) = h.nextFreeBlock (.block a))
    (prev : ∀ a ∈ ring, h'.prevFreeBlock (.block a) = h.prevFreeBlock (.block a)) :
    Ring h'.nextFreeBlock h'.prevFreeBlock (ring.map .block) := by
  apply ring_congr links
  · intro p member
    obtain ⟨a, inside, rfl⟩ := mem_map.mp member
    exact next a inside
  · intro p member
    obtain ⟨a, inside, rfl⟩ := mem_map.mp member
    exact prev a inside

variable {t : Trie Addr}

/-- A tree depends on its slot and on the fields of its own blocks only. -/
theorem tree_congr (tree : Tree h s t) (slot : h'.load s = h.load s)
    (same : ∀ a ∈ t.elements, SameAt h h' a) : Tree h' s t := by
  induction t generalizing s with
  | nil => exact slot.trans tree
  | node ring left right ihLeft ihRight =>
    obtain ⟨p, others, rfl, node, treeLeft, treeRight⟩ := tree
    simp only [Trie.elements, mem_append] at same
    have atRing : ∀ a ∈ p :: others, SameAt h h' a := fun a member => same a (.inl member)
    have first := atRing p (by simp)
    refine ⟨p, others, rfl, ⟨slot.trans node.load, ?_, first.parent.trans node.parent, ?_⟩, ?_, ?_⟩
    · exact ring_same node.ring (fun a member => (atRing a member).next) fun a member =>
        (atRing a member).prev
    · exact fun q member => (atRing q (by simp [member])).parent.trans (node.null q member)
    · exact ihLeft treeLeft (first.child false) fun a member => same a (.inr (.inl member))
    · exact ihRight treeRight (first.child true) fun a member => same a (.inr (.inr member))

/-- The tree of one slot in another one: only the root gets another parent. -/
theorem tree_move {s' : Slot} (tree : Tree h s t) (slot : h'.load s' = h.load s)
    (root : ∀ p, h.load s = some p → h'.parent p = .slot s')
    (parent : ∀ a ∈ t.elements, h.load s ≠ some a → h'.parent a = h.parent a)
    (next : ∀ a ∈ t.elements, h'.nextFreeBlock (.block a) = h.nextFreeBlock (.block a))
    (prev : ∀ a ∈ t.elements, h'.prevFreeBlock (.block a) = h.prevFreeBlock (.block a))
    (child : ∀ a ∈ t.elements, ∀ one, h'.load (.child a one) = h.load (.child a one))
    (nodup : t.elements.Nodup) :
    Tree h' s' t := by
  cases t with
  | nil => exact slot.trans tree
  | node ring left right =>
    obtain ⟨p, others, rfl, node, treeLeft, treeRight⟩ := tree
    simp only [Trie.elements, cons_append, nodup_cons, mem_cons, mem_append, not_or] at *
    have notRoot : ∀ a, a ≠ p → h.load s ≠ some a := by
      intro a different same
      exact different (Option.some.inj (same.symm.trans node.load))
    have below : ∀ a, a ∈ left.elements ∨ a ∈ right.elements → a ≠ p → SameAt h h' a :=
      fun a member different =>
      have inside := .inr (.inr member)
      ⟨parent a inside (notRoot a different), next a inside, prev a inside, child a inside⟩
    refine ⟨p, others, rfl, ⟨slot.trans node.load, ?_, root p node.load, ?_⟩, ?_, ?_⟩
    · refine ring_same node.ring (fun a member => next a ?_) fun a member => prev a ?_
      all_goals
        rcases mem_cons.mp member with first | later
        · exact .inl first
        · exact .inr (.inl later)
    · intro q member
      refine (parent q (.inr (.inl member)) (notRoot q ?_)).trans (node.null q member)
      rintro rfl
      exact nodup.1.1 member
    · refine tree_congr treeLeft (child p (.inl rfl) false) fun a member => below a (.inl member) ?_
      rintro rfl
      exact nodup.1.2.1 member
    · refine tree_congr treeRight (child p (.inl rfl) true) fun a member => below a (.inr member) ?_
      rintro rfl
      exact nodup.1.2.2 member

theorem Tree.load_eq_none_iff (tree : Tree h s t) : h.load s = none ↔ t = .nil := by
  cases t with
  | nil => exact iff_of_true tree rfl
  | node ring left right =>
    obtain ⟨p, others, rfl, node, _⟩ := tree
    simp [node.load]

theorem Tree.exists_load (tree : Tree h s t) (some : t ≠ .nil) : ∃ p, h.load s = .some p :=
  Option.ne_none_iff_exists'.mp fun none => some (tree.load_eq_none_iff.mp none)

/-- The slot does not belong to a block of the tree. -/
def SlotOutside (s : Slot) (inside : List Addr) : Prop := ∀ q ∈ inside, ∀ one, s ≠ .child q one

theorem Frame.sameAt {a : Addr} (frame : Frame h h' inside s) (absent : a ∉ inside)
    (child : ∀ one, h'.load (.child a one) = h.load (.child a one)) : SameAt h h' a := by
  have other : ∀ q ∈ inside, FreePtr.block a ≠ .block q := by
    rintro q isInside ⟨⟩
    exact absent isInside
  exact ⟨frame.parent a absent, frame.next _ other, frame.prev _ other, child⟩

/-- A tree is not affected by a change to other blocks. -/
theorem Frame.tree {s' : Slot} (frame : Frame h h' inside s) (tree : Tree h s' t)
    (apart : ∀ a ∈ t.elements, a ∉ inside) (different : s' ≠ s) (outside : SlotOutside s' inside)
    (owner : ∀ a ∈ t.elements, ∀ one, s ≠ .child a one) : Tree h' s' t := by
  refine tree_congr tree (frame.load s' different outside) fun a member =>
    frame.sameAt (apart a member) fun one => ?_
  refine frame.load _ (owner a member one).symm ?_
  rintro q isInside one' ⟨⟩
  exact apart a member isInside

/-- The node whose child on one side is `c`. -/
def graft (ring : List Addr) (one : Bool) (c other : Trie Addr) : Trie Addr :=
  bif one then .node ring other c else .node ring c other

theorem elements_graft (ring : List Addr) (one : Bool) (c other : Trie Addr) :
    (graft ring one c other).elements.Perm (ring ++ (c.elements ++ other.elements)) := by
  cases one with
  | false => exact .refl _
  | true => exact perm_append_comm.append_left ring

/-- The node that carries two trees, whichever of its sides the first one is on. -/
theorem tree_graft {one : Bool} {c other : Trie Addr} {p : Addr} {others : List Addr}
    (node : NodeAt h s p others) (tree : Tree h (.child p one) c)
    (treeOther : Tree h (.child p !one) other) : Tree h s (graft (p :: others) one c other) := by
  cases one with
  | false => exact ⟨p, others, rfl, node, tree, treeOther⟩
  | true => exact ⟨p, others, rfl, node, treeOther, tree⟩

end Jonj.Alloc
