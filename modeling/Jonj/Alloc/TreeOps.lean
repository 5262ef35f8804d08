import Jonj.Alloc.Tree

/-!
# Adding to a tree and removing from it
-/
namespace Jonj.Alloc

open BitTrie Circular FreeLists List Trie

/-! ### Adding -/

/-- The bit of a size that decides at depth `d` of the tree of a bucket. -/
def sizeBit (index size d : Nat) : Bool := topBit (size * 2 ^ (numBuckets - index + d) % 2 ^ 64)

theorem shift_succ (size k : Nat) :
    size * 2 ^ k % 2 ^ 64 * 2 % 2 ^ 64 = size * 2 ^ (k + 1) % 2 ^ 64 := by
  rw [Nat.mod_mul_mod, pow_succ 2 k, mul_assoc]

theorem link_frame (h : FreeLists) (s : Slot) (a : Addr) : Frame h (h.link s a) [a] s := by
  refine ⟨?_, ?_, ?_, ?_, ?_, ?_, ?_⟩
  · intro p absent
    simp only [mem_singleton] at absent
    simp [link, setPrev, setNext, setParent, absent]
  · intro p other
    have different := other a (by simp)
    simp [link, setPrev, setNext, setParent, different]
  · intro p other
    have different := other a (by simp)
    simp [link, setPrev, setNext, setParent, different]
  · intro s' different _
    simp [link, different]
  all_goals simp [link, setPrev, setNext, setParent]

private theorem link_nodeAt (h : FreeLists) (s : Slot) (a : Addr) : NodeAt (h.link s a) s a [] := by
  refine ⟨by simp [link], ?_, by simp [link, setPrev, setNext, setParent], by simp⟩
  constructor <;> simp [link, setPrev, setNext, setParent]

variable {h : FreeLists} {s : Slot} {a : Addr}

theorem link_tree (leaf : ∀ one, h.load (.child a one) = none)
    (outside : SlotOutside s [a]) : Tree (h.link s a) s (.node [a] .nil .nil) := by
  refine ⟨a, [], rfl, link_nodeAt h s a, ?_, ?_⟩
  · have other : Slot.child a false ≠ s := fun same => outside a (by simp) false same.symm
    simp [Tree, link, other, leaf]
  · have other : Slot.child a true ≠ s := fun same => outside a (by simp) true same.symm
    simp [Tree, link, other, leaf]

/-- The writes that put a block into the ring of the block `prev`. -/
def joinRing (h : FreeLists) (prev a : Addr) : FreeLists :=
  let next := h.nextFreeBlock (.block prev)
  let h := (h.setPrev next (.block a)).setNext (.block prev) (.block a)
  let h := (h.setNext (.block a) next).setPrev (.block a) (.block prev)
  h.setParent a .null

variable {others : List Addr}

theorem next_mem_ring {p : Addr}
    (ring : Ring h.nextFreeBlock h.prevFreeBlock ((p :: others).map .block)) :
    ∃ q ∈ p :: others, h.nextFreeBlock (.block p) = .block q := by
  cases others with
  | nil => exact ⟨p, by simp, ring.1⟩
  | cons q others => exact ⟨q, by simp, ring.1.1⟩

section

attribute [local simp] setPrev setNext setParent

private theorem joinRing_frame {p : Addr} (s : Slot)
    (ring : Ring h.nextFreeBlock h.prevFreeBlock ((p :: others).map .block)) :
    Frame h (joinRing h p a) (a :: p :: others) s := by
  obtain ⟨q, member, next⟩ := next_mem_ring ring
  refine ⟨?_, ?_, ?_, ?_, rfl, rfl, rfl⟩
  · intro x absent
    simp only [mem_cons, not_or] at absent
    simp [joinRing, absent.1]
  · intro x other
    have notA := other a (by simp)
    have notP := other p (by simp)
    simp [joinRing, notA, notP]
  · intro x other
    have notA := other a (by simp)
    have notQ := other q (mem_cons_of_mem a member)
    simp [joinRing, notA, next, notQ]
  · exact fun _ _ _ => rfl

private theorem joinRing_nodeAt {p : Addr} (node : NodeAt h s p others)
    (nodup : (p :: others).Nodup) (new : a ∉ p :: others) :
    NodeAt (joinRing h p a) s p (a :: others) := by
  have different : a ≠ p := fun same => new (by simp [same])
  obtain ⟨q, member, next⟩ := next_mem_ring node.ring
  have notQ : a ≠ q := fun same => new (same ▸ member)
  refine ⟨?_, ?_, ?_, ?_⟩
  · exact node.load
  · refine ring_insert (m := FreePtr.block a) node.ring ?_ ?_ ?_ ?_ ?_ ?_ ?_ ?_
    · exact (nodup_map_iff fun _ _ => FreePtr.block.inj).mpr nodup
    · simpa using new
    · simp [joinRing, different.symm]
    · simp [joinRing]
    · simp [joinRing]
    · simp [joinRing, next, notQ.symm]
    · intro x inside
      obtain ⟨b, later, rfl⟩ := mem_map.mp inside
      have notA : b ≠ a := fun same => new (by simp [← same, later])
      have notP : b ≠ p := fun same => (nodup_cons.mp nodup).1 (same ▸ later)
      simp [joinRing, notA, notP]
    · intro x inside notNext
      have notA : x ≠ .block a := by
        rintro rfl
        simp only [← map_cons, mem_map] at inside
        obtain ⟨b, later, same⟩ := inside
        cases same
        exact new later
      simp [joinRing, notA, notNext]
  · simp [joinRing, different.symm, node.parent]
  · intro b inside
    rcases mem_cons.mp inside with rfl | later
    · simp [joinRing]
    · have notA : b ≠ a := fun same => new (by simp [← same, later])
      simp [joinRing, notA, node.null b later]

end

theorem store_frame (h : FreeLists) {s' : Slot} {v : Option Addr} {inside : List Addr}
    (owner : s' = s ∨ ∃ b ∈ inside, ∃ one, s' = .child b one) :
    Frame h (h.store s' v) inside s := by
  refine ⟨by simp, by simp, by simp, ?_, by simp, by simp, by simp⟩
  intro s'' notSlot other
  have different : s'' ≠ s' := by
    rcases owner with rfl | ⟨b, member, one, rfl⟩
    · exact notSlot
    · exact other b member one
  simp [different]

section below

variable {h h' : FreeLists} {s : Slot} {p : Addr} {others inside : List Addr} {one : Bool}
    {c other : Trie Addr}

/-- A change below one child of a node leaves the node and its other child alone. -/
theorem node_frame (node : NodeAt h s p others) (treeOther : Tree h (.child p !one) other)
    (frame : Frame h h' inside (.child p one))
    (nodup : ((p :: others) ++ (inside ++ other.elements)).Nodup)
    (outside : SlotOutside s ((p :: others) ++ (inside ++ other.elements))) :
    NodeAt h' s p others ∧ Tree h' (.child p !one) other ∧
      Frame h h' ((p :: others) ++ (inside ++ other.elements)) s := by
  simp only [nodup_append, mem_append] at nodup
  obtain ⟨-, ⟨-, -, apart⟩, apartRing⟩ := nodup
  have ringApart : ∀ b ∈ p :: others, b ∉ inside :=
    fun b member below => apartRing b member b (.inl below) rfl
  have links : ∀ b ∈ p :: others, ∀ q ∈ inside, FreePtr.block b ≠ .block q := by
    rintro b member q isInside ⟨⟩
    exact ringApart b member isInside
  refine ⟨⟨?_, ?_, ?_, ?_⟩, ?_, ?_⟩
  · refine (frame.load s (outside p (by simp) one) ?_).trans node.load
    exact fun q member => outside q (by simp [member])
  · exact ring_same node.ring (fun b member => frame.next _ (links b member)) fun b member =>
      frame.prev _ (links b member)
  · exact (frame.parent p (ringApart p (by simp))).trans node.parent
  · exact fun b member => (frame.parent b (ringApart b (by simp [member]))).trans
      (node.null b member)
  · refine frame.tree treeOther (fun b member below => apart b below b member rfl)
      (by cases one <;> simp) ?_ ?_
    · rintro q isInside one' ⟨⟩
      exact ringApart _ (by simp) isInside
    · rintro b member one' ⟨⟩
      exact apartRing _ (by simp) _ (.inr member) rfl
  · exact frame.mono (fun b member => by simp [member]) (.inr ⟨p, by simp, one, rfl⟩)

theorem slotOutside_child (nodup : ((p :: others) ++ (inside ++ other.elements)).Nodup) :
    SlotOutside (.child p one) inside := by
  rintro q member one' ⟨⟩
  exact (nodup_append.mp nodup).2.2 p (by simp) p (mem_append_left _ member) rfl

private theorem addLoop_child {a : Addr} {m fuel d : Nat} {bit : Nat → Nat → Bool}
    (node : NodeAt h s p others)
    (different : h.freeBlockSize p ≠ h.freeBlockSize a) (side : topBit m = one)
    (treeChild : Tree h (.child p one) c)
    (treeOther : Tree h (.child p !one) other) (leaf : ∀ one, h.load (.child a one) = none)
    (nodup : (a :: (graft (p :: others) one c other).elements).Nodup)
    (outside : SlotOutside s (a :: (graft (p :: others) one c other).elements))
    (deeper : c ≠ .nil → SlotOutside (.child p one) (a :: c.elements) →
      ∃ h', h.addLoop a (h.freeBlockSize a) fuel (m * 2 % 2 ^ 64) (.child p one) = some h' ∧
        Tree h' (.child p one) (insert h.freeBlockSize bit a d c) ∧
          Frame h h' (a :: c.elements) (.child p one) ∧
        h'.largeFreeBitmap = h.largeFreeBitmap) :
          ∃ h', h.addLoop a (h.freeBlockSize a) (fuel + 1) m s = some h' ∧
      Tree h' s (graft (p :: others) one (insert h.freeBlockSize bit a d c) other) ∧
      Frame h h' (a :: (graft (p :: others) one c other).elements) s ∧
        h'.largeFreeBitmap = h.largeFreeBitmap := by
  have perm : (a :: (graft (p :: others) one c other).elements).Perm
    ((p :: others) ++ ((a :: c.elements) ++ other.elements)) :=
    ((elements_graft _ one c other).cons a).trans perm_middle.symm
  have apart := perm.nodup_iff.mp nodup
  have slotOutside : SlotOutside (.child p one) (a :: c.elements) := slotOutside_child apart
  have below : ∃ h', h.addLoop a (h.freeBlockSize a) (fuel + 1) m s = some h' ∧
      Tree h' (.child p one) (insert h.freeBlockSize bit a d c) ∧
        Frame h h' (a :: c.elements) (.child p one) ∧
      h'.largeFreeBitmap = h.largeFreeBitmap := by
    rw [addLoop, node.load]
    simp only [ne_eq, different, not_false_eq_true, if_true, side]
    by_cases empty : c = .nil
    · subst empty
      have free : h.load (.child p one) = none := treeChild
      simp only [free]
      exact ⟨_, rfl, link_tree leaf slotOutside,
        link_frame h _ a, by simp [link, setPrev, setNext, setParent]⟩
    · obtain ⟨q, taken⟩ := treeChild.exists_load empty
      simp only [taken]
      exact deeper empty slotOutside
  obtain ⟨h', ends, treeNew, frame, bitmap⟩ := below
  obtain ⟨node', treeOther', whole⟩ := node_frame node treeOther frame apart fun b member =>
    outside b (perm.mem_iff.mpr member)
  exact ⟨h', ends, tree_graft node' treeNew treeOther', whole.mono (fun b => perm.mem_iff.mpr)
    (.inl rfl), bitmap⟩

end below

theorem addLoop_spec {h : FreeLists} {a : Addr} {index d fuel : Nat} {s : Slot} {t : Trie Addr}
    (tree : Tree h s t) (some : t ≠ .nil) (nodup : (a :: t.elements).Nodup)
    (leaf : ∀ one, h.load (.child a one) = none) (outside : SlotOutside s (a :: t.elements))
    (enough : t.height ≤ fuel) :
    ∃ h', h.addLoop a (h.freeBlockSize a) fuel (h.freeBlockSize a * 2 ^ (numBuckets - index + d) %
      2 ^ 64) s = .some h' ∧
      Tree h' s (insert h.freeBlockSize (sizeBit index) a d t) ∧ Frame h h' (a :: t.elements) s ∧
      h'.largeFreeBitmap = h.largeFreeBitmap := by
  induction t generalizing s d fuel with
  | nil => exact absurd rfl some
  | node ring left right ihLeft ihRight =>
    obtain ⟨p, others, rfl, node, treeLeft, treeRight⟩ := tree
    obtain ⟨fuel, rfl, fitsLeft, fitsRight⟩ := exists_fuel enough
    have parts := nodup
    rw [nodup_cons] at parts
    simp only [elements, nodup_append, mem_append, not_or] at parts
    obtain ⟨⟨newRing, newLeft, newRight⟩, nodupRing, ⟨nodupLeft, nodupRight, apartSides⟩,
      apartRing⟩ := parts
    by_cases equal : h.freeBlockSize p = h.freeBlockSize a
    · -- the block joins the ring of this node
      have frame := joinRing_frame (a := a) s node.ring
      have keep : ∀ {c : Trie Addr} {s'}, Tree h s' c → a ∉ c.elements →
        (∀ b ∈ p :: others, b ∉ c.elements) →
          Tree (joinRing h p a) s' c := by
        intro c s' treeC new apart
        refine tree_congr treeC (by simp [joinRing]) fun b member =>
          frame.sameAt ?_ fun one => by simp [joinRing]
        intro inside
        rcases mem_cons.mp inside with rfl | inRing
        · exact new member
        · exact apart b inRing member
      refine ⟨joinRing h p a, ?_, ?_, frame.mono ?_ (.inl rfl), rfl⟩
      · rw [addLoop, node.load]
        simp only [equal, ne_eq, not_true, if_false]
        rfl
      · rw [Trie.insert, if_pos equal]
        exact ⟨p, a :: others, rfl, joinRing_nodeAt node nodupRing newRing,
          keep treeLeft newLeft fun b inRing member => apartRing b inRing b (.inl member) rfl,
          keep treeRight newRight fun b inRing member => apartRing b inRing b (.inr member) rfl⟩
      · intro b inside
        simp only [elements, mem_cons, mem_append] at inside ⊢
        tauto
    · -- one level down, on the side of the next bit
      rw [Trie.insert, if_neg equal]
      cases bit : sizeBit index (h.freeBlockSize a) d with
      | false =>
        refine @addLoop_child h s p others false left right a _ fuel (d + 1)
          (sizeBit index) node equal bit treeLeft treeRight
          leaf nodup outside fun some slotOutside => ?_
        rw [shift_succ, Nat.add_assoc]
        exact ihLeft treeLeft some (nodup_cons.mpr ⟨newLeft, nodupLeft⟩) slotOutside fitsLeft
      | true =>
        refine @addLoop_child h s p others true right left a _ fuel (d + 1)
          (sizeBit index) node equal bit treeRight treeLeft
          leaf nodup outside fun some slotOutside => ?_
        rw [shift_succ, Nat.add_assoc]
        exact ihRight treeRight some (nodup_cons.mpr ⟨newRight, nodupRight⟩) slotOutside fitsRight

/-! ### The leaf that takes a place -/

variable {t : Trie Addr}

/-- What the walk to a leaf finds: the leaf of the trie, and the slot that cuts it off. -/
structure LeafAt (h : FreeLists) (s : Slot) (t : Trie Addr) (s' : Slot) (leaf : Addr)
    (others : List Addr) : Prop where
  cutOff : t.takeLeaf.1 = leaf :: others
  node : NodeAt h s' leaf others
  owner : s' = s ∨ ∃ b ∈ t.takeLeaf.2.elements, ∃ one, s' = .child b one
  rest : Tree (h.store s' none) s t.takeLeaf.2

section cut

variable {p leaf : Addr} {others others' : List Addr} {one : Bool} {c other : Trie Addr} {s' : Slot}

section

variable (found : LeafAt h (.child p one) c s' leaf others') (some : c ≠ .nil)

include found some

theorem LeafAt.frame : Frame h (h.store s' none) c.elements (.child p one) :=
  store_frame h (found.owner.imp id fun ⟨b, member, side⟩ =>
    ⟨b, takeLeaf_snd_subset some member, side⟩)

theorem LeafAt.up (node : NodeAt h s p others) (treeOther : Tree h (.child p !one) other)
    (nodup : (graft (p :: others) one c other).elements.Nodup)
    (outside : SlotOutside s (graft (p :: others) one c other).elements)
    (shape : t.takeLeaf = (c.takeLeaf.1, graft (p :: others) one c.takeLeaf.2 other)) :
    LeafAt h s t s' leaf others' := by
  have perm := elements_graft (p :: others) one c other
  obtain ⟨node', treeOther', -⟩ := node_frame node treeOther (found.frame some)
    (perm.nodup_iff.mp nodup) fun b member =>
    outside b (perm.mem_iff.mpr member)
  have inside := fun b => (elements_graft (p :: others) one c.takeLeaf.2 other).mem_iff (a := b)
  refine ⟨by
    rw [shape, found.cutOff], found.node,
    .inr ?_, by rw [shape]; exact tree_graft node' found.rest treeOther'⟩
  rw [shape]
  rcases found.owner with rfl | ⟨b, member, side⟩
  · exact ⟨p, (inside p).mpr (by simp), one, rfl⟩
  · exact ⟨b, (inside b).mpr (by simp [member]), side⟩

end

end cut

/-- The walk to a leaf ends at the leaf of the trie, and cutting it off leaves the rest of the
trie. -/
theorem lastLeaf_spec {q : Addr} {fuel : Nat} (tree : Tree h s t) (root : h.load s = some q)
    (nodup : t.elements.Nodup) (outside : SlotOutside s t.elements) (enough : t.height ≤ fuel) :
    ∃ s' leaf others, h.lastLeaf fuel s q = some (s', leaf) ∧ LeafAt h s t s' leaf others := by
  induction t generalizing s q fuel with
  | nil =>
    have empty : h.load s = none := tree
    rw [empty] at root
    cases root
  | node ring left right ihLeft ihRight =>
    obtain ⟨p, others, rfl, node, treeLeft, treeRight⟩ := tree
    obtain rfl : q = p := Option.some.inj (root.symm.trans node.load)
    obtain ⟨fuel, rfl, fitsLeft, fitsRight⟩ := exists_fuel enough
    have apart := (elements_graft (q :: others) false left right).nodup_iff.mp nodup
    have apart' := (elements_graft (q :: others) true right left).nodup_iff.mp nodup
    obtain ⟨nodupLeft, nodupRight, -⟩ := nodup_append.mp (nodup_append.mp apart).2.1
    rw [lastLeaf]
    by_cases noRight : right = .nil
    · subst noRight
      have emptyRight : h.child q true = none := treeRight
      simp only [emptyRight, Option.isSome_none]
      by_cases noLeft : left = .nil
      · subst noLeft
        have emptyLeft : h.load (.child q false) = none := treeLeft
        simp only [emptyLeft]
        exact ⟨s, q, others, rfl, rfl, node, .inl rfl, by simp [takeLeaf, Tree]⟩
      obtain ⟨c, taken⟩ := treeLeft.exists_load noLeft
      obtain ⟨s', leaf, others', ends, found⟩ :=
        ihLeft treeLeft taken nodupLeft (slotOutside_child apart) fitsLeft
      simp only [taken]
      exact ⟨s', leaf, others', ends, found.up noLeft node treeRight nodup outside
        (takeLeaf_left _ noLeft)⟩
    · obtain ⟨c, taken⟩ := treeRight.exists_load noRight
      have goesRight : h.child q true = some c := taken
      obtain ⟨s', leaf, others', ends, found⟩ :=
        ihRight treeRight taken nodupRight (slotOutside_child apart') fitsRight
      simp only [goesRight, Option.isSome_some, taken]
      exact ⟨s', leaf, others', ends, found.up noRight node treeLeft nodup outside
        (takeLeaf_right _ left noRight)⟩

/-! ### Substitution -/

/-- What is not changed when only slots and parents are. -/
def FreeLists.fixed (h : FreeLists) :=
  (h.nextFreeBlock, h.prevFreeBlock, h.size, h.freeBitmap, h.largeFreeBitmap, h.restCount)

/-- The fields after a block took over one child of another one. -/
structure Adopted (h h' : FreeLists) (a q : Addr) (one : Bool) : Prop where
  load : ∀ s, h'.load s = if s = .child q one then h.load (.child a one) else h.load s
  parent : ∀ p, h'.parent p = if h.load (.child a one) = some p then .slot (.child q one)
    else h.parent p
  fixed : h'.fixed = h.fixed

private theorem adopt_spec {h : FreeLists} {a q : Addr} {one : Bool}
    (known : ∀ c, h.load (.child a one) = some c → h.parent c = .slot (.child a one)) :
    ∃ h', h.adopt a q one = some h' ∧ Adopted h h' a q one := by
  rw [adopt, child_eq_load]
  cases taken : h.load (.child a one) with
  | none =>
    refine ⟨_, rfl, fun s => ?_, fun p => ?_, by simp [fixed]⟩
    · rw [load_store, taken]
    · simp [taken]
  | some c =>
    have check : (h.store (.child q one) (some c)).checkTree c = some (.child a one) := by
      rw [checkTree, parent_store, known c taken]
      simp [taken]
    simp only [check, Option.map_some]
    refine ⟨_, rfl, fun s => ?_, fun p => ?_, by simp [fixed, setParent]⟩
    · simp [taken]
    · simp only [setParent, parent_store, Function.update_apply, taken, Option.some.injEq]
      simp only [eq_comm]

/-- The fields after `q` took the place of `a` behind the slot `s`. -/
structure Substituted (h h' : FreeLists) (s : Slot) (a q : Addr) : Prop where
  loadSlot : h'.load s = some q
  loadChild : ∀ one, h'.load (.child q one) = h.load (.child a one)
  load : ∀ s', s' ≠ s → (∀ one, s' ≠ .child q one) → h'.load s' = h.load s'
  parentChild : ∀ one c, h.load (.child a one) = some c → h'.parent c = .slot (.child q one)
  parentSelf : h'.parent q = .slot s
  parent : ∀ p, p ≠ q → (∀ one, h.load (.child a one) ≠ some p) → h'.parent p = h.parent p
  fixed : h'.fixed = h.fixed

private theorem substBlock_fields {h : FreeLists} {s : Slot} {a q : Addr} (root : h.load s = some a)
    (parent : h.parent a = .slot s) (outside : SlotOutside s [a, q])
    (known : ∀ one c, h.load (.child a one) = some c → h.parent c = .slot (.child a one) ∧ c ≠ q)
    (distinct : ∀ c, h.load (.child a false) = some c → h.load (.child a true) ≠ some c) :
    ∃ h', h.substBlock a q = some h' ∧ Substituted h h' s a q := by
  have notA : ∀ one, Slot.child a one ≠ s := fun one same => outside a (by simp) one same.symm
  have notQ : ∀ one, Slot.child q one ≠ s := fun one same => outside q (by simp) one same.symm
  have check : h.checkTree a = some s := by simp [checkTree, parent, root]
  rw [substBlock, check]
  -- the slot and the parent of `q`
  have load₁ : ∀ s', ((h.store s (some q)).setParent q (.slot s)).load s' = if s' = s then some q
      else h.load s' := by
    intro s'
    rw [load_setParent, load_store]
  have parent₁ : ∀ p, ((h.store s (some q)).setParent q (.slot s)).parent p =
      if p = q then .slot s else h.parent p := by
    simp [setParent, Function.update_apply]
  -- the left child
  obtain ⟨h₂, ends₂, left⟩ := @adopt_spec ((h.store s (some q)).setParent q (.slot s)) a q false (by
    intro c taken
    rw [load₁, if_neg (notA false)] at taken
    rw [parent₁, if_neg (known false c taken).2]
    exact (known false c taken).1)
  simp only [ends₂, Option.bind_some]
  have leftLoad : ∀ s', h₂.load s' = if s' = .child q false then h.load (.child a false)
      else if s' = s then some q else h.load s' := by
    intro s'
    rw [left.load, load₁, load₁, if_neg (notA false)]
  have leftParent : ∀ p, h₂.parent p = if h.load (.child a false) = some p then
    .slot (.child q false)
      else if p = q then .slot s else h.parent p := by
    intro p
    rw [left.parent, load₁, parent₁, if_neg (notA false)]
  have other : Slot.child a true ≠ .child q false := by simp
  have loadTrue : h₂.load (.child a true) = h.load (.child a true) := by
    rw [leftLoad, if_neg other, if_neg (notA true)]
  -- the right child
  obtain ⟨h₃, ends₃, right⟩ := @adopt_spec h₂ a q true (by
    intro c taken
    rw [loadTrue] at taken
    rw [leftParent, if_neg fun twice => distinct c twice taken, if_neg (known true c taken).2]
    exact (known true c taken).1)
  have rightLoad : ∀ s', h₃.load s' = if s' = .child q true then h.load (.child a true)
      else if s' = .child q false then h.load (.child a false) else if s' = s then some q
        else h.load s' := by
    intro s'
    rw [right.load, loadTrue, leftLoad]
  have rightParent : ∀ p, h₃.parent p = if h.load (.child a true) = some p then
    .slot (.child q true)
      else if h.load (.child a false) = some p then .slot (.child q false)
        else if p = q then .slot s
      else h.parent p := by
    intro p
    rw [right.parent, loadTrue, leftParent]
  refine ⟨h₃, ends₃, ?_, ?_, ?_, ?_, ?_, ?_, ?_⟩
  · rw [rightLoad, if_neg (notQ true).symm, if_neg (notQ false).symm, if_pos rfl]
  · intro one
    cases one with
    | false => rw [rightLoad, if_neg (by simp), if_pos rfl]
    | true => rw [rightLoad, if_pos rfl]
  · intro s' notSlot notChild
    rw [rightLoad, if_neg (notChild true), if_neg (notChild false), if_neg notSlot]
  · intro one c taken
    cases one with
    | false => rw [rightParent, if_neg (distinct c taken), if_pos taken]
    | true => rw [rightParent, if_pos taken]
  · rw [rightParent, if_neg fun taken => (known true q taken).2 rfl, if_neg fun taken =>
      (known false q taken).2 rfl, if_pos rfl]
  · intro p notSelf notChild
    rw [rightParent, if_neg (notChild true), if_neg (notChild false), if_neg notSelf]
  · exact right.fixed.trans (left.fixed.trans (by simp [fixed, setParent]))

theorem Tree.root_mem {c : Addr} (tree : Tree h s t) (root : h.load s = some c) :
    c ∈ t.elements ∧ h.parent c = .slot s := by
  cases t with
  | nil => exact absurd (root.symm.trans tree) (by simp)
  | node ring left right =>
    obtain ⟨p, others, rfl, node, _⟩ := tree
    obtain rfl : c = p := Option.some.inj (root.symm.trans node.load)
    exact ⟨by simp [elements], node.parent⟩

/-- `q`, the first block of a ring, takes over the two subtrees of `a`. -/
theorem substBlock_tree {h : FreeLists} {s : Slot} {a q : Addr} {others : List Addr} {one : Bool}
    {c other : Trie Addr} (root : h.load s = some a) (parent : h.parent a = .slot s)
    (treeChild : Tree h (.child a one) c) (treeOther : Tree h (.child a !one) other)
    (ring : Ring h.nextFreeBlock h.prevFreeBlock ((q :: others).map .block))
    (null : ∀ b ∈ others, h.parent b = .null)
    (nodup : (a :: ((q :: others) ++ (c.elements ++ other.elements))).Nodup)
    (outside : SlotOutside s (a :: ((q :: others) ++ (c.elements ++ other.elements)))) :
    ∃ h', h.substBlock a q = some h' ∧ Tree h' s (graft (q :: others) one c other) ∧
      Frame h h' (a :: ((q :: others) ++ (c.elements ++ other.elements))) s ∧
        h'.largeFreeBitmap = h.largeFreeBitmap := by
  simp only [nodup_cons, nodup_append, mem_append, mem_cons, not_or] at nodup
  obtain ⟨-, ⟨qNotOthers, -⟩, ⟨nodupChild, nodupOther, apartSides⟩, apartRing⟩ := nodup
  have rootChild : ∀ b, h.load (.child a one) = some b → b ∈ c.elements ∧
    h.parent b = .slot (.child a one) :=
    fun b => treeChild.root_mem
  have rootOther : ∀ b, h.load (.child a !one) = some b → b ∈ other.elements ∧
    h.parent b = .slot (.child a !one) :=
    fun b => treeOther.root_mem
  have children : ∀ side b, h.load (.child a side) = some b →
      (b ∈ c.elements ∨ b ∈ other.elements) ∧ h.parent b = .slot (.child a side) := by
    intro side b taken
    rcases Bool.eq_or_eq_not side one with rfl | rfl
    · exact ⟨.inl (rootChild b taken).1, (rootChild b taken).2⟩
    · exact ⟨.inr (rootOther b taken).1, (rootOther b taken).2⟩
  obtain ⟨h', ends, fields⟩ := @substBlock_fields h s a q root parent
    (fun b member => outside b (by
      simp only [mem_cons, mem_append, not_mem_nil, or_false] at member ⊢
      tauto))
    (fun side b taken => by
      refine ⟨(children side b taken).2, ?_⟩
      rintro rfl
      exact apartRing b (.inl rfl) b (children side b taken).1 rfl)
    (fun b taken twice => by
      cases one with
      | false => exact apartSides b (rootChild b taken).1 b (rootOther b twice).1 rfl
      | true => exact apartSides b (rootChild b twice).1 b (rootOther b taken).1 rfl)
  have kept := fields.fixed
  simp only [fixed, Prod.mk.injEq] at kept
  obtain ⟨next, prev, size, freeBitmap, largeFreeBitmap, restCount⟩ := kept
  -- a block of the subtrees keeps its children, and its parent unless it is a root
  have keepChild : ∀ b, b ∈ c.elements ∨ b ∈ other.elements → ∀ side,
      h'.load (.child b side) = h.load (.child b side) := by
    intro b member side
    refine fields.load _ ?_ ?_
    · intro same
      refine outside b ?_ side same.symm
      simp only [mem_cons, mem_append]
      exact .inr (.inr member)
    · rintro side' ⟨⟩
      exact apartRing _ (.inl rfl) _ member rfl
  have moved : ∀ side {t : Trie Addr}, Tree h (.child a side) t → t.elements.Nodup →
      (∀ b ∈ t.elements, b ∈ c.elements ∨ b ∈ other.elements) →
      (∀ b ∈ t.elements, h.load (.child a !side) ≠ some b) → Tree h' (.child q side) t := by
    intro side t tree nodup subset notOther
    refine tree_move tree (fields.loadChild side) (fields.parentChild side) ?_ ?_ ?_ ?_ nodup
    · intro b member notRoot
      refine fields.parent b ?_ fun side' => ?_
      · rintro rfl
        exact apartRing b (.inl rfl) b (subset b member) rfl
      · rcases Bool.eq_or_eq_not side' side with rfl | rfl
        · exact notRoot
        · exact notOther b member
    · exact fun b _ => by rw [next]
    · exact fun b _ => by rw [prev]
    · exact fun b member => keepChild b (subset b member)
  refine ⟨h', ends, tree_graft ⟨fields.loadSlot, ?_, fields.parentSelf, ?_⟩ ?_ ?_, ?_,
    largeFreeBitmap⟩
  · rw [next, prev]
    exact ring
  · intro b member
    refine (fields.parent b ?_ ?_).trans (null b member)
    · rintro rfl
      exact qNotOthers member
    · intro side taken
      exact apartRing b (.inr member) b (children side b taken).1 rfl
  · exact moved one treeChild nodupChild (fun b => .inl) fun b member taken =>
      apartSides b member b (rootOther b taken).1 rfl
  · refine moved (!one) treeOther nodupOther (fun b => .inr) fun b member taken => ?_
    rw [Bool.not_not] at taken
    exact apartSides b (rootChild b taken).1 b member rfl
  · refine ⟨?_, ?_, ?_, ?_, size, freeBitmap, restCount⟩
    · intro p absent
      simp only [mem_cons, mem_append, not_or] at absent
      exact fields.parent p absent.2.1.1 fun side taken =>
        (children side p taken).1.elim absent.2.2.1 absent.2.2.2
    · exact fun p _ => by rw [next]
    · exact fun p _ => by rw [prev]
    · intro s' notSlot other
      exact fields.load s' notSlot (other q (by simp))

/-! ### Removing -/

/-- A leaf below one child of `a` takes its place. -/
theorem removeAlone_child {q : Addr} {one : Bool} {c other : Trie Addr} (node : NodeAt h s a [])
    (treeChild : Tree h (.child a one) c) (treeOther : Tree h (.child a !one) other)
    (taken : h.load (.child a one) = some q) (nodup : (graft [a] one c other).elements.Nodup)
    (outside : SlotOutside s (graft [a] one c other).elements) (height : c.height ≤ numBuckets) :
    ∃ h', ((h.lastLeaf numBuckets (.child a one) q).bind fun leaf =>
      (h.store leaf.1 none).substBlock a leaf.2) = some h' ∧
      Tree h' s (graft c.takeLeaf.1 one c.takeLeaf.2 other) ∧
        Frame h h' (graft [a] one c other).elements s ∧
      h'.largeFreeBitmap = h.largeFreeBitmap := by
  have some : c ≠ .nil := by
    rintro rfl
    exact absurd (taken.symm.trans treeChild) (by simp)
  have whole := elements_graft [a] one c other
  have apart := whole.nodup_iff.mp nodup
  obtain ⟨s', leaf, others, ends, found⟩ :=
    lastLeaf_spec treeChild taken (nodup_append.mp (nodup_append.mp apart).2.1).1
    (slotOutside_child apart) height
  obtain ⟨node', treeOther', frame⟩ := node_frame node treeOther (found.frame some) apart
    fun b member =>
    outside b (whole.mem_iff.mpr member)
  have leafPerm := elements_takeLeaf some
  rw [found.cutOff] at leafPerm
  have perm : (a :: ((leaf :: others) ++ (c.takeLeaf.2.elements ++ other.elements))).Perm
      (graft [a] one c other).elements := by
    refine Perm.trans (Perm.cons a ?_) whole.symm
    rw [← append_assoc]
    exact leafPerm.append_right _
  obtain ⟨h', substituted, tree', frame', bitmap⟩ :=
    @substBlock_tree (h.store s' none) s a leaf others one
    c.takeLeaf.2 other node'.load (by simpa using node.parent) found.rest treeOther'
      (by simpa using found.node.ring)
    (by simpa using found.node.null) (perm.nodup_iff.mpr nodup)
      (fun b member => outside b (perm.mem_iff.mp member))
  rw [ends, found.cutOff]
  exact ⟨h', substituted, tree', (frame.mono (fun b => whole.mem_iff.mpr) (.inl rfl)).trans
    (frame'.mono (fun b => perm.mem_iff.mp) (.inl rfl)), by simpa using bitmap⟩

/-- Clear the bit of a bucket that has become empty. -/
def clearBit (bitmap : BitVec 64) (index : Nat) (empty : Prop) [Decidable empty] : BitVec 64 :=
  if empty then bitmap &&& ~~~ BitVec.twoPow 64 index else bitmap

private theorem removeAlone_spec {left right : Trie Addr} (tree : Tree h s (.node [a] left right))
    (nodup : (node [a] left right).elements.Nodup)
    (outside : SlotOutside s (node [a] left right).elements)
    (height : (node [a] left right).height ≤ numBuckets) :
    ∃ h', h.removeAlone a = some h' ∧ Tree h' s (dropRoot left right) ∧
      Frame h h' (node [a] left right).elements s ∧
      h'.largeFreeBitmap = clearBit h.largeFreeBitmap (zendMmHighBit (h.freeBlockSize a))
        (s = .bucket (zendMmHighBit (h.freeBlockSize a)) ∧ dropRoot left right = .nil) := by
  obtain ⟨p, others, shape, node, treeLeft, treeRight⟩ := tree
  cases shape
  simp only [Trie.height] at height
  have check : h.checkTree a = some s := by simp [checkTree, node.parent, node.load]
  rw [removeAlone]
  by_cases noRight : right = .nil
  · subst noRight
    have emptyRight : h.child a true = none := treeRight
    simp only [emptyRight, Option.isSome_none]
    by_cases noLeft : left = .nil
    · subst noLeft
      have emptyLeft : h.load (.child a false) = none := treeLeft
      simp only [emptyLeft, check, Option.map_some]
      refine ⟨_, rfl, ?_, ?_, ?_⟩
      · have cleared : (h.store s none).load s = none := by simp
        split
        · exact cleared
        · exact cleared
      · have frame : Frame h (h.store s none) [a] s := store_frame h (.inl rfl)
        split
        · exact ⟨frame.parent, frame.next, frame.prev, frame.load, frame.size, frame.freeBitmap,
            frame.restCount⟩
        · exact frame
      · simp only [clearBit, dropRoot, and_true]
        split <;> simp
    · obtain ⟨c, taken⟩ := treeLeft.exists_load noLeft
      obtain ⟨h', ends, tree', frame, bitmap⟩ :=
        @removeAlone_child h s a c false left .nil node treeLeft treeRight taken nodup
          outside (by omega)
      simp only [taken]
      rw [dropRoot_left noLeft, clearBit, if_neg (by simp)]
      exact ⟨h', ends, tree', frame, bitmap⟩
  · obtain ⟨c, taken⟩ := treeRight.exists_load noRight
    have goesRight : h.child a true = some c := taken
    obtain ⟨h', ends, tree', frame, bitmap⟩ :=
      @removeAlone_child h s a c true right left node treeRight treeLeft taken nodup
        outside (by omega)
    simp only [goesRight, Option.isSome_some, taken]
    rw [dropRoot_right left noRight, clearBit, if_neg (by simp)]
    exact ⟨h', ends, tree', frame, bitmap⟩

/-- `prev->next_free_block = next; next->prev_free_block = prev` -/
def unlink (h : FreeLists) (p : FreePtr) : FreeLists :=
  (h.setNext (h.prevFreeBlock p) (h.nextFreeBlock p)).setPrev (h.nextFreeBlock p)
    (h.prevFreeBlock p)

@[simp] theorem load_unlink (h : FreeLists) (p : FreePtr) (s : Slot) :
    (unlink h p).load s = h.load s := by
  simp [unlink]

theorem unlink_ring {h : FreeLists} {x m : FreePtr} {us vs : List FreePtr}
    (ring : Ring h.nextFreeBlock h.prevFreeBlock (x :: (us ++ m :: vs)))
    (nodup : (x :: (us ++ m :: vs)).Nodup) :
    Ring (unlink h m).nextFreeBlock (unlink h m).prevFreeBlock (x :: (us ++ vs)) := by
  refine ring_unlink ring nodup ?_ ?_ ?_ ?_
  · simp [unlink, setNext, setPrev]
  · simp [unlink, setNext, setPrev]
  · intro p _ other
    simp [unlink, setNext, setPrev, other]
  · intro p _ other
    simp [unlink, setNext, setPrev, other]

theorem unlink_next {p q : FreePtr} (other : q ≠ h.prevFreeBlock p) :
    (unlink h p).nextFreeBlock q = h.nextFreeBlock q := by
  simp [unlink, setNext, setPrev, other]

theorem unlink_prev {p q : FreePtr} (other : q ≠ h.nextFreeBlock p) :
    (unlink h p).prevFreeBlock q = h.prevFreeBlock q := by
  simp [unlink, setNext, setPrev, other]

theorem neighbours_mem {next prev : FreePtr → FreePtr} {l : List FreePtr} {m : FreePtr}
    (ring : Ring next prev l) (member : m ∈ l) : prev m ∈ l ∧ next m ∈ l := by
  obtain ⟨us, vs, rfl⟩ := append_of_mem member
  have rotated : Ring next prev (m :: (vs ++ us)) := ring_rotate ring
  have inside : ∀ x ∈ m :: (vs ++ us), x ∈ us ++ m :: vs := by
    intro x isMember
    simp only [mem_cons, mem_append] at isMember ⊢
    tauto
  refine ⟨inside _ (prev_mem_of_path rotated), inside _ ?_⟩
  generalize vs ++ us = rest at rotated
  cases rest with
  | nil => simp [rotated.1]
  | cons z zs => simp [rotated.1.1]

theorem unlink_frame {ring : List Addr} (s : Slot)
    (links : Ring h.nextFreeBlock h.prevFreeBlock (ring.map .block)) (member : a ∈ ring) :
    Frame h (unlink h (.block a)) ring s := by
  have neighbours := neighbours_mem links (mem_map_of_mem (f := FreePtr.block) member)
  refine ⟨fun _ _ => rfl, ?_, ?_, by simp, rfl, rfl, rfl⟩
  · intro p other
    refine unlink_next ?_
    rintro rfl
    obtain ⟨q, inside, same⟩ := mem_map.mp neighbours.1
    exact other q inside same.symm
  intro p other
  refine unlink_prev ?_
  rintro rfl
  obtain ⟨q, inside, same⟩ := mem_map.mp neighbours.2
  exact other q inside same.symm

section company

variable {h : FreeLists} {a : Addr} {l : List FreePtr}
    (ring : Ring h.nextFreeBlock h.prevFreeBlock l) (member : .block a ∈ l)
    (company : h.prevFreeBlock (.block a) ≠ .block a)

include ring member company

theorem remove_small_eq (small : h.freeBlockSize a < maxSmallSize) : h.zendMmRemoveFromFreeList a =
      some (if h.prevFreeBlock (.block a) = h.nextFreeBlock (.block a) ∧
          (unlink h (.block a)).prevFreeBlock (.small (bucketIndex (h.freeBlockSize a))) =
            (unlink h (.block a)).nextFreeBlock (.small (bucketIndex (h.freeBlockSize a))) then
              { unlink h (.block a) with
          freeBitmap := h.freeBitmap &&& ~~~ BitVec.twoPow 64 (bucketIndex (h.freeBlockSize a)) }
      else unlink h (.block a)) := by
  obtain ⟨back, forth⟩ := links_back_of_mem ring member
  rw [zendMmRemoveFromFreeList, if_neg company, if_neg (by simp [back, forth])]
  have size : (unlink h (.block a)).freeBlockSize a < maxSmallSize := small
  simp only [unlink] at size ⊢
  rw [if_pos size]
  split
  · next alone => exact congrArg some (if_pos alone).symm
  · next more => exact congrArg some (if_neg more).symm

theorem remove_large_eq (large : maxSmallSize ≤ h.freeBlockSize a) :
    (h.parent a = .null → h.zendMmRemoveFromFreeList a = some (unlink h (.block a))) ∧
    ∀ {s q}, h.parent a = .slot s → h.prevFreeBlock (.block a) = .block q →
      h.zendMmRemoveFromFreeList a = (unlink h (.block a)).substBlock a q := by
  obtain ⟨back, forth⟩ := links_back_of_mem ring member
  rw [zendMmRemoveFromFreeList, if_neg company, if_neg (by simp [back, forth])]
  have size : ¬ (unlink h (.block a)).freeBlockSize a < maxSmallSize := Nat.not_lt.mpr large
  simp only [unlink] at size ⊢
  rw [if_neg size]
  simp only [setNext, setPrev]
  refine ⟨fun parent => ?_, fun parent before => ?_⟩
  · simp only [parent]
  · simp only [parent, before]

end company

theorem company_of_ring {h : FreeLists} {a : Addr} {x : FreePtr} {l : List FreePtr}
    (ring : Ring h.nextFreeBlock h.prevFreeBlock (x :: l)) (nodup : (x :: l).Nodup)
    (member : .block a ∈ x :: l) (more : l ≠ []) : h.prevFreeBlock (.block a) ≠ .block a := by
  obtain ⟨us, vs, split⟩ := append_of_mem member
  rw [split] at ring nodup
  intro self
  have alone := (prev_eq_self_iff (ring_rotate ring)
    (by simpa using (perm_append_comm.nodup_iff.mp nodup))).mp self
  obtain ⟨rfl, rfl⟩ := append_eq_nil_iff.mp alone
  simp only [nil_append, cons.injEq] at split
  exact more split.2

private theorem remove_child {h : FreeLists} {s : Slot} {p : Addr} {others : List Addr} {one : Bool}
    {c c' other : Trie Addr}
    {removed : Option FreeLists} {index : Nat} (node : NodeAt h s p others)
    (treeOther : Tree h (.child p !one) other)
    (nodup : (graft (p :: others) one c other).elements.Nodup)
    (outside : SlotOutside s (graft (p :: others) one c other).elements)
    (below : ∃ h', removed = some h' ∧ Tree h' (.child p one) c' ∧
      Frame h h' c.elements (.child p one) ∧
      h'.largeFreeBitmap = clearBit h.largeFreeBitmap index (Slot.child p one = .bucket index ∧
        c' = .nil)) :
    ∃ h', removed = some h' ∧ Tree h' s (graft (p :: others) one c' other) ∧
      Frame h h' (graft (p :: others) one c other).elements s ∧
      h'.largeFreeBitmap = clearBit h.largeFreeBitmap index
        (s = .bucket index ∧ graft (p :: others) one c' other = .nil) := by
  have whole := elements_graft (p :: others) one c other
  obtain ⟨h', ends, treeNew, frame, bitmap⟩ := below
  obtain ⟨node', treeOther', frame'⟩ := node_frame node treeOther frame (whole.nodup_iff.mp nodup)
    fun b member =>
    outside b (whole.mem_iff.mpr member)
  refine ⟨h', ends, tree_graft node' treeNew treeOther', frame'.mono (fun b => whole.mem_iff.mpr)
    (.inl rfl), ?_⟩
  rw [bitmap, clearBit, clearBit, if_neg (by simp), if_neg (by cases one <;> simp [graft])]

/-- The removal ends with the tree without the block, and nothing outside of the tree has
changed. -/
def RemovesFrom (h : FreeLists) (s : Slot) (t : Trie Addr) (a : Addr) : Prop :=
  ∃ h', h.zendMmRemoveFromFreeList a = some h' ∧ Tree h' s (t.remove a) ∧ Frame h h' t.elements s ∧
    h'.largeFreeBitmap = clearBit h.largeFreeBitmap (zendMmHighBit (h.freeBlockSize a))
      (s = .bucket (zendMmHighBit (h.freeBlockSize a)) ∧ t.remove a = .nil)

section ringBlock

variable {p : Addr} {others : List Addr} {left right : Trie Addr} (node : NodeAt h s p others)
  (nodup : (Trie.node (p :: others) left right).elements.Nodup)

include nodup

theorem nodup_ring : ((p :: others).map FreePtr.block).Nodup :=
  (nodup_map_iff fun _ _ => FreePtr.block.inj).mpr (nodup_append.mp nodup).1

include node

/-- A subtree does not see what happens in the ring of the node above it. -/
theorem unlink_subtree {c : Trie Addr} {s' : Slot} (inRing : a ∈ p :: others)
    (below : ∀ b ∈ c.elements, b ∈ left.elements ++ right.elements) (tree : Tree h s' c) :
    Tree (unlink h (.block a)) s' c := by
  refine tree_congr tree (by simp) fun b inside =>
    (unlink_frame s node.ring inRing).sameAt (fun isInside => ?_) (by simp)
  exact (nodup_append.mp nodup).2.2 b isInside b (below b inside) rfl

/-- A block behind the first one of its ring is only unlinked. -/
theorem remove_ringOther (treeLeft : Tree h (.child p false) left)
    (treeRight : Tree h (.child p true) right) (large : maxSmallSize ≤ h.freeBlockSize a)
    (inOthers : a ∈ others) : RemovesFrom h s (.node (p :: others) left right) a := by
  have inRing : a ∈ p :: others := mem_cons_of_mem p inOthers
  have nodupRing := (nodup_append.mp nodup).1
  have different : a ≠ p := by
    rintro rfl
    exact (nodup_cons.mp nodupRing).1 inOthers
  have company := company_of_ring node.ring (nodup_ring nodup) (mem_map_of_mem inRing)
    (ne_nil_of_mem (mem_map_of_mem (f := FreePtr.block) inOthers))
  obtain ⟨us, vs, rfl⟩ := append_of_mem inOthers
  have erased : (us ++ a :: vs).erase a = us ++ vs := by
    have notBefore : a ∉ us := fun inside =>
      (nodup_append.mp (nodup_cons.mp nodupRing).2).2.2 a inside a (by simp) rfl
    rw [erase_append_right _ notBefore, erase_cons_head]
  have shrunk := @unlink_ring h (.block p) (.block a) (us.map .block) (vs.map .block)
    (by simpa using node.ring) (by simpa using nodup_ring nodup)
  refine ⟨_, (remove_large_eq node.ring (mem_map_of_mem inRing) company large).1
    (node.null a inOthers),
    ?_, (unlink_frame s node.ring inRing).mono (fun b => mem_append_left _) (.inl rfl), ?_⟩
  · rw [remove_other left right inOthers different, erased]
    refine ⟨p, us ++ vs, rfl, ⟨by simpa using node.load, by simpa using shrunk, node.parent, ?_⟩,
      ?_, ?_⟩
    · intro b inside
      refine node.null b ?_
      simp only [mem_append, mem_cons] at inside ⊢
      tauto
    · exact unlink_subtree node nodup inRing (fun b => mem_append_left _) treeLeft
    · exact unlink_subtree node nodup inRing (fun b => mem_append_right _) treeRight
  · rw [clearBit, if_neg (by rw [remove_other left right inOthers different]; simp)]
    rfl

end ringBlock

/-- In the place of the first block of a ring comes the last one. -/
theorem remove_ringFirst {init : List Addr} {q : Addr} {left right : Trie Addr}
    (node : NodeAt h s a (init ++ [q])) (treeLeft : Tree h (.child a false) left)
    (treeRight : Tree h (.child a true) right)
    (nodup : (Trie.node (a :: (init ++ [q])) left right).elements.Nodup)
    (outside : SlotOutside s (Trie.node (a :: (init ++ [q])) left right).elements)
    (large : maxSmallSize ≤ h.freeBlockSize a) :
    RemovesFrom h s (.node (a :: (init ++ [q])) left right) a := by
  have linked := nodup_ring nodup
  have company := @company_of_ring h a _ _ node.ring linked (by simp) (by simp)
  have closed : Ring h.nextFreeBlock h.prevFreeBlock
      (.block a :: (init.map .block ++ [.block q])) := by
    simpa using node.ring
  have before : h.prevFreeBlock (.block a) = .block q := prev_of_ring_concat closed
  have rotated : Ring h.nextFreeBlock h.prevFreeBlock
    (.block q :: ([] ++ .block a :: init.map .block)) :=
    @ring_rotate FreePtr _ _ (.block a :: init.map .block) [.block q] closed
  have nodup' : (FreePtr.block q :: ([] ++ .block a :: init.map .block)).Nodup := by
    refine (Perm.nodup_iff ?_).mp linked
    simp only [map_cons, map_append, map_nil, nil_append]
    exact (perm_append_singleton _ _).cons _ |>.trans (Perm.swap _ _ _)
  have perm : (a :: ((q :: init) ++ (left.elements ++ right.elements))).Perm
      (Trie.node (a :: (init ++ [q])) left right).elements := by
    simp only [elements, cons_append]
    refine Perm.cons a ?_
    rw [append_assoc]
    exact perm_middle.symm
  obtain ⟨h', substituted, tree', frame, bitmap⟩ :=
    @substBlock_tree (unlink h (.block a)) s a q init false left right
      (by simpa using node.load) node.parent
      (unlink_subtree node nodup (by simp) (fun b => mem_append_left _) treeLeft)
      (unlink_subtree node nodup (by simp) (fun b => mem_append_right _) treeRight)
      (unlink_ring rotated nodup') (fun b inside => node.null b (by simp [inside]))
      (perm.nodup_iff.mpr nodup) (fun b inside => outside b (perm.mem_iff.mp inside))
  refine ⟨h', ?_, ?_, ?_, ?_⟩
  · rw [(remove_large_eq node.ring (by simp) company large).2 node.parent before]
    exact substituted
  · rw [remove_first]
    exact tree'
  · exact ((unlink_frame s node.ring (by simp)).mono (fun b => mem_append_left _) (.inl rfl)).trans
      (frame.mono (fun b inside => perm.mem_iff.mp inside) (.inl rfl))
  · rw [bitmap, clearBit, if_neg (by rw [remove_first]; simp)]
    rfl

/-- A block is removed from its tree, wherever it stands in it. -/
theorem remove_tree (tree : Tree h s t) (member : a ∈ t.elements) (nodup : t.elements.Nodup)
    (outside : SlotOutside s t.elements) (height : t.height ≤ numBuckets)
    (large : maxSmallSize ≤ h.freeBlockSize a) : RemovesFrom h s t a := by
  induction t generalizing s with
  | nil => cases member
  | node ring left right ihLeft ihRight =>
    have whole := tree
    obtain ⟨p, others, rfl, node, treeLeft, treeRight⟩ := tree
    obtain ⟨nodupLeft, nodupRight, -⟩ := nodup_append.mp (nodup_append.mp nodup).2.1
    rcases mem_elements_cases member with alone | ⟨init, q, first⟩ | ⟨p', others', shape,
      different, inOthers⟩ |
      ⟨absent, inLeft⟩ | ⟨absent, notLeft, inRight⟩
    · cases alone
      rw [RemovesFrom, remove_alone, zendMmRemoveFromFreeList, if_pos node.ring.2,
        if_neg (by simpa using node.ring.1)]
      exact removeAlone_spec whole nodup outside height
    · cases first
      exact remove_ringFirst node treeLeft treeRight nodup outside large
    · cases shape
      exact remove_ringOther node nodup treeLeft treeRight large inOthers
    · rw [RemovesFrom, remove_left right absent inLeft]
      have fits : left.height ≤ numBuckets := by simp only [Trie.height] at height; omega
      exact @remove_child _ _ _ _ false left _ _ _ _ node treeRight nodup outside
        (ihLeft treeLeft inLeft nodupLeft (slotOutside_child nodup) fits)
    · rw [RemovesFrom, remove_right absent notLeft]
      have fits : right.height ≤ numBuckets := by simp only [Trie.height] at height; omega
      exact @remove_child _ _ _ _ true right _ _ _ _ node treeLeft nodup outside
        (ihRight treeRight inRight nodupRight
          (slotOutside_child ((elements_graft _ true right left).nodup_iff.mp nodup)) fits)

end Jonj.Alloc
