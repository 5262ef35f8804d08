import Jonj.Alloc.Buckets
import Mathlib.Data.Nat.Bitwise

/-!
# The search for a large block

The search sees two ways through the tree of its bucket: the one that the bits of `true_size` lead,
and one that starts at the last subtree to the right of it. That is enough to find a block that is
large enough whenever there is one, and not enough to find the smallest of them: the second way
passes the blocks to its left by.
-/
namespace Jonj.Alloc

open BitTrie Circular FreeLists List Trie

variable {h : FreeLists}

/-! ### The order of the sizes in one bucket -/

variable {index : Nat}

private theorem sizeBit_of_le {size d : Nat} (beyond : index ≤ d) (small : index < 64) :
    sizeBit index size d = false := by
  have shift : ¬ 64 - index + d ≤ 63 := by omega
  rw [sizeBit, topBit, numBuckets, Nat.testBit_mod_two_pow, Nat.testBit_mul_two_pow]
  simp [shift]

theorem ordered_sizes (small : index < 64) :
    Trie.Ordered (sizeBit index) fun size => size ≠ 0 ∧ size.log2 = index := by
  rintro d x y ⟨positiveX, highX⟩ ⟨positiveY, highY⟩ agree zero one
  have less : d < index := by
    by_contra beyond
    rw [sizeBit_of_le (by omega) small] at one
    cases one
  rw [sizeBit_eq small less] at zero one
  -- the bits between the place where they differ and the highest one are those of smaller depth
  exact Nat.lt_of_testBit (index - 1 - d) zero one fun j above =>
    testBit_eq small highX highY positiveX positiveY fun below => agree (index - 1 - j) (by omega)

/-! ### The best block so far -/

/-- `best_fit` and `best_size` after the blocks in `seen` were looked at. -/
def BestOf (h : FreeLists) (trueSize : Nat) (seen : List Addr) (best : BestFit) : Prop :=
  (best = ⟨none, 2 ^ 64 - 1⟩ ∧ ∀ a ∈ seen, h.freeBlockSize a < trueSize) ∨
    ∃ p ∈ seen, best = ⟨some p, h.freeBlockSize p⟩ ∧ trueSize ≤ h.freeBlockSize p ∧
      ∀ a ∈ seen, trueSize ≤ h.freeBlockSize a → h.freeBlockSize p ≤ h.freeBlockSize a

variable {trueSize : Nat} {a : Addr}

theorem BestOf.improve {seen : List Addr} {best : BestFit} (of : BestOf h trueSize seen best)
    (bound : h.freeBlockSize a < 2 ^ 64 - 1) :
    BestOf h trueSize (seen ++ [a]) (h.improve trueSize a best) := by
  rcases of with ⟨rfl, none⟩ | ⟨p, member, rfl, enough, least⟩
  · by_cases large : trueSize ≤ h.freeBlockSize a
    · refine .inr ⟨a, by simp, ?_, large, ?_⟩
      · rw [FreeLists.improve, if_pos ⟨large, bound⟩]
      · refine forall_mem_append.mpr ⟨fun b before enough => ?_, by simp⟩
        exact absurd (none b before) (Nat.not_lt.mpr enough)
    · refine .inl ⟨?_, ?_⟩
      · rw [FreeLists.improve, if_neg (fun both => large both.1)]
      · exact forall_mem_append.mpr ⟨none, by simpa using large⟩
  · by_cases better : trueSize ≤ h.freeBlockSize a ∧ h.freeBlockSize a < h.freeBlockSize p
    · refine .inr ⟨a, by simp, ?_, better.1, ?_⟩
      · rw [FreeLists.improve, if_pos better]
      · exact forall_mem_append.mpr ⟨fun b before large =>
          (better.2.trans_le (least b before large)).le, by simp⟩
    · refine .inr ⟨p, by simp [member], ?_, enough, ?_⟩
      · rw [FreeLists.improve, if_neg better]
      · exact forall_mem_append.mpr ⟨least, forall_mem_singleton.mpr (by omega)⟩

/-! ### The two walks -/

variable {t : Trie Addr}

theorem Tree.load_eq_root {s : Slot} (tree : Tree h s t) : h.load s = t.root? := by
  cases t with
  | nil => exact tree
  | node ring left right =>
    obtain ⟨p, others, rfl, node, _⟩ := tree
    exact node.load

variable {bit : Nat → Nat → Bool}

private theorem tree_branch {s : Slot} {target d : Nat} (tree : Tree h s t) :
    branch bit target d t ≠ .nil → ∃ s', Tree h s' (branch bit target d t) := by
  induction t generalizing s d with
  | nil => exact fun some => absurd rfl some
  | node ring left right ihLeft ihRight =>
    obtain ⟨p, others, rfl, node, treeLeft, treeRight⟩ := tree
    intro some
    cases side : bit target d with
    | true =>
      rw [branch, if_pos side] at some ⊢
      exact ihRight treeRight some
    | false =>
      by_cases none : branch bit target (d + 1) left = .nil
      · rw [branch_of_nil side none]
        exact ⟨_, treeRight⟩
      · rw [branch_of_ne_nil side none]
        exact ihLeft treeLeft none

theorem child_cases {p : Addr} {one : Bool} (tree : Tree h (.child p one) t) :
    (h.child p one = none ∧ t = .nil) ∨ ∃ c, h.child p one = some c ∧ t ≠ .nil := by
  cases loaded : h.child p one with
  | none => exact .inl ⟨rfl, tree.load_eq_none_iff.mp loaded⟩
  | some c =>
    refine .inr ⟨c, rfl, fun empty => ?_⟩
    have none := tree.load_eq_none_iff.mpr empty
    rw [← child_eq_load, loaded] at none
    cases none

/-- The first walk looks at every block of the path and remembers the last subtree to its right. -/
theorem searchPath_spec {trueSize index d fuel : Nat} {s : Slot} {t : Trie Addr} {p : Addr}
    {best : BestFit} {rst : Option Addr} {seen : List Addr} (tree : Tree h s t)
    (root : h.load s = some p) (height : t.height ≤ fuel)
    (bound : ∀ a ∈ t.elements, h.freeBlockSize a < 2 ^ 64 - 1) (of : BestOf h trueSize seen best) :
    (∃ q ∈ path (sizeBit index) trueSize d t, h.freeBlockSize q = trueSize ∧
      h.searchPath trueSize fuel (trueSize * 2 ^ (numBuckets - index + d) % 2 ^ 64) p best rst =
        some (.exact q)) ∨
    ∃ best', BestOf h trueSize (seen ++ path (sizeBit index) trueSize d t) best' ∧
      h.searchPath trueSize fuel (trueSize * 2 ^ (numBuckets - index + d) % 2 ^ 64) p best rst =
        some (.ended best' (if branch (sizeBit index) trueSize d t = .nil then rst
          else (branch (sizeBit index) trueSize d t).root?)) := by
  induction t generalizing s p d fuel best rst seen with
  | nil => exact absurd (root.symm.trans tree) (by simp)
  | node ring left right ihLeft ihRight =>
    obtain ⟨q, others, rfl, node, treeLeft, treeRight⟩ := tree
    obtain rfl : q = p := Option.some.inj (node.load.symm.trans root)
    obtain ⟨fuel, rfl, fitsLeft, fitsRight⟩ := exists_fuel height
    by_cases exactly : h.freeBlockSize q = trueSize
    · exact .inl ⟨q, by simp [path], exactly, by rw [searchPath, if_pos exactly]⟩
    have improved := of.improve (bound q (by simp [elements]))
    have boundLeft : ∀ a ∈ left.elements, h.freeBlockSize a < 2 ^ 64 - 1 := fun a member =>
      bound a (by simp [elements, member])
    have boundRight : ∀ a ∈ right.elements, h.freeBlockSize a < 2 ^ 64 - 1 := fun a member =>
      bound a (by simp [elements, member])
    have pathCons : ∀ l, seen ++ ([q] ++ l) = seen ++ [q] ++ l := fun l => (append_assoc _ _ _).symm
    rw [searchPath, if_neg exactly]
    simp only [path, head?_cons, Option.toList_some, shift_succ]
    rw [show topBit (trueSize * 2 ^ (numBuckets - index + d) % 2 ^ 64) = sizeBit index trueSize d
      from rfl, Nat.add_assoc]
    cases side : sizeBit index trueSize d with
    | true =>
      rw [branch, if_pos side, pathCons]
      rcases child_cases treeRight with ⟨none, rfl⟩ | ⟨c, some, _⟩
      · rw [none]
        exact .inr ⟨_, by simpa [path] using improved, rfl⟩
      rw [some]
      refine (ihRight treeRight some (by omega) boundRight improved).imp ?_ id
      rintro ⟨a, onPath, rest⟩
      exact ⟨a, by simp [onPath], rest⟩
    | false =>
      simp only [reduceCtorEq, if_true, if_false]
      rw [pathCons]
      -- the right child is remembered, until a deeper one is found
      have remembered : (if (h.child q true).isSome then h.child q true else rst) =
          if right = .nil then rst else right.root? := by
        rcases child_cases treeRight with ⟨none, rfl⟩ | ⟨c, some, other⟩
        · simp [none]
        · rw [if_neg other, ← treeRight.load_eq_root, ← child_eq_load, some]
          rfl
      rw [remembered]
      rcases child_cases treeLeft with ⟨none, rfl⟩ | ⟨c, some, _⟩
      · rw [none, branch_of_nil side rfl]
        exact .inr ⟨_, by simpa [path] using improved, rfl⟩
      rw [some]
      rcases @ihLeft (d + 1) fuel _ c _ (if right = .nil then rst else right.root?) _ treeLeft some
        (by omega) boundLeft
        improved with ⟨a, onPath, rest⟩ | ⟨best', of', ended⟩
      · exact .inl ⟨a, by simp [onPath], rest⟩
      refine .inr ⟨best', of', ?_⟩
      simp only
      rw [ended]
      by_cases empty : branch (sizeBit index) trueSize (d + 1) left = .nil
      · rw [if_pos empty, branch_of_nil side empty]
      · rw [if_neg empty, branch_of_ne_nil side empty, if_neg empty]

theorem walk_child {p : Addr} {left : Trie Addr} (treeLeft : Tree h (.child p false) left) :
    (left = .nil ∧ h.child p (h.child p false).isSome = none) ∨
      (left ≠ .nil ∧ h.child p (h.child p false).isSome = h.load (.child p true)) := by
  rcases child_cases treeLeft with ⟨none, rfl⟩ | ⟨c, some, other⟩
  · exact .inl ⟨rfl, by rw [none]; exact none⟩
  · exact .inr ⟨other, by rw [some]; rfl⟩

private theorem searchRest_spec {fuel : Nat} {best : BestFit} {seen : List Addr}
    (tree : t ≠ .nil → ∃ s, Tree h s t) (height : t.height ≤ fuel)
    (bound : ∀ a ∈ t.elements, h.freeBlockSize a < 2 ^ 64 - 1) (of : BestOf h trueSize seen best) :
    (∃ q ∈ t.steps, h.freeBlockSize q = trueSize ∧
      h.searchRest trueSize fuel t.root? best = some (.exact q)) ∨
      ∃ best', BestOf h trueSize (seen ++ t.steps) best' ∧
        h.searchRest trueSize fuel t.root? best = some (.ended best' none) := by
  induction t generalizing fuel best seen with
  | nil =>
    refine .inr ⟨best, by simpa [steps] using of, ?_⟩
    cases fuel <;> rfl
  | node ring left right ihLeft ihRight =>
    obtain ⟨s, p, others, rfl, node, treeLeft, treeRight⟩ := tree (by simp)
    obtain ⟨fuel, rfl, -, fits⟩ := exists_fuel height
    have root : (Trie.node (p :: others) left right).root? = some p := rfl
    rw [root]
    by_cases exactly : h.freeBlockSize p = trueSize
    · exact .inl ⟨p, root?_mem_steps rfl, exactly, by rw [searchRest, if_pos exactly]⟩
    have improved := of.improve (bound p (by simp [elements]))
    rw [searchRest, if_neg exactly]
    rcases walk_child treeLeft with ⟨rfl, stop⟩ | ⟨other, next⟩
    · rw [stop]
      refine .inr ⟨_, by simpa [steps] using improved, ?_⟩
      cases fuel <;> rfl
    rw [next, treeRight.load_eq_root, steps_of_left _ _ other]
    simp only [head?_cons, Option.toList_some, ← append_assoc]
    refine (ihRight (fun _ => ⟨_, treeRight⟩) fits
      (fun a member => bound a (by simp [elements, member]))
      improved).imp ?_ id
    rintro ⟨q, onWay, rest⟩
    exact ⟨q, by simp [onWay], rest⟩

private theorem searchSmallest_spec {fuel : Nat} {s : Slot} {p bestFit : Addr} (tree : Tree h s t)
    (root : h.load s = some p) (height : t.height ≤ fuel)
    (best : h.freeBlockSize bestFit ≤ h.freeBlockSize p) :
    ∃ q, h.searchSmallest fuel p bestFit = some q ∧ (q = bestFit ∨ q ∈ t.steps) ∧
      h.freeBlockSize q ≤ h.freeBlockSize bestFit ∧
        ∀ a ∈ t.steps, h.freeBlockSize q ≤ h.freeBlockSize a := by
  induction t generalizing fuel s p bestFit with
  | nil => exact absurd (root.symm.trans tree) (by simp)
  | node ring left right ihLeft ihRight =>
    obtain ⟨q, others, rfl, node, treeLeft, treeRight⟩ := tree
    obtain rfl : q = p := Option.some.inj (node.load.symm.trans root)
    obtain ⟨fuel, rfl, -, fits⟩ := exists_fuel height
    rw [searchSmallest]
    rcases walk_child treeLeft with ⟨rfl, stop⟩ | ⟨other, next⟩
    · rw [stop]
      refine ⟨bestFit, rfl, .inl rfl, le_refl _, ?_⟩
      intro a onWay
      obtain rfl : a = q := by simpa [steps] using onWay
      exact best
    rw [next, steps_of_left _ _ other]
    simp only [head?_cons, Option.toList_some, mem_append, mem_singleton]
    rcases child_cases treeRight with ⟨none, rfl⟩ | ⟨c, some, _⟩
    · rw [← child_eq_load, none]
      refine ⟨bestFit, rfl, .inl rfl, le_refl _, ?_⟩
      rintro a (rfl | onWay)
      · exact best
      · cases onWay
    rw [← child_eq_load, some]
    simp only
    by_cases better : h.freeBlockSize c < h.freeBlockSize bestFit
    · rw [if_pos better]
      obtain ⟨r, found, which, atMost, least⟩ :=
        @ihRight fuel _ c c treeRight some (by omega) (le_refl _)
      have onWay : c ∈ right.steps := root?_mem_steps (treeRight.load_eq_root.symm.trans some)
      refine ⟨r, found, ?_, by omega, ?_⟩
      · rcases which with rfl | later
        · exact .inr (.inr onWay)
        · exact .inr (.inr later)
      · rintro a (rfl | later)
        · omega
        · exact least a later
    · rw [if_neg better]
      obtain ⟨r, found, which, atMost, least⟩ :=
        @ihRight fuel _ c bestFit treeRight some (by omega) (by omega)
      refine ⟨r, found, which.imp id .inr, atMost, ?_⟩
      rintro a (rfl | later)
      · omega
      · exact least a later

theorem returnNext_spec {s : Slot} {d : Nat} (tree : Tree h s t)
    (valid : Trie.Valid h.freeBlockSize bit d t) (member : a ∈ t.elements) :
    ∃ q ∈ t.elements, h.returnNext a = some q ∧ h.freeBlockSize q = h.freeBlockSize a := by
  induction t generalizing s d with
  | nil => cases member
  | node ring left right ihLeft ihRight =>
    obtain ⟨p, others, rfl, node, treeLeft, treeRight⟩ := tree
    obtain ⟨_, same, _, _, _, validLeft, validRight⟩ := valid
    simp only [elements, mem_append] at member ⊢
    rcases member with here | inLeft | inRight
    · have next := (neighbours_mem node.ring (mem_map_of_mem here)).2
      obtain ⟨q, inRing, points⟩ := mem_map.mp next
      refine ⟨q, .inl inRing, ?_, same q inRing a here⟩
      rw [returnNext, ← points]
    · obtain ⟨q, isMember, rest⟩ := ihLeft treeLeft validLeft inLeft
      exact ⟨q, .inr (.inl isMember), rest⟩
    · obtain ⟨q, isMember, rest⟩ := ihRight treeRight validRight inRight
      exact ⟨q, .inr (.inr isMember), rest⟩

/-! ### The bitmap -/

private theorem lowBit_spec {bitmap : BitVec 64} (nonzero : bitmap ≠ 0#64) :
    bitmap.getLsbD (zendMmLowBit bitmap) = true ∧ ∀ k < zendMmLowBit bitmap,
      bitmap.getLsbD k = false := by
  cases found : (range 64).find? fun i => bitmap.getLsbD i with
  | none =>
    refine absurd (BitVec.eq_of_getLsbD_eq fun i less => ?_) nonzero
    have unset := find?_eq_none.mp found i (mem_range.mpr less)
    simpa using unset
  | some i =>
    obtain ⟨set, _, first⟩ := find?_range_eq_some.mp found
    have low : zendMmLowBit bitmap = i := by rw [zendMmLowBit, found]; rfl
    rw [low]
    refine ⟨set, fun k less => ?_⟩
    simpa using first k less

section

variable {large : Nat → Trie Addr}

theorem HoldsLarge.index_lt (holds : HoldsLarge h large) {i : Nat} (some : large i ≠ .nil) :
    i < 64 := by
  obtain ⟨a, member⟩ := exists_mem_elements (holds.valid i) some
  obtain ⟨_, bound, high⟩ := holds.size i a member
  rw [← high]
  exact log2_lt_of_lt (by omega)

theorem HoldsLarge.shifted (holds : HoldsLarge h large) (index k : Nat) :
    (h.largeFreeBitmap >>> index).getLsbD k = true ↔ large (index + k) ≠ .nil := by
  rw [BitVec.getLsbD_ushiftRight]
  by_cases less : index + k < 64
  · exact holds.bitmap _ less
  · refine iff_of_false ?_ fun some => less (holds.index_lt some)
    rw [BitVec.getLsbD_of_ge _ _ (by omega)]
    simp

theorem HoldsLarge.shifted_eq_zero (holds : HoldsLarge h large)
    (zero : h.largeFreeBitmap >>> index = 0#64) : ∀ j, index ≤ j → large j = .nil := by
  intro j above
  by_contra some
  have set := (holds.shifted index (j - index)).mpr (by rwa [show index + (j - index) = j by omega])
  rw [zero] at set
  simp at set

/-- The lowest bucket from `index` on that holds a block. -/
structure Lowest (large : Nat → Trie Addr) (index j : Nat) : Prop where
  above : index ≤ j
  some : large j ≠ .nil
  first : ∀ k, index ≤ k → k < j → large k = .nil

private theorem lowest_lowBit (holds : HoldsLarge h large)
    (nonzero : h.largeFreeBitmap >>> index ≠ 0#64) :
    Lowest large index (index + zendMmLowBit (h.largeFreeBitmap >>> index)) := by
  obtain ⟨set, unset⟩ := lowBit_spec nonzero
  refine ⟨by omega, (holds.shifted index _).mp set, fun k above below => ?_⟩
  by_contra some
  have isSet := (holds.shifted index (k - index)).mpr
    (by rwa [show index + (k - index) = k by omega])
  rw [unset (k - index) (by omega)] at isSet
  cases isSet

theorem Lowest.unique {j j' : Nat} (lowest : Lowest large index j)
    (lowest' : Lowest large index j') : j = j' := by
  rcases Nat.lt_trichotomy j j' with less | same | greater
  · exact absurd (lowest'.first j lowest.above less) lowest.some
  · exact same
  · exact absurd (lowest.first j' lowest'.above greater) lowest'.some

/-! ### The whole search -/

/-- The blocks of its own bucket that the search looks at. -/
def visited (large : Nat → Trie Addr) (trueSize : Nat) : List Addr :=
  let index := zendMmHighBit trueSize
  Trie.path (sizeBit index) trueSize 0 (large index) ++
    (Trie.branch (sizeBit index) trueSize 0 (large index)).steps

/-- The search ends with a block of the tree, of the size of the smallest sufficient one in a
list. -/
def ReturnsLeast (h : FreeLists) (found : Option (Option Addr)) (t : Trie Addr) (trueSize : Nat)
    (seen : List Addr) :
    Prop :=
  ∃ q ∈ t.elements, found = some (some q) ∧ ∃ p ∈ seen, h.freeBlockSize q = h.freeBlockSize p ∧
    trueSize ≤ h.freeBlockSize p ∧ ∀ a ∈ seen, trueSize ≤ h.freeBlockSize a →
      h.freeBlockSize p ≤ h.freeBlockSize a

private theorem searchLarger_spec (holds : HoldsLarge h large)
    (nonzero : h.largeFreeBitmap >>> index ≠ 0#64) :
    ∃ j, Lowest large index j ∧
      ReturnsLeast h (h.searchLarger index (h.largeFreeBitmap >>> index))
        (large j) 0 (large j).steps := by
  have lowest := lowest_lowBit holds nonzero
  refine ⟨_, lowest, ?_⟩
  generalize bucket : index + zendMmLowBit (h.largeFreeBitmap >>> index) = j at lowest
  have tree := holds.tree j
  obtain ⟨p, root⟩ := tree.exists_load lowest.some
  obtain ⟨r, found, which, _, least⟩ := searchSmallest_spec tree root (holds.height j)
    (le_refl (h.freeBlockSize p))
  have onWay : r ∈ (large j).steps := by
    rcases which with rfl | later
    · exact root?_mem_steps (tree.load_eq_root.symm.trans root)
    · exact later
  obtain ⟨q, member, next, size⟩ := returnNext_spec tree (holds.valid j) (steps_subset onWay)
  refine ⟨q, member, ?_, r, onWay, size, Nat.zero_le _, fun a isSeen _ => least a isSeen⟩
  have bucketRoot : h.largeFreeBuckets j = some p := root
  rw [searchLarger, bucket, bucketRoot]
  simp only
  rw [found, Option.bind_some, next]
  rfl

/-- What the search returns: a block of its bucket, else one of the lowest larger bucket, else
NULL. -/
theorem search_cases (holds : HoldsLarge h large) (trueSize : Nat) :
    ReturnsLeast h (h.zendMmSearchLargeBlock trueSize)
      (large (zendMmHighBit trueSize)) trueSize (visited large trueSize) ∨
      (∀ a ∈ visited large trueSize, h.freeBlockSize a < trueSize) ∧
        ((∃ j, Lowest large (zendMmHighBit trueSize + 1) j ∧
            ReturnsLeast h (h.zendMmSearchLargeBlock trueSize) (large j) 0 (large j).steps) ∨
          (∀ j, zendMmHighBit trueSize < j → large j = .nil) ∧
            h.zendMmSearchLargeBlock trueSize = some none) := by
  unfold visited
  rw [zendMmSearchLargeBlock]
  generalize zendMmHighBit trueSize = index
  simp only
  by_cases zero : h.largeFreeBitmap >>> index = 0#64
  · -- no bucket holds anything
    have none := holds.shifted_eq_zero zero
    rw [if_pos zero, none index (le_refl _)]
    refine .inr ⟨by simp [path, branch, steps], .inr ⟨fun j above => none j (by omega), rfl⟩⟩
  rw [if_neg zero]
  -- first the bucket of the size itself, then the buckets of larger sizes
  by_cases own : (h.largeFreeBitmap >>> index).getLsbD 0 = true
  · rw [if_pos own]
    have tree := holds.tree index
    obtain ⟨p, root⟩ := tree.exists_load ((holds.shifted index 0).mp own)
    have bucketRoot : h.largeFreeBuckets index = some p := root
    rw [bucketRoot]
    simp only
    have bound : ∀ a ∈ (large index).elements, h.freeBlockSize a < 2 ^ 64 - 1 := fun a member =>
      (holds.size index a member).2.1
    have returns : ∀ a ∈ (large index).elements, ∀ seen, a ∈ seen → trueSize ≤ h.freeBlockSize a →
        (∀ b ∈ seen, trueSize ≤ h.freeBlockSize b → h.freeBlockSize a ≤ h.freeBlockSize b) →
        ReturnsLeast h ((h.returnNext a).map some) (large index) trueSize seen := by
      intro a member seen isSeen enough least
      obtain ⟨q, inside, next, size⟩ := returnNext_spec tree (holds.valid index) member
      exact ⟨q, inside, by rw [next]; rfl, a, isSeen, size, enough, least⟩
    have start : BestOf h trueSize [] ⟨none, 2 ^ 64 - 1⟩ := .inl ⟨rfl, by simp⟩
    rcases @searchPath_spec h trueSize index 0 numBuckets _ _ p _ none _ tree root
      (holds.height index) bound start with
      ⟨q, onPath, exactly, ended⟩ | ⟨best, of, ended⟩
    · rw [Nat.add_zero] at ended
      rw [ended, Option.bind_some]
      refine .inl (returns q (path_subset onPath) _ (mem_append_left _ onPath) (by omega) ?_)
      intro b _ enough
      omega
    rw [Nat.add_zero] at ended
    rw [ended, Option.bind_some]
    have rest : (if branch (sizeBit index) trueSize 0 (large index) = .nil then none
        else (branch (sizeBit index) trueSize 0 (large index)).root?) =
          (branch (sizeBit index) trueSize 0 (large index)).root? := by
      split
      next empty => rw [empty]; rfl
      · rfl
    simp only [rest]
    have height := (height_branch (sizeBit index) trueSize 0 (large index)).trans
      (holds.height index)
    -- beside the way of the bits the last branch to the right has the next larger sizes
    rcases searchRest_spec (tree_branch tree) height
      (fun a member => bound a (branch_subset member)) of with
      ⟨q, onWay, exactly, ended⟩ | ⟨best', of', ended⟩
    · rw [ended, Option.bind_some]
      refine .inl (returns q (branch_subset (steps_subset onWay)) _ (mem_append_right _ onWay)
        (by omega) ?_)
      intro b _ enough
      omega
    rw [ended, Option.bind_some]
    rcases of' with ⟨rfl, tooSmall⟩ | ⟨q, isSeen, rfl, enough, least⟩
    · refine .inr ⟨tooSmall, ?_⟩
      simp only [← BitVec.shiftRight_add]
      by_cases last : h.largeFreeBitmap >>> (index + 1) = 0#64
      · rw [if_pos last]
        exact .inr ⟨fun j above => holds.shifted_eq_zero last j above, rfl⟩
      · rw [if_neg last]
        exact .inl (searchLarger_spec holds last)
    · refine .inl (returns q ?_ _ isSeen enough least)
      rcases mem_append.mp isSeen with onPath | onWay
      · exact path_subset onPath
      · exact branch_subset (steps_subset onWay)
  · rw [if_neg own]
    have empty : large index = .nil := by
      by_contra some
      exact own ((holds.shifted index 0).mpr some)
    obtain ⟨j, lowest, returns⟩ := searchLarger_spec holds zero
    refine .inr ⟨by simp [empty, path, branch, steps], .inl ⟨j, ⟨?_, lowest.some, ?_⟩, returns⟩⟩
    · have above := lowest.above
      by_contra below
      obtain rfl : j = index := by omega
      exact lowest.some empty
    · exact fun k above below => lowest.first k (by omega) below

/-! ### What is large enough -/

theorem HoldsLarge.known (holds : HoldsLarge h large) {i : Nat} (member : a ∈ (large i).elements) :
    h.freeBlockSize a ≠ 0 ∧ (h.freeBlockSize a).log2 = i := by
  obtain ⟨atLeast, _, high⟩ := holds.size i a member
  simp only [maxSmallSize, numBuckets, alignedMinHeaderSize] at atLeast
  exact ⟨by omega, high⟩

theorem log2_mono {x y : Nat} (atMost : x ≤ y) : x.log2 ≤ y.log2 := by
  rw [Nat.log2_eq_log_two, Nat.log2_eq_log_two]
  exact Nat.log_mono_right atMost

theorem lt_of_log2_lt {x y : Nat} (less : x.log2 < y.log2) : x < y :=
  Nat.not_le.mp fun atMost => Nat.not_le.mpr less (log2_mono atMost)

section

variable (holds : HoldsLarge h large) {i : Nat} {size : Nat} (member : a ∈ (large i).elements)

include holds member

/-- A block of a lower bucket is too small, one of a higher bucket is large enough. -/
theorem HoldsLarge.lower (below : i < size.log2) : h.freeBlockSize a < size :=
  lt_of_log2_lt ((holds.known member).2.trans_lt below)

theorem HoldsLarge.higher (above : size.log2 < i) : size < h.freeBlockSize a :=
  lt_of_log2_lt (above.trans_eq (holds.known member).2.symm)

end

theorem visited_cover (holds : HoldsLarge h large)
    (member : a ∈ (large (zendMmHighBit trueSize)).elements) :
    (∀ b ∈ (branch (sizeBit (zendMmHighBit trueSize)) trueSize 0
      (large (zendMmHighBit trueSize))).elements,
        trueSize < h.freeBlockSize b) ∧ (trueSize ≤ h.freeBlockSize a →
        (∃ q ∈ path (sizeBit (zendMmHighBit trueSize)) trueSize 0 (large (zendMmHighBit trueSize)),
            h.freeBlockSize q = h.freeBlockSize a) ∨
          ∃ b ∈ (branch (sizeBit (zendMmHighBit trueSize)) trueSize 0
            (large (zendMmHighBit trueSize))).elements,
            h.freeBlockSize b ≤ h.freeBlockSize a) := by
  have positive : trueSize ≠ 0 := by
    rintro rfl
    obtain ⟨atLeast, _, high⟩ := holds.size _ a member
    simp only [maxSmallSize, numBuckets, alignedMinHeaderSize] at atLeast
    have nine : (544 : Nat).log2 ≤ (h.freeBlockSize a).log2 := log2_mono (by omega)
    rw [show (h.freeBlockSize a).log2 = zendMmHighBit 0 from high] at nine
    exact absurd nine (by decide)
  have index := holds.index_lt (i := zendMmHighBit trueSize) fun empty => by
    rw [empty] at member
    cases member
  obtain ⟨above, covered⟩ := @cover _ _ _ trueSize _ (ordered_sizes index) _ _ (holds.valid _)
    (fun b inside => holds.known inside) ⟨positive, rfl⟩ fun _ _ e less => absurd less (by omega)
  exact ⟨above, covered a member⟩

private theorem exists_root {key : Addr → Nat} {d : Nat} (valid : Trie.Valid key bit d t)
    (other : t ≠ .nil) : ∃ p, t.root? = some p ∧ p ∈ t.elements := by
  cases t with
  | nil => exact absurd rfl other
  | node ring left right =>
    obtain ⟨p, others, rfl⟩ := exists_cons_of_ne_nil valid.1
    exact ⟨p, rfl, by simp [elements]⟩

private theorem exists_visited (holds : HoldsLarge h large)
    (member : a ∈ (large (zendMmHighBit trueSize)).elements)
    (enough : trueSize ≤ h.freeBlockSize a) :
    ∃ v ∈ visited large trueSize, trueSize ≤ h.freeBlockSize v := by
  obtain ⟨above, covered⟩ := visited_cover holds member
  rcases covered enough with ⟨q, onPath, same⟩ | ⟨b, inside, _⟩
  · exact ⟨q, mem_append_left _ onPath, by omega⟩
  obtain ⟨d, valid, _⟩ := @valid_branch _ _ _ trueSize _ _ (holds.valid (zendMmHighBit trueSize))
  obtain ⟨p, root, isElement⟩ := exists_root valid (by
    intro empty
    rw [empty] at inside
    cases inside)
  exact ⟨p, mem_append_right _ (root?_mem_steps root), le_of_lt (above p isElement)⟩

theorem own_small (holds : HoldsLarge h large)
    (tooSmall : ∀ a ∈ visited large trueSize, h.freeBlockSize a < trueSize)
    (member : a ∈ (large (zendMmHighBit trueSize)).elements) : h.freeBlockSize a < trueSize := by
  by_contra enough
  obtain ⟨v, isSeen, isEnough⟩ := exists_visited holds member (Nat.not_lt.mp enough)
  exact Nat.not_le.mpr (tooSmall v isSeen) isEnough

/-- The search returns a large free block that is large enough, or NULL if there is none. -/
theorem search_sufficient (holds : HoldsLarge h large) (trueSize : Nat) :
    (∃ i, ∃ q ∈ (large i).elements, h.zendMmSearchLargeBlock trueSize = some (some q) ∧
      trueSize ≤ h.freeBlockSize q) ∨
      h.zendMmSearchLargeBlock trueSize = some none ∧ ∀ i, ∀ a ∈ (large i).elements,
        h.freeBlockSize a < trueSize := by
  rcases search_cases holds trueSize with ⟨q, member, found, p, _, size, enough, _⟩ | ⟨tooSmall,
    larger | ⟨none, found⟩⟩
  · exact .inl ⟨_, q, member, found, by omega⟩
  · obtain ⟨j, lowest, q, member, found, _⟩ := larger
    exact .inl ⟨j, q, member, found, le_of_lt (holds.higher member lowest.above)⟩
  refine .inr ⟨found, fun i a member => ?_⟩
  rcases Nat.lt_trichotomy i (zendMmHighBit trueSize) with below | rfl | above
  · exact holds.lower member below
  · exact own_small holds tooSmall member
  · rw [none i above] at member
    cases member

/-! ### Which block is the smallest -/

/-- The smallest sufficient block lies where the search can see it: on the path or at the root of
the last subtree to the right of it. If the bucket has no sufficient block, the root of the next
bucket is its smallest block. -/
def LeastShown (size : Addr → Nat) (large : Nat → Trie Addr) (trueSize : Nat) : Prop :=
  let index := zendMmHighBit trueSize
  (∃ v ∈ Trie.path (sizeBit index) trueSize 0 (large index) ++
        (Trie.branch (sizeBit index) trueSize 0 (large index)).root?.toList,
      trueSize ≤ size v ∧ ∀ a ∈ (large index).elements, trueSize ≤ size a → size v ≤ size a) ∨
    (∀ a ∈ (large index).elements, size a < trueSize) ∧
      ∀ j, Lowest large (index + 1) j → ∃ p, (large j).root? = some p ∧ ∀ a ∈ (large j).elements,
        size p ≤ size a

/-- No sufficient block is smaller. -/
def IsLeast (size : Addr → Nat) (large : Nat → Trie Addr) (trueSize : Nat) (q : Addr) : Prop :=
  ∀ i, ∀ a ∈ (large i).elements, trueSize ≤ size a → size q ≤ size a

/-- In its own bucket the search returns a smallest block if and only if one is shown. -/
theorem least_own (holds : HoldsLarge h large) {found : Option (Option Addr)}
    (returns : ReturnsLeast h found (large (zendMmHighBit trueSize)) trueSize
      (visited large trueSize)) :
    (∀ q, found = some (some q) → IsLeast h.freeBlockSize large trueSize q) ↔
      LeastShown h.freeBlockSize large trueSize := by
  obtain ⟨q, member, rfl, p, isSeen, size, enough, least⟩ := returns
  obtain ⟨above, _⟩ := visited_cover holds member
  constructor
  · intro isLeast
    have smallest : ∀ a ∈ (large (zendMmHighBit trueSize)).elements, trueSize ≤ h.freeBlockSize a →
        h.freeBlockSize p ≤ h.freeBlockSize a := by
      intro a inside isEnough
      have atMost := isLeast q rfl _ a inside isEnough
      omega
    rcases mem_append.mp isSeen with onPath | onWay
    · exact .inl ⟨p, mem_append_left _ onPath, enough, smallest⟩
    -- the way met the least size of the subtree, so it is that of the root
    obtain ⟨d, valid, alike⟩ := @valid_branch _ _ _ trueSize
      _ _ (holds.valid (zendMmHighBit trueSize))
    have inBranch := steps_subset onWay
    have index := holds.index_lt (i := zendMmHighBit trueSize) fun empty => by
      rw [empty] at member
      cases member
    obtain ⟨r, root, rootLeast⟩ := root_least_of_steps (ordered_sizes index) valid
      (fun a inside => holds.known (branch_subset inside))
        (alike fun _ _ _ _ e less => absurd less (by omega)) onWay
      fun a inside => smallest a (branch_subset inside) (le_of_lt (above a inside))
    refine .inl ⟨r, mem_append_right _ (by simp [root]), ?_, fun a inside isEnough => ?_⟩
    · exact le_of_lt (above r (steps_subset (root?_mem_steps root)))
    · exact (rootLeast p inBranch).trans (smallest a inside isEnough)
  · intro shown q' same i a inside isEnough
    obtain rfl : q = q' := Option.some.inj (Option.some.inj same)
    rcases shown with ⟨v, shownAt, vEnough, vLeast⟩ | ⟨tooSmall, _⟩
    · have vSeen : v ∈ visited large trueSize := by
        rcases mem_append.mp shownAt with onPath | atRoot
        · exact mem_append_left _ onPath
        · exact mem_append_right _ (root?_mem_steps (by simpa using atRoot))
      have atMost := least v vSeen vEnough
      rcases Nat.lt_trichotomy i (zendMmHighBit trueSize) with below | rfl | higher
      · have small := holds.lower inside below
        omega
      · have least' := vLeast a inside isEnough
        omega
      -- sizes of a higher bucket are greater than those of this one
      have greater : h.freeBlockSize q < h.freeBlockSize a :=
        holds.higher inside (by rw [(holds.known member).2]; exact higher)
      omega
    · have small := tooSmall q member
      omega

/-- In a larger bucket the search returns a smallest block if and only if the root is one. -/
theorem least_larger (holds : HoldsLarge h large) {j : Nat} {found : Option (Option Addr)}
    (tooSmall : ∀ a ∈ visited large trueSize, h.freeBlockSize a < trueSize)
    (lowest : Lowest large (zendMmHighBit trueSize + 1) j)
    (returns : ReturnsLeast h found (large j) 0 (large j).steps) :
    (∀ q, found = some (some q) → IsLeast h.freeBlockSize large trueSize q) ↔
      LeastShown h.freeBlockSize large trueSize := by
  obtain ⟨q, member, rfl, p, onWay, size, _, least⟩ := returns
  have ownSmall : ∀ a ∈ (large (zendMmHighBit trueSize)).elements, h.freeBlockSize a < trueSize :=
    fun a => own_small holds tooSmall
  have above : ∀ a ∈ (large j).elements, trueSize < h.freeBlockSize a :=
    fun a inside => holds.higher inside lowest.above
  constructor
  · intro isLeast
    refine .inr ⟨ownSmall, fun j' lowest' => ?_⟩
    obtain rfl := lowest.unique lowest'
    refine root_least_of_steps (ordered_sizes (holds.index_lt lowest.some)) (holds.valid j)
      (fun a inside => holds.known inside) (fun _ _ _ _ e less => absurd less (by omega)) onWay
        fun a inside => ?_
    have atMost := isLeast q rfl j a inside (le_of_lt (above a inside))
    omega
  · intro shown q' same i a inside isEnough
    obtain rfl : q = q' := Option.some.inj (Option.some.inj same)
    rcases shown with ⟨v, shownAt, vEnough, _⟩ | ⟨_, rootLeast⟩
    · have isElement : v ∈ (large (zendMmHighBit trueSize)).elements := by
        rcases mem_append.mp shownAt with onPath | atRoot
        · exact path_subset onPath
        · exact branch_subset (steps_subset (root?_mem_steps (by simpa using atRoot)))
      have small := ownSmall v isElement
      omega
    obtain ⟨r, root, smallest⟩ := rootLeast j lowest
    have atMost := least r (root?_mem_steps root) (Nat.zero_le _)
    rcases Nat.lt_trichotomy i j with below | rfl | higher
    · -- nothing sufficient lies below the lowest bucket
      by_cases own : i ≤ zendMmHighBit trueSize
      · rcases Nat.lt_or_eq_of_le own with lower | rfl
        · have small := holds.lower inside lower
          omega
        · have small := ownSmall a inside
          omega
      · rw [lowest.first i (by omega) below] at inside
        cases inside
    · have least' := smallest a inside
      omega
    · have greater : h.freeBlockSize q < h.freeBlockSize a :=
        holds.higher inside (by rw [(holds.known member).2]; exact higher)
      omega

/-- The search returns a smallest sufficient block exactly where one is shown to it. -/
theorem search_least (holds : HoldsLarge h large) (trueSize : Nat) :
    (∀ q, h.zendMmSearchLargeBlock trueSize = some (some q) →
      IsLeast h.freeBlockSize large trueSize q) ↔
      LeastShown h.freeBlockSize large trueSize := by
  rcases search_cases holds trueSize with own | ⟨tooSmall, ⟨j, lowest, returns⟩ | ⟨none, found⟩⟩
  · exact least_own holds own
  · exact least_larger holds tooSmall lowest returns
  refine iff_of_true ?_ (.inr ⟨fun a member => ?_, fun j lowest => ?_⟩)
  · intro q returned
    rw [found] at returned
    cases returned
  · exact own_small holds tooSmall member
  · exact absurd (none j lowest.above) lowest.some

end

end Jonj.Alloc
