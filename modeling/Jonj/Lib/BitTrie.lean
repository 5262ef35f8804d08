import Mathlib.Tactic

/-!
# Digital tries

A node of the trie holds the elements of one key, as a nonempty list. The elements below its left
child have a zero at the bit of its depth, those below its right child a one; the keys of the nodes
are not ordered otherwise.
-/
namespace Jonj.BitTrie

open List

inductive Trie (A : Type)
  | nil
  | node (ring : List A) (left right : Trie A)
  deriving DecidableEq

variable {d : Nat}

namespace Trie

variable {A : Type}

def elements : Trie A → List A
  | nil => []
  | node ring left right => ring ++ (left.elements ++ right.elements)

theorem left_subset {ring : List A} {left right : Trie A} :
    ∀ b ∈ left.elements, b ∈ (node ring left right).elements :=
  fun b member => by simp [elements, member]

theorem right_subset {ring : List A} {left right : Trie A} :
    ∀ b ∈ right.elements, b ∈ (node ring left right).elements :=
  fun b member => by simp [elements, member]

def height : Trie A → Nat
  | nil => 0
  | node _ left right => max left.height right.height + 1

theorem exists_fuel {ring : List A} {left right : Trie A} {fuel : Nat}
    (enough : (node ring left right).height ≤ fuel) :
    ∃ n, fuel = n + 1 ∧ left.height ≤ n ∧ right.height ≤ n := by
  rw [height] at enough
  exact ⟨fuel - 1, by omega, by omega, by omega⟩

variable {t : Trie A} {a : A}

section keys

variable (key : A → Nat) (bit : Nat → Nat → Bool)

/-- The invariant of a trie whose root is at depth `d`. -/
def Valid : Nat → Trie A → Prop
  | _, nil => True
  | d, node ring left right => ring ≠ [] ∧ (∀ a ∈ ring, ∀ b ∈ ring, key a = key b) ∧
      (∀ a ∈ ring, ∀ b ∈ left.elements ++ right.elements, key a ≠ key b) ∧
      (∀ b ∈ left.elements, bit (key b) d = false) ∧ (∀ b ∈ right.elements, bit (key b) d = true) ∧
      Valid (d + 1) left ∧ Valid (d + 1) right

/-- A new element joins the node of its key, or becomes a leaf. -/
def insert (a : A) : Nat → Trie A → Trie A
  | _, nil => node [a] nil nil
  | _, node [] left right => node [a] left right
  | d, node (p :: others) left right =>
    if key p = key a then node (p :: a :: others) left right
    else if bit (key a) d then node (p :: others) left (insert a (d + 1) right)
    else node (p :: others) (insert a (d + 1) left) right

variable {key bit}

/-- An insertion adds one element. -/
theorem elements_insert (a : A) (d : Nat) (t : Trie A) :
    (insert key bit a d t).elements.Perm (a :: t.elements) := by
  induction t generalizing d with
  | nil => exact Perm.refl _
  | node ring left right ihLeft ihRight =>
    cases ring with
    | nil => exact Perm.refl _
    | cons p others =>
      rw [insert]
      split
      · exact Perm.swap a p _
      split
      · simp only [elements]
        have moved := ((ihRight (d + 1)).append_left left.elements).append_left (p :: others)
        refine moved.trans ?_
        rw [← append_assoc, ← append_assoc]
        exact perm_middle
      · have moved := ((ihLeft (d + 1)).append_right right.elements).append_left (p :: others)
        exact moved.trans perm_middle

theorem mem_elements_insert {a x : A} {d : Nat} {t : Trie A} :
    x ∈ (insert key bit a d t).elements ↔ x = a ∨ x ∈ t.elements := by
  rw [(elements_insert a d t).mem_iff, mem_cons]

/-- By induction on the tree; the new element takes the way of its bits. -/
theorem valid_insert (valid : Valid key bit d t) : Valid key bit d (insert key bit a d t) := by
  induction t generalizing d with
  | nil => simp [insert, Valid, elements]
  | node ring left right ihLeft ihRight =>
    obtain ⟨nonempty, same, others, low, high, validLeft, validRight⟩ := valid
    cases ring with
    | nil => exact absurd rfl nonempty
    | cons p ring =>
      rw [insert]
      split
      next equal =>
        refine ⟨cons_ne_nil _ _, ?_, ?_, low, high, validLeft, validRight⟩
        · have all : ∀ x ∈ p :: a :: ring, key x = key p := by
            intro x member
            simp only [mem_cons] at member
            rcases member with rfl | rfl | later
            · rfl
            · exact equal.symm
            · exact same x (by simp [later]) p (by simp)
          intro x memberX y memberY
          rw [all x memberX, all y memberY]
        · intro x member y below
          have first := others p (by simp) y below
          simp only [mem_cons] at member
          rcases member with rfl | rfl | later
          · exact first
          · rw [← equal]
            exact first
          · exact others x (by simp [later]) y below
      next different =>
        have apart : ∀ x ∈ p :: ring, key x ≠ key a := by
          intro x member
          rw [same x member p (by simp)]
          exact different
        have others : ∀ x ∈ p :: ring, ∀ y, y = a ∨ y ∈ left.elements ++ right.elements →
            key x ≠ key y := by
          rintro x member y (rfl | old)
          · exact apart x member
          · exact others x member y old
        split
        next one =>
          refine ⟨nonempty, same, fun x member y below => others x member y ?_, low, ?_, validLeft,
            ihRight validRight⟩
          · simp only [mem_append, mem_elements_insert] at below ⊢
            tauto
          intro y below
          rcases mem_elements_insert.mp below with rfl | old
          · exact one
          · exact high y old
        next zero =>
          refine ⟨nonempty, same, fun x member y below => others x member y ?_, ?_, high,
            ihLeft validLeft, validRight⟩
          · simp only [mem_append, mem_elements_insert] at below ⊢
            tauto
          intro y below
          rcases mem_elements_insert.mp below with rfl | old
          · exact Bool.eq_false_iff.mpr zero
          · exact low y old

theorem eq_nil_of_elements (valid : Valid key bit d t) (empty : t.elements = []) : t = nil := by
  cases t with
  | nil => rfl
  | node ring left right => exact absurd (append_eq_nil_iff.mp empty).1 valid.1

theorem exists_mem_elements (valid : Valid key bit d t) (some : t ≠ nil) : ∃ a, a ∈ t.elements :=
  exists_mem_of_ne_nil _ fun empty => some (eq_nil_of_elements valid empty)

def Alike (key : A → Nat) (bit : Nat → Nat → Bool) (d : Nat) (t : Trie A) : Prop :=
  ∀ a ∈ t.elements, ∀ b ∈ t.elements, ∀ e < d, bit (key a) e = bit (key b) e

theorem Alike.of_side {c : Trie A} (alike : Alike key bit d t) {one : Bool}
    (subset : ∀ a ∈ c.elements, a ∈ t.elements) (side : ∀ a ∈ c.elements, bit (key a) d = one) :
    Alike key bit (d + 1) c := by
  intro a inA b inB e less
  by_cases here : e = d
  · rw [here, side a inA, side b inB]
  · exact alike a (subset a inA) b (subset b inB) e (by omega)

/-- Keys that `n` bits tell apart make a trie of at most `n + 1` levels. -/
theorem height_le {n d : Nat} {t : Trie A} (valid : Valid key bit d t) (depth : d ≤ n)
    (agree : Alike key bit d t)
    (separates : ∀ a ∈ t.elements, ∀ b ∈ t.elements, (∀ e < n, bit (key a) e = bit (key b) e) →
      key a = key b) :
    t.height ≤ n - d + 1 := by
  induction t generalizing d with
  | nil => simp [height]
  | node ring left right ihLeft ihRight =>
    obtain ⟨nonempty, same, others, low, high, validLeft, validRight⟩ := valid
    have inLeft := @left_subset A ring left right
    have inRight := @right_subset A ring left right
    rw [height]
    by_cases last : d = n
    · -- all bits are used up, so the node has no children
      obtain ⟨a, member⟩ := exists_mem_of_ne_nil ring nonempty
      have inRing : a ∈ (node ring left right).elements := by simp [elements, member]
      have noChild : ∀ b ∈ left.elements ++ right.elements, False := by
        intro b below
        have inside : b ∈ (node ring left right).elements := by
          rcases mem_append.mp below with l | r
          · exact inLeft b l
          · exact inRight b r
        exact others a member b below (separates a inRing b inside (last ▸ agree a inRing b inside))
      have noLeft := eq_nil_of_elements validLeft (eq_nil_iff_forall_not_mem.mpr fun b inside =>
        noChild b (mem_append_left _ inside))
      have noRight := eq_nil_of_elements validRight (eq_nil_iff_forall_not_mem.mpr fun b inside =>
        noChild b (mem_append_right _ inside))
      subst noLeft noRight
      simp [height]
    · have left' := ihLeft validLeft (by omega) (agree.of_side inLeft low)
        fun a memberA b memberB => separates a (inLeft a memberA) b (inLeft b memberB)
      have right' := ihRight validRight (by omega) (agree.of_side inRight high)
        fun a memberA b memberB => separates a (inRight a memberA) b (inRight b memberB)
      omega

theorem Valid.shrink {ring ring' : List A} {left left' right right' : Trie A}
    (valid : Valid key bit d (node ring left right)) (nonempty : ring' ≠ [])
    (ringSub : ring' ⊆ ring) (leftSub : left'.elements ⊆ left.elements)
    (rightSub : right'.elements ⊆ right.elements) (validLeft : Valid key bit (d + 1) left')
    (validRight : Valid key bit (d + 1) right') : Valid key bit d (node ring' left' right') := by
  obtain ⟨-, same, apart, low, high, -⟩ := valid
  refine ⟨nonempty, fun a inA b inB => same a (ringSub inA) b (ringSub inB), fun a inA b below =>
    apart a (ringSub inA) b ?_,
    fun b below => low b (leftSub below), fun b below => high b (rightSub below),
      validLeft, validRight⟩
  exact mem_append.mpr ((mem_append.mp below).imp (@leftSub b) (@rightSub b))

theorem valid_congr {key' : A → Nat} (valid : Valid key bit d t)
    (same : ∀ a ∈ t.elements, key' a = key a) : Valid key' bit d t := by
  induction t generalizing d with
  | nil => trivial
  | node ring left right ihLeft ihRight =>
    obtain ⟨nonempty, equal, others, low, high, validLeft, validRight⟩ := valid
    simp only [elements, mem_append] at same
    have atRing : ∀ a ∈ ring, key' a = key a := fun a member => same a (.inl member)
    have atLeft : ∀ a ∈ left.elements, key' a = key a := fun a member => same a (.inr (.inl member))
    have atRight : ∀ a ∈ right.elements, key' a = key a :=
      fun a member => same a (.inr (.inr member))
    refine ⟨nonempty, ?_, ?_, ?_, ?_, ihLeft validLeft atLeft, ihRight validRight atRight⟩
    · intro a memberA b memberB
      rw [atRing a memberA, atRing b memberB]
      exact equal a memberA b memberB
    · intro a memberA b below
      have keyB : key' b = key b := (mem_append.mp below).elim (atLeft b) (atRight b)
      rw [atRing a memberA, keyB]
      exact others a memberA b below
    · exact fun b member => by rw [atLeft b member]; exact low b member
    · exact fun b member => by rw [atRight b member]; exact high b member

end keys

/-! ### Taking a leaf out -/

/-- The leaf that is reached from the root to the right where there is a right child, to the left
where there is only a left one; and the trie without it. -/
def takeLeaf : Trie A → List A × Trie A
  | nil => ([], nil)
  | node ring nil nil => (ring, nil)
  | node ring left nil => (left.takeLeaf.1, node ring left.takeLeaf.2 nil)
  | node ring left right => (right.takeLeaf.1, node ring left right.takeLeaf.2)

variable {right : Trie A}

theorem takeLeaf_right (ring : List A) (left : Trie A) (some : right ≠ nil) :
    takeLeaf (node ring left right) = (right.takeLeaf.1, node ring left right.takeLeaf.2) := by
  cases right with
  | nil => exact absurd rfl some
  | node => cases left <;> rw [takeLeaf] <;> simp

variable {left : Trie A}

theorem takeLeaf_left (ring : List A) (some : left ≠ nil) :
    takeLeaf (node ring left nil) = (left.takeLeaf.1, node ring left.takeLeaf.2 nil) := by
  cases left with
  | nil => exact absurd rfl some
  | node => rw [takeLeaf]; simp

/-- The leaf and the rest make up the tree. -/
theorem elements_takeLeaf (some : t ≠ nil) :
    (t.takeLeaf.1 ++ t.takeLeaf.2.elements).Perm t.elements := by
  induction t with
  | nil => exact absurd rfl some
  | node ring left right ihLeft ihRight =>
    by_cases noRight : right = nil
    · subst noRight
      by_cases noLeft : left = nil
      · subst noLeft
        simp [takeLeaf, elements]
      · rw [takeLeaf_left ring noLeft]
        simp only [elements, append_nil]
        exact (perm_append_comm_assoc _ _ _).trans ((ihLeft noLeft).append_left ring)
    · rw [takeLeaf_right ring left noRight]
      refine (perm_append_comm_assoc _ _ _).trans (Perm.append_left ring ?_)
      exact (perm_append_comm_assoc _ _ _).trans ((ihRight noRight).append_left left.elements)

section

variable {key : A → Nat} {bit : Nat → Nat → Bool}

theorem takeLeaf_fst_subset (some : t ≠ nil) {x : A} (member : x ∈ t.takeLeaf.1) : x ∈ t.elements :=
  (elements_takeLeaf some).subset (mem_append_left _ member)

theorem takeLeaf_snd_subset (some : t ≠ nil) {x : A} (member : x ∈ t.takeLeaf.2.elements) :
    x ∈ t.elements :=
  (elements_takeLeaf some).subset (mem_append_right _ member)

/-- The leaf is the node of one key, which does not occur in the rest. -/
theorem valid_takeLeaf (valid : Valid key bit d t) (some : t ≠ nil) :
    Valid key bit d t.takeLeaf.2 ∧ t.takeLeaf.1 ≠ [] ∧
      (∀ a ∈ t.takeLeaf.1, ∀ b ∈ t.takeLeaf.1, key a = key b) ∧
      ∀ a ∈ t.takeLeaf.1, ∀ b ∈ t.takeLeaf.2.elements, key a ≠ key b := by
  induction t generalizing d with
  | nil => exact absurd rfl some
  | node ring left right ihLeft ihRight =>
    have ⟨nonempty, same, others, low, high, validLeft, validRight⟩ := valid
    by_cases noRight : right = nil
    · subst noRight
      by_cases noLeft : left = nil
      · subst noLeft
        exact ⟨trivial, nonempty, same, by simp [takeLeaf, elements]⟩
      obtain ⟨validRest, leafNonempty, leafSame, leafApart⟩ := ihLeft validLeft noLeft
      rw [takeLeaf_left ring noLeft]
      refine ⟨valid.shrink nonempty (Subset.refl _) (fun _ => takeLeaf_snd_subset noLeft)
        (Subset.refl _) validRest validRight,
        leafNonempty, leafSame, ?_⟩
      intro a member b below
      simp only [elements, append_nil, mem_append] at below
      rcases below with inRing | rest
      · exact (others b inRing a (by simpa [elements] using takeLeaf_fst_subset noLeft member)).symm
      · exact leafApart a member b rest
    · obtain ⟨validRest, leafNonempty, leafSame, leafApart⟩ := ihRight validRight noRight
      rw [takeLeaf_right ring left noRight]
      refine ⟨valid.shrink nonempty (Subset.refl _) (Subset.refl _)
        (fun _ => takeLeaf_snd_subset noRight) validLeft validRest,
        leafNonempty, leafSame, ?_⟩
      intro a member b below
      have inRight := takeLeaf_fst_subset noRight member
      simp only [elements, mem_append] at below
      rcases below with inRing | inLeft | rest
      · exact (others b inRing a (mem_append_right _ inRight)).symm
      · -- the bit at this depth tells the two sides apart
        intro equal
        have one := high a inRight
        rw [equal, low b inLeft] at one
        cases one
      · exact leafApart a member b rest

end

/-! ### Removal -/

/-- A node whose last element is taken out is replaced by a leaf below it. -/
def dropRoot (left right : Trie A) : Trie A :=
  match right, left with
  | nil, nil => nil
  | nil, left => node left.takeLeaf.1 left.takeLeaf.2 nil
  | right, left => node right.takeLeaf.1 left right.takeLeaf.2

theorem dropRoot_right (left : Trie A) (some : right ≠ nil) :
    dropRoot left right = node right.takeLeaf.1 left right.takeLeaf.2 := by
  cases right with
  | nil => exact absurd rfl some
  | node => rw [dropRoot] <;> simp

theorem dropRoot_left (some : left ≠ nil) :
    dropRoot left nil = node left.takeLeaf.1 left.takeLeaf.2 nil := by
  cases left with
  | nil => exact absurd rfl some
  | node => rw [dropRoot]; simp

/-- The leaf that takes the place of the root is the one that is taken out below it. -/
theorem dropRoot_eq (ring : List A) (some : ¬ (left = nil ∧ right = nil)) : ∃ l r,
    takeLeaf (node ring left right) = ((takeLeaf (node ring left right)).1, node ring l r) ∧
      dropRoot left right = node (takeLeaf (node ring left right)).1 l r := by
  by_cases noRight : right = nil
  · subst noRight
    have noLeft : left ≠ nil := fun empty => some ⟨empty, rfl⟩
    rw [takeLeaf_left ring noLeft, dropRoot_left noLeft]
    exact ⟨_, _, rfl, rfl⟩
  · rw [takeLeaf_right ring left noRight, dropRoot_right left noRight]
    exact ⟨_, _, rfl, rfl⟩

/-- The root is replaced by a leaf below it. -/
theorem elements_dropRoot (left right : Trie A) :
    (dropRoot left right).elements.Perm (left.elements ++ right.elements) := by
  by_cases leaf : left = nil ∧ right = nil
  · obtain ⟨rfl, rfl⟩ := leaf
    exact Perm.refl _
  obtain ⟨l, r, taken, dropped⟩ := dropRoot_eq [] leaf
  have all := @elements_takeLeaf A (node [] left right) (by simp)
  rw [taken] at all
  rw [dropped]
  exact all

theorem valid_dropRoot {ring : List A} {key : A → Nat} {bit : Nat → Nat → Bool}
    (valid : Valid key bit d (node ring left right)) :
    Valid key bit d (dropRoot left right) := by
  by_cases leaf : left = nil ∧ right = nil
  · obtain ⟨rfl, rfl⟩ := leaf
    trivial
  obtain ⟨l, r, taken, dropped⟩ := dropRoot_eq ring leaf
  obtain ⟨validRest, nonempty, same, apart⟩ := valid_takeLeaf valid (by simp)
  rw [taken] at validRest apart
  obtain ⟨-, -, -, sides⟩ := validRest
  rw [dropped]
  exact ⟨nonempty, same, fun a member b below => apart a member b (mem_append_right _ below), sides⟩

variable [DecidableEq A]

/-- Take an element out. Where it is the first of its node and not the only one, the last one takes
its place. -/
def remove (a : A) : Trie A → Trie A
  | nil => nil
  | node ring left right =>
    if a ∈ ring then
      if ring.head? = some a then
        match ring.tail.getLast? with
        | none => dropRoot left right
        | some q => node (q :: ring.tail.dropLast) left right
      else node (ring.erase a) left right
    else if a ∈ left.elements then node ring (left.remove a) right
    else node ring left (right.remove a)

theorem remove_alone (a : A) (left right : Trie A) :
    remove a (node [a] left right) = dropRoot left right := by
  simp [remove]

theorem remove_first (a q : A) (others : List A) (left right : Trie A) :
    remove a (node (a :: (others ++ [q])) left right) = node (q :: others) left right := by
  simp [remove]

theorem remove_other {p : A} {others : List A} (left right : Trie A) (member : a ∈ others)
    (other : a ≠ p) :
    remove a (node (p :: others) left right) = node (p :: others.erase a) left right := by
  simp [remove, member, other, other.symm]

variable {ring : List A}

theorem remove_left (right : Trie A) (absent : a ∉ ring) (member : a ∈ left.elements) :
    remove a (node ring left right) = node ring (left.remove a) right := by
  simp [remove, absent, member]

theorem remove_right (absent : a ∉ ring) (notLeft : a ∉ left.elements) :
    remove a (node ring left right) = node ring left (right.remove a) := by
  simp [remove, absent, notLeft]

/-- Where an element may be: alone at the root, first or later in its ring, or below. -/
theorem mem_elements_cases (member : a ∈ (node ring left right).elements) :
    ring = [a] ∨ (∃ others q, ring = a :: (others ++ [q])) ∨
      (∃ p others, ring = p :: others ∧ a ≠ p ∧ a ∈ others) ∨
      (a ∉ ring ∧ a ∈ left.elements) ∨ a ∉ ring ∧ a ∉ left.elements ∧ a ∈ right.elements := by
  simp only [elements, mem_append] at member
  by_cases inRing : a ∈ ring
  · cases ring with
    | nil => cases inRing
    | cons p others =>
      by_cases first : a = p
      · subst first
        rcases eq_nil_or_concat others with rfl | ⟨init, q, rfl⟩
        · exact .inl rfl
        · exact .inr (.inl ⟨init, q, by rw [concat_eq_append]⟩)
      · rcases mem_cons.mp inRing with same | later
        · exact absurd same first
        · exact .inr (.inr (.inl ⟨p, others, rfl, first, later⟩))
  · by_cases inLeft : a ∈ left.elements
    · exact .inr (.inr (.inr (.inl ⟨inRing, inLeft⟩)))
    · exact .inr (.inr (.inr (.inr ⟨inRing, inLeft, by tauto⟩)))

/-- A removal takes out the one element. -/
theorem elements_remove (member : a ∈ t.elements) :
    t.elements.Perm (a :: (t.remove a).elements) := by
  induction t with
  | nil => cases member
  | node ring left right ihLeft ihRight =>
    rcases mem_elements_cases member with rfl | ⟨others, q, rfl⟩ | ⟨p, others, rfl,
      different, inside⟩ |
      ⟨absent, inLeft⟩ | ⟨absent, notLeft, inRight⟩
    · rw [remove_alone]
      exact (elements_dropRoot left right).symm.cons a
    · rw [remove_first]
      simp only [elements, cons_append]
      rw [append_assoc]
      exact perm_middle.cons a
    · rw [remove_other left right inside different]
      have erased := (perm_cons_erase inside).append_right (left.elements ++ right.elements)
      exact (erased.cons p).trans (Perm.swap a p _)
    · rw [remove_left right absent inLeft]
      have moved := ((ihLeft inLeft).append_right right.elements).append_left ring
      exact moved.trans perm_middle
    · rw [remove_right absent notLeft]
      simp only [elements]
      have moved := ((ihRight inRight).append_left left.elements).append_left ring
      refine moved.trans ?_
      rw [← append_assoc, ← append_assoc]
      exact perm_middle

theorem remove_subset {x : A} (member : a ∈ t.elements) (inside : x ∈ (t.remove a).elements) :
    x ∈ t.elements :=
  (elements_remove member).mem_iff.mpr (mem_cons_of_mem a inside)

/-- By cases of where the element is. -/
theorem valid_remove {key : A → Nat} {bit : Nat → Nat → Bool}
    (valid : Valid key bit d t) (member : a ∈ t.elements) : Valid key bit d (t.remove a) := by
  induction t generalizing d with
  | nil => cases member
  | node ring left right ihLeft ihRight =>
    have ⟨nonempty, _, _, _, _, validLeft, validRight⟩ := valid
    rcases mem_elements_cases member with rfl | ⟨others, q, rfl⟩ | ⟨p, others, rfl,
      different, inside⟩ |
      ⟨absent, inLeft⟩ | ⟨absent, notLeft, inRight⟩
    · rw [remove_alone]
      exact valid_dropRoot valid
    · rw [remove_first]
      refine valid.shrink (cons_ne_nil _ _) (fun x inside => ?_) (Subset.refl _)
        (Subset.refl _) validLeft validRight
      simp at inside ⊢
      tauto
    · rw [remove_other left right inside different]
      exact valid.shrink (cons_ne_nil _ _) (cons_subset_cons p erase_subset) (Subset.refl _)
        (Subset.refl _) validLeft validRight
    · rw [remove_left right absent inLeft]
      exact valid.shrink nonempty (Subset.refl _) (fun _ => remove_subset inLeft) (Subset.refl _)
        (ihLeft validLeft inLeft) validRight
    · rw [remove_right absent notLeft]
      exact valid.shrink nonempty (Subset.refl _) (Subset.refl _)
        (fun _ => remove_subset inRight) validLeft (ihRight validRight inRight)

/-! ### Walks -/

section walks

omit [DecidableEq A]

variable (key : A → Nat) (bit : Nat → Nat → Bool) (target : Nat)

def root? : Trie A → Option A
  | nil => none
  | node ring _ _ => ring.head?

/-- The first elements of the nodes on the way that the bits of a key lead. -/
def path : Nat → Trie A → List A
  | _, nil => []
  | d, node ring left right =>
    ring.head?.toList ++ if bit target d then path (d + 1) right else path (d + 1) left

/-- The last subtree to the right of that way. -/
def branch : Nat → Trie A → Trie A
  | _, nil => nil
  | d, node _ left right =>
    if bit target d then branch (d + 1) right
    else
      match branch (d + 1) left with
      | nil => right
      | found => found

/-- The way to the right that ends at the first node without a left child. -/
def steps : Trie A → List A
  | nil => []
  | node ring left right => ring.head?.toList ++
      match left with
      | nil => []
      | _ => right.steps

variable {key bit target}

theorem branch_of_nil (zero : bit target d = false) (none : branch bit target (d + 1) left = nil) :
    branch bit target d (node ring left right) = right := by
  simp [branch, zero, none]

theorem branch_of_ne_nil (zero : bit target d = false)
    (some : branch bit target (d + 1) left ≠ nil) :
    branch bit target d (node ring left right) = branch bit target (d + 1) left := by
  rw [branch, if_neg (by simp [zero])]
  generalize branch bit target (d + 1) left = found at some
  cases found with
  | nil => exact absurd rfl some
  | node => rfl

theorem steps_of_left (ring : List A) (right : Trie A) (some : left ≠ nil) :
    steps (node ring left right) = ring.head?.toList ++ right.steps := by
  cases left with
  | nil => exact absurd rfl some
  | node => rfl

theorem mem_of_mem_head (member : a ∈ ring.head?.toList) : a ∈ ring := by
  cases ring with
  | nil => cases member
  | cons p others => simp at member; simp [member]

theorem path_subset (member : a ∈ path bit target d t) : a ∈ t.elements := by
  induction t generalizing d with
  | nil => cases member
  | node ring left right ihLeft ihRight =>
    rw [path, mem_append] at member
    simp only [elements, mem_append]
    rcases member with here | below
    · exact .inl (mem_of_mem_head here)
    · split at below
      · exact .inr (.inr (ihRight below))
      · exact .inr (.inl (ihLeft below))

theorem steps_subset (member : a ∈ t.steps) : a ∈ t.elements := by
  induction t with
  | nil => cases member
  | node ring left right _ ihRight =>
    simp only [elements, mem_append]
    by_cases empty : left = nil
    · subst empty
      simp only [steps, append_nil] at member
      exact .inl (mem_of_mem_head member)
    rw [steps_of_left ring right empty, mem_append] at member
    rcases member with here | below
    · exact .inl (mem_of_mem_head here)
    · exact .inr (.inr (ihRight below))

theorem branch_subset (member : a ∈ (branch bit target d t).elements) : a ∈ t.elements := by
  fun_induction branch bit target d t with
  | case1 => cases member
  | case2 d ring left right one ih => exact right_subset a (ih member)
  | case3 d ring left right zero none ih => exact right_subset a member
  | case4 d ring left right zero some ih => exact left_subset a (ih member)

theorem valid_branch {d : Nat} {t : Trie A} (valid : Valid key bit d t) :
    ∃ d', Valid key bit d' (branch bit target d t) ∧
      (Alike key bit d t → Alike key bit d' (branch bit target d t)) := by
  fun_induction branch bit target d t with
  | case1 d => exact ⟨d, trivial, id⟩
  | case2 d ring left right one ih =>
    obtain ⟨_, _, _, _, high, _, validRight⟩ := valid
    obtain ⟨d', valid', alike'⟩ := ih validRight
    exact ⟨d', valid', fun alike => alike' (alike.of_side right_subset high)⟩
  | case3 d ring left right zero none ih =>
    obtain ⟨_, _, _, _, high, _, validRight⟩ := valid
    exact ⟨d + 1, validRight, (·.of_side right_subset high)⟩
  | case4 d ring left right zero some ih =>
    obtain ⟨_, _, _, low, _, validLeft, _⟩ := valid
    obtain ⟨d', valid', alike'⟩ := ih validLeft
    exact ⟨d', valid', fun alike => alike' (alike.of_side left_subset low)⟩

theorem height_branch (bit : Nat → Nat → Bool) (target d : Nat) (t : Trie A) :
    (branch bit target d t).height ≤ t.height := by
  fun_induction branch bit target d t <;> simp only [height] <;> omega

/-- Of two keys the first differing bit tells the greater one. -/
def Ordered (bit : Nat → Nat → Bool) (keys : Nat → Prop) : Prop :=
  ∀ d x y, keys x → keys y → (∀ e < d, bit x e = bit y e) → bit x d = false → bit y d = true → x < y

variable {keys : Nat → Prop}

/-- What the way and the last subtree to its right do not hold is not the least of the sufficient
elements. -/
theorem cover (ordered : Ordered bit keys) {d : Nat} {t : Trie A} (valid : Valid key bit d t)
    (known : ∀ a ∈ t.elements, keys (key a)) (knownTarget : keys target)
    (agree : ∀ a ∈ t.elements, ∀ e < d, bit (key a) e = bit target e) :
    (∀ a ∈ (branch bit target d t).elements, target < key a) ∧ ∀ a ∈ t.elements, target ≤ key a →
        (∃ q ∈ path bit target d t, key q = key a) ∨ ∃ b ∈ (branch bit target d t).elements,
          key b ≤ key a := by
  induction t generalizing d with
  | nil => exact ⟨by simp [branch, elements], by simp [elements]⟩
  | node ring left right ihLeft ihRight =>
    obtain ⟨nonempty, same, _, low, high, validLeft, validRight⟩ := valid
    have inLeft := @left_subset A ring left right
    have inRight := @right_subset A ring left right
    have atRing : ∀ a ∈ ring, ∃ q ∈ path bit target d (node ring left right), key q = key a := by
      intro a member
      obtain ⟨p, others, rfl⟩ := exists_cons_of_ne_nil nonempty
      exact ⟨p, by simp [path], same p (by simp) a member⟩
    have deeper : ∀ a ∈ (node ring left right).elements, bit (key a) d = bit target d →
        ∀ e < d + 1, bit (key a) e = bit target e := by
      intro a member here e less
      rcases Nat.lt_succ_iff_lt_or_eq.mp less with before | rfl
      · exact agree a member e before
      · exact here
    cases side : bit target d with
    | true =>
      obtain ⟨above, covered⟩ := ihRight validRight (fun a member => known a (inRight a member))
        fun a member => deeper a (inRight a member) ((high a member).trans side.symm)
      rw [branch, if_pos side]
      refine ⟨above, fun a member enough => ?_⟩
      simp only [elements, mem_append] at member
      rcases member with here | inL | inR
      · exact .inl (atRing a here)
      · -- to the left of the way everything is too small
        have less := ordered d (key a) target (known a (inLeft a inL)) knownTarget
          (agree a (inLeft a inL))
          (low a inL) side
        omega
      · refine (covered a inR enough).imp ?_ id
        rintro ⟨q, onPath, equal⟩
        exact ⟨q, by rw [path, if_pos side]; exact mem_append_right _ onPath, equal⟩
    | false =>
      obtain ⟨above, covered⟩ := ihLeft validLeft (fun a member => known a (inLeft a member))
        fun a member => deeper a (inLeft a member) ((low a member).trans side.symm)
      have onLeft : ∀ a ∈ left.elements, target ≤ key a →
          (∃ q ∈ path bit target d (node ring left right), key q = key a) ∨
            ∃ b ∈ (branch bit target (d + 1) left).elements, key b ≤ key a := by
        intro a inL enough
        refine (covered a inL enough).imp_left ?_
        rintro ⟨q, onPath, equal⟩
        exact ⟨q, by rw [path, if_neg (by simp [side])]; exact mem_append_right _ onPath, equal⟩
      have rightAbove : ∀ a ∈ right.elements, target < key a := fun a inR =>
        ordered d target (key a) knownTarget (known a (inRight a inR))
          (fun e less => (agree a (inRight a inR) e less).symm)
          side (high a inR)
      by_cases none : branch bit target (d + 1) left = nil
      · rw [branch_of_nil side none]
        refine ⟨rightAbove, fun a member enough => ?_⟩
        simp only [elements, mem_append] at member
        rcases member with here | inL | inR
        · exact .inl (atRing a here)
        · have found := onLeft a inL enough
          simp only [none, elements, not_mem_nil, false_and, exists_false, or_false] at found
          exact .inl found
        · exact .inr ⟨a, inR, le_refl _⟩
      · rw [branch_of_ne_nil side none]
        refine ⟨above, fun a member enough => ?_⟩
        simp only [elements, mem_append] at member
        rcases member with here | inL | inR
        · exact .inl (atRing a here)
        · exact onLeft a inL enough
        -- the deeper subtree lies to the left of this one
        obtain ⟨d', valid', _⟩ := @valid_branch _ key bit target (d + 1) left validLeft
        obtain ⟨b, below⟩ := exists_mem_elements valid' none
        have inL := branch_subset below
        refine .inr ⟨b, below, le_of_lt ?_⟩
        refine ordered d (key b) (key a) (known b (inLeft b inL))
          (known a (inRight a inR)) ?_ (low b inL) (high a inR)
        intro e less
        rw [agree b (inLeft b inL) e less, agree a (inRight a inR) e less]

/-- The way to the right meets the least key only if it is the key of the root. -/
theorem root_least_of_steps (ordered : Ordered bit keys) (valid : Valid key bit d t)
    (known : ∀ a ∈ t.elements, keys (key a)) (agree : Alike key bit d t) {m : A} (met : m ∈ t.steps)
    (least : ∀ a ∈ t.elements, key m ≤ key a) :
    ∃ p, t.root? = some p ∧ ∀ a ∈ t.elements, key p ≤ key a := by
  cases t with
  | nil => cases met
  | node ring left right =>
    obtain ⟨nonempty, same, _, low, high, validLeft, _⟩ := valid
    obtain ⟨p, others, rfl⟩ := exists_cons_of_ne_nil nonempty
    refine ⟨p, rfl, ?_⟩
    have atRoot : m ∈ p :: others → ∀ a ∈ (node (p :: others) left right).elements,
        key p ≤ key a := by
      intro inRing
      rw [same p (by simp) m inRing]
      exact least
    by_cases empty : left = nil
    · subst empty
      exact atRoot (mem_of_mem_head (by simpa [steps] using met))
    rw [steps_of_left _ right empty, mem_append] at met
    rcases met with here | below
    · exact atRoot (mem_of_mem_head here)
    obtain ⟨b, inL⟩ := exists_mem_elements validLeft empty
    have inR := steps_subset below
    have memberB : b ∈ (node (p :: others) left right).elements := by simp [elements, inL]
    have memberM : m ∈ (node (p :: others) left right).elements := by simp [elements, inR]
    have less := ordered d (key b) (key m) (known b memberB) (known m memberM)
      (agree b memberB m memberM) (low b inL)
      (high m inR)
    have atLeast := least b memberB
    omega

theorem root?_mem_steps {p : A} (root : t.root? = some p) : p ∈ t.steps := by
  cases t with
  | nil => cases root
  | node ring left right =>
    have head : ring.head? = some p := root
    cases left with
    | nil => simp [steps, head]
    | node => simp [steps, head]

end walks

end Trie

end Jonj.BitTrie
