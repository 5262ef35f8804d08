import Mathlib.Tactic

/-!
# Doubly linked lists in a pointer memory

The memory is seen only through its two link fields, `next` and `prev`, so the
results apply to any record type. `Links next prev xs` says that the two fields
thread the nodes of `xs` in order, with NULL at both ends. The head and tail
pointers are kept by the owner of the list, not here.

Each update lemma asks for the new fields pointwise on the nodes of the list.
That is the form in which a sequence of field writes simplifies.
-/
namespace Jonj.DoublyLinked

open List

variable {α : Type}

/-- The two link fields thread `xs`: at every split the successor is the head of
what follows and the predecessor the last of what precedes. -/
def Links (next prev : α → Option α) (xs : List α) : Prop :=
  ∀ l a r, xs = l ++ a :: r → next a = r.head? ∧ prev a = l.getLast?

theorem links_nil (next prev : α → Option α) : Links next prev [] := by
  intro l a r split
  simp at split

variable {next prev : α → Option α} {l r : List α}

theorem links_next {a : α} (links : Links next prev (l ++ a :: r)) : next a = r.head? :=
  (links l a r rfl).1

theorem links_prev {a : α} (links : Links next prev (l ++ a :: r)) : prev a = l.getLast? :=
  (links l a r rfl).2

variable {next' prev' : α → Option α} {xs : List α}

theorem links_congr (links : Links next prev xs) (sameNext : ∀ x ∈ xs, next' x = next x)
    (samePrev : ∀ x ∈ xs, prev' x = prev x) : Links next' prev' xs := by
  intro l a r split
  have member : a ∈ xs := by simp [split]
  rw [sameNext a member, samePrev a member]
  exact links l a r split

theorem links_reverse (links : Links next prev xs) : Links prev next xs.reverse := by
  intro l a r split
  have forward : xs = r.reverse ++ a :: l.reverse := by
    rw [← reverse_reverse xs, split]
    simp
  obtain ⟨after, before⟩ := links _ _ _ forward
  simp only [getLast?_reverse] at before
  simp only [head?_reverse] at after
  exact ⟨before, after⟩

theorem getLast?_ne_of_split {b : α} (nodup : (l ++ b :: r).Nodup) (more : r ≠ []) :
    (l ++ b :: r).getLast? ≠ some b := by
  intro last
  obtain ⟨c, r, rfl⟩ := exists_cons_of_ne_nil more
  rw [getLast?_append, getLast?_cons_cons] at last
  have tail := (nodup_append.mp nodup).2.1
  cases hlast : (c :: r).getLast? with
  | none => simp at hlast
  | some x =>
    rw [hlast, Option.some_or, Option.some.injEq] at last
    exact (nodup_cons.mp tail).1 (last ▸ mem_of_getLast? hlast)

theorem split_cases {l' r' : List α} {b : α} (split : l ++ r = l' ++ b :: r') :
    (∃ m, l = l' ++ b :: m ∧ r' = m ++ r) ∨ ∃ m, l' = l ++ m ∧ r = m ++ b :: r' := by
  rcases append_eq_append_iff.mp split with ⟨m, rfl, tail⟩ | ⟨m, rfl, tail⟩
  · exact .inr ⟨m, rfl, tail⟩
  · cases m with
    | nil => exact .inr ⟨[], by simp, tail.symm⟩
    | cons c m =>
      obtain ⟨rfl, rfl⟩ := tail
      exact .inl ⟨m, rfl, rfl⟩

section update

variable [DecidableEq α] {mid : List α} {a : α}

/-- Putting other nodes in the place of a part of the list. -/
theorem links_replace (mid' : List α) (links : Links next prev (l ++ (mid ++ r)))
    (nodup : (l ++ r).Nodup)
    (inside : ∀ l' a r', mid' = l' ++ a :: r' → next' a = (r' ++ r).head? ∧
      prev' a = (l ++ l').getLast?)
    (nextOld : ∀ x ∈ l ++ r, next' x = if l.getLast? = some x then (mid' ++ r).head? else next x)
    (prevOld : ∀ x ∈ l ++ r, prev' x = if r.head? = some x then (l ++ mid').getLast? else prev x) :
    Links next' prev' (l ++ (mid' ++ r)) := by
  obtain ⟨nodupLeft, nodupRight, apart⟩ := nodup_append.mp nodup
  intro l' b r' split
  rcases split_cases split with ⟨m, rfl, rfl⟩ | ⟨m, rfl, tail⟩
  · -- the node lies before the new ones
    obtain ⟨after, before⟩ := links l' b (m ++ (mid ++ r)) (by simp)
    have notHead : r.head? ≠ some b := fun head => apart b (by simp) b (mem_of_head? head) rfl
    refine ⟨?_, by rw [prevOld b (by simp), if_neg notHead, before]⟩
    rw [nextOld b (by simp)]
    cases m with
    | nil => exact if_pos (by simp)
    | cons d m =>
      rw [if_neg (getLast?_ne_of_split nodupLeft (cons_ne_nil d m)), after]
      rfl
  rcases split_cases tail with ⟨n, rfl, rfl⟩ | ⟨n, rfl, rfl⟩
  · exact inside m b n rfl
  · -- the node lies behind the new ones
    obtain ⟨after, before⟩ := links (l ++ (mid ++ n)) b r' (by simp)
    have notLast : l.getLast? ≠ some b := fun last => apart b (mem_of_getLast? last) b (by simp) rfl
    refine ⟨by rw [nextOld b (by simp), if_neg notLast, after], ?_⟩
    rw [prevOld b (by simp)]
    cases n with
    | nil => simp
    | cons d n =>
      have notHead : (d :: n ++ b :: r').head? ≠ some b := by
        rw [cons_append, head?_cons, ne_eq, Option.some.injEq]
        rintro rfl
        simp at nodupRight
      rw [if_neg notHead, before]
      simp [getLast?_append, getLast?_eq_some_getLast (cons_ne_nil d n)]

/-- Linking a node between two parts of a list, in place of what was between them. -/
theorem links_between (links : Links next prev (l ++ (mid ++ r))) (nodup : (l ++ r).Nodup)
    (nextNew : next' a = r.head?) (prevNew : prev' a = l.getLast?)
    (nextOld : ∀ x ∈ l ++ r, next' x = if l.getLast? = some x then some a else next x)
    (prevOld : ∀ x ∈ l ++ r, prev' x = if r.head? = some x then some a else prev x) :
    Links next' prev' (l ++ a :: r) := by
  refine links_replace [a] links nodup (fun l' b r' single => ?_) nextOld (by simpa using prevOld)
  cases l' with
  | nil =>
    cases single
    exact ⟨nextNew, by simpa using prevNew⟩
  | cons c l' => simp at single

theorem links_cons (links : Links next prev xs) (nodup : xs.Nodup) (nextNew : next' a = xs.head?)
    (prevNew : prev' a = none) (sameNext : ∀ x ∈ xs, next' x = next x)
    (prevOld : ∀ x ∈ xs, prev' x = if xs.head? = some x then some a else prev x) :
    Links next' prev' (a :: xs) :=
  @links_between _ next prev [] xs next' prev' _ [] a links nodup nextNew prevNew sameNext prevOld

/-- Unlinking a node: its neighbours are joined, every other field is kept. -/
theorem links_remove (links : Links next prev (l ++ a :: r)) (nodup : (l ++ a :: r).Nodup)
    (nextOld : ∀ x ∈ l ++ r, next' x = if l.getLast? = some x then r.head? else next x)
    (prevOld : ∀ x ∈ l ++ r, prev' x = if r.head? = some x then l.getLast? else prev x) :
    Links next' prev' (l ++ r) := by
  refine @links_replace _ next prev l r next' prev' _ [a]
    [] links ?_ (by simp) nextOld (by simpa using prevOld)
  rw [nodup_middle] at nodup
  exact (nodup_cons.mp nodup).2

end update

/-- The nodes met when following `next` from a pointer, at most `fuel` of them. -/
def walk (next : α → Option α) : Nat → Option α → List α
  | 0, _ => []
  | _ + 1, none => []
  | fuel + 1, some a => a :: walk next fuel (next a)

theorem walk_links (links : Links next prev xs) (fuel : Nat) (enough : xs.length ≤ fuel) :
    walk next fuel xs.head? = xs := by
  -- generalised to the suffix still ahead of the walk
  suffices suffix : ∀ fuel l r, xs = l ++ r → r.length ≤ fuel → walk next fuel r.head? = r from
    suffix fuel [] xs rfl enough
  intro fuel l r split short
  induction r generalizing fuel l with
  | nil => cases fuel <;> rfl
  | cons a r ih =>
    cases fuel with
    | zero => cases short
    | succ fuel =>
      have after := (links l a r split).1
      simp only [head?_cons, walk, after, cons.injEq, true_and]
      simp only [length_cons] at short
      exact ih fuel (l ++ [a]) (by simp [split]) (by omega)

theorem walk_links_reverse (links : Links next prev xs) (fuel : Nat) (enough : xs.length ≤ fuel) :
    walk prev fuel xs.getLast? = xs.reverse := by
  have backward := walk_links (links_reverse links) fuel (by simpa using enough)
  simpa using backward

end Jonj.DoublyLinked
