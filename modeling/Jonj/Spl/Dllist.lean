import Jonj.Lib.DoublyLinked
import Jonj.Lib.Runs

/-!
# `spl_dllist.c`

The list behind an `SplDoublyLinkedList` and the methods that change it. No iterator holds an
element, so an element that is taken out is freed at once.
-/
namespace Jonj.Spl

open DoublyLinked Runs List Function
open Prod (fst snd)

variable {α β : Type}

/-! ### The code -/

/-- `spl_ptr_llist`, with the elements at their addresses. -/
structure Llist (α : Type) where
  head : Option Nat
  tail : Option Nat
  /-- An `int`. -/
  count : Int
  prev : Nat → Option Nat
  next : Nat → Option Nat
  data : Nat → Option α

/-- What a method returns, or the message of the exception that it throws. -/
abbrev Outcome (α : Type) := Except String (Option α)

inductive Method (α : Type)
  | push (value : α)
  | unshift (value : α)
  | pop
  | shift
  | add (index : Int) (value : α)
  | offsetSet (index : Option Int) (value : α)
  | offsetUnset (index : Int)
  | offsetGet (index : Int)

def outOfRange : String := "Offset invalid or out of range"

/-- The value of `pop` or `shift`, or the exception for an empty list. -/
def taken (message : String) : Option α → Outcome α
  | some value => .ok (some value)
  | none => .error message

namespace Llist

/-- `spl_ptr_llist_init` -/
def init (memory : Llist α) : Llist α := { memory with head := none, tail := none, count := 0 }

/-- `if (element) element->field = value` -/
def write (field : Nat → Option Nat) (element value : Option Nat) : Nat → Option Nat :=
  fun a => if element = some a then value else field a

/-- `spl_ptr_llist_push`, `spl_ptr_llist_unshift` and `add` link the element that `emalloc` returns
between two neighbours, or put it at an end. -/
def link (l : Llist α) (before after : Option Nat) (elem : Nat) (value : α) : Llist α where
  head := if before = none then some elem else l.head
  tail := if after = none then some elem else l.tail
  count := (l.count + 1).bmod (2 ^ 32)
  prev := write (write l.prev (some elem) before) after (some elem)
  next := write (write l.next (some elem) after) before (some elem)
  data := update l.data elem (some value)

/-- `spl_ptr_llist_push` -/
def push (l : Llist α) (elem : Nat) (value : α) : Llist α := l.link l.tail none elem value

/-- `spl_ptr_llist_unshift` -/
def unshift (l : Llist α) (elem : Nat) (value : α) : Llist α := l.link none l.head elem value

/-- What `spl_ptr_llist_pop` and `spl_ptr_llist_shift` do with an element at an end. -/
def detach (l : Llist α) (before after : Option Nat) (element : Nat) : Llist α where
  head := if before = none then after else l.head
  tail := if after = none then before else l.tail
  count := (l.count - 1).bmod (2 ^ 32)
  prev := write l.prev after before
  next := write l.next before after
  data := update l.data element none

/-- `spl_ptr_llist_pop` -/
def pop (l : Llist α) : Option α × Llist α :=
  match l.tail with
  | none => (none, l)
  | some tail => (l.data tail, l.detach (l.prev tail) none tail)

/-- `spl_ptr_llist_shift` -/
def shift (l : Llist α) : Option α × Llist α :=
  match l.head with
  | none => (none, l)
  | some head => (l.data head, l.detach none (l.next head) head)

/-- The loop of `spl_ptr_llist_offset`, with the number of steps that are left. -/
def offsetLoop (field : Nat → Option Nat) : Nat → Option Nat → Option Nat
  | steps + 1, some current => offsetLoop field steps (field current)
  | _, current => current

/-- `spl_ptr_llist_offset` -/
def offset (l : Llist α) (offset : Int) (backward : Bool) : Option Nat :=
  if backward then offsetLoop l.prev offset.toNat l.tail else offsetLoop l.next offset.toNat l.head

def unlink (l : Llist α) (element : Nat) : Llist α :=
  -- connect the neighbors
  let next := write l.next (l.prev element) (l.next element)
  let prev := write l.prev (next element) (l.prev element)
  -- take care of head and tail
  { head := if l.head = some element then next element else l.head
    tail := if l.tail = some element then prev element else l.tail
    count := (l.count - 1).bmod (2 ^ 32)
    prev, next
    data := update l.data element none }

/-- The checks of `offsetGet`, `offsetSet` and `offsetUnset`, and what they do with the element. -/
def withElement (l : Llist α) (lifo : Bool) (index : Int) (message : String)
    (use : Nat → Llist α × Outcome α) : Llist α × Outcome α :=
  if index < 0 ∨ l.count ≤ index then (l, .error message)
  else
    match l.offset index lifo with
    | some element => use element
    | none => (l, .error "Offset invalid")

/-- A method call, with the address that `emalloc` returns in it. It is stuck if `add` goes through
a NULL pointer. -/
def step (lifo : Bool) (l : Llist α) : Nat × Method α → Option (Llist α × Outcome α)
  | (elem, .push value) => some (l.push elem value, .ok none)
  | (elem, .unshift value) => some (l.unshift elem value, .ok none)
  | (_, .pop) => some (l.pop.2, taken "Can't pop from an empty datastructure" l.pop.1)
  | (_, .shift) => some (l.shift.2, taken "Can't shift from an empty datastructure" l.shift.1)
  | (elem, .add index value) =>
    if index < 0 ∨ l.count < index then some (l, .error outOfRange)
    else if index = l.count then some (l.push elem value, .ok none)
    else (l.offset index lifo).map fun element =>
      (l.link (l.prev element) (some element) elem value, .ok none)
  | (elem, .offsetSet none value) => some (l.push elem value, .ok none)
  | (_, .offsetSet (some index) value) => some <| l.withElement lifo index outOfRange fun element =>
      ({ l with data := update l.data element (some value) }, .ok none)
  | (_, .offsetUnset index) => some <| l.withElement lifo index "Offset out of range" fun element =>
      (l.unlink element, .ok none)
  | (_, .offsetGet index) =>
    some <| l.withElement lifo index outOfRange fun element => (l, .ok (l.data element))

end Llist

/-! ### The sequence -/

/-- A sequence as it is seen in a mode. -/
def view (lifo : Bool) (s : List β) : List β := if lifo then s.reverse else s

/-- A method that uses an index, on the sequence. -/
def atIndex (s : List α) (index : Int) (message : String) (use : Nat → List α × Outcome α) :
    List α × Outcome α :=
  if 0 ≤ index ∧ index < s.length then use index.toNat else (s, .error message)

/-- The methods on the sequence from head to tail; an index counts in the view of the mode. -/
def sequenceStep (lifo : Bool) (s : List α) : Method α → List α × Outcome α
  | .push value | .offsetSet none value => (s ++ [value], .ok none)
  | .unshift value => (value :: s, .ok none)
  | .pop => (s.dropLast, taken "Can't pop from an empty datastructure" s.getLast?)
  | .shift => (s.tail, taken "Can't shift from an empty datastructure" s.head?)
  | .add index value =>
    if 0 ≤ index ∧ index ≤ s.length then
      (view lifo ((view lifo s).take index.toNat ++
        value :: (view lifo s).drop index.toNat), .ok none)
    else (s, .error outOfRange)
  | .offsetSet (some index) value =>
    atIndex s index outOfRange fun i => (view lifo ((view lifo s).set i value), .ok none)
  | .offsetUnset index =>
    atIndex s index "Offset out of range" fun i => (view lifo ((view lifo s).eraseIdx i), .ok none)
  | .offsetGet index => atIndex s index outOfRange fun i => (s, .ok (view lifo s)[i]?)

/-- The sequence after some calls, and what they return. -/
def sequenceRun (lifo : Bool) : List α → List (Nat × Method α) → List α × List (Outcome α)
  | s, [] => (s, [])
  | s, c :: cs =>
    let (s, outcome) := sequenceStep lifo s c.2
    let (s, outcomes) := sequenceRun lifo s cs
    (s, outcome :: outcomes)

section view

variable {lifo : Bool}

@[simp] theorem view_view (s : List β) : view lifo (view lifo s) = s := by
  cases lifo <;> simp [view]

theorem map_view {γ : Type} (f : β → γ) (s : List β) :
    (view lifo s).map f = view lifo (s.map f) := by
  cases lifo <;> simp [view]

theorem view_perm (s : List β) : (view lifo s).Perm s := by
  cases lifo
  · exact .refl s
  · exact reverse_perm s

end view

/-! ### The list in memory -/

namespace Llist

variable {next prev : Nat → Option Nat} {xs ys : List Nat} {elem : Nat}

private theorem links_link (links : Links next prev (xs ++ ys)) (nodup : (xs ++ ys).Nodup)
    (new : elem ∉ xs ++ ys) :
    Links (write (write next (some elem) ys.head?) xs.getLast? (some elem))
      (write (write prev (some elem) xs.getLast?) ys.head? (some elem)) (xs ++ elem :: ys) := by
  have notLast : xs.getLast? ≠ some elem := fun last =>
    new (mem_append_left _ (mem_of_getLast? last))
  have notHead : ys.head? ≠ some elem := fun first => new (mem_append_right _ (mem_of_head? first))
  have old : ∀ x ∈ xs ++ ys, elem ≠ x := fun x member same => new (same ▸ member)
  refine @links_between _ next prev _ _ _ _ _ [] elem links nodup ?_ ?_ ?_ ?_
  · simp [write, notLast]
  · simp [write, notHead]
  · exact fun x member => by simp [write, old x member]
  · exact fun x member => by simp [write, old x member]

private theorem offsetLoop_links (links : Links next prev xs) (steps : Nat) :
    offsetLoop next steps xs.head? = xs[steps]? := by
  -- generalised to what is still ahead
  suffices ahead : ∀ steps l r, xs = l ++ r →
    offsetLoop next steps r.head? = r[steps]? from ahead steps [] xs rfl
  intro steps
  induction steps with
  | zero => rintro l (_ | ⟨a, r⟩) _ <;> rfl
  | succ steps ih =>
    rintro l (_ | ⟨a, r⟩) split
    · rfl
    · have rest := ih (l ++ [a]) r (by simp [split])
      rwa [← (links l a r split).1] at rest

end Llist

/-- The elements of the list from head to tail, with their values. -/
structure Chain (l : Llist α) (ps : List (Nat × α)) : Prop where
  links : Links l.next l.prev (ps.map fst)
  nodup : (ps.map fst).Nodup
  head : l.head = (ps.map fst).head?
  tail : l.tail = (ps.map fst).getLast?
  data : ∀ p ∈ ps, l.data p.1 = some p.2
  count : l.count = ps.length

namespace Chain

variable {l : Llist α} {ps ys zs : List (Nat × α)} {p : Nat × α} {elem : Nat} {value : α}
    {lifo : Bool}

theorem node (chain : Chain l (ys ++ p :: zs)) :
    l.next p.1 = (zs.map fst).head? ∧ l.prev p.1 = (ys.map fst).getLast? :=
  chain.links _ _ _ (by simp)

theorem link (ys zs : List (Nat × α)) (value : α) (chain : Chain l (ys ++ zs))
    (new : elem ∉ (ys ++ zs).map fst) (room : l.count < 2 ^ 31 - 1) :
    Chain (l.link (ys.map fst).getLast? (zs.map fst).head? elem value)
      (ys ++ (elem, value) :: zs) := by
  obtain ⟨links, nodup, head, tail, data, count⟩ := chain
  have apart : ∀ q ∈ ys ++ zs, q.1 ≠ elem := fun q member same => new (same ▸ mem_map_of_mem member)
  rw [map_append] at links nodup head tail new
  refine ⟨?_, ?_, ?_, ?_, ?_, ?_⟩
  · rw [map_append, map_cons]
    exact Llist.links_link links nodup new
  · rw [map_append, map_cons, nodup_middle]
    exact nodup_cons.mpr ⟨new, nodup⟩
  · cases ys <;> simp [Llist.link, head]
  · cases zs <;> simp [Llist.link, tail, getLast?_append, getLast?_cons_cons]
  · intro q member
    rcases mem_cons.mp (perm_middle.mem_iff.mp member) with rfl | old
    · exact update_self ..
    · rw [← data q old]
      exact update_of_ne (apart q old) ..
  · change (l.count + 1).bmod (2 ^ 32) = _
    rw [Int.bmod_eq_of_le (by omega) (by omega)]
    simp only [length_append, length_cons] at count ⊢
    omega

theorem detach (chain : Chain l (ys ++ p :: zs)) (room : l.count < 2 ^ 31 - 1) :
    Chain (l.detach (ys.map fst).getLast? (zs.map fst).head? p.1) (ys ++ zs) := by
  obtain ⟨links, nodup, head, tail, data, count⟩ := chain
  rw [map_append, map_cons] at links nodup head tail
  obtain ⟨gone, rest⟩ := nodup_cons.mp (nodup_middle.mp nodup)
  rw [← map_append] at gone rest
  refine ⟨?_, rest, ?_, ?_, ?_, ?_⟩
  · rw [map_append]
    exact links_remove links nodup (fun _ _ => rfl) fun _ _ => rfl
  · cases ys <;> simp [Llist.detach, head]
  · cases zs <;> simp [Llist.detach, tail, getLast?_append, getLast?_cons_cons]
  · intro q member
    rw [← data q (perm_middle.mem_iff.mpr (mem_cons_of_mem _ member))]
    refine update_of_ne (fun same => gone ?_) ..
    rw [← same]
    exact mem_map_of_mem member
  · change (l.count - 1).bmod (2 ^ 32) = _
    rw [Int.bmod_eq_of_le (by omega) (by omega)]
    simp only [length_append, length_cons] at count ⊢
    omega

theorem unlink (chain : Chain l (ys ++ p :: zs)) (room : l.count < 2 ^ 31 - 1) :
    Chain (l.unlink p.1) (ys ++ zs) := by
  obtain ⟨after, before⟩ := chain.node
  have nodup := chain.nodup
  rw [map_append, map_cons] at nodup
  have gone := (nodup_cons.mp (nodup_middle.mp nodup)).1
  have notBefore : (ys.map fst).getLast? ≠ some p.1 :=
    fun last => gone (mem_append_left _ (mem_of_getLast? last))
  have notAfter : (zs.map fst).head? ≠ some p.1 :=
    fun first => gone (mem_append_right _ (mem_of_head? first))
  have atHead : l.head = some p.1 ↔ (ys.map fst).getLast? = none := by
    rw [chain.head]
    cases ys <;> simp_all
  have atTail : l.tail = some p.1 ↔ (zs.map fst).head? = none := by
    rw [chain.tail, map_append, map_cons]
    refine ⟨fun last => ?_, fun none => by simp_all⟩
    by_contra more
    exact getLast?_ne_of_split nodup (by simpa using more) last
  have same : l.unlink p.1 = l.detach (ys.map fst).getLast? (zs.map fst).head? p.1 := by
    simp only [Llist.unlink, Llist.detach, Llist.write, before, after, if_neg notBefore,
      if_neg notAfter, atHead, atTail]
  rw [same]
  exact chain.detach room

theorem offset (chain : Chain l ps) (lifo : Bool) {index : Int} (low : 0 ≤ index)
    (high : index < l.count) :
    ∃ ys p zs, ps = view lifo (ys ++ p :: zs) ∧ ys.length = index.toNat ∧
      l.offset index lifo = some p.1 := by
  have inside : index.toNat < (view lifo ps).length := by
    rw [(view_perm ps).length_eq]
    have count := chain.count
    omega
  have walked : l.offset index lifo = ((view lifo ps).map fst)[index.toNat]? := by
    rw [map_view]
    cases lifo with
    | false =>
      rw [Llist.offset, if_neg nofun, chain.head]
      exact Llist.offsetLoop_links chain.links _
    | true =>
      rw [Llist.offset, if_pos rfl, chain.tail, ← head?_reverse]
      exact Llist.offsetLoop_links (links_reverse chain.links) _
  refine ⟨(view lifo ps).take index.toNat, (view lifo ps)[index.toNat],
    (view lifo ps).drop (index.toNat + 1), ?_, ?_, ?_⟩
  · rw [getElem_cons_drop, take_append_drop, view_view]
  · exact length_take_of_le inside.le
  · rw [walked, getElem?_map, getElem?_eq_getElem inside]
    rfl

private theorem unlink_view (chain : Chain l (view lifo (ys ++ p :: zs)))
    (room : l.count < 2 ^ 31 - 1) :
    Chain (l.unlink p.1) (view lifo (ys ++ zs)) := by
  cases lifo with
  | false => exact chain.unlink room
  | true =>
    simp only [view, if_true, reverse_append, reverse_cons, append_assoc,
      singleton_append] at chain ⊢
    exact chain.unlink room

theorem store (chain : Chain l (view lifo (ys ++ p :: zs))) (value : α) :
    Chain { l with data := update l.data p.1 (some value) }
      (view lifo (ys ++ (p.1, value) :: zs)) := by
  obtain ⟨links, nodup, head, tail, data, count⟩ := chain
  have same : (view lifo (ys ++ (p.1, value) :: zs)).map fst =
      (view lifo (ys ++ p :: zs)).map fst := by
    simp [map_view]
  have whole := ((view_perm _).trans perm_middle).map fst |>.nodup_iff.mp nodup
  refine ⟨same ▸ links, same ▸ nodup, same ▸ head, same ▸ tail, fun q member => ?_, ?_⟩
  · rcases mem_cons.mp (((view_perm _).trans perm_middle).mem_iff.mp member) with rfl | old
    · exact update_self ..
    · rw [← data q (((view_perm _).trans perm_middle).mem_iff.mpr (mem_cons_of_mem _ old))]
      exact update_of_ne (fun same : q.1 = p.1 =>
        (nodup_cons.mp whole).1 (same ▸ mem_map_of_mem old)) ..
  · rw [count, ← length_map fst, ← same, length_map]

end Chain

def Shows (l : Llist α) (s : List α) : Prop := ∃ ps, Chain l ps ∧ ps.map snd = s

section step

variable {l : Llist α} {s : List α} {lifo : Bool}

theorem Chain.withElement {ps : List (Nat × α)} (chain : Chain l ps) (index : Int)
    (message : String)
    {use : Nat → Llist α × Outcome α} {use' : Nat → List α × Outcome α}
    (each : ∀ ys p zs, ps = view lifo (ys ++ p :: zs) → (use p.1).2 = (use' ys.length).2 ∧
      Shows (use p.1).1 (use' ys.length).1) :
    ∃ l', some (l.withElement lifo index message use) =
      some (l', (atIndex (ps.map snd) index message use').2) ∧
      Shows l' (atIndex (ps.map snd) index message use').1 := by
  have count := chain.count
  by_cases inside : 0 ≤ index ∧ index < l.count
  · obtain ⟨ys, p, zs, split, place, element⟩ := chain.offset lifo inside.1 inside.2
    obtain ⟨same, shows⟩ := each ys p zs split
    rw [Llist.withElement, if_neg (by omega), element, atIndex, if_pos (by rw [length_map]; omega),
      ← place, ← same]
    exact ⟨_, rfl, shows⟩
  · rw [Llist.withElement, if_pos (by omega), atIndex, if_neg (by rw [length_map]; omega)]
    exact ⟨l, rfl, ps, chain, rfl⟩

/-- `emalloc` returns an address that is not in use, `count` does not overflow, and `add` is called
in FIFO mode only. -/
def Ready (lifo : Bool) (l : Llist α) (c : Nat × Method α) : Prop :=
  c.1 ∉ walk l.next l.count.toNat l.head ∧ l.count < 2 ^ 31 - 1 ∧
    (lifo = true → ∀ index value, c.2 ≠ .add index value)

/-- A method does on the list what it does on the sequence. -/
theorem step_shows (shows : Shows l s) {c : Nat × Method α} (ready : Ready lifo l c) :
    ∃ l', l.step lifo c = some (l', (sequenceStep lifo s c.2).2) ∧
      Shows l' (sequenceStep lifo s c.2).1 := by
  obtain ⟨ps, chain, rfl⟩ := shows
  obtain ⟨elem, c⟩ := c
  obtain ⟨unused, room, fifo⟩ := ready
  have count := chain.count
  have new : elem ∉ ps.map fst := by
    rwa [count, chain.head, walk_links chain.links _ (by simp)] at unused
  have pushed (value : α) : Shows (l.push elem value) (ps.map snd ++ [value]) := by
    refine ⟨ps ++ [(elem, value)], ?_, by simp⟩
    rw [Llist.push, chain.tail]
    exact Chain.link ps [] value (by rwa [append_nil]) (by rwa [append_nil]) room
  cases c with
  | push value => exact ⟨_, rfl, pushed value⟩
  | unshift value =>
    refine ⟨_, rfl, (elem, value) :: ps, ?_, rfl⟩
    rw [Llist.unshift, chain.head]
    exact Chain.link [] ps value chain new room
  | pop =>
    rcases eq_nil_or_concat' ps with rfl | ⟨ys, p, rfl⟩
    · exact ⟨l, by simp [Llist.step, Llist.pop, chain.tail, sequenceStep], [], chain, rfl⟩
    · refine ⟨_, ?_, ys, by simpa using chain.detach room, by simp [sequenceStep]⟩
      simp [Llist.step, Llist.pop, chain.tail, chain.data p, chain.node.2, sequenceStep]
  | shift =>
    cases ps with
    | nil => exact ⟨l, by simp [Llist.step, Llist.shift, chain.head, sequenceStep], [], chain, rfl⟩
    | cons p ps =>
      have after := (@Chain.node _ _ [] _ _ chain).1
      refine ⟨_, ?_, ps, @Chain.detach _ _ [] _ _ chain room, rfl⟩
      simp [Llist.step, Llist.shift, chain.head, chain.data p, after, sequenceStep]
  | add index value =>
    -- only in FIFO order does `add` insert before the element of the index
    obtain rfl : lifo = false := by
      cases lifo with
      | false => rfl
      | true => exact absurd rfl (fifo rfl index value)
    simp only [Llist.step, sequenceStep, length_map]
    by_cases outside : index < 0 ∨ l.count < index
    · rw [if_pos outside, if_neg (by omega)]
      exact ⟨l, rfl, ps, chain, rfl⟩
    rw [if_neg outside, if_pos (⟨by omega, by omega⟩ : 0 ≤ index ∧ index ≤ (ps.length : Int))]
    split
    next atEnd =>
      have all : (ps.map snd).length ≤ index.toNat := by
        rw [length_map]
        omega
      refine ⟨_, rfl, ?_⟩
      change Shows _ ((ps.map snd).take index.toNat ++ value :: (ps.map snd).drop index.toNat)
      rw [take_of_length_le all, drop_of_length_le all]
      exact pushed value
    next =>
      obtain ⟨ys, p, zs, rfl, place, element⟩ :=
        chain.offset false (show 0 ≤ index by omega) (by omega)
      rw [element, ← place]
      refine ⟨_, rfl, ys ++ (elem, value) :: p :: zs, ?_, by simp [view]⟩
      rw [(@Chain.node _ l ys zs p chain).2]
      exact Chain.link ys (p :: zs) value chain new room
  | offsetSet index value =>
    cases index with
    | none => exact ⟨_, rfl, pushed value⟩
    | some index =>
      refine chain.withElement index outOfRange fun ys p zs split =>
        ⟨rfl, _, (split ▸ chain).store value, ?_⟩
      simp [split, map_view]
  | offsetUnset index =>
    refine chain.withElement index _ fun ys p zs split =>
      ⟨rfl, _, (split ▸ chain).unlink_view room, ?_⟩
    simp [split, map_view, eraseIdx_append]
  | offsetGet index =>
    refine chain.withElement index _ fun ys p zs split => ⟨?_, ps, chain, rfl⟩
    have stored := chain.data p (split ▸ (view_perm _).mem_iff.mpr (by simp))
    simp [split, map_view, stored]

private theorem run_shows (cs : List (Nat × Method α)) (shows : Shows l s)
    (ready : Guarded (Llist.step lifo) (Ready lifo) l cs) :
    ∃ l', run (Llist.step lifo) l cs = some (l', (sequenceRun lifo s cs).2) ∧
      Shows l' (sequenceRun lifo s cs).1 := by
  induction cs generalizing l s with
  | nil => exact ⟨l, rfl, shows⟩
  | cons c cs ih =>
    obtain ⟨l₁, stepped, shown⟩ := step_shows shows ready.1
    obtain ⟨l', ran, final⟩ := ih shown (ready.2 _ _ stepped)
    exact ⟨l', by simp [run, stepped, ran, sequenceRun], final⟩

end step

/-- In FIFO mode, and in LIFO mode without `add`, the list is the sequence: it answers as the
sequence does, and the walks from both ends show it. -/
theorem dllist_refines_sequence (lifo : Bool) (memory : Llist α) (cs : List (Nat × Method α))
    (ready : Guarded (Llist.step lifo) (Ready lifo) memory.init cs) : ∃ l,
      run (Llist.step lifo) memory.init cs = some (l, (sequenceRun lifo [] cs).2) ∧
      l.count = (sequenceRun lifo [] cs).1.length ∧
        ∀ fuel, (sequenceRun lifo [] cs).1.length ≤ fuel →
        (walk l.next fuel l.head).map l.data = (sequenceRun lifo [] cs).1.map some ∧
        walk l.prev fuel l.tail = (walk l.next fuel l.head).reverse := by
  have start : Shows memory.init [] := ⟨[], ⟨links_nil _ _, nodup_nil, rfl, rfl, nofun, rfl⟩, rfl⟩
  obtain ⟨l, ran, ps, chain, shown⟩ := run_shows cs start ready
  rw [← shown]
  refine ⟨l, ran, by rw [length_map]; exact chain.count, fun fuel enough => ?_⟩
  rw [length_map] at enough
  rw [chain.head, chain.tail, walk_links chain.links fuel (by simpa using enough),
    walk_links_reverse chain.links fuel (by simpa using enough), map_map, map_map]
  exact ⟨map_congr_left chain.data, rfl⟩

/-- A memory before anything is in it. -/
def blank : Llist Nat := ⟨none, none, 0, fun _ => none, fun _ => none, fun _ => none⟩

theorem dllist_refines_sequence_two : ∃ l, run (Llist.step true) blank.init
      [(0, .push 1), (1, .push 2), (2, .offsetGet 0)] =
        some (l, [.ok none, .ok none, .ok (some 2)]) ∧ l.count = 2 := by
  obtain ⟨l, ran, count, -⟩ := dllist_refines_sequence true blank
    [(0, .push 1), (1, .push 2), (2, .offsetGet 0)] (by
    simp [Guarded, Ready, Llist.step]
    decide)
  exact ⟨l, ran, count⟩

/-- In LIFO mode the value is added behind the element at the index. -/
theorem add_behind :
    (run (Llist.step true) blank.init [(0, .push 1), (1, .add 0 2), (0, .offsetGet 0)]).map snd =
        some [.ok none, .ok none, .ok (some 1)] ∧
          (sequenceRun true [] [(0, .push 1), (1, .add 0 2), (0, .offsetGet 0)]).2 =
        ([.ok none, .ok none, .ok (some 2)] : List (Outcome Nat)) :=
  ⟨rfl, rfl⟩

end Jonj.Spl
