import Jonj.Lib.Loop

/-!
# The sort of `zend_qsort.c`

Pointers are integers relative to `base`. The algorithm only hands pointers to the comparison and to
the exchange of two elements, so it is written for any memory with these two operations and for any
choice of the pivot; `zendQsortR` is the instance with the bytes of the array and
`_zend_qsort_swap`. Loops take a bound on their rounds and fail if it does not suffice.
-/
namespace Jonj.Qsort

open Loop

/-- What the algorithm does with the elements at two pointers. -/
structure Ops (S : Type) where
  compare : Int → Int → S → Int × S
  swap : Int → Int → S → S

section algorithm

variable {S : Type} (ops : Ops S) (siz : Int) (pivot : Int → Int) (rounds : Nat)

/-- `for (; seg1 < seg2 && compare(begin, seg1) > 0; seg1 += siz)` -/
def forUp (begin_ seg2 : Int) : Int → S → Option (Int × S) := fun seg1 st =>
  loop (fun (x : Int × S) =>
    if x.1 < seg2 then
      let r := ops.compare begin_ x.1 x.2
      if 0 < r.1 then some (.inl (x.1 + siz, r.2)) else some (.inr (x.1, r.2))
    else some (.inr x)) rounds (seg1, st)

/-- `for (; seg2 >= seg1 && compare(seg2, begin) > 0; seg2 -= siz)` -/
def forDown (begin_ seg1 : Int) : Int → S → Option (Int × S) := fun seg2 st =>
  loop (fun (x : Int × S) =>
    if seg1 ≤ x.1 then
      let r := ops.compare x.1 begin_ x.2
      if 0 < r.1 then some (.inl (x.1 - siz, r.2)) else some (.inr (x.1, r.2))
    else some (.inr x)) rounds (seg2, st)

/-- The loop `while (1)`, with `seg2` after it. -/
def whileOne (begin_ seg1 seg2 : Int) (st : S) : Option (Int × S) :=
  loop (fun (x : Int × Int × S) =>
    (forUp ops siz rounds begin_ x.2.1 x.1 x.2.2).bind fun up =>
      (forDown ops siz rounds begin_ up.1 x.2.1 up.2).bind fun down =>
        if down.1 ≤ up.1 then some (.inr down)
        else some (.inl (up.1 + siz, down.1 - siz, ops.swap up.1 down.1 down.2))) rounds
          (seg1, seg2, st)

/-- The partition of the segment from `begin` to `end`, with `seg2` after it. -/
def partition (begin_ end_ : Int) (st : S) : Option (Int × S) :=
  let st := ops.swap begin_ (begin_ + pivot (end_ - begin_)) st
  (whileOne ops siz rounds begin_ (begin_ + siz) end_ st).map fun x =>
    (x.1, ops.swap begin_ x.1 x.2)

/-- The entries of `begin_stack` and `end_stack` below the current one, the uppermost first, and the
number of entries used so far. -/
structure Stack where
  pending : List (Int × Int)
  used : Nat

/-- `begin_stack[loop] = begin; end_stack[loop++] = end` -/
def Stack.push (stack : Stack) (begin_ end_ : Int) : Stack where
  pending := (begin_, end_) :: stack.pending
  used := max stack.used (stack.pending.length + 1)

/-- The larger side is pushed if it has more than one element; the loop goes on with the other
one. -/
def split (begin_ end_ seg2p : Int) (stack : Stack) : Int × Int × Stack :=
  if seg2p - begin_ ≤ end_ - seg2p then
    (begin_, seg2p - siz, if seg2p + siz < end_ then stack.push (seg2p + siz) end_ else stack)
  else
    (seg2p + siz, end_, if begin_ < seg2p - siz then stack.push begin_ (seg2p - siz) else stack)

/-- `while (begin < end)` -/
def whileSegment (begin_ end_ : Int) (stack : Stack) (st : S) : Option (Stack × S) :=
  loop (fun (x : (Int × Int × Stack) × S) =>
    if x.1.1 < x.1.2.1 then
      (partition ops siz pivot rounds x.1.1 x.1.2.1 x.2).map fun r =>
        .inl (split siz x.1.1 x.1.2.1 r.1 x.1.2.2, r.2)
    else some (.inr (x.1.2.2, x.2))) rounds ((begin_, end_, stack), st)

/-- `for (loop = 0; loop >= 0; --loop)` -/
def forStack (stack : Stack) (st : S) : Option (Stack × S) :=
  loop (fun (x : Stack × S) =>
    match x.1.pending with
    | [] => some (.inr x)
    | (begin_, end_) :: pending =>
      (whileSegment ops siz pivot rounds begin_ end_ { x.1 with pending := pending } x.2).map .inl)
        rounds (stack, st)

/-- `begin_stack[0] = base; end_stack[0] = base + (nmemb - 1) * siz` and the loop. -/
def qsort (nmemb : Nat) (st : S) : Option (Stack × S) :=
  forStack ops siz pivot rounds { pending := [(0, (nmemb - 1) * siz)], used := 1 } st

end algorithm

/-! ### The bytes of the array -/

/-- The memory, what the comparison remembers, and the addresses that were read or written. -/
structure Memory (σ : Type) where
  bytes : Int → UInt8
  arg : σ
  touched : List Int

variable {σ : Type}

/-- The addresses of `n` bytes from `p` on. -/
def addresses (p : Int) (n : Nat) : List Int := (List.range n).map fun k : Nat => p + k

def Memory.load (mem : Memory σ) (p : Int) (n : Nat) : List UInt8 := (addresses p n).map mem.bytes

def Memory.store (mem : Memory σ) (p : Int) (values : List UInt8) : Memory σ where
  bytes := fun x => if p ≤ x then (values[(x - p).toNat]?).getD (mem.bytes x) else mem.bytes x
  arg := mem.arg
  touched := addresses p values.length ++ mem.touched

/-- `t = *a; *a = *b; *b = t` on objects of `n` bytes. -/
def Memory.exchange (mem : Memory σ) (a b : Int) (n : Nat) : Memory σ :=
  let t := mem.load a n
  (mem.store a (mem.load b n)).store b t

/-- The loop over `int`s from `i` on, which moves both pointers. -/
def swapInts (siz i : Nat) (a b : Int) (mem : Memory σ) : Nat × Int × Int × Memory σ :=
  if i ≤ siz then swapInts siz (i + 4) (a + 4) (b + 4) (mem.exchange a b 4) else (i, a, b, mem)
termination_by siz + 1 - i

/-- The loop over the remaining `char`s. -/
def swapChars (siz i : Nat) (a b : Int) (mem : Memory σ) : Memory σ :=
  if i ≤ siz then swapChars siz (i + 1) (a + 1) (b + 1) (mem.exchange a b 1) else mem
termination_by siz + 1 - i

def zendQsortSwap (siz : Nat) (a b : Int) (mem : Memory σ) : Memory σ :=
  let ints := swapInts siz 4 a b mem
  swapChars siz (ints.1 - 4 + 1) ints.2.1 ints.2.2.1 ints.2.2.2

/-- A comparison: what it answers may depend on its own memory, on the pointers and on the
elements. -/
abbrev Compare (σ : Type) := σ → Int → Int → List UInt8 → List UInt8 → Int × σ

/-- A call of the comparison reads both elements. -/
def callCompare (compare : Compare σ) (siz : Nat) (a b : Int) (mem : Memory σ) : Int × Memory σ :=
  let r := compare mem.arg a b (mem.load a siz) (mem.load b siz)
  (r.1, { mem with arg := r.2, touched := addresses a siz ++ addresses b siz ++ mem.touched })

def byteOps (compare : Compare σ) (siz : Nat) : Ops (Memory σ) where
  compare := callCompare compare siz
  swap := zendQsortSwap siz

/-- `offset - (offset % siz)`, where `offset` is a `uint`. -/
def pivotOffset (siz : Nat) (distance : Int) : Int :=
  let offset := distance / 2 % 2 ^ 32
  offset - offset % siz

/-- `zend_qsort_r`, with the stack entries it used. -/
def zendQsortR (rounds : Nat) (nmemb siz : Nat) (compare : Compare σ) (mem : Memory σ) :
    Option (Stack × Memory σ) :=
  qsort (byteOps compare siz) siz (pivotOffset siz) rounds nmemb mem

end Jonj.Qsort
