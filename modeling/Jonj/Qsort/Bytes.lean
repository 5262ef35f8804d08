import Jonj.Lib.Runs
import Jonj.Qsort.Sorted

/-!
# The sort on the bytes of the array

`_zend_qsort_swap` exchanges two elements, and the algorithm on bytes does with the pointers to the
elements what the algorithm on elements does with their indices.
-/
namespace Jonj.Qsort

open Loop Rearrangement Runs List

variable {σ : Type}

/-! ### The exchange of two elements -/

theorem mem_addresses {p x : Int} {n : Nat} : x ∈ addresses p n ↔ p ≤ x ∧ x < p + n := by
  simp only [addresses, mem_map, mem_range]
  constructor
  · omega
  · rintro ⟨low, high⟩
    exact ⟨(x - p).toNat, by omega, by omega⟩

private theorem getElem?_load {mem : Memory σ} {p : Int} {n k : Nat} (less : k < n) :
    (mem.load p n)[k]? = some (mem.bytes (p + k)) := by
  simp [Memory.load, addresses, less]

/-- The bytes of two blocks exchanged. -/
def exchangeBlocks (bytes : Int → UInt8) (a b : Int) (n : Int) : Int → UInt8 := fun x =>
  if b ≤ x ∧ x < b + n then bytes (x - b + a) else if a ≤ x ∧ x < a + n then bytes (x - a + b)
    else bytes x

/-- The blocks are the same one or do not overlap. -/
def Apart (a b : Int) (n : Int) : Prop := a = b ∨ a + n ≤ b ∨ b + n ≤ a

private theorem bytes_exchange (mem : Memory σ) (a b : Int) (n : Nat) :
    (mem.exchange a b n).bytes = exchangeBlocks mem.bytes a b n := by
  have stored : ∀ (mem mem' : Memory σ) (p q : Int) (x : Int),
      (mem.store p (mem'.load q n)).bytes x = if p ≤ x ∧ x < p + n then mem'.bytes (x - p + q)
        else mem.bytes x := by
    intro mem mem' p q x
    simp only [Memory.store]
    by_cases low : p ≤ x
    · rw [if_pos low]
      by_cases high : x < p + n
      · rw [getElem?_load (by omega), Option.getD_some, if_pos ⟨low, high⟩]
        congr 1
        omega
      · rw [getElem?_eq_none (by simp [Memory.load, addresses]; omega), Option.getD_none,
          if_neg (by omega)]
    · rw [if_neg low, if_neg (by omega)]
  funext x
  rw [Memory.exchange, stored, stored, exchangeBlocks]

variable {b : Int}

/-- Blocks may be exchanged piece by piece. -/
theorem exchangeBlocks_add (bytes : Int → UInt8) {a m n : Int} (nonneg : 0 ≤ m) (nonneg' : 0 ≤ n)
    (apart : Apart a b (m + n)) :
    exchangeBlocks (exchangeBlocks bytes a b m) (a + m) (b + m) n =
      exchangeBlocks bytes a b (m + n) := by
  funext x
  unfold Apart at apart
  simp only [exchangeBlocks]
  split_ifs <;> first | omega | rfl | (congr 1; omega)

/-- `mem'` is `mem` with two blocks exchanged, and nothing else was touched. -/
structure Exchanged (mem mem' : Memory σ) (a b n : Int) : Prop where
  bytes : mem'.bytes = exchangeBlocks mem.bytes a b n
  arg : mem'.arg = mem.arg
  touched : ∀ x ∈ mem'.touched, x ∈ mem.touched ∨ (a ≤ x ∧ x < a + n) ∨ (b ≤ x ∧ x < b + n)

theorem exchanged_exchange (mem : Memory σ) (a b : Int) (n : Nat) :
    Exchanged mem (mem.exchange a b n) a b n := by
  refine ⟨bytes_exchange mem a b n, rfl, fun x member => ?_⟩
  have length : ∀ (m : Memory σ) (p : Int), (m.load p n).length = n := by
    simp [Memory.load, addresses]
  simp only [Memory.exchange, Memory.store, length, mem_append, mem_addresses] at member
  tauto

theorem Exchanged.refl (mem : Memory σ) (a b : Int) : Exchanged mem mem a b 0 := by
  refine ⟨?_, rfl, fun x member => .inl member⟩
  funext x
  rw [exchangeBlocks, if_neg (by omega), if_neg (by omega)]

theorem Exchanged.add {mem mem' mem'' : Memory σ} {a m n : Int} (first : Exchanged mem mem' a b m)
    (second : Exchanged mem' mem'' (a + m) (b + m) n) (nonneg : 0 ≤ m) (nonneg' : 0 ≤ n)
    (apart : Apart a b (m + n)) :
    Exchanged mem mem'' a b (m + n) := by
  refine ⟨?_, second.arg.trans first.arg, fun x member => ?_⟩
  · rw [second.bytes, first.bytes, exchangeBlocks_add mem.bytes nonneg nonneg' apart]
  rcases second.touched x member with old | new | new
  · rcases first.touched x old with older | here | here
    · exact .inl older
    · exact .inr (.inl (by omega))
    · exact .inr (.inr (by omega))
  · exact .inr (.inl (by omega))
  · exact .inr (.inr (by omega))

theorem Apart.mono {a m n : Int} (apart : Apart a b n) (less : m ≤ n) : Apart a b m := by
  unfold Apart at *
  omega

/-- The first loop exchanges whole `int`s, as many as the element has. -/
theorem swapInts_spec (siz i : Nat) (a b : Int) (mem : Memory σ) (start : i ≤ siz + 4)
    (apart : Apart a b (siz + 4 - i)) :
    let r := swapInts siz i a b mem
    i ≤ r.1 ∧ siz < r.1 ∧ r.1 ≤ siz + 4 ∧ r.2.1 = a + (r.1 - i) ∧ r.2.2.1 = b + (r.1 - i) ∧
      Exchanged mem r.2.2.2 a b (r.1 - i) := by
  fun_induction swapInts siz i a b mem with
  | case1 =>
    rename_i i a b mem more ih
    obtain ⟨later, past, atMost, left, right, exchanged⟩ := ih (by omega) (by
      unfold Apart at *
      omega)
    have both := (exchanged_exchange mem a b 4).add exchanged (by omega) (by omega)
      (apart.mono (by omega))
    have count : ((4 : Nat) : Int) +
      ((swapInts siz (i + 4) (a + 4) (b + 4) (mem.exchange a b 4)).1 - (i + 4 : Nat)) =
        (swapInts siz (i + 4) (a + 4) (b + 4) (mem.exchange a b 4)).1 - i := by omega
    rw [count] at both
    exact ⟨by omega, past, atMost, by omega, by omega, both⟩
  | case2 =>
    rename_i i a b mem done
    simp only [sub_self, add_zero]
    exact ⟨le_refl _, by omega, start, trivial, trivial, Exchanged.refl mem a b⟩

/-- The second loop exchanges what is left byte by byte. -/
theorem swapChars_spec (siz i : Nat) (a b : Int) (mem : Memory σ) (start : i ≤ siz + 1)
    (apart : Apart a b (siz + 1 - i)) :
    Exchanged mem (swapChars siz i a b mem) a b (siz + 1 - i) := by
  fun_induction swapChars siz i a b mem with
  | case1 =>
    rename_i i a b mem more ih
    have exchanged := ih (by omega) (by
      unfold Apart at *
      omega)
    have both := (exchanged_exchange mem a b 1).add exchanged (by omega) (by omega)
      (apart.mono (by omega))
    have count : ((1 : Nat) : Int) + (siz + 1 - (i + 1 : Nat)) = siz + 1 - i := by omega
    rwa [count] at both
  | case2 =>
    rename_i i a b mem done
    have count : (siz : Int) + 1 - i = 0 := by omega
    rw [count]
    exact Exchanged.refl mem a b

/-- `zend_qsort_swap` exchanges two elements of any size. -/
theorem zendQsortSwap_spec (siz : Nat) (a b : Int) (mem : Memory σ) (apart : Apart a b siz) :
    Exchanged mem (zendQsortSwap siz a b mem) a b siz := by
  obtain ⟨later, past, atMost, left, right, ints⟩ :=
    swapInts_spec siz 4 a b mem (by omega) (apart.mono (by omega))
  have chars := swapChars_spec siz ((swapInts siz 4 a b mem).1 - 4 + 1)
    (a + ((swapInts siz 4 a b mem).1 - (4 : Nat)))
    (b + ((swapInts siz 4 a b mem).1 - (4 : Nat))) (swapInts siz 4 a b mem).2.2.2 (by omega) (by
      unfold Apart at *
      omega)
  have both := ints.add chars (by omega) (by omega) (apart.mono (by omega))
  have count : ((swapInts siz 4 a b mem).1 : Int) - (4 : Nat) +
    (siz + 1 - ((swapInts siz 4 a b mem).1 - 4 + 1 : Nat)) =
      siz := by omega
  rw [count] at both
  simp only [zendQsortSwap, left, right]
  exact both

/-! ### Elements and their bytes -/

/-- The element with the index `k`. -/
def element (siz : Nat) (bytes : Int → UInt8) (k : Int) : List UInt8 :=
  (addresses (k * siz) siz).map bytes

theorem blocks_apart {i j siz : Int} (nonneg : 0 ≤ siz) (different : i ≠ j) :
    i * siz + siz ≤ j * siz ∨ j * siz + siz ≤ i * siz := by
  rcases lt_or_gt_of_ne different with less | greater
  · left
    have step := Int.mul_le_mul_of_nonneg_right (show i + 1 ≤ j by omega) nonneg
    rwa [Int.add_mul, one_mul] at step
  · right
    have step := Int.mul_le_mul_of_nonneg_right (show j + 1 ≤ i by omega) nonneg
    rwa [Int.add_mul, one_mul] at step

private theorem apart_blocks (siz : Nat) (i j : Int) : Apart (i * siz) (j * siz) siz := by
  by_cases same : i = j
  · exact .inl (by rw [same])
  · exact .inr (blocks_apart (by omega) same)

variable {bytes : Int → UInt8} {siz : Nat}

private theorem element_congr {bytes' : Int → UInt8} {k l : Int}
    (same : ∀ x : Nat, x < siz → bytes (k * siz + x) = bytes' (l * siz + x)) :
    element siz bytes k = element siz bytes' l := by
  simp only [element, addresses, map_map]
  apply map_congr_left
  intro x member
  exact same x (mem_range.mp member)

/-- Exchanged blocks are exchanged elements. -/
theorem element_exchangeBlocks (siz : Nat) (bytes : Int → UInt8) (i j : Int) :
    element siz (exchangeBlocks bytes (i * siz) (j * siz) siz) =
      exchange (element siz bytes) i j := by
  funext k
  by_cases right : k = j
  · rw [right, exchange_right]
    apply element_congr
    intro x less
    rw [exchangeBlocks, if_pos (by omega)]
    congr 1
    omega
  have notRight := blocks_apart (Int.natCast_nonneg siz) right
  by_cases left : k = i
  · rw [left, exchange_left]
    rw [left] at notRight
    apply element_congr
    intro x less
    rw [exchangeBlocks, if_neg (by omega), if_pos (by omega)]
    congr 1
    omega
  have notLeft := blocks_apart (Int.natCast_nonneg siz) left
  rw [exchange_of_ne _ left right]
  apply element_congr
  intro x less
  rw [exchangeBlocks, if_neg (by omega), if_neg (by omega)]

/-! ### The algorithm does the same with pointers as with indices -/

section simulation

variable {S S' : Type} {ops : Ops S} {ops' : Ops S'} {siz : Int} {R : S → S' → Prop}

/-- The operations on pointers to elements correspond to those on their indices. -/
structure Simulates (ops : Ops S) (ops' : Ops S') (siz : Int) (R : S → S' → Prop) : Prop where
  stride : 0 < siz
  answer : ∀ i j s s', R s s' → (ops.compare (i * siz) (j * siz) s).1 = (ops'.compare i j s').1
  compare : ∀ i j s s', R s s' → R (ops.compare (i * siz) (j * siz) s).2 (ops'.compare i j s').2
  swap : ∀ i j s s', R s s' → R (ops.swap (i * siz) (j * siz) s) (ops'.swap i j s')

/-- A pointer and a state against an index and a state. -/
def Scaled (siz : Int) (R : S → S' → Prop) (x : Int × S) (y : Int × S') : Prop :=
  x.1 = y.1 * siz ∧ R x.2 y.2

section

variable (sim : Simulates ops ops' siz R) (rounds : Nat)

include sim

private theorem forUp_rel (begin_ seg2 seg1 : Int) {s : S} {s' : S'} (start : R s s') :
    Option.Rel (Scaled siz R) (forUp ops siz rounds (begin_ * siz) (seg2 * siz) (seg1 * siz) s)
      (forUp ops' 1 rounds begin_ seg2 seg1 s') := by
  refine loop_rel (R := Scaled siz R) ?_ rounds ⟨rfl, start⟩
  rintro ⟨_, t⟩ ⟨i, t'⟩ ⟨rfl, related⟩
  simp only [Int.mul_lt_mul_right sim.stride, sim.answer begin_ i t t' related]
  split
  · split
    · exact .some (.inl ⟨(add_one_mul i siz).symm, sim.compare begin_ i t t' related⟩)
    · exact .some (.inr ⟨rfl, sim.compare begin_ i t t' related⟩)
  · exact .some (.inr ⟨rfl, related⟩)

private theorem forDown_rel (begin_ seg1 seg2 : Int) {s : S} {s' : S'} (start : R s s') :
    Option.Rel (Scaled siz R) (forDown ops siz rounds (begin_ * siz) (seg1 * siz) (seg2 * siz) s)
      (forDown ops' 1 rounds begin_ seg1 seg2 s') := by
  refine loop_rel (R := Scaled siz R) ?_ rounds ⟨rfl, start⟩
  rintro ⟨_, t⟩ ⟨i, t'⟩ ⟨rfl, related⟩
  simp only [Int.mul_le_mul_right sim.stride, sim.answer i begin_ t t' related]
  split
  · split
    · exact .some (.inl ⟨(sub_one_mul i siz).symm, sim.compare i begin_ t t' related⟩)
    · exact .some (.inr ⟨rfl, sim.compare i begin_ t t' related⟩)
  · exact .some (.inr ⟨rfl, related⟩)

private theorem whileOne_rel (begin_ seg1 seg2 : Int) {s : S} {s' : S'} (start : R s s') :
    Option.Rel (Scaled siz R) (whileOne ops siz rounds (begin_ * siz) (seg1 * siz) (seg2 * siz) s)
      (whileOne ops' 1 rounds begin_ seg1 seg2 s') := by
  refine loop_rel
    (R := fun (x : Int × Int × S) (y : Int × Int × S') => x.1 = y.1 * siz ∧
      Scaled siz R x.2 y.2) ?_ rounds
    ⟨rfl, rfl, start⟩
  rintro ⟨_, _, t⟩ ⟨i, j, t'⟩ ⟨rfl, rfl, related⟩
  refine rel_bind (forUp_rel sim rounds begin_ j i related) ?_
  rintro ⟨_, u⟩ ⟨i', u'⟩ _ ⟨rfl, related'⟩
  refine rel_bind (forDown_rel sim rounds begin_ i' j related') ?_
  rintro ⟨_, v⟩ ⟨j', v'⟩ _ ⟨rfl, related''⟩
  simp only [Int.mul_le_mul_right sim.stride]
  split
  · exact .some (.inr ⟨rfl, related''⟩)
  · exact .some (.inl ⟨(add_one_mul i' siz).symm, (sub_one_mul j' siz).symm,
      sim.swap i' j' v v' related''⟩)

end

variable {pivot pivot' : Int → Int}

/-- The loops on pointers do what the loops on indices do. -/
theorem partition_rel (sim : Simulates ops ops' siz R)
    (chosen : ∀ d, pivot (d * siz) = pivot' d * siz) (rounds : Nat) (begin_ end_ : Int) {s : S}
    {s' : S'} (start : R s s') :
    Option.Rel (Scaled siz R) (partition ops siz pivot rounds (begin_ * siz) (end_ * siz) s)
      (partition ops' 1 pivot' rounds begin_ end_ s') := by
  have distance : end_ * siz - begin_ * siz = (end_ - begin_) * siz := by ring
  have index : begin_ * siz + pivot (end_ * siz - begin_ * siz) =
      (begin_ + pivot' (end_ - begin_)) * siz := by
    rw [distance, chosen]
    ring
  unfold partition
  simp only [index, ← add_one_mul]
  have parted := whileOne_rel sim rounds begin_ (begin_ + 1) end_
    (sim.swap begin_ (begin_ + pivot' (end_ - begin_)) s s' start)
  generalize whileOne ops siz rounds _ _ _ _ = x, whileOne ops' 1 rounds _ _ _ _ = y at parted
  cases parted with
  | none => exact .none
  | some both =>
    rename_i p q
    refine .some ⟨both.1, ?_⟩
    simp only [both.1]
    exact sim.swap begin_ q.1 p.2 q.2 both.2

/-- The entries of the two stacks. -/
def ScaledStack (siz : Int) (x y : Stack) : Prop :=
  x.pending = y.pending.map (fun s => (s.1 * siz, s.2 * siz)) ∧ x.used = y.used

theorem ScaledStack.push {x y : Stack} (scaled : ScaledStack siz x y) (b e : Int) :
    ScaledStack siz (x.push (b * siz) (e * siz)) (y.push b e) := by
  obtain ⟨pending, used⟩ := scaled
  simp [ScaledStack, Stack.push, pending, used]

private theorem split_rel (stride : 0 < siz) (b e m : Int) {x y : Stack}
    (scaled : ScaledStack siz x y) :
    (split siz (b * siz) (e * siz) (m * siz) x).1 = (split 1 b e m y).1 * siz ∧
      (split siz (b * siz) (e * siz) (m * siz) x).2.1 = (split 1 b e m y).2.1 * siz ∧
      ScaledStack siz (split siz (b * siz) (e * siz) (m * siz) x).2.2 (split 1 b e m y).2.2 := by
  have left : m * siz - b * siz = (m - b) * siz := by ring
  have right : e * siz - m * siz = (e - m) * siz := by ring
  unfold split
  simp only [left, right, ← add_one_mul, ← sub_one_mul, Int.mul_le_mul_right stride,
    Int.mul_lt_mul_right stride]
  split
  · refine ⟨rfl, rfl, ?_⟩
    split
    · exact scaled.push (m + 1) e
    · exact scaled
  refine ⟨rfl, rfl, ?_⟩
  split
  · exact scaled.push b (m - 1)
  · exact scaled

/-- The stacks and the states. -/
def Both (siz : Int) (R : S → S' → Prop) (x : Stack × S) (y : Stack × S') : Prop :=
  ScaledStack siz x.1 y.1 ∧ R x.2 y.2

section

variable (sim : Simulates ops ops' siz R) (chosen : ∀ d, pivot (d * siz) = pivot' d * siz)

include sim chosen

private theorem whileSegment_rel (rounds : Nat) (b e : Int) {x y : Stack}
    (scaled : ScaledStack siz x y) {s : S} {s' : S'} (start : R s s') :
    Option.Rel (Both siz R) (whileSegment ops siz pivot rounds (b * siz) (e * siz) x s)
      (whileSegment ops' 1 pivot' rounds b e y s') := by
  refine loop_rel
    (R := fun (x : (Int × Int × Stack) × S) (y : (Int × Int × Stack) × S') => x.1.1 = y.1.1 * siz ∧
      x.1.2.1 = y.1.2.1 * siz ∧ ScaledStack siz x.1.2.2 y.1.2.2 ∧ R x.2 y.2) ?_ rounds
        ⟨rfl, rfl, scaled, start⟩
  rintro ⟨⟨_, _, x'⟩, t⟩ ⟨⟨b', e', y'⟩, t'⟩ ⟨rfl, rfl, scaled', related⟩
  simp only [Int.mul_lt_mul_right sim.stride]
  split
  · have parted := partition_rel sim chosen rounds b' e' related
    generalize partition ops siz pivot rounds _ _ _ = p,
      partition ops' 1 pivot' rounds _ _ _ = q at parted
    cases parted with
    | none => exact .none
    | some both =>
      rename_i p q
      obtain ⟨m, related'⟩ := both
      have sides := split_rel sim.stride b' e' q.1 scaled'
      refine .some (.inl ?_)
      rw [m]
      exact ⟨sides.1, sides.2.1, sides.2.2, related'⟩
  · exact .some (.inr ⟨scaled', related⟩)

/-- The whole sort, on pointers and on indices. -/
theorem qsort_rel (rounds nmemb : Nat) {s : S} {s' : S'} (start : R s s') :
    Option.Rel (Both siz R) (qsort ops siz pivot rounds nmemb s)
      (qsort ops' 1 pivot' rounds nmemb s') := by
  refine loop_rel (R := Both siz R) ?_ rounds ⟨⟨by simp, rfl⟩, start⟩
  rintro ⟨⟨pending, used⟩, t⟩ ⟨⟨pending', used'⟩, t'⟩ ⟨⟨entries, count⟩, related⟩
  simp only at entries count
  subst entries count
  cases pending' with
  | nil => exact .some (.inr ⟨⟨rfl, rfl⟩, related⟩)
  | cons entry pending' =>
    have ran := @whileSegment_rel S S' ops ops' siz R pivot pivot' sim chosen rounds entry.1 entry.2
      ⟨pending'.map fun s => (s.1 * siz, s.2 * siz), used⟩ ⟨pending', used⟩ ⟨rfl, rfl⟩ t t' related
    simp only [map_cons]
    generalize whileSegment ops siz pivot rounds _ _ _ _ = p,
      whileSegment ops' 1 pivot' rounds _ _ _ _ = q at ran
    cases ran with
    | none => exact .none
    | some both => exact .some (.inl both)

end

end simulation

/-! ### The number of rounds does not matter -/

section rounds

variable {S : Type} {ops : Ops S} {siz : Int} {pivot : Int → Int} {rounds rounds' : Nat}

variable {r : Int × S}

variable {s : S}

section

variable (more : rounds ≤ rounds')

include more

private theorem whileOne_mono {seg1 seg2 : Int}
    (ends : whileOne ops siz rounds b seg1 seg2 s = some r) :
    whileOne ops siz rounds' b seg1 seg2 s = some r := by
  refine loop_mono (fun x next same => ?_) more ends
  obtain ⟨up, upEnds, same⟩ := Option.bind_eq_some_iff.mp same
  obtain ⟨down, downEnds, same⟩ := Option.bind_eq_some_iff.mp same
  refine Option.bind_eq_some_iff.mpr ⟨up, loop_mono (fun _ _ same => same) more upEnds, ?_⟩
  exact Option.bind_eq_some_iff.mpr ⟨down, loop_mono (fun _ _ same => same) more downEnds, same⟩

private theorem partition_mono {e : Int} (ends : partition ops siz pivot rounds b e s = some r) :
    partition ops siz pivot rounds' b e s = some r := by
  obtain ⟨x, xEnds, same⟩ := Option.map_eq_some_iff.mp ends
  exact Option.map_eq_some_iff.mpr ⟨x, whileOne_mono more xEnds, same⟩

private theorem whileSegment_mono {e : Int} {stack : Stack} {r : Stack × S}
    (ends : whileSegment ops siz pivot rounds b e stack s = some r) :
    whileSegment ops siz pivot rounds' b e stack s = some r := by
  refine loop_mono (fun x next same => ?_) more ends
  split at same
  next nonempty =>
    obtain ⟨part, partEnds, same⟩ := Option.map_eq_some_iff.mp same
    rw [if_pos nonempty, partition_mono more partEnds, Option.map_some, same]
  next empty => rw [if_neg empty, same]

/-- More rounds do not change a result. -/
theorem qsort_mono {nmemb : Nat} {r : Stack × S}
    (ends : qsort ops siz pivot rounds nmemb s = some r) :
    qsort ops siz pivot rounds' nmemb s = some r := by
  refine loop_mono (fun x next same => ?_) more ends
  cases entries : x.1.pending with
  | nil => simpa only [entries] using same
  | cons entry pending =>
    simp only [entries] at same ⊢
    obtain ⟨y, yEnds, same⟩ := Option.map_eq_some_iff.mp same
    rw [whileSegment_mono more yEnds, Option.map_some, same]

end

end rounds

/-! ### The bytes represent the elements -/

structure Represents (siz : Nat) (mem : Memory σ) (st : Elements (List UInt8) σ) : Prop where
  elems : st.elems = element siz mem.bytes
  arg : st.arg = mem.arg
  touched : ∀ x ∈ mem.touched, ∃ k ∈ st.touched, k * siz ≤ x ∧ x < k * siz + siz

def elementCompare (compare : Compare σ) (siz : Nat) : ElementCompare (List UInt8) σ :=
  fun s i j x y => compare s (i * siz) (j * siz) x y

/-- The comparison and the exchange of elements in memory are those of the array. -/
theorem byteOps_simulates (compare : Compare σ) (stride : 0 < siz) :
    Simulates (byteOps compare siz) (elementOps (elementCompare compare siz)) siz
      (Represents siz) := by
  refine ⟨by omega, ?_, ?_, ?_⟩
  · rintro i j mem st ⟨elems, arg, _⟩
    simp only [byteOps, callCompare, elementOps, elementCompare, elems, arg]
    rfl
  · rintro i j mem st ⟨elems, arg, touched⟩
    refine ⟨elems, ?_, fun x member => ?_⟩
    · simp only [byteOps, callCompare, elementOps, elementCompare, elems, arg]
      rfl
    simp only [byteOps, callCompare, mem_append, mem_addresses] at member
    simp only [elementOps, mem_cons]
    rcases member with (first | second) | old
    · exact ⟨i, .inl rfl, first⟩
    · exact ⟨j, .inr (.inl rfl), second⟩
    · obtain ⟨k, known, inside⟩ := touched x old
      exact ⟨k, .inr (.inr known), inside⟩
  · rintro i j mem st ⟨elems, arg, touched⟩
    have exchanged := zendQsortSwap_spec siz (i * siz) (j * siz) mem (apart_blocks siz i j)
    refine ⟨?_, arg.trans exchanged.arg.symm, fun x member => ?_⟩
    · simp only [byteOps, elementOps, elems]
      rw [exchanged.bytes, element_exchangeBlocks]
    simp only [elementOps, mem_cons]
    rcases exchanged.touched x member with old | first | second
    · obtain ⟨k, known, inside⟩ := touched x old
      exact ⟨k, .inr (.inr known), inside⟩
    · exact ⟨i, .inl rfl, first⟩
    · exact ⟨j, .inr (.inl rfl), second⟩

/-- The index of the pivot. -/
def elementPivot (siz : Nat) (distance : Int) : Int := distance * siz / 2 % 2 ^ 32 / siz

private theorem pivotOffset_eq (siz : Nat) (distance : Int) :
    pivotOffset siz (distance * siz) = elementPivot siz distance * siz := by
  simp only [pivotOffset, elementPivot]
  have divided := Int.ediv_mul_add_emod (distance * siz / 2 % 2 ^ 32) siz
  omega

/-- It lies inside the segment, also where `offset` is cut to 32 bits. -/
theorem elementPivot_bounded (stride : 0 < siz) : Bounded (elementPivot siz) := by
  intro distance nonneg
  have product : 0 ≤ distance * siz := Int.mul_nonneg nonneg (by omega)
  constructor
  · exact Int.ediv_nonneg (by omega) (by omega)
  · have cut : distance * siz / 2 % 2 ^ 32 ≤ distance * siz := by omega
    calc distance * siz / 2 % 2 ^ 32 / siz ≤ distance * siz / siz := Int.ediv_le_ediv (by omega) cut
      _ = distance := Int.mul_ediv_cancel distance (by omega)

/-- What the sort of the array leaves behind. -/
structure Sorts (nmemb siz : Nat) (compare : Compare σ) (bytes : Int → UInt8) (used : Nat)
    (mem : Memory σ) : Prop where
  perm : (listUpTo nmemb (element siz mem.bytes)).Perm (listUpTo nmemb (element siz bytes))
  outside : ∀ x, x < 0 ∨ (nmemb : Int) * siz ≤ x → mem.bytes x = bytes x
  inside : ∀ x ∈ mem.touched, 0 ≤ x ∧ x < nmemb * siz
  stack : nmemb < 2 ^ 64 → used ≤ 64
  sorted : ∀ le : List UInt8 → List UInt8 → Prop, (∀ x y, le x y ∨ le y x) →
    (∀ x y z, le x y → le y z → le x z) →
    (∀ s p q x y, 0 < (compare s p q x y).1 ↔ ¬ le x y) →
      (listUpTo nmemb (element siz mem.bytes)).Pairwise le

theorem pairwise_listUpTo {α : Type} {le : α → α → Prop} {n : Nat} {a : Int → α}
    (ordered : ∀ i j : Nat, i < j → j < n → le (a i) (a j)) : (listUpTo n a).Pairwise le := by
  rw [listUpTo, pairwise_map]
  refine List.Pairwise.imp_of_mem ?_ pairwise_lt_range
  intro i j _ inJ less
  exact ordered i j less (mem_range.mp inJ)

private theorem sorts_of_represents {nmemb used : Nat} (stride : 0 < siz) {compare : Compare σ}
    {mem : Memory σ} {st : Elements (List UInt8) σ} (represents : Represents siz mem st)
    (sorting : Sorting (elementCompare compare siz) nmemb (element siz bytes) [] st)
    (stack : (nmemb : Int) < 2 ^ 64 → used ≤ 64) : Sorts nmemb siz compare bytes used mem := by
  have elems := represents.elems
  refine ⟨?_, ?_, ?_, fun bound => stack (by omega), ?_⟩
  · rw [← elems]
    exact sorting.rearranged.perm
  · intro x outside
    -- the element that holds the byte is none of the array
    have low : x / siz * siz ≤ x := Int.ediv_mul_le x (by omega)
    have high : x < x / siz * siz + siz := by
      have divided := Int.ediv_mul_add_emod x siz
      have small := Int.emod_lt_of_pos x (show (0 : Int) < siz by omega)
      omega
    have index : x / siz < 0 ∨ (nmemb : Int) - 1 < x / siz := by
      rcases outside with below | above
      · left
        exact Int.ediv_neg_of_neg_of_pos below (by omega)
      · have least := Int.le_ediv_of_mul_le (show (0 : Int) < siz by omega) above
        omega
    have same := sorting.rearranged.outside index
    rw [elems] at same
    exact map_inj_left.mp same x (mem_addresses.mpr ⟨low, high⟩)
  · intro x member
    obtain ⟨k, known, low, high⟩ := represents.touched x member
    have index := sorting.inside k known
    have first := Int.mul_nonneg index.1 (show (0 : Int) ≤ siz by omega)
    have last := Int.mul_le_mul_of_nonneg_right (show k + 1 ≤ (nmemb : Int) by omega)
      (show (0 : Int) ≤ siz by omega)
    rw [Int.add_mul] at last
    omega
  · intro le total trans positive
    have ranks : Ranks (elementCompare compare siz) le :=
      ⟨total, trans, fun s i j x y => positive s _ _ x y⟩
    apply pairwise_listUpTo
    intro i j less high
    rw [← elems]
    rcases sorting.ordered le ranks i j (by omega) (by omega)
      (by omega) with ordered | ⟨s, member, _⟩
    · exact ordered
    · cases member

private theorem zendQsortR_empty (nmemb : Nat) (compare : Compare σ) (mem : Memory σ) {rounds : Nat}
    (enough : 2 ≤ rounds) :
    zendQsortR rounds nmemb 0 compare mem = some (⟨[], 1⟩, mem) := by
  obtain ⟨rounds, rfl⟩ := Nat.exists_eq_add_of_le' enough
  simp [zendQsortR, qsort, forStack, whileSegment, loop]

/-- `zend_qsort_r` ends for any comparison and any array, leaves a permutation of the elements,
reads and writes nothing but the array and needs at most 64 stack entries; for a total preorder the
elements are in order. -/
theorem zendQsortR_sorts (compare : Compare σ) (nmemb siz : Nat) (bytes : Int → UInt8) (arg : σ) :
    ∃ r, (∀ rounds, nmemb + 2 ≤ rounds → zendQsortR rounds nmemb siz compare
      ⟨bytes, arg, []⟩ = some r) ∧
      Sorts nmemb siz compare bytes r.1.used r.2 := by
  rcases Nat.eq_zero_or_pos siz with rfl | stride
  · refine ⟨_, fun rounds enough => zendQsortR_empty nmemb compare _ (by omega), Perm.refl _,
      fun _ _ => rfl,
      by simp, fun _ => by simp only; omega, ?_⟩
    intro le total trans positive
    apply pairwise_listUpTo
    intro i j _ _
    exact (total [] []).elim id id
  obtain ⟨r, ends, sorting, stack⟩ := qsort_spec (elementPivot_bounded stride)
    (elementCompare compare siz) nmemb
    ⟨element siz bytes, arg, []⟩ rfl (le_refl (nmemb + 2))
  have related := qsort_rel (byteOps_simulates compare stride) (pivotOffset_eq siz)
    (nmemb + 2) nmemb
    (⟨rfl, rfl, by simp⟩ : Represents siz ⟨bytes, arg, []⟩ ⟨element siz bytes, arg, []⟩)
  rw [ends] at related
  cases ran : qsort (byteOps compare siz) siz (pivotOffset siz)
    (nmemb + 2) nmemb ⟨bytes, arg, []⟩ with
  | none =>
    rw [ran] at related
    cases related
  | some r' =>
    rw [ran] at related
    cases related with
    | some both =>
      refine ⟨r', fun rounds enough => qsort_mono enough ran, ?_⟩
      exact sorts_of_represents stride both.2 sorting (both.1.2 ▸ stack)

end Jonj.Qsort
