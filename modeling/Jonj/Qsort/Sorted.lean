import Jonj.Qsort.Partition

/-!
# The whole sort on elements

`Sorting` is the invariant: two elements are in order unless one of the segments that are still to
be sorted holds both. A round of the inner loop replaces the segment it works on by the two sides of
its pivot. The stack stays shallow since the loop goes on with the smaller side.
-/
namespace Jonj.Qsort

open Loop Rearrangement List

variable {α σ : Type} {cmp : ElementCompare α σ} {n : Int} {a : Int → α} {pivot : Int → Int}

/-- The array while the segments `segs` are still to be sorted. -/
structure Sorting (cmp : ElementCompare α σ) (n : Int) (a : Int → α) (segs : List (Int × Int))
    (st : Elements α σ) :
    Prop where
  bounds : ∀ s ∈ segs, 0 ≤ s.1 ∧ s.1 - 1 ≤ s.2 ∧ s.2 ≤ n - 1
  disjoint : segs.Pairwise fun s t => s.2 < t.1 ∨ t.2 < s.1
  rearranged : Rearranged 0 (n - 1) a st.elems
  inside : Inside 0 (n - 1) st
  ordered : ∀ le, Ranks cmp le → ∀ i j, 0 ≤ i → i < j → j ≤ n - 1 →
    le (st.elems i) (st.elems j) ∨ ∃ s ∈ segs, s.1 ≤ i ∧ j ≤ s.2

variable {st : Elements α σ} {segs : List (Int × Int)}

theorem Sorting.perm {segs' : List (Int × Int)} (sorting : Sorting cmp n a segs st)
    (order : segs.Perm segs') : Sorting cmp n a segs' st := by
  refine ⟨fun s member => sorting.bounds s (order.mem_iff.mpr member), ?_, sorting.rearranged,
    sorting.inside, ?_⟩
  · exact (order.pairwise_iff fun apart => apart.symm).mp sorting.disjoint
  intro le ranks i j low less high
  rcases sorting.ordered le ranks i j low less high with ordered | ⟨s, member, inside⟩
  · exact .inl ordered
  · exact .inr ⟨s, order.mem_iff.mp member, inside⟩

theorem Sorting.drop {s : Int × Int}
    (sorting : Sorting cmp n a (s :: segs) st) (short : s.2 ≤ s.1) : Sorting cmp n a segs st := by
  refine ⟨fun t member => sorting.bounds t (mem_cons_of_mem s member), sorting.disjoint.of_cons,
    sorting.rearranged, sorting.inside, ?_⟩
  intro le ranks i j low less high
  rcases sorting.ordered le ranks i j low less high with ordered | ⟨t, member, inside⟩
  · exact .inl ordered
  · rcases mem_cons.mp member with rfl | later
    · omega
    · exact .inr ⟨t, later, inside⟩

theorem Sorting.part {b e m : Int} {st' : Elements α σ}
    (sorting : Sorting cmp n a ((b, e) :: segs) st) (low : b ≤ m) (high : m ≤ e)
    (rearranged : Rearranged b e st.elems st'.elems) (inside : Inside 0 (n - 1) st')
    (parted : Parted cmp b e m st'.elems) :
    Sorting cmp n a ((b, m - 1) :: (m + 1, e) :: segs) st' := by
  have bounds := sorting.bounds (b, e) (by simp)
  have apart := pairwise_cons.mp sorting.disjoint
  refine ⟨?_, ?_, ?_, inside, ?_⟩
  · intro s member
    rcases mem_cons.mp member with rfl | member
    · omega
    · rcases mem_cons.mp member with rfl | member
      · omega
      · exact sorting.bounds s (mem_cons_of_mem _ member)
  · refine pairwise_cons.mpr ⟨?_, pairwise_cons.mpr ⟨?_, apart.2⟩⟩
    · intro s member
      rcases mem_cons.mp member with rfl | member
      · omega
      · have away := apart.1 s member
        omega
    · intro s member
      have away := apart.1 s member
      omega
  · exact sorting.rearranged.trans (rearranged.mono bounds.1 bounds.2.2)
  · intro le ranks i j first less last
    -- an element outside the segment was in order with all of the segment
    have outside : ∀ x y, 0 ≤ x → x < y → y ≤ n - 1 → ¬ (b ≤ x ∧ y ≤ e) →
        le (st.elems x) (st.elems y) ∨ ∃ s ∈ segs, s.1 ≤ x ∧ y ≤ s.2 := by
      intro x y low' less' high' notBoth
      rcases sorting.ordered le ranks x y low' less' high' with ordered | ⟨s, member, within⟩
      · exact .inl ordered
      · rcases mem_cons.mp member with rfl | later
        · exact absurd within notBoth
        · exact .inr ⟨s, later, within⟩
    have keep : (∃ s ∈ segs, s.1 ≤ i ∧ j ≤ s.2) → ∃ s ∈ (b, m - 1) :: (m + 1, e) :: segs, s.1 ≤ i ∧
        j ≤ s.2 := by
      rintro ⟨s, member, within⟩
      exact ⟨s, mem_cons_of_mem _ (mem_cons_of_mem _ member), within⟩
    by_cases inI : b ≤ i ∧ i ≤ e
    · by_cases inJ : b ≤ j ∧ j ≤ e
      · obtain ⟨small, large⟩ := parted le ranks
        by_cases left : j < m
        · exact .inr ⟨(b, m - 1), by simp, by omega⟩
        by_cases right : m < i
        · exact .inr ⟨(m + 1, e), by simp, by omega⟩
        left
        -- the pivot lies between the two
        have below : le (st'.elems i) (st'.elems m) := by
          by_cases here : i = m
          · rw [here]
            exact ranks.refl _
          · exact small i inI.1 (by omega)
        have above : le (st'.elems m) (st'.elems j) := by
          by_cases here : j = m
          · rw [here]
            exact ranks.refl _
          · exact large j (by omega) inJ.2
        exact ranks.trans _ _ _ below above
      · obtain ⟨k, from_, upTo, value⟩ := rearranged.inside inI.1 inI.2
        rw [value, rearranged.outside (by omega : j < b ∨ e < j)]
        rcases outside k j (by omega) (by omega) last (by omega) with ordered | ⟨s, member, within⟩
        · exact .inl ordered
        · have away := apart.1 s member
          omega
    · by_cases inJ : b ≤ j ∧ j ≤ e
      · obtain ⟨k, from_, upTo, value⟩ := rearranged.inside inJ.1 inJ.2
        rw [value, rearranged.outside (by omega : i < b ∨ e < i)]
        rcases outside i k first (by omega) (by omega) (by omega) with ordered | ⟨s, member, within⟩
        · exact .inl ordered
        · have away := apart.1 s member
          omega
      · rw [rearranged.outside (by omega : i < b ∨ e < i),
          rearranged.outside (by omega : j < b ∨ e < j)]
        exact (outside i j first less last (by omega)).imp id keep

/-! ### The stack -/

/-- The segment at depth `d` of the stack has at most `n / 2 ^ d` elements. -/
def Shallow (n : Int) : List (Int × Int) → Prop
  | [] => True
  | s :: segs => (s.2 - s.1 + 1) * 2 ^ segs.length ≤ n ∧ Shallow n segs

/-- The stack never needs more than its 64 entries. -/
structure Depth (n : Int) (segs : List (Int × Int)) (used : Nat) : Prop where
  shallow : Shallow n segs
  used : n < 2 ^ 64 → used ≤ 64

private theorem shallow_half {size half : Int} {depth : Nat} (fits : size * 2 ^ depth ≤ n)
    (smaller : 2 * half ≤ size) :
    half * 2 ^ (depth + 1) ≤ n := by
  have positive : (0 : Int) ≤ 2 ^ depth := by positivity
  calc half * 2 ^ (depth + 1) = 2 * half * 2 ^ depth := by ring
    _ ≤ size * 2 ^ depth := Int.mul_le_mul_of_nonneg_right smaller positive
    _ ≤ n := fits

theorem shallow_mono {size smaller : Int} {depth : Nat} (fits : size * 2 ^ depth ≤ n)
    (less : smaller ≤ size) :
    smaller * 2 ^ depth ≤ n :=
  (Int.mul_le_mul_of_nonneg_right less (by positivity)).trans fits

/-- A segment of two or more elements is pushed only while there is room. -/
theorem depth_of_pushed {size : Int} {depth : Nat} (fits : size * 2 ^ depth ≤ n) (two : 2 ≤ size)
    (bound : n < 2 ^ 64) : depth + 1 ≤ 64 := by
  have least := shallow_mono fits two
  by_contra deep
  have power : (2 : Int) ^ 64 ≤ 2 ^ depth := by
    apply pow_le_pow_right₀ (by omega)
    omega
  omega

/-- What the segments weigh together, each one more than its length. -/
def weight : List (Int × Int) → Nat
  | [] => 0
  | s :: segs => (s.2 - s.1 + 2).toNat + weight segs

/-- The loop goes on with the smaller side; the stack stays shallow, and no weight is added. -/
theorem split_spec {b e m : Int} {stack : Stack} {st' : Elements α σ}
    (sorting : Sorting cmp n a ((b, e) :: stack.pending) st)
    (depth : Depth n ((b, e) :: stack.pending) stack.used) (nonempty : b < e) (low : b ≤ m)
    (high : m ≤ e) (rearranged : Rearranged b e st.elems st'.elems) (inside : Inside 0 (n - 1) st')
    (parted : Parted cmp b e m st'.elems) :
    let next := split 1 b e m stack
    Sorting cmp n a ((next.1, next.2.1) :: next.2.2.pending) st' ∧
      Depth n ((next.1, next.2.1) :: next.2.2.pending) next.2.2.used ∧
      weight ((next.1, next.2.1) :: next.2.2.pending) ≤ weight ((b, e) :: stack.pending) ∧
      (next.2.1 - next.1 + 1).toNat < (e - b + 1).toNat := by
  have parts := sorting.part low high rearranged inside parted
  obtain ⟨⟨fits, shallow⟩, used⟩ := depth
  -- the side that is sorted next and the one that may be pushed
  obtain ⟨near, far, isNext, parts, total, smaller, least⟩ : ∃ near far : Int × Int,
      split 1 b e m stack = (near.1, near.2, if far.1 < far.2 then stack.push far.1 far.2
        else stack) ∧
      Sorting cmp n a (near :: far :: stack.pending) st' ∧
        near.2 - near.1 + (far.2 - far.1) = e - b - 2 ∧
      near.2 - near.1 ≤ far.2 - far.1 ∧ -1 ≤ near.2 - near.1 := by
    by_cases smaller : m - b ≤ e - m
    · exact ⟨(b, m - 1), (m + 1, e), if_pos smaller,
        parts, by simp only; omega, by simp only; omega, by simp only; omega⟩
    · exact ⟨(m + 1, e), (b, m - 1), if_neg smaller,
        parts.perm (Perm.swap _ _ _), by simp only; omega, by simp only; omega,
        by simp only; omega⟩
  rw [isNext]
  by_cases more : far.1 < far.2
  · simp only [if_pos more, Stack.push]
    refine ⟨parts, ⟨⟨?_, ?_, shallow⟩, ?_⟩, ?_, ?_⟩
    · exact shallow_half fits (by omega)
    · exact shallow_mono fits (by omega)
    · intro bound
      exact max_le (used bound) (depth_of_pushed fits (by omega) bound)
    · simp only [weight]
      omega
    · omega
  · simp only [if_neg more]
    refine ⟨(parts.perm (Perm.swap _ _ _)).drop (by omega), ⟨⟨?_, shallow⟩, used⟩, ?_, ?_⟩
    · exact shallow_mono fits (by omega)
    · simp only [weight]
      omega
    · omega

/-! ### The loops -/

private theorem whileSegment_spec (bounded : Bounded pivot) {b e : Int} {stack : Stack}
    {st : Elements α σ} {rounds : Nat} (sorting : Sorting cmp n a ((b, e) :: stack.pending) st)
    (depth : Depth n ((b, e) :: stack.pending) stack.used) (enough : n.toNat < rounds) :
    ∃ r, whileSegment (elementOps cmp) 1 pivot rounds b e stack st = some r ∧
      Sorting cmp n a r.1.pending r.2 ∧
      Depth n r.1.pending r.1.used ∧ weight r.1.pending < weight ((b, e) :: stack.pending) := by
  have measured : (e - b + 1).toNat < rounds := by
    have bounds := sorting.bounds (b, e) (by simp)
    omega
  refine loop_total
    (fun x : (Int × Int × Stack) × Elements α σ =>
      Sorting cmp n a ((x.1.1, x.1.2.1) :: x.1.2.2.pending) x.2 ∧
      Depth n ((x.1.1, x.1.2.1) :: x.1.2.2.pending) x.1.2.2.used ∧
      weight ((x.1.1, x.1.2.1) :: x.1.2.2.pending) ≤ weight ((b, e) :: stack.pending)) _
    (fun x => (x.1.2.1 - x.1.1 + 1).toNat) ?_ ⟨sorting, depth, le_refl _⟩ measured
  rintro ⟨⟨b', e', stack'⟩, st'⟩ ⟨sorting', depth', weighs⟩
  have bounds := sorting'.bounds (b', e') (by simp)
  by_cases nonempty : b' < e'
  · left
    obtain ⟨r, ends, low, high, rearranged, inside, parted⟩ :=
      @partition_spec _ _ cmp 0 (n - 1) pivot bounded b' e' st' rounds sorting'.inside bounds.1
        bounds.2.2 nonempty (by omega)
    obtain ⟨sorting'', depth'', lighter, shorter⟩ :=
      split_spec sorting' depth' nonempty low high rearranged inside parted
    refine ⟨(split 1 b' e' r.1 stack', r.2), ?_,
      ⟨sorting'', depth'', lighter.trans weighs⟩, shorter⟩
    rw [if_pos nonempty, ends, Option.map_some]
  · right
    refine ⟨_, if_neg nonempty, sorting'.drop (by simp only; omega),
      ⟨depth'.shallow.2, depth'.used⟩, ?_⟩
    have less : weight stack'.pending < weight ((b', e') :: stack'.pending) := by
      simp only [weight]
      omega
    exact lt_of_lt_of_le less weighs

private theorem forStack_spec (bounded : Bounded pivot) {stack : Stack} {rounds : Nat}
    (sorting : Sorting cmp n a stack.pending st) (depth : Depth n stack.pending stack.used)
    (enough : n.toNat < rounds) (heavy : weight stack.pending < rounds) :
    ∃ r, forStack (elementOps cmp) 1 pivot rounds stack st = some r ∧ Sorting cmp n a [] r.2 ∧
      (n < 2 ^ 64 → r.1.used ≤ 64) := by
  refine loop_total
    (fun x : Stack × Elements α σ => Sorting cmp n a x.1.pending x.2 ∧
      Depth n x.1.pending x.1.used) _
    (fun x => weight x.1.pending) ?_ ⟨sorting, depth⟩ heavy
  rintro ⟨⟨pending, used⟩, st'⟩ ⟨sorting', depth'⟩
  cases pending with
  | nil => exact .inr ⟨_, rfl, sorting', depth'.used⟩
  | cons s pending =>
    left
    obtain ⟨r, ends, sorting'', depth'', lighter⟩ :=
      @whileSegment_spec _ _ cmp n a pivot bounded s.1 s.2 ⟨pending, used⟩ st' rounds sorting'
        depth' enough
    refine ⟨r, ?_, ⟨sorting'', depth''⟩, lighter⟩
    simp [ends]

/-- The sort ends, rearranges the elements within the array, touches nothing else and needs no more
than 64 stack entries; if the comparison is a total preorder, the elements are in order. -/
theorem qsort_spec (bounded : Bounded pivot) (cmp : ElementCompare α σ) (nmemb : Nat)
    (st : Elements α σ) (fresh : st.touched = []) {rounds : Nat} (enough : nmemb + 2 ≤ rounds) :
    ∃ r, qsort (elementOps cmp) 1 pivot rounds nmemb st = some r ∧
      Sorting cmp nmemb st.elems [] r.2 ∧
      ((nmemb : Int) < 2 ^ 64 → r.1.used ≤ 64) := by
  apply forStack_spec bounded
  · refine ⟨?_, pairwise_singleton _ _, Rearranged.refl _ _ _, by simp [Inside, fresh], ?_⟩
    · intro s member
      rw [mem_singleton.mp member]
      omega
    · intro le _ i j low _ high
      exact .inr ⟨_, mem_singleton.mpr rfl, low, by omega⟩
  · refine ⟨⟨?_, trivial⟩, fun _ => by simp only; omega⟩
    simp
  · omega
  · simp only [weight]
    omega

end Jonj.Qsort
